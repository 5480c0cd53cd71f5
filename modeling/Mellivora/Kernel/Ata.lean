import Mellivora.Lib.WriteLog
import Mellivora.Kernel.State

/-!
# The ATA driver

`ata_read_sectors` and `ata_write_sectors` of `ata.inc`: a bounds check and up to three raw
commands. A raw command checks the device's status before each sector it transfers, so one that
fails has moved the sectors before the error. Every write that succeeds drops the block cache.

`fi_io_gate`, which refuses a write on purpose, is a command that fails before its first sector; the
page cache dropped by `pc_invalidate` holds no metadata and is not part of the model.

A raw command carries sixteen bits of the count. The model is that of transfers of 1 to 65536
sectors: with a count of 0 the device would move 65536, and with a greater one fewer than the loop
of the driver waits for.
-/

namespace Mellivora

/-- The sectors of the disk from `lba` on. -/
def sectorsAt (d : Disk) (lba cnt : Nat) : List Sector := (List.range cnt).map fun i => d (lba + i)

/-- The writes that put `data` on the disk from `lba` on. -/
def writesAt (lba : Nat) (data : List Sector) : List (Nat × Sector) :=
  data.zipIdx.map fun (s, i) => (lba + i, s)

/-- The sectors reach the disk, and the trace of what was written. -/
def Kernel.transfer (k : Kernel) (lba : Nat) (data : List Sector) : Kernel :=
  { k with
    disk := WriteLog.afterWrites k.disk (writesAt lba data)
    trace := k.trace ++ writesAt lba data }

/-- How many sectors of `cnt` the next raw command moves before it fails, or `none` if it does not
fail. -/
def nextFault (cnt : Nat) : KernelM (Option Nat) := do
  let k ← get
  match k.faults with
  | [] => return none
  | f :: faults =>
    set { k with faults }
    return f.filter (· < cnt)

/-- How many sectors of `cnt` a transfer has moved when it gives up after its tries, or `none` if
one of them succeeds. -/
def gaveUpAfter (cnt : Nat) : (tries got : Nat) → (faults : List (Option Nat)) → Option Nat
  | 0, got, _ => some got
  | _ + 1, _, [] => none
  | tries + 1, got, f :: faults =>
    match f.filter (· < cnt) with
    | none => none
    | some n => gaveUpAfter cnt tries (max got n) faults

/-- `blk_cache_flush` -/
def blkCacheFlush : KernelM Unit :=
  modify fun k => { k with blkCacheTags := fun _ => 0 }

/-- The bounds check of both routines. -/
def outOfBounds (k : Kernel) (lba cnt : Nat) : Bool :=
  k.ataTotalSectors ≤ lba || k.ataTotalSectors < lba + cnt

/-- The retry loop of `ata_read_sectors`. `got` is how much of the destination is filled. -/
def ataReadTries (lba cnt : Nat) : (tries got : Nat) → KernelM (Bool × List Sector)
  | 0, got => return (true, sectorsAt (← get).disk lba got)
  | tries + 1, got => do
    match ← nextFault cnt with
    | none => return (false, sectorsAt (← get).disk lba cnt)
    | some n => ataReadTries lba cnt tries (max got n)

/-- `ata_read_sectors`: CF and the sectors that have reached the destination, all `cnt` of them
unless CF is set. -/
def ataReadSectors (lba cnt : Nat) : KernelM (Bool × List Sector) := do
  if outOfBounds (← get) lba cnt then return (true, [])
  ataReadTries lba cnt 3 0

/-- The retry loop of `ata_write_sectors`. -/
def ataWriteTries (lba : Nat) (data : List Sector) : (tries : Nat) → KernelM Bool
  | 0 => return true
  | tries + 1 => do
    match ← nextFault data.length with
    | none =>
      modify (·.transfer lba data)
      blkCacheFlush
      return false
    | some n =>
      modify (·.transfer lba (data.take n))
      ataWriteTries lba data tries

/-- `ata_write_sectors`, CF set when the transfer is refused or gives up -/
def ataWriteSectors (lba : Nat) (data : List Sector) : KernelM Bool := do
  if outOfBounds (← get) lba data.length then return true
  ataWriteTries lba data 3

/-- A read of one sector: a command that fails has not touched the destination. -/
def ataReadSector (lba : Nat) : KernelM (Option Sector) := do
  let (cf, data) ← ataReadSectors lba 1
  return if cf then none else data.head?

end Mellivora
