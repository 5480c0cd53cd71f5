import Mellivora.Lib.Outcome
import Mellivora.Kernel.Ata

/-!
# The block cache

`blkcache.inc`: thirty-two entries of one 4 KiB block each, fully associative, refilled round robin.
Only whole data blocks are cached, by their number in the data area; everything else goes straight
to the device. The locks are left out, and the volume is not encrypted, so the cipher's checks pass
and its transform is the identity.
-/

namespace Mellivora

open Outcome

/-- `BLK_CACHE_ENTRIES`. -/
def blkCacheEntries : Nat := 32
/-- `BLK_CACHE_SECTORS`: the sectors of an entry. -/
def blkCacheSectors : Nat := hbfsSectorsPerBlk

/-- A request for exactly one block of the data area. -/
def wholeDataBlock (lba cnt : Nat) : Bool :=
  cnt == blkCacheSectors && hbfsDataStart ≤ lba && (lba - hbfsDataStart) % blkCacheSectors == 0

/-- The tag of the block at sector `lba`; 0 is an empty entry. -/
def blockTag (lba : Nat) : Nat := (lba - hbfsDataStart) / blkCacheSectors + 1

/-- `.bcr_scan`: the first entry with the tag. -/
def Kernel.cacheIndex? (k : Kernel) (tag : Nat) : Option Nat :=
  (List.range blkCacheEntries).find? fun i => k.blkCacheTags i == tag

/-- The sectors an entry holds. -/
def Kernel.cachedBlock (k : Kernel) (i : Nat) : List Sector :=
  (List.range blkCacheSectors).map (k.blkCacheData i)

/-- Copies a block into an entry. -/
def Kernel.fillEntry (k : Kernel) (slot : Nat) (data : List Sector) : Kernel :=
  { k with
    blkCacheData := Function.update k.blkCacheData slot fun j =>
      (data[j]?).getD (k.blkCacheData slot j) }

/-- `.bcr_single`: CF and the sectors that have reached the destination. -/
def blkCacheReadSingle (lba cnt : Nat) : KernelM (Bool × List Sector) := do
  if !wholeDataBlock lba cnt then return ← ataReadSectors lba cnt
  match (← get).cacheIndex? (blockTag lba) with
  | some i => return (false, (← get).cachedBlock i)
  | none =>
    let slot := (← get).blkCacheHand % blkCacheEntries
    modify fun k => { k with blkCacheHand := k.blkCacheHand + 1 }
    let (cf, data) ← ataReadSectors lba blkCacheSectors
    modify (·.fillEntry slot data)
    if cf then return (true, [])
    modify fun k => { k with blkCacheTags := Function.update k.blkCacheTags slot (blockTag lba) }
    return (false, (← get).cachedBlock slot)

/-- `.bcr_run_loop`: a run of whole blocks, one after the other. -/
def blkCacheReadRun (lba : Nat) : (blocks : Nat) → KernelM (Bool × List Sector)
  | 0 => return (false, [])
  | blocks + 1 => do
    let (cf, data) ← blkCacheReadSingle lba blkCacheSectors
    if cf then return (true, data)
    let (cf, rest) ← blkCacheReadRun (lba + blkCacheSectors) blocks
    return (cf, data ++ rest)

/-- `blk_cache_read`: a request of several blocks goes block by block. -/
def blkCacheRead (lba cnt : Nat) : KernelM (Bool × List Sector) :=
  if cnt ≤ blkCacheSectors ∨ cnt % blkCacheSectors ≠ 0 then blkCacheReadSingle lba cnt
  else blkCacheReadRun lba (cnt / blkCacheSectors)

/-- `blk_cache_write`: outside an encrypted region it is `ata_write_sectors`. -/
def blkCacheWrite (lba : Nat) (data : List Sector) : KernelM Bool := ataWriteSectors lba data

/-! ## Runs of the cache's users -/

/-- An operation on the cached device. -/
inductive CacheOp
  | read (lba cnt : Nat)
  | write (lba : Nat) (data : List Sector)
  | ataWrite (lba : Nat) (data : List Sector)

/-- The kernel after the operation. -/
def CacheOp.step : CacheOp → Kernel → Kernel
  | read lba cnt, k => ((blkCacheRead lba cnt).run k).2
  | write lba data, k => ((blkCacheWrite lba data).run k).2
  | ataWrite lba data, k => ((ataWriteSectors lba data).run k).2

/-- A read that succeeds returns what is on the disk. -/
def CacheOp.Exact : CacheOp → Kernel → Prop
  | read lba cnt, k =>
    Yields (blkCacheRead lba cnt) (fun r k' => r.1 = false → r.2 = sectorsAt k'.disk lba cnt) k
  | _, _ => True

/-- The device moves sectors of a transfer that then fails for good. -/
def tornTransfer (k : Kernel) (lba cnt n : Nat) : Prop :=
  outOfBounds k lba cnt = false ∧ gaveUpAfter cnt 3 0 k.faults = some n ∧ 0 < n

/-- The next miss throws a block out. -/
def Kernel.evictsBlock (k : Kernel) : Prop := k.blkCacheTags (k.blkCacheHand % blkCacheEntries) ≠ 0

/-- Reading the data block at `lba` does not leave part of it in an entry that holds another one. -/
def readHarmless (lba cnt : Nat) (k : Kernel) : Prop :=
  wholeDataBlock lba cnt = true → k.cacheIndex? (blockTag lba) = none →
    ∀ n, tornTransfer k lba cnt n → ¬ k.evictsBlock

/-- `readHarmless` for each block of a run, at the state the read comes to it in. -/
def runHarmless : (lba blocks : Nat) → Kernel → Prop
  | _, 0, _ => True
  | lba, blocks + 1, k =>
    readHarmless lba blkCacheSectors k ∧ Yields (blkCacheReadSingle lba blkCacheSectors)
      (fun r k' => r.1 = false → runHarmless (lba + blkCacheSectors) blocks k') k

/-- The sector that place `j` of entry `i` is a copy of. -/
def Kernel.cachedLba (k : Kernel) (i j : Nat) : Nat :=
  hbfsDataStart + blkCacheSectors * (k.blkCacheTags i - 1) + j

/-- A write that fails after some of its sectors has not touched a block in the cache. -/
def writeHarmless (lba cnt : Nat) (k : Kernel) : Prop :=
  ∀ n, tornTransfer k lba cnt n → ∀ i < blkCacheEntries, k.blkCacheTags i ≠ 0 →
    ∀ j < blkCacheSectors, ∀ m < n, k.cachedLba i j ≠ lba + m

/-- The operation meets no fault that would leave the cache wrong. -/
def CacheOp.Harmless : CacheOp → Kernel → Prop
  | read lba cnt, k =>
    if cnt ≤ blkCacheSectors ∨ cnt % blkCacheSectors ≠ 0 then readHarmless lba cnt k
    else runHarmless lba (cnt / blkCacheSectors) k
  | write lba data, k => writeHarmless lba data.length k
  | ataWrite lba data, k => writeHarmless lba data.length k

end Mellivora
