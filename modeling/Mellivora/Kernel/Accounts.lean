import Mellivora.Lib.Outcome
import Mellivora.Kernel.Bitmap
import Mathlib.Data.Finset.Card

/-!
# The free-space account

The superblock counts the free blocks that the bitmap shows. `hbfs_alloc_blocks` and
`hbfs_free_blocks` change both in one transaction; this module says what it means that they agree,
and which failures of the device a call can be rolled back from.
-/

namespace Mellivora

open Outcome

/-- The bitmap as it is on the disk. -/
def diskBitmap (d : Disk) : Buffer := Buffer.ofDisk d hbfsBitmapStart

/-- The bitmap in memory is that of the disk. -/
def Kernel.BitmapLoaded (k : Kernel) : Prop :=
  ∀ i < hbfsBitmapSize, k.bitmapBuf i = diskBitmap k.disk i

/-- How many of the first `total` bits are clear. -/
def Buffer.clearBits (buf : Buffer) (total : Nat) : Nat :=
  ((Finset.range total).filter fun m => buf.bit m = false).card

/-- The free count in `hbfs_super_buf` and the one on the disk are the number of clear bits in the
bitmap on the disk. -/
structure Kernel.FreeCountExact (k : Kernel) : Prop where
  resident : k.superBuf.dword sbFreeBlocks = (diskBitmap k.disk).clearBits k.totalBlocks
  onDisk : (k.disk hbfsSuperblockLba).dword sbFreeBlocks =
    (diskBitmap k.disk).clearBits k.totalBlocks

/-- No transaction is open: neither in the kernel's variables nor in the resident superblock. -/
structure Kernel.Closed (k : Kernel) : Prop where
  depth : k.journalDepth = 0
  dirty : k.journalDirty = false
  state : k.superBuf.dword hbfsSbJrnlState = 0

/-! ## Calls of the allocator -/

/-- A call of the allocator. -/
inductive AllocOp
  | alloc (needed : Nat)
  | free (start count : Nat)

/-- What the call does. -/
def AllocOp.run : AllocOp → KernelM Unit
  | alloc needed => do let _ ← hbfsAllocBlocks needed
  | free start count => do let _ ← hbfsFreeBlocks start count

/-- A free is of blocks that are allocated. -/
def AllocOp.Legal (k : Kernel) : AllocOp → Prop
  | alloc _ => True
  | free start count => 0 < count ∧ start + count ≤ k.totalBlocks ∧
      ∀ m, start ≤ m → m < start + count → (diskBitmap k.disk).bit m = true

/-- A call, and what the device does with the commands it issues. -/
structure AllocCall where
  op : AllocOp
  faults : List (Option Nat)

/-- The device's faults of the call are set before it. -/
def AllocCall.enter (c : AllocCall) (k : Kernel) : Kernel := { k with faults := c.faults }

/-- The kernel after the call. -/
def AllocCall.step (c : AllocCall) (k : Kernel) : Kernel := (c.op.run.run (c.enter k)).2

/-! ## The two writes of a change -/

/-- `changeBlocks` up to the writes of the bitmap. -/
def tryBitmap (b : Bool) (start cnt : Nat) : KernelM Bool := do
  modify fun k => { k with bitmapBuf := k.bitmapBuf.setBits b start (signedTurns cnt) }
  hbfsJournalBegin
  hbfsMetaTry (hbfsBitmapStart + start / 4096) (.bitmapBuf (start / 4096)) (sectorSpan start cnt)

/-- The write of the free count. -/
def trySuper (count : Nat → Nat) : KernelM Bool := do
  modify fun k =>
    { k with superBuf := k.superBuf.setDword sbFreeBlocks (count (k.superBuf.dword sbFreeBlocks)) }
  hbfsMetaTry hbfsSuperblockLba .superBuf 1

/-! ## Errors that are rolled back

Which errors of the device a call comes back from is a matter of where in the list of errors they
stand: every command takes one entry for each of its tries. -/

/-- The records that the log of a transaction has room for. -/
def journalRecords : Nat := 15

/-- The errors that are left when a transfer of `cnt` sectors has succeeded or used up its tries. -/
def afterTries (cnt : Nat) : (tries : Nat) → (faults : List (Option Nat)) → List (Option Nat)
  | 0, faults => faults
  | _ + 1, [] => []
  | tries + 1, f :: faults =>
      if (f.filter (· < cnt)).isSome then afterTries cnt tries faults else faults

/-- Commands of one sector each, up to the first that gives up: whether one does, and the errors
left. -/
def commands : (n : Nat) → (faults : List (Option Nat)) → Bool × List (Option Nat)
  | 0, faults => (false, faults)
  | n + 1, faults =>
    if (gaveUpAfter 1 3 0 faults).isSome then (true, afterTries 1 3 faults)
    else commands n (afterTries 1 3 faults)

/-- The commands of a metadata write of `cnt` sectors. With a journal each sector is read, logged
with a header and written, as long as there is room in the log; without one it is just written. -/
def metaCommands (journalled : Bool) :
    (room cnt : Nat) → (faults : List (Option Nat)) → Bool × List (Option Nat)
  | _, 0, faults => (false, faults)
  | room, cnt + 1, faults =>
    if journalled ∧ room = 0 then (true, faults)
    else
      let first := commands (if journalled then 4 else 1) faults
      if first.1 then first else metaCommands journalled (room - 1) cnt first.2

/-- The sectors of the bitmap that a change writes, on a v4 volume with the one that has the
checksum. -/
def Kernel.bitmapWrites (k : Kernel) (start cnt : Nat) : Nat :=
  sectorSpan start cnt +
    if k.isV4 ∧ start / 4096 + sectorSpan start cnt < hbfsBitmapSects then 1 else 0

/-- The errors spare a change: once the transaction has begun, a write of the bitmap gives up or
finds the log full only where there is a journal to roll back with, and the device reports no error
after that; and if the bitmap is written, so is the superblock. -/
def SparesChange (k : Kernel) (start cnt : Nat) (faults : List (Option Nat)) : Prop :=
  let n := k.bitmapWrites start cnt
  let begun := if k.journalled then afterTries 1 3 faults else faults
  let bitmap := metaCommands k.journalled journalRecords n begun
  if bitmap.1 then k.journalled = true ∧ bitmap.2 = []
  else (metaCommands k.journalled (journalRecords - n) 1 bitmap.2).1 = false

/-- The errors that the load of the bitmap leaves, if the bitmap has to be loaded. -/
def Kernel.errorsLoaded (k : Kernel) : List (Option Nat) :=
  if k.bitmapValid then k.faults else afterTries hbfsBitmapSects 3 k.faults

/-- The bitmap can be loaded, and the errors of the device spare what the call then does to it. The
number of blocks asked for is positive as the code compares it. -/
structure AllocOp.Recovers (k : Kernel) (op : AllocOp) : Prop where
  loads : k.bitmapValid = true ∨ gaveUpAfter hbfsBitmapSects 3 0 k.faults = none
  spares : Usable k → match op with
    | alloc needed => ∀ first, firstFit (diskBitmap k.disk) needed k.totalBlocks = some first →
        SparesChange k first needed k.errorsLoaded
    | free start count => SparesChange k start count k.errorsLoaded
  positive : ∀ needed, op = alloc needed → needed < 2 ^ 31

end Mellivora
