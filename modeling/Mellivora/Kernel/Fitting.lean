import Mellivora.Kernel.Accounts
import Mellivora.Kernel.Transaction

/-!
# First fit

What `hbfs_alloc_blocks` should do, for a volume on a device that reports no error: it takes the
lowest run of free blocks that is long enough, and fails only when there is none. A change of the
bitmap is a transaction of its own or part of an open one, and the log of a transaction holds the
old contents of a limited number of sectors.
-/

namespace Mellivora

open Outcome

/-- The bits of blocks that a v4 bitmap has in front of its checksum. -/
def v4Blocks : Nat := 8 * (hbfsBitmapSize - hbfs4RunChecksumBytes)

/-- What `hbfs_alloc_blocks` gives: a run of free blocks of the volume, behind the journal. -/
structure Granted (used : Nat → Bool) (total first needed : Nat) : Prop where
  behind : hbfsJournalBlocks ≤ first
  inside : first + needed ≤ total
  free : ∀ m, first ≤ m → m < first + needed → used m = false

/-- The blocks the bitmap has a bit for. -/
def Kernel.bitmapBits (k : Kernel) : Nat := if k.isV4 then v4Blocks else 8 * hbfsBitmapSize

/-- `hbfs_alloc_blocks` finds a run exactly when there is one. It takes the lowest, sets its bits on
the disk and changes no other bit. -/
def FirstFitExact (needed : Nat) (k : Kernel) : Prop :=
  Yields (hbfsAllocBlocks needed) (fun r k' =>
    (r.isSome = true ↔ ∃ first, Granted (diskBitmap k.disk).bit k.totalBlocks first needed) ∧
    ∀ first, r = some first → Granted (diskBitmap k.disk).bit k.totalBlocks first needed ∧
      (∀ other, Granted (diskBitmap k.disk).bit k.totalBlocks other needed → first ≤ other) ∧
      (∀ m, first ≤ m → m < first + needed → (diskBitmap k'.disk).bit m = true) ∧
      ∀ m < k.bitmapBits, (m < first ∨ first + needed ≤ m) → (diskBitmap k'.disk).bit m =
      (diskBitmap k.disk).bit m) k

/-! ## Room in the log -/

/-- The sectors the open transaction has logged, none when there is no transaction. -/
def Kernel.loggedNow (k : Kernel) : Finset Nat :=
  if k.journalDepth = 0 then ∅ else k.journalLogged.toFinset

/-- The log of the transaction, open or about to be opened, has room for the sectors. -/
def Kernel.HasRoom (k : Kernel) (targets : Finset Nat) : Prop :=
  k.journalled = true → (k.loggedNow ∪ targets).card ≤ journalRecords

/-- The sectors a change of the bitmap writes. -/
def Kernel.bitmapTargets (k : Kernel) (start cnt : Nat) : Finset Nat :=
  (Finset.range (sectorSpan start cnt)).image (hbfsBitmapStart + start / 4096 + ·) ∪
    if k.isV4 then {bitmapTrailer} else ∅

/-- The sectors a change of the blocks writes, with the superblock. -/
def Kernel.changeTargets (k : Kernel) (start cnt : Nat) : Finset Nat :=
  insert hbfsSuperblockLba (k.bitmapTargets start cnt)

/-- The bitmap of the disk with a run taken, as it is written. -/
def Kernel.takenBitmap (k : Kernel) (first needed : Nat) : Buffer :=
  stampedBitmap k.isV4 ((diskBitmap k.disk).setBits true first needed)

/-- The run that `hbfs_alloc_blocks` finds can be recorded: the log has room for it, and the
checksum leaves its bits set. -/
def AllocFits (needed : Nat) (k : Kernel) : Prop :=
  ∀ first, firstFit (diskBitmap k.disk) needed k.totalBlocks = some first →
    k.HasRoom (k.changeTargets first needed) ∧
      ∀ m, first ≤ m → m < first + needed → (k.takenBitmap first needed).bit m = true

end Mellivora
