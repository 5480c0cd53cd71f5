import Mellivora.Kernel.Truncation

/-!
# Deleting an entry

What `hbfs_delete_file_entry` should do to the bitmap: the blocks of the entry are given back, all
of them and no others, and the free count goes up by their number. An entry has its data blocks, and
a block of extended attributes whose first sector `hbfs_xattr_set` has recorded.
-/

namespace Mellivora

open Outcome

/-- The data blocks of an entry: one run, or the runs of a list and the block that holds the
list. -/
def Kernel.DataBlocks (k : Kernel) (slot : Nat) (blocks : List Nat) : Prop :=
  if k.dirBuf.entryWord slot deFlags &&& hbfs4DeExtents ≠ 0 then
    ∃ runs, k.HoldsRuns (k.dirBuf.entryDword slot deBlock) runs ∧
      blocks = RunList.flat runs ++ [k.dirBuf.entryDword slot deBlock]
  else blocks = List.range' (k.dirBuf.entryDword slot deBlock) (k.dirBuf.entryDword slot deBlkcnt)

/-- The block of extended attributes an entry names, if any. -/
def Kernel.XattrBlocks (k : Kernel) (slot : Nat) (blocks : List Nat) : Prop :=
  if k.dirBuf.entryDword slot deXattrLba = 0 then blocks = []
  else ∃ block, blockLba block = k.dirBuf.entryDword slot deXattrLba ∧ blocks = [block]

/-- The entry at `slot` owns these blocks: they are allocated, and it owns none of them twice. -/
structure Kernel.Owns (k : Kernel) (slot : Nat) (data xattr : List Nat) : Prop where
  ofData : k.DataBlocks slot data
  ofXattr : k.XattrBlocks slot xattr
  apart : (data ++ xattr).Nodup
  allocated : ∀ m ∈ data ++ xattr, k.Allocated m

/-- The rest of `hbfs_delete_file_entry`, when the data blocks of the entry have been freed. -/
def afterData (slot : Nat) : KernelM DeleteExit := do
  if ← freeEntryXattr slot then return .undone
  clearEntry slot

/-- The volume's books give back exactly `blocks`. -/
structure Releases (blocks : List Nat) (k k' : Kernel) : Prop where
  bits : ∀ m < k.bitmapBits, (diskBitmap k'.disk).bit m = true ↔ (diskBitmap k.disk).bit m =
    true ∧ m ∉ blocks
  free : (k'.disk hbfsSuperblockLba).dword sbFreeBlocks =
    ((k.disk hbfsSuperblockLba).dword sbFreeBlocks + blocks.length) % 2 ^ 32

/-- A deletion that succeeds gives these blocks back and no others. -/
def DeleteExact (slot : Nat) (blocks : List Nat) (k : Kernel) : Prop :=
  Yields (hbfsDeleteFileEntry slot) (fun exit k' => exit = .deleted → Releases blocks k k') k

end Mellivora
