import Mellivora.Kernel.Fitting
import Mellivora.Kernel.Removal
import Mellivora.Lib.RunList

/-!
# Shortening a file

What `hbfs_truncate_extent` should do: the list of a file's runs is cut behind the blocks that are
kept, and the blocks behind the cut are given back, all of them and no others. What `sys_truncate`
should do: the entry on the disk has the new size and leads to the blocks that are kept, and the
others are free.
-/

namespace Mellivora

open Outcome

/-- The extent block holds this list of runs. -/
structure Buffer.ListsRuns (buf : Buffer) (runs : List (Nat × Nat)) : Prop where
  verified : buf.verifyRun hbfsBlockSize = true
  magic : buf.dword 0 = hbfs4ExtentMagic
  count : buf.dword 4 = runs.length
  run : ∀ i run, runs[i]? = some run → buf.run i = run

/-- The blocks that a file of `size` bytes takes, one at least. -/
def fileBlocks (size : Nat) : Nat := max 1 ((size + (hbfsBlockSize - 1)) / hbfsBlockSize)

/-- The current directory as it is on the disk. -/
def Kernel.diskDir (k : Kernel) : Buffer := Buffer.ofDisk k.disk k.currentDirLba

/-- The block has a bit of its own in the bitmap of the disk, and the bit is set. -/
def Kernel.Allocated (k : Kernel) (m : Nat) : Prop :=
  m < k.bitmapBits ∧ (diskBitmap k.disk).bit m = true

/-- A valid extent block: a list of runs over allocated blocks that do not overlap. -/
structure Kernel.HoldsRuns (k : Kernel) (block : Nat) (runs : List (Nat × Nat)) : Prop where
  lists : (Buffer.ofDisk k.disk (blockLba block)).ListsRuns runs
  nonempty : runs ≠ []
  fits : runs.length ≤ hbfs4ExtentMax
  pos : ∀ run ∈ runs, 0 < run.2
  apart : (RunList.flat runs).Nodup
  allocated : ∀ m ∈ RunList.flat runs, k.Allocated m
  here : k.Allocated block
  behind : hbfsJournalBlocks ≤ block
  onDevice : blockLba block + hbfsSectorsPerBlk ≤ k.ataTotalSectors

/-- The bits that are set on the disk of `k` and cleared on the disk of `k'`. -/
def Kernel.Freed (k k' : Kernel) (m : Nat) : Prop :=
  (diskBitmap k.disk).bit m = true ∧ (diskBitmap k'.disk).bit m = false

/-- When `hbfs_truncate_extent` succeeds, the list in `block` is the one of the first blocks of the
file, and exactly the other blocks are freed. -/
def TruncateExact (block size : Nat) (runs : List (Nat × Nat)) (k : Kernel) : Prop :=
  Yields (hbfsTruncateExtent block size) (fun cf k' => cf = false →
    (∃ runs', (Buffer.ofDisk k'.disk (blockLba block)).ListsRuns runs' ∧
      RunList.flat runs' = (RunList.flat runs).take (fileBlocks size)) ∧
    ∀ m < k.bitmapBits, k.Freed k' m ↔ m ∈ (RunList.flat runs).drop (fileBlocks size)) k

/-- The cut is not at the edge between two runs, and every run behind it can be freed in a
transaction of its own. -/
def Kernel.CutFits (k : Kernel) (size : Nat) (runs : List (Nat × Nat)) : Prop :=
  ¬ RunList.AtEdge (fileBlocks size) runs ∧
    ∀ run ∈ RunList.rest (fileBlocks size) runs, k.HasRoom (k.changeTargets run.1 run.2)

/-! ## `sys_truncate` -/

/-- The rest of `sys_truncate`, for an entry that may be shortened. After blocks of a plain file are
freed, the code runs on into the branch for run lists. -/
def truncateAt (slot size : Nat) : KernelM Bool := do
  let k ← get
  let start := k.dirBuf.entryDword slot deBlock
  let count := k.dirBuf.entryDword slot deBlkcnt
  let blocks := blocksFor size
  let extents := k.dirBuf.entryWord slot deFlags &&& hbfs4DeExtents ≠ 0
  if !extents then
    modify fun k => { k with dirBuf := k.dirBuf.setEntryDword slot deSize size }
  if extents ∨ blocks < signedTurns count then
    if !extents then
      let _ ← hbfsFreeBlocks (start + blocks) (count - blocks)
      modify fun k => { k with dirBuf := k.dirBuf.setEntryDword slot deBlkcnt blocks }
    if ← hbfsTruncateExtent start size then return true
    modify fun k =>
      { k with
        dirBuf := (k.dirBuf.setEntryDword slot deSize size).setEntryDword slot deBlkcnt blocks }
  modify fun k => { k with dirBuf := k.dirBuf.setEntryDword slot deMtime k.clock }
  let _ ← hbfsSaveRootDir
  return false

/-- `sys_truncate`, CF set for -1 -/
def sysTruncate (name : Name) (size : Nat) : KernelM Bool := do
  if ← hbfsRequireWritable then return true
  let _ ← hbfsLoadRootDir
  let k ← get
  match hbfsFindFile k name with
  | none => return true
  | some slot =>
    if k.dirBuf.entryType slot = ftypeDir then return true
    if hbfsCheckAccess k k.dirBuf slot hbfsAccWrite then return true
    if k.dirBuf.entryDword slot deSize < size then return true
    truncateAt slot size

/-- The call is not refused: `slot` is the entry of a file of this name, the caller may write it,
and it has `size` bytes at least. -/
structure Kernel.MayTruncate (k : Kernel) (name : Name) (size slot : Nat) : Prop where
  found : hbfsFindFile k name = some slot
  file : k.dirBuf.entryType slot ≠ ftypeDir
  granted : hbfsCheckAccess k k.dirBuf slot hbfsAccWrite = false
  shorter : size ≤ k.dirBuf.entryDword slot deSize

/-- The entry's data is a run list. -/
def Buffer.HasExtents (buf : Buffer) (slot : Nat) : Prop :=
  buf.entryWord slot deFlags &&& hbfs4DeExtents ≠ 0

instance (buf : Buffer) (slot : Nat) : Decidable (buf.HasExtents slot) :=
  inferInstanceAs (Decidable (_ ≠ _))

/-- The blocks of an entry's file, in order, as memory has it. -/
def Kernel.FileBlocks (k : Kernel) (slot : Nat) (blocks : List Nat) : Prop :=
  if k.dirBuf.HasExtents slot then
    ∃ runs, k.HoldsRuns (k.dirBuf.entryDword slot deBlock) runs ∧ blocks = RunList.flat runs
  else
    blocks = List.range' (k.dirBuf.entryDword slot deBlock) (k.dirBuf.entryDword slot deBlkcnt) ∧
      ∀ m ∈ blocks, k.Allocated m

/-- The file at `slot` has blocks for all its bytes; the first of them, or the one with the run
list, is neither the journal's nor the directory's. -/
structure Kernel.SoundFile (k : Kernel) (slot : Nat) (blocks : List Nat) : Prop where
  data : k.FileBlocks slot blocks
  enough : fileBlocks (k.dirBuf.entryDword slot deSize) ≤ blocks.length
  behind : hbfsJournalBlocks ≤ k.dirBuf.entryDword slot deBlock
  apart :
    ∀ i < k.currentDirSects, ¬ (blockLba (k.dirBuf.entryDword slot deBlock) ≤ k.currentDirLba + i ∧
    k.currentDirLba + i < blockLba (k.dirBuf.entryDword slot deBlock) + hbfsSectorsPerBlk)

/-- The file as the disk has it: its size and its blocks. -/
structure Kernel.DiskFile (k : Kernel) (slot size : Nat) (blocks : List Nat) : Prop where
  bytes : k.diskDir.entryDword slot deSize = size
  count : k.diskDir.entryDword slot deBlkcnt = blocks.length
  data : if k.diskDir.HasExtents slot then
      ∃ runs, (Buffer.ofDisk k.disk (blockLba (k.diskDir.entryDword slot deBlock))).ListsRuns runs ∧
        RunList.flat runs = blocks
    else blocks = List.range' (k.diskDir.entryDword slot deBlock)
      (k.diskDir.entryDword slot deBlkcnt)

/-- The file at `slot` has been cut to `size` bytes of its blocks. -/
structure CutInStep (slot size : Nat) (blocks : List Nat) (k : Kernel) : Prop where
  entry : k.DiskFile slot size (blocks.take (fileBlocks size))
  kept : ∀ m ∈ blocks.take (fileBlocks size), (diskBitmap k.disk).bit m = true
  dropped : ∀ m ∈ blocks.drop (fileBlocks size), (diskBitmap k.disk).bit m = false

/-- `sys_truncate` keeps entry and bitmap in step: it cuts what may be cut, and when it fails,
directory and bitmap are as they were. -/
def TruncateInStep (name : Name) (size : Nat) (k : Kernel) : Prop :=
  Yields (sysTruncate name size) (fun cf k' =>
    (∀ slot blocks, k.dirLoaded.MayTruncate name size slot → k.dirLoaded.SoundFile slot blocks →
      cf = false ∧ CutInStep slot size blocks k') ∧
    (cf = true →
      (∀ i < k.currentDirSects, k'.disk (k.currentDirLba + i) = k.disk (k.currentDirLba + i)) ∧
      ∀ s < hbfsBitmapSects, k'.disk (hbfsBitmapStart + s) = k.disk (hbfsBitmapStart + s))) k

/-- A file that is one run keeps the number of its blocks, and a list of runs can be cut as it
should be. -/
def Kernel.TruncateFits (k : Kernel) (name : Name) (size : Nat) : Prop :=
  ∀ slot, k.dirLoaded.MayTruncate name size slot →
    if k.dirLoaded.dirBuf.HasExtents slot then
      ∀ runs, k.dirLoaded.HoldsRuns (k.dirLoaded.dirBuf.entryDword slot deBlock) runs →
        k.dirLoaded.CutFits size runs
    else k.dirLoaded.dirBuf.entryDword slot deBlkcnt ≤ fileBlocks size

/-- The block would be read as a run list. -/
structure Buffer.LooksLikeRuns (buf : Buffer) : Prop where
  verified : buf.verifyRun hbfsBlockSize = true
  magic : buf.dword 0 = hbfs4ExtentMagic
  some : 0 < buf.dword 4
  fits : buf.dword 4 ≤ hbfs4ExtentMax

/-- The first block of a file that is one run does not look like a run list. -/
def Kernel.PlainData (k : Kernel) (name : Name) (size : Nat) : Prop :=
  ∀ slot, k.dirLoaded.MayTruncate name size slot → ¬ k.dirLoaded.dirBuf.HasExtents slot →
    ¬ (Buffer.ofDisk k.disk (blockLba (k.dirLoaded.dirBuf.entryDword slot deBlock))).LooksLikeRuns

end Mellivora
