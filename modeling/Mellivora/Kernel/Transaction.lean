import Mellivora.Kernel.Journal

/-!
# Metadata transactions

What a caller of the journal does between `hbfs_journal_begin` and `hbfs_journal_commit`: it changes
the free count in the resident superblock and the resident bitmap, and hands superblock, bitmap and
directory sectors to `hbfs_meta_write`. The second half says, without the journal, which sectors
such a transaction writes and what it writes there.
-/

namespace Mellivora

/-- What the code does between `hbfs_journal_begin` and `hbfs_journal_commit`. -/
inductive TxStep
  /-- `mov [hbfs_super_buf + 12], v` -/
  | setFree (v : Nat)
  /-- new contents for `hbfs_bitmap_buf` -/
  | setBitmap (buf : Buffer)
  /-- write `hbfs_super_buf` -/
  | writeSuper
  /-- write `cnt` sectors of the bitmap, from its sector `sect` on -/
  | writeBitmap (sect cnt : Nat)
  /-- write `cnt` sectors of a directory from `buf` -/
  | writeDir (lba cnt : Nat) (buf : Buffer)

/-- What the step does. -/
def TxStep.run : TxStep → KernelM Unit
  | setFree v => modify fun k => { k with superBuf := k.superBuf.setDword sbFreeBlocks v }
  | setBitmap buf => modify fun k => { k with bitmapBuf := buf }
  | writeSuper => discard <| hbfsMetaWrite hbfsSuperblockLba .superBuf 1
  | writeBitmap sect cnt => discard <| hbfsMetaWrite (hbfsBitmapStart + sect) (.bitmapBuf sect) cnt
  | writeDir lba cnt buf => discard <| hbfsMetaWrite lba (.memory buf) cnt

/-- A transaction of these steps. -/
def runTransaction (steps : List TxStep) : KernelM Unit := do
  hbfsJournalBegin
  steps.forM TxStep.run
  hbfsJournalCommit

/-- The step keeps to metadata sectors of a device of `total` sectors: bitmap sectors, and directory
sectors that are not the journal's. -/
def TxStep.OnMetadata (total : Nat) : TxStep → Prop
  | writeBitmap sect cnt => sect < hbfsBitmapSects ∧ sect + cnt ≤ hbfsBitmapSects
  | writeDir lba cnt _ => hbfsRootDirStart ≤ lba ∧ ∀ j < cnt, ¬ InLog (lba + j) ∧ lba + j < total
  | _ => True

/-- The sectors a step writes; a part of a v4 bitmap takes the sector with its checksum along. -/
def TxStep.targets (v4 : Bool) : TxStep → List Nat
  | writeSuper => [hbfsSuperblockLba]
  | writeBitmap sect cnt =>
    (List.range cnt).map (hbfsBitmapStart + sect + ·) ++
      if v4 ∧ sect + cnt < hbfsBitmapSects then [hbfsBitmapStart + hbfsBitmapSects - 1] else []
  | writeDir lba cnt _ => (List.range cnt).map (lba + ·)
  | _ => []

/-- The sectors the steps write. -/
def txTargets (v4 : Bool) (steps : List TxStep) : List Nat := steps.flatMap (TxStep.targets v4)

/-- The bitmap as a v4 volume stamps it before it is written. -/
def stampedBitmap (v4 : Bool) (bitmap : Buffer) : Buffer :=
  if v4 then bitmap.stampRun hbfsBitmapSize else bitmap

/-- The count of free blocks after the step. -/
def TxStep.nextFree (free : Nat) : TxStep → Nat
  | setFree v => v % 2 ^ 32
  | _ => free

/-- The bitmap in memory after the step. -/
def TxStep.nextBitmap (v4 : Bool) (bitmap : Buffer) : TxStep → Buffer
  | setBitmap buf => buf
  | writeBitmap _ _ => stampedBitmap v4 bitmap
  | _ => bitmap

/-- The free counts a step writes to the superblock. -/
def TxStep.counts (free : Nat) : TxStep → List Nat
  | writeSuper => [free]
  | _ => []

/-- The sectors a step writes, the superblock apart. -/
def TxStep.sectors (v4 : Bool) (bitmap : Buffer) : TxStep → List (Nat × Sector)
  | writeBitmap sect cnt =>
    let bitmap := stampedBitmap v4 bitmap
    (List.range cnt).map (fun j => (hbfsBitmapStart + sect + j, bitmap.sector (sect + j))) ++
      if v4 ∧ sect + cnt < hbfsBitmapSects then
        [(hbfsBitmapStart + hbfsBitmapSects - 1, bitmap.sector (hbfsBitmapSects - 1))] else []
  | writeDir lba cnt buf => (List.range cnt).map fun j => (lba + j, buf.sector j)
  | _ => []

/-- The free counts the transaction writes to the superblock, when the resident count is `free`. -/
def writtenCounts : (free : Nat) → List TxStep → List Nat
  | _, [] => []
  | free, step :: steps => step.counts free ++ writtenCounts (step.nextFree free) steps

/-- The count of free blocks after the steps. -/
def finalCount : (free : Nat) → List TxStep → Nat
  | free, [] => free
  | free, step :: steps => finalCount (step.nextFree free) steps

/-- The sectors the transaction writes, the superblock apart, when the resident bitmap is
`bitmap`. -/
def writtenSectors (v4 : Bool) : (bitmap : Buffer) → List TxStep → List (Nat × Sector)
  | _, [] => []
  | bitmap, step :: steps =>
    step.sectors v4 bitmap ++ writtenSectors v4 (step.nextBitmap v4 bitmap) steps

end Mellivora
