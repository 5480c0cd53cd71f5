import Mellivora.Kernel.Journal

/-!
# The block allocator

`hbfs_load_bitmap`, `hbfs_alloc_blocks` and `hbfs_free_blocks` of `hbfs.inc`. The bitmap is resident
once loaded; a change to it and to the free count of the superblock is one transaction, or a part of
the one the caller has opened. Counts are 32-bit, and the loops compare them as signed numbers.
-/

namespace Mellivora

/-- `hbfs_load_bitmap`: reads the bitmap unless it is in memory. Carry is failure. -/
def hbfsLoadBitmap : KernelM Bool := do
  if (← get).bitmapValid then return false
  let (cf, data) ← ataReadSectors hbfsBitmapStart hbfsBitmapSects
  modify fun k => { k with bitmapBuf := k.bitmapBuf.load data }
  if cf then return true
  modify fun k => { k with bitmapValid := true }
  return false

/-- The turns of a loop that counts up from 0 to the 32-bit number `n` with a signed comparison. -/
def signedTurns (n : Nat) : Nat := if n < 2 ^ 31 then n else 0

/-- `.check_run`: the `left` blocks from `start + i` on are free and below `limit`. -/
def checkRun (buf : Buffer) (start limit : Nat) : (left i : Nat) → Bool
  | 0, _ => true
  | left + 1, i =>
    if limit ≤ start + i then false
    else if buf.bit (start + i) then false
    else checkRun buf start limit left (i + 1)

/-- `.scan_start`: the first run of `needed` free blocks, looking at `turns` blocks from `block`
on. -/
def scanFrom (buf : Buffer) (needed limit : Nat) : (turns block : Nat) → Option Nat
  | 0, _ => none
  | turns + 1, block =>
    if limit ≤ block then none
    else if buf.bit block then scanFrom buf needed limit turns (block + 1)
    else if checkRun buf block limit (needed - 1) 1 then some block
    else scanFrom buf needed limit turns (block + 1)

/-- The first run of `needed` clear bits behind the journal. -/
def firstFit (buf : Buffer) (needed total : Nat) : Option Nat :=
  scanFrom buf (signedTurns needed) total total hbfsJournalBlocks

/-- The bitmap sectors that cover `cnt` blocks from `start` on, in 32-bit arithmetic. -/
def sectorSpan (start cnt : Nat) : Nat :=
  ((start + cnt + (2 ^ 32 - 1)) % 2 ^ 32 / 4096 + 2 ^ 32 - start / 4096 + 1) % 2 ^ 32

/-- Writes the sectors of the bitmap that hold `cnt` bits from `start` on. -/
def writeBitmapRange (start cnt : Nat) : KernelM Bool :=
  hbfsMetaWrite (hbfsBitmapStart + start / 4096) (.bitmapBuf (start / 4096)) (sectorSpan start cnt)

/-- Changes the superblock's count of free blocks and writes it. -/
def writeFreeCount (count : Nat → Nat) : KernelM Bool := do
  modify fun k =>
    { k with superBuf := k.superBuf.setDword sbFreeBlocks (count (k.superBuf.dword sbFreeBlocks)) }
  hbfsMetaWrite hbfsSuperblockLba .superBuf 1

/-- What both routines do about the `cnt` blocks from `start` on, in one transaction: set their bits
to `b`, write the bitmap and write the new free count. -/
def changeBlocks (b : Bool) (start cnt : Nat) (count : Nat → Nat) : KernelM Bool := do
  modify fun k => { k with bitmapBuf := k.bitmapBuf.setBits b start (signedTurns cnt) }
  hbfsJournalBegin
  if ← writeBitmapRange start cnt then return true
  if ← writeFreeCount count then return true
  hbfsJournalCommit
  return false

/-- `hbfs_alloc_blocks`: the first block of a run of `needed`, or nothing. -/
def hbfsAllocBlocks (needed : Nat) : KernelM (Option Nat) := do
  let _ ← hbfsLoadBitmap
  let k ← get
  match firstFit k.bitmapBuf needed k.totalBlocks with
  | none => return none
  | some first =>
    if ← changeBlocks true first needed fun free => free + 2 ^ 32 - needed then return none
    return some first

/-- `hbfs_free_blocks`. -/
def hbfsFreeBlocks (start count : Nat) : KernelM Bool := do
  let _ ← hbfsLoadBitmap
  changeBlocks false start count fun free => free + count

end Mellivora
