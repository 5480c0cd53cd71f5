import Mellivora.Disk.Layout
import Mellivora.Lib.Runs

/-!
# The page cache

`pagecache.inc`: one frame per file block, with a count of the page table entries that map it. The
count is a byte that stops at `0xFE`. An entry without references keeps its frame until another
block needs the room or the block is written to the disk.

The page allocator is the list of frames that the cache does not hold; which of them an allocation
takes, if any, is given to the call. So is whether the block can be read.
-/

namespace Mellivora

open Function

/-- `PC_ENTRIES`. -/
def pcEntries : Nat := 128
/-- The count an entry stays at, however many more take it. -/
def pcMaxRefs : Nat := 0xFE

/-- The page cache with the frames that are free. -/
structure PageCache where
  /-- block + 1, 0 for an empty entry -/
  tags : Nat → Nat := fun _ => 0
  frames : Nat → Nat := fun _ => 0
  refs : Nat → Nat := fun _ => 0
  hand : Nat := 0
  pool : List Nat
  /-- the frames that the call has returned to the allocator -/
  freed : List Nat := []

namespace PageCache

/-- Stores the tag and the frame of an entry. -/
def setEntry (s : PageCache) (i tag frame : Nat) : PageCache :=
  { s with tags := update s.tags i tag, frames := update s.frames i frame }

/-- Stores the count of an entry. -/
def setRefs (s : PageCache) (i n : Nat) : PageCache := { s with refs := update s.refs i n }

/-- `pmm_free_page`. -/
def pmmFreePage (s : PageCache) (frame : Nat) : PageCache :=
  { s with pool := frame :: s.pool, freed := frame :: s.freed }

/-- Empties an entry and frees its frame. -/
def dropEntry (s : PageCache) (i : Nat) : PageCache := (s.setEntry i 0 0).pmmFreePage (s.frames i)

/-- `pc_lookup`: the entry of a block. -/
def pcLookup (s : PageCache) (block : Nat) : Option Nat :=
  (List.range pcEntries).find? fun i => s.tags i = (block + 1) % 2 ^ 32

/-- `pc_entry_of_frame`. -/
def pcEntryOfFrame (s : PageCache) (frame : Nat) : Option Nat :=
  (List.range pcEntries).find? fun i => s.frames i = frame

/-- The entries in the order in which `.ps_try` looks at them. -/
def fromHand (s : PageCache) : List Nat :=
  (List.range pcEntries).map fun k => (s.hand + k) % pcEntries

/-- `pc_slot`: an empty entry, or one that nobody uses. -/
def pcSlot (s : PageCache) : Option (Nat × PageCache) :=
  match (List.range pcEntries).find? fun i => s.tags i = 0 with
  | some i => some (i, { s with hand := i })
  | none =>
    match s.fromHand.find? fun i => s.refs i = 0 with
    | some i => some (i, { s with hand := i }.dropEntry i)
    | none => none

/-- `inc byte [pc_refs + eax]`, unless the byte is full -/
def takeRef (s : PageCache) (i : Nat) : PageCache :=
  if pcMaxRefs ≤ s.refs i then s else s.setRefs i (s.refs i + 1)

/-- `pc_get`: the frame of a block, read if it is not there; 0 is a failure. -/
def pcGet (s : PageCache) (block pick : Nat) (readOk : Bool) : Nat × PageCache :=
  match s.pcLookup block with
  | some i => (s.frames i, s.takeRef i)
  | none =>
    match s.pcSlot with
    | none => (0, s)
    | some (i, s) =>
      match s.pool[pick]? with
      | none => (0, s)
      | some frame =>
        let s := { s with pool := s.pool.erase frame }
        if readOk then
          let s := s.setEntry i ((block + 1) % 2 ^ 32) frame
          (s.frames i, s.takeRef i)
        else (0, s.pmmFreePage frame)

/-- `pc_ref`: one more user of a frame. -/
def pcRef (s : PageCache) (frame : Nat) : Bool × PageCache :=
  match s.pcEntryOfFrame frame with
  | none => (false, s)
  | some i => (true, s.takeRef i)

/-- `pc_unref`: one user less. -/
def pcUnref (s : PageCache) (frame : Nat) : Bool × PageCache :=
  match s.pcEntryOfFrame frame with
  | none => (false, s)
  | some i => (true, if s.refs i = 0 then s else s.setRefs i (s.refs i - 1))

/-- One turn of the loop of `pc_invalidate`. -/
def piTurn (s : PageCache) (block : Nat) : PageCache :=
  match s.pcLookup block with
  | none => s
  | some i => if s.refs i ≠ 0 then s else s.dropEntry i

/-- The loop of `pc_invalidate`. -/
def piLoop : (blocks block : Nat) → PageCache → PageCache
  | 0, _, s => s
  | blocks + 1, block, s => piLoop blocks (block + 1) (s.piTurn block)

/-- `pc_invalidate`: drops the unused entries of the blocks that are written. -/
def pcInvalidate (s : PageCache) (lba count : UInt32) : PageCache :=
  if lba.toNat < hbfsDataStart then s
  else piLoop ((count.toNat + (hbfsSectorsPerBlk - 1)) % 2 ^ 32 / hbfsSectorsPerBlk)
    ((lba.toNat - hbfsDataStart) / hbfsSectorsPerBlk) s

end PageCache

/-! ## Runs -/

/-- A call of the page cache. -/
inductive PcCall
  /-- a page of a shared mapping is touched: `VMA_SECTOR`, the page's number in the mapping -/
  | fault (sector page : UInt32) (pick : Nat) (readOk : Bool)
  /-- a page of a shared mapping is inherited -/
  | ref (frame : Nat)
  | unref (frame : Nat)
  /-- sectors are written to the disk -/
  | write (lba count : UInt32)

/-- The block behind a page, as `vm_fault_file_page` computes it. A page number has 20 bits. -/
def faultBlock (sector page : UInt32) : Nat :=
  (sector.toNat + 2 ^ 32 - 1 - hbfsDataStart) % 2 ^ 32 / hbfsSectorsPerBlk + page.toNat % 2 ^ 20

/-- The cache, and the references to each frame that have been taken and not dropped. -/
structure PcRun where
  cache : PageCache
  held : Nat → Nat := fun _ => 0

/-- A mapping takes the frame. -/
def PcRun.hold (r : PcRun) (frame : Nat) : PcRun :=
  { r with held := update r.held frame (r.held frame + 1) }

/-- A mapping gives the frame back. -/
def PcRun.letGo (r : PcRun) (frame : Nat) : PcRun :=
  { r with held := update r.held frame (r.held frame - 1) }

/-- The frame the call answers, and the cache after it. -/
def PcCall.run (c : PcCall) (s : PageCache) : Nat × PageCache :=
  match c with
  | fault sector page pick readOk => s.pcGet (faultBlock sector page) pick readOk
  | ref frame => (if (s.pcRef frame).1 then frame else 0, (s.pcRef frame).2)
  | unref frame => (0, (s.pcUnref frame).2)
  | write lba count => (0, s.pcInvalidate lba count)

/-- Nobody drops a reference that was not taken, and `pc_ref_range` passes over pages that are not
there. -/
def PcCall.Made (c : PcCall) (r : PcRun) : Prop :=
  match c with
  | ref frame => frame ≠ 0
  | unref frame => r.held frame ≠ 0
  | _ => True

instance PcCall.decidableMade (c : PcCall) (r : PcRun) : Decidable (c.Made r) :=
  match c with
  | .ref frame => inferInstanceAs (Decidable (frame ≠ 0))
  | .unref frame => inferInstanceAs (Decidable (r.held frame ≠ 0))
  | .fault .. | .write .. => inferInstanceAs (Decidable True)

/-- The state after the call. -/
def PcCall.step (c : PcCall) (r : PcRun) : PcRun :=
  if c.Made r then
    let (frame, cache) := c.run { r.cache with freed := [] }
    let r' : PcRun := { r with cache }
    match c with
    | unref f => r'.letGo f
    | _ => if frame = 0 then r' else r'.hold frame
  else r

/-! ## What is claimed -/

/-- No block has two entries. -/
def PageCache.Unique (s : PageCache) : Prop :=
  ∀ i < pcEntries, ∀ j < pcEntries, s.tags i = s.tags j → s.tags i ≠ 0 → i = j

/-- A block of the data area that a range of sectors overlaps. -/
def Overlaps (lba count : UInt32) (block : Nat) : Prop :=
  lba.toNat < hbfsDataStart + hbfsSectorsPerBlk * (block + 1) ∧
    hbfsDataStart + hbfsSectorsPerBlk * block < lba.toNat + count.toNat

/-- The frames that a call returns to the allocator are not in use, and after a write the blocks it
overlaps are in the cache only if they are in use. -/
def PcCall.Safe (c : PcCall) (r : PcRun) : Prop :=
  (c.Made r → ∀ frame ∈ (c.step r).cache.freed, r.held frame = 0) ∧
    ∀ lba count, c = .write lba count → ∀ block, Overlaps lba count block → ∀ i < pcEntries,
      (c.step r).cache.tags i = block + 1 → (c.step r).held ((c.step r).cache.frames i) ≠ 0

/-! ## When it holds -/

/-- No count is full when a reference is taken. A write ends below the data area, or begins in it
and covers no more blocks than the same number of sectors does from the beginning of a block. -/
def PcCall.Fits (c : PcCall) (r : PcRun) : Prop :=
  match c with
  | fault sector page _ _ =>
    ∀ i < pcEntries, r.cache.tags i = faultBlock sector page + 1 → r.cache.refs i < pcMaxRefs
  | ref frame => ∀ i < pcEntries, r.cache.frames i = frame → r.cache.refs i < pcMaxRefs
  | unref _ => True
  | write lba count => lba.toNat + count.toNat ≤ hbfsDataStart ∨
      hbfsDataStart ≤ lba.toNat ∧ count.toNat + (hbfsSectorsPerBlk - 1) < 2 ^ 32 ∧
        ((lba.toNat - hbfsDataStart) % hbfsSectorsPerBlk + count.toNat + (hbfsSectorsPerBlk - 1)) /
          hbfsSectorsPerBlk ≤
          (count.toNat + (hbfsSectorsPerBlk - 1)) / hbfsSectorsPerBlk

end Mellivora
