import Mellivora.Kernel.Truncation
import Mellivora.Kernel.Proofs.InsideProofs

/-!
# Run lists inside a transaction

What the freeing of a run list and the making of a new one do to the bitmap and to the disk, as long
as nothing is rolled back: the runs of a new list are free blocks that do not overlap, and its
extent block names them.
-/

namespace Mellivora

open WriteLog Outcome List Buffer Nat

variable {buf buf' : Buffer} {runs : List (Nat × Nat)} {block : Nat} {k k1 k' : Kernel}

/-! ## Reading through the cache -/

/-- The check reads the run only. -/
theorem verifyRun_congr {len : Nat} (hlen : hbfs4RunChecksumBytes ≤ len)
    (h : ∀ i < len, buf i = buf' i) : buf.verifyRun len = buf'.verifyRun len := by
  have hb := layout_eq
  have htake : (buf.setDword (len - hbfs4RunChecksumBytes) 0).take len =
      (buf'.setDword (len - hbfs4RunChecksumBytes) 0).take len := by
    refine map_congr_left fun i hi => ?_
    simp only [setDword]
    split
    · rfl
    · exact h i (mem_range.mp hi)
  have hstored : buf.dword (len - hbfs4RunChecksumBytes) =
    buf'.dword (len - hbfs4RunChecksumBytes) :=
    dword_congr fun i _ hi => h i (by omega)
  simp only [verifyRun, htake, hstored]

theorem run_congr (h : ∀ i < hbfsBlockSize, buf i = buf' i) {i : Nat} (hi : i < hbfs4ExtentMax) :
    buf.run i = buf'.run i := by
  have hmax : hbfs4ExtentMax = 510 := rfl
  have hhdr : hbfs4ExtentHdr = 8 := rfl
  have hrec : hbfs4ExtentRecord = 8 := rfl
  have hsize : hbfsBlockSize = 4096 := rfl
  unfold run
  rw [hhdr, hrec, dword_congr fun j _ hj => h j (by omega),
    dword_congr fun j _ hj => h j (by omega)]

/-! ## The extent block -/

theorem blockLba_eq (h : block ≤ 8 * hbfsBitmapSize) :
    blockLba block = hbfsDataStart + hbfsSectorsPerBlk * block := by
  have hsize := bitmapSize_eq
  have hstart : hbfsDataStart = 8866 := rfl
  have hper : hbfsSectorsPerBlk = 8 := rfl
  unfold blockLba
  rw [hper]
  omega

theorem dword_stampRun (buf : Buffer) {len off : Nat} (hlen : hbfs4RunChecksumBytes ≤ len)
    (hoff : off + 4 ≤ len - hbfs4RunChecksumBytes) : (buf.stampRun len).dword off = buf.dword off :=
  dword_congr fun _ _ hi => stampRun_apply _ (.inl (by omega)) hlen

/-- The records of `runs` from the `i`-th on. -/
def putRunsFrom (buf : Buffer) (runs : List (Nat × Nat)) (i : Nat) : Buffer :=
  (runs.zipIdx i).foldl (fun buf ((start, len), i) =>
    (buf.setDword (hbfs4ExtentHdr + hbfs4ExtentRecord * i) start).setDword
      (hbfs4ExtentHdr + hbfs4ExtentRecord * i + 4) len) buf

theorem putRunsFrom_cons (buf : Buffer) (run : Nat × Nat) (runs : List (Nat × Nat)) (i : Nat) :
    putRunsFrom buf (run :: runs) i =
      putRunsFrom ((buf.setDword (hbfs4ExtentHdr + hbfs4ExtentRecord * i) run.1).setDword
        (hbfs4ExtentHdr + hbfs4ExtentRecord * i + 4) run.2) runs (i + 1) := rfl

theorem dword_putRunsFrom (buf : Buffer) (runs : List (Nat × Nat)) (i : Nat) {off : Nat}
    (h : off + 4 ≤ hbfs4ExtentHdr + hbfs4ExtentRecord * i) : (putRunsFrom buf runs i).dword off =
    buf.dword off := by
  have hrec : hbfs4ExtentRecord = 8 := rfl
  rw [hrec] at h
  induction runs generalizing buf i with
  | nil => rfl
  | cons run runs ih =>
    rw [putRunsFrom_cons, ih _ _ (by omega), hrec, dword_setDword_of_apart (by omega),
      dword_setDword_of_apart (by omega)]

/-- A record is read back. -/
theorem run_putRunsFrom (buf : Buffer) (runs : List (Nat × Nat)) (i : Nat)
    (hsmall : ∀ run ∈ runs, run.1 < 2 ^ 32 ∧ run.2 < 2 ^ 32) {m : Nat} {run : Nat × Nat}
    (h : runs[m]? = some run) :
    (putRunsFrom buf runs i).run (i + m) = run := by
  have hrec : hbfs4ExtentRecord = 8 := rfl
  induction runs generalizing buf i m with
  | nil => simp at h
  | cons first runs ih =>
  rw [putRunsFrom_cons]
  cases m with
  | zero =>
    obtain rfl : first = run := by simpa using h
    obtain ⟨hstart, hlen⟩ := hsmall first (mem_cons_self ..)
    rw [show i + 0 = i from rfl]
    unfold run
    rw [dword_putRunsFrom _ _ _ (by rw [hrec]; omega),
      dword_putRunsFrom _ _ _ (by rw [hrec]; omega),
      dword_setDword_of_apart (by omega), dword_setDword_self hstart, dword_setDword_self hlen]
  | succ m => grind

/-- The buffer has these runs as records from the `i`-th on. -/
def Buffer.RunsFrom (buf : Buffer) (i : Nat) (runs : List (Nat × Nat)) : Prop :=
  ∀ j run, runs[j]? = some run → buf.run (i + j) = run

/-- A stamped extent block lists its runs. -/
theorem listsRuns_stampRun {buf : Buffer} (hmagic : buf.dword 0 = hbfs4ExtentMagic)
    (hcount : buf.dword 4 = runs.length) (hruns : buf.RunsFrom 0 runs)
    (hlen : runs.length ≤ hbfs4ExtentMax) :
    (buf.stampRun hbfsBlockSize).ListsRuns runs := by
  have hmax : hbfs4ExtentMax = 510 := rfl
  have hhdr : hbfs4ExtentHdr = 8 := rfl
  have hrec : hbfs4ExtentRecord = 8 := rfl
  have hsize : hbfsBlockSize = 4096 := rfl
  have h4 : hbfs4RunChecksumBytes = 4 := rfl
  have hle : hbfs4RunChecksumBytes ≤ hbfsBlockSize := by decide
  refine ⟨verifyRun_stampRun _ _, ?_, ?_, fun i run hrun => ?_⟩
  · rw [dword_stampRun _ hle (by omega)]
    exact hmagic
  · rw [dword_stampRun _ hle (by omega)]
    exact hcount
  · have hi : i < runs.length := (List.getElem?_eq_some_iff.mp hrun).1
    have hget := hruns i run hrun
    rw [zero_add] at hget
    rw [← hget]
    unfold Buffer.run
    rw [hhdr, hrec, dword_stampRun _ hle (by omega), dword_stampRun _ hle (by omega)]

/-- The extent block that `hbfs_extent_alloc` builds names its runs. -/
theorem extentBlock_listsRuns (buf : Buffer) (hlen : runs.length ≤ hbfs4ExtentMax)
    (hsmall : ∀ run ∈ runs, run.1 < 2 ^ 32 ∧ run.2 < 2 ^ 32) :
    (extentBlock buf runs).ListsRuns runs := by
  have hmax : hbfs4ExtentMax = 510 := rfl
  have hhdr : hbfs4ExtentHdr = 8 := rfl
  refine listsRuns_stampRun ?_ ?_ (fun _ _ => run_putRunsFrom _ runs 0 hsmall) hlen
  · refine (dword_putRunsFrom _ _ _ (by omega)).trans ?_
    rw [dword_setDword_of_apart (by omega), dword_setDword_self (by decide)]
  · exact (dword_putRunsFrom _ _ _ (by omega)).trans (dword_setDword_self (by omega))

/-- A run list is the bytes of its block. -/
theorem Buffer.ListsRuns.congr (h : buf.ListsRuns runs)
    (hlen : runs.length ≤ hbfs4ExtentMax) (heq : ∀ i < hbfsBlockSize, buf' i = buf i) :
    buf'.ListsRuns runs := by
  have hb := layout_eq
  refine ⟨?_, ?_, ?_, fun i run hrun => ?_⟩
  · rw [verifyRun_congr (by decide) heq]
    exact h.verified
  · rw [dword_congr fun i _ hi => heq i (by omega)]
    exact h.magic
  · rw [dword_congr fun i _ hi => heq i (by omega)]
    exact h.count
  · have hi : i < runs.length := (List.getElem?_eq_some_iff.mp hrun).1
    rw [run_congr heq (by omega)]
    exact h.run i run hrun

/-- An extent block on the disk is read and accepted. -/
theorem Coherent.yields_readExtentBlock (hk : Coherent k) (hf : k.faults = [])
    (hlists : (Buffer.ofDisk k.disk (blockLba block)).ListsRuns runs) (hne : runs ≠ [])
    (hlen : runs.length ≤ hbfs4ExtentMax)
    (hdevice : blockLba block + hbfsSectorsPerBlk ≤ k.ataTotalSectors) :
    Yields (readExtentBlock block) (fun cf k' => cf = false ∧ ∃ c e,
      k' = { k with toBlkCache := c, toExtentState := e } ∧ e.extentBuf.ListsRuns runs) k := by
  have hb := layout_eq
  have hpos := length_pos_iff.mpr hne
  simp only [readExtentBlock, yields_rules]
  refine (((hk.yields_readBlock _).and (yields_readBlock_of_nil hf hdevice)).and
    (yields_blkCacheRead_of_nil hf _ _)).mono fun r k1 ⟨⟨hread, hcf⟩, c, hc⟩ => ?_
  obtain ⟨-, -, hdata⟩ := hread hcf
  subst hc
  have hbuf : ∀ i < hbfsBlockSize, k.extentBuf.load r.2 i = ofDisk k.disk (blockLba block) i := by
    intro i hi
    rw [hdata hcf]
    exact load_sectorsAt _ _ (show i < 512 * 8 by omega)
  have hlists := hlists.congr hlen hbuf
  rw [hcf, if_neg Bool.false_ne_true, if_neg (by simp [hlists.verified]),
    if_neg (by simp [hlists.magic])]
  refine ⟨?_, c, ⟨k.extentBuf.load r.2, block⟩, rfl, hlists⟩
  rw [hlists.count]
  simp only [Bool.or_eq_false_iff, decide_eq_false_iff_not]
  omega

/-! ## Allocating -/

/-- The sectors of a block. -/
def BlockSector (block a : Nat) : Prop :=
  blockLba block ≤ a ∧ a < blockLba block + hbfsSectorsPerBlk

/-- The extent block in memory has been written to `block`. -/
structure ExtentWritten (block : Nat) (k k' : Kernel) : Prop where
  same : SameButLog k k'
  sectors : ∀ m < hbfsSectorsPerBlk, k'.disk (blockLba block + m) = k.extentBuf.sector m
  disk : DiskKept (BlockSector block) k.disk k'.disk

/-- The blocks of files have no part of the superblock or the bitmap, and no checksum is refreshed
for them. -/
theorem stampedFor_block (hlt : block ≤ 8 * hbfsBitmapSize) :
    k.stampedFor (blockLba block) = k ∧ k.extraFor (blockLba block) hbfsSectorsPerBlk = false := by
  have hb := layout_eq
  have hlba : blockLba block = 8866 + 8 * block := blockLba_eq hlt
  have hnotBitmap : ¬ InBitmap (blockLba block) := by
    unfold InBitmap
    omega
  have hnotSuper : blockLba block ≠ hbfsSuperblockLba := by omega
  constructor
  · unfold Kernel.stampedFor
    rw [if_neg fun hv => hnotSuper hv.2, if_neg fun hv => hnotBitmap hv.2]
  · simp [Kernel.extraFor, hnotBitmap]

/-- Writing an extent block. -/
theorem Usable.yields_writeExtentBlock (h : Usable k) (hblock : hbfsJournalBlocks ≤ block)
    (hlt : block ≤ 8 * hbfsBitmapSize) :
    Yields (hbfsMetaWrite (blockLba block) .extentBuf hbfsSectorsPerBlk)
      (fun cf k' => cf = false → ExtentWritten block k k') k := by
  have hb := layout_eq
  have hlba : blockLba block = 8866 + 8 * block := blockLba_eq hlt
  obtain ⟨hstamped, hextra⟩ := stampedFor_block (k := k) hlt
  have htrailer : k.trailerWrite (blockLba block) hbfsSectorsPerBlk = [] :=
    if_neg (by simp [hextra])
  refine (h.yields_metaWrite _ _ _).mono fun cf k' h' hcf => ?_
  obtain ⟨ws, hws, hwrote⟩ := h' hcf
  rw [hstamped, htrailer, append_nil] at hwrote
  rw [hstamped] at hws
  have hvalues : ∀ w ∈ ws, w.2 = k.extentBuf.sector (w.1 - blockLba block) := by
    intro w hw
    rw [hws.eq (by simp)] at hw
    obtain ⟨m, -, rfl⟩ := mem_map.mp hw
    simp [Kernel.metaSector]
  refine ⟨hwrote.same, fun m hm => ?_, ?_⟩
  · have hnotLog : ¬ InLog (blockLba block + m) := by
      rw [inLog_iff]
      omega
    have hmem : blockLba block + m ∈ ws.map Prod.fst := by
      rw [hws.eq (by simp), map_map]
      exact mem_map.mpr ⟨m, mem_range.mpr hm, by simp⟩
    rw [hwrote.disk _ hnotLog,
      afterWrites_of_values (f := fun a => k.extentBuf.sector (a - blockLba block)) _ hvalues,
      if_pos hmem, Nat.add_sub_cancel_left]
  · refine diskKept_of_wrote hwrote fun w hw => ?_
    obtain ⟨m, hm, heq⟩ := hws.mem hw
    exact ⟨by omega, by omega⟩

end Mellivora
