import Mellivora.Kernel.Truncation
import Mellivora.Kernel.Proofs.ExtentProofs
import Mellivora.Kernel.Proofs.FittingProofs

/-!
# Shortening a run list

`hbfs_truncate_extent` frees the runs behind the cut one by one, each in a transaction of its own,
and does not look at the outcome.
-/

namespace Mellivora

open WriteLog Outcome List Buffer RunList

variable {k k1 k2 k' : Kernel} {run : Nat × Nat} {runs runs' : List (Nat × Nat)}

/-! ## Between two calls -/

/-- A volume between two calls, on a device that reports no error. -/
structure Quiet (k : Kernel) : Prop extends Steady k where
  level : Level false 0 k

theorem Quiet.congr (h : Quiet k) (hdevice : k'.toDevice = k.toDevice)
    (hvolume : k'.toVolume = k.toVolume) (hjournal : k'.toJournalState = k.toJournalState)
    (hbitmap : k'.toBitmapState = k.toBitmapState) : Quiet k' := by
  cases k
  cases k'
  cases hdevice
  cases hvolume
  cases hjournal
  cases hbitmap
  have hdepth := h.level.depth
  exact ⟨⟨⟨{ h with }, { h.healthy with }, fun hpos => absurd hdepth hpos.ne'⟩, h.blocks, h.bitmap⟩,
    { h.level with }⟩

theorem Quiet.loggedNow (h : Quiet k) : k.loggedNow = ∅ := if_pos h.level.depth

/-- The run can be freed in a transaction of its own. -/
def Kernel.Frees (k : Kernel) (run : Nat × Nat) : Prop := k.HasRoom (k.changeTargets run.1 run.2)

theorem SameGeometry.frees (h : SameGeometry k k') (hk : Quiet k) (hk' : Quiet k') :
    k'.Frees run ↔ k.Frees run := by
  unfold Kernel.Frees Kernel.HasRoom Kernel.changeTargets Kernel.bitmapTargets
  rw [hk.loggedNow, hk'.loggedNow, h.journalled, h.isV4]

theorem SameGeometry.bitmapBits (h : SameGeometry k k') : k'.bitmapBits = k.bitmapBits := by
  unfold Kernel.bitmapBits
  rw [h.isV4]

theorem bitmapBits_le (k : Kernel) : k.bitmapBits ≤ 8 * hbfsBitmapSize := by
  have heq := v4Blocks_eq
  have hb := layout_eq
  unfold Kernel.bitmapBits
  split <;> omega

/-! ## Freeing runs one by one -/

/-- The run is not empty, and all of it has bits in the bitmap. -/
structure Kernel.Mapped (k : Kernel) (run : Nat × Nat) : Prop where
  pos : 0 < run.2
  inside : run.1 + run.2 ≤ k.bitmapBits

theorem Kernel.Mapped.covers (h : k.Mapped run) : Covers run.1 run.2 ∧ run.2 < 2 ^ 31 := by
  have hsize := bitmapSize_eq
  have hbits := bitmapBits_le k
  obtain ⟨hpos, hinside⟩ := h
  exact ⟨covers_of_le (by omega), by omega⟩

/-- The runs have been freed one by one, as far as each of them could be. -/
structure RunsFreed (runs : List (Nat × Nat)) (k k' : Kernel) : Prop where
  quiet : Quiet k'
  geometry : SameGeometry k k'
  keeps : AbortKeeps k k'
  disk : DiskKept InBitmap k.disk k'.disk
  bits : ∀ m < k.bitmapBits, (diskBitmap k'.disk).bit m = true ↔
    (diskBitmap k.disk).bit m = true ∧ ∀ run ∈ runs, k.Frees run → ¬ (run.1 ≤ m ∧ m < run.1 + run.2)

theorem RunsFreed.refl (h : Quiet k) : RunsFreed [] k k :=
  ⟨h, SameGeometry.refl k, AbortKeeps.refl k, DiskKept.refl _ _, fun m _ => by simp⟩

/-- Runs freed one after the other. -/
theorem RunsFreed.trans (hk : Quiet k) (h : RunsFreed runs k k1) (h' : RunsFreed runs' k1 k2) :
    RunsFreed (runs ++ runs') k k2 := by
  refine ⟨h'.quiet, h.geometry.trans h'.geometry, h.keeps.trans h'.keeps, h.disk.trans h'.disk,
    fun m hm => ?_⟩
  rw [h'.bits m (h.geometry.bitmapBits ▸ hm), h.bits m hm, and_assoc]
  refine and_congr_right fun _ => ?_
  simp only [mem_append]
  constructor
  · rintro ⟨hfirst, hlater⟩ run (hrun | hrun) hfrees
    · exact hfirst run hrun hfrees
    · exact hlater run hrun ((h.geometry.frees hk h.quiet).mpr hfrees)
  · intro hall
    refine ⟨fun run hrun => hall run (.inl hrun), fun run hrun hfrees => ?_⟩
    exact hall run (.inr hrun) ((h.geometry.frees hk h.quiet).mp hfrees)

theorem RunsFreed.setExtent (h : RunsFreed runs k k') (e : ExtentState) :
    RunsFreed runs { k with toExtentState := e } { k' with toExtentState := e } := by
  have hkeeps := h.keeps
  have hgeometry := h.geometry
  exact ⟨h.quiet.congr rfl rfl rfl rfl,
    { hgeometry with },
    { hkeeps with extent := rfl }, h.disk, h.bits⟩

/-- One run is freed, or the volume has no room to. -/
theorem Quiet.yields_freeRun (h : Quiet k) (hmapped : k.Mapped run) :
    Yields (hbfsFreeBlocks run.1 run.2) (fun _ k' => RunsFreed [run] k k') k := by
  have hb := layout_eq
  have hbits := bitmapBits_le k
  obtain ⟨hcover, hcnt⟩ := hmapped.covers
  refine ((h.yields_freeBlocks hcover hcnt).and (h.level.freeBlocks run.1 run.2)).mono
    fun cf k' ⟨hchanged, hlevel⟩ => ?_
  have hlevel : Level false 0 k' := by
    cases cf with
    | true => exact hlevel
    | false => exact hlevel
  cases cf with
  | true =>
    obtain ⟨hroom, hrolled⟩ := hchanged
    have hdisk := hrolled.disk h.level.depth
    refine ⟨⟨hrolled.steady h.toSteady, hlevel⟩, hrolled.geometry, hrolled.keeps,
      hdisk.mono fun _ hfalse => hfalse.elim, fun m hm => ?_⟩
    have hsame : ∀ s < hbfsBitmapSects, k'.disk (hbfsBitmapStart + s) =
      k.disk (hbfsBitmapStart + s) := fun s hs =>
      hdisk _ (not_inLog_bitmap hs) (by omega) id
    rw [diskBitmap_bit_congr hsame (by omega)]
    simp only [mem_singleton, forall_eq]
    exact ⟨fun hbit => ⟨hbit, fun hfrees => absurd hfrees hroom⟩, And.left⟩
  | false =>
  obtain ⟨hroom, hset⟩ := hchanged
  refine ⟨⟨hset.steady, hlevel⟩, hset.files.geometry, hset.files.abortKeeps hset.extent, hset.disk,
    fun m hm => ?_⟩
  rw [hset.bit hm, withRange]
  simp only [mem_singleton, forall_eq]
  split
  · next hin => exact ⟨nofun, fun hout => absurd hin (hout.2 hroom)⟩
  · next hout => exact ⟨fun hbit => ⟨hbit, fun _ => hout⟩, And.left⟩

theorem Buffer.RunsFrom.head {buf : Buffer} {i : Nat} (h : buf.RunsFrom i (run :: runs)) :
    buf.run i = run :=
  h 0 run rfl

theorem Buffer.RunsFrom.tail {buf : Buffer} {i : Nat} (h : buf.RunsFrom i (run :: runs)) :
    buf.RunsFrom (i + 1) runs := by
  intro j run' hrun
  rw [show i + 1 + j = i + (j + 1) by omega]
  exact h (j + 1) run' hrun

/-- The runs behind the cut are freed. -/
theorem Quiet.yields_truncateFree (h : Quiet k) {i : Nat} (hbuf : k.extentBuf.RunsFrom i runs)
    (hmapped : ∀ run ∈ runs, k.Mapped run) :
    Yields (truncateFree runs.length i) (fun cf k' => cf = false ∧ RunsFreed runs k k') k := by
  induction runs generalizing k i with
  | nil => exact ⟨rfl, RunsFreed.refl h⟩
  | cons run runs ih =>
  have hfirst := hmapped run (mem_cons_self ..)
  simp only [length_cons, truncateFree, hbuf.head, yields_rules]
  rw [if_neg hfirst.pos.ne']
  refine (h.yields_freeRun hfirst).mono fun _ k1 h1 => ?_
  refine (ih h1.quiet ?_ fun run' hrun' => ?_).mono fun cf k' ⟨hcf, hfreed⟩ =>
    ⟨hcf, h1.trans h hfreed⟩
  · rw [h1.keeps.extent]
    exact hbuf.tail
  · obtain ⟨hpos, hinside⟩ := hmapped run' (mem_cons_of_mem _ hrun')
    exact ⟨hpos, h1.geometry.bitmapBits ▸ hinside⟩

/-! ## The walk -/

/-- The runs that are freed when the first `n` blocks are kept. -/
def droppedRuns : (n : Nat) → List (Nat × Nat) → List (Nat × Nat)
  | _, [] => []
  | n, run :: runs =>
    if run.2 ≤ n then droppedRuns (n - run.2) runs
    else if n = 0 then runs
    else (run.1 + n, run.2 - n) :: runs

theorem droppedRuns_eq_rest {n : Nat} (hpos : ∀ run ∈ runs, 0 < run.2)
    (h : ¬ RunList.AtEdge n runs) :
    droppedRuns n runs = RunList.rest n runs := by
  induction runs generalizing n with
  | nil => rfl
  | cons run runs ih =>
    rw [atEdge_cons (hpos run (mem_cons_self ..))] at h
    rw [droppedRuns, rest]
    split at h
    · grind
    · next hlt => rw [if_neg hlt, if_neg hlt, if_neg h]

theorem rest_eq_cons_droppedRuns {n : Nat} (hpos : ∀ run ∈ runs, 0 < run.2)
    (h : RunList.AtEdge n runs) :
    ∃ run, RunList.rest n runs = run :: droppedRuns n runs := by
  induction runs generalizing n with
  | nil =>
    obtain ⟨i, hi, -⟩ := h
    exact absurd hi (Nat.not_lt_zero i)
  | cons run runs ih =>
  rw [atEdge_cons (hpos run (mem_cons_self ..))] at h
  rw [droppedRuns, rest]
  split at h
  · grind
  · next hlt =>
    rw [if_neg hlt, if_neg hlt, if_pos h]
    exact ⟨_, rfl⟩

/-- A buffer with a run written as its `i`-th record. -/
def Buffer.withRun (buf : Buffer) (i : Nat) (run : Nat × Nat) : Buffer :=
  (buf.setDword (hbfs4ExtentHdr + hbfs4ExtentRecord * i) run.1).setDword
    (hbfs4ExtentHdr + hbfs4ExtentRecord * i + 4) run.2

section Records

variable {buf : Buffer} {i : Nat}

theorem Buffer.dword_withRun {off : Nat}
    (h : off + 4 ≤ 8 + 8 * i ∨ 8 + 8 * i + 8 ≤ off) : (buf.withRun i run).dword off =
    buf.dword off := by
  have hhdr : hbfs4ExtentHdr = 8 := rfl
  have hrec : hbfs4ExtentRecord = 8 := rfl
  rw [withRun, hhdr, hrec, dword_setDword_of_apart (by omega), dword_setDword_of_apart (by omega)]

theorem Buffer.run_withRun (h1 : run.1 < 2 ^ 32) (h2 : run.2 < 2 ^ 32) :
    (buf.withRun i run).run i = run := by
  rw [Buffer.withRun, Buffer.run, Buffer.dword_setDword_of_apart (by omega),
    Buffer.dword_setDword_self h1,
    dword_setDword_self h2]

theorem Buffer.run_eq_of_dword {buf' : Buffer}
    (h : ∀ off, off + 4 ≤ 8 + 8 * (i + 1) → buf'.dword off = buf.dword off) :
    buf'.run i = buf.run i := by
  have hhdr : hbfs4ExtentHdr = 8 := rfl
  have hrec : hbfs4ExtentRecord = 8 := rfl
  rw [run, run, hhdr, hrec, h _ (by omega), h _ (by omega)]

theorem Buffer.RunsFrom.withRun (h : buf.RunsFrom (i + 1) runs) :
    (buf.withRun i run).RunsFrom (i + 1) runs := by
  have hhdr : hbfs4ExtentHdr = 8 := rfl
  have hrec : hbfs4ExtentRecord = 8 := rfl
  intro j run' hrun
  rw [← h j run' hrun, Buffer.run, Buffer.run, hhdr, hrec, Buffer.dword_withRun (by omega),
    dword_withRun (by omega)]

end Records

theorem yields_putRun {i start len : Nat} {Q : Unit → Kernel → Prop} :
    Yields (putRun i start len) Q k ↔
    Q () { k with extentBuf := k.extentBuf.withRun i (start, len) } := by
  simp only [putRun, yields_modify]
  rfl

/-- What `.hte_walk` does with the runs from the `i`-th record on, to keep `n` blocks of them. -/
structure CutWalked (n i : Nat) (runs : List (Nat × Nat)) (k : Kernel) (r : Option Nat)
    (k' : Kernel) : Prop where
  kept : r = some (i + (RunList.keep n runs).length)
  freed : ∃ e, RunsFreed (droppedRuns n runs) { k with toExtentState := e } k'
  front : ∀ off, off + 4 ≤ 8 + 8 * i → k'.extentBuf.dword off = k.extentBuf.dword off
  lists : k'.extentBuf.RunsFrom i (RunList.keep n runs)

/-- The walk keeps the first `n` blocks. -/
theorem Quiet.yields_truncateWalk (h : Quiet k) {i n : Nat} (hbuf : k.extentBuf.RunsFrom i runs)
    (hmapped : ∀ run ∈ runs, k.Mapped run) :
    Yields (truncateWalk runs.length i n i) (CutWalked n i runs k) k := by
  have hb := layout_eq
  have hbits := bitmapBits_le k
  induction runs generalizing k i n with
  | nil =>
      exact ⟨rfl, ⟨k.toExtentState, RunsFreed.refl h⟩,
      fun _ _ => rfl, by simp [keep, Buffer.RunsFrom]⟩
  | cons run runs ih =>
  have hfirst := hmapped run (mem_cons_self ..)
  obtain ⟨hpos, hinside⟩ := hfirst
  have hlater : ∀ run' ∈ runs, k.Mapped run' :=
    fun run' hrun' => hmapped run' (mem_cons_of_mem _ hrun')
  simp only [length_cons, truncateWalk, yields_putRun, hbuf.head, yields_rules]
  rw [if_neg hpos.ne']
  by_cases hle : run.2 ≤ n
  · -- The whole run is kept.
    rw [if_pos hle]
    have hquiet : Quiet { k with extentBuf := k.extentBuf.withRun i run } := h.congr rfl rfl rfl rfl
    refine (ih hquiet hbuf.tail.withRun
      (fun run' hrun' => ⟨(hlater run' hrun').pos, (hlater run' hrun').inside⟩)
      hbits).mono fun r k' hwalked => ?_
    obtain ⟨e, hfreed⟩ := hwalked.freed
    have hhead : k'.extentBuf.run i = run := by
      rw [run_eq_of_dword hwalked.front]
      exact run_withRun (by omega) (by omega)
    refine ⟨?_, ⟨e, ?_⟩, fun off hoff => ?_, ?_⟩
    · rw [hwalked.kept, keep, if_pos hle, length_cons]
      congr 1
      omega
    · rw [droppedRuns, if_pos hle]
      exact hfreed
    · rw [hwalked.front off (by omega)]
      exact dword_withRun (.inl hoff)
    · rw [keep, if_pos hle]
      intro j run' hrun'
      cases j with
      | zero => grind
      | succ j =>
        rw [show i + (j + 1) = i + 1 + j by omega]
        exact hwalked.lists j run' (by simpa using hrun')
  rw [if_neg hle]
  by_cases hzero : n = 0
  · -- The cut is at an edge.
    rw [if_pos hzero]
    refine (h.yields_truncateFree hbuf.tail hlater).mono ?_
    rintro cf k' ⟨hcf, hfreed⟩
    subst hcf
    have hkeep : keep n (run :: runs) = [] := by rw [keep, if_neg hle, if_pos hzero]
    refine ⟨by rw [hkeep]; rfl, ⟨k.toExtentState, ?_⟩, fun off _ => ?_, ?_⟩
    · rw [droppedRuns, if_neg hle, if_pos hzero]
      exact hfreed
    · rw [hfreed.keeps.extent]
    · rw [hkeep]
      intro j run' hrun'
      simp at hrun'
  -- The run is split.
  rw [if_neg hzero]
  have htail : k.Mapped (run.1 + n, run.2 - n) := by
    refine ⟨?_, ?_⟩
    · show 0 < run.2 - n
      omega
    · show run.1 + n + (run.2 - n) ≤ k.bitmapBits
      omega
  refine (h.yields_freeRun htail).mono fun _ k1 h1 => ?_
  have hextent : k1.extentBuf = k.extentBuf := congrArg ExtentState.extentBuf h1.keeps.extent
  set e : ExtentState :=
    { k1.toExtentState with extentBuf := k1.extentBuf.withRun i (run.1, n) } with he
  have hput := h1.setExtent e
  have hrecords : (k1.extentBuf.withRun i (run.1, n)).RunsFrom (i + 1) runs := by
    rw [hextent]
    exact hbuf.tail.withRun
  have hlater1 : ∀ run' ∈ runs, Kernel.Mapped { k1 with toExtentState := e } run' :=
    fun run' hrun' =>
    ⟨(hlater run' hrun').pos, h1.geometry.bitmapBits ▸ (hlater run' hrun').inside⟩
  refine (hput.quiet.yields_truncateFree hrecords hlater1).mono ?_
  rintro cf k' ⟨hcf, hfreed⟩
  subst hcf
  have hkeep : keep n (run :: runs) = [(run.1, n)] := by rw [keep, if_neg hle, if_neg hzero]
  have hbuf' : k'.extentBuf = k.extentBuf.withRun i (run.1, n) := by
    rw [congrArg ExtentState.extentBuf hfreed.keeps.extent, ← hextent]
  refine ⟨by rw [hkeep]; rfl, ⟨e, ?_⟩, fun off hoff => ?_, ?_⟩
  · rw [droppedRuns, if_neg hle, if_neg hzero]
    have hquiet : Quiet { k with toExtentState := e } := h.congr rfl rfl rfl rfl
    exact hput.trans hquiet hfreed
  · rw [hbuf']
    exact dword_withRun (.inl hoff)
  · rw [hkeep, hbuf']
    intro j run' hrun'
    cases j with
    | zero =>
      obtain rfl : (run.1, n) = run' := by simpa using hrun'
      exact run_withRun (show run.1 < 2 ^ 32 by omega) (show n < 2 ^ 32 by omega)
    | succ j => simp at hrun'

/-! ## The whole call -/

/-- The shortened run list is written. -/
theorem Quiet.yields_writeExtentBlock (h : Quiet k) {block : Nat}
    (hblock : hbfsJournalBlocks ≤ block) (hlt : block ≤ 8 * hbfsBitmapSize)
    (hdevice : blockLba block + hbfsSectorsPerBlk ≤ k.ataTotalSectors) :
    Yields (hbfsMetaWrite (blockLba block) .extentBuf hbfsSectorsPerBlk)
      (fun cf k' => cf = false ∧ ExtentWritten block k k' ∧ Quiet k') k := by
  have hb := layout_eq
  have hlba : blockLba block = 8866 + 8 * block := blockLba_eq hlt
  obtain ⟨hstamped, hextra⟩ := stampedFor_block (k := k) hlt
  have hlogs : k.logs = false := by simp [Kernel.logs, h.level.dirty]
  have hdone : Yields (hbfsMetaWrite (blockLba block) .extentBuf hbfsSectorsPerBlk)
    (PlainWrite k) k := by
    simp only [hbfsMetaWrite, hbfsRequireWritable, hbfsMetaTry, yields_stampForWrite, yields_rules]
    rw [if_neg (by simp [h.level.writable_eq]), hstamped]
    refine (yields_loop_plain h.healthy hlogs _ _ _ 0 fun j hj => ?_).mono fun cf k1 h₁ => ?_
    · omega
    · have hnot : ¬ k.extraFor (blockLba block) hbfsSectorsPerBlk = true := by simp [hextra]
      rw [h₁.done, if_neg Bool.false_ne_true, if_neg hnot, if_neg Bool.false_ne_true]
      exact { h₁ with done := rfl }
  refine ((hdone.and (h.level.toUsable.yields_writeExtentBlock hblock hlt)).and
    (h.level.metaWrite _ _ _)).mono ?_
  rintro cf k' ⟨⟨hplain, hwritten⟩, hlevel⟩
  have hwritten := hwritten hplain.done
  have hlevel : Level false 0 k' := by
    rw [hplain.done] at hlevel
    exact hlevel
  have hbitmap : ∀ s < hbfsBitmapSects, k'.disk (hbfsBitmapStart + s) =
    k.disk (hbfsBitmapStart + s) := by
    intro s hs
    refine hwritten.disk _ (not_inLog_bitmap hs) (by omega) ?_
    rintro ⟨h1, -⟩
    omega
  refine ⟨hplain.done, hwritten,
    ⟨⟨hlevel.toUsable, hplain.healthy, fun hdepth => ?_⟩, ?_, fun hvalid => ?_⟩, hlevel⟩
  · rw [hlevel.depth] at hdepth
    exact absurd hdepth (Nat.lt_irrefl 0)
  · rw [hwritten.same.totalBlocks]
    exact h.blocks
  · rw [hwritten.same.bitmap] at hvalid
    rw [bitmapLoaded_iff]
    intro s hs
    rw [hbitmap s hs, hwritten.same.bitmap]
    exact bitmapLoaded_iff.mp (h.bitmap hvalid) s hs

/-- The run list in `block` has been cut behind `n` blocks. -/
structure Shortened (block n : Nat) (runs : List (Nat × Nat)) (k k' : Kernel) : Prop where
  quiet : Quiet k'
  geometry : SameGeometry k k'
  keeps : ∃ e, AbortKeeps { k with toExtentState := e } k'
  lists : (Buffer.ofDisk k'.disk (blockLba block)).ListsRuns (RunList.keep n runs)
  disk : DiskKept (fun a => InBitmap a ∨ BlockSector block a) k.disk k'.disk
  bits : ∀ m < k.bitmapBits, (diskBitmap k'.disk).bit m = true ↔
    (diskBitmap k.disk).bit m = true ∧ ∀ run ∈ droppedRuns n runs, k.Frees run →
    ¬ (run.1 ≤ m ∧ m < run.1 + run.2)

theorem Kernel.HoldsRuns.mapped {block : Nat} (h : k.HoldsRuns block runs) :
    ∀ run ∈ runs, k.Mapped run := by
  intro run hrun
  have hpos := h.pos run hrun
  have hlast := (h.allocated (run.1 + run.2 - 1) (mem_flat.mpr ⟨run, hrun, by omega, by omega⟩)).1
  exact ⟨hpos, by omega⟩

theorem Kernel.HoldsRuns.length_le {block : Nat} (h : k.HoldsRuns block runs) :
    (RunList.flat runs).length ≤ k.bitmapBits := by
  rw [← toFinset_card_of_nodup h.apart, ← Finset.card_range k.bitmapBits]
  refine Finset.card_le_card fun m hm => ?_
  exact Finset.mem_range.mpr (h.allocated m (mem_toFinset.mp hm)).1

/-- The 32-bit count is right for sizes that fit. -/
theorem blocksFor_eq_fileBlocks {size : Nat} (h : fileBlocks size ≤ 8 * hbfsBitmapSize) :
    blocksFor size = fileBlocks size := by
  have hsize := bitmapSize_eq
  have hblock : hbfsBlockSize = 4096 := rfl
  unfold blocksFor
  unfold fileBlocks at h ⊢
  rw [hblock] at h ⊢
  rw [Nat.mod_eq_of_lt (by omega)]

theorem one_le_fileBlocks (size : Nat) : 1 ≤ fileBlocks size := le_max_left _ _

theorem keep_ne_nil {n : Nat} (hn : 1 ≤ n) (hne : runs ≠ []) : RunList.keep n runs ≠ [] := by
  cases runs with
  | nil => exact absurd rfl hne
  | cons run runs =>
    rw [keep]
    split
    · exact cons_ne_nil _ _
    · rw [if_neg (by omega)]
      exact cons_ne_nil _ _

theorem length_keep_le (n : Nat) (runs : List (Nat × Nat)) :
    (RunList.keep n runs).length ≤ runs.length := by
  induction runs generalizing n with
  | nil => exact le_rfl
  | cons run runs ih =>
    rw [keep]
    split
    · simpa using ih _
    · split <;> simp

theorem Buffer.RunsFrom.setCount {buf : Buffer} (h : buf.RunsFrom 0 runs) (n : Nat) :
    (buf.setDword 4 n).RunsFrom 0 runs := by
  have hhdr : hbfs4ExtentHdr = 8 := rfl
  intro i run hrun
  rw [← h i run hrun]
  unfold Buffer.run
  rw [dword_setDword_of_apart (by omega), dword_setDword_of_apart (by omega)]

/-- `hbfs_truncate_extent` on a device that works. -/
theorem Quiet.yields_truncateExtent (h : Quiet k) (hk : Coherent k) {block size : Nat}
    (hruns : k.HoldsRuns block runs) (hsize : fileBlocks size ≤ (RunList.flat runs).length) :
    Yields (hbfsTruncateExtent block size) (fun cf k' => cf = false ∧
      Shortened block (fileBlocks size) runs k k') k := by
  have hb := layout_eq
  have hbits := bitmapBits_le k
  have hlen := hruns.length_le
  have hblocks : blocksFor size = fileBlocks size := blocksFor_eq_fileBlocks (by omega)
  have hin : block ≤ 8 * hbfsBitmapSize := by
    have hlt := hruns.here.1
    omega
  have hlba : blockLba block = 8866 + 8 * block := blockLba_eq hin
  set n := fileBlocks size with hn
  have hpos : 0 < (keep n runs).length :=
    length_pos_iff.mpr (keep_ne_nil (one_le_fileBlocks size) hruns.nonempty)
  simp only [hbfsTruncateExtent, yields_rules]
  refine (hk.yields_readExtentBlock h.healthy.faults hruns.lists hruns.nonempty hruns.fits
    hruns.onDevice).mono
    fun cf k1 ⟨hcf, c, e, heq, hlists⟩ => ?_
  subst hcf heq
  have hquiet1 : Quiet { k with toBlkCache := c, toExtentState := e } := h.congr rfl rfl rfl rfl
  have hrecords : e.extentBuf.RunsFrom 0 runs := fun j run hrun => by
    rw [Nat.zero_add]
    exact hlists.run j run hrun
  rw [if_neg Bool.false_ne_true, hblocks, show (e.extentBuf.dword 4) =
    runs.length from hlists.count]
  refine (hquiet1.yields_truncateWalk hrecords fun run hrun => ?_).mono fun r k2 hwalked => ?_
  · exact ⟨(hruns.mapped run hrun).pos, (hruns.mapped run hrun).inside⟩
  obtain ⟨e', hfreed⟩ := hwalked.freed
  have hkept : r = some ((keep n runs).length - 1 + 1) := by
    rw [hwalked.kept, Nat.zero_add, Nat.sub_add_cancel hpos]
  subst hkept
  simp only [yields_rules]
  rw [Nat.sub_add_cancel hpos]
  set k3 : Kernel := { k2 with
    extentBuf := (k2.extentBuf.setDword 4 (keep n runs).length).stampRun hbfsBlockSize } with hk3
  have hquiet3 : Quiet k3 := hfreed.quiet.congr rfl rfl rfl rfl
  have hmagic : (k2.extentBuf.setDword 4 (keep n runs).length).dword 0 = hbfs4ExtentMagic := by
    rw [dword_setDword_of_apart (by omega), hwalked.front 0 (by omega)]
    exact hlists.magic
  have hfits := (length_keep_le n runs).trans hruns.fits
  have hlists3 :=
    listsRuns_stampRun hmagic (dword_setDword_self (by omega)) (hwalked.lists.setCount _) hfits
  have hdevice : blockLba block + hbfsSectorsPerBlk ≤ k3.ataTotalSectors := by
    have htotal : k3.ataTotalSectors = k.ataTotalSectors := hfreed.geometry.total
    rw [htotal]
    exact hruns.onDevice
  refine (hquiet3.yields_writeExtentBlock hruns.behind hin hdevice).mono
    fun cf k4 ⟨hcf, hwritten, hquiet4⟩ => ?_
  subst hcf
  rw [if_neg Bool.false_ne_true]
  have hfiles := hwritten.same.outsideTx.sameFiles
  have hgeometry3 : SameGeometry k k3 := { hfreed.geometry with }
  have hgeometry := hgeometry3.trans hfiles.geometry
  have hkeeps := hfreed.keeps
  refine ⟨trivial, hquiet4.congr rfl rfl rfl rfl, { hgeometry with }, ⟨⟨k4.extentBuf, block⟩, ?_⟩,
    ?_, ?_, fun m hm => ?_⟩
  · have hdir : k4.toDirState = k2.toDirState := hfiles.dir
    refine ⟨rfl, hfiles.cwd.trans hkeeps.cwd, hfiles.quota.trans hkeeps.quota,
      hfiles.caller.trans hkeeps.caller,
      ?_, ?_, ?_, ?_⟩
    · exact (congrArg DirState.dirBuf hdir).trans hkeeps.dirBuf
    · exact (congrArg DirState.dirShadow hdir).trans hkeeps.dirShadow
    · exact (congrArg DirState.currentDirLba hdir).trans hkeeps.currentDirLba
    · exact (congrArg DirState.currentDirSects hdir).trans hkeeps.currentDirSects
  · refine hlists3.congr ((length_keep_le n runs).trans hruns.fits) fun i hi => ?_
    refine eq_of_sector ?_
    rw [sector_ofDisk]
    exact hwritten.sectors (i / 512) (by omega)
  · exact (hfreed.disk.mono fun _ h => .inl h).trans (hwritten.disk.mono fun _ h => .inr h)
  · have hsame : ∀ s < hbfsBitmapSects, k4.disk (hbfsBitmapStart + s) =
      k2.disk (hbfsBitmapStart + s) := by
      intro s hs
      refine hwritten.disk _ (not_inLog_bitmap hs) (by omega) ?_
      rintro ⟨h1, -⟩
      omega
    show (diskBitmap k4.disk).bit m = true ↔ _
    rw [diskBitmap_bit_congr hsame (by omega)]
    exact hfreed.bits m hm

/-! ## When the cut is exact -/

section Exact

variable {block n : Nat}

theorem droppedRuns_subset (hpos : ∀ run ∈ runs, 0 < run.2) :
    ∀ run ∈ droppedRuns n runs, run ∈ RunList.rest n runs := by
  intro run hrun
  by_cases hedge : RunList.AtEdge n runs
  · obtain ⟨first, hrest⟩ := rest_eq_cons_droppedRuns hpos hedge
    rw [hrest]
    exact mem_cons_of_mem _ hrun
  · rw [← droppedRuns_eq_rest hpos hedge]
    exact hrun

/-- Which blocks the cut frees. -/
theorem Shortened.freed_iff (h : Shortened block n runs k k') {m : Nat} (hm : m < k.bitmapBits) :
    k.Freed k' m ↔ (diskBitmap k.disk).bit m = true ∧
      ∃ run ∈ droppedRuns n runs, k.Frees run ∧ run.1 ≤ m ∧ m < run.1 + run.2 := by
  have hbits := h.bits m hm
  unfold Kernel.Freed
  rw [← Bool.not_eq_true, hbits]
  constructor
  · grind
  · grind

/-- The blocks that are freed are the ones behind the cut exactly when no run behind it is passed
over or fails. -/
theorem Shortened.exact_iff (h : Shortened block n runs k k') (hruns : k.HoldsRuns block runs) :
    (∀ m < k.bitmapBits, k.Freed k' m ↔ m ∈ (RunList.flat runs).drop n) ↔
      ¬ RunList.AtEdge n runs ∧ ∀ run ∈ RunList.rest n runs, k.Frees run := by
  have hpos := rest_pos hruns.pos n
  have hflat := flat_rest n runs
  have hnodup : (flat (rest n runs)).Nodup := by
    rw [hflat]
    exact hruns.apart.sublist (drop_sublist n _)
  have hallocated : ∀ m ∈ flat (rest n runs), k.Allocated m := by
    intro m hm
    rw [hflat] at hm
    exact hruns.allocated m (mem_of_mem_drop hm)
  rw [← hflat]
  constructor
  · intro hexact
    have hall : ∀ run ∈ rest n runs, run ∈ droppedRuns n runs ∧ k.Frees run := by
      intro run hrun
      have hfirst : run.1 ≤ run.1 ∧ run.1 < run.1 + run.2 :=
        ⟨le_rfl, by have := hpos run hrun; omega⟩
      have hmem := mem_flat.mpr ⟨run, hrun, hfirst⟩
      have hlt := (hallocated _ hmem).1
      obtain ⟨-, run', hrun', hfrees, hin⟩ := (h.freed_iff hlt).mp ((hexact _ hlt).mpr hmem)
      obtain rfl := eq_of_mem hnodup hrun (droppedRuns_subset hruns.pos run' hrun') hfirst hin
      exact ⟨hrun', hfrees⟩
    refine ⟨fun hedge => ?_, fun run hrun => (hall run hrun).2⟩
    obtain ⟨first, hrest⟩ := rest_eq_cons_droppedRuns hruns.pos hedge
    rw [hrest] at hnodup hall hpos
    exact notMem_of_nodup_cons hnodup (hpos first (mem_cons_self ..))
      (hall first (mem_cons_self ..)).1
  · rintro ⟨hedge, hfrees⟩ m hm
    rw [h.freed_iff hm, droppedRuns_eq_rest hruns.pos hedge]
    constructor
    · rintro ⟨-, run, hrun, -, hin⟩
      exact mem_flat.mpr ⟨run, hrun, hin⟩
    · intro hmem
      obtain ⟨run, hrun, hin⟩ := mem_flat.mp hmem
      exact ⟨(hallocated m hmem).2, run, hrun, hfrees run hrun, hin⟩

end Exact

/-- A run list is cut exactly when the cut is inside a run or behind the last one and every run
behind it can be freed. -/
theorem truncate_exact_iff (h : Quiet k) (hk : Coherent k) {block size : Nat}
    (hruns : k.HoldsRuns block runs) (hsize : fileBlocks size ≤ (RunList.flat runs).length) :
    TruncateExact block size runs k ↔ k.CutFits size runs := by
  refine (h.yields_truncateExtent hk hruns hsize).decided fun cf k' ⟨hcf, hshort⟩ => ?_
  have hlists : ∃ runs', (ofDisk k'.disk (blockLba block)).ListsRuns runs' ∧
      flat runs' = (flat runs).take (fileBlocks size) :=
    ⟨_, hshort.lists, flat_keep _ _⟩
  rw [Kernel.CutFits]
  constructor
  · intro hexact
    exact (hshort.exact_iff hruns).mp (hexact hcf).2
  · intro hfits _
    exact ⟨hlists, (hshort.exact_iff hruns).mpr hfits⟩

/-! ## A file of two runs -/

/-- A v4 volume with the blocks 0 to 39 allocated and these runs listed in block 10. -/
def runsVolume (runs : List (Nat × Nat)) : Kernel :=
  { disk := fun a =>
      if a = hbfsBitmapStart then ⟨fun i => if i.val < 5 then 255 else 0⟩
      else if blockLba 10 ≤ a then (extentBlock (fun _ => 0) runs).sector (a - blockLba 10)
      else Sector.zero
    ataTotalSectors := 20000
    mounted := true
    totalBlocks := 1000
    superBuf := (Sector.zero.setDword 0 hbfs4Magic).setDword sbVersion hbfs4Version }

theorem runsVolume_coherent (runs : List (Nat × Nat)) :
    Coherent (runsVolume runs) := coherent_of_empty fun _ _ => rfl

theorem runsVolume_quiet (runs : List (Nat × Nat)) : Quiet (runsVolume runs) := by
  have hbounds : (runsVolume runs).Healthy :=
    ⟨rfl, show hbfsJournalLba + hbfsJournalSects ≤ 20000 by decide⟩
  have hstate : (runsVolume runs).superBuf.dword hbfsSbJrnlState = 0 := by
    show ((Sector.zero.setDword 0 hbfs4Magic).setDword sbVersion hbfs4Version).dword
      hbfsSbJrnlState = 0
    decide
  refine ⟨⟨⟨⟨rfl, rfl⟩, hbounds, fun hdepth => ?_⟩, ?_, fun hvalid => ?_⟩, ⟨rfl, rfl⟩, rfl, rfl,
    fun _ => hstate,
    fun hlevel => ?_, fun hlevel => ?_⟩
  · exact absurd hdepth (Nat.lt_irrefl 0)
  · show 1000 ≤ 8 * hbfsBitmapSize
    decide
  · exact absurd hvalid Bool.false_ne_true
  · exact absurd hlevel (by decide)
  · exact absurd hlevel (Nat.lt_irrefl 0)

theorem runsVolume_bit (runs : List (Nat × Nat)) {m : Nat} (hm : m < 40) :
    (diskBitmap (runsVolume runs).disk).bit m = true := by
  have hsector : m / 8 / 512 = 0 := by omega
  have hbyte : m / 8 % 512 < 5 := by omega
  have hmod : m % 8 < 8 := Nat.mod_lt m (by decide)
  simp only [bit, diskBitmap, ofDisk, hsector, Nat.add_zero, runsVolume, if_pos, hbyte]
  generalize m % 8 = i at hmod
  interval_cases i <;> rfl

theorem runsVolume_holdsRuns (hne : runs ≠ []) (hlen : runs.length ≤ hbfs4ExtentMax)
    (hmapped : ∀ run ∈ runs, 0 < run.2 ∧ run.1 + run.2 ≤ 40) (hapart : (RunList.flat runs).Nodup) :
    (runsVolume runs).HoldsRuns 10 runs := by
  have hb := layout_eq
  have hlba : blockLba 10 = 8946 := blockLba_eq (by decide)
  have hbits : (runsVolume runs).bitmapBits = v4Blocks := by
    have hv4 : (runsVolume runs).isV4 = true := by
      show ((Sector.zero.setDword 0 hbfs4Magic).setDword sbVersion hbfs4Version).dword
        0 == hbfs4Magic
      decide
    rw [Kernel.bitmapBits, if_pos hv4]
  have hv4 := v4Blocks_eq
  have hsmall : ∀ run ∈ runs, run.1 < 2 ^ 32 ∧ run.2 < 2 ^ 32 := by
    intro run hrun
    have hrange := hmapped run hrun
    omega
  refine ⟨(extentBlock_listsRuns (fun _ => 0) hlen hsmall).congr hlen fun i hi => ?_, hne, hlen,
    fun run hrun => (hmapped run hrun).1, hapart, fun m hm => ?_,
    ⟨by omega, runsVolume_bit runs (by decide)⟩,
    by decide, ?_⟩
  · refine eq_of_sector ?_
    rw [sector_ofDisk]
    show (if blockLba 10 + i / 512 = hbfsBitmapStart then _ else _) = _
    rw [if_neg (by omega), if_pos (by omega), Nat.add_sub_cancel_left]
  · obtain ⟨run, hrun, hin⟩ := mem_flat.mp hm
    have hrange := hmapped run hrun
    exact ⟨by omega, runsVolume_bit runs (by omega)⟩
  · show blockLba 10 + hbfsSectorsPerBlk ≤ 20000
    omega

theorem twoRuns_hold : (runsVolume [(20, 1), (30, 1)]).HoldsRuns 10 [(20, 1), (30, 1)] :=
  runsVolume_holdsRuns (by simp) (by decide) (by decide) (by decide)

/-- A file of two runs. -/
theorem truncate_exact_iff_two : (runsVolume [(20, 1), (30, 1)]).HoldsRuns 10 [(20, 1), (30, 1)] ∧
    (TruncateExact 10 8192 [(20, 1), (30, 1)] (runsVolume [(20, 1), (30, 1)]) ↔
      (runsVolume [(20, 1), (30, 1)]).CutFits 8192 [(20, 1), (30, 1)]) :=
  ⟨twoRuns_hold, truncate_exact_iff (runsVolume_quiet _) (runsVolume_coherent _)
    twoRuns_hold (by decide)⟩

/-- Of two runs of one block each the first is kept, and the second is not freed. -/
theorem truncate_not_exact : Quiet (runsVolume [(20, 1), (30, 1)]) ∧
    (runsVolume [(20, 1), (30, 1)]).HoldsRuns 10 [(20, 1), (30, 1)] ∧
    ¬ TruncateExact 10 4096 [(20, 1), (30, 1)] (runsVolume [(20, 1), (30, 1)]) := by
  refine ⟨runsVolume_quiet _, twoRuns_hold, fun hexact => ?_⟩
  have hcall :=
    (runsVolume_quiet [(20, 1), (30, 1)]).yields_truncateExtent (runsVolume_coherent _) twoRuns_hold
    (show fileBlocks 4096 ≤ _ by decide)
  obtain ⟨⟨hcf, hshort⟩, hexact⟩ := hcall.and hexact
  exact ((hshort.exact_iff twoRuns_hold).mp (hexact hcf).2).1 (by decide)

end Mellivora
