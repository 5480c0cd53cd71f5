import Mellivora.Kernel.Proofs.CrashProofs

/-!
# Crash atomicity of metadata transactions

A transaction on a clean volume is followed from its begin record to its last superblock write.
-/

namespace Mellivora

open WriteLog Outcome Function List Nat

variable {k' : Kernel} {steps : List TxStep} {free : Nat} {d : Disk} {total e : Nat}
  {targets done : List Nat} {ws recs : List (Nat × Sector)} {k : Kernel}

/-! ## Steps -/

theorem SameButLog.freeCount_eq (h : SameButLog k k') :
    freeCount k'.superBuf = freeCount k.superBuf := h.dword (by decide)

theorem freeCount_stampedFor (lba : Nat) :
    freeCount (k.stampedFor lba).superBuf = freeCount k.superBuf := stampedFor_dword lba (by decide)

/-- The sectors one `hbfs_meta_write` writes, the superblock apart. -/
def Kernel.metaWrites (k : Kernel) (lba : Nat) (src : MetaSrc) (cnt : Nat) : List (Nat × Sector) :=
  ((List.range cnt).map fun j => (lba + j, (k.stampedFor lba).metaSector src j)) ++
    if k.extraFor lba cnt then
      [(bitmapTrailer, (k.stampedFor lba).bitmapBuf.sector (hbfsBitmapSects - 1))] else []

/-- A metadata write inside a transaction. -/
theorem TxInv.yields_write (h : TxInv d total e targets done ws recs k) {lba cnt : Nat}
    {src : MetaSrc} (hsrc : src ≠ .superBuf) (h32 : total ≤ 2 ^ 32)
    (hlba : ∀ j < cnt, lba + j ≠ hbfsSuperblockLba ∧ ¬ InLog (lba + j) ∧ lba + j < total)
    (htargets : ∀ j < cnt, lba + j ∈ targets)
    (htrailer : k.extraFor lba cnt = true → bitmapTrailer ∈ targets)
    (hfits : targets.dedup.length ≤ 15) :
    Yields (hbfsMetaWrite lba src cnt) (fun _ k' =>
      (∃ recs', TxInv d total e targets done (ws ++ k.metaWrites lba src cnt) recs' k') ∧
        freeCount k'.superBuf = freeCount k.superBuf ∧
        k'.bitmapBuf = (k.stampedFor lba).bitmapBuf) k := by
  have hb := layout_eq
  have hbounds := h.healthy.bounds
  have hsize := h.size
  have htrailerLt : ∀ j < 1, bitmapTrailer + j < total := by
    intro j hj
    unfold bitmapTrailer
    omega
  have htrailerMem : k.extraFor lba cnt = true → ∀ j < 1, bitmapTrailer + j ∈ targets := by grind
  refine h.inv.yields_metaWrite h.failed h.mounted h.writable src ?_ (by simp) ?_ ?_ ?_ ?_
  · grind
  · intro recs1 k1 hrun hex
    refine ⟨⟨recs1, ?_⟩, hrun.same.freeCount_eq.trans (freeCount_stampedFor lba),
      by rw [hrun.same.bitmap]⟩
    have hinv := (h.stampedFor lba).metaRun hrun htargets hsrc fun j hj => (hlba j hj).1
    rwa [Kernel.metaWrites, if_neg (by simp [hex]), append_nil]
  · intro recs1 k1 recs2 k2 hrun hex hrun'
    have hsame := hrun.same.trans hrun'.same
    refine ⟨⟨recs2, ?_⟩, hsame.freeCount_eq.trans (freeCount_stampedFor lba), by rw [hsame.bitmap]⟩
    have hinv := (h.stampedFor lba).metaRun hrun htargets hsrc fun j hj => (hlba j hj).1
    have hinv' := hinv.metaRun hrun' (htrailerMem hex) (by simp) fun j hj => by
      unfold bitmapTrailer
      omega
    rw [Kernel.metaWrites, if_pos hex, ← append_assoc]
    simp only [Kernel.metaSector, hrun.same.bitmap] at hinv'
    exact hinv'
  · intro recs1 k1 hrun
    exact ((h.stampedFor lba).no_failure hrun htargets hfits fun j hj => (hlba j hj).2.2).elim
  · intro recs1 k1 recs2 k2 hrun hex hrun'
    have hinv := (h.stampedFor lba).metaRun hrun htargets hsrc fun j hj => (hlba j hj).1
    exact (hinv.no_failure hrun' (htrailerMem hex) hfits htrailerLt).elim

/-- The superblock is written inside the transaction. -/
theorem TxInv.yields_writeSuper (h : TxInv d total e targets done ws recs k)
    (htarget : hbfsSuperblockLba ∈ targets) (hfits : targets.dedup.length ≤ 15) :
    Yields (hbfsMetaWrite hbfsSuperblockLba .superBuf 1) (fun _ k' =>
      (∃ recs', TxInv d total e targets (done ++ [freeCount k.superBuf]) ws recs' k') ∧
        freeCount k'.superBuf = freeCount k.superBuf ∧ k'.bitmapBuf = k.bitmapBuf) k := by
  have hb := layout_eq
  have hbounds := h.healthy.bounds
  have hsize := h.size
  have hnot : ¬ InBitmap hbfsSuperblockLba := by decide
  have hextra : k.extraFor hbfsSuperblockLba 1 = false := by simp [Kernel.extraFor, hnot]
  have hmem : ∀ j < 1, hbfsSuperblockLba + j ∈ targets := by
    intro j hj
    obtain rfl : j = 0 := by omega
    exact htarget
  refine h.inv.yields_metaWrite h.failed h.mounted h.writable .superBuf ?_ (by simp) ?_ ?_ ?_ ?_
  · intro j hj
    rw [inLog_iff]
    exact ⟨by omega, by omega, by simp⟩
  · intro recs1 k1 hrun _
    have hfree := freeCount_stampedFor (k := k) hbfsSuperblockLba
    refine ⟨⟨recs1, ?_⟩, hrun.same.freeCount_eq.trans hfree, ?_⟩
    · rw [← hfree]
      exact (h.stampedFor _).superRun hrun htarget
    · rw [hrun.same.bitmap]
      simp [Kernel.stampedFor, hnot]
  · intro _ _ _ _ _ hex
    simp [hextra] at hex
  · intro recs1 k1 hrun
    exact ((h.stampedFor _).no_failure hrun hmem hfits fun j hj => by omega).elim
  · intro _ _ _ _ _ hex
    simp [hextra] at hex

/-- What a step of the transaction does to the resident state and to the disk. -/
theorem TxInv.yields_step (h : TxInv d total e targets done ws recs k) {step : TxStep}
    (h32 : total ≤ 2 ^ 32) (hon : step.OnMetadata total)
    (htargets : ∀ a ∈ step.targets k.isV4, a ∈ targets) (hfits : targets.dedup.length ≤ 15) :
    Yields step.run (fun _ k' =>
      (∃ recs', TxInv d total e targets (done ++ step.counts (freeCount k.superBuf))
        (ws ++ step.sectors k.isV4 k.bitmapBuf) recs' k') ∧
        freeCount k'.superBuf = step.nextFree (freeCount k.superBuf) ∧
        k'.bitmapBuf = step.nextBitmap k.isV4 k.bitmapBuf) k := by
  have hb := layout_eq
  have hbounds := h.healthy.bounds
  have hsize := h.size
  cases step with
  | setFree v =>
    refine ⟨⟨recs, ?_⟩, Sector.dword_setDword _ (by decide) _, rfl⟩
    simp only [TxStep.counts, TxStep.sectors, append_nil]
    exact h.setFree v
  | setBitmap buf =>
    refine ⟨⟨recs, ?_⟩, rfl, rfl⟩
    simp only [TxStep.counts, TxStep.sectors, append_nil]
    exact h.congr h.inv.journalled rfl rfl rfl rfl h.resident h.residentSame
  | writeSuper =>
    simp only [TxStep.counts, TxStep.sectors, append_nil]
    exact h.yields_writeSuper (htargets _ (by simp [TxStep.targets])) hfits
  | writeBitmap sect cnt =>
    obtain ⟨hsect, hcnt⟩ := hon
    simp only [TxStep.targets, mem_append, mem_map, mem_range] at htargets
    have hin : InBitmap (hbfsBitmapStart + sect) := by
      unfold InBitmap
      omega
    have hstamped : (k.stampedFor (hbfsBitmapStart + sect)).bitmapBuf =
      stampedBitmap k.isV4 k.bitmapBuf := by
      simp [Kernel.stampedFor, stampedBitmap, hin]
    have hextra : k.extraFor (hbfsBitmapStart + sect) cnt = true ↔ k.isV4 = true ∧
      sect + cnt < hbfsBitmapSects := by
      simp only [Kernel.extraFor, hin, Bool.and_eq_true, decide_eq_true_eq, and_true, decide_true]
      rw [add_assoc, add_lt_add_iff_left]
    have hwrites : k.metaWrites (hbfsBitmapStart + sect) (.bitmapBuf sect) cnt =
        (TxStep.writeBitmap sect cnt).sectors k.isV4 k.bitmapBuf := by
      simp only [Kernel.metaWrites, Kernel.metaSector, TxStep.sectors, hstamped, hextra]
      rfl
    rw [TxStep.run, yields_discard]
    have hsrc : MetaSrc.bitmapBuf sect ≠ .superBuf := by simp
    refine (h.yields_write hsrc h32 (fun j hj => ?_)
      (fun j hj => htargets _ (.inl ⟨j, hj, rfl⟩)) (fun hex => ?_) hfits).mono
      fun _ k' hk' => ?_
    · rw [inLog_iff]
      omega
    · refine htargets _ (.inr ?_)
      rw [if_pos (hextra.mp hex)]
      exact mem_singleton_self _
    · rw [hwrites, hstamped] at hk'
      simp only [TxStep.counts, append_nil]
      exact hk'
  | writeDir lba cnt buf =>
  simp only [TxStep.targets, mem_map, mem_range] at htargets
  obtain ⟨hroot, hon⟩ := hon
  have hnot : ¬ InBitmap lba := by
    unfold InBitmap
    omega
  have hextra : k.extraFor lba cnt = false := by simp [Kernel.extraFor, hnot]
  have hstamped : (k.stampedFor lba).bitmapBuf = k.bitmapBuf := by simp [Kernel.stampedFor, hnot]
  have hwrites : k.metaWrites lba (.memory buf) cnt = (TxStep.writeDir lba cnt buf).sectors k.isV4
    k.bitmapBuf := by
    rw [Kernel.metaWrites, if_neg (by simp [hextra]), append_nil]
    rfl
  rw [TxStep.run, yields_discard]
  have hsrc : MetaSrc.memory buf ≠ .superBuf := by simp
  refine (h.yields_write hsrc h32 (fun j hj => ?_)
    (fun j hj => htargets _ ⟨j, hj, rfl⟩) (fun hex => by simp [hextra] at hex) hfits).mono
    fun _ k' hk' => ?_
  · exact ⟨by omega, hon j hj⟩
  · rw [hwrites, hstamped] at hk'
    simp only [TxStep.counts, append_nil]
    exact hk'

/-- All steps of a transaction. -/
theorem TxInv.yields_steps (steps : List TxStep) (h : TxInv d total e targets done ws recs k)
    (h32 : total ≤ 2 ^ 32) (hon : ∀ step ∈ steps, step.OnMetadata total)
    (htargets : ∀ a ∈ txTargets k.isV4 steps, a ∈ targets) (hfits : targets.dedup.length ≤ 15) :
    Yields (steps.forM TxStep.run) (fun _ k' =>
      (∃ recs', TxInv d total e targets (done ++ writtenCounts (freeCount k.superBuf) steps)
        (ws ++ writtenSectors k.isV4 k.bitmapBuf steps) recs' k') ∧
        freeCount k'.superBuf = finalCount (freeCount k.superBuf) steps) k := by
  induction steps generalizing done ws recs k with
  | nil =>
    refine yields_pure.mpr ⟨⟨recs, ?_⟩, rfl⟩
    simp only [writtenCounts, writtenSectors, append_nil]
    exact h
  | cons step steps ih =>
  simp only [txTargets, flatMap_cons, mem_append] at htargets
  refine yields_bind.mpr ?_
  refine (h.yields_step h32 (hon step (mem_cons_self ..)) (fun a ha => htargets a (.inl ha))
    hfits).mono fun _ k1 hk1 => ?_
  obtain ⟨⟨recs1, h1⟩, hfree, hbitmap⟩ := hk1
  have hv4 : k1.isV4 = k.isV4 := h1.isV4.trans h.isV4.symm
  refine (ih h1 (fun s hs => hon s (mem_cons_of_mem _ hs)) fun a ha => ?_).mono
    fun _ k' hk' => ?_
  · rw [hv4] at ha
    exact htargets a (.inr ha)
  · rw [hfree, hbitmap, hv4, append_assoc, append_assoc] at hk'
    exact hk'

/-! ## Begin and commit -/

theorem SameVolume.refl (d : Disk) : SameVolume d d := fun lba _ => SameMeta.refl lba (d lba)

theorem CleanVolume.mountsTo (h : CleanVolume k) :
    MountsTo k.ataTotalSectors k.disk k.disk (freeCount (k.disk hbfsSuperblockLba)) := by
  unfold MountsTo
  rw [withFree_freeCount, mountedDisk_clean h.healthy.bounds]
  · exact SameVolume.refl _
  · rw [← h.superBuf, h.state]
    decide

/-- The state `hbfs_journal_begin` leaves on a clean volume. -/
structure Begins (k : Kernel) (e : Nat) (k' : Kernel) : Prop where
  disk : k'.disk = begun k.disk e
  superBuf : k'.superBuf = begun k.disk e hbfsSuperblockLba
  trace : k'.trace = [(hbfsSuperblockLba, begun k.disk e hbfsSuperblockLba)]
  faults : k'.faults = k.faults
  total : k'.ataTotalSectors = k.ataTotalSectors
  mounted : k'.mounted = k.mounted
  readOnly : k'.readOnly = k.readOnly
  bitmapBuf : k'.bitmapBuf = k.bitmapBuf
  epoch : k'.journalEpoch = e
  dirty : k'.journalDirty = true
  depth : k'.journalDepth = 1
  failed : k'.journalFailed = false
  ptr : k'.journalPtr = 0
  logged : k'.journalLogged = []

/-- A transaction begins on a clean volume. -/
theorem CleanVolume.yields_begin (h : CleanVolume k) :
    Yields hbfsJournalBegin (fun _ k' => Begins k ((k.journalEpoch + 1) % 2 ^ 32) k') k := by
  have hbegun : restampSuperblock ((k.superBuf.setDword hbfsSbJrnlEpoch
      ((k.journalEpoch + 1) % 2 ^ 32)).setDword hbfsSbJrnlState 1) =
      begun k.disk ((k.journalEpoch + 1) % 2 ^ 32) hbfsSuperblockLba := by
    rw [begun, update_self, h.superBuf]
  have hdisk : update k.disk hbfsSuperblockLba
      (begun k.disk ((k.journalEpoch + 1) % 2 ^ 32) hbfsSuperblockLba) =
      begun k.disk ((k.journalEpoch + 1) % 2 ^ 32) := by
    rw [begun, update_self]
  simp only [hbfsJournalBegin, hbfsRequireWritable, yields_rules]
  rw [if_neg (by simp [h.mounted, h.writable]), if_neg (by simp [h.journalled]),
    if_neg (by simp [h.depth])]
  refine yields_hbfsWriteSuperblock { h.healthy with } ?_
  simp only [hbegun]
  refine ⟨hdisk, rfl, ?_, rfl, rfl, rfl, rfl, rfl, rfl, rfl, ?_, rfl, rfl, rfl⟩
  · simp [h.trace]
  · simp [Kernel.put, h.depth]

theorem CleanVolume.logInv (h : CleanVolume k)
    (hbegin : Begins k ((k.journalEpoch + 1) % 2 ^ 32) k') :
    LogInv (begun k.disk ((k.journalEpoch + 1) % 2 ^ 32)) ∅ [] k' := by
  refine ⟨?_, hbegin.dirty, ?_, hbegin.ptr, hbegin.logged, ⟨by simp, by simp, by simp⟩, by simp,
    by simp, by simp, fun lba _ _ _ => by rw [hbegin.disk]⟩
  · have hj := h.journalled
    unfold Kernel.journalled at hj ⊢
    rwa [hbegin.superBuf, begun_superblock_same.dword (by decide), ← h.superBuf]
  · rw [hbegin.epoch]
    exact mod_lt _ (by norm_num)

theorem CleanVolume.fresh_begun (h : CleanVolume k)
    (hbegin : Begins k ((k.journalEpoch + 1) % 2 ^ 32) k') : Fresh [] k' := by
  have hb := layout_eq
  intro i _ hi
  have hin : InLog (hbfsJournalLba + 2 * i) := by
    rw [inLog_iff]
    omega
  rw [hbegin.disk, hbegin.epoch, begun, update_of_ne (by omega)]
  exact h.fresh _ hin

/-- The invariant holds at the start. -/
theorem CleanVolume.txInv (h : CleanVolume k)
    (hbegin : Begins k ((k.journalEpoch + 1) % 2 ^ 32) k') :
    TxInv k.disk k.ataTotalSectors ((k.journalEpoch + 1) % 2 ^ 32) targets [] [] [] k' := by
  set e := (k.journalEpoch + 1) % 2 ^ 32
  have hlt : e < 2 ^ 32 := mod_lt _ (by norm_num)
  have hmarked : Marked (begun k.disk e hbfsSuperblockLba) e := begun_superblock_marked hlt
  have hsame : SameOutsideJournal (begun k.disk e hbfsSuperblockLba)
      (superWith k.disk (freeCount (k.disk hbfsSuperblockLba))) := by
    rw [superWith_freeCount]
    exact begun_superblock_same
  have hfree : freeCount (begun k.disk e hbfsSuperblockLba) =
      freeCount (k.disk hbfsSuperblockLba) := begun_superblock_same.dword (by decide)
  have hopen : OpenSuper k.disk e [freeCount (k.disk hbfsSuperblockLba)]
    (k'.disk hbfsSuperblockLba) := by
    rw [hbegin.disk]
    exact ⟨hmarked, _, mem_singleton_self _, hsame⟩
  refine ⟨h.logInv hbegin, h.fresh_begun hbegin, hbegin.failed, ⟨?_, ?_⟩, hbegin.total,
    hbegin.epoch,
    hbegin.mounted.trans h.mounted, hbegin.readOnly.trans h.writable, hbegin.depth, by simp, ?_, ?_,
    hopen, ?_, ⟨?_, ?_⟩, by simp⟩
  · rw [hbegin.faults]
    exact h.healthy.faults
  · rw [hbegin.total]
    exact h.healthy.bounds
  · rw [hbegin.superBuf]
    exact hmarked
  · rw [hbegin.superBuf, hfree]
    exact hsame
  · intro lba _ hne
    rw [hbegin.disk, begun, update_of_ne hne, afterWrites_nil]
  · rw [hbegin.disk, hbegin.trace, afterWrites_cons, afterWrites_nil, begun, update_self]
  · rw [hbegin.trace, throughout_cons, throughout_nil]
    refine ⟨⟨_, mem_singleton_self _, h.mountsTo⟩, ?_⟩
    have hroll := rollsBack_of_within (h.logInv hbegin) (h.fresh_begun hbegin) hbegin.epoch
      hbegin.total h.healthy.bounds ⟨k'.disk, hopen, fun _ _ => rfl⟩
    rw [hbegin.disk] at hroll
    simpa [begun] using hroll

/-- The state `hbfs_journal_commit` leaves: every cut but the last rolls back. -/
structure Commits (d : Disk) (total : Nat) (counts : List Nat) (ws : List (Nat × Sector))
    (k k' : Kernel) : Prop where
  disk : k'.disk = afterWrites d k'.trace
  grow : k.trace <+: k'.trace
  cuts : ∀ n < k'.trace.length, RollsBack total d counts (afterWrites d (k'.trace.take n))
  superblock : k'.disk hbfsSuperblockLba = clearState k.superBuf
  landed : ∀ lba, ¬ InLog lba → lba ≠ hbfsSuperblockLba → k'.disk lba = afterWrites d ws lba

/-- With the commit marker written, a mount still passes all records before it stops. -/
theorem TxInv.traced_marker (h : TxInv d total e targets done ws recs k) {marker : Sector}
    (htype : marker.dword recType = hbfsJrnlTCommit) :
    Traced d (RollsBack total d (freeCount (d hbfsSuperblockLba) :: done))
      (k.put (hbfsJournalLba + k.journalPtr) marker) := by
  have hb := layout_eq
  have hptr := h.inv.ptr
  refine h.cuts.put ?_
  have hinv := h.inv.update_past le_rfl h.inv.inLog_header marker k.faults
  obtain ⟨hmark, c, hc, hsame⟩ := h.onDisk
  have hsb : update k.disk (hbfsJournalLba + k.journalPtr) marker hbfsSuperblockLba =
      k.disk hbfsSuperblockLba := update_of_ne (by omega) _ _
  refine ⟨c, hc, ?_⟩
  rw [← h.size]
  refine hinv.mountsTo (.inr ?_) h.healthy.bounds ?_ ?_
  · rw [logEnd, Kernel.put_disk, ← hptr, update_self]
    exact htype
  · rw [Kernel.put_disk, hsb]
    exact h.epoch ▸ hmark
  · rw [Kernel.put_disk, hsb]
    exact hsame

/-- `hbfs_journal_commit`: only the last write of the superblock keeps a mount from rolling back. -/
theorem TxInv.yields_commit (h : TxInv d total e targets done ws recs k) :
    Yields hbfsJournalCommit (fun _ k' =>
      Commits d total (freeCount (d hbfsSuperblockLba) :: done) ws k k') k := by
  have hb := layout_eq
  have hptr := h.inv.ptr
  have hfits := h.inv.log.fits
  have hbounds := h.healthy.bounds
  have htr := h.traced_marker (commitMarker_type k.jrnlBuf k.journalEpoch)
  simp only [hbfsJournalCommit, writeCommitMarker, yields_rules]
  rw [if_neg (by simp [h.inv.journalled]), if_neg (by simp [h.inv.dirty]),
    if_neg (by simp [h.depth]), if_neg (by simp [h.failed]), if_pos (by omega)]
  refine (yields_ataWriteSector_of_nil ?_ ?_).mpr ?_
  · exact h.healthy.faults
  · show hbfsJournalLba + k.journalPtr < k.ataTotalSectors
    omega
  refine yields_hbfsWriteSuperblock ⟨h.healthy.faults, hbounds⟩ ?_
  simp only [Kernel.put]
  refine ⟨?_, ?_, ?_, ?_, ?_⟩
  · rw [afterWrites_append]
    have hdisk := htr.disk
    rw [Kernel.put_disk, Kernel.put_trace] at hdisk
    rw [← hdisk]
    rfl
  · exact ⟨_, (append_assoc ..).symm⟩
  · intro n hn
    rw [length_append, length_singleton] at hn
    rw [take_append_of_le_length (by omega)]
    exact htr.cuts n
  · simp only [update_self, clearState]
  · intro lba hlba hne
    refine (update_of_ne hne _ _).trans ?_
    exact (outsideEq_update h.inv.inLog_header _ _ lba hlba).trans (h.landed lba hlba hne)

/-! ## Whole transactions -/

/-- What a transaction and its cuts leave on the disk. -/
structure TxRun (k : Kernel) (steps : List TxStep) (k' : Kernel) : Prop where
  cuts : ∀ n < k'.trace.length, RollsBack k.ataTotalSectors k.disk
    (freeCount k.superBuf :: writtenCounts (freeCount k.superBuf) steps)
    (afterWrites k.disk (k'.trace.take n))
  whole : ∀ n ≥ k'.trace.length, mountedDisk k.ataTotalSectors
    (afterWrites k.disk (k'.trace.take n)) = k'.disk
  seen : ∀ c ∈ writtenCounts (freeCount k.superBuf) steps, ∃ n,
    MountsTo k.ataTotalSectors k.disk (afterWrites k.disk (k'.trace.take n)) c
  superblock : SameOutsideJournal (k'.disk hbfsSuperblockLba)
    (superWith k.disk (finalCount (freeCount k.superBuf) steps))
  landed : ∀ lba, ¬ InLog lba → lba ≠ hbfsSuperblockLba →
    k'.disk lba = afterWrites k.disk (writtenSectors k.isV4 k.bitmapBuf steps) lba

/-- The whole transaction on a clean volume. -/
theorem CleanVolume.yields_transaction (h : CleanVolume k)
    (hon : ∀ step ∈ steps, step.OnMetadata k.ataTotalSectors)
    (hfits : (txTargets k.isV4 steps).dedup.length ≤ 15) : Yields (runTransaction steps)
    (fun _ k' => TxRun k steps k') k := by
  simp only [runTransaction, yields_bind]
  refine h.yields_begin.mono fun _ k1 hbegin => ?_
  have h1 : TxInv k.disk k.ataTotalSectors ((k.journalEpoch + 1) % 2 ^ 32) (txTargets k.isV4 steps)
      [] [] [] k1 := h.txInv hbegin
  have hv4 : k1.isV4 = k.isV4 := by
    rw [h1.isV4, Kernel.isV4, h.superBuf]
  have hfree : freeCount k1.superBuf = freeCount k.superBuf := by
    rw [hbegin.superBuf, h.superBuf]
    exact begun_superblock_same.dword (by decide)
  refine (h1.yields_steps steps h.total32 hon (by rw [hv4]; exact fun _ ha => ha) hfits).mono
    fun _ k2 hk2 => ?_
  rw [hfree, hv4, hbegin.bitmapBuf, nil_append, nil_append] at hk2
  obtain ⟨⟨recs, h2⟩, hfinal⟩ := hk2
  refine h2.yields_commit.mono fun _ k' hc => ?_
  refine ⟨?_, ?_, ?_, ?_, hc.landed⟩
  · rw [h.superBuf]
    rw [h.superBuf] at hc
    exact hc.cuts
  · intro n hn
    rw [take_of_length_le hn, ← hc.disk, mountedDisk_clean h.healthy.bounds]
    rw [hc.superblock, clearState_state]
    decide
  · intro c hcount
    obtain ⟨n, -, hmount⟩ := h2.seen_mono hc.grow c hcount
    exact ⟨n, hmount⟩
  · rw [hc.superblock, ← hfinal]
    exact (sameOutsideJournal_clearState _).trans h2.residentSame

/-- All the sectors are as before, or all are as after. -/
def AllOrNothing (targets : List Nat) (pre post m : Disk) : Prop :=
  (∀ t ∈ targets, SameMeta t (m t) (pre t)) ∨ ∀ t ∈ targets, SameMeta t (m t) (post t)

/-- However the writes of the transaction are cut, a mount recovers the old contents of all its
sectors and of the superblock, or the new contents of all of them. -/
def CrashAtomic (k : Kernel) (steps : List TxStep) : Prop :=
  let k' := ((runTransaction steps).run k).2
  ∀ n, AllOrNothing (hbfsSuperblockLba :: txTargets k.isV4 steps) k.disk k'.disk
    (mountedDisk k.ataTotalSectors (afterWrites k.disk (k'.trace.take n)))

/-- Every free count the transaction writes to the superblock is the old one; or it is the one the
transaction ends with, and no other sector changes. -/
def KeepsCount (k : Kernel) (steps : List TxStep) : Prop :=
  ∀ c ∈ writtenCounts (freeCount k.superBuf) steps, c = freeCount k.superBuf ∨
    (c = finalCount (freeCount k.superBuf) steps ∧
      ∀ t ∈ txTargets k.isV4 steps, t ≠ hbfsSuperblockLba →
        afterWrites k.disk (writtenSectors k.isV4 k.bitmapBuf steps) t = k.disk t)

theorem TxStep.nextFree_lt (step : TxStep) (h : free < 2 ^ 32) : step.nextFree free < 2 ^ 32 := by
  cases step with
  | setFree v => exact mod_lt _ (by norm_num)
  | _ => exact h

theorem finalCount_lt (steps : List TxStep) (h : free < 2 ^ 32) :
    finalCount free steps < 2 ^ 32 := by
  induction steps generalizing free with
  | nil => exact h
  | cons step steps ih => exact ih (step.nextFree_lt h)

theorem writtenCounts_lt (steps : List TxStep) (h : free < 2 ^ 32) :
    ∀ c ∈ writtenCounts free steps, c < 2 ^ 32 := by
  induction steps generalizing free with
  | nil => simp [writtenCounts]
  | cons step steps ih =>
  intro c hc
  rcases mem_append.mp hc with hc | hc
  · cases step with
    | writeSuper => rwa [mem_singleton.mp hc]
    | _ => simp [TxStep.counts] at hc
  · exact ih (step.nextFree_lt h) c hc

theorem not_inLog_of_mem_txTargets {v4 : Bool}
    (hon : ∀ step ∈ steps, step.OnMetadata total) : ∀ t ∈ txTargets v4 steps, ¬ InLog t := by
  have hb := layout_eq
  intro t ht
  obtain ⟨step, hstep, ht⟩ := mem_flatMap.mp ht
  have hs := hon step hstep
  cases step with
  | setFree v => simp [TxStep.targets] at ht
  | setBitmap buf => simp [TxStep.targets] at ht
  | writeSuper =>
    rw [mem_singleton.mp ht]
    exact superblock_not_inLog
  | writeBitmap sect cnt =>
    obtain ⟨hsect, hcnt⟩ := hs
    rw [inLog_iff]
    rcases mem_append.mp ht with ht | ht
    · grind
    · grind
  | writeDir lba cnt buf =>
    obtain ⟨j, hj, rfl⟩ := mem_map.mp ht
    exact (hs.2 j (mem_range.mp hj)).1

/-- A cut that brings the count `c` back is atomic only for the old count, or when the new count is
all that changes. -/
theorem TxRun.allOrNothing_iff (h : CleanVolume k)
    (hrun : TxRun k steps k') (hout : ∀ t ∈ txTargets k.isV4 steps, ¬ InLog t) {c : Nat}
    (hc : c < 2 ^ 32) {m : Disk} (hm : SameVolume m (withFree k.disk c)) :
    AllOrNothing (hbfsSuperblockLba :: txTargets k.isV4 steps) k.disk k'.disk m ↔
      c = freeCount k.superBuf ∨ (c = finalCount (freeCount k.superBuf) steps ∧
        ∀ t ∈ txTargets k.isV4 steps, t ≠ hbfsSuperblockLba →
          afterWrites k.disk (writtenSectors k.isV4 k.bitmapBuf steps) t = k.disk t) := by
  have hpre : freeCount k.superBuf < 2 ^ 32 := Sector.dword_lt _ _
  have hsb := (hm _ superblock_not_inLog).symm
  rw [withFree, update_self] at hsb
  have hout' : ∀ t ∈ hbfsSuperblockLba :: txTargets k.isV4 steps, ¬ InLog t :=
    forall_mem_cons.mpr ⟨superblock_not_inLog, hout⟩
  constructor
  · rintro (hat | hat)
    · left
      have hat := hsb.trans (hat _ (mem_cons_self ..))
      rw [sameMeta_superblock, ← superWith_freeCount (d := k.disk), sameOutsideJournal_superWith,
        mod_eq_of_lt hc, ← h.superBuf, mod_eq_of_lt hpre] at hat
      exact hat
    right
    have hsuper := hsb.trans (hat _ (mem_cons_self ..))
    rw [sameMeta_superblock] at hsuper
    have hcount := hsuper.trans hrun.superblock
    rw [sameOutsideJournal_superWith, mod_eq_of_lt hc,
      mod_eq_of_lt (finalCount_lt steps hpre)] at hcount
    refine ⟨hcount, fun t ht hne => ?_⟩
    have hpost := hat t (mem_cons_of_mem _ ht)
    have hold := hm t (hout t ht)
    rw [sameMeta_of_ne hne] at hpost hold
    rw [← hrun.landed t (hout t ht) hne, ← hpost, hold, withFree, update_of_ne hne]
  · rintro (rfl | ⟨rfl, hsame⟩)
    · left
      intro t ht
      have hold := hm t (hout' t ht)
      rwa [h.superBuf, withFree_freeCount] at hold
    right
    intro t ht
    refine (hm t (hout' t ht)).trans ?_
    by_cases hne : t = hbfsSuperblockLba
    · subst hne
      rw [withFree, update_self, sameMeta_superblock]
      exact hrun.superblock.symm
    · have ht := (mem_cons.mp ht).resolve_left hne
      rw [withFree, update_of_ne hne, sameMeta_of_ne hne, hrun.landed t (hout t ht) hne,
        hsame t ht hne]

/-- Some cut brings each written count back, so an atomic transaction keeps the count. -/
theorem CleanVolume.keepsCount_of_crashAtomic (h : CleanVolume k)
    (hon : ∀ step ∈ steps, step.OnMetadata k.ataTotalSectors)
    (hfits : (txTargets k.isV4 steps).dedup.length ≤ 15)
    (hatomic : CrashAtomic k steps) : KeepsCount k steps := by
  have hrun : TxRun k steps ((runTransaction steps).run k).2 := h.yields_transaction hon hfits
  intro c hc
  obtain ⟨n, hmount⟩ := hrun.seen c hc
  exact (hrun.allOrNothing_iff h (not_inLog_of_mem_txTargets hon)
    (writtenCounts_lt steps (Sector.dword_lt _ _) c hc) hmount).mp (hatomic n)

/-- A kernel transaction is crash-atomic exactly when no superblock it writes carries a changed free
count, unless that count is all it changes. -/
theorem crashAtomic_iff (h : CleanVolume k)
    (hon : ∀ step ∈ steps, step.OnMetadata k.ataTotalSectors)
    (hfits : (txTargets k.isV4 steps).dedup.length ≤ 15) :
    CrashAtomic k steps ↔ KeepsCount k steps := by
  refine ⟨h.keepsCount_of_crashAtomic hon hfits, fun hkeeps n => ?_⟩
  have hrun : TxRun k steps ((runTransaction steps).run k).2 := h.yields_transaction hon hfits
  rcases lt_or_ge n ((runTransaction steps).run k).2.trace.length with hn | hn
  · obtain ⟨c, hc, hmount⟩ := hrun.cuts n hn
    have hlt : c < 2 ^ 32 := by
      rcases mem_cons.mp hc with rfl | hc
      · exact Sector.dword_lt _ _
      · exact writtenCounts_lt steps (Sector.dword_lt _ _) c hc
    refine (hrun.allOrNothing_iff h (not_inLog_of_mem_txTargets hon) hlt hmount).mpr ?_
    exact (mem_cons.mp hc).elim .inl (hkeeps c)
  · right
    intro t _
    rw [hrun.whole n hn]
    exact SameMeta.refl _ _

/-! ## Taking a block -/

/-- What `hbfs_alloc_blocks` does to take block 0. -/
def takeBlock : List TxStep :=
  [.setBitmap fun i => if i = 0 then 1 else 0, .writeBitmap 0 1, .setFree 999, .writeSuper]

theorem smallVolume_clean : CleanVolume smallVolume where
  healthy := ⟨rfl, by decide⟩
  total32 := by decide
  mounted := rfl
  writable := rfl
  journalled := by decide
  depth := rfl
  superBuf := by simp [smallVolume]
  state := by decide
  epoch := by decide
  fresh := by
    intro lba hlba
    have hne : lba ≠ hbfsSuperblockLba := fun heq => superblock_not_inLog (heq ▸ hlba)
    simp only [smallVolume, update_of_ne hne]
    decide
  trace := rfl

theorem takeBlock_onMetadata : ∀ step ∈ takeBlock, step.OnMetadata smallVolume.ataTotalSectors := by
  simp [takeBlock, TxStep.OnMetadata, hbfsBitmapSects]

theorem takeBlock_fits : (txTargets smallVolume.isV4 takeBlock).dedup.length ≤ 15 := by decide

/-- Taking a block is not crash-atomic: a cut after the superblock write gives the block back and
keeps the count. -/
theorem takeBlock_not_crashAtomic :
    CleanVolume smallVolume ∧ (∀ step ∈ takeBlock, step.OnMetadata smallVolume.ataTotalSectors) ∧
      (txTargets smallVolume.isV4 takeBlock).dedup.length ≤ 15 ∧
      ¬ CrashAtomic smallVolume takeBlock := by
  refine ⟨smallVolume_clean, takeBlock_onMetadata, takeBlock_fits, fun hatomic => ?_⟩
  have hkeeps := smallVolume_clean.keepsCount_of_crashAtomic takeBlock_onMetadata takeBlock_fits
    hatomic
  rcases hkeeps 999 (by decide) with hpre | ⟨-, hsame⟩
  · exact absurd hpre (by decide)
  · have hbyte :=
      congrArg (fun s => Sector.byteAt s 0) (hsame hbfsBitmapStart (by decide) (by decide))
    revert hbyte
    decide

/-- A transaction that takes one block. -/
theorem crashAtomic_iff_takeBlock :
    CrashAtomic smallVolume takeBlock ↔ KeepsCount smallVolume takeBlock :=
  crashAtomic_iff smallVolume_clean takeBlock_onMetadata takeBlock_fits

end Mellivora
