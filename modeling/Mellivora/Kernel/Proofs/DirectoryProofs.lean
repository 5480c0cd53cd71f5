import Mellivora.Kernel.Proofs.AbortProofs
import Mellivora.Kernel.Proofs.EffectProofs

/-!
# Loading and saving a directory

What `hbfs_load_root_dir` leaves in the directory buffer, and which sectors `hbfs_save_root_dir`
writes.
-/

namespace Mellivora

open WriteLog Outcome

variable {k : Kernel}

/-! ## Loading -/

theorem load_sectorsAt (buf : Buffer) (d : Disk) {lba cnt i : Nat} (hi : i < 512 * cnt) :
    buf.load (sectorsAt d lba cnt) i = Buffer.ofDisk d lba i := by
  have hdiv : i / 512 < cnt := by omega
  simp [Buffer.load, sectorsAt, Buffer.ofDisk, hdiv]

/-- What a load does on a device that works. -/
structure Loaded (k : Kernel) (cf : Bool) (k' : Kernel) : Prop where
  /-- Only the directory buffer, its shadow and their tag change. -/
  frame : k' = { k with
    dirBuf := k'.dirBuf, dirShadow := k'.dirShadow, dirCacheLba := k'.dirCacheLba,
    dirCacheSects := k'.dirCacheSects }
  /-- The directory is in the buffer, read from the disk or still there. -/
  held : cf = false →
    (k'.dirBuf = k.dirBuf ∧ k.currentDirLba = k.dirCacheLba ∧ k.currentDirSects = k.dirCacheSects) ∨
    ∀ i < 512 * k.currentDirSects, k'.dirBuf i = Buffer.ofDisk k.disk k.currentDirLba i
  empty : cf = true → k.mounted = false ∨ ∀ i < hbfsRootDirSize, k'.dirBuf i = 0

theorem clear_apply (buf : Buffer) {i : Nat} (hi : i < hbfsRootDirSize) :
    buf.clear 0 hbfsRootDirSize i = 0 := by
  rw [Buffer.clear, if_pos (by omega)]

/-- Loading a directory changes only its buffer. -/
theorem yields_hbfsLoadRootDir (hf : k.faults = []) :
    Yields hbfsLoadRootDir (fun cf k' => Loaded k cf k') k := by
  simp only [hbfsLoadRootDir, yields_rules]
  split
  · next hm => exact ⟨rfl, by simp, fun _ => .inl (by simpa using hm)⟩
  split
  · next hc => exact ⟨rfl, fun _ => .inl ⟨rfl, hc.1, hc.2⟩, by simp⟩
  refine yields_ataReadSectors_of_nil
    (k := { k with dirBuf := k.dirBuf.clear 0 hbfsRootDirSize }) hf
    (fun _ => ?_) fun _ => ?_
  · simp only [if_true]
    exact ⟨rfl, by simp, fun _ => .inr fun i hi => clear_apply k.dirBuf hi⟩
  · simp only [Bool.false_eq_true, if_false]
    split
    · exact ⟨rfl, by simp, fun _ => .inr fun i hi => clear_apply _ hi⟩
    · exact ⟨rfl, fun _ => .inr fun i hi => load_sectorsAt _ _ hi, by simp⟩

/-! ## Saving -/

section Save

variable {b : Disk} {buf : Buffer} {lba sects : Nat}

/-- The kernel while the sectors of `buf` are written to the directory at `lba`, in a transaction
that began on the disk `b`. -/
structure Saving (b : Disk) (buf : Buffer) (lba sects : Nat) (k : Kernel) : Prop where
  healthy : k.Healthy
  dirBuf : k.dirBuf = buf
  log : k.journalled = true → ∃ recs, LogInv b ∅ recs k
  disk : ∀ a, ¬ InLog a → k.disk a = b a ∨ ∃ j < sects, a = lba + j ∧ k.disk a = buf.sector j

theorem SameButLog.journalled {k' : Kernel} (h : SameButLog k k') : k'.journalled = k.journalled :=
  h.outsideTx.geometry.journalled

/-- A sector is logged before it is written. -/
theorem Saving.yields_log (h : Saving b buf lba sects k)
    (hfailed : k.journalled = true → k.journalFailed = false) {t : Nat} (ht : ¬ InLog t)
    (ht32 : t < 2 ^ 32) :
    Yields (hbfsJournalLogSector t) (fun cf k' => Saving b buf lba sects k' ∧ SameButLog k k' ∧
      (cf = false → k'.journalled = true → k'.journalFailed = false ∧
        ∃ recs, LogInv b ∅ recs k' ∧ t ∈ recs.map Prod.fst)) k := by
  by_cases hj : k.journalled = true
  · obtain ⟨recs, hlog⟩ := h.log hj
    refine (hlog.yields_log (hfailed hj) ht ht32 (by simp)).mono fun cf k' hstep => ?_
    obtain ⟨recs', hstep⟩ := hstep
    obtain ⟨hfaults, -⟩ := hstep.works h.healthy.faults
    refine ⟨⟨⟨hfaults, ?_⟩, ?_, fun _ => ⟨recs', hstep.inv⟩, fun a ha => ?_⟩, hstep.same,
      fun hcf _ => ⟨hcf ▸ hstep.failed, recs', hstep.inv, hstep.logged hcf⟩⟩
    · rw [hstep.same.total]
      exact h.healthy.bounds
    · rw [hstep.same.dir]
      exact h.dirBuf
    · rw [hstep.outside a ha]
      exact h.disk a ha
  · simp only [hbfsJournalLogSector, yields_rules]
    rw [if_pos (by simpa using hj)]
    exact ⟨h, SameButLog.refl k, fun _ hj' => absurd hj' hj⟩

/-- One sector of the directory is saved. -/
theorem Saving.put (h : Saving b buf lba sects k) {j : Nat} (hj : j < sects)
    (ht : ¬ InLog (lba + j))
    (hlogged : k.journalled = true → ∃ recs, LogInv b ∅ recs k ∧ lba + j ∈ recs.map Prod.fst) :
    Saving b buf lba sects (k.put (lba + j) (buf.sector j)) := by
  refine ⟨{ h.healthy with }, h.dirBuf, fun hjour => ?_, fun a ha => ?_⟩
  · obtain ⟨recs, hlog, hmem⟩ := hlogged hjour
    exact ⟨recs, hlog.overwrite ht hmem _ k.faults⟩
  · by_cases heq : a = lba + j
    · subst heq
      exact .inr ⟨j, hj, rfl, Function.update_self ..⟩
    · rw [Kernel.put_disk, Function.update_of_ne heq]
      exact h.disk a ha

theorem Saving.shadow (h : Saving b buf lba sects k) (shadow : Buffer) :
    Saving b buf lba sects { k with dirShadow := shadow } := by
  refine ⟨{ h.healthy with }, h.dirBuf, fun hj => ?_, h.disk⟩
  obtain ⟨recs, hlog⟩ := h.log hj
  exact ⟨recs, hlog.congr hj rfl rfl⟩

/-- The loop saves every sector. -/
theorem Saving.yields_saveLoop (hplace : lba + sects ≤ 2 ^ 32)
    (happart : ∀ i < sects, ¬ InLog (lba + i)) :
    ∀ {cnt i : Nat} {k : Kernel}, i + cnt = sects → Saving b buf lba sects k →
      (k.journalled = true → k.journalFailed = false) →
      Yields (saveLoop lba cnt i) (fun cf k' => Saving b buf lba sects k' ∧
        k'.journalled = k.journalled ∧
        (cf = false → k'.journalled = true → k'.journalFailed = false)) k := by
  intro cnt
  induction cnt with
  | zero => exact fun _ h hfailed => ⟨h, rfl, fun _ => hfailed⟩
  | succ cnt ih =>
  intro i k hi h hfailed
  simp only [saveLoop, yields_rules]
  split
  · exact ih (by omega) h hfailed
  refine (h.yields_log hfailed (happart i (by omega)) (by omega)).mono fun cf k1 h1 => ?_
  obtain ⟨hsaving, hsame, hok⟩ := h1
  cases cf with
  | true => exact ⟨hsaving, hsame.journalled, by simp⟩
  | false =>
  rw [if_neg Bool.false_ne_true]
  have hnil := hsaving.healthy.faults
  refine yields_ataWriteSector (fun fs hfs _ => ?_) fun fs hfs => ?_
  · obtain rfl : fs = k1.faults := (hfs hnil).trans hnil.symm
    rw [if_neg Bool.false_ne_true, hsaving.dirBuf]
    have hput := hsaving.put (j := i) (by omega) (happart i (by omega)) fun hj => (hok rfl hj).2
    refine (ih (i := i + 1) (by omega) (hput.shadow _) fun hj => (hok rfl hj).1).mono
      fun cf k2 h2 => ?_
    exact ⟨h2.1, h2.2.1.trans hsame.journalled, h2.2.2⟩
  · obtain rfl : fs = k1.faults := (hfs hnil).1.trans hnil.symm
    rw [if_pos rfl]
    exact ⟨hsaving, hsame.journalled, by simp⟩

/-- Outside the journal and the superblock, `d'` is `d` with sectors of `buf` written to the
directory. -/
def DirWritten (buf : Buffer) (lba sects : Nat) (d d' : Disk) : Prop :=
  ∀ a, ¬ InLog a → a ≠ hbfsSuperblockLba → d' a = d a ∨ ∃ j < sects, a = lba + j ∧
    d' a = buf.sector j

/-- A failed save is rolled back. -/
theorem Saving.yields_abort (h : Saving b buf lba sects k) :
    Yields hbfsJournalAbort (fun _ k' => DirWritten buf lba sects b k'.disk) k := by
  by_cases hj : k.journalled = true
  · obtain ⟨recs, hlog⟩ := h.log hj
    exact (hlog.yields_abort h.healthy).mono fun _ k' hk' a ha hne => .inl (hk'.disk a ha hne)
  · simp only [hbfsJournalAbort, yields_rules]
    rw [if_pos (by simpa using hj)]
    exact fun a ha _ => h.disk a ha

theorem Saving.yields_commit (h : Saving b buf lba sects k)
    (hfailed : k.journalled = true → k.journalFailed = false) :
    Yields hbfsJournalCommit (fun _ k' => DirWritten buf lba sects b k'.disk) k := by
  refine (edge_commit k hfailed).mono fun _ k' hk' a ha hne => ?_
  rw [hk'.disk a ha hne]
  exact h.disk a ha

theorem healthy_begin (hk : k.Healthy) : Yields hbfsJournalBegin (fun _ k' => k'.Healthy) k := by
  simp only [hbfsJournalBegin, hbfsRequireWritable, yields_rules]
  split
  · exact hk
  split
  · exact hk
  split
  · exact { hk with }
  · exact yields_hbfsWriteSuperblock { hk with } { hk with }

/-- The loop's invariant holds when the transaction has begun. -/
theorem yields_begin_saving (hk : k.Healthy) (husable : Usable k) (hdepth : k.journalDepth = 0)
    (buf : Buffer) (lba sects : Nat) :
    Yields hbfsJournalBegin (fun _ k' => Saving k'.disk buf lba sects { k' with dirBuf := buf } ∧
      TxEdge k k' ∧ (k'.journalled = true → k'.journalFailed = false)) k := by
  have hedge := (healthy_begin hk).and (edge_begin k)
  by_cases hj : k.journalled = true
  · refine (hedge.and (logInv_begin husable.mounted husable.writable hj hdepth)).mono
      fun _ k' h => ?_
    obtain ⟨⟨hhealthy, hedge⟩, hlog, hfailed⟩ := h
    exact ⟨⟨{ hhealthy with }, rfl, fun hj => ⟨[], hlog.congr hj rfl rfl⟩,
      fun _ _ => .inl rfl⟩, hedge, fun _ => hfailed⟩
  · refine hedge.mono fun _ k' h => ?_
    obtain ⟨hhealthy, hedge⟩ := h
    have hj' : ¬ k'.journalled = true := by rwa [hedge.same.geometry.journalled]
    exact ⟨⟨{ hhealthy with }, rfl, fun h => absurd h hj', fun _ _ => .inl rfl⟩, hedge,
      fun h => absurd h hj'⟩

/-- The buffer as a save writes it. -/
def Kernel.stampedDir (k : Kernel) : Buffer :=
  if k.isV4 then k.dirBuf.stampRun (512 * k.currentDirSects) else k.dirBuf

/-- What a save does on a device that works, when no transaction is open. -/
theorem yields_hbfsSaveRootDir (hk : k.Healthy) (hdepth : k.journalDepth = 0)
    (hplace : k.currentDirLba + k.currentDirSects ≤ 2 ^ 32)
    (happart : ∀ i < k.currentDirSects, ¬ InLog (k.currentDirLba + i)) :
    Yields hbfsSaveRootDir (fun _ k' =>
      DirWritten k.stampedDir k.currentDirLba k.currentDirSects k.disk k'.disk) k := by
  simp only [hbfsSaveRootDir, hbfsRequireWritable, yields_rules]
  split
  · exact fun _ _ _ => .inl rfl
  next husable =>
  have husable : Usable k :=
    ⟨by simp at husable; exact husable.1, by simp at husable; exact husable.2⟩
  refine (yields_begin_saving hk husable hdepth k.stampedDir k.currentDirLba k.currentDirSects).mono
    fun _ k1 h1 => ?_
  obtain ⟨hsaving, hedge, hfailed⟩ := h1
  have hlba : k1.currentDirLba = k.currentDirLba := congrArg DirState.currentDirLba hedge.same.dir
  have hsects : k1.currentDirSects = k.currentDirSects :=
    congrArg DirState.currentDirSects hedge.same.dir
  have hbuf : k1.dirBuf = k.dirBuf := congrArg DirState.dirBuf hedge.same.dir
  have hstamped : k1.stampedDir = k.stampedDir := by
    unfold Kernel.stampedDir
    rw [hedge.same.geometry.isV4, hsects, hbuf]
  -- The disk the transaction began on differs from `k.disk` in the journal and the superblock only.
  have hback : ∀ {d : Disk}, DirWritten k.stampedDir k.currentDirLba k.currentDirSects k1.disk d →
      DirWritten k.stampedDir k.currentDirLba k.currentDirSects k.disk d := by
    intro d hd a ha hne
    rw [← hedge.disk a ha hne]
    exact hd a ha hne
  show Yields (saveLoop k1.currentDirLba k1.currentDirSects 0) _ { k1 with dirBuf := k1.stampedDir }
  rw [hstamped, show saveLoop k1.currentDirLba k1.currentDirSects 0 =
    saveLoop k.currentDirLba k.currentDirSects 0 by rw [hlba, hsects]]
  refine (Saving.yields_saveLoop hplace happart (Nat.zero_add _) hsaving hfailed).mono
    fun cf k2 h2 => ?_
  obtain ⟨hsaving, -, hok⟩ := h2
  cases cf with
  | true => exact hsaving.yields_abort.mono fun _ _ h => hback h
  | false => exact (hsaving.yields_commit (hok rfl)).mono fun _ _ h => hback h

end Save

end Mellivora
