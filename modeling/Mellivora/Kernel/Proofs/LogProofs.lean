import Mellivora.Disk.Proofs.JournalFormatProofs
import Mellivora.Kernel.Proofs.AtaProofs
import Mellivora.Kernel.Journal

/-!
# The log of an open transaction

While a transaction is open, the log on the disk holds the old contents of every metadata sector
that has been overwritten.
-/

namespace Mellivora

open WriteLog Outcome Function List Prod

variable {d d' : Disk} {k k' k1 k2 : Kernel} {src : MetaSrc} {i lba : Nat} {s : Sector}

/-- Two disks that agree outside the journal area. -/
def OutsideEq (d d' : Disk) : Prop := ∀ lba, ¬ InLog lba → d lba = d' lba

theorem OutsideEq.trans {d'' : Disk} (h : OutsideEq d d') (h' : OutsideEq d' d'') :
    OutsideEq d d'' := fun lba hlba => (h lba hlba).trans (h' lba hlba)

theorem outsideEq_update (h : InLog lba) (d : Disk) (s : Sector) :
    OutsideEq (update d lba s) d := by
  intro a ha
  exact update_of_ne (fun heq => ha (by rwa [heq])) _ _

theorem OutsideEq.update (h : OutsideEq d d') (lba : Nat) (s : Sector) :
    OutsideEq (update d lba s) (update d' lba s) := by
  intro a ha
  by_cases heq : a = lba
  · rw [heq, update_self, update_self]
  · rw [update_of_ne heq, update_of_ne heq, h a ha]

theorem OutsideEq.afterWrites (h : OutsideEq d d') (ws : List (Nat × Sector)) :
    OutsideEq (WriteLog.afterWrites d ws) (WriteLog.afterWrites d' ws) := by
  induction ws generalizing d d' with
  | nil => exact h
  | cons w ws ih => exact ih (h.update w.1 w.2)

/-- The kernel in a transaction that began on the disk `b` and has logged `recs`. The sectors of
`data` are written without being logged. -/
structure LogInv (b : Disk) (data : Set Nat) (recs : List (Nat × Sector)) (k : Kernel) : Prop where
  journalled : k.journalled = true
  dirty : k.journalDirty = true
  epochLt : k.journalEpoch < 2 ^ 32
  ptr : k.journalPtr = 2 * recs.length
  logged : k.journalLogged = recs.map fst
  log : LogHolds k.disk k.journalEpoch recs
  pre : ∀ r ∈ recs, r.2 = b r.1
  nodup : (recs.map fst).Nodup
  onDevice : ∀ r ∈ recs, r.1 < k.ataTotalSectors
  untouched : ∀ lba, ¬ InLog lba → lba ∉ data → lba ∉ recs.map fst → k.disk lba = b lba

attribute [local grind cases] LogInv

/-- No header past the log of `recs` is a record of the open transaction. -/
def Fresh (recs : List (Nat × Sector)) (k : Kernel) : Prop :=
  ∀ i, recs.length ≤ i → i < 16 → ¬ IsRecord (k.disk (hbfsJournalLba + 2 * i)) k.journalEpoch

/-- Every disk the power may leave behind since the disk was `d` satisfies `P`. -/
structure Traced (d : Disk) (P : Disk → Prop) (k : Kernel) : Prop where
  disk : k.disk = afterWrites d k.trace
  cuts : Throughout P d k.trace

theorem Traced.put {P : Disk → Prop} (h : Traced d P k) (hP : P (update k.disk lba s)) :
    Traced d P (k.put lba s) := by
  refine ⟨?_, ?_⟩
  · rw [Kernel.put_disk, Kernel.put_trace, afterWrites_append, ← h.disk]
    rfl
  · rw [Kernel.put_trace, throughout_append, ← h.disk]
    refine ⟨h.cuts, throughout_cons.mpr ⟨?_, throughout_nil.mpr hP⟩⟩
    rw [h.disk]
    exact h.cuts.finish

/-- What logging a sector leaves alone. -/
structure SameButLog (k k' : Kernel) : Prop where
  bitmap : k'.toBitmapState = k.toBitmapState
  dir : k'.toDirState = k.toDirState
  extent : k'.toExtentState = k.toExtentState
  cwd : k'.toCwdState = k.toCwdState
  quota : k'.toQuotaState = k.toQuotaState
  caller : k'.toCallerState = k.toCallerState
  mounted : k'.mounted = k.mounted
  readOnly : k'.readOnly = k.readOnly
  totalBlocks : k'.totalBlocks = k.totalBlocks
  superBuf : k'.superBuf = k.superBuf ∨ ∃ p, k'.superBuf = k.superBuf.setDword hbfsSbJrnlPtr p
  epoch : k'.journalEpoch = k.journalEpoch
  depth : k'.journalDepth = k.journalDepth
  dirty : k'.journalDirty = k.journalDirty
  total : k'.ataTotalSectors = k.ataTotalSectors
  trace : k.trace <+: k'.trace

/-- Outside the journal area the disk is one of `D`. -/
def Within (D : Set Disk) (d : Disk) : Prop := ∃ o ∈ D, OutsideEq d o

theorem Within.of_outsideEq {D : Set Disk} (h : Within D d) (hout : OutsideEq d' d) :
    Within D d' := by
  obtain ⟨o, ho, heq⟩ := h
  exact ⟨o, ho, hout.trans heq⟩

/-- From `k` to `k'` the log stays in order at every cut, and the disk within `D`. -/
def KeepsCuts (b : Disk) (data : Set Nat) (D : Set Disk) (recs : List (Nat × Sector))
    (k k' : Kernel) : Prop :=
  ∀ d P, (∀ recs' k'', LogInv b data recs' k'' → (Fresh recs k → Fresh recs' k'') →
    Within D k''.disk → k''.journalEpoch = k.journalEpoch →
    k''.ataTotalSectors = k.ataTotalSectors → P k''.disk) → Traced d P k → Traced d P k'

/-- What one call of `hbfs_journal_log_sector` for the sector `t` does. -/
structure LogStep (b : Disk) (data : Set Nat) (recs : List (Nat × Sector)) (t : Nat) (k : Kernel)
    (cf : Bool) (recs' : List (Nat × Sector)) (k' : Kernel) : Prop where
  inv : LogInv b data recs' k'
  failed : k'.journalFailed = cf
  logged : cf = false → t ∈ recs'.map fst
  grow : recs' = recs ∨ ∃ pre, recs' = recs ++ [(t, pre)]
  outside : OutsideEq k'.disk k.disk
  same : SameButLog k k'
  fresh : Fresh recs k → Fresh recs' k'
  traced : ∀ D, Within D k.disk → KeepsCuts b data D recs k k'
  /-- Without faults it only fails when the log is full or the device too small. -/
  works : k.faults = [] → k'.faults = [] ∧ (cf = true → k.ataTotalSectors ≤ t ∨
    k.ataTotalSectors < hbfsJournalLba + hbfsJournalSects ∨ (t ∉ recs'.map fst ∧ 15 ≤ recs'.length))

attribute [local grind cases] LogStep

section Log

variable {b : Disk} {data : Set Nat} {recs : List (Nat × Sector)} {t : Nat}

/-- The invariant reads the device and the journal only. -/
theorem LogInv.congr (h : LogInv b data recs k) (hj : k'.journalled = true)
    (hdev : k'.toDevice = k.toDevice)
    (hstate : k'.toJournalState = k.toJournalState) : LogInv b data recs k' := by
  cases k
  cases k'
  cases hdev
  cases hstate
  exact { h with journalled := hj }

theorem LogInv.inLog_payload (h : LogInv b data recs k) (hroom : recs.length < 15) :
    InLog (hbfsJournalLba + k.journalPtr + 1) := by
  have hb := layout_eq
  rw [h.ptr, inLog_iff]
  omega

theorem LogInv.update_past (h : LogInv b data recs k) (hlba : hbfsJournalLba + k.journalPtr ≤ lba)
    (hin : InLog lba) (s : Sector) (fs : List (Option Nat)) :
    LogInv b data recs (Kernel.put { k with faults := fs } lba s) := by
  have hptr := h.ptr
  refine { h with log := h.log.update_past (by omega) s, untouched := fun a ha hd hr => ?_ }
  rw [Kernel.put_disk, outsideEq_update hin _ _ a ha]
  exact h.untouched a ha hd hr

theorem Fresh.payload (hfresh : Fresh recs k) (h : LogInv b data recs k) (pre : Sector)
    (fs : List (Option Nat)) :
    Fresh recs (Kernel.put { k with faults := fs } (hbfsJournalLba + k.journalPtr + 1) pre) := by
  have hptr := h.ptr
  intro i hi hi16
  have hne : hbfsJournalLba + 2 * i ≠ hbfsJournalLba + k.journalPtr + 1 := by omega
  rw [Kernel.put_disk, update_of_ne hne]
  exact hfresh i hi hi16

/-- The kernel once the header of a record for `t` is written over the payload `pre`. -/
def Kernel.addRecord (k : Kernel) (t : Nat) (pre : Sector) (fs : List (Option Nat)) : Kernel :=
  let header := preHeader t k.journalEpoch pre
  let k' :=
    Kernel.put { k with jrnlBuf := header, faults := fs } (hbfsJournalLba + k.journalPtr) header
  { k' with
    journalLogged := k'.journalLogged ++ [t]
    journalPtr := k'.journalPtr + 2
    superBuf := k'.superBuf.setDword hbfsSbJrnlPtr (k'.journalPtr + 2) }

theorem LogInv.inLog_header (h : LogInv b data recs k) : InLog (hbfsJournalLba + k.journalPtr) := by
  rw [h.ptr]
  exact inLog_logEnd h.log.fits

/-- The log with one record more. -/
theorem LogInv.addRecord (h : LogInv b data recs k) (hroom : recs.length < 15) (ht : ¬ InLog t)
    (ht32 : t < 2 ^ 32) (htotal : t < k.ataTotalSectors) (hl : t ∉ recs.map fst)
    (hpay : k.disk (hbfsJournalLba + k.journalPtr + 1) = b t) (fs : List (Option Nat)) :
    LogInv b data (recs ++ [(t, b t)]) (k.addRecord t (b t) fs) := by
  have hmap : (recs ++ [(t, b t)]).map fst = recs.map fst ++ [t] := by simp
  have hptr := h.ptr
  refine ⟨?_, h.dirty, h.epochLt, ?_, ?_, ?_, ?_, ?_, ?_, ?_⟩
  · have hver : ∀ p, (k.superBuf.setDword hbfsSbJrnlPtr p).dword sbVersion =
      k.superBuf.dword sbVersion := fun p =>
      Sector.dword_setDword_of_disjoint _ (by decide) _ (by decide)
    have hj := h.journalled
    simp only [Kernel.journalled, Kernel.addRecord, Kernel.put, hver] at hj ⊢
    exact hj
  · simp only [Kernel.addRecord, Kernel.put, length_append, length_singleton]
    omega
  · simp only [Kernel.addRecord, Kernel.put, h.logged, hmap]
  · refine (h.log.update_past (by omega) _).append hroom ⟨ht, ht32⟩ ?_ ?_
    · rw [← hptr]
      exact update_self ..
    · rw [← hptr, update_of_ne (by omega)]
      exact hpay
  · grind
  · rw [hmap, ← concat_eq_append]
    exact h.nodup.concat hl
  · intro r hr
    rcases mem_append.mp hr with hr | hr
    · exact h.onDevice r hr
    · rw [mem_singleton.mp hr]
      exact htotal
  · intro lba hlba hd hr
    rw [hmap, mem_append, not_or] at hr
    refine Eq.trans ?_ (h.untouched lba hlba hd hr.1)
    exact outsideEq_update h.inLog_header k.disk _ lba hlba

/-- Behind the new record there is still no other. -/
theorem Fresh.addRecord (hfresh : Fresh recs k) (h : LogInv b data recs k) (pre : Sector)
    (fs : List (Option Nat)) : Fresh (recs ++ [(t, pre)]) (k.addRecord t pre fs) := by
  have hptr := h.ptr
  intro i hi hi16
  rw [length_append, length_singleton] at hi
  have hne : hbfsJournalLba + 2 * i ≠ hbfsJournalLba + k.journalPtr := by omega
  simp only [Kernel.addRecord, Kernel.put, update_of_ne hne]
  exact hfresh i (by omega) hi16

theorem SameButLog.refl (k : Kernel) : SameButLog k k :=
  ⟨rfl, rfl, rfl, rfl, rfl, rfl, rfl, rfl, rfl, .inl rfl, rfl, rfl, rfl, rfl, prefix_rfl⟩

theorem SameButLog.trans (h : SameButLog k k1) (h' : SameButLog k1 k2) : SameButLog k k2 := by
  refine ⟨h'.bitmap.trans h.bitmap, h'.dir.trans h.dir, h'.extent.trans h.extent,
    h'.cwd.trans h.cwd, h'.quota.trans h.quota, h'.caller.trans h.caller,
    h'.mounted.trans h.mounted,
    h'.readOnly.trans h.readOnly, h'.totalBlocks.trans h.totalBlocks, ?_, h'.epoch.trans h.epoch,
    h'.depth.trans h.depth, h'.dirty.trans h.dirty, h'.total.trans h.total, h.trace.trans h'.trace⟩
  rcases h.superBuf with heq | ⟨p, heq⟩
  · rw [← heq]
    exact h'.superBuf
  · rcases h'.superBuf with heq' | ⟨q, heq'⟩
    · exact .inr ⟨p, heq'.trans heq⟩
    · refine .inr ⟨q, ?_⟩
      rw [heq', heq, Sector.setDword_setDword]

theorem SameButLog.faults (k : Kernel) (fs : List (Option Nat)) :
    SameButLog k { k with faults := fs } :=
  ⟨rfl, rfl, rfl, rfl, rfl, rfl, rfl, rfl, rfl, .inl rfl, rfl, rfl, rfl, rfl, prefix_rfl⟩

theorem SameButLog.put (k : Kernel) (fs : List (Option Nat)) (lba : Nat) (s : Sector) :
    SameButLog k (Kernel.put { k with faults := fs } lba s) :=
  ⟨rfl, rfl, rfl, rfl, rfl, rfl, rfl, rfl, rfl, .inl rfl, rfl, rfl, rfl, rfl, prefix_append ..⟩

theorem SameButLog.addRecord (k : Kernel) (t : Nat) (pre : Sector) (fs : List (Option Nat)) :
    SameButLog k (k.addRecord t pre fs) :=
  ⟨rfl, rfl, rfl, rfl, rfl, rfl, rfl, rfl, rfl, .inr ⟨_, rfl⟩, rfl, rfl, rfl, rfl, prefix_append ..⟩

/-- A record that could not be written leaves the log. -/
theorem LogInv.logStep_fail (h : LogInv b data recs k1) (hout : OutsideEq k1.disk k.disk)
    (hsame : SameButLog k k1) (hfresh : Fresh recs k → Fresh recs k1)
    (htr : ∀ D, Within D k.disk → KeepsCuts b data D recs k k1)
    {fs : List (Option Nat)} {header : Sector}
    (hworks : k.faults = [] → fs = [] ∧ (k.ataTotalSectors ≤ t ∨
      k.ataTotalSectors < hbfsJournalLba + hbfsJournalSects ∨
      (t ∉ recs.map fst ∧ 15 ≤ recs.length))) :
    LogStep b data recs t k true recs
      { k1 with faults := fs, jrnlBuf := header, journalFailed := true } :=
  ⟨{ h with }, rfl, by simp, .inl rfl, hout,
    { hsame with }, hfresh,
    fun D hD d P hP hk => ⟨(htr D hD d P hP hk).disk, (htr D hD d P hP hk).cuts⟩,
    fun hf => ⟨(hworks hf).1, fun _ => (hworks hf).2⟩⟩

/-- `hbfs_journal_log_sector` adds a record or fails, and the log stays in order. -/
theorem LogInv.yields_log (h : LogInv b data recs k) (hfailed : k.journalFailed = false)
    (ht : ¬ InLog t) (ht32 : t < 2 ^ 32) (hdata : t ∉ data) :
    Yields (hbfsJournalLogSector t)
    (fun cf k' => ∃ recs', LogStep b data recs t k cf recs' k') k := by
  have hb := layout_eq
  have hptr := h.ptr
  simp only [hbfsJournalLogSector, journalFail, yields_rules]
  rw [if_neg (by simp [h.journalled]), if_neg (by simp [h.dirty]), if_neg (by simp [hfailed])]
  split
  · next hl =>
    rw [h.logged] at hl
    exact ⟨recs, h, hfailed, fun _ => hl, .inl rfl, fun _ _ => rfl, SameButLog.refl k, id,
      fun _ _ _ _ _ htr => htr, fun hf => ⟨hf, by simp⟩⟩
  next hl =>
  rw [h.logged] at hl
  -- The branches that give up before anything is written.
  have hgiveUp : ∀ fs, (k.faults = [] → fs = [] ∧ (k.ataTotalSectors ≤ t ∨
      k.ataTotalSectors < hbfsJournalLba + hbfsJournalSects ∨
      (t ∉ recs.map fst ∧ 15 ≤ recs.length))) →
      LogStep b data recs t k true recs { k with faults := fs, journalFailed := true } :=
    fun fs => h.logStep_fail (fun _ _ => rfl) (SameButLog.refl k) id fun _ _ _ _ _ htr => htr
  split
  · next hfull => exact ⟨recs, hgiveUp k.faults fun hf => ⟨hf, .inr (.inr ⟨hl, by omega⟩)⟩⟩
  next hroom =>
  have hroom : recs.length < 15 := by omega
  refine yields_ataReadSector (fun fs hfs htotal => ?_) fun fs hfs => ?_
  swap
  · exact ⟨recs, hgiveUp fs fun hf => ⟨(hfs hf).1, .inl (hfs hf).2⟩⟩
  simp only [h.untouched t ht hdata hl, yields_rules]
  refine yields_ataWriteSector (fun fs' hfs' _ => ?_) fun fs' hfs' => ?_
  swap
  · grind
  rw [if_neg (by simp)]
  -- The payload is written; the header makes it a record.
  have hpay := h.update_past (by omega) (h.inLog_payload hroom) (b t) fs'
  have hpayFresh : Fresh recs k → Fresh recs _ := fun hfr => hfr.payload h (b t) fs'
  have hout := outsideEq_update (h.inLog_payload hroom) k.disk (b t)
  have hcuts : ∀ D, Within D k.disk → KeepsCuts b data D recs k
      (Kernel.put { k with faults := fs' } (hbfsJournalLba + k.journalPtr + 1) (b t)) := by
    intro D hD d P hP htr
    exact (show Traced d P { k with faults := fs' } from { htr with }).put
      (hP recs _ hpay hpayFresh (hD.of_outsideEq hout) rfl rfl)
  have hsame : SameButLog k
      (Kernel.put { k with faults := fs' } (hbfsJournalLba + k.journalPtr + 1) (b t)) :=
    SameButLog.put k fs' _ _
  refine yields_ataWriteSector (fun fs'' hfs'' _ => ?_) fun fs'' hfs'' => ?_
  swap
  · rw [if_pos rfl]
    refine ⟨recs, hpay.logStep_fail hout hsame hpayFresh hcuts fun hf => ?_⟩
    have hle : fs'' = [] ∧ k.ataTotalSectors ≤ hbfsJournalLba + k.journalPtr :=
      hfs'' (hfs' (hfs hf))
    exact ⟨hle.1, .inr (.inl (by omega))⟩
  rw [if_neg (by simp), if_neg (by simp only [Kernel.put, h.logged, length_map]; omega)]
  have hadd := hpay.addRecord hroom ht ht32 htotal hl (update_self ..) fs''
  have haddFresh : Fresh recs k → Fresh (recs ++ [(t, b t)]) _ := fun hfr =>
    (hpayFresh hfr).addRecord hpay (b t) fs''
  have hout' := (outsideEq_update hpay.inLog_header _
    (preHeader t k.journalEpoch (b t))).trans hout
  refine ⟨recs ++ [(t, b t)], hadd, hfailed, fun _ => by simp, .inr ⟨b t, rfl⟩, hout',
    hsame.trans (SameButLog.addRecord _ t (b t) fs''), haddFresh, ?_,
    fun hf => ⟨hfs'' (hfs' (hfs hf)), by simp⟩⟩
  intro D hD d P hP htr
  have htr' := hcuts D hD d P hP htr
  have hput := (show Traced d P { Kernel.put { k with faults := fs' }
    (hbfsJournalLba + k.journalPtr + 1) (b t) with faults := fs'' } from
    { htr' with }).put (hP _ _ hadd haddFresh (hD.of_outsideEq hout') rfl rfl)
  exact { hput with }

/-! ## Logging and overwriting -/

/-- What a crash can leave, of two steps. -/
theorem KeepsCuts.trans {D : Set Disk} {recs recs1 : List (Nat × Sector)}
    (h : KeepsCuts b data D recs k k1) (h' : KeepsCuts b data D recs1 k1 k2)
    (hfresh : Fresh recs k → Fresh recs1 k1)
    (hsame : SameButLog k k1) : KeepsCuts b data D recs k k2 := by
  intro d P hP htr
  refine h' d P (fun recs' k'' hinv hfr hout he ht => ?_) (h d P hP htr)
  exact hP recs' k'' hinv (fun hf => hfr (hfresh hf)) hout (he.trans hsame.epoch)
    (ht.trans hsame.total)

/-- A sector read from `src` once its old contents are logged. -/
def SrcSector (k : Kernel) (src : MetaSrc) (i : Nat) (s : Sector) : Prop :=
  ∃ k', SameButLog k k' ∧ s = k'.metaSector src i

theorem SameButLog.sameOutsideJournal (h : SameButLog k k') :
    SameOutsideJournal k'.superBuf k.superBuf := by
  rcases h.superBuf with heq | ⟨p, heq⟩
  · rw [heq]
    exact SameOutsideJournal.refl _
  · rw [heq]
    exact sameOutsideJournal_setDword _ (.inr (.inl rfl)) _

theorem SameButLog.dword (h : SameButLog k k') {off : Nat}
    (hoff : hbfsSbJrnlPtr + 4 ≤ off ∨ off + 4 ≤ hbfsSbJrnlPtr) : k'.superBuf.dword off =
    k.superBuf.dword off := by
  rcases h.superBuf with heq | ⟨p, heq⟩
  · rw [heq]
  · rw [heq, Sector.dword_setDword_of_disjoint _ (by decide) _ hoff]

theorem SrcSector.eq (h : SrcSector k src i s) (hsrc : src ≠ .superBuf) :
    s = k.metaSector src i := by
  obtain ⟨k', hsame, rfl⟩ := h
  cases src with
  | superBuf => exact absurd rfl hsrc
  | bitmapBuf sect => simp only [Kernel.metaSector, hsame.bitmap]
  | extentBuf => simp only [Kernel.metaSector, hsame.extent]
  | memory buf => rfl

theorem SrcSector.of_same (h : SameButLog k k1) (hs : SrcSector k1 src i s) :
    SrcSector k src i s := by
  obtain ⟨k', hsame, rfl⟩ := hs
  exact ⟨k', h.trans hsame, rfl⟩

/-- The writes of `n` sectors of `src`, from its sector `i` on, to the sectors from `lba + i` on. -/
def SrcWrites (k : Kernel) (lba : Nat) (src : MetaSrc) (i n : Nat) (ws : List (Nat × Sector)) :
    Prop :=
  ws.length = n ∧ ∀ j, j < n → ∃ s, ws[j]? = some (lba + (i + j), s) ∧ SrcSector k src (i + j) s

/-- The sectors written are those of the buffer. -/
theorem SrcWrites.eq {n : Nat} {ws : List (Nat × Sector)} (h : SrcWrites k lba src i n ws)
    (hsrc : src ≠ .superBuf) : ws = (List.range n).map fun j =>
    (lba + (i + j), k.metaSector src (i + j)) := by
  refine ext_getElem? fun j => ?_
  rcases Nat.lt_or_ge j n with hj | hj
  · obtain ⟨s, hs, hsector⟩ := h.2 j hj
    rw [hs, hsector.eq hsrc]
    simp [hj]
  · rw [getElem?_eq_none (by rw [h.1]; exact hj), getElem?_eq_none (by simpa using hj)]

/-- What writing `cnt` metadata sectors does: all of them, or the first few, are logged and
overwritten. -/
structure MetaRun (b : Disk) (data : Set Nat) (recs : List (Nat × Sector)) (k : Kernel)
    (lba : Nat) (src : MetaSrc) (i cnt : Nat) (cf : Bool) (recs' : List (Nat × Sector))
    (k' : Kernel) : Prop where
  inv : LogInv b data recs' k'
  failed : cf = false → k'.journalFailed = false
  grow : ∀ a ∈ recs.map fst, a ∈ recs'.map fst
  keys : ∀ a ∈ recs'.map fst, a ∈ recs.map fst ∨ ∃ j < cnt, a = lba + (i + j)
  landed : ∃ n ws, n ≤ cnt ∧ (cf = false → n = cnt) ∧ SrcWrites k lba src i n ws ∧
    (∀ w ∈ ws, w.1 ∈ recs'.map fst) ∧ OutsideEq k'.disk (afterWrites k.disk ws)
  same : SameButLog k k'
  fresh : Fresh recs k → Fresh recs' k'
  traced : ∀ D, Within D k.disk → (∀ o ∈ D, ∀ j < cnt, ∀ s, SrcSector k src (i + j) s →
    update o (lba + (i + j)) s ∈ D) → KeepsCuts b data D recs k k'
  works : k.faults = [] → k'.faults = [] ∧ (cf = true →
    k.ataTotalSectors < hbfsJournalLba + hbfsJournalSects ∨
      ∃ j < cnt, k.ataTotalSectors ≤ lba + (i + j) ∨
      (lba + (i + j) ∉ recs'.map fst ∧ 15 ≤ recs'.length))

attribute [local grind cases] MetaRun

theorem LogInv.overwrite (h : LogInv b data recs k) (ht : ¬ InLog t)
    (hl : t ∈ recs.map fst) (s : Sector)
    (fs : List (Option Nat)) : LogInv b data recs (Kernel.put { k with faults := fs } t s) := by
  refine { h with log := h.log.update ht s, untouched := fun lba hlba hd hr => ?_ }
  have hne : lba ≠ t := fun heq => hr (by rwa [heq])
  rw [Kernel.put_disk, update_of_ne hne]
  exact h.untouched lba hlba hd hr

theorem Fresh.overwrite (h : Fresh recs k) (ht : ¬ InLog t) (s : Sector)
    (fs : List (Option Nat)) : Fresh recs (Kernel.put { k with faults := fs } t s) := by
  have hb := layout_eq
  intro i hi hi16
  have hne : hbfsJournalLba + 2 * i ≠ t := by
    rw [inLog_iff] at ht
    omega
  rw [Kernel.put_disk, update_of_ne hne]
  exact h i hi hi16

/-- One sector is logged and overwritten, or logged, or nothing happens. -/
theorem LogInv.yields_logAndWrite (h : LogInv b data recs k) (hfailed : k.journalFailed = false)
    (src : MetaSrc) (ht : ¬ InLog (lba + i)) (ht32 : lba + i < 2 ^ 32)
    (hdata : lba + i ∉ data) :
    Yields (logAndWrite (lba + i) src i)
    (fun cf k' => ∃ recs', MetaRun b data recs k lba src i 1 cf recs' k') k := by
  simp only [logAndWrite, yields_rules]
  refine (h.yields_log hfailed ht ht32 hdata).mono fun cf k1 hstep => ?_
  obtain ⟨recs1, hs⟩ := hstep
  have hgrow : ∀ a ∈ recs.map fst, a ∈ recs1.map fst := by grind
  have hkeys : ∀ a ∈ recs1.map fst, a ∈ recs.map fst ∨ ∃ j < 1, a = lba + (i + j) := by grind
  have hnone : SrcWrites k lba src i 0 [] := ⟨rfl, fun j hj => absurd hj (by omega)⟩
  cases cf with
  | true =>
    rw [if_pos rfl]
    refine ⟨recs1, hs.inv, by simp, hgrow, hkeys, ⟨0, [], by norm_num, by simp, hnone, by simp,
      hs.outside⟩, hs.same, hs.fresh, fun D hD _ => hs.traced D hD, fun hf => ?_⟩
    refine ⟨(hs.works hf).1, fun _ => ?_⟩
    rcases (hs.works hf).2 rfl with h1 | h1 | ⟨h1, h2⟩
    · exact .inr ⟨0, by norm_num, .inl h1⟩
    · exact .inl h1
    · exact .inr ⟨0, by norm_num, .inr ⟨h1, h2⟩⟩
  | false =>
  rw [if_neg (by simp)]
  have hl := hs.logged rfl
  refine yields_ataWriteSector (fun fs hfs _ => ?_) fun fs hfs => ?_
  · -- The sector is logged and overwritten.
    have hinv := hs.inv.overwrite ht hl (k1.metaSector src i) fs
    have hfr : Fresh recs k → Fresh recs1 _ := fun hf =>
      (hs.fresh hf).overwrite ht (k1.metaSector src i) fs
    have hout := hs.outside.update (lba + i) (k1.metaSector src i)
    refine ⟨recs1, hinv, fun _ => hs.failed, hgrow, hkeys,
      ⟨1, [(lba + i, k1.metaSector src i)], le_rfl, fun _ => rfl, ⟨rfl, fun j hj => ?_⟩, ?_, hout⟩,
      hs.same.trans (SameButLog.put k1 fs _ _), hfr, ?_,
      fun hf => ⟨hfs (hs.works hf).1, by simp⟩⟩
    · obtain rfl : j = 0 := by omega
      exact ⟨_, rfl, k1, hs.same, rfl⟩
    · intro w hw
      rw [mem_singleton.mp hw]
      exact hl
    · intro D hD hclosed d P hP htr
      have htr1 := hs.traced D hD d P hP htr
      obtain ⟨o, ho, heq⟩ := hD
      have hmem := hclosed o ho 0 (by norm_num) _ ⟨k1, hs.same, rfl⟩
      have hwithin : Within D (update k1.disk (lba + i) (k1.metaSector src i)) :=
        ⟨_, hmem, hout.trans (heq.update _ _)⟩
      exact (show Traced d P { k1 with faults := fs } from { htr1 with }).put
        (hP recs1 _ hinv hfr hwithin hs.same.epoch hs.same.total)
  · -- The write failed: the sector is logged and as it was.
    refine ⟨recs1, { hs.inv with }, by simp, hgrow, hkeys,
      ⟨0, [], by norm_num, by simp, hnone, by simp, hs.outside⟩,
      hs.same.trans (SameButLog.faults k1 fs), hs.fresh, ?_, ?_⟩
    · intro D hD _ d P hP htr
      have htr1 := hs.traced D hD d P hP htr
      exact { htr1 with }
    · grind

theorem MetaRun.of_first {recs' : List (Nat × Sector)}
    (h : MetaRun b data recs k lba src i 1 true recs' k')
    (cnt : Nat) : MetaRun b data recs k lba src i (cnt + 1) true recs' k' := by
  obtain ⟨n, ws, hn, -, hws, hlogged, hout⟩ := h.landed
  refine ⟨h.inv, by simp, h.grow, fun a ha => (h.keys a ha).imp id ?_,
    ⟨n, ws, by omega, by simp, hws, hlogged, hout⟩, h.same, h.fresh,
    fun D hD hcl => h.traced D hD fun o ho j hj => hcl o ho j (by omega), fun hf => ?_⟩
  · rintro ⟨j, hj, heq⟩
    exact ⟨j, by omega, heq⟩
  · grind

/-- One sector, and then the rest. -/
theorem MetaRun.cons {cnt : Nat} {recs1 recs2 : List (Nat × Sector)}
    {cf : Bool} (h : MetaRun b data recs k lba src i 1 false recs1 k1)
    (h' : MetaRun b data recs1 k1 lba src (i + 1) cnt cf recs2 k2) :
    MetaRun b data recs k lba src i (cnt + 1) cf recs2 k2 := by
  have hidx : ∀ j, i + 1 + j = i + (j + 1) := fun j => by omega
  refine ⟨h'.inv, h'.failed, fun a ha => h'.grow a (h.grow a ha), ?_, ?_, h.same.trans h'.same,
    fun hf => h'.fresh (h.fresh hf), ?_, ?_⟩
  · intro a ha
    rcases h'.keys a ha with ha | ⟨j, hj, rfl⟩
    · rcases h.keys a ha with ha | ⟨j, hj, rfl⟩
      · exact .inl ha
      · exact .inr ⟨j, by omega, rfl⟩
    · exact .inr ⟨j + 1, by omega, by rw [hidx]⟩
  · obtain ⟨n, ws, -, hn, ⟨hlen, hws⟩, hlogged, hout⟩ := h.landed
    obtain rfl := hn rfl
    obtain ⟨n', ws', hn', hcf', ⟨hlen', hws'⟩, hlogged', hout'⟩ := h'.landed
    refine ⟨n' + 1, ws ++ ws', by omega, fun hcf => by rw [hcf' hcf], ⟨?_, ?_⟩, ?_, ?_⟩
    · rw [length_append]
      omega
    · intro j hj
      rcases Nat.lt_or_ge j 1 with hj1 | hj1
      · obtain ⟨s, hs, hsrc⟩ := hws j hj1
        exact ⟨s, by rw [getElem?_append_left (by omega)]; exact hs, hsrc⟩
      · obtain ⟨s, hs, hsrc⟩ := hws' (j - 1) (by omega)
        have hj' : i + 1 + (j - 1) = i + j := by omega
        rw [hj'] at hs hsrc
        exact ⟨s, by rw [getElem?_append_right (by omega), hlen]; exact hs, hsrc.of_same h.same⟩
    · grind
    · rw [afterWrites_append]
      exact hout'.trans (hout.afterWrites ws')
  · intro D hD hcl
    have hfirst : ∀ o ∈ D, ∀ j < 1, ∀ s, SrcSector k src (i + j) s →
        update o (lba + (i + j)) s ∈ D := fun o ho j hj => hcl o ho j (by omega)
    refine (h.traced D hD hfirst).trans (h'.traced D ?_ fun o ho j hj s hs => ?_) h.fresh h.same
    · -- After the first sector the disk is still within `D`.
      obtain ⟨n, ws, -, hn, ⟨hlen, hws⟩, -, hout⟩ := h.landed
      obtain rfl := hn rfl
      obtain ⟨o, ho, heq⟩ := hD
      obtain ⟨w, rfl⟩ := length_eq_one_iff.mp hlen
      obtain ⟨s, hs, hsrc⟩ := hws 0 (by norm_num)
      simp only [getElem?_cons_zero, Option.some.injEq] at hs
      rw [hs] at hout
      exact ⟨_, hfirst o ho 0 (by norm_num) s hsrc, hout.trans (heq.update _ _)⟩
    · rw [hidx] at hs ⊢
      exact hcl o ho (j + 1) (by omega) s (hs.of_same h.same)
  · intro hf
    obtain ⟨hf1, -⟩ := h.works hf
    obtain ⟨hf2, hwhy⟩ := h'.works hf1
    refine ⟨hf2, fun hcf => ?_⟩
    rw [← h.same.total]
    refine (hwhy hcf).imp id ?_
    rintro ⟨j, hj, hwhy⟩
    rw [hidx] at hwhy
    exact ⟨j + 1, by omega, hwhy⟩

/-- The loop under the log's invariant. -/
theorem LogInv.yields_metaWriteLoop (h : LogInv b data recs k) (hfailed : k.journalFailed = false)
    (src : MetaSrc) (cnt i : Nat)
    (ht : ∀ j < cnt, ¬ InLog (lba + (i + j)) ∧ lba + (i + j) < 2 ^ 32 ∧ lba + (i + j) ∉ data) :
    Yields (metaWriteLoop lba src cnt i)
    (fun cf k' => ∃ recs', MetaRun b data recs k lba src i cnt cf recs' k') k := by
  induction cnt generalizing recs k i with
  | zero =>
    refine ⟨recs, h, fun _ => hfailed, fun _ ha => ha, fun _ ha => .inl ha,
      ⟨0, [], le_rfl, fun _ => rfl, ⟨rfl, by simp⟩, by simp, fun _ _ => rfl⟩, SameButLog.refl k, id,
      fun _ _ _ _ _ _ htr => htr, fun hf => ⟨hf, ?_⟩⟩
    intro hcf
    exact absurd hcf (by simp [metaWriteLoop])
  | succ cnt ih =>
  simp only [metaWriteLoop, yields_rules]
  obtain ⟨ht0, ht32, hdata⟩ := ht 0 (by omega)
  refine (h.yields_logAndWrite hfailed src ht0 ht32 hdata).mono fun cf k1 hrun => ?_
  obtain ⟨recs1, hrun⟩ := hrun
  cases cf with
  | true => exact ⟨recs1, hrun.of_first cnt⟩
  | false =>
    rw [if_neg (by simp)]
    refine (ih hrun.inv (hrun.failed rfl) (i + 1) fun j hj => ?_).mono fun cf k2 hrest => ?_
    · grind
    · obtain ⟨recs2, hrest⟩ := hrest
      exact ⟨recs2, hrun.cons hrest⟩

end Log

end Mellivora
