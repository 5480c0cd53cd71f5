import Mellivora.Lib.Outcome
import Mellivora.Tools.Proofs.ReplayProofs

/-!
# A transaction of the reference journal, cut anywhere

Between `begin` and the commit record the image can be undone (`Undoable`): its log holds the
pre-image of every journalled sector that has changed, and the sector after the log is not a record
of this epoch.
-/

namespace Mellivora.Tools.HbfsJournal

open WriteLog Outcome Sector Function List

/-! ## The methods -/

/-- The next sector write is the one the power fails before. -/
def Journal.Cut (j : Journal) : Prop := j.crashAfter.any (· ≤ j.writes) = true

instance (j : Journal) : Decidable j.Cut := inferInstanceAs (Decidable (_ = true))

theorem Journal.Cut.crashAfter_ne {j : Journal} (h : j.Cut) : j.crashAfter ≠ none := by
  intro hn
  simp [Journal.Cut, hn] at h

/-- The journal after one sector write. -/
def Journal.put (j : Journal) (lba : Nat) (data : Sector) : Journal :=
  { j with image := update j.image lba data, writes := j.writes + 1 }

@[simp] theorem Journal.put_logged (j : Journal) (lba : Nat) (data : Sector) :
    (j.put lba data).logged = j.logged := rfl

/-- A superblock with the journal's fields filled in. -/
def markSuperblock (sb : Sector) (state ptr epoch : Nat) : Sector :=
  restampSuperblock
    (((sb.setDword hbfsSbJrnlState state).setDword hbfsSbJrnlPtr ptr).setDword
      hbfsSbJrnlEpoch epoch)

section Methods

variable {Q : Unit → Journal → Prop} {C : Journal → Prop} {j : Journal}

theorem ends_writeSector {lba : Nat} {data : Sector} :
    Ends (writeSector lba data) Q C j ↔ if j.Cut then C j else Q () (j.put lba data) := by
  unfold writeSector
  simp only [ends_bind, ends_get, ends_ite, ends_throw, ends_set]
  rfl

theorem ends_flushSuperblock :
    Ends flushSuperblock Q C j ↔ if j.Cut then C j else Q () (j.put hbfsSuperblockLba
      (markSuperblock (j.image hbfsSuperblockLba) (if j.isOpen then 1 else 0) j.ptr j.epoch)) := by
  unfold flushSuperblock superblock readSector
  simp only [ends_bind, ends_get, ends_pure, ends_writeSector]
  rfl

theorem imageAfter_cases {x : JournalM Unit} {P R : Disk → Prop}
    (h : Ends x (fun _ j' => P j'.image) (fun j' => R j'.image) j) : P (imageAfter x j) ∨
    R (imageAfter x j) := by
  unfold Ends at h
  unfold imageAfter
  cases hx : x j with
  | ok a j' => rw [hx] at h; exact .inl h
  | error e j' => rw [hx] at h; exact .inr h

end Methods

theorem markSuperblock_state (sb : Sector) (state ptr epoch : Nat) :
    (markSuperblock sb state ptr epoch).dword hbfsSbJrnlState = state % 2 ^ 32 := by
  unfold markSuperblock
  rw [dword_restampSuperblock _ (by decide), dword_setDword_of_disjoint _ (by decide) _ (by decide),
    dword_setDword_of_disjoint _ (by decide) _ (by decide),
    dword_setDword _ (by decide)]

theorem markSuperblock_epoch (sb : Sector) (state ptr : Nat) {epoch : Nat} (h : epoch < 2 ^ 32) :
    (markSuperblock sb state ptr epoch).dword hbfsSbJrnlEpoch = epoch := by
  unfold markSuperblock
  rw [dword_restampSuperblock _ (by decide), dword_setDword _ (by decide), Nat.mod_eq_of_lt h]

theorem sameOutsideJournal_mark (sb : Sector) (state ptr epoch : Nat) :
    SameOutsideJournal (markSuperblock sb state ptr epoch) sb :=
  (sameOutsideJournal_restamp _).trans
    ((sameOutsideJournal_setDword _ (.inr (.inr rfl)) _).trans
      ((sameOutsideJournal_setDword _ (.inr (.inl rfl)) _).trans
        (sameOutsideJournal_setDword _ (.inl rfl) _)))

theorem nextEpoch_lt (d : Disk) : nextEpoch d < 2 ^ 32 := Nat.mod_lt _ (by norm_num)

/-! ## Images of a transaction -/

/-- The image right after `begin`. -/
def opened (d : Disk) : Disk :=
  update d hbfsSuperblockLba (markSuperblock (d hbfsSuperblockLba) 1 0 (nextEpoch d))

theorem opened_superblock (d : Disk) :
    opened d hbfsSuperblockLba = markSuperblock (d hbfsSuperblockLba) 1 0 (nextEpoch d) :=
  update_self ..

theorem opened_of_ne (d : Disk) {lba : Nat} (h : lba ≠ hbfsSuperblockLba) :
    opened d lba = d lba := update_of_ne h ..

theorem sameMeta_opened (d : Disk) (lba : Nat) : SameMeta lba (opened d lba) (d lba) := by
  unfold SameMeta
  split
  · next h =>
    rw [h, opened_superblock]
    exact sameOutsideJournal_mark _ _ _ _
  · next h => exact opened_of_ne d h

/-- The sector writes the calls ask for. -/
def callWrites (calls : List Call) : List (Nat × Sector) := calls.map fun c => (c.lba, c.data)

/-- The image, outside the journal area, after the calls. -/
def landed (d : Disk) (calls : List Call) : Disk := afterWrites (opened d) (callWrites calls)

theorem landed_append (d : Disk) (done : List Call) (c : Call) :
    landed d (done ++ [c]) = update (landed d done) c.lba c.data := by
  unfold landed callWrites
  rw [map_append, afterWrites_append]
  rfl

theorem landed_of_notMem (d : Disk) {calls : List Call} {lba : Nat}
    (h : ∀ c ∈ calls, c.lba ≠ lba) : landed d calls lba = opened d lba := by
  refine afterWrites_of_notMem _ fun hmem => ?_
  simp only [callWrites, map_map, mem_map, comp_apply] at hmem
  obtain ⟨c, hc, hl⟩ := hmem
  exact h c hc hl

theorem mem_written {calls : List Call} {lba : Nat} :
    lba ∈ written calls ↔ ∃ data, .write lba data ∈ calls := by
  simp only [written, mem_filterMap]
  constructor
  · rintro ⟨c, hc, hl⟩
    cases c with
    | write l data => exact ⟨data, by simp only [Option.some.injEq] at hl; rwa [← hl]⟩
    | writeData l data => simp at hl
  · rintro ⟨data, hc⟩
    exact ⟨_, hc, rfl⟩

section Transaction

variable {d : Disk} {calls : List Call} {lba : Nat}

theorem landed_marked (ha : Admissible d calls) {done : List Call} (hsub : ∀ c ∈ done, c ∈ calls) :
    (landed d done hbfsSuperblockLba).dword hbfsSbJrnlState = 1 ∧
      (landed d done hbfsSuperblockLba).dword hbfsSbJrnlEpoch = nextEpoch d := by
  refine afterWrites_prop (P := fun s : Sector => s.dword hbfsSbJrnlState = 1 ∧
    s.dword hbfsSbJrnlEpoch = nextEpoch d) _ ?_ ?_
  · rw [opened_superblock, markSuperblock_state, markSuperblock_epoch _ _ _ (nextEpoch_lt d)]
    exact ⟨rfl, rfl⟩
  · intro w hw hsb
    obtain ⟨c, hc, rfl⟩ := mem_map.mp hw
    exact ha.fromSuperblock c (hsub c hc) hsb

/-- The image of a transaction that can still be undone: every journalled sector is logged or
unchanged. -/
def Undoable (d : Disk) (calls : List Call) (img : Disk) : Prop :=
  ∃ recs, Replayable img (opened d) recs false ∧ ∀ lba ∈ written calls, lba ∉ recs.map Prod.fst →
    img lba = opened d lba

/-- The image of a transaction whose commit record is written: all the calls have landed. The
replay's verdict is left open, since it rests on the checksum of the record. -/
def Sealed (d : Disk) (calls : List Call) (img : Disk) : Prop :=
  ∃ recs v, Replayable img (opened d) recs v ∧ (∀ lba ∈ written calls, lba ∈ recs.map Prod.fst) ∧
    ∀ lba, ¬ InLog lba → img lba = landed d calls lba

/-- The journal object between `begin` and the end, when the calls `done` have been made and the
power is to fail at `c`. -/
structure InTransaction (d : Disk) (c : Option Nat) (calls done : List Call) (j : Journal) :
    Prop where
  crashAfter : j.crashAfter = c
  isOpen : j.isOpen = true
  epoch : j.epoch = nextEpoch d
  ptr : j.ptr = 2 * j.logged.length
  log : LogHolds j.image (nextEpoch d) j.logged
  /-- No header from here on is a record of this epoch. -/
  fresh : ∀ i, j.logged.length ≤ i → i < 16 →
    ¬ IsRecord (j.image (hbfsJournalLba + 2 * i)) (nextEpoch d)
  pre : ∀ r ∈ j.logged, r.2 = opened d r.1
  nodup : (j.logged.map Prod.fst).Nodup
  logged : ∀ lba ∈ j.logged.map Prod.fst, lba ∈ written calls
  doneLogged : ∀ lba ∈ written done, lba ∈ j.logged.map Prod.fst
  doneSub : ∀ c ∈ done, c ∈ calls
  current : ∀ lba, ¬ InLog lba → j.image lba = landed d done lba

/-- Where the power may fail before the commit record is written. -/
def Stopped (d : Disk) (c : Option Nat) (calls : List Call) (j : Journal) : Prop :=
  c ≠ none ∧ Undoable d calls j.image

variable {c : Option Nat} {done : List Call} {j : Journal}

/-- At every moment the image can be replayed. -/
theorem InTransaction.replayable (ha : Admissible d calls) (h : InTransaction d c calls done j) :
    Replayable j.image (opened d) j.logged false := by
  obtain ⟨hs, he⟩ := landed_marked ha h.doneSub
  have hnone : ∀ c ∈ ([] : List Call), c ∈ calls := by simp
  obtain ⟨hs0, he0⟩ := landed_marked ha hnone
  have hsb := h.current _ superblock_not_inLog
  have hfits := h.log.fits
  refine ⟨?_, ?_, ?_, h.pre, ?_, ?_⟩
  · rw [hsb, hs]
    norm_num
  · rw [hsb, he]
    exact h.log
  · rw [hsb, he]
    exact .inl ⟨h.fresh _ le_rfl (by omega), rfl⟩
  · rw [show opened d = landed d [] from rfl, hs0]
    norm_num
  · rw [hsb, he]
    exact he0

/-- A sector without a record is unchanged. -/
theorem InTransaction.unlogged (ha : Admissible d calls) (h : InTransaction d c calls done j)
    (hw : lba ∈ written calls) (hl : lba ∉ j.logged.map Prod.fst) : j.image lba = opened d lba := by
  obtain ⟨data, hmem⟩ := mem_written.mp hw
  rw [h.current lba (ha.notLog _ hmem)]
  refine landed_of_notMem d fun c hc heq => ?_
  cases c with
  | write l data =>
    exact hl (h.doneLogged _ (mem_written.mpr ⟨data, by simpa [← heq, Call.lba] using hc⟩))
  | writeData l data =>
    have hl : l = lba := heq
    subst hl
    exact ha.dataOnly _ _ (h.doneSub _ hc) hw

theorem InTransaction.undoable (ha : Admissible d calls) (h : InTransaction d c calls done j) :
    Undoable d calls j.image :=
  ⟨j.logged, h.replayable ha, fun _ hw hl => h.unlogged ha hw hl⟩

/-- A sector to be logged finds room. -/
theorem InTransaction.room (ha : Admissible d calls) (h : InTransaction d c calls done j)
    (hw : lba ∈ written calls) (hl : lba ∉ j.logged.map Prod.fst) : j.logged.length < 15 := by
  have hnd : (lba :: j.logged.map Prod.fst).Nodup := nodup_cons.mpr ⟨hl, h.nodup⟩
  have hsub : lba :: j.logged.map Prod.fst ⊆ (written calls).dedup := by
    intro a hamem
    rw [mem_dedup]
    rcases mem_cons.mp hamem with rfl | hamem
    · exact hw
    · exact h.logged a hamem
  have hlen := (hnd.subperm hsub).length_le
  have hfits := ha.fits
  rw [length_cons, length_map] at hlen
  omega

theorem InTransaction.stopped (ha : Admissible d calls) (h : InTransaction d c calls done j)
    (hcut : j.Cut) : Stopped d c calls j :=
  ⟨h.crashAfter ▸ hcut.crashAfter_ne, h.undoable ha⟩

theorem InTransaction.payload (h : InTransaction d c calls done j) (hroom : j.logged.length < 15)
    (pre : Sector) :
    InTransaction d c calls done (j.put (hbfsJournalLba + 2 * j.logged.length + 1) pre) := by
  have hb := layout_eq
  refine { h with log := h.log.update_past (by omega) pre, fresh := ?_, current := ?_ }
  · intro i hi hi16
    have hne : hbfsJournalLba + 2 * i ≠ hbfsJournalLba + 2 * j.logged.length + 1 := by omega
    simp only [Journal.put, update_of_ne hne]
    exact h.fresh i hi hi16
  · intro lba hlba
    have hne : lba ≠ hbfsJournalLba + 2 * j.logged.length + 1 := by
      rw [inLog_iff] at hlba
      omega
    simp only [Journal.put, update_of_ne hne]
    exact h.current lba hlba

/-- Writing the header completes the record. -/
theorem InTransaction.header (ha : Admissible d calls) (h : InTransaction d c calls done j)
    (hw : lba ∈ written calls) (hl : lba ∉ j.logged.map Prod.fst)
    (hpay : j.image (hbfsJournalLba + 2 * j.logged.length + 1) = opened d lba) :
    InTransaction d c calls done { j.put (hbfsJournalLba + 2 * j.logged.length)
      (preHeader lba (nextEpoch d) (opened d lba)) with
        logged := j.logged ++ [(lba, opened d lba)], ptr := j.ptr + 2 } := by
  have hb := layout_eq
  have hroom := h.room ha hw hl
  obtain ⟨data, hmem⟩ := mem_written.mp hw
  have hnotLog := ha.notLog _ hmem
  refine ⟨h.crashAfter, h.isOpen, h.epoch, ?_, ?_, ?_, ?_, ?_, ?_, ?_, h.doneSub, ?_⟩
  · simp only [h.ptr, length_append, length_singleton]
    omega
  · refine (h.log.update_past le_rfl _).append hroom ⟨hnotLog, ha.lba32 lba hw⟩ ?_ ?_
    · exact update_self ..
    · rw [update_of_ne (by omega)]
      exact hpay
  · intro i hi hi16
    simp only [length_append, length_singleton] at hi
    have hne : hbfsJournalLba + 2 * i ≠ hbfsJournalLba + 2 * j.logged.length := by omega
    simp only [Journal.put, update_of_ne hne]
    exact h.fresh i (by omega) hi16
  · intro r hr
    rcases mem_append.mp hr with hr | hr
    · exact h.pre r hr
    · rw [mem_singleton.mp hr]
  · simp only [map_append, map_cons, map_nil]
    rw [← concat_eq_append]
    exact h.nodup.concat hl
  · intro a hamem
    simp only [map_append, map_cons, map_nil, mem_append, mem_singleton] at hamem
    rcases hamem with hamem | rfl
    · exact h.logged a hamem
    · exact hw
  · intro a hamem
    rw [map_append]
    exact mem_append_left _ (h.doneLogged a hamem)
  · intro a hamem
    have hne : a ≠ hbfsJournalLba + 2 * j.logged.length := by
      rw [inLog_iff] at hamem
      omega
    simp only [Journal.put, update_of_ne hne]
    exact h.current a hamem

/-- `log` keeps the transaction in order, and afterwards the sector is logged. -/
theorem InTransaction.ends_log (ha : Admissible d calls) (h : InTransaction d c calls done j)
    (hw : lba ∈ written calls) :
    Ends (HbfsJournal.log lba) (fun _ j' => InTransaction d c calls done j' ∧
      lba ∈ j'.logged.map Prod.fst)
      (Stopped d c calls) j := by
  unfold HbfsJournal.log readSector
  simp only [ends_bind, ends_get, ends_ite, ends_throw, ends_modify, ends_pure, ends_writeSector]
  rw [if_neg (by simp [h.isOpen])]
  split
  · next hl => exact ⟨h, hl⟩
  next hl =>
  have hb := layout_eq
  have hroom := h.room ha hw hl
  rw [if_neg (by rw [h.ptr]; omega), if_neg (not_le.mpr (ha.lba32 lba hw)), h.ptr, h.epoch,
    h.unlogged ha hw hl]
  have hpay := h.payload hroom (opened d lba)
  split
  · next hcut => exact h.stopped ha hcut
  split
  · next hcut => exact hpay.stopped ha hcut
  · exact ⟨hpay.header ha hw hl (update_self ..), by simp⟩

/-- A logged sector is written. -/
theorem InTransaction.land (ha : Admissible d calls) (h : InTransaction d c calls done j)
    {call : Call} (hc : call ∈ calls) (hl : ∀ lba ∈ written [call], lba ∈ j.logged.map Prod.fst) :
    InTransaction d c calls (done ++ [call]) (j.put call.lba call.data) := by
  have hnotLog := ha.notLog call hc
  refine { h with
    log := h.log.update hnotLog _, fresh := ?_, doneLogged := ?_, doneSub := ?_, current := ?_ }
  · intro i hi hi16
    have hb := layout_eq
    have hne : hbfsJournalLba + 2 * i ≠ call.lba := by
      rw [inLog_iff] at hnotLog
      omega
    simp only [Journal.put, update_of_ne hne]
    exact h.fresh i hi hi16
  · intro lba hlba
    rw [written, filterMap_append, mem_append] at hlba
    exact hlba.elim (h.doneLogged lba) (hl lba)
  · intro c' hc'
    rcases mem_append.mp hc' with hc' | hc'
    · exact h.doneSub c' hc'
    · rw [mem_singleton.mp hc']
      exact hc
  · intro lba hlba
    rw [landed_append]
    by_cases heq : lba = call.lba
    · subst heq
      simp only [Journal.put, update_self]
    · simp only [Journal.put, update_of_ne heq]
      exact h.current lba hlba

/-- A call ends in the transaction, or at a crash in it. -/
theorem InTransaction.ends_call (ha : Admissible d calls) (h : InTransaction d c calls done j)
    {call : Call} (hc : call ∈ calls) :
    Ends call.run (fun _ j' => InTransaction d c calls (done ++ [call]) j')
    (Stopped d c calls) j := by
  cases call with
  | write lba data =>
    have hw : lba ∈ written calls := mem_written.mpr ⟨data, hc⟩
    simp only [Call.run, HbfsJournal.write, ends_bind, ends_writeSector]
    refine (h.ends_log ha hw).mono (fun _ j' hj' => ?_) fun _ hs => hs
    split
    · next hcut => exact hj'.1.stopped ha hcut
    · exact hj'.1.land ha hc (by simpa [written] using hj'.2)
  | writeData lba data =>
    simp only [Call.run, HbfsJournal.writeData, ends_writeSector]
    split
    · next hcut => exact h.stopped ha hcut
    · exact h.land ha hc (by simp [written])

theorem InTransaction.ends_calls (ha : Admissible d calls) (h : InTransaction d c calls [] j) :
    Ends (calls.forM Call.run) (fun _ j' => InTransaction d c calls calls j')
    (Stopped d c calls) j :=
  ends_forM (fun done j' => InTransaction d c calls done j') []
    (fun _ _ hc _ hj => hj.ends_call ha hc) h

/-! ## The ends of a transaction -/

theorem commitHeader_magic (epoch records : Nat) :
    (commitHeader epoch records).dword recMagic = hbfsJrnlMagic := by
  unfold commitHeader recMagic recType recTarget recEpoch commitOffRecords commitOffCrc
  simp (disch := norm_num) only [dword_setDword_of_disjoint, dword_setDword]
  rfl

theorem commitHeader_type (epoch records : Nat) :
    (commitHeader epoch records).dword recType = hbfsJrnlTCommit := by
  unfold commitHeader recMagic recType recTarget recEpoch commitOffRecords commitOffCrc
  simp (disch := norm_num) only [dword_setDword_of_disjoint, dword_setDword]
  rfl

theorem commitHeader_epoch {epoch : Nat} (h : epoch < 2 ^ 32) (records : Nat) :
    (commitHeader epoch records).dword recEpoch = epoch := by
  unfold commitHeader recMagic recType recTarget recEpoch commitOffRecords commitOffCrc
  simp (disch := norm_num) only [dword_setDword_of_disjoint, dword_setDword]
  exact Nat.mod_eq_of_lt h

/-- The marker is cleared, and the journalled sectors are those of `target`. -/
def Closed (calls : List Call) (target img : Disk) : Prop :=
  (img hbfsSuperblockLba).dword hbfsSbJrnlState = 0 ∧
    ∀ lba ∈ written calls, SameMeta lba (img lba) (target lba)

theorem closed_update {img target : Disk} (e : Nat)
    (h : ∀ lba ∈ written calls, SameMeta lba (img lba) (target lba)) :
    Closed calls target (update img hbfsSuperblockLba
      (markSuperblock (img hbfsSuperblockLba) 0 0 e)) := by
  refine ⟨by rw [update_self, markSuperblock_state, Nat.zero_mod], fun lba hlba => ?_⟩
  by_cases heq : lba = hbfsSuperblockLba
  · subst heq
    refine SameMeta.trans ?_ (h _ hlba)
    rw [update_self, SameMeta, if_pos rfl]
    exact sameOutsideJournal_mark _ _ _ _
  · rw [update_of_ne heq]
    exact h lba hlba

/-- The commit record seals the log. -/
theorem InTransaction.seal (ha : Admissible d calls) (h : InTransaction d c calls calls j) :
    Sealed d calls (j.put (hbfsJournalLba + 2 * j.logged.length)
      (commitHeader (nextEpoch d) j.logged.length)).image := by
  have hr := h.replayable ha
  have hfits := h.log.fits
  have hout : ∀ lba, ¬ InLog lba →
      update j.image (hbfsJournalLba + 2 * j.logged.length)
        (commitHeader (nextEpoch d) j.logged.length) lba = j.image lba := by
    intro lba hlba
    refine update_of_ne (fun heq => hlba ?_) ..
    rw [heq]
    exact inLog_logEnd hfits
  have hsb := hout _ superblock_not_inLog
  have he : (j.image hbfsSuperblockLba).dword hbfsSbJrnlEpoch = nextEpoch d := by
    rw [h.current _ superblock_not_inLog]
    exact (landed_marked ha h.doneSub).2
  refine ⟨j.logged, commitValid (commitHeader (nextEpoch d) j.logged.length) j.logged.length,
    ⟨?_, ?_, ?_, hr.pre, hr.baseState, ?_⟩, h.doneLogged, ?_⟩
  · simp only [Journal.put, hsb]
    exact hr.state
  · simp only [Journal.put, hsb]
    exact hr.log.update_past le_rfl _
  · simp only [Journal.put, hsb, he, logEnd, update_self]
    exact .inr ⟨⟨commitHeader_magic _ _, commitHeader_epoch (nextEpoch_lt d) _⟩,
      commitHeader_type _ _, rfl⟩
  · simp only [Journal.put, hsb]
    exact hr.baseEpoch
  · intro lba hlba
    simp only [Journal.put, hout lba hlba]
    exact h.current lba hlba

/-- A commit leaves what was written. -/
theorem InTransaction.ends_commit (ha : Admissible d calls) (h : InTransaction d c calls calls j) :
    Ends commit (fun _ j' => Closed calls (landed d calls) j'.image)
      (fun j' => c ≠ none ∧ (Undoable d calls j'.image ∨ Sealed d calls j'.image)) j := by
  unfold commit
  simp only [ends_bind, ends_get, ends_ite, ends_modify, ends_pure, ends_writeSector,
    ends_flushSuperblock]
  rw [if_neg (by simp [h.isOpen]), h.ptr, h.epoch]
  have hseal := h.seal ha
  split
  · next hcut => exact ⟨h.crashAfter ▸ hcut.crashAfter_ne, .inl (h.undoable ha)⟩
  split
  · next hcut => exact ⟨h.crashAfter ▸ hcut.crashAfter_ne, .inr hseal⟩
  · refine closed_update _ fun lba hlba => ?_
    obtain ⟨-, -, -, -, hland⟩ := hseal
    obtain ⟨data, hmem⟩ := mem_written.mp hlba
    rw [hland lba (ha.notLog _ hmem)]
    exact SameMeta.refl ..

/-- The image half-way through `abort`, when the pre-images `back` are written back. -/
structure RollingBack (d : Disk) (c : Option Nat) (calls : List Call)
    (recs back : List (Nat × Sector)) (j : Journal) : Prop where
  crashAfter : j.crashAfter = c
  isOpen : j.isOpen = true
  replayable : Replayable j.image (opened d) recs false
  unlogged : ∀ lba ∈ written calls, lba ∉ recs.map Prod.fst → j.image lba = opened d lba
  restored : ∀ r ∈ back, j.image r.1 = opened d r.1

/-- One record is put back. -/
theorem RollingBack.put {recs back : List (Nat × Sector)} (h : RollingBack d c calls recs back j)
    {r : Nat × Sector} (hr : r ∈ recs) :
    RollingBack d c calls recs (back ++ [r]) (j.put r.1 r.2) := by
  have hpre := h.replayable.pre r hr
  refine ⟨h.crashAfter, h.isOpen, h.replayable.undo hr, fun lba hw hl => ?_, fun q hq => ?_⟩
  · have hne : lba ≠ r.1 := fun heq => hl (heq ▸ mem_map_of_mem hr)
    simp only [Journal.put, update_of_ne hne]
    exact h.unlogged lba hw hl
  simp only [Journal.put]
  by_cases heq : q.1 = r.1
  · rw [heq, update_self, hpre]
  · rw [update_of_ne heq]
    rcases mem_append.mp hq with hq | hq
    · exact h.restored q hq
    · exact absurd (congrArg Prod.fst (mem_singleton.mp hq)) heq

theorem RollingBack.stopped {recs back : List (Nat × Sector)}
    (h : RollingBack d c calls recs back j) (hcut : j.Cut) : Stopped d c calls j :=
  ⟨h.crashAfter ▸ hcut.crashAfter_ne, recs, h.replayable, h.unlogged⟩

/-- An abort leaves what was there. -/
theorem InTransaction.ends_abort (ha : Admissible d calls) (h : InTransaction d c calls calls j) :
    Ends abort (fun _ j' => Closed calls (opened d) j'.image) (Stopped d c calls) j := by
  unfold abort
  simp only [ends_bind, ends_get, ends_ite, ends_modify, ends_pure, ends_flushSuperblock]
  rw [if_neg (by simp [h.isOpen])]
  have hstart : RollingBack d c calls j.logged [] j :=
    ⟨h.crashAfter, h.isOpen, h.replayable ha, fun _ hw hl => h.unlogged ha hw hl, by simp⟩
  refine (ends_forM (RollingBack d c calls j.logged) [] ?_ hstart).mono ?_ fun _ hc => hc
  · intro back r hr j' hj'
    rw [ends_writeSector]
    split
    · next hcut => exact hj'.stopped hcut
    · exact hj'.put (mem_reverse.mp hr)
  · intro _ j' hj'
    split
    · next hcut => exact hj'.stopped (j := j') hcut
    refine closed_update _ fun lba hlba => ?_
    have hopen : j'.image lba = opened d lba := by
      obtain ⟨r, hr, rfl⟩ := mem_map.mp (h.doneLogged lba hlba)
      exact hj'.restored r (by simpa using hr)
    rw [hopen]
    exact SameMeta.refl ..

/-- `begin` on a clean image opens the transaction, or the power fails and nothing has happened. -/
theorem ends_begin (calls : List Call) (hclean : (d hbfsSuperblockLba).dword hbfsSbJrnlState = 0)
    (hfresh : ∀ i, InLog i → ¬ IsRecord (d i) (nextEpoch d)) :
    Ends begin (fun _ j => InTransaction d c calls [] j) (fun j => c ≠ none ∧ j.image = d)
    (Journal.new d c) := by
  unfold begin readSector
  simp only [ends_bind, ends_get, ends_ite, ends_throw, ends_modify, ends_pure,
    ends_flushSuperblock, Journal.new]
  rw [if_neg (by simp), if_neg (not_not.mpr hclean)]
  split
  · next hcut => exact ⟨hcut.crashAfter_ne, trivial⟩
  have hb := layout_eq
  refine ⟨rfl, rfl, rfl, rfl, ⟨by simp, by simp, by simp⟩, ?_, by simp, by simp, by simp,
    by simp [written], by simp, fun lba _ => rfl⟩
  intro i _ hi
  have hin : InLog (hbfsJournalLba + 2 * i) := by
    rw [inLog_iff]
    omega
  rw [show (Journal.put _ _ _).image (hbfsJournalLba + 2 * i) = opened d _ from rfl,
    opened_of_ne d (by omega)]
  exact hfresh _ hin

/-! ## Recovery -/

/-- What the journalled sectors hold after the whole transaction. -/
def outcome (d : Disk) (calls : List Call) : Ending → Disk
  | .commit => landed d calls
  | .abort => opened d

/-- The images the power may leave when it fails during the transaction: before it began, before the
commit record or after it. -/
def Interrupted (d : Disk) (calls : List Call) (ending : Ending) (img : Disk) : Prop :=
  img = d ∨ Undoable d calls img ∨ (ending = .commit ∧ Sealed d calls img)

/-- A whole transaction closes, or the power fails. -/
theorem ends_runTransaction (hclean : (d hbfsSuperblockLba).dword hbfsSbJrnlState = 0)
    (hfresh : ∀ i, InLog i → ¬ IsRecord (d i) (nextEpoch d)) (ha : Admissible d calls)
    (ending : Ending) :
    Ends (runTransaction calls ending) (fun _ j => Closed calls (outcome d calls ending) j.image)
      (fun j => c ≠ none ∧ Interrupted d calls ending j.image) (Journal.new d c) := by
  simp only [runTransaction, ends_bind]
  refine (ends_begin calls hclean hfresh).mono (fun _ j hj => ?_) fun _ hs => ⟨hs.1, .inl hs.2⟩
  refine (hj.ends_calls ha).mono (fun _ j hj => ?_) fun _ hs => ⟨hs.1, .inr (.inl hs.2)⟩
  cases ending with
  | commit =>
    refine (hj.ends_commit ha).mono (fun _ _ h => h) fun _ hs => ⟨hs.1, .inr ?_⟩
    exact hs.2.imp id fun hsealed => ⟨rfl, hsealed⟩
  | abort => exact (hj.ends_abort ha).mono (fun _ _ h => h) fun _ hs => ⟨hs.1, .inr (.inl hs.2)⟩

/-- An image that can be undone is rolled back to what the journalled sectors held. -/
theorem Undoable.rolled_back {img : Disk} (h : Undoable d calls img) :
    ∃ final, ReplaysTo img final ∧ ∀ lba ∈ written calls, SameMeta lba (final lba) (d lba) := by
  obtain ⟨recs, hr, hrest⟩ := h
  refine ⟨_, hr.replaysTo, fun lba hlba => (sameMeta_replayed ..).trans ?_⟩
  have hundone : undone img (opened d) recs false lba = opened d lba := by
    unfold undone
    split
    · rfl
    · next hl => exact hrest lba hlba fun hmem => hl ⟨rfl, hmem⟩
  rw [hundone]
  exact sameMeta_opened d lba

/-- A sealed image is kept as it is; should the checksum of the commit record be the zero that
stands for no checksum, it is rolled back as a whole. -/
theorem Sealed.settled {img : Disk} (ha : Admissible d calls) (h : Sealed d calls img) :
    ∃ final, ReplaysTo img final ∧
      ((∀ lba ∈ written calls, SameMeta lba (final lba) (d lba)) ∨
        ∀ lba ∈ written calls, SameMeta lba (final lba) (landed d calls lba)) := by
  obtain ⟨recs, v, hr, hkeys, hland⟩ := h
  cases v with
  | false =>
    obtain ⟨final, hrep, hpre⟩ : ∃ final, ReplaysTo img final ∧ _ :=
      Undoable.rolled_back ⟨recs, hr, fun lba hlba hl => absurd (hkeys lba hlba) hl⟩
    exact ⟨final, hrep, .inl hpre⟩
  | true =>
    refine ⟨_, hr.replaysTo, .inr fun lba hlba => (sameMeta_replayed ..).trans ?_⟩
    obtain ⟨data, hmem⟩ := mem_written.mp hlba
    rw [show undone img (opened d) recs true lba = img lba from if_neg (by simp),
      hland lba (ha.notLog _ hmem)]
    exact SameMeta.refl ..

end Transaction

/-- The image a transaction leaves, whether or not the power fails. -/
theorem imageAfter_runTransaction {d : Disk} {calls : List Call} (c : Option Nat)
    (hclean : (d hbfsSuperblockLba).dword hbfsSbJrnlState = 0)
    (hfresh : ∀ i, InLog i → ¬ IsRecord (d i) (nextEpoch d)) (ha : Admissible d calls)
    (ending : Ending) :
    Closed calls (outcome d calls ending)
      (imageAfter (runTransaction calls ending) (Journal.new d c)) ∨
      (c ≠ none ∧ Interrupted d calls ending
        (imageAfter (runTransaction calls ending) (Journal.new d c))) :=
  imageAfter_cases (P := Closed calls (outcome d calls ending))
    (R := fun img => c ≠ none ∧ Interrupted d calls ending img)
    (ends_runTransaction hclean hfresh ha ending)

/-- Crash atomicity of the reference journal: wherever a transaction is cut, a replay succeeds and
finds every journalled sector as it was before the transaction, or every one as the whole
transaction leaves it; and a replay that is itself cut can be run again. -/
theorem transaction_atomic (d : Disk) (calls : List Call) (ending : Ending)
    (crashAfter : Option Nat) (hclean : (d hbfsSuperblockLba).dword hbfsSbJrnlState = 0)
    (hfresh : ∀ i, InLog i → ¬ IsRecord (d i) (nextEpoch d)) (ha : Admissible d calls) :
    ∃ final, ReplaysTo (imageAfter (runTransaction calls ending) (Journal.new d crashAfter)) final ∧
      ((∀ lba ∈ written calls, SameMeta lba (final lba) (d lba)) ∨
        ∀ lba ∈ written calls, SameMeta lba (final lba)
          (imageAfter (runTransaction calls ending) (Journal.new d none) lba)) := by
  have hpost := (imageAfter_runTransaction none hclean hfresh ha ending).resolve_right (by simp)
  rcases imageAfter_runTransaction crashAfter hclean hfresh ha ending with
    hclosed | ⟨-, himg | hundo | ⟨rfl, hsealed⟩⟩
  · exact ⟨_, replaysTo_clean hclosed.1, .inr fun lba hlba =>
      (hclosed.2 lba hlba).trans (hpost.2 lba hlba).symm⟩
  · rw [himg]
    exact ⟨d, replaysTo_clean hclean, .inl fun lba _ => SameMeta.refl ..⟩
  · obtain ⟨final, hrep, hpre⟩ := hundo.rolled_back
    exact ⟨final, hrep, .inl hpre⟩
  · obtain ⟨final, hrep, hfinal⟩ := hsealed.settled ha
    refine ⟨final, hrep, hfinal.imp id fun hland lba hlba => ?_⟩
    exact (hland lba hlba).trans (hpost.2 lba hlba).symm

/-- A free-count update, a bitmap sector and a data sector on an empty image. -/
def sampleCalls : List Call :=
  [.write hbfsSuperblockLba
      (((Sector.zero.setDword hbfsSbJrnlState 1).setDword hbfsSbJrnlEpoch 1).setDword
        sbFreeBlocks 7),
    .write hbfsBitmapStart (Sector.zero.setDword 0 1), .writeData 9000 (Sector.zero.setDword 0 2)]

theorem admissible_sampleCalls : Admissible (fun _ => Sector.zero) sampleCalls where
  notLog := by decide
  lba32 := by decide
  fits := by decide
  dataOnly := by
    intro lba data hmem
    simp only [sampleCalls, mem_cons, not_mem_nil, or_false, reduceCtorEq, false_or,
      Call.writeData.injEq] at hmem
    rw [hmem.1]
    decide
  fromSuperblock := by decide

/-- A crash after four writes. -/
theorem transaction_atomic_sampleCalls :
    ∃ final, ReplaysTo (imageAfter (runTransaction sampleCalls .commit)
        (Journal.new (fun _ => Sector.zero) (some 4))) final ∧
      ((∀ lba ∈ written sampleCalls, SameMeta lba (final lba) Sector.zero) ∨
        ∀ lba ∈ written sampleCalls, SameMeta lba (final lba)
          (imageAfter (runTransaction sampleCalls .commit)
            (Journal.new (fun _ => Sector.zero) none) lba)) :=
  transaction_atomic (fun _ => zero) sampleCalls .commit (some 4) (by decide)
    (fun _ _ => by decide) admissible_sampleCalls

end Mellivora.Tools.HbfsJournal
