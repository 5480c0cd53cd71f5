import Mellivora.Disk.JournalFormat
import Mellivora.Disk.Proofs.SectorProofs

/-!
# The undo log: fields and frames

The fields of a record read back, and a log keeps holding through every write that leaves its own
sectors alone.
-/

namespace Mellivora

open Function List Sector

variable {d : Disk} {recs : List (Nat × Sector)} {e lba off : Nat} {s t : Sector}

/-- The places and the sizes of the layout as numbers, for arithmetic. -/
theorem layout_eq :
    hbfsSuperblockLba = 8481 ∧ hbfsBitmapStart = 8482 ∧ hbfsBitmapSects = 128 ∧
      hbfsBitmapSize = 65536 ∧
      hbfsRootDirStart = 8610 ∧ hbfsRootDirSects = 256 ∧ hbfsDataStart = 8866 ∧
      hbfsJournalLba = 8866 ∧ hbfsJournalSects = 32 ∧ hbfsJournalBlocks = 4 ∧
      hbfsBlockSize = 4096 ∧ hbfsSectorsPerBlk = 8 ∧ hbfs4RunChecksumBytes = 4 ∧
      hbfsDirEntrySize = 288 ∧
      hbfs4ExtentHdr = 8 ∧ hbfs4ExtentRecord = 8 ∧ hbfs4ExtentMax = 510 := by
  decide

theorem inLog_iff : InLog lba ↔ 8866 ≤ lba ∧ lba < 8898 := Iff.rfl

theorem superblock_not_inLog : ¬ InLog hbfsSuperblockLba := by decide

/-! ## Record headers -/

/-- The fields of a record's header. -/
theorem preHeader_fields {t : Nat} (ht : t < 2 ^ 32) (he : e < 2 ^ 32) (pre : Sector) :
    (preHeader t e pre).dword recMagic = hbfsJrnlMagic ∧ (preHeader t e pre).dword recType =
      hbfsJrnlTPre ∧
      (preHeader t e pre).dword recTarget = t ∧ (preHeader t e pre).dword recEpoch = e ∧
        (preHeader t e pre).dword preOffCrc = crc32c pre.toList := by
  unfold preHeader recMagic recType recTarget recEpoch preOffCrc
  simp (disch := norm_num) only [dword_setDword_of_disjoint, dword_setDword]
  exact ⟨rfl, rfl, Nat.mod_eq_of_lt ht, Nat.mod_eq_of_lt he, Nat.mod_eq_of_lt (crc32c_lt _)⟩

/-! ## Frames -/

/-- A write outside the log leaves it. -/
theorem LogHolds.update (h : LogHolds d e recs) (hlba : ¬ InLog lba) (s : Sector) :
    LogHolds (Function.update d lba s) e recs := by
  refine ⟨h.fits, fun i r hi => ?_, h.target⟩
  have hlen : i < recs.length := (List.getElem?_eq_some_iff.mp hi).1
  have hfits := h.fits
  obtain ⟨h1, h2⟩ := h.record i r hi
  have hb := layout_eq
  rw [inLog_iff] at hlba
  rw [update_of_ne (by omega), update_of_ne (by omega)]
  exact ⟨h1, h2⟩

/-- A write behind the records leaves them. -/
theorem LogHolds.update_past (h : LogHolds d e recs) (hlba : hbfsJournalLba + 2 * recs.length ≤ lba)
    (s : Sector) :
    LogHolds (Function.update d lba s) e recs := by
  refine ⟨h.fits, fun i r hi => ?_, h.target⟩
  have hlen : i < recs.length := (List.getElem?_eq_some_iff.mp hi).1
  obtain ⟨h1, h2⟩ := h.record i r hi
  rw [update_of_ne (by omega), update_of_ne (by omega)]
  exact ⟨h1, h2⟩

theorem logEnd_update (hlba : lba ≠ hbfsJournalLba + 2 * recs.length) (s : Sector) :
    logEnd (Function.update d lba s) recs = logEnd d recs :=
  update_of_ne hlba.symm _ _

theorem inLog_logEnd (h : recs.length ≤ 15) : InLog (hbfsJournalLba + 2 * recs.length) := by
  have hb := layout_eq
  rw [inLog_iff]
  omega

/-- A log with one record more. -/
theorem LogHolds.append (h : LogHolds d e recs) (hroom : recs.length < 15) {t : Nat} {pre : Sector}
    (ht : ¬ InLog t ∧ t < 2 ^ 32) (hhead : d (hbfsJournalLba + 2 * recs.length) = preHeader t e pre)
    (hpre : d (hbfsJournalLba + 2 * recs.length + 1) = pre) :
    LogHolds d e (recs ++ [(t, pre)]) := by
  refine ⟨by simp only [length_append, length_singleton]; omega, fun i r hi => ?_, ?_⟩
  · rcases Nat.lt_or_ge i recs.length with hlt | hge
    · rw [getElem?_append_left hlt] at hi
      exact h.record i r hi
    · grind
  · intro r hr
    rcases mem_append.mp hr with hr | hr
    · exact h.target r hr
    · rw [mem_singleton.mp hr]
      exact ht

/-! ## Superblocks up to the journal's fields -/

theorem SameOutsideJournal.refl (s : Sector) : SameOutsideJournal s s := fun _ _ _ => rfl

theorem SameOutsideJournal.dword (h : SameOutsideJournal s t)
    (hoff : off + 4 ≤ hbfsSbJrnlState) : s.dword off = t.dword off := by
  unfold hbfsSbJrnlState at hoff
  have hb : ∀ i, i < 40 → s.byteAt i = t.byteAt i := by
    intro i hi
    refine h i ?_ ?_
    · unfold JournalByte hbfsSbJrnlState hbfsSbJrnlPtr hbfsSbJrnlEpoch
      omega
    · intro _
      unfold ChecksumByte hbfs4OffChecksum
      omega
  unfold Sector.dword
  rw [hb off (by omega), hb (off + 1) (by omega), hb (off + 2) (by omega), hb (off + 3) (by omega)]

theorem SameOutsideJournal.magic (h : SameOutsideJournal s t) :
    s.dword 0 = t.dword 0 := h.dword (by decide)

theorem SameOutsideJournal.symm (h : SameOutsideJournal s t) : SameOutsideJournal t s := by
  intro i hj hc
  exact (h i hj (fun hs => hc (h.magic ▸ hs))).symm

theorem SameOutsideJournal.trans {u : Sector} (h : SameOutsideJournal s t)
    (h' : SameOutsideJournal t u) : SameOutsideJournal s u := by
  intro i hj hc
  rw [h i hj hc]
  exact h' i hj (fun ht => hc (h.magic.trans ht))

/-- A journal field of the superblock is outside what counts. -/
theorem sameOutsideJournal_setDword (s : Sector)
    (hoff : off = hbfsSbJrnlState ∨ off = hbfsSbJrnlPtr ∨ off = hbfsSbJrnlEpoch) (v : Nat) :
    SameOutsideJournal (s.setDword off v) s := by
  intro i hj _
  have h512 : off + 4 ≤ 512 := by
    rcases hoff with rfl | rfl | rfl <;> decide
  rw [byteAt_setDword s h512, if_neg]
  intro hin
  apply hj
  unfold JournalByte
  rcases hoff with rfl | rfl | rfl
  · exact .inl hin
  · exact .inr (.inl hin)
  · exact .inr (.inr hin)

theorem SameOutsideJournal.setDword (h : SameOutsideJournal s t)
    (hoff : 4 ≤ off ∧ off + 4 ≤ 512) (v : Nat) :
    SameOutsideJournal (s.setDword off v) (t.setDword off v) := by
  intro i hj hc
  rw [dword_setDword_of_disjoint s hoff.2 v (.inr (by omega))] at hc
  rw [byteAt_setDword s hoff.2, byteAt_setDword t hoff.2]
  split
  · rfl
  · exact h i hj hc

/-- The checksum of a v4 superblock is the only thing a restamp changes. -/
theorem byteAt_restampSuperblock (s : Sector) {i : Nat}
    (h : s.dword 0 = hbfs4Magic → ¬ ChecksumByte i) :
    (restampSuperblock s).byteAt i = s.byteAt i := by
  unfold restampSuperblock
  split
  · rfl
  rename_i hm
  have hi := h (not_not.mp hm)
  unfold ChecksumByte at hi
  simp only [stampSuperblock]
  rw [byteAt_setDword _ (by decide), if_neg hi, byteAt_setDword _ (by decide), if_neg hi]

/-- The stamp changes the checksum only. -/
theorem dword_restampSuperblock (s : Sector)
    (h : hbfs4OffChecksum + 4 ≤ off ∨ off + 4 ≤ hbfs4OffChecksum) :
    (restampSuperblock s).dword off = s.dword off := by
  have hb : ∀ j, j < 4 → (restampSuperblock s).byteAt (off + j) = s.byteAt (off + j) := by
    intro j hj
    refine byteAt_restampSuperblock s fun _ => ?_
    unfold ChecksumByte
    omega
  unfold dword
  rw [hb 1 (by norm_num), hb 2 (by norm_num), hb 3 (by norm_num)]
  rw [show (restampSuperblock s).byteAt off = s.byteAt off from hb 0 (by norm_num)]

theorem sameOutsideJournal_restamp (s : Sector) : SameOutsideJournal (restampSuperblock s) s := by
  intro i _ hc
  refine byteAt_restampSuperblock s fun hm => hc ?_
  rw [dword_restampSuperblock s (by decide)]
  exact hm

theorem sameOutsideJournal_clearState (s : Sector) : SameOutsideJournal (clearState s) s :=
  (sameOutsideJournal_restamp _).trans
    ((sameOutsideJournal_setDword _ (.inr (.inl rfl)) _).trans
      (sameOutsideJournal_setDword _ (.inl rfl) _))

/-- Clearing the marker tells no two superblocks apart. -/
theorem sameOutsideJournal_clearState₂ (s : Sector) :
    SameOutsideJournal (clearState (clearState s)) s :=
  (sameOutsideJournal_clearState _).trans (sameOutsideJournal_clearState s)

theorem sameOutsideJournal_clearState_iff :
    SameOutsideJournal (clearState s) (clearState t) ↔ SameOutsideJournal s t :=
  ⟨fun h => ((sameOutsideJournal_clearState s).symm.trans h).trans
    (sameOutsideJournal_clearState t),
    fun h => ((sameOutsideJournal_clearState s).trans h).trans
      (sameOutsideJournal_clearState t).symm⟩

theorem clearState_state (s : Sector) : (clearState s).dword hbfsSbJrnlState = 0 := by
  unfold clearState
  rw [dword_restampSuperblock _ (by decide), dword_setDword_of_disjoint _ (by decide) _ (by decide),
    dword_setDword _ (by decide), Nat.zero_mod]

theorem sameMeta_superblock : SameMeta hbfsSuperblockLba s t ↔ SameOutsideJournal s t := by
  rw [SameMeta, if_pos rfl]

theorem sameMeta_of_ne (h : lba ≠ hbfsSuperblockLba) : SameMeta lba s t ↔ s = t := by
  rw [SameMeta, if_neg h]

theorem SameMeta.refl (lba : Nat) (s : Sector) : SameMeta lba s s := by
  unfold SameMeta
  split
  · exact SameOutsideJournal.refl s
  · rfl

theorem SameMeta.symm (h : SameMeta lba s t) : SameMeta lba t s := by
  unfold SameMeta at h ⊢
  split at h
  · rw [if_pos ‹_›]
    exact h.symm
  · rw [if_neg ‹_›]
    exact h.symm

theorem SameMeta.trans {u : Sector} (h : SameMeta lba s t) (h' : SameMeta lba t u) :
    SameMeta lba s u := by
  unfold SameMeta at h h' ⊢
  split at h
  · rw [if_pos ‹_›] at h' ⊢
    exact h.trans h'
  · rw [if_neg ‹_›] at h' ⊢
    exact Eq.trans h h'

end Mellivora
