import Mellivora.Tools.HbfsJournal
import Mellivora.Disk.Proofs.JournalFormatProofs

/-!
# What `replay` does to a log

On an image whose log holds the records `recs`, the scan finds exactly `recs`, and whether it takes
them for committed is decided by the sector after them.
-/

namespace Mellivora.Tools.HbfsJournal

open WriteLog Function List

/-- What the scan makes of the sector `s` where the header of record `n` would be: the end of the
log, with the verdict `v` on the records before it. -/
def EndsLog (s : Sector) (epoch n : Nat) (v : Bool) : Prop :=
  (¬ IsRecord s epoch ∧ v = false) ∨
    (IsRecord s epoch ∧ s.dword recType = hbfsJrnlTCommit ∧ v = commitValid s n)

/-- The scan from the `i`-th record on. -/
theorem replayScan_from {d : Disk} {e : Nat} (he : e < 2 ^ 32) {recs : List (Nat × Sector)}
    {v : Bool} (h : LogHolds d e recs) (hend : EndsLog (logEnd d recs) e recs.length v) :
    ∀ n i turns, i + n = recs.length → n < turns → replayScan d e turns (2 * i) (recs.take i) =
    .ok (recs, v) := by
  have hb := layout_eq
  have hfits := h.fits
  intro n
  induction n with
  | zero =>
    intro i turns hi ht
    obtain ⟨turns, rfl⟩ : ∃ t, turns = t + 1 := ⟨turns - 1, by omega⟩
    have hil : i = recs.length := by omega
    subst hil
    have hlt : 2 * recs.length < hbfsJournalSects := by omega
    rw [replayScan, if_pos hlt, take_length]
    unfold logEnd at hend
    rcases hend with ⟨hno, rfl⟩ | ⟨hrec, hty, rfl⟩
    · have hor : (d (hbfsJournalLba + 2 * recs.length)).dword recMagic ≠ hbfsJrnlMagic ∨
          (d (hbfsJournalLba + 2 * recs.length)).dword recEpoch ≠ e := by
        by_contra hcon
        push Not at hcon
        exact hno hcon
      rw [if_pos hor]
    · rw [if_neg (by simp [hrec.1, hrec.2]), if_pos hty]
  | succ n ih =>
  intro i turns hi ht
  obtain ⟨turns, rfl⟩ : ∃ t, turns = t + 1 := ⟨turns - 1, by omega⟩
  have hil : i < recs.length := by omega
  have hget : recs[i]? = some recs[i] := getElem?_eq_getElem hil
  obtain ⟨hhead, hpre⟩ := h.record i _ hget
  obtain ⟨-, ht32⟩ := h.target recs[i] (getElem_mem hil)
  have hlt : 2 * i < hbfsJournalSects := by omega
  rw [replayScan, if_pos hlt]
  simp only [hhead, hpre]
  obtain ⟨hmagic, htype, hnumber, hepoch, hcrc⟩ := preHeader_fields ht32 he recs[i].2
  rw [if_neg (by simp [hmagic, hepoch]), if_neg (by rw [htype]; decide),
    if_neg (by rw [htype]; simp),
    if_neg (by simp [hcrc]), hnumber]
  have hstep := ih (i + 1) turns (by omega) (by omega)
  rw [take_succ_eq_append_getElem hil] at hstep
  exact hstep

/-- The scan of a log finds its records and the verdict on them. -/
theorem replayScan_log {d : Disk} {e : Nat} (he : e < 2 ^ 32) {recs : List (Nat × Sector)}
    {v : Bool} (h : LogHolds d e recs) (hend : EndsLog (logEnd d recs) e recs.length v) :
    replayScan d e hbfsJournalSects 0 [] = .ok (recs, v) := by
  have hb := layout_eq
  have hfits := h.fits
  exact replayScan_from he h hend recs.length 0 hbfsJournalSects (by omega) (by omega)

/-- The undo writes of a replay that came to the verdict `v`. -/
def undoWrites (recs : List (Nat × Sector)) (v : Bool) : List (Nat × Sector) :=
  if v then [] else recs.reverse

/-- `replay` on a clean image does nothing. -/
theorem replay_clean {d : Disk} (h : (d hbfsSuperblockLba).dword hbfsSbJrnlState = 0) :
    replay d = .ok ({}, []) := by
  unfold replay
  rw [if_pos h]

/-- `replay` on a log: the undo writes, then the superblock with the marker cleared. -/
theorem replay_log {d : Disk} {recs : List (Nat × Sector)} {v : Bool}
    (hst : (d hbfsSuperblockLba).dword hbfsSbJrnlState ≠ 0)
    (h : LogHolds d ((d hbfsSuperblockLba).dword hbfsSbJrnlEpoch) recs)
    (hend : EndsLog (logEnd d recs) ((d hbfsSuperblockLba).dword hbfsSbJrnlEpoch) recs.length v) :
    ∃ r, replay d = .ok (r, undoWrites recs v ++ [(hbfsSuperblockLba,
      clearState (afterWrites d (undoWrites recs v) hbfsSuperblockLba))]) := by
  unfold replay
  rw [if_neg hst, replayScan_log (Sector.dword_lt _ _) h hend]
  exact ⟨_, rfl⟩

/-! ## Cutting a replay short -/

/-- An image with an open transaction whose log holds `recs`, all of them sectors of `base`, and
which the sector after them seals or not (`v`). -/
structure Replayable (d base : Disk) (recs : List (Nat × Sector)) (v : Bool) : Prop where
  state : (d hbfsSuperblockLba).dword hbfsSbJrnlState ≠ 0
  log : LogHolds d ((d hbfsSuperblockLba).dword hbfsSbJrnlEpoch) recs
  ends : EndsLog (logEnd d recs) ((d hbfsSuperblockLba).dword hbfsSbJrnlEpoch) recs.length v
  pre : ∀ r ∈ recs, r.2 = base r.1
  baseState : (base hbfsSuperblockLba).dword hbfsSbJrnlState ≠ 0
  baseEpoch : (base hbfsSuperblockLba).dword hbfsSbJrnlEpoch =
    (d hbfsSuperblockLba).dword hbfsSbJrnlEpoch

attribute [local grind cases] Replayable

/-- The image once the undo writes are made: the logged sectors are those of `base` again, unless
the log is sealed. -/
def undone (d base : Disk) (recs : List (Nat × Sector)) (v : Bool) : Disk :=
  fun lba => if v = false ∧ lba ∈ recs.map Prod.fst then base lba else d lba

section Restart

variable {d base : Disk} {recs : List (Nat × Sector)} {v : Bool}

theorem mem_undoWrites {r : Nat × Sector} (hr : r ∈ undoWrites recs v) : r ∈ recs := by
  unfold undoWrites at hr
  split at hr
  · simp at hr
  · exact mem_reverse.mp hr

theorem afterWrites_undoWrites (h : ∀ r ∈ recs, r.2 = base r.1) :
    afterWrites d (undoWrites recs v) = undone d base recs v := by
  funext lba
  rw [afterWrites_of_values d fun r hr => h r (mem_undoWrites hr)]
  have hmem : lba ∈ (undoWrites recs v).map Prod.fst ↔ v = false ∧ lba ∈ recs.map Prod.fst := by
    cases v <;> simp [undoWrites]
  simp only [hmem, undone]

/-- Putting one pre-image back leaves the image as ready for a replay as it was. -/
theorem Replayable.undo (h : Replayable d base recs v) {r : Nat × Sector} (hr : r ∈ recs) :
    Replayable (update d r.1 r.2) base recs v := by
  have hnotLog := (h.log.target r hr).1
  -- The superblock is either untouched or the one of `base`.
  have hepoch : (update d r.1 r.2 hbfsSuperblockLba).dword hbfsSbJrnlEpoch =
      (d hbfsSuperblockLba).dword hbfsSbJrnlEpoch := by grind
  refine ⟨?_, ?_, ?_, h.pre, h.baseState, h.baseEpoch.trans hepoch.symm⟩
  · grind
  · rw [hepoch]
    exact h.log.update hnotLog r.2
  · have hend : r.1 ≠ hbfsJournalLba + 2 * recs.length := fun heq =>
      hnotLog (by rw [heq]; exact inLog_logEnd h.log.fits)
    rw [hepoch, logEnd_update hend]
    exact h.ends

theorem Replayable.undo_all {ws : List (Nat × Sector)} (h : Replayable d base recs v)
    (hws : ∀ w ∈ ws, w ∈ recs) : Replayable (afterWrites d ws) base recs v := by
  induction ws generalizing d with
  | nil => exact h
  | cons w ws ih =>
    exact ih (h.undo (hws w (mem_cons_self ..))) fun r hr => hws r (mem_cons_of_mem _ hr)

theorem Replayable.take (h : Replayable d base recs v) (k : Nat) :
    Replayable (afterWrites d ((undoWrites recs v).take k)) base recs v :=
  h.undo_all fun _ hr => mem_undoWrites (mem_of_mem_take hr)

theorem Replayable.undone_take (h : Replayable d base recs v) (k : Nat) :
    undone (afterWrites d ((undoWrites recs v).take k)) base recs v = undone d base recs v := by
  rw [← afterWrites_undoWrites h.pre, ← afterWrites_undoWrites h.pre]
  exact afterWrites_take_redo d (fun r hr => h.pre r (mem_undoWrites hr)) k

/-- The image a replay leaves: the logged sectors undone, and the marker cleared. -/
def replayed (d base : Disk) (recs : List (Nat × Sector)) (v : Bool) : Disk :=
  update (undone d base recs v) hbfsSuperblockLba
    (clearState (undone d base recs v hbfsSuperblockLba))

theorem Replayable.replay_eq (h : Replayable d base recs v) :
    ∃ r, replay d = .ok (r, undoWrites recs v ++ [(hbfsSuperblockLba,
      clearState (undone d base recs v hbfsSuperblockLba))]) := by
  rw [← afterWrites_undoWrites h.pre]
  exact replay_log h.state h.log h.ends

theorem Replayable.afterWrites_replay (h : Replayable d base recs v) :
    afterWrites d (undoWrites recs v ++ [(hbfsSuperblockLba,
      clearState (undone d base recs v hbfsSuperblockLba))]) = replayed d base recs v := by
  rw [afterWrites_append, afterWrites_undoWrites h.pre]
  rfl

/-- A replay succeeds, and one that is cut short and run again ends in the same image. -/
theorem Replayable.replaysTo (h : Replayable d base recs v) :
    ReplaysTo d (replayed d base recs v) := by
  obtain ⟨r, hr⟩ := h.replay_eq
  refine ⟨r, _, hr, h.afterWrites_replay, fun k => ?_⟩
  rcases Nat.lt_or_ge (undoWrites recs v).length k with hk | hk
  · -- All the writes were made: the marker is clear.
    rw [take_of_length_le (by rw [length_append, length_singleton]; omega), h.afterWrites_replay]
    refine ⟨{}, [], replay_clean ?_, rfl⟩
    rw [replayed, update_self, clearState_state]
  · rw [take_append_of_le_length hk]
    obtain ⟨r', hr'⟩ := (h.take k).replay_eq
    refine ⟨r', _, hr', ?_⟩
    rw [(h.take k).afterWrites_replay, replayed, replayed, h.undone_take]

theorem replaysTo_clean (h : (d hbfsSuperblockLba).dword hbfsSbJrnlState = 0) : ReplaysTo d d :=
  ⟨{}, [], replay_clean h, rfl, fun k => ⟨{}, [], by simpa using replay_clean h, by simp⟩⟩

/-- The metadata after a replay is that of the undo. -/
theorem sameMeta_replayed (d base : Disk) (recs : List (Nat × Sector)) (v : Bool) (lba : Nat) :
    SameMeta lba (replayed d base recs v lba) (undone d base recs v lba) := by
  unfold SameMeta replayed
  split
  · next hsb =>
    rw [hsb, update_self]
    exact sameOutsideJournal_clearState _
  · next hsb => exact update_of_ne hsb _ _

end Restart

end Mellivora.Tools.HbfsJournal
