import Mellivora.Kernel.Proofs.CrashProofs
import Mellivora.Tools.Proofs.ReplayProofs

/-!
# The kernel's recovery against the reference

The reference collects the records of the log first, keeps the changes of a sealed log, and clears
the marker in the superblock it finds after the undo.
-/

namespace Mellivora

open WriteLog Tools.HbfsJournal Sector Function Prod

/-- A log as `hbfs_journal_log_sector` and, when `isSealed`, `hbfs_journal_commit` leave it on a
device of `total` sectors. The commit marker is written over the last header in `hbfs_jrnl_buf`. -/
structure KernelLog (total : Nat) (d : Disk) (epoch : Nat) (recs : List (Nat × Sector))
    (isSealed : Bool) : Prop where
  log : LogHolds d epoch recs
  nodup : (recs.map fst).Nodup
  onDevice : ∀ r ∈ recs, r.1 < total
  room : hbfsJournalLba + hbfsJournalSects ≤ total
  ending : if isSealed then
      ∃ buf, (∀ r, recs.getLast? = some r → buf = preHeader r.1 epoch r.2) ∧
        logEnd d recs = commitMarker buf epoch
    else ¬ IsRecord (logEnd d recs) epoch

/-- The kernel's recovery and the reference leave the same volume. -/
def RecoveryAgrees (total : Nat) (d : Disk) : Prop :=
  ∃ r ws, replay d = .ok (r, ws) ∧
    ∀ lba, SameMeta lba (mountedDisk total d lba) (afterWrites d ws lba)

theorem commitMarker_isRecord (buf : Sector) {e : Nat} (he : e < 2 ^ 32) :
    IsRecord (commitMarker buf e) e := by
  unfold IsRecord commitMarker recMagic recType recTarget recEpoch
  simp (disch := norm_num) only [dword_setDword_of_disjoint, dword_setDword]
  exact ⟨rfl, Nat.mod_eq_of_lt he⟩

theorem zero_dword (off : Nat) : Sector.zero.dword off = 0 := by
  unfold dword Sector.byteAt zero
  simp

/-- Over a PRE header the kernel's marker declares no records and carries no checksum, which the
reference accepts as a commit record of the older format. -/
theorem commitValid_marker (t e : Nat) (pre : Sector) (n : Nat) :
    commitValid (commitMarker (preHeader t e pre) e) n = true := by
  have hfield : ∀ off, off = commitOffRecords ∨ off = commitOffCrc →
      (commitMarker (preHeader t e pre) e).dword off = 0 := by
    intro off hoff
    rcases hoff with rfl | rfl <;>
      simp (disch := norm_num) only [commitMarker, preHeader, recMagic, recType,
        recTarget, recEpoch,
        preOffCrc, commitOffRecords, commitOffCrc, dword_setDword_of_disjoint, zero_dword]
  unfold commitValid
  rw [hfield _ (.inl rfl), hfield _ (.inr rfl)]
  simp

variable {total : Nat} {d : Disk} {e : Nat} {recs : List (Nat × Sector)} {isSealed : Bool}

theorem KernelLog.stopsScan (h : KernelLog total d e recs isSealed) :
    StopsScan (logEnd d recs) e := by
  have hend := h.ending
  cases isSealed with
  | true =>
    obtain ⟨buf, -, heq⟩ := hend
    rw [heq]
    exact .inr (commitMarker_type _ _)
  | false => exact .inl hend

/-- The reference's verdict on a kernel log; an empty log leaves it open, and then nothing is undone
either way. -/
theorem KernelLog.endsLog (he : e < 2 ^ 32) (h : KernelLog total d e recs isSealed) :
    ∃ v, EndsLog (logEnd d recs) e recs.length v ∧ (recs ≠ [] → v = isSealed) := by
  have hend := h.ending
  cases isSealed with
  | true =>
    obtain ⟨buf, hbuf, heq⟩ := hend
    refine ⟨commitValid (logEnd d recs) recs.length, .inr ⟨?_, ?_, rfl⟩, fun hne => ?_⟩
    · rw [heq]
      exact commitMarker_isRecord _ he
    · rw [heq]
      exact commitMarker_type _ _
    · rw [heq, hbuf _ (List.getLast?_eq_some_getLast hne)]
      exact commitValid_marker _ _ _ _
  | false => exact ⟨false, .inl ⟨hend, rfl⟩, fun _ => rfl⟩

/-- The image the reference leaves, sector by sector. -/
theorem KernelLog.replay_eq (hst : (d hbfsSuperblockLba).dword hbfsSbJrnlState = 1)
    (h : KernelLog total d ((d hbfsSuperblockLba).dword hbfsSbJrnlEpoch) recs isSealed) :
    ∃ r ws, replay d = .ok (r, ws) ∧
    afterWrites d ws = replayed d (afterWrites d recs) recs isSealed := by
  obtain ⟨v, hends, hv⟩ := h.endsLog (dword_lt _ _)
  obtain ⟨r, hr⟩ := replay_log (by rw [hst]; norm_num) h.log hends
  have hpre : ∀ w ∈ recs, w.2 = afterWrites d recs w.1 := fun w hw =>
    (afterWrites_of_mem_nodup d h.nodup hw).symm
  refine ⟨r, _, hr, ?_⟩
  rw [afterWrites_append, afterWrites_undoWrites hpre]
  have hundone : undone d (afterWrites d recs) recs v =
    undone d (afterWrites d recs) recs isSealed := by
    rcases eq_or_ne recs [] with rfl | hne
    · funext lba
      simp [undone]
    · rw [hv hne]
  rw [hundone]
  rfl

/-- What the two recoveries make of a sector other than the superblock. -/
theorem undone_eq_iff (hnd : (recs.map fst).Nodup) {lba : Nat} :
    afterWrites d recs lba = undone d (afterWrites d recs) recs isSealed lba ↔
      (isSealed = true → ∀ r ∈ recs, r.1 = lba → r.2 = d lba) := by
  cases isSealed with
  | false =>
    simp only [Bool.false_eq_true, false_implies, iff_true, undone, true_and]
    split
    · rfl
    · next hl => exact afterWrites_of_notMem d hl
  | true =>
  simp only [undone, Bool.true_eq_false, false_and, if_false, true_implies]
  constructor
  · rintro heq r hr rfl
    rw [← heq, afterWrites_of_mem_nodup d hnd hr]
  intro hr
  by_cases hl : lba ∈ recs.map fst
  · obtain ⟨r, hmem, rfl⟩ := List.mem_map.mp hl
    rw [afterWrites_of_mem_nodup d hnd hmem]
    exact hr r hmem rfl
  · exact afterWrites_of_notMem d hl

/-- When recovery leaves the superblock's own fields alone. -/
theorem undone_superblock_iff (hnd : (recs.map fst).Nodup) :
    SameOutsideJournal (d hbfsSuperblockLba)
      (undone d (afterWrites d recs) recs isSealed hbfsSuperblockLba) ↔
      (isSealed = false → ∀ r ∈ recs, r.1 = hbfsSuperblockLba →
        SameOutsideJournal (d hbfsSuperblockLba) r.2) := by
  cases isSealed with
  | true => simpa [undone] using SameOutsideJournal.refl _
  | false =>
  simp only [undone, true_and, true_implies]
  constructor
  · intro h r hr hsb
    have hmem : hbfsSuperblockLba ∈ recs.map fst := hsb ▸ List.mem_map_of_mem hr
    rw [if_pos hmem] at h
    rwa [← hsb, afterWrites_of_mem_nodup d hnd hr, hsb] at h
  · intro h
    split
    · next hmem =>
      obtain ⟨r, hr, hsb⟩ := List.mem_map.mp hmem
      rw [← hsb, afterWrites_of_mem_nodup d hnd hr, hsb]
      exact h r hr hsb
    · exact SameOutsideJournal.refl _

/-- When the two recoveries agree: the undo of a sealed log writes back what is already there, and a
superblock that was logged differs from its pre-image in the journal's fields only. -/
def RecoveryHarmless (d : Disk) (recs : List (Nat × Sector)) (isSealed : Bool) : Prop :=
  (isSealed = true → ∀ r ∈ recs, r.1 ≠ hbfsSuperblockLba → r.2 = d r.1) ∧
    (isSealed = false → ∀ r ∈ recs, r.1 = hbfsSuperblockLba →
      SameOutsideJournal (d hbfsSuperblockLba) r.2)

/-- The kernel's recovery agrees with the reference exactly on the logs whose undo does no harm. -/
theorem recoveryAgrees_iff (hst : (d hbfsSuperblockLba).dword hbfsSbJrnlState = 1)
    (h : KernelLog total d ((d hbfsSuperblockLba).dword hbfsSbJrnlEpoch) recs isSealed) :
    RecoveryAgrees total d ↔ RecoveryHarmless d recs isSealed := by
  obtain ⟨r, ws, hreplay, hws⟩ := h.replay_eq hst
  have hkernel := mountedDisk_dirty h.room hst h.log h.onDevice h.stopsScan
  have hagrees : RecoveryAgrees total d ↔ ∀ lba, SameMeta lba
      (recovered d (d hbfsSuperblockLba) recs lba)
      (replayed d (afterWrites d recs) recs isSealed lba) := by
    unfold RecoveryAgrees
    rw [hkernel, hreplay]
    constructor
    · rintro ⟨r', ws', heq, hsame⟩
      simp only [Except.ok.injEq, Prod.mk.injEq] at heq
      rw [← heq.2, hws] at hsame
      exact hsame
    · intro hsame
      exact ⟨r, ws, rfl, by rwa [hws]⟩
  rw [hagrees]
  constructor
  · intro hall
    refine ⟨fun hs r hr hne => ?_, ?_⟩
    · have heq := (sameMeta_of_ne hne).mp (hall r.1)
      rw [recovered, replayed, update_of_ne hne, update_of_ne hne] at heq
      exact (undone_eq_iff h.nodup).mp heq hs r hr rfl
    · have hsb := sameMeta_superblock.mp (hall hbfsSuperblockLba)
      rw [recovered, replayed, update_self, update_self,
        sameOutsideJournal_clearState_iff, undone_superblock_iff h.nodup] at hsb
      exact hsb
  · rintro ⟨hother, hsb⟩ lba
    by_cases heq : lba = hbfsSuperblockLba
    · subst heq
      rw [sameMeta_superblock, recovered, replayed, update_self, update_self,
        sameOutsideJournal_clearState_iff, undone_superblock_iff h.nodup]
      exact hsb
    · rw [sameMeta_of_ne heq, recovered, replayed, update_of_ne heq, update_of_ne heq,
        undone_eq_iff h.nodup]
      rintro hs r hr rfl
      exact hother hs r hr heq

/-! ## A committed log that the kernel undoes -/

/-- A volume cut between the commit marker and the flush of the superblock: one bitmap sector was
logged and rewritten. -/
def committedImage : Disk := fun lba =>
  if lba = hbfsSuperblockLba then
    (((Sector.zero.setDword 0 hbfsMagic).setDword sbVersion hbfsVersionV3).setDword
      hbfsSbJrnlState 1).setDword hbfsSbJrnlEpoch 1
  else if lba = hbfsBitmapStart then Sector.zero.setDword 0 1
  else if lba = hbfsJournalLba then preHeader hbfsBitmapStart 1 Sector.zero
  else if lba = hbfsJournalLba + 2 then commitMarker (preHeader hbfsBitmapStart 1 Sector.zero) 1
  else Sector.zero

theorem committedImage_state : (committedImage hbfsSuperblockLba).dword hbfsSbJrnlState = 1 := by
  decide

theorem committedImage_epoch : (committedImage hbfsSuperblockLba).dword hbfsSbJrnlEpoch = 1 := by
  decide

theorem committedImage_log :
    KernelLog 20000 committedImage ((committedImage hbfsSuperblockLba).dword hbfsSbJrnlEpoch)
    [(hbfsBitmapStart, Sector.zero)] true := by
  rw [committedImage_epoch]
  refine ⟨⟨by simp, ?_, by decide⟩, by simp, by decide, by decide, ?_⟩
  · intro i r hi
    obtain ⟨rfl, rfl⟩ : i = 0 ∧ r = (hbfsBitmapStart, zero) := by
      cases i with
      | zero => simpa [eq_comm] using hi
      | succ i => simp at hi
    exact ⟨rfl, rfl⟩
  · refine ⟨_, fun r hr => ?_, rfl⟩
    simp only [List.getLast?_singleton, Option.some.injEq] at hr
    rw [← hr]

/-- The commit record is there, and still the kernel writes the old bitmap sector back. -/
theorem committedImage_disagrees :
    (committedImage hbfsSuperblockLba).dword hbfsSbJrnlState = 1 ∧
      KernelLog 20000 committedImage ((committedImage hbfsSuperblockLba).dword hbfsSbJrnlEpoch)
        [(hbfsBitmapStart, Sector.zero)] true ∧
      ¬ RecoveryAgrees 20000 committedImage := by
  refine ⟨committedImage_state, committedImage_log, ?_⟩
  rintro ⟨r, ws, hreplay, hsame⟩
  obtain ⟨r', ws', hreplay', hws⟩ := committedImage_log.replay_eq committedImage_state
  have hkernel := mountedDisk_dirty committedImage_log.room committedImage_state
    committedImage_log.log committedImage_log.onDevice committedImage_log.stopsScan
  rw [hreplay'] at hreplay
  simp only [Except.ok.injEq, Prod.mk.injEq] at hreplay
  have hbitmap := hsame hbfsBitmapStart
  rw [← hreplay.2, hws, hkernel, sameMeta_of_ne (by decide)] at hbitmap
  have hbyte := congrArg (fun s => Sector.byteAt s 0) hbitmap
  revert hbyte
  decide

/-- The image of a committed transaction. -/
theorem recoveryAgrees_iff_committedImage :
    RecoveryAgrees 20000 committedImage ↔
    RecoveryHarmless committedImage [(hbfsBitmapStart, Sector.zero)] true :=
  recoveryAgrees_iff committedImage_state committedImage_log

/-! ## Power failures during recovery -/

/-- The writes of a mount, in order. -/
def mountWrites (total : Nat) (d : Disk) : List (Nat × Sector) :=
  (mountJournal.run { disk := d, ataTotalSectors := total }).2.trace

/-- The disk after a mount that the power cut behind its first `n` writes, and a second mount. -/
def remountedDisk (total : Nat) (d : Disk) (n : Nat) : Disk :=
  mountedDisk total (afterWrites d ((mountWrites total d).take n))

/-- A volume with an open transaction. A superblock in its log was read when the marker was there
already. -/
structure DirtyVolume (total : Nat) (d : Disk) (e : Nat) (recs : List (Nat × Sector))
    (isSealed : Bool) : Prop
    extends KernelLog total d e recs isSealed where
  marked : Marked (d hbfsSuperblockLba) e
  logged : ∀ r ∈ recs, r.1 = hbfsSuperblockLba → Marked r.2 e

section Restart

open Outcome List

variable {n : Nat} (h : DirtyVolume total d e recs isSealed)
include h

theorem DirtyVolume.mountedDisk_eq :
    mountedDisk total d = recovered d (d hbfsSuperblockLba) recs := by
  obtain ⟨hst, rfl⟩ := h.marked
  exact mountedDisk_dirty h.room hst h.log h.onDevice h.stopsScan

/-- What a mount writes, in order. -/
theorem DirtyVolume.mountWrites_eq :
    mountWrites total d = recs ++ [(hbfsSuperblockLba, clearState (d hbfsSuperblockLba))] := by
  obtain ⟨hst, rfl⟩ := h.marked
  have hb := layout_eq
  have hroom := h.room
  change Yields mountJournal (fun _ k => k.trace = _) _
  simp only [mountJournal, yields_bind]
  refine (yields_ataReadSector_of_nil rfl (show hbfsSuperblockLba < total by omega)).mpr ?_
  simp only [hbfsInitJournal, yields_rules]
  rw [if_pos hst]
  exact yields_hbfsJournalRecover (dword_lt _ _) ⟨rfl, hroom⟩ h.log h.onDevice
    h.stopsScan fun _ => rfl

/-- Recovery writes neither to the log nor a superblock without the marker. -/
theorem DirtyVolume.take : DirtyVolume total (afterWrites d (recs.take n)) e recs isSealed := by
  have hfits := h.log.fits
  have hlog : ∀ lba, InLog lba → afterWrites d (recs.take n) lba = d lba := fun lba hlba =>
    afterWrites_of_notMem d fun hmem => by
      obtain ⟨w, hw, rfl⟩ := mem_map.mp hmem
      exact (h.log.target w (mem_of_mem_take hw)).1 hlba
  refine ⟨{ h with log := ⟨hfits, fun i r hi => ?_, h.log.target⟩, ending := ?_ }, ?_, h.logged⟩
  · have hlen := (List.getElem?_eq_some_iff.mp hi).1
    have hb := layout_eq
    rw [hlog _ (inLog_iff.mpr (by omega)), hlog _ (inLog_iff.mpr (by omega))]
    exact h.log.record i r hi
  · rw [logEnd, hlog _ (inLog_logEnd hfits)]
    exact h.ending
  · exact afterWrites_prop (P := (Marked · e)) d h.marked fun w hw =>
      h.logged w (mem_of_mem_take hw)

/-- A second mount ends as the first, but for the superblock. -/
theorem DirtyVolume.remountedDisk_eq (hn : n ≤ recs.length) : remountedDisk total d n =
    update (mountedDisk total d) hbfsSuperblockLba
    (clearState (afterWrites d (recs.take n) hbfsSuperblockLba)) := by
  have hpre : ∀ w ∈ recs, w.2 = afterWrites d recs w.1 :=
    fun w hw => (afterWrites_of_mem_nodup d h.nodup hw).symm
  rw [remountedDisk, h.mountWrites_eq, take_append_of_le_length hn, h.take.mountedDisk_eq,
    h.mountedDisk_eq,
    recovered, recovered, afterWrites_take_redo d hpre, update_idem]

/-- Recovery may be cut anywhere and started over exactly when the log holds no superblock of other
contents. Where it holds one, say with the old count of free blocks, the second mount finds that one
on the disk. -/
theorem mount_restartable_iff : (∀ n, SameVolume (remountedDisk total d n) (mountedDisk total d)) ↔
    ∀ r ∈ recs, r.1 = hbfsSuperblockLba → SameOutsideJournal r.2 (d hbfsSuperblockLba) := by
  have hmounted := h.mountedDisk_eq
  have hsuper : mountedDisk total d hbfsSuperblockLba = clearState (d hbfsSuperblockLba) := by
    rw [hmounted, recovered, update_self]
  constructor
  · intro hall r hr hsb
    have hlast := hall recs.length _ superblock_not_inLog
    rw [h.remountedDisk_eq le_rfl, sameMeta_superblock, update_self, take_length, hsuper,
      sameOutsideJournal_clearState_iff] at hlast
    rwa [← afterWrites_of_mem_nodup d h.nodup hr, hsb]
  intro hsame n lba _
  rcases le_or_gt n recs.length with hn | hn
  · rw [h.remountedDisk_eq hn]
    by_cases hsb : lba = hbfsSuperblockLba
    · subst hsb
      rw [sameMeta_superblock, update_self, hsuper, sameOutsideJournal_clearState_iff]
      exact afterWrites_prop (P := (SameOutsideJournal · _)) d (.refl _) fun w hw =>
        hsame w (mem_of_mem_take hw)
    · rw [update_of_ne hsb]
      exact .refl _ _
  · -- The marker is cleared, and the second mount finds a clean volume.
    have hdone : afterWrites d ((mountWrites total d).take n) = mountedDisk total d := by
      rw [h.mountWrites_eq, take_of_length_le (by rw [length_append]; exact hn),
        afterWrites_append, hmounted]
      rfl
    rw [remountedDisk, hdone, mountedDisk_clean h.room (by rw [hsuper, clearState_state]; decide)]
    exact .refl _ _

end Restart

/-- A mount that is stopped after one write. -/
theorem mount_restartable_committedImage :
    SameVolume (remountedDisk 20000 committedImage 1) (mountedDisk 20000 committedImage) := by
  refine (mount_restartable_iff ⟨committedImage_log, ⟨committedImage_state, rfl⟩, ?_⟩).mpr ?_ 1 <;>
    simp [layout_eq]

end Mellivora
