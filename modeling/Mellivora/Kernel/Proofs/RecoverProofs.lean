import Mellivora.Disk.Proofs.JournalFormatProofs
import Mellivora.Kernel.Proofs.AtaProofs
import Mellivora.Kernel.Journal

/-!
# What the kernel's recovery does to a log

On a working device `hbfs_journal_recover` writes back every record it passes, oldest first, and
stops at the end of the log or at a commit record.
-/

namespace Mellivora

open WriteLog Outcome List

/-- A device that reports no error, with room for the metadata and the log. -/
structure Device.Healthy (dev : Device) : Prop where
  faults : dev.faults = []
  bounds : hbfsJournalLba + hbfsJournalSects ≤ dev.ataTotalSectors

/-- The sector after the last record stops the kernel's scan. -/
def StopsScan (s : Sector) (epoch : Nat) : Prop :=
  ¬ IsRecord s epoch ∨ s.dword recType = hbfsJrnlTCommit

variable {k : Kernel} {recs : List (Nat × Sector)} {Q : Unit → Kernel → Prop}

/-- The scan from the `i`-th record on writes the rest of the records back. -/
theorem yields_recoverScan_from (he : k.journalEpoch < 2 ^ 32) (hk : k.Healthy)
    (hlog : LogHolds k.disk k.journalEpoch recs) (hdev : ∀ r ∈ recs, r.1 < k.ataTotalSectors)
    (hend : StopsScan (logEnd k.disk recs) k.journalEpoch) :
    ∀ n i turns, i + n = recs.length → n < turns →
      (∀ header tags, Q () { k with
        disk := afterWrites k.disk (recs.drop i), trace := k.trace ++ recs.drop i,
        jrnlBuf := header, blkCacheTags := tags }) →
      Yields (recoverScan turns (2 * i)) Q k := by
  have hb := layout_eq
  have hfits := hlog.fits
  have hbounds := hk.bounds
  intro n
  induction n generalizing k with
  | zero =>
    intro i turns hi ht hQ
    obtain ⟨turns, rfl⟩ : ∃ t, turns = t + 1 := ⟨turns - 1, by omega⟩
    have hil : i = recs.length := by omega
    subst hil
    simp only [drop_length, afterWrites_nil, append_nil] at hQ
    simp only [recoverScan, yields_rules]
    rw [if_neg (by omega), yields_ataReadSector_of_nil hk.faults (by omega)]
    simp only [yields_rules]
    split_ifs
    · exact hQ _ _
    · exact hQ _ _
    · exact hQ _ _
    · next hm hep hty _ => exact absurd hend (by simp_all [StopsScan, IsRecord, logEnd])
    · next hm hep hty _ => exact absurd hend (by simp_all [StopsScan, IsRecord, logEnd])
  | succ n ih =>
  intro i turns hi ht hQ
  obtain ⟨turns, rfl⟩ : ∃ t, turns = t + 1 := ⟨turns - 1, by omega⟩
  have hil : i < recs.length := by omega
  have hget : recs[i]? = some recs[i] := getElem?_eq_getElem hil
  obtain ⟨hhead, hpre⟩ := hlog.record i _ hget
  have hmem : recs[i] ∈ recs := getElem_mem hil
  obtain ⟨hnotLog, ht32⟩ := hlog.target _ hmem
  have htarget := hdev _ hmem
  obtain ⟨hmagic, htype, hnumber, hepoch, hcrc⟩ := preHeader_fields ht32 he recs[i].2
  simp only [recoverScan, yields_rules]
  rw [if_neg (by omega), yields_ataReadSector_of_nil hk.faults (by omega)]
  simp only [hhead, yields_rules]
  rw [if_neg (by rw [hmagic]; simp), if_neg (by rw [hepoch]; simp), if_neg (by rw [htype]; decide),
    if_neg (by rw [htype]; simp)]
  refine (yields_ataReadSector_of_nil ?_ ?_).mpr ?_
  · exact hk.faults
  · show hbfsJournalLba + 2 * i + 1 < k.ataTotalSectors
    omega
  simp only [hpre, yields_rules]
  rw [if_neg (by simp [hcrc]), hnumber]
  refine (yields_ataWriteSector_of_nil ?_ ?_).mpr ?_
  · exact hk.faults
  · exact htarget
  have hdrop : recs.drop i = recs[i] :: recs.drop (i + 1) := drop_eq_getElem_cons hil
  have hne : recs[i].1 ≠ hbfsJournalLba + 2 * recs.length := fun heq =>
    hnotLog (by rw [heq]; exact inLog_logEnd hfits)
  refine ih ?_ ?_ ?_ ?_ ?_ ?_ (i + 1) turns (by omega) (by omega) ?_
  · exact he
  · exact { hk with }
  · exact hlog.update hnotLog _
  · exact hdev
  · rw [Kernel.put_disk, logEnd_update hne]
    exact hend
  · exact hbounds
  · intro header tags
    have hstate := hQ header tags
    rw [hdrop] at hstate
    simp only [Kernel.put, append_assoc, singleton_append]
    exact hstate

theorem yields_hbfsWriteSuperblock {Q : Bool → Kernel → Prop} (hk : k.Healthy)
    (hQ : Q false (Kernel.put { k with superBuf := restampSuperblock k.superBuf } hbfsSuperblockLba
      (restampSuperblock k.superBuf))) : Yields hbfsWriteSuperblock Q k := by
  have hb := layout_eq
  have hbounds := hk.bounds
  simp only [hbfsWriteSuperblock, yields_rules]
  refine (yields_ataWriteSector_of_nil ?_ ?_).mpr hQ
  · exact hk.faults
  · show hbfsSuperblockLba < k.ataTotalSectors
    omega

/-- The disk `hbfs_journal_recover` leaves: the records written back, then the resident superblock
with the marker cleared. -/
def recovered (d : Disk) (sb : Sector) (recs : List (Nat × Sector)) : Disk :=
  Function.update (afterWrites d recs) hbfsSuperblockLba (clearState sb)

/-- Recovery puts back every record of the log. -/
theorem yields_hbfsJournalRecover (he : k.journalEpoch < 2 ^ 32) (hk : k.Healthy)
    (hlog : LogHolds k.disk k.journalEpoch recs) (hdev : ∀ r ∈ recs, r.1 < k.ataTotalSectors)
    (hend : StopsScan (logEnd k.disk recs) k.journalEpoch) (hQ : ∀ header, Q () { k with
      disk := recovered k.disk k.superBuf recs
      trace := k.trace ++ recs ++ [(hbfsSuperblockLba, clearState k.superBuf)]
      blkCacheTags := fun _ => 0
      superBuf := clearState k.superBuf
      jrnlBuf := header
      journalDirty := false
      journalDepth := 0
      journalFailed := false
      journalPtr := 0
      dirCacheLba := dirCacheNone }) : Yields hbfsJournalRecover Q k := by
  have hb := layout_eq
  have hfits := hlog.fits
  simp only [hbfsJournalRecover, yields_bind]
  refine yields_recoverScan_from he hk hlog hdev hend recs.length 0 hbfsJournalSects
    (by omega) (by omega) fun header tags => ?_
  simp only [drop_zero, yields_rules]
  exact yields_hbfsWriteSuperblock { hk with } (hQ header)

theorem commitMarker_type (buf : Sector) (epoch : Nat) :
    (commitMarker buf epoch).dword recType = hbfsJrnlTCommit := by
  unfold commitMarker
  rw [Sector.dword_setDword_of_disjoint _ (by decide) _ (by decide),
    Sector.dword_setDword_of_disjoint _ (by decide) _ (by decide),
    Sector.dword_setDword _ (by decide)]
  rfl

/-! ## Mounting -/

section Mount

variable {total : Nat} {d : Disk}

/-- A mount changes the disk as `hbfs_init_journal` does. -/
theorem mountedDisk_eq (hroom : hbfsJournalLba + hbfsJournalSects ≤ total) :
    mountedDisk total d = (hbfsInitJournal.run
      { disk := d, ataTotalSectors := total, superBuf := d hbfsSuperblockLba }).2.disk := by
  have hb := layout_eq
  have hrun : Yields mountJournal (fun _ k => k.disk = (hbfsInitJournal.run
      { disk := d, ataTotalSectors := total, superBuf := d hbfsSuperblockLba }).2.disk)
      { disk := d, ataTotalSectors := total } := by
    simp only [mountJournal, yields_bind]
    refine (yields_ataReadSector_of_nil rfl ?_).mpr ?_
    · show hbfsSuperblockLba < total
      omega
    · rfl
  exact hrun

/-- A clean volume is mounted as it is. -/
theorem mountedDisk_clean (hroom : hbfsJournalLba + hbfsJournalSects ≤ total)
    (hst : (d hbfsSuperblockLba).dword hbfsSbJrnlState ≠ 1) : mountedDisk total d = d := by
  rw [mountedDisk_eq hroom]
  have hrun : Yields hbfsInitJournal (fun _ k => k.disk = d)
      { disk := d, ataTotalSectors := total, superBuf := d hbfsSuperblockLba } := by
    simp only [hbfsInitJournal, yields_rules]
    rw [if_neg hst]
    trivial
  exact hrun

/-- A volume with an open transaction is recovered with the superblock read before. -/
theorem mountedDisk_dirty (hroom : hbfsJournalLba + hbfsJournalSects ≤ total)
    (hst : (d hbfsSuperblockLba).dword hbfsSbJrnlState = 1)
    (hlog : LogHolds d ((d hbfsSuperblockLba).dword hbfsSbJrnlEpoch) recs)
    (hdev : ∀ r ∈ recs, r.1 < total)
    (hend : StopsScan (logEnd d recs) ((d hbfsSuperblockLba).dword hbfsSbJrnlEpoch)) :
    mountedDisk total d = recovered d (d hbfsSuperblockLba) recs := by
  rw [mountedDisk_eq hroom]
  have hrun : Yields hbfsInitJournal
      (fun _ k => k.disk = recovered d (d hbfsSuperblockLba) recs)
      { disk := d, ataTotalSectors := total, superBuf := d hbfsSuperblockLba } := by
    simp only [hbfsInitJournal, yields_rules]
    rw [if_pos hst]
    refine yields_hbfsJournalRecover (Sector.dword_lt _ _) ⟨rfl, hroom⟩ hlog hdev hend ?_
    intro header
    rfl
  exact hrun

end Mount

end Mellivora
