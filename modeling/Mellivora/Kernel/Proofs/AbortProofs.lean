import Mellivora.Kernel.Proofs.CoherenceProofs
import Mellivora.Kernel.Proofs.RecoverProofs
import Mellivora.Kernel.Proofs.MetaWriteProofs

/-!
# Rolling a transaction back

`hbfs_journal_abort` seals the log with a commit marker, so that the scan ends where the transaction
has got to, writes the logged sectors back and then writes the resident superblock, with the marker
cleared, over the one the scan has restored.
-/

namespace Mellivora

open WriteLog Outcome Function

variable {b : Disk} {recs : List (Nat × Sector)} {k : Kernel}

/-- The kernel after a transaction that began on the disk `b` is rolled back. -/
structure Aborted (b : Disk) (k k' : Kernel) : Prop where
  disk : ∀ lba, ¬ InLog lba → lba ≠ hbfsSuperblockLba → k'.disk lba = b lba
  onDisk : k'.disk hbfsSuperblockLba = k'.superBuf
  superBuf : k'.superBuf = clearState (clearState k.superBuf)
  mounted : k'.mounted = k.mounted
  readOnly : k'.readOnly = k.readOnly
  totalBlocks : k'.totalBlocks = k.totalBlocks
  depth : k'.journalDepth = 0
  dirty : k'.journalDirty = false
  bitmapBuf : k'.bitmapBuf = k.bitmapBuf
  bitmapValid : k'.bitmapValid = false
  dirBuf : k'.dirBuf = k.dirBuf
  dirCacheLba : k'.dirCacheLba = dirCacheNone
  total : k'.ataTotalSectors = k.ataTotalSectors
  faults : k'.faults = []

/-- Undoing the records of a transaction brings back the disk it began on. -/
theorem LogInv.undone (h : LogInv b ∅ recs k) {d : Disk} (hd : OutsideEq d k.disk) {lba : Nat}
    (hlba : ¬ InLog lba) : afterWrites d recs lba = b lba := by
  by_cases hmem : lba ∈ recs.map Prod.fst
  · obtain ⟨r, hr, rfl⟩ := List.mem_map.mp hmem
    rw [afterWrites_of_mem_nodup _ h.nodup hr, h.pre r hr]
  · rw [afterWrites_of_notMem _ hmem, hd lba hlba, h.untouched lba hlba (by simp) hmem]

/-- The kernel after the records `recs` of its log have been undone. -/
structure Undone (recs : List (Nat × Sector)) (k k' : Kernel) : Prop where
  disk : ∃ d, OutsideEq d k.disk ∧ ∀ lba, lba ≠ hbfsSuperblockLba →
    k'.disk lba = afterWrites d recs lba
  onDisk : k'.disk hbfsSuperblockLba = k'.superBuf
  superBuf : k'.superBuf = clearState (clearState k.superBuf)
  mounted : k'.mounted = k.mounted
  readOnly : k'.readOnly = k.readOnly
  totalBlocks : k'.totalBlocks = k.totalBlocks
  depth : k'.journalDepth = 0
  dirty : k'.journalDirty = false
  ptr : k'.journalPtr = 0
  epochLt : k'.journalEpoch < 2 ^ 32
  bitmapBuf : k'.bitmapBuf = k.bitmapBuf
  bitmapValid : k'.bitmapValid = false
  dirBuf : k'.dirBuf = k.dirBuf
  dirCacheLba : k'.dirCacheLba = dirCacheNone
  total : k'.ataTotalSectors = k.ataTotalSectors
  faults : k'.faults = []

/-- An abort puts back what the log keeps. -/
theorem yields_abort_of_log (hj : k.journalled = true) (hepoch : k.journalEpoch < 2 ^ 32)
    (hptr : k.journalPtr = 2 * recs.length) (hlog : LogHolds k.disk k.journalEpoch recs)
    (hdevice : ∀ r ∈ recs, r.1 < k.ataTotalSectors) (hk : k.Healthy) :
    Yields hbfsJournalAbort (fun _ k' => Undone recs k k') k := by
  have hb := layout_eq
  have hfits := hlog.fits
  have hbounds := hk.bounds
  have hin : InLog (hbfsJournalLba + k.journalPtr) := by
    rw [hptr]
    exact inLog_logEnd hfits
  simp only [hbfsJournalAbort, writeCommitMarker, yields_rules]
  rw [if_neg (by simp [hj]), if_pos (by omega)]
  refine (yields_ataWriteSector_of_nil ?_ ?_).mpr ?_
  · exact hk.faults
  · show hbfsJournalLba + k.journalPtr < k.ataTotalSectors
    omega
  have hpast : hbfsJournalLba + 2 * recs.length ≤ hbfsJournalLba + k.journalPtr := by omega
  have hlog := hlog.update_past hpast (commitMarker k.jrnlBuf k.journalEpoch)
  refine yields_hbfsJournalRecover ?_ ?_ hlog ?_ ?_ fun header => ?_
  · exact hepoch
  · exact { hk with }
  · exact hdevice
  · refine Or.inr ?_
    rw [logEnd, Kernel.put_disk, ← hptr, update_self]
    exact commitMarker_type _ _
  refine (yields_ataReadSector_of_nil ?_ ?_).mpr ?_
  · exact hk.faults
  · show hbfsSuperblockLba < k.ataTotalSectors
    omega
  simp only [yields_rules]
  refine yields_hbfsWriteSuperblock { hk with } ?_
  have hread : recovered (update k.disk (hbfsJournalLba + k.journalPtr)
      (commitMarker k.jrnlBuf k.journalEpoch)) k.superBuf recs hbfsSuperblockLba =
      clearState k.superBuf := update_self _ _ _
  simp only [Kernel.put, hread]
  refine ⟨⟨_, outsideEq_update hin k.disk (commitMarker k.jrnlBuf k.journalEpoch),
    fun lba hne => ?_⟩,
    by simp only [update_self], rfl, rfl, rfl, rfl, rfl, rfl, rfl, Sector.dword_lt _ _, rfl, rfl,
    rfl, rfl, rfl, hk.faults⟩
  exact (update_of_ne hne _ _).trans (update_of_ne hne _ _)

/-- An abort restores the volume as it was at the begin. -/
theorem LogInv.yields_abort (h : LogInv b ∅ recs k) (hk : k.Healthy) :
    Yields hbfsJournalAbort (fun _ k' => Aborted b k k') k := by
  refine (yields_abort_of_log h.journalled h.epochLt h.ptr h.log h.onDevice hk).mono
    fun _ k' h' => ?_
  obtain ⟨d, hd, hdisk⟩ := h'.disk
  refine { h' with disk := fun lba hlba hne => ?_ }
  rw [hdisk lba hne]
  exact h.undone hd hlba

/-! ## What a rollback leaves alone -/

/-- The variables of the directory, the run list, the path, the ledger and the caller are the same,
but for the tag of the directory buffer. -/
structure AbortKeeps (k k' : Kernel) : Prop where
  extent : k'.toExtentState = k.toExtentState
  cwd : k'.toCwdState = k.toCwdState
  quota : k'.toQuotaState = k.toQuotaState
  caller : k'.toCallerState = k.toCallerState
  dirBuf : k'.dirBuf = k.dirBuf
  dirShadow : k'.dirShadow = k.dirShadow
  currentDirLba : k'.currentDirLba = k.currentDirLba
  currentDirSects : k'.currentDirSects = k.currentDirSects

theorem AbortKeeps.refl (k : Kernel) : AbortKeeps k k := ⟨rfl, rfl, rfl, rfl, rfl, rfl, rfl, rfl⟩

theorem AbortKeeps.trans {k1 k2 : Kernel} (h : AbortKeeps k k1) (h' : AbortKeeps k1 k2) :
    AbortKeeps k k2 := by
  cases h; cases h'
  constructor <;> simp only [*]

theorem IoOnly.abortKeeps {k' : Kernel} (h : IoOnly k k') : AbortKeeps k k' := by
  refine ⟨h.extent, h.cwd, h.quota, h.caller, ?_, ?_, ?_, ?_⟩ <;> rw [h.dir]

theorem rollbackKeeps (k : Kernel) : RollbackKeeps (AbortKeeps k) where
  write lba s k1 h1 := (io_ataWriteSectors k1 lba [s]).mono fun _ _ hio => h1.trans hio.abortKeeps
  read lba k1 h1 := (io_ataReadSector k1 lba).mono fun _ _ hio => h1.trans hio.abortKeeps
  stable := by
    intro k1 k2 _ _ haside h
    simp only [Kernel.aside, Prod.mk.injEq] at haside
    obtain ⟨hextent, hcwd, hquota, hcaller, hbuf, hshadow, hlba, hsects⟩ := haside
    exact h.trans ⟨hextent, hcwd, hquota, hcaller, hbuf, hshadow, hlba, hsects⟩

theorem abortKeeps_abort (k : Kernel) : Yields hbfsJournalAbort (fun _ k' => AbortKeeps k k') k :=
  (rollbackKeeps k).abort k (AbortKeeps.refl k)

end Mellivora
