import Mellivora.Kernel.Proofs.ExtentProofs
import Mellivora.Kernel.Proofs.FittingProofs

/-!
# Saving a directory on a device that works

`hbfs_save_root_dir` writes the sectors of the buffer that differ from the shadow. On a device that
reports no error it goes through exactly when the log has room for them.
-/

namespace Mellivora

open WriteLog Outcome Finset

variable {targets : Finset Nat} {k k1 k2 k' : Kernel} {b : Disk} {logged : Finset Nat}

/-! ## The directory in the buffer -/

section Held

open Buffer List

variable {slot : Nat}

/-- The current directory is in the buffer, as it is on the disk. -/
structure DirHeld (k : Kernel) : Prop where
  tag : k.currentDirLba = k.dirCacheLba ∧ k.currentDirSects = k.dirCacheSects
  buf : ∀ i < 512 * k.currentDirSects, k.dirBuf i = k.diskDir i
  shadow : ∀ i < 512 * k.currentDirSects, k.dirShadow i = k.diskDir i

/-- The shadow is what the disk holds. -/
theorem shadowExact_iff {lba sects : Nat} :
    ShadowExact lba sects k ↔ ∀ i < 512 * sects, k.dirShadow i = Buffer.ofDisk k.disk lba i := by
  constructor
  · intro h i hi
    refine eq_of_sector ?_
    rw [sector_ofDisk]
    exact h _ (by omega)
  · intro h i hi
    rw [← sector_ofDisk k.disk lba i]
    exact sector_congr fun m h1 h2 => h m (by omega)

theorem stampedDir_apply (k : Kernel) {i : Nat} (hsects : 0 < k.currentDirSects)
    (hi : i < 512 * k.currentDirSects - hbfs4RunChecksumBytes) : k.stampedDir i = k.dirBuf i := by
  have hb := layout_eq
  unfold Kernel.stampedDir
  split
  · exact stampRun_apply _ (.inl hi) (by omega)
  · rfl

/-! ## The ledger -/

/-- The ledger changes and nothing else. -/
def QuotaOnly (k k' : Kernel) : Prop := ∃ q : QuotaState, k' = { k with toQuotaState := q }

theorem quotaOnly_quotaSlot (k : Kernel) (uid : Nat) :
    Yields (quotaSlot uid) (fun _ k' => QuotaOnly k k') k := by
  simp only [quotaSlot, yields_rules]
  split
  · exact ⟨k.toQuotaState, rfl⟩
  split
  · exact ⟨k.toQuotaState, rfl⟩
  · exact ⟨_, rfl⟩

theorem quotaOnly_quotaChange (k : Kernel) (uid : Nat) (change : Nat → Nat) :
    Yields (quotaChange uid change) (fun _ k' => QuotaOnly k k') k := by
  simp only [quotaChange, yields_bind]
  refine (quotaOnly_quotaSlot k uid).mono ?_
  rintro slot k1 ⟨q, hq⟩
  subst hq
  cases slot with
  | none => exact ⟨q, rfl⟩
  | some slot => exact ⟨_, rfl⟩

theorem quotaOnly_releaseEntry (k : Kernel) (slot : Nat) :
    Yields (releaseEntry slot) (fun _ k' => QuotaOnly k k') k := by
  simp only [releaseEntry, yields_rules]
  split
  · exact quotaOnly_quotaChange k _ _
  · exact ⟨k.toQuotaState, rfl⟩

theorem entryEnd_le {sects slot : Nat} (hslot : slot < maxEntries sects) :
    hbfsDirEntrySize * slot + hbfsDirEntrySize ≤ 512 * sects := by
  have hsize : hbfsDirEntrySize = 288 := rfl
  unfold maxEntries at hslot
  rw [hsize] at hslot ⊢
  omega

theorem hbfsFindFile_some {name : Name} (h : hbfsFindFile k name = some slot) :
    slot < maxEntries k.currentDirSects ∧ k.dirBuf.holdsName name slot = true :=
  ⟨List.mem_range.mp (mem_of_find?_eq_some h), find?_some h⟩

end Held

/-! ## The sectors that are written -/

/-- The sectors from the `i`-th on, `cnt` of them, in which the two buffers differ. -/
def dirtySectors (buf shadow : Buffer) (lba i cnt : Nat) : Finset Nat :=
  ((Finset.Ico i (i + cnt)).filter fun m => buf.sector m ≠ shadow.sector m).image (lba + ·)

/-- The sectors that a save of the directory writes. -/
def Kernel.dirTargets (k : Kernel) : Finset Nat :=
  dirtySectors k.stampedDir k.dirShadow k.currentDirLba 0 k.currentDirSects

section Dirty

variable {buf shadow shadow' : Buffer} {lba i cnt : Nat}

theorem mem_dirtySectors {a : Nat} : a ∈ dirtySectors buf shadow lba i cnt ↔
    ∃ m, i ≤ m ∧ m < i + cnt ∧ buf.sector m ≠ shadow.sector m ∧ lba + m = a := by
  simp only [dirtySectors, mem_image, mem_filter, mem_Ico]
  constructor
  · grind
  · grind

theorem dirtySectors_of_eq (h : buf.sector i = shadow.sector i) :
    dirtySectors buf shadow lba i (cnt + 1) = dirtySectors buf shadow lba (i + 1) cnt := by
  ext a
  simp only [mem_dirtySectors]
  constructor
  · grind
  · grind

/-- A sector that differs is one to write. -/
theorem dirtySectors_of_ne (h : buf.sector i ≠ shadow.sector i)
    (hshadow : ∀ m, i < m → shadow'.sector m = shadow.sector m) :
    dirtySectors buf shadow lba i (cnt + 1) = {lba + i} ∪ dirtySectors buf shadow' lba
    (i + 1) cnt := by
  ext a
  simp only [mem_union, mem_singleton, mem_dirtySectors]
  constructor
  · grind
  · grind

end Dirty

/-! ## The loop -/

theorem Ongoing.setDir (h : Ongoing b logged k) (dir : DirState) :
    Ongoing b logged { k with toDirState := dir } := by
  refine ⟨{ h.healthy with }, fun hj => ?_⟩
  obtain ⟨hfailed, recs, hlog, hlogged⟩ := h.log hj
  exact ⟨hfailed, recs, hlog.congr hj rfl rfl, hlogged⟩

/-- One sector of a save. The shadow is changed only afterwards. -/
theorem Ongoing.yields_saveSector (h : Ongoing b logged k) {lba i : Nat} (ht : ¬ InLog (lba + i))
    (ht32 : lba + i < 2 ^ 32) (hdevice : lba + i < k.ataTotalSectors) :
    Yields (hbfsJournalLogSector (lba + i)) (fun cf k1 =>
      if cf then Fitted b logged {lba + i} k.journalled true k1
      else Yields (ataWriteSectors (lba + i) [k1.dirBuf.sector i])
        (fun cf k2 => Fitted b logged {lba + i} k.journalled cf k2 ∧ SameButLog k k2) k1) k := by
  have hstep : Yields (logAndWrite (lba + i) (.memory k.dirBuf) i)
      (fun cf k2 => Fitted b logged {lba + i} k.journalled cf k2 ∧ SameButLog k k2) k := by
    refine ((h.yields_logAndWrite (.memory k.dirBuf) ht ht32 hdevice).and
      (wrote_logAndWrite k (lba + i) (.memory k.dirBuf) i)).mono ?_
    rintro cf k2 ⟨hfit, hwrote⟩
    refine ⟨hfit, ?_⟩
    cases cf with
    | true => exact hwrote.same
    | false =>
      obtain ⟨s, -, hwrote⟩ := hwrote
      exact hwrote.same
  simp only [logAndWrite, yields_rules] at hstep
  refine (hstep.and (wrote_logSector k (lba + i))).mono ?_
  rintro cf k1 ⟨htried, hwrote⟩
  have hdir : k1.dirBuf = k.dirBuf := congrArg DirState.dirBuf hwrote.same.dir
  rw [hdir]
  cases cf with
  | true => exact htried.1
  | false => exact htried

/-- A directory that lies on the device, apart from the superblock, the bitmap and the log. -/
structure DirSafe (lba sects total : Nat) : Prop where
  log : ∀ i < sects, ¬ InLog (lba + i)
  resident : ∀ i < sects, lba + i ≠ hbfsSuperblockLba
  bitmap : ∀ i < sects, ¬ InBitmap (lba + i)
  address : lba + sects ≤ 2 ^ 32
  device : lba + sects ≤ total

theorem Fitted.weaken {targets' : Finset Nat} {j : Bool} (h : Fitted b logged targets j true k')
    (hsub : targets ⊆ targets') : Fitted b logged targets' j true k' := by
  obtain ⟨hj, hfull, hstuck⟩ := h
  exact ⟨hj, lt_of_lt_of_le hfull (card_le_card (union_subset_union_right hsub)), hstuck⟩

theorem Fitted.trans {targets' : Finset Nat} {j cf : Bool}
    (h : Fitted b (logged ∪ targets) targets' j cf k') :
    Fitted b logged (targets ∪ targets') j cf k' := by
  unfold Fitted at h ⊢
  rwa [← union_assoc]

/-- The loop logs and writes the sectors that differ. -/
theorem Ongoing.yields_saveLoop {lba cnt i : Nat} (h : Ongoing b logged k)
    (hsafe : DirSafe lba (i + cnt) k.ataTotalSectors) : Yields (saveLoop lba cnt i)
      (Fitted b logged (dirtySectors k.dirBuf k.dirShadow lba i cnt) k.journalled) k := by
  induction cnt generalizing k logged i with
  | zero =>
    have hempty : dirtySectors k.dirBuf k.dirShadow lba i 0 = ∅ := by simp [dirtySectors]
    rw [hempty]
    refine ⟨fun hj => ?_, ?_⟩
    · obtain ⟨-, recs, hlog, hlogged⟩ := h.log hj
      rw [union_empty, ← hlogged]
      exact hlog.room
    · rw [union_empty]
      exact h
  | succ cnt ih =>
  have haddress := hsafe.address
  have hdevice := hsafe.device
  have hrest : DirSafe lba (i + 1 + cnt) k.ataTotalSectors := by grind
  simp only [saveLoop, yields_rules]
  by_cases heq : k.dirBuf.sector i = k.dirShadow.sector i
  · rw [if_pos heq, dirtySectors_of_eq heq]
    exact ih h hrest
  rw [if_neg heq]
  have hfails : ∀ k2, Fitted b logged {lba + i} k.journalled true k2 →
      Fitted b logged (dirtySectors k.dirBuf k.dirShadow lba i (cnt + 1)) k.journalled true k2 :=
      fun k2 h2 =>
    h2.weaken (by
      rw [dirtySectors_of_ne heq fun _ _ => rfl]
      exact subset_union_left)
  refine (h.yields_saveSector (hsafe.log i (by omega)) (by omega) (by omega)).check hfails
    fun k1 h1 => ?_
  rw [if_neg Bool.false_ne_true] at h1
  refine h1.check (fun k2 h2 => hfails k2 h2.1) ?_
  rintro k2 ⟨⟨_, hongoing⟩, hsame⟩
  set k3 : Kernel := { k2 with dirShadow := k2.dirShadow.putSector i (k2.dirBuf.sector i) } with hk3
  have hbuf : k3.dirBuf = k.dirBuf :=
    show k2.dirBuf = k.dirBuf from congrArg DirState.dirBuf hsame.dir
  have hj : k3.journalled = k.journalled := hsame.journalled
  have hshadow : ∀ m, i < m → k3.dirShadow.sector m = k.dirShadow.sector m := by
    intro m hm
    rw [← congrArg DirState.dirShadow hsame.dir]
    exact sector_putSector_of_ne _ _ (by omega)
  have hsafe3 : DirSafe lba (i + 1 + cnt) k3.ataTotalSectors := by
    rw [show k3.ataTotalSectors = k.ataTotalSectors from hsame.total]
    exact hrest
  have hongoing3 : Ongoing b (logged ∪ {lba + i}) k3 := hongoing.setDir _
  refine (ih hongoing3 hsafe3).mono fun cf k' h' => ?_
  rw [hbuf, hj] at h'
  rw [dirtySectors_of_ne heq hshadow]
  exact h'.trans

/-! ## The save -/

/-- The directory has been saved. -/
structure DirStored (k k' : Kernel) : Prop where
  steady : Steady k'
  depth : k'.journalDepth = k.journalDepth
  saved : DirSaved k k'
  resident : SameOutsideJournal k'.superBuf k.superBuf
  onDisk : k'.disk hbfsSuperblockLba = k.disk hbfsSuperblockLba ∨
    SameOutsideJournal (k'.disk hbfsSuperblockLba) k.superBuf
  logged : 0 < k.journalDepth → k'.loggedNow = k.loggedNow ∪ k.dirTargets

theorem DirSaved.bitmap (h : DirSaved k k')
    (hsafe : DirSafe k.currentDirLba k.currentDirSects k.ataTotalSectors)
    {s : Nat} (hs : s < hbfsBitmapSects) : k'.disk (hbfsBitmapStart + s) =
    k.disk (hbfsBitmapStart + s) := by
  have hb := layout_eq
  refine h.disk _ (not_inLog_bitmap hs) (by omega) ?_
  rintro ⟨h1, h2⟩
  refine hsafe.bitmap (hbfsBitmapStart + s - k.currentDirLba) (by omega) ⟨by omega, by omega⟩

/-- The kernel `k1` with the directory of `k` in its buffer, ready to be written. -/
def Kernel.stampedIn (k k1 : Kernel) : Kernel :=
  { k1 with toDirState := { k.toDirState with dirBuf := k.stampedDir } }

theorem SameOutsideTx.stampedIn (h : SameOutsideTx k k1) :
    SameButShadow { k with dirBuf := k.stampedDir } (k.stampedIn k1) :=
  ⟨h.bitmap, h.extent, h.cwd, h.quota, h.caller, rfl, rfl, rfl, rfl, rfl, { h.geometry with }⟩

/-- A committed save has stored the directory. -/
theorem DirStored.of_committed (h : Steady k)
    (hsafe : DirSafe k.currentDirLba k.currentDirSects k.ataTotalSectors)
    (hopened : LogOpened b k k1)
    (hkept : LoopKept k.currentDirLba 0 k.currentDirSects (k.stampedIn k1) k2)
    (hcommit : Committed b (k.loggedNow ∪ k.dirTargets) k2 k') (hsaved : DirSaved k k') :
    DirStored k k' := by
  have hedge := hopened.edge
  obtain ⟨hready, hdepth, hlogged⟩ :=
    hcommit.closed h.toTxReady (hedge.same.geometry.trans { hkept.same.geometry with })
    (fun hj => hkept.depth.trans (hopened.depth hj)) fun hj => hkept.depth.trans (hopened.plain hj)
  refine ⟨⟨hready, ?_, fun hvalid => ?_⟩, hdepth, hsaved, ?_, ?_, hlogged⟩
  · rw [hsaved.same.geometry.totalBlocks]
    exact h.blocks
  · rw [hsaved.same.bitmap] at hvalid
    rw [bitmapLoaded_iff]
    intro s hs
    rw [hsaved.bitmap hsafe hs, hsaved.same.bitmap]
    exact bitmapLoaded_iff.mp (h.bitmap hvalid) s hs
  · exact hcommit.edge.same.superBuf.trans (hkept.resident.trans hedge.same.superBuf)
  · rcases hcommit.edge.onDisk with heq | hsame
    · have hdisk2 : k2.disk hbfsSuperblockLba = k1.disk hbfsSuperblockLba :=
        hkept.disk _ superblock_not_inLog fun ⟨h1, h2⟩ =>
          hsafe.resident (hbfsSuperblockLba - k.currentDirLba) (by omega) (by omega)
      rw [heq, hdisk2]
      exact hedge.onDisk
    · exact Or.inr (hsame.trans (hkept.resident.trans hedge.same.superBuf))

/-- A save stores the directory, or rolls back. -/
theorem Steady.yields_saveRootDir (h : Steady k)
    (hsafe : DirSafe k.currentDirLba k.currentDirSects k.ataTotalSectors)
    (hexact : ShadowExact k.currentDirLba k.currentDirSects k) :
    Yields hbfsSaveRootDir (fun cf k' => (cf = true → ¬ k.HasRoom k.dirTargets) ∧
      (cf = false → DirStored k k')) k := by
  simp only [hbfsSaveRootDir, hbfsRequireWritable, yields_rules]
  rw [if_neg (by simp [h.writable_eq])]
  refine h.toTxReady.yields_begin.mono ?_
  rintro _ k1 ⟨b, hopened⟩
  have hedge := hopened.edge
  have hdir : k1.toDirState = k.toDirState := hedge.same.dir
  have hstamped : k1.stampedDir = k.stampedDir := by
    unfold Kernel.stampedDir
    rw [hedge.same.geometry.isV4, hdir]
  have hstart : { k1 with dirBuf := k1.stampedDir } =
    k.stampedIn k1 := by rw [hstamped, Kernel.stampedIn, ← hdir]
  show Yields (saveLoop k1.currentDirLba k1.currentDirSects 0) _ { k1 with dirBuf := k1.stampedDir }
  rw [hstart, congrArg DirState.currentDirLba hdir, congrArg DirState.currentDirSects hdir]
  have hongoing : Ongoing b k.loggedNow (k.stampedIn k1) := hopened.ongoing.setDir _
  have hsafe1 : DirSafe k.currentDirLba (0 + k.currentDirSects)
    (k.stampedIn k1).ataTotalSectors := by
    have htotal : (k.stampedIn k1).ataTotalSectors = k.ataTotalSectors := hedge.same.total
    rw [Nat.zero_add, htotal]
    exact hsafe
  have hexact1 : ShadowExact k.currentDirLba k.currentDirSects (k.stampedIn k1) := by
    intro i hi
    show k.dirShadow.sector i = k1.disk (k.currentDirLba + i)
    rw [hedge.disk _ (hsafe.log i hi) (hsafe.resident i hi)]
    exact hexact i hi
  have hj1 : (k.stampedIn k1).journalled = k.journalled := hedge.same.geometry.journalled
  refine (((hongoing.yields_saveLoop hsafe1).and (kept_saveLoop _ _ _ 0)).and
    (yields_saveLoop_written hsafe.log
    (Nat.add_zero _) hexact1 (by simp))).mono ?_
  rintro cf k2 ⟨⟨hfitted, hkept⟩, hwritten⟩
  have hfitted : Fitted b k.loggedNow k.dirTargets (k.stampedIn k1).journalled cf k2 := hfitted
  cases cf with
  | true =>
    obtain ⟨hj, hfull, -⟩ := hfitted
    have hnot : ¬ k.HasRoom k.dirTargets :=
      fun hroom => absurd hfull (not_lt.mpr (hroom (hj1 ▸ hj)))
    rw [if_pos rfl]
    exact (abortKeeps_abort k2).mono fun _ _ _ => ⟨fun _ => hnot, by simp⟩
  | false =>
  obtain ⟨-, hongoing2⟩ := hfitted
  obtain ⟨hexact2, hall⟩ := hwritten rfl
  have hj2 : k2.journalled = k.journalled := hkept.same.geometry.journalled.trans hj1
  have hshadow : ∀ m < k.currentDirSects, k2.dirShadow.sector m = k.stampedDir.sector m :=
    fun m hm => by
    rw [hall m hm, hkept.same.dirBuf]
    rfl
  rw [if_neg Bool.false_ne_true]
  refine (hongoing2.yields_commit fun hj => ?_).mono fun _ k' hcommit => ⟨by simp, fun _ => ?_⟩
  · have hdepth2 : k2.journalDepth = k1.journalDepth := hkept.depth
    rw [hdepth2, hopened.depth (hj2 ▸ hj)]
    exact Nat.succ_pos _
  have hclose := hcommit.edge
  have hdir' : k'.dirShadow = k2.dirShadow := congrArg DirState.dirShadow hclose.same.dir
  refine DirStored.of_committed h hsafe hopened hkept hcommit
    ⟨(hedge.same.stampedIn.trans hkept.same).trans hclose.same.sameButShadow, fun m hm => ?_,
      fun m hm => ?_, ?_,
      fun _ => hcommit.healthy.faults⟩
  · rw [hdir', hshadow m hm]
  · rw [hclose.disk _ (hsafe.log m hm) (hsafe.resident m hm), ← hshadow m hm]
    exact (hexact2 m hm).symm
  · exact ((hedge.diskKept _).trans fun a ha _ => hkept.disk a ha).trans (hclose.diskKept _)

/-! ## One entry -/

theorem Kernel.hasRoom_of_card (h : k.loggedNow.card + targets.card ≤ journalRecords) :
    k.HasRoom targets := fun _ => (card_union_le _ _).trans h

/-- The change of one entry touches two sectors at most, and on a v4 volume the one with the
checksum. -/
theorem card_dirTargets_le (slot : Nat) (hsame : ∀ i < 512 * k.currentDirSects,
    (i < entryOff slot 0 ∨ entryOff slot 0 + hbfsDirEntrySize ≤ i) → k.dirBuf i = k.dirShadow i) :
    k.dirTargets.card ≤ 3 := by
  have hb := layout_eq
  have hsub :
    k.dirTargets ⊆ {k.currentDirLba + entryOff slot 0 / 512,
    k.currentDirLba + (entryOff slot 0 / 512 + 1),
      k.currentDirLba + (k.currentDirSects - 1)} := by
    intro a ha
    obtain ⟨m, -, hm, hne, rfl⟩ := mem_dirtySectors.mp ha
    simp only [mem_insert, mem_singleton, Nat.add_left_cancel_iff]
    by_contra hout
    refine hne (Buffer.sector_congr fun j hlow hhigh => ?_)
    rw [stampedDir_apply k (by omega) (by omega)]
    exact hsame j (by omega) (by omega)
  exact (card_le_card hsub).trans card_le_three

/-! ## A volume with a root directory -/

/-- A small volume with the root directory `dir`, just loaded; `used` is the third byte of its
bitmap, and no other block is allocated. -/
def rootVolume (dir : Buffer) (used : UInt8) : Kernel :=
  { smallVolume with
    disk := fun lba =>
      if hbfsRootDirStart ≤ lba ∧ lba < hbfsRootDirStart + hbfsRootDirSects then dir.sector
        (lba - hbfsRootDirStart)
      else if lba = hbfsBitmapStart then ⟨fun i => if i.val = 2 then used else 0⟩
      else smallVolume.disk lba
    dirBuf := dir
    dirShadow := dir
    dirCacheLba := hbfsRootDirStart
    dirCacheSects := hbfsRootDirSects }

section RootVolume

variable (dir : Buffer) (used : UInt8)

theorem rootVolume_steady : Steady (rootVolume dir used) := by
  have hbounds : hbfsJournalLba + hbfsJournalSects ≤ 20000 := by decide
  have hblocks : 1000 ≤ 8 * hbfsBitmapSize := by decide
  refine ⟨⟨⟨rfl, rfl⟩, ⟨rfl, hbounds⟩, fun hdepth => ?_⟩, hblocks, fun hvalid => ?_⟩
  · exact absurd hdepth (Nat.lt_irrefl 0)
  · exact absurd hvalid Bool.false_ne_true

theorem rootVolume_level : Level true 0 (rootVolume dir used) := by
  have hstate : (smallSuper 1000).dword hbfsSbJrnlState = 0 := by decide
  have hversion : hbfsVersionV2 ≤ (smallSuper 1000).dword sbVersion := by decide
  refine ⟨⟨rfl, rfl⟩, rfl, rfl, fun _ => hstate, fun _ => decide_eq_true hversion, fun hpos => ?_⟩
  exact absurd hpos (Nat.lt_irrefl 0)

theorem rootVolume_coherent : Coherent (rootVolume dir used) := coherent_of_empty fun _ _ => rfl

theorem rootVolume_dirSafe :
    DirSafe (rootVolume dir used).currentDirLba (rootVolume dir used).currentDirSects
    (rootVolume dir used).ataTotalSectors := by
  have hb := layout_eq
  show DirSafe hbfsRootDirStart hbfsRootDirSects 20000
  refine ⟨fun i hi => ?_, fun i hi => ?_, fun i hi => ?_, by omega, by omega⟩
  · rw [inLog_iff]
    omega
  · omega
  · rintro ⟨h1, h2⟩
    omega

theorem rootVolume_dir {i : Nat} (hi : i < hbfsRootDirSects) :
    (rootVolume dir used).disk (hbfsRootDirStart + i) = dir.sector i := by
  simp only [rootVolume]
  rw [if_pos ⟨by omega, by omega⟩, Nat.add_sub_cancel_left]

theorem rootVolume_shadowExact : ShadowExact (rootVolume dir used).currentDirLba
    (rootVolume dir used).currentDirSects (rootVolume dir used) :=
    fun _ hi => (rootVolume_dir dir used hi).symm

theorem rootVolume_bit {m : Nat} (h : 16 ≤ m ∧ m < 24) :
    (diskBitmap (rootVolume dir used).disk).bit m = used.toNat.testBit (m % 8) := by
  have hsector : m / 8 / 512 = 0 := by omega
  have hbyte : m / 8 % 512 = 2 := by omega
  have hstart :
    ¬ (hbfsRootDirStart ≤ hbfsBitmapStart ∧
    hbfsBitmapStart < hbfsRootDirStart + hbfsRootDirSects) := by
    decide
  simp only [Buffer.bit, diskBitmap, Buffer.ofDisk, hsector, Nat.add_zero, rootVolume,
    if_neg hstart, if_pos, hbyte]

theorem rootVolume_bitmapBits : (rootVolume dir used).bitmapBits = 8 * hbfsBitmapSize := by
  have hv4 : (rootVolume dir used).isV4 = false := by
    show ((smallSuper 1000).dword 0 == hbfs4Magic) = false
    decide
  rw [Kernel.bitmapBits, if_neg (by simp [hv4])]

end RootVolume

end Mellivora
