import Mellivora.Kernel.Removal
import Mellivora.Kernel.Proofs.DirectoryProofs

/-!
# What the scan of `sys_rmdir` sees

The scan is right about a directory that is empty, and about one where it comes upon something.
-/

namespace Mellivora

open Outcome

variable {k : Kernel}

/-! ## The bytes of a block -/

theorem dirBytes_apply (d : Disk) (start b : Nat) {i : Nat} (hi : i < hbfsBlockSize) :
    dirBytes d start (hbfsBlockSize * b + i) = Buffer.ofDisk d (blockLba (start + b)) i := by
  have hpos : 0 < hbfsBlockSize := by decide
  unfold dirBytes
  rw [Nat.mul_add_div hpos, Nat.div_eq_of_lt hi, Nat.mul_add_mod, Nat.mod_eq_of_lt hi, Nat.add_zero]

theorem entryOff_lt_block {i : Nat} (hi : i < hbfsBlockSize / hbfsDirEntrySize) :
    entryOff i deType < hbfsBlockSize := by
  have hsize : hbfsBlockSize = 4096 := rfl
  have hentry : hbfsDirEntrySize = 288 := rfl
  have htype : deType = 253 := rfl
  rw [hsize, hentry] at hi
  rw [entryOff, hsize, hentry, htype]
  omega

/-- The scan of a block as the disk has it. -/
theorem blockInUse_load (d : Disk) (lba : Nat) :
    blockInUse (Buffer.load (fun _ => 0) (sectorsAt d lba hbfsSectorsPerBlk)) = false ↔
      ∀ i < hbfsBlockSize / hbfsDirEntrySize, Buffer.ofDisk d lba (entryOff i deType) =
      ftypeFree := by
  have hblock : hbfsBlockSize = 512 * hbfsSectorsPerBlk := rfl
  unfold blockInUse
  rw [List.any_eq_false]
  refine forall_congr' fun i => ?_
  rw [List.mem_range]
  refine imp_congr_right fun hi => ?_
  have hlt : entryOff i deType < 512 * hbfsSectorsPerBlk := hblock ▸ entryOff_lt_block hi
  rw [Buffer.entryType, load_sectorsAt _ _ hlt, bne_iff_ne, not_not]

/-! ## The scan -/

/-- The scan lets a directory pass only when it has looked at all blocks and found nothing. -/
theorem yields_rmdirScan (hk : Coherent k) (left block : Nat) :
    Yields (rmdirScan left block) (fun used _ => used = false → ∀ b < left,
      ∀ i < hbfsBlockSize / hbfsDirEntrySize,
        Buffer.ofDisk k.disk (blockLba (block + b)) (entryOff i deType) = ftypeFree) k := by
  induction left generalizing k block with
  | zero =>
    intro _ b hb
    exact absurd hb (Nat.not_lt_zero b)
  | succ left ih =>
  simp only [rmdirScan, yields_rules]
  refine (hk.yields_readBlock (blockLba block)).mono fun r k1 hread => ?_
  split
  · nofun
  next hfree =>
  rw [Bool.or_eq_true, not_or, Bool.not_eq_true, Bool.not_eq_true] at hfree
  obtain ⟨hk1, hdisk, hdata⟩ := hread hfree.1
  have hfirst := hfree.2
  rw [hdata hfree.1, blockInUse_load] at hfirst
  refine (ih hk1 (block + 1)).mono fun used _ hrest hused b hb i hi => ?_
  cases b with
  | zero => exact hfirst i hi
  | succ b => grind

/-- On a device that works the scan lets a directory pass in which it finds nothing. -/
theorem yields_rmdirScan_of_free (hk : Coherent k) (hf : k.faults = []) (left block : Nat)
    (hbounds : ∀ b < left, blockLba (block + b) + hbfsSectorsPerBlk ≤ k.ataTotalSectors)
    (hfree : ∀ b < left, ∀ i < hbfsBlockSize / hbfsDirEntrySize,
      Buffer.ofDisk k.disk (blockLba (block + b)) (entryOff i deType) = ftypeFree) :
    Yields (rmdirScan left block) (fun used _ => used = false) k := by
  induction left generalizing k block with
  | zero => exact yields_pure.mpr rfl
  | succ left ih =>
  simp only [rmdirScan, yields_rules]
  have hworks := (yields_readBlock_of_nil hf (hbounds 0 (Nat.succ_pos left))).and
    (yields_blkCacheRead_of_nil hf (blockLba block) hbfsSectorsPerBlk)
  refine ((hk.yields_readBlock (blockLba block)).and hworks).mono fun r k1 ⟨hread, hcf, c, hc⟩ => ?_
  obtain ⟨hk1, -, hdata⟩ := hread hcf
  have hfirst := (blockInUse_load k.disk (blockLba block)).mpr (hfree 0 (Nat.succ_pos left))
  rw [hcf, hdata hcf, hfirst]
  refine Yields.mono (ih (k := k1) hk1 ?_ (block + 1) ?_ ?_) fun _ _ hused => hused
  · rw [hc]
    exact hf
  · grind
  · grind

/-! ## The call -/

/-- What loading the directory leaves alone. -/
structure DirLoaded (k k' : Kernel) : Prop where
  disk : k'.disk = k.disk
  cache : k'.toBlkCache = k.toBlkCache
  total : k'.ataTotalSectors = k.ataTotalSectors
  faults : k.faults = [] → k'.faults = []

/-- Loading leaves the disk alone. -/
theorem yields_loadRootDir_kept (k : Kernel) :
    Yields hbfsLoadRootDir (fun _ k' => DirLoaded k k') k := by
  simp only [hbfsLoadRootDir, yields_rules]
  split
  · exact ⟨rfl, rfl, rfl, id⟩
  split
  · exact ⟨rfl, rfl, rfl, id⟩
  have hread : Yields (ataReadSectors k.currentDirLba k.currentDirSects)
    (fun _ k' => DirLoaded k k')
      { k with dirBuf := k.dirBuf.clear 0 hbfsRootDirSize } := by
    by_cases hf : k.faults = []
    · refine yields_ataReadSectors_of_nil ?_ (fun _ => ⟨rfl, rfl, rfl, id⟩) fun _ =>
        ⟨rfl, rfl, rfl, id⟩
      exact hf
    · exact yields_ataReadSectors (fun _ => ⟨rfl, rfl, rfl, id⟩)
        (fun _ _ _ => ⟨rfl, rfl, rfl, fun h => absurd h hf⟩)
        fun _ _ _ _ => ⟨rfl, rfl, rfl, fun h => absurd h hf⟩
  refine hread.mono fun r k1 h => ?_
  split
  · exact { h with }
  split
  · exact { h with }
  · exact { h with }

theorem DirLoaded.coherent {k' : Kernel} (h : DirLoaded k k') (hk : Coherent k) : Coherent k' := by
  intro i hi htag j hj
  have hcached : k'.cachedLba i j = k.cachedLba i j := by
    unfold Kernel.cachedLba
    rw [h.cache]
  rw [hcached, h.disk, h.cache]
  rw [h.cache] at htag
  exact hk i hi htag j hj

/-- The scan finds something exactly when one of the blocks, taken by itself, shows an entry. -/
theorem not_scanFinds_iff (d : Disk) (start : Nat) :
    ¬ (dirBytes d start).ScanFinds ↔ ∀ b < hbfsSubdirBlocks, ∀ i < hbfsBlockSize / hbfsDirEntrySize,
      Buffer.ofDisk d (blockLba (start + b)) (entryOff i deType) = ftypeFree := by
  unfold Buffer.ScanFinds
  constructor
  · intro h b hb i hi
    by_contra hne
    refine h ⟨b, hb, i, hi, ?_⟩
    rwa [dirBytes_apply d start b (entryOff_lt_block hi)]
  · rintro h ⟨b, hb, i, hi, hne⟩
    rw [dirBytes_apply d start b (entryOff_lt_block hi)] at hne
    exact hne (h b hb i hi)

theorem dirLoaded_kept (k : Kernel) : DirLoaded k k.dirLoaded := yields_loadRootDir_kept k

theorem yields_loadRootDir_eq (k : Kernel) :
    Yields hbfsLoadRootDir (fun _ k1 => k1 = k.dirLoaded) k := rfl

theorem dirLoaded_of_cached (hmounted : k.mounted = true) (hlba : k.currentDirLba = k.dirCacheLba)
    (hsects : k.currentDirSects = k.dirCacheSects) : k.dirLoaded = k := by
  have hsame : Yields hbfsLoadRootDir (fun _ k' => k' = k) k := by
    simp only [hbfsLoadRootDir, yields_rules]
    rw [if_neg (by simp [hmounted]), if_pos ⟨hlba, hsects⟩]
    trivial
  exact hsame

/-- A directory that `sys_rmdir` removes is one in which its scan finds nothing. -/
theorem yields_sysRmdir_not_scanFinds (hk : Coherent k) (name : Name) :
    k.Asked name fun start =>
      Yields (sysRmdir name) (fun cf _ => cf = false → ¬ (dirBytes k.disk start).ScanFinds) k := by
  intro slot hslot hcount
  have hkept := dirLoaded_kept k
  simp only [sysRmdir, hbfsRequireWritable, yields_rules]
  split
  · simp
  refine (yields_loadRootDir_eq k).mono fun _ k1 hk1 => ?_
  subst hk1
  rw [hslot]
  simp only [yields_rules]
  split
  · simp
  split
  · simp
  split
  · simp
  refine (yields_rmdirScan (hkept.coherent hk) _ _).mono fun used k2 hscan => ?_
  split
  · simp
  next hused =>
  refine yields_of_forall fun _ k3 => yields_of_forall fun _ k4 => yields_of_forall fun _ _ _ => ?_
  have hfree := hscan (by simpa using hused)
  rw [hcount, hkept.disk] at hfree
  exact (not_scanFinds_iff _ _).mpr hfree

/-- A directory that nothing else stands against is removed when the scan finds nothing. -/
theorem Kernel.Removable.yields_sysRmdir (hk : Coherent k) {name : Name} (h : k.Removable name)
    (hfree : k.Asked name fun start => ¬ (dirBytes k.disk start).ScanFinds) :
    Yields (sysRmdir name) (fun cf _ => cf = false) k := by
  have hkept := dirLoaded_kept k
  obtain ⟨slot, hslot, htype, haccess, hcount, hbounds⟩ := h.entry
  have hturns : signedTurns hbfsSubdirBlocks ≠ 0 := by decide
  simp only [sysRmdir, hbfsRequireWritable, yields_rules]
  rw [if_neg (by simp [h.mounted, h.writable])]
  refine (yields_loadRootDir_eq k).mono fun _ k1 hk1 => ?_
  subst hk1
  rw [hslot]
  simp only [yields_rules]
  have hnone := (not_scanFinds_iff _ _).mp (hfree slot hslot hcount)
  rw [if_neg (not_not.mpr htype), haccess, if_neg Bool.false_ne_true, hcount, if_neg hturns]
  refine (yields_rmdirScan_of_free (hkept.coherent hk) (hkept.faults h.faults) hbfsSubdirBlocks
    _ ?_ ?_).mono
    fun used k2 hused => ?_
  · intro b hb
    rw [hkept.total]
    exact hbounds b hb
  · intro b hb i hi
    rw [hkept.disk]
    exact hnone b hb i hi
  · rw [hused, if_neg Bool.false_ne_true]
    exact yields_of_forall fun _ _ => yields_of_forall fun _ _ =>
      yields_of_forall fun _ _ => trivial

/-! ## A directory with one entry -/

/-- A root directory whose first entry is the subdirectory `d` in the blocks from 4 on. -/
def parentDir : Buffer := fun i =>
  if i = 0 then 100 else if i = deType then ftypeDir else if i = deBlock then 4 else if i =
    deBlkcnt then 32 else 0

/-- A volume with the disk `d` and this directory in the buffer. -/
def subdirVolume (d : Disk) : Kernel :=
  { disk := d, ataTotalSectors := 20000, mounted := true, dirBuf := parentDir,
    dirCacheLba := hbfsRootDirStart, dirCacheSects := hbfsRootDirSects }

theorem subdirVolume_coherent (d : Disk) :
    Coherent (subdirVolume d) := coherent_of_empty fun _ _ => rfl

theorem subdirVolume_dirLoaded (d : Disk) : (subdirVolume d).dirLoaded = subdirVolume d :=
  dirLoaded_of_cached rfl rfl rfl

theorem parentDir_find :
    (List.range (maxEntries hbfsRootDirSects)).find? (parentDir.holdsName [100]) =
    some 0 := by decide

theorem parentDir_entry : parentDir.entryDword 0 deBlock = 4 ∧
    parentDir.entryDword 0 deBlkcnt = hbfsSubdirBlocks := by decide

theorem blockLba_subdir {b : Nat} (hb : b < hbfsSubdirBlocks) :
    blockLba (4 + b) = 8898 + 8 * b := by
  have hper : hbfsSectorsPerBlk = 8 := rfl
  have hstart : hbfsDataStart = 8866 := rfl
  have hblocks : hbfsSubdirBlocks = 32 := rfl
  unfold blockLba
  rw [hper]
  omega

theorem subdirVolume_asked {d : Disk} {P : Nat → Prop} : (subdirVolume d).Asked [100] P ↔ P 4 := by
  rw [Kernel.Asked, subdirVolume_dirLoaded]
  constructor
  · intro h
    exact parentDir_entry.1 ▸ h 0 parentDir_find parentDir_entry.2
  · intro h slot hslot _
    obtain rfl : 0 = slot := Option.some.inj (parentDir_find.symm.trans hslot)
    exact parentDir_entry.1.symm ▸ h

theorem subdirVolume_removable (d : Disk) : (subdirVolume d).Removable [100] := by
  have hb := layout_eq
  have hblocks : hbfsSubdirBlocks = 32 := rfl
  refine ⟨⟨rfl, rfl⟩, rfl, 0, ?_, ?_, ?_, ?_, fun b hb => ?_⟩ <;> rw [subdirVolume_dirLoaded]
  · exact parentDir_find
  · rfl
  · rfl
  · exact parentDir_entry.2
  · show blockLba (parentDir.entryDword 0 deBlock + b) + hbfsSectorsPerBlk ≤ 20000
    rw [parentDir_entry.1, blockLba_subdir hb]
    omega

/-- A disk on which only one byte is set: the type of the fifteenth entry of the subdirectory. -/
def fifteenthEntry : Disk := fun lba => ⟨fun i => if lba = 8906 ∧ i = 189 then 1 else 0⟩

theorem fifteenthEntry_not_empty : ¬ (dirBytes fifteenthEntry 4).DirEmpty := by
  intro hempty
  have hfree := hempty 14 (by decide)
  have hoff : entryOff 14 deType = hbfsBlockSize * 1 + 189 := rfl
  rw [Buffer.entryType, hoff, dirBytes_apply _ _ _ (by decide),
    blockLba_subdir (by decide)] at hfree
  exact absurd hfree (by decide)

/-- The fifteenth entry crosses the end of the block. -/
theorem fifteenthEntry_not_scanFinds : ¬ (dirBytes fifteenthEntry 4).ScanFinds := by
  rw [not_scanFinds_iff]
  intro b hb i hi
  have hentry : hbfsDirEntrySize = 288 := rfl
  have htype : deType = 253 := rfl
  have hlt := entryOff_lt_block hi
  have hsize : hbfsBlockSize = 4096 := rfl
  rw [blockLba_subdir hb]
  refine if_neg ?_
  rintro ⟨hlba, hat⟩
  have hat := congrArg Fin.val hat
  rw [entryOff, hentry, htype] at hlba hlt hat
  change (288 * i + 253) % 512 = 189 at hat
  omega

/-- A directory with one entry, its fifteenth, is removed. -/
theorem rmdir_overlooks_entry : Coherent (subdirVolume fifteenthEntry) ∧
    (subdirVolume fifteenthEntry).Removable [100] ∧
    ¬ RmdirSound [100] (subdirVolume fifteenthEntry) := by
  have hcoherent := subdirVolume_coherent fifteenthEntry
  have hremovable := subdirVolume_removable fifteenthEntry
  refine ⟨hcoherent, hremovable, fun hsound => ?_⟩
  have hremoved :=
    hremovable.yields_sysRmdir hcoherent (subdirVolume_asked.mpr fifteenthEntry_not_scanFinds)
  have hempty := (subdirVolume_asked.mp hsound).and hremoved
  exact fifteenthEntry_not_empty (hempty.1 hempty.2)

/-- The removal of a directory is sound if the directory is empty or the scan finds something in it,
and for a directory that nothing else stands against only then. -/
theorem rmdir_sound_iff (hk : Coherent k) (name : Name) :
    ((k.Asked name fun start => (dirBytes k.disk start).DirEmpty ∨
      (dirBytes k.disk start).ScanFinds) →
      RmdirSound name k) ∧
    (k.Removable name → RmdirSound name k →
      k.Asked name fun start => (dirBytes k.disk start).DirEmpty ∨
      (dirBytes k.disk start).ScanFinds) := by
  constructor
  · intro hcond slot hslot hcount
    refine (yields_sysRmdir_not_scanFinds hk name slot hslot hcount).mono fun cf _ hnot hcf => ?_
    rcases hcond slot hslot hcount with hempty | hfinds
    · exact hempty
    · exact absurd hfinds (hnot hcf)
  · intro hremovable hsound slot hslot hcount
    by_contra hcond
    rw [not_or] at hcond
    have hremoved := hremovable.yields_sysRmdir hk fun slot' hslot' _ => by
      obtain rfl : slot' = slot := Option.some.inj (hslot'.symm.trans hslot)
      exact hcond.2
    have hempty := (hsound slot hslot hcount).and hremoved
    exact hcond.1 (hempty.1 hempty.2)

/-- The removal of a directory on a blank disk is sound. -/
theorem rmdir_sound_iff_blank : Coherent (subdirVolume fun _ => Sector.zero) ∧
    RmdirSound [100] (subdirVolume fun _ => Sector.zero) := by
  have hcoherent := subdirVolume_coherent fun _ => Sector.zero
  exact ⟨hcoherent,
    (rmdir_sound_iff hcoherent [100]).1 (subdirVolume_asked.mpr (Or.inl fun _ _ => rfl))⟩

end Mellivora
