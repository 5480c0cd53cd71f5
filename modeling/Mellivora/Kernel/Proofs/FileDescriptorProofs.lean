import Mathlib.Data.List.Find
import Mellivora.Disk.Proofs.BufferProofs
import Mellivora.Kernel.FileDescriptors
import Mellivora.Kernel.Proofs.DirectoryProofs

/-!
# Descriptors and the files of others

A write through a descriptor touches the block that holds its position, and a close the entry it
finds in the directory.
-/

namespace Mellivora

open Outcome Runs Buffer

variable {s : FdState} {k : Kernel} {e : FdEntry} {file : Option FileId}

theorem yields_onKernel {α : Type} {x : KernelM α} {Q : α → FdState → Prop} :
    Yields (onKernel x) Q s ↔ Yields x (fun a k => Q a { s with kernel := k }) s.kernel := Iff.rfl

theorem ChangesOnly.refl (file : Option FileId) (d : Disk) :
    ChangesOnly file d d := fun _ _ _ _ hne => absurd rfl hne

/-! ## Writing -/

theorem disk_ataReadSectors (k : Kernel) (lba cnt : Nat) :
    Yields (ataReadSectors lba cnt) (fun _ k' => k'.disk = k.disk) k :=
  yields_ataReadSectors (fun _ => rfl) (fun _ _ _ => rfl) fun _ _ _ _ => rfl

/-- A write changes the sectors of one block only. -/
theorem written_fdWriteBlock (s : FdState) (fd : Nat) (e : FdEntry) (src : List UInt8) :
    Yields (fdWriteBlock fd e src) (fun _ s' => ∀ a, s'.kernel.disk a ≠ s.kernel.disk a →
      ∃ j < hbfsSectorsPerBlk, a = blockLba e.writeBlock + j) s := by
  simp only [fdWriteBlock, yields_bind, yields_onKernel]
  refine (disk_ataReadSectors s.kernel _ _).mono fun r k1 hdisk => ?_
  obtain ⟨cf, data⟩ := r
  cases cf with
  | true =>
    intro a hne
    exact absurd (congrFun hdisk a) hne
  | false =>
  simp only [Bool.false_eq_true, if_false, blkCacheWrite, yields_bind, yields_onKernel]
  refine (written_ataWriteSectors k1 _ _).mono fun cf k2 hwritten => ?_
  have hwritten : ∀ a, k2.disk a ≠ s.kernel.disk a → ∃ j < hbfsSectorsPerBlk, a =
    blockLba e.writeBlock + j := by
    intro a hne
    obtain ⟨j, hj, heq⟩ := hwritten a (by rwa [hdisk])
    exact ⟨j, by simpa [sectors] using hj, heq⟩
  cases cf <;> exact hwritten

theorem FdEntry.index_lt (h : e.writes = true) : e.position / hbfsBlockSize < e.blockCount := by
  unfold FdEntry.writes at h
  have hlt : e.position / hbfsBlockSize < signedTurns e.blockCount := by simp_all
  unfold signedTurns at hlt
  split at hlt <;> omega

theorem FdEntry.Current.data {d : Disk} {f : FileId} (h : e.Current d f) (hwrites : e.writes = true)
    {j : Nat} (hj : j < hbfsSectorsPerBlk) : f.Data d (blockLba e.writeBlock + j) := by
  refine ⟨h.live, e.writeBlock, ?_, j, hj, rfl⟩
  rw [EntryBlock, if_pos h.inline, h.start]
  exact ⟨e.position / hbfsBlockSize, lt_of_lt_of_le (FdEntry.index_lt hwrites) h.blocks, rfl⟩

/-- A write changes no other file. -/
theorem fdWrite_isolated (fd : Nat) (src : List UInt8) (h : (FdCall.write fd src).Sound s) :
    (FdCall.write fd src).Isolated s := by
  show Yields (fdWrite fd src)
    (fun _ s' => ChangesOnly (s.opened s.task fd) s.kernel.disk s'.kernel.disk) s
  simp only [fdWrite, yields_rules]
  split
  · exact ChangesOnly.refl _ _
  next hfd =>
  split
  · exact ChangesOnly.refl _ _
  split
  · next hwrites =>
    obtain ⟨f, hopened, hcurrent⟩ := h (by omega) hwrites
    refine (written_fdWriteBlock s fd _ src).mono fun _ s' hwritten a _ _ j hne => ?_
    obtain ⟨i, hi, rfl⟩ := hwritten a fun heq => hne (by rw [heq])
    exact ⟨f, hopened, .inl (hcurrent.data hwrites hi)⟩
  · exact ChangesOnly.refl _ _

/-! ## Closing -/

theorem stampedDir_resizeEntry {slot size now i : Nat}
    (hne : Kernel.stampedDir { k with dirBuf := k.dirBuf.resizeEntry slot size now } i ≠
      k.dirBuf i) :
    (entryOff slot 0 ≤ i ∧ i < entryOff slot hbfsDirEntrySize) ∨
      512 * k.currentDirSects ≤ i + hbfs4RunChecksumBytes := by
  by_contra hout
  simp only [entryOff, hbfsDirEntrySize, hbfs4RunChecksumBytes, not_or] at hout
  have hresize : k.dirBuf.resizeEntry slot size now i = k.dirBuf i := by
    simp only [resizeEntry, setEntryDword, entryOff, hbfsDirEntrySize, deSize, deMtime]
    rw [setDword_apply_of_outside (by omega), setDword_apply_of_outside (by omega)]
  refine hne ?_
  simp only [Kernel.stampedDir]
  split
  · rw [stampRun_apply _ (by unfold hbfs4RunChecksumBytes; omega)
      (by unfold hbfs4RunChecksumBytes; omega), hresize]
  · exact hresize

/-- The search reads the directory only. -/
theorem findByBlock_congr {dir dir' : Buffer} {sects : Nat} (block : Nat)
    (h : ∀ i < 512 * sects, dir i = dir' i) : findByBlock dir sects block =
    findByBlock dir' sects block := by
  refine List.find?_congr fun slot hslot => ?_
  have hslot : slot < 512 * sects / 288 := List.mem_range.mp hslot
  have htype : dir.entryType slot = dir'.entryType slot := by
    refine h _ ?_
    simp only [entryOff, hbfsDirEntrySize, deType]
    omega
  have hblock : dir.entryDword slot deBlock = dir'.entryDword slot deBlock := by
    refine dword_congr fun i _ hi => h i ?_
    simp only [entryOff, hbfsDirEntrySize, deBlock] at hi
    omega
  rw [htype, hblock]

theorem findByBlock_zero (sects block : Nat) : findByBlock (fun _ => 0) sects block = none :=
  List.find?_eq_none.mpr fun slot _ => by simp [entryType, ftypeFree]

/-- A directory that differs in one entry. -/
theorem DirWritten.changesOnly {buf : Buffer} {d d' : Disk} {f : FileId}
    (h : DirWritten buf f.dirLba f.dirSects d d')
    (hbuf : ∀ i < 512 * f.dirSects, buf i ≠ Buffer.ofDisk d f.dirLba i →
      (entryOff f.slot 0 ≤ i ∧ i < entryOff f.slot hbfsDirEntrySize) ∨
        512 * f.dirSects ≤ i + hbfs4RunChecksumBytes) : ChangesOnly (some f) d d' := by
  intro a ha hsb j hne
  obtain heq | ⟨i, hi, rfl, hsector⟩ := h a ha hsb
  · exact absurd (by rw [heq]) hne
  have hold : (d (f.dirLba + i)).bytes j = ofDisk d f.dirLba (512 * i + j.val) := by
    rw [← sector_ofDisk d f.dirLba i]
    rfl
  rw [hsector, hold] at hne
  refine ⟨f, rfl, .inr ⟨i, rfl, ?_⟩⟩
  exact (hbuf _ (by omega) hne).imp_right fun h => ⟨h, hi⟩

theorem save_unmounted (h : k.mounted = false) :
    Yields hbfsSaveRootDir (fun _ k' => k'.disk = k.disk) k := by
  simp only [hbfsSaveRootDir, hbfsRequireWritable, yields_rules]
  rw [if_pos (by simp [h])]
  trivial

/-- Saving an entry's new size changes that entry. -/
theorem save_resizeEntry (hk : k.Healthy) (hdepth : k.journalDepth = 0)
    (hplace : k.currentDirLba + k.currentDirSects ≤ 2 ^ 32)
    (happart : ∀ i < k.currentDirSects, ¬ InLog (k.currentDirLba + i))
    (hheld : ∀ i < 512 * k.currentDirSects, k.dirBuf i = Buffer.ofDisk k.disk k.currentDirLba i)
    (slot size now : Nat) :
    Yields hbfsSaveRootDir
      (fun _ k' => ChangesOnly (some ⟨k.currentDirLba, k.currentDirSects, slot⟩) k.disk k'.disk)
      { k with dirBuf := k.dirBuf.resizeEntry slot size now } := by
  refine (yields_hbfsSaveRootDir (k := { k with dirBuf := k.dirBuf.resizeEntry slot size now })
    { hk with } hdepth hplace happart).mono fun _ k' hwritten => ?_
  refine DirWritten.changesOnly (f := ⟨k.currentDirLba, k.currentDirSects, slot⟩) hwritten
    fun i hi hne => ?_
  rw [← hheld i hi] at hne
  exact stampedDir_resizeEntry hne

theorem FdEntry.ComesBack.loaded (h : e.ComesBack k file) {cf : Bool} {k1 : Kernel}
    (hload : Loaded { k with currentDirLba := e.dirLba, currentDirSects := e.dirSects } cf k1) :
    k1.mounted = false ∨ findByBlock k1.dirBuf e.dirSects e.startBlock = none ∨
      ∀ i < 512 * e.dirSects, k1.dirBuf i = Buffer.ofDisk k.disk e.dirLba i := by
  cases cf with
  | true =>
    rcases hload.empty rfl with hm | hempty
    · exact .inl (by rw [hload.frame]; exact hm)
    refine .inr (.inl ?_)
    have hfits := h.fits
    simp only [hbfsRootDirSects, hbfsRootDirSize] at hfits hempty
    have hzero : findByBlock k1.dirBuf e.dirSects e.startBlock =
      findByBlock (fun _ => 0) e.dirSects e.startBlock :=
      findByBlock_congr _ fun i hi => hempty i (by omega)
    rw [hzero]
    exact findByBlock_zero ..
  | false =>
    refine .inr (.inr ?_)
    rcases hload.held rfl with ⟨hbuf, hlba, hsects⟩ | hread
    · rw [hbuf]
      exact h.current hlba hsects
    · exact hread

/-- Closing a changed file changes its entry only. -/
theorem closeDirty_changesOnly (h : e.ComesBack k file) :
    Yields (closeDirty e) (fun _ k' => ChangesOnly file k.disk k'.disk) k := by
  simp only [closeDirty, storeSize, yields_rules]
  refine (yields_hbfsLoadRootDir
    (k := { k with currentDirLba := e.dirLba, currentDirSects := e.dirSects }) h.faults).mono
    fun cf k1 hload => ?_
  have hdisk : k1.disk = k.disk := by rw [hload.frame]
  have hsects : k1.currentDirSects = e.dirSects := by rw [hload.frame]
  have hlba : k1.currentDirLba = e.dirLba := by rw [hload.frame]
  have hhealthy : k1.Healthy := by
    rw [hload.frame]
    exact { h with }
  have hdepth : k1.journalDepth = 0 := by
    rw [hload.frame]
    exact h.depth
  rw [← hdisk]
  cases hfind : findByBlock k1.dirBuf k1.currentDirSects e.startBlock with
  | none => exact ChangesOnly.refl _ _
  | some slot =>
  simp only [yields_rules]
  rcases h.loaded hload with hm | hnone | hheld
  · have hsave := save_unmounted
      (k := { k1 with dirBuf := k1.dirBuf.resizeEntry slot e.size k1.clock }) hm
    refine hsave.mono fun _ k' hk' => ?_
    show ChangesOnly file k1.disk k'.disk
    rw [hk']
    exact ChangesOnly.refl _ _
  · rw [hsects, hnone] at hfind
    exact absurd hfind (by simp)
  · rw [← hsects, ← hlba, ← hdisk] at hheld
    have hfound : file = some ⟨k1.currentDirLba, k1.currentDirSects, slot⟩ := by
      rw [hlba, hsects]
      refine h.first slot ?_
      rw [← hdisk, ← hlba, ← hsects, ← hfind]
      exact findByBlock_congr _ fun i hi => (hheld i hi).symm
    rw [hfound]
    refine save_resizeEntry hhealthy hdepth ?_ ?_ hheld slot e.size k1.clock
    · rw [hlba, hsects]
      exact h.place
    · rw [hlba, hsects]
      exact h.apart

/-- A close changes no other file. -/
theorem fdClose_isolated (fd : Nat) (h : (FdCall.close fd).Sound s) :
    (FdCall.close fd).Isolated s := by
  show Yields (fdClose fd)
    (fun _ s' => ChangesOnly (s.opened s.task fd) s.kernel.disk s'.kernel.disk) s
  simp only [fdClose, yields_onKernel, yields_rules]
  split
  · exact ChangesOnly.refl _ _
  next hfd =>
  split
  · next hdirty => exact closeDirty_changesOnly (h (by omega) hdirty)
  · exact ChangesOnly.refl _ _

/-- In every run in which each write and each close through a descriptor meets its condition, none
of them changes anything but the data and the entry of the file the descriptor was opened on. -/
theorem fdRun_isolated {calls : List FdCall} (h : Along FdCall.step FdCall.Sound calls s) :
    Along FdCall.step FdCall.Isolated calls s := by
  refine Along.guarantee (I := fun _ => True) (fun _ _ _ _ => trivial)
    (fun c t _ hc => ?_) trivial h
  cases c with
  | write fd src => exact fdWrite_isolated fd src hc
  | close fd => exact fdClose_isolated fd hc
  | _ => trivial

/-! ## Entries that stay current -/

theorem keepsDisk_blkCacheReadSingle (d : Disk) (lba cnt : Nat) :
    Maintains (fun k => k.disk = d) (blkCacheReadSingle lba cnt) := by
  have hread : ∀ cnt, Maintains (fun k => k.disk = d) (ataReadSectors lba cnt) := fun cnt k hk =>
    (disk_ataReadSectors k lba cnt).mono fun _ _ h => h.trans hk
  unfold blkCacheReadSingle
  refine .ite ((hread cnt).bind maintains_pure) (maintains_get.bind fun k => ?_)
  cases k.cacheIndex? (blockTag lba) with
  | some i => exact maintains_get.bind fun _ => maintains_pure _
  | none =>
    refine maintains_get.bind fun _ => maintains_modify_bind (fun _ h => h) fun _ => ?_
    refine (hread _).bind fun r => maintains_modify_bind (fun _ h => h) fun _ => .early ?_
    exact maintains_modify_bind (fun _ h => h) fun _ => maintains_get.bind fun _ => maintains_pure _

theorem keepsDisk_blkCacheReadRun (d : Disk) (lba blocks : Nat) :
    Maintains (fun k => k.disk = d) (blkCacheReadRun lba blocks) := by
  induction blocks generalizing lba with
  | zero => exact maintains_pure _
  | succ blocks ih =>
    exact (keepsDisk_blkCacheReadSingle d lba _).bind fun r =>
      .early ((ih _).bind fun _ => maintains_pure _)

theorem keepsDisk_blkCacheRead (d : Disk) (lba cnt : Nat) :
    Maintains (fun k => k.disk = d) (blkCacheRead lba cnt) :=
  .ite (keepsDisk_blkCacheReadSingle d lba cnt) (keepsDisk_blkCacheReadRun d lba _)

theorem keepsDisk_hbfsMapExtent (d : Disk) (block want : Nat) :
    Maintains (fun k => k.disk = d) (hbfsMapExtent block want) := by
  unfold hbfsMapExtent
  refine maintains_get.bind fun k => ?_
  dsimp only
  split
  · refine (keepsDisk_blkCacheRead d _ _).bind fun r =>
      maintains_modify_bind (fun _ h => h) fun _ => .early ?_
    refine maintains_get.bind fun _ => .early (maintains_modify_bind (fun _ h => h) fun _ => ?_)
    exact maintains_get.bind fun _ => .early (.early (maintains_pure _))
  · exact maintains_get.bind fun _ => .early (.early (maintains_pure _))

/-- A read leaves the disk alone. -/
theorem disk_fdRead (s : FdState) (fd len : Nat) :
    Yields (fdRead fd len) (fun _ s' => s'.kernel.disk = s.kernel.disk) s := by
  have hblock : Yields (s.entry fd).readBlock (fun _ k => k.disk = s.kernel.disk) s.kernel := by
    unfold FdEntry.readBlock
    dsimp only
    split
    · exact rfl
    · exact keepsDisk_hbfsMapExtent _ _ _ s.kernel rfl
  simp only [fdRead, yields_onKernel, yields_rules]
  split
  · trivial
  split
  · trivial
  split
  · trivial
  refine hblock.mono fun r k1 h1 => ?_
  cases r with
  | none => exact h1
  | some block =>
    simp only [yields_onKernel, yields_rules]
    refine Yields.mono (keepsDisk_blkCacheRead _ _ _ k1 h1) fun r k2 h2 => ?_
    split
    · exact h2
    · exact h2

/-- A change of another file leaves the entry of this one as it is. -/
theorem ChangesOnly.current {f : FileId} {d d' : Disk} (h : ChangesOnly file d d')
    (hapart : f.Apart file d) (hcurrent : e.Current d f) : e.Current d' f := by
  have hsame : ∀ i, entryOff f.slot 0 ≤ i → i < entryOff f.slot hbfsDirEntrySize →
      ofDisk d' f.dirLba i = ofDisk d f.dirLba i := by
    intro i h1 h2
    by_contra hne
    have hbyte : 512 * (i / 512) + i % 512 = i := Nat.div_add_mod i 512
    obtain ⟨hlog, hsuper, hother⟩ := hapart (f.dirLba + i / 512) ⟨i % 512, Nat.mod_lt i (by decide)⟩
      ⟨i / 512, rfl, hbyte.symm ▸ h1, hbyte.symm ▸ h2⟩
    obtain ⟨g, hg, hdata | hentry⟩ := h _ hlog hsuper _ hne
    · exact (hother g hg).1 hdata
    · exact (hother g hg).2 hentry
  have hword : ∀ off, off + 4 ≤ hbfsDirEntrySize →
      (ofDisk d' f.dirLba).entryDword f.slot off = (ofDisk d f.dirLba).entryDword f.slot off := by
    intro off hoff
    refine dword_congr fun i h1 h2 => hsame i ?_ ?_
    · unfold entryOff at h1 ⊢
      omega
    · unfold entryOff at h2 ⊢
      omega
  have hflags : (ofDisk d' f.dirLba).entryWord f.slot deFlags =
    (ofDisk d f.dirLba).entryWord f.slot deFlags := by
    refine word_congr fun i h1 h2 =>
      hsame i ?_ ?_ <;> simp only [entryOff, hbfsDirEntrySize, deFlags] at * <;> omega
  have htype : (ofDisk d' f.dirLba).entryType f.slot = (ofDisk d f.dirLba).entryType f.slot := by
    refine hsame _ ?_ ?_ <;> simp only [entryOff, hbfsDirEntrySize, deType] <;> omega
  refine ⟨?_, ?_, ?_, ?_⟩
  · rw [htype]
    exact hcurrent.live
  · rw [hflags]
    exact hcurrent.inline
  · rw [hword deBlock (by decide)]
    exact hcurrent.start
  · rw [hword deBlkcnt (by decide)]
    exact hcurrent.blocks

/-- A call that spares the file keeps the descriptor's copy current. -/
theorem FdCall.Spares.current {f : FileId} {c : FdCall} (h : c.Spares f s)
    (hcurrent : e.Current s.kernel.disk f) :
    e.Current (c.step s).kernel.disk f := by
  cases c with
  | write fd src => exact (fdWrite_isolated fd src h.1).current h.2 hcurrent
  | close fd => exact (fdClose_isolated fd h.1).current h.2 hcurrent
  | read fd len =>
    have hdisk : (FdCall.step (.read fd len) s).kernel.disk = s.kernel.disk := disk_fdRead s fd len
    rwa [hdisk]
  | seek fd off whence =>
    have hdisk : Yields (fdSeek fd off whence) (fun _ s' => s'.kernel.disk = s.kernel.disk) s := by
      simp only [fdSeek, yields_rules]
      split
      · trivial
      split
      · trivial
      split <;> trivial
    have hdisk : (FdCall.step (.seek fd off whence) s).kernel.disk = s.kernel.disk := hdisk
    rwa [hdisk]
  | switch task euid egid => exact hcurrent
  | _ => exact h.elim

/-- An entry stays current along every run of calls through descriptors of other files. -/
theorem FdEntry.Current.after {f : FileId} {calls : List FdCall}
    (hcurrent : e.Current s.kernel.disk f) (h : Along FdCall.step (FdCall.Spares f) calls s) :
    e.Current (Runs.after FdCall.step s calls).kernel.disk f :=
  Along.invariant (I := fun s => e.Current s.kernel.disk f)
    (fun _ _ ht hc => hc.current ht) hcurrent h

/-! ## A block that is used again -/

/-- A v1 volume with a directory of one block in its root, and the file `a` in it. -/
def oneFile : Disk := fun lba =>
  if lba = hbfsSuperblockLba then (smallSuper 994).setDword sbVersion 1
  else if lba = hbfsBitmapStart then Sector.zero.setDword 0 0x3F
  else if lba = hbfsRootDirStart then
    ((Buffer.dirEntry (fun _ => 0) 0 4 0 [100]).setEntryDword 0 deBlkcnt 1).sector 0
  else if lba = 8898 then
    ((Buffer.nameEntry (fun _ => 0) 0 [97] 1).fillEntry 0 1 1 0 (.inline 5)).sector 0
  else Sector.zero

/-- The volume mounted, with the directory loaded. -/
def oneFileMounted : FdState where
  kernel :=
    { smallVolume with
      disk := oneFile
      superBuf := oneFile hbfsSuperblockLba
      dirDepth := 1
      dirStack := fun _ => (hbfsRootDirStart, hbfsRootDirSects, [47])
      currentDirLba := 8898
      currentDirSects := 8
      dirBuf := Buffer.ofDisk oneFile 8898
      dirShadow := Buffer.ofDisk oneFile 8898
      dirCacheLba := 8898
      dirCacheSects := 8 }

/-- The file is opened and grown through the descriptor, and another directory is loaded. -/
def grownFile : FdState :=
  FdCall.step (.cd [.root, .enter [120]])
    (FdCall.step (.write 0 [1, 2]) (FdCall.step (.open [] [97] fdFlagWrite) oneFileMounted))

/-- Closing the descriptor then stores the new size of the file. -/
theorem grownFile_sound : FdCall.Sound (.close 0) grownFile := by
  have hfacts : ((grownFile.entry 0).dirLba = 8898 ∧ (grownFile.entry 0).dirSects = 8 ∧
      (grownFile.entry 0).startBlock = 5) ∧ grownFile.kernel.faults = [] ∧
      grownFile.kernel.ataTotalSectors = 20000 ∧ grownFile.kernel.journalDepth = 0 ∧
      grownFile.kernel.dirCacheLba ≠ 8898 ∧ grownFile.opened grownFile.task 0 = some ⟨8898, 8, 0⟩ ∧
      findByBlock (ofDisk grownFile.kernel.disk 8898) 8 5 = some 0 := by decide +kernel
  obtain ⟨⟨hlba, hsects, hstart⟩, hfaults, htotal, hdepth, htag, hopened, hfirst⟩ := hfacts
  intro _ _
  refine ⟨hfaults, ?_, hdepth, ?_, ?_, ?_, fun h => ?_, fun slot hslot => ?_⟩
  · rw [htotal]
    decide
  · rw [hsects]
    decide
  · rw [hlba, hsects]
    decide
  · rw [hlba, hsects]
    decide
  · rw [hlba] at h
    exact absurd h.symm htag
  · rw [hlba, hsects, hstart, hfirst] at hslot
    cases hslot
    rw [hlba, hsects]
    exact hopened

/-- A file that grows, closed from another directory. -/
theorem fdRun_isolated_grownFile :
    Along FdCall.step FdCall.Isolated
      [.open [] [97] fdFlagWrite, .write 0 [1, 2], .cd [.root, .enter [120]], .close 0]
      oneFileMounted := by
  have hopened : FdState.opened (FdCall.step (.open [] [97] fdFlagWrite) oneFileMounted) 0 0 =
      some ⟨8898, 8, 0⟩ := by decide +kernel
  refine fdRun_isolated ⟨trivial, fun _ _ => ⟨_, hopened, ?_, ?_, ?_, ?_⟩, trivial,
    grownFile_sound, trivial⟩
  all_goals decide +kernel

/-- The file `a` is opened and deleted, and the file `b` created in the block that is free again. -/
def reusedBlock : FdState :=
  FdCall.step (.create [98] 1 (fun _ => 0) 1)
    (FdCall.step (.unlink [] [97]) (FdCall.step (.open [] [97] fdFlagWrite) oneFileMounted))

/-- A write through the old descriptor then changes the data of `b`. -/
theorem reusedBlock_not_isolated :
    ¬ Along FdCall.step FdCall.Isolated
      [.open [] [97] fdFlagWrite, .unlink [] [97], .create [98] 1 (fun _ => 0) 1, .write 0 [1]]
      oneFileMounted := by
  rintro ⟨-, -, -, hwrite, -⟩
  have hwrite : FdCall.Isolated (.write 0 [1]) reusedBlock := hwrite
  have hrun : reusedBlock.opened reusedBlock.task 0 = none ∧
      ((FdCall.step (.write 0 [1]) reusedBlock).kernel.disk 8906).bytes 0 ≠
        (reusedBlock.kernel.disk 8906).bytes 0 := by
    decide +kernel
  obtain ⟨f, hf, -⟩ := hwrite 8906 (by decide) (by decide) 0 hrun.2
  rw [hrun.1] at hf
  exact absurd hf (by simp)

end Mellivora
