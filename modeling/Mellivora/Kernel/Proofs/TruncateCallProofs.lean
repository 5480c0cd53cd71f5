import Mellivora.Kernel.Proofs.RmdirProofs
import Mellivora.Kernel.Proofs.SaveProofs
import Mellivora.Kernel.Proofs.TruncationProofs

/-!
# Shortening a file by name

`sys_truncate` frees blocks before it writes the entry.
-/

namespace Mellivora

open WriteLog Outcome List Buffer RunList

variable {block i n : Nat} {k k1 k2 k' : Kernel} {name : Name} {size slot : Nat}
  {runs runs' : List (Nat × Nat)} {blocks : List Nat}

/-! ## Saving an entry -/

/-- An entry's new size is saved. -/
theorem Quiet.yields_saveEntry (h : Quiet k)
    (hsafe : DirSafe k.currentDirLba k.currentDirSects k.ataTotalSectors)
    (hexact : ShadowExact k.currentDirLba k.currentDirSects k) (slot : Nat)
    (hsame :
      ∀ i < 512 * k.currentDirSects, (i < entryOff slot 0 ∨
      entryOff slot 0 + hbfsDirEntrySize ≤ i) →
      k.dirBuf i = k.dirShadow i) :
    Yields hbfsSaveRootDir (fun cf k' => cf = false ∧ DirStored k k') k := by
  refine (h.toSteady.yields_saveRootDir hsafe hexact).mono fun cf k' ⟨hfull, hstored⟩ => ?_
  cases cf with
  | true =>
    refine absurd (Kernel.hasRoom_of_card ?_) (hfull rfl)
    have hcard := card_dirTargets_le slot hsame
    have hrecords : journalRecords = 15 := rfl
    rw [h.loggedNow, Finset.card_empty]
    omega
  | false => exact ⟨rfl, hstored rfl⟩

theorem DirStored.diskDir (h : DirStored k k') (hi : i < 512 * k.currentDirSects) :
    k'.diskDir i = k.stampedDir i := by
  refine eq_of_sector ?_
  rw [Kernel.diskDir, sector_ofDisk, h.saved.same.currentDirLba]
  exact h.saved.written _ (show i / 512 < k.currentDirSects by omega)

/-- What is in front of an entry's last field is on the disk as it was in the buffer. -/
theorem DirStored.entry (h : DirStored k k') (hslot : slot < maxEntries k.currentDirSects)
    (hi : i < entryOff slot deXattrLba) : k'.diskDir i = k.dirBuf i := by
  have hend := entryEnd_le hslot
  have hb := layout_eq
  have hfield : deXattrLba = 284 := rfl
  unfold entryOff at hi
  rw [h.diskDir (by omega), stampedDir_apply k (by omega) (by omega)]

theorem DirStored.entryDword (h : DirStored k k') (hslot : slot < maxEntries k.currentDirSects)
    {field : Nat} (hfield : field + 4 ≤ deXattrLba) : k'.diskDir.entryDword slot field =
    k.dirBuf.entryDword slot field :=
  dword_congr fun i _ hi => h.entry hslot (by unfold entryOff at hi ⊢; omega)

theorem DirStored.entryWord (h : DirStored k k') (hslot : slot < maxEntries k.currentDirSects)
    {field : Nat} (hfield : field + 2 ≤ deXattrLba) : k'.diskDir.entryWord slot field =
    k.dirBuf.entryWord slot field :=
  word_congr fun i _ hi => h.entry hslot (by unfold entryOff at hi ⊢; omega)

/-! ## A first block that is no run list -/

theorem Buffer.LooksLikeRuns.congr {buf buf' : Buffer} (h : buf.LooksLikeRuns)
    (heq : ∀ i < hbfsBlockSize, buf' i = buf i) : buf'.LooksLikeRuns := by
  have hb := layout_eq
  have hmagic : buf'.dword 0 = buf.dword 0 := dword_congr fun i _ hi => heq i (by omega)
  have hcount : buf'.dword 4 = buf.dword 4 := dword_congr fun i _ hi => heq i (by omega)
  refine ⟨?_, hmagic.trans h.magic, hcount ▸ h.some, hcount ▸ h.fits⟩
  rw [verifyRun_congr (by decide) heq]
  exact h.verified

/-- A block that is no run list is refused. -/
theorem Coherent.yields_readExtentBlock_fails (hk : Coherent k) (hf : k.faults = [])
    (hnot : ¬ (Buffer.ofDisk k.disk (blockLba block)).LooksLikeRuns) :
    Yields (readExtentBlock block) (fun cf _ => cf = true) k := by
  have hb := layout_eq
  have hsafe : (CacheOp.read (blockLba block) hbfsSectorsPerBlk).Harmless k := by
    intro _ _ m hm
    rw [tornTransfer, hf] at hm
    exact absurd hm.2.1 (by simp [gaveUpAfter])
  simp only [readExtentBlock, yields_rules]
  refine (hk.yields_read hsafe).mono ?_
  rintro r k1 ⟨_, _, hdata⟩
  split
  · trivial
  next hcf =>
  have hbuf : ∀ i < hbfsBlockSize, k1.extentBuf.load r.2 i = ofDisk k.disk (blockLba block) i := by
    intro i hi
    rw [hdata (by simpa using hcf)]
    exact load_sectorsAt _ _ (show i < 512 * 8 by omega)
  split
  · trivial
  next hverified =>
  split
  · trivial
  next hmagic =>
  by_contra hcount
  simp only [Bool.or_eq_true, decide_eq_true_eq, not_or, not_lt] at hcount
  have hlooks : (k1.extentBuf.load r.2).LooksLikeRuns :=
    ⟨by simpa using hverified, not_not.mp hmagic, Nat.pos_of_ne_zero hcount.1, hcount.2⟩
  exact hnot (hlooks.congr fun i hi => (hbuf i hi).symm)

/-! ## The call -/

theorem dirLoaded_eq (hf : k.faults = []) : ∃ dir :
    DirState, k.dirLoaded = { k with toDirState := dir } ∧
    dir.currentDirLba = k.currentDirLba ∧ dir.currentDirSects = k.currentDirSects := by
  have hload :
    Yields hbfsLoadRootDir (fun _ k' => ∃ dir : DirState, k' = { k with toDirState := dir } ∧
      dir.currentDirLba = k.currentDirLba ∧ dir.currentDirSects = k.currentDirSects) k := by
    simp only [hbfsLoadRootDir, yields_rules]
    split
    · exact ⟨k.toDirState, rfl, rfl, rfl⟩
    split
    · exact ⟨k.toDirState, rfl, rfl, rfl⟩
    refine yields_ataReadSectors_of_nil hf (fun _ => ⟨_, rfl, rfl, rfl⟩) fun _ => ?_
    rw [if_neg Bool.false_ne_true]
    split
    · exact ⟨_, rfl, rfl, rfl⟩
    · exact ⟨_, rfl, rfl, rfl⟩
  exact hload

/-- A call that is refused changes nothing on the disk. -/
theorem Usable.yields_truncate_refused (h : Usable k)
    (hnone : ∀ slot, ¬ k.dirLoaded.MayTruncate name size slot) :
    Yields (sysTruncate name size) (fun cf k' => cf = true ∧ k' = k.dirLoaded) k := by
  simp only [sysTruncate, hbfsRequireWritable, yields_rules]
  rw [if_neg (by simp [h.writable_eq])]
  refine (yields_loadRootDir_eq k).mono fun _ k1 hk1 => ?_
  subst hk1
  cases hfind : hbfsFindFile k.dirLoaded name with
  | none => exact ⟨rfl, rfl⟩
  | some slot =>
  simp only [yields_rules]
  split
  · exact ⟨trivial, trivial⟩
  next hfile =>
  split
  · exact ⟨trivial, trivial⟩
  next hgranted =>
  split
  · exact ⟨trivial, trivial⟩
  next hshorter =>
    exact absurd ⟨hfind, hfile, by simpa using hgranted, not_lt.mp hshorter⟩ (hnone slot)

theorem yields_loadRootDir_iff {Q : Bool → Kernel → Prop} :
    Yields hbfsLoadRootDir Q k ↔ Q (hbfsLoadRootDir.run k).1 k.dirLoaded := Iff.rfl

/-- The call comes down to the cut. -/
theorem Usable.yields_truncate_of (h : Usable k) (hmay : k.dirLoaded.MayTruncate name size slot)
    {Q : Bool → Kernel → Prop} : Yields (sysTruncate name size) Q k ↔
    Yields (truncateAt slot size) Q k.dirLoaded := by
  have hgranted := hmay.granted
  have hshorter := hmay.shorter
  simp only [sysTruncate, hbfsRequireWritable, yields_rules]
  rw [if_neg (by simp [h.writable_eq]), yields_loadRootDir_iff, hmay.found]
  simp only [yields_rules]
  rw [if_neg hmay.file, if_neg (by simp [hgranted]), if_neg (by omega)]

/-! ## The blocks of the file -/

theorem fileBlocks_mono {size size' : Nat} (h : size ≤ size') :
    fileBlocks size ≤ fileBlocks size' := by
  unfold fileBlocks
  have hle : (size + (hbfsBlockSize - 1)) / hbfsBlockSize ≤ (size' + (hbfsBlockSize - 1)) /
    hbfsBlockSize :=
    Nat.div_le_div_right (by omega)
  omega

/-- A file that is one run of allocated blocks. -/
theorem Kernel.SoundFile.plain (h : k.SoundFile slot blocks) (hplain : ¬ k.dirBuf.HasExtents slot) :
    blocks = List.range' (k.dirBuf.entryDword slot deBlock) (k.dirBuf.entryDword slot deBlkcnt) ∧
      (∀ m ∈ blocks, k.Allocated m) ∧ blocks.length = k.dirBuf.entryDword slot deBlkcnt ∧
      k.dirBuf.entryDword slot deBlock + k.dirBuf.entryDword slot deBlkcnt ≤ k.bitmapBits := by
  have hdata := h.data
  rw [Kernel.FileBlocks, if_neg hplain] at hdata
  obtain ⟨hblocks, hallocated⟩ := hdata
  have hlen : blocks.length = k.dirBuf.entryDword slot deBlkcnt := by rw [hblocks, length_range']
  refine ⟨hblocks, hallocated, hlen, ?_⟩
  have hpos : 1 ≤ blocks.length := (one_le_fileBlocks _).trans h.enough
  have hlast :
      k.dirBuf.entryDword slot deBlock + k.dirBuf.entryDword slot deBlkcnt - 1 ∈ blocks := by
    rw [hblocks, mem_range'_1]
    omega
  have hlt := (hallocated _ hlast).1
  omega

theorem Kernel.SoundFile.listed (h : k.SoundFile slot blocks)
    (hextents : k.dirBuf.HasExtents slot) :
    ∃ runs, k.HoldsRuns (k.dirBuf.entryDword slot deBlock) runs ∧ blocks = RunList.flat runs := by
  have hdata := h.data
  rwa [Kernel.FileBlocks, if_pos hextents] at hdata

/-- The entry as it is written back, with the count of its blocks when that is stored anew. -/
def Buffer.cutEntry (buf : Buffer) (slot size blocks now : Nat) : Buffer :=
  ((buf.setEntryDword slot deSize size).setEntryDword slot deBlkcnt blocks).setEntryDword
    slot deMtime now

section CutEntry

variable (buf : Buffer) (slot size blocks now : Nat)

theorem cutEntry_apply (hi : i < entryOff slot 0 ∨ entryOff slot 0 + hbfsDirEntrySize ≤ i) :
    buf.cutEntry slot size blocks now i = buf i := by
  simp only [cutEntry, setEntryDword, entryOff, hbfsDirEntrySize, deSize, deBlkcnt, deMtime] at hi ⊢
  rw [setDword_apply_of_outside (by omega), setDword_apply_of_outside (by omega),
    setDword_apply_of_outside (by omega)]

theorem cutEntry_of_count (h : buf.entryDword slot deBlkcnt = blocks) :
    buf.cutEntry slot size blocks now = (buf.setEntryDword slot deSize size).setEntryDword slot
    deMtime now := by
  have hcount : (buf.setEntryDword slot deSize size).dword (entryOff slot deBlkcnt) = blocks := by
    rw [setEntryDword, dword_setDword_of_apart (by simp only [entryOff, deSize, deBlkcnt]; omega)]
    exact h
  rw [cutEntry]
  congr 1
  rw [← hcount, setEntryDword, setDword_dword]

theorem cutEntry_flags :
    (buf.cutEntry slot size blocks now).entryWord slot deFlags = buf.entryWord slot deFlags := by
  simp only [cutEntry, setEntryDword, entryWord, entryOff, deFlags, deSize, deBlkcnt, deMtime]
  rw [word_setDword_of_apart (by omega), word_setDword_of_apart (by omega),
    word_setDword_of_apart (by omega)]

theorem cutEntry_block :
    (buf.cutEntry slot size blocks now).entryDword slot deBlock = buf.entryDword slot deBlock := by
  simp only [cutEntry, setEntryDword, entryDword, entryOff, deBlock, deSize, deBlkcnt, deMtime]
  rw [dword_setDword_of_apart (by omega), dword_setDword_of_apart (by omega),
    dword_setDword_of_apart (by omega)]

theorem cutEntry_size (h : size < 2 ^ 32) :
    (buf.cutEntry slot size blocks now).entryDword slot deSize = size := by
  simp only [cutEntry, setEntryDword, entryDword, entryOff, deSize, deBlkcnt, deMtime]
  rw [dword_setDword_of_apart (by omega), dword_setDword_of_apart (by omega), dword_setDword_self h]

theorem cutEntry_blkcnt (h : blocks < 2 ^ 32) :
    (buf.cutEntry slot size blocks now).entryDword slot deBlkcnt = blocks := by
  simp only [cutEntry, setEntryDword, entryDword, entryOff, deSize, deBlkcnt, deMtime]
  rw [dword_setDword_of_apart (by omega), dword_setDword_self h]

end CutEntry

/-! ## The ends of the call -/

/-- The call has stored the entry, with the size and the count of the blocks that are kept. -/
structure EntryStored (slot size blocks : Nat) (k k' : Kernel) : Prop where
  bytes : k'.diskDir.entryDword slot deSize = size
  count : k'.diskDir.entryDword slot deBlkcnt = blocks
  block : k'.diskDir.entryDword slot deBlock = k.dirBuf.entryDword slot deBlock
  extents : k'.diskDir.HasExtents slot ↔ k.dirBuf.HasExtents slot
  disk : DiskKept (InDir k.currentDirLba k.currentDirSects) k.disk k'.disk
  bitmap : ∀ s < hbfsBitmapSects, k'.disk (hbfsBitmapStart + s) = k.disk (hbfsBitmapStart + s)

/-- The last part of every call that succeeds. -/
theorem Quiet.yields_storeEntry (h : Quiet k)
    (hsafe : DirSafe k.currentDirLba k.currentDirSects k.ataTotalSectors)
    (hexact : ShadowExact k.currentDirLba k.currentDirSects k)
    (hbuf : ∀ i < 512 * k.currentDirSects, k.dirBuf i = k.dirShadow i)
    (hslot : slot < maxEntries k.currentDirSects) (hsize : size < 2 ^ 32) (hn : n < 2 ^ 32) :
    Yields hbfsSaveRootDir (fun _ k' => EntryStored slot size n k k')
      { k with dirBuf := k.dirBuf.cutEntry slot size n k.clock } := by
  have hquiet : Quiet { k with dirBuf := k.dirBuf.cutEntry slot size n k.clock } :=
    h.congr rfl rfl rfl rfl
  refine (hquiet.yields_saveEntry hsafe hexact slot fun i hi hout => ?_).mono
    fun cf k' ⟨_, hstored⟩ => ?_
  · show k.dirBuf.cutEntry slot size n k.clock i = k.dirShadow i
    rw [cutEntry_apply _ _ _ _ _ hout]
    exact hbuf i hi
  refine ⟨?_, ?_, ?_, ?_, hstored.saved.disk, fun s hs => hstored.saved.bitmap hsafe hs⟩
  · rw [hstored.entryDword hslot (by decide)]
    exact cutEntry_size _ _ _ _ _ hsize
  · rw [hstored.entryDword hslot (by decide)]
    exact cutEntry_blkcnt _ _ _ _ _ hn
  · rw [hstored.entryDword hslot (by decide)]
    exact cutEntry_block _ _ _ _ _
  · unfold Buffer.HasExtents
    rw [hstored.entryWord hslot (by decide)]
    show (k.dirBuf.cutEntry slot size n k.clock).entryWord slot deFlags &&& _ ≠ 0 ↔ _
    rw [cutEntry_flags]

theorem EntryStored.bit {m : Nat} (h : EntryStored slot size n k k') (hm : m < k.bitmapBits) :
    (diskBitmap k'.disk).bit m = (diskBitmap k.disk).bit m := by
  have hbits := bitmapBits_le k
  exact diskBitmap_bit_congr h.bitmap (by omega)

theorem DirHeld.shadowExact (h : DirHeld k) : ShadowExact k.currentDirLba k.currentDirSects k :=
  shadowExact_iff.mpr h.shadow

theorem DirHeld.clean (h : DirHeld k) (hi : i < 512 * k.currentDirSects) :
    k.dirBuf i = k.dirShadow i :=
  (h.buf i hi).trans (h.shadow i hi).symm

/-- The blocks kept stay allocated. -/
theorem Shortened.kept (h : Shortened block n runs k k1) (hruns : k.HoldsRuns block runs) {m : Nat}
    (hm : m ∈ (RunList.flat runs).take n) : (diskBitmap k1.disk).bit m = true := by
  obtain ⟨hin, hbit⟩ := hruns.allocated m (mem_of_mem_take hm)
  refine (h.bits m hin).mpr ⟨hbit, fun run hrun _ hmem => ?_⟩
  have hdrop : m ∈ (flat runs).drop n := by
    rw [← flat_rest]
    exact mem_flat.mpr ⟨run, droppedRuns_subset hruns.pos run hrun, hmem⟩
  have happart := hruns.apart
  rw [← take_append_drop n (flat runs)] at happart
  exact (nodup_append.mp happart).2.2 m hm m hdrop rfl

/-- When the blocks cut off are free. -/
theorem Shortened.dropped_iff (h : Shortened block (fileBlocks size) runs k k1)
    (hruns : k.HoldsRuns block runs) :
    (∀ m ∈ (RunList.flat runs).drop (fileBlocks size), (diskBitmap k1.disk).bit m = false) ↔
    k.CutFits size runs := by
  have hallocated : ∀ m ∈ (flat runs).drop (fileBlocks size), k.Allocated m := fun m hm =>
    hruns.allocated m (mem_of_mem_drop hm)
  refine Iff.trans ?_ (h.exact_iff hruns)
  constructor
  · intro hfree m hm
    constructor
    · intro hfreed
      obtain ⟨-, run, hrun, -, hmem⟩ := (h.freed_iff hm).mp hfreed
      rw [← flat_rest]
      exact mem_flat.mpr ⟨run, droppedRuns_subset hruns.pos run hrun, hmem⟩
    · intro hmem
      exact ⟨(hallocated m hmem).2, hfree m hmem⟩
  · intro hexact m hm
    exact ((hexact m (hallocated m hm).1).mpr hm).2

/-- The directory is not where the run list is, so storing the entry leaves the list alone. -/
theorem EntryStored.listsRuns (h : EntryStored slot size n k k')
    (hblock : block ≤ 8 * hbfsBitmapSize)
    (hbehind : hbfsJournalBlocks ≤ block) (hlen : runs.length ≤ hbfs4ExtentMax)
    (hapart : ∀ i < k.currentDirSects, ¬ BlockSector block (k.currentDirLba + i))
    (hlists : (Buffer.ofDisk k.disk (blockLba block)).ListsRuns runs) :
    (Buffer.ofDisk k'.disk (blockLba block)).ListsRuns runs := by
  have hb := layout_eq
  have hlba : blockLba block = 8866 + 8 * block := blockLba_eq hblock
  refine hlists.congr hlen fun i hi => ?_
  have hsectors : ∀ m < hbfsSectorsPerBlk, k'.disk (blockLba block + m) =
    k.disk (blockLba block + m) := by
    intro m hm
    refine h.disk _ ?_ (by omega) ?_
    · rw [inLog_iff]
      omega
    · rintro ⟨h1, h2⟩
      refine hapart (blockLba block + m - k.currentDirLba) (by omega) ⟨by omega, by omega⟩
  exact ofDisk_congr hsectors hi

/-- After the cut of a run list and the storing of the entry, what is kept is in step, and what is
dropped is free exactly when the list was cut as it should be. -/
theorem Shortened.cutInStep_iff
    (h : Shortened (k.dirBuf.entryDword slot deBlock) (fileBlocks size) runs k k1)
    (hruns : k.HoldsRuns (k.dirBuf.entryDword slot deBlock) runs)
    (hblocks : blocks = RunList.flat runs)
    (hapart : ∀ i < k.currentDirSects, ¬ BlockSector (k.dirBuf.entryDword slot deBlock)
      (k.currentDirLba + i))
    (hdir : k1.currentDirLba = k.currentDirLba ∧ k1.currentDirSects = k.currentDirSects ∧
      k1.dirBuf = k.dirBuf)
    (hextents : k.dirBuf.HasExtents slot) (hle : fileBlocks size ≤ blocks.length)
    (hstored : EntryStored slot size (fileBlocks size) k1 k') :
    CutInStep slot size blocks k' ↔ k.CutFits size runs := by
  have hbits := bitmapBits_le k
  obtain ⟨hlba, hsects, hbuf⟩ := hdir
  have hblock := hruns.here.1
  have hbit : ∀ m ∈ blocks, (diskBitmap k'.disk).bit m = (diskBitmap k1.disk).bit m := by
    intro m hm
    rw [hblocks] at hm
    refine hstored.bit ?_
    rw [h.geometry.bitmapBits]
    exact (hruns.allocated m hm).1
  have hentry : k'.DiskFile slot size (blocks.take (fileBlocks size)) := by
    refine ⟨hstored.bytes, ?_, ?_⟩
    · rw [hstored.count, length_take, Nat.min_eq_left hle]
    · rw [if_pos (hstored.extents.mpr (hbuf ▸ hextents)), hstored.block, hbuf]
      have hlists := h.lists
      have hfits := (length_keep_le (fileBlocks size) runs).trans hruns.fits
      refine ⟨_, hstored.listsRuns (by omega) hruns.behind hfits
        (by rw [hlba, hsects]; exact hapart) hlists, ?_⟩
      rw [flat_keep, hblocks]
  rw [← h.dropped_iff hruns, ← hblocks]
  constructor
  · intro hcut m hm
    rw [← hbit m (mem_of_mem_drop hm)]
    exact hcut.dropped m hm
  intro hfree
  refine ⟨hentry, fun m hm => ?_, fun m hm => ?_⟩
  · rw [hbit m (mem_of_mem_take hm)]
    exact h.kept hruns (hblocks ▸ hm)
  · rw [hbit m (mem_of_mem_drop hm)]
    exact hfree m hm

section Ends

variable (h : Quiet k) (hheld : DirHeld k)
  (hsafe : DirSafe k.currentDirLba k.currentDirSects k.ataTotalSectors)
  (hslot : slot < maxEntries k.currentDirSects) (hsound : k.SoundFile slot blocks)
  (hsize : size ≤ k.dirBuf.entryDword slot deSize)

include hsound hsize in
theorem Kernel.SoundFile.keeps_le :
    fileBlocks size ≤ blocks.length := (fileBlocks_mono hsize).trans hsound.enough

include h hheld hsafe hslot hsound hsize in
/-- A file that is one run and keeps all its blocks. -/
theorem Quiet.yields_truncateAt_kept (hplain : ¬ k.dirBuf.HasExtents slot)
    (hkept : k.dirBuf.entryDword slot deBlkcnt ≤ fileBlocks size) :
    Yields (truncateAt slot size) (fun cf k' => cf = false ∧ CutInStep slot size blocks k') k := by
  have hbits := bitmapBits_le k
  have hb := layout_eq
  obtain ⟨hblocks, hallocated, hlen, hinside⟩ := hsound.plain hplain
  have hle := hsound.keeps_le hsize
  have hn : k.dirBuf.entryDword slot deBlkcnt = fileBlocks size := by omega
  have hfor : blocksFor size = fileBlocks size := blocksFor_eq_fileBlocks (by omega)
  have hlt : size < 2 ^ 32 := hsize.trans_lt (dword_lt _ _)
  have htake : blocks.take (fileBlocks size) = blocks := take_of_length_le (by omega)
  simp only [truncateAt, yields_rules]
  unfold Buffer.HasExtents at hplain
  rw [if_pos (by simpa using hplain), if_neg]
  · rw [← cutEntry_of_count k.dirBuf slot size _ k.clock hn]
    refine (h.yields_storeEntry hsafe hheld.shadowExact (fun i => hheld.clean) hslot hlt
      (by omega)).mono fun _ k' hstored =>
      ⟨trivial, ⟨hstored.bytes, ?_, ?_⟩, fun m hm => ?_, fun m hm => ?_⟩
    · rw [hstored.count, htake]
      omega
    · rw [if_neg (fun hext => hplain (hstored.extents.mp hext)), hstored.block,
        hstored.count, htake, ← hn]
      exact hblocks
    · rw [htake] at hm
      obtain ⟨hin, hbit⟩ := hallocated m hm
      rw [hstored.bit hin]
      exact hbit
    · grind
  · rintro (hext | hmore)
    · exact hplain hext
    · rw [hfor, signedTurns_of_lt (by omega)] at hmore
      omega

include h hsound in
/-- A file that is one run and gives up blocks: its first block is not the run list it is taken
for. -/
theorem Quiet.yields_truncateAt_fails (hk : Coherent k) (hplain : ¬ k.dirBuf.HasExtents slot)
    (hless : fileBlocks size < k.dirBuf.entryDword slot deBlkcnt)
    (hdata : ¬ (Buffer.ofDisk k.disk (blockLba (k.dirBuf.entryDword slot deBlock))).LooksLikeRuns) :
    Yields (truncateAt slot size) (fun cf _ => cf = true) k := by
  have hb := layout_eq
  have hbits := bitmapBits_le k
  have hbehind := hsound.behind
  obtain ⟨-, -, hlen, hinside⟩ := hsound.plain hplain
  set start := k.dirBuf.entryDword slot deBlock with hstart
  set count := k.dirBuf.entryDword slot deBlkcnt with hcount
  have hfor : blocksFor size = fileBlocks size := blocksFor_eq_fileBlocks (by omega)
  have hlba : blockLba start = 8866 + 8 * start := blockLba_eq (by omega)
  simp only [truncateAt, yields_rules]
  unfold Buffer.HasExtents at hplain
  rw [if_pos (by simpa using hplain),
    if_pos (Or.inr (by rw [hfor, signedTurns_of_lt (by omega)]; exact hless)),
    if_pos (by simpa using hplain)]
  rw [← hstart, ← hcount, hfor]
  set k0 : Kernel := { k with dirBuf := k.dirBuf.setEntryDword slot deSize size } with hk0
  have hquiet : Quiet k0 := h.congr rfl rfl rfl rfl
  have hmapped : k0.Mapped (start + fileBlocks size, count - fileBlocks size) :=
    ⟨show 0 < count - fileBlocks size by omega,
      show start + fileBlocks size + (count - fileBlocks size) ≤ k.bitmapBits by omega⟩
  have hcoherent :=
    coherent_upkeep.freeBlocks (start + fileBlocks size) (count - fileBlocks size) k0 hk
  refine ((hquiet.yields_freeRun hmapped).and hcoherent).mono fun _ k1 ⟨hfreed, hk1⟩ => ?_
  have hread : Yields (readExtentBlock start) (fun cf _ => cf = true)
      { k1 with dirBuf := k1.dirBuf.setEntryDword slot deBlkcnt (fileBlocks size) } := by
    have hk2 :
      Coherent { k1 with dirBuf := k1.dirBuf.setEntryDword slot deBlkcnt (fileBlocks size) } := hk1
    refine hk2.yields_readExtentBlock_fails hfreed.quiet.healthy.faults fun hlooks => hdata ?_
    refine hlooks.congr fun i hi => ?_
    have hsectors : ∀ m < hbfsSectorsPerBlk, k.disk (blockLba start + m) =
      k1.disk (blockLba start + m) := by
      intro m hm
      refine (hfreed.disk _ ?_ (by omega) ?_).symm
      · rw [inLog_iff]
        omega
      · rintro ⟨h1, h2⟩
        omega
    exact ofDisk_congr hsectors hi
  simp only [hbfsTruncateExtent, yields_rules]
  refine hread.mono fun cf k2 hcf => ?_
  rw [hcf, if_pos rfl, if_pos trivial]
  trivial

include h hheld hsafe hslot hsound hsize in
/-- A file with a run list is cut in step exactly when the list can be cut as it should be. -/
theorem Quiet.yields_truncateAt_listed (hk : Coherent k) (hextents : k.dirBuf.HasExtents slot)
    (hruns : k.HoldsRuns (k.dirBuf.entryDword slot deBlock) runs)
    (hblocks : blocks = RunList.flat runs) :
    Yields (truncateAt slot size) (fun cf k' => cf = false ∧
      (CutInStep slot size blocks k' ↔ k.CutFits size runs)) k := by
  have hb := layout_eq
  have hbits := bitmapBits_le k
  have hle := hsound.keeps_le hsize
  have hlen := hruns.length_le
  have hfor : blocksFor size = fileBlocks size :=
    blocksFor_eq_fileBlocks (by rw [hblocks] at hle; omega)
  have hlt : size < 2 ^ 32 := hsize.trans_lt (dword_lt _ _)
  simp only [truncateAt, yields_rules]
  unfold Buffer.HasExtents at hextents
  rw [if_neg (by simpa using hextents), if_pos (Or.inl hextents),
    if_neg (by simpa using hextents), hfor]
  refine (h.yields_truncateExtent hk hruns (hblocks ▸ hle)).mono fun cf k1 ⟨hcf, hshort⟩ => ?_
  subst hcf
  rw [if_neg Bool.false_ne_true]
  obtain ⟨e, hkeeps⟩ := hshort.keeps
  have hdirBuf : k1.dirBuf = k.dirBuf := hkeeps.dirBuf
  have hsects : k1.currentDirSects = k.currentDirSects := hkeeps.currentDirSects
  have hlba : k1.currentDirLba = k.currentDirLba := hkeeps.currentDirLba
  have hshadow : k1.dirShadow = k.dirShadow := hkeeps.dirShadow
  have hsafe1 : DirSafe k1.currentDirLba k1.currentDirSects k1.ataTotalSectors := by
    rw [hlba, hsects, hshort.geometry.total]
    exact hsafe
  have hexact : ShadowExact k1.currentDirLba k1.currentDirSects k1 := by
    rw [hlba, hsects]
    intro i hi
    rw [hshadow, hheld.shadowExact i hi]
    refine (hshort.disk _ (hsafe.log i hi) (hsafe.resident i hi) ?_).symm
    rintro (hin | hin)
    · exact hsafe.bitmap i hi hin
    · exact hsound.apart i hi hin
  refine (hshort.quiet.yields_storeEntry hsafe1 hexact ?_ (hsects ▸ hslot) hlt ?_).mono
    fun _ k' hstored => ?_
  · rw [hsects, hdirBuf, hshadow]
    exact fun i => hheld.clean
  · show fileBlocks size < 2 ^ 32
    rw [hblocks] at hle
    omega
  · exact ⟨trivial, hshort.cutInStep_iff hruns hblocks hsound.apart ⟨hlba, hsects, hdirBuf⟩
      hextents hle hstored⟩

end Ends

/-! ## Every call -/

theorem Buffer.ListsRuns.unique {buf : Buffer} (h : buf.ListsRuns runs) (h' : buf.ListsRuns runs') :
    runs = runs' := by
  have hlen : runs.length = runs'.length := h.count.symm.trans h'.count
  refine ext_getElem hlen fun i hi hi' => ?_
  rw [← h.run i runs[i] (getElem?_eq_getElem hi), ← h'.run i runs'[i] (getElem?_eq_getElem hi')]

/-- What holds between two calls, with a current directory that can be loaded and whose files are
sound. -/
structure TruncateReady (name : Name) (size : Nat) (k : Kernel) : Prop where
  quiet : Quiet k
  coherent : Coherent k
  held : DirHeld k.dirLoaded
  safe : DirSafe k.currentDirLba k.currentDirSects k.ataTotalSectors
  sound : ∀ slot, k.dirLoaded.MayTruncate name size slot →
    ∃ blocks, k.dirLoaded.SoundFile slot blocks

attribute [local grind cases] TruncateReady

section Call

variable (h : TruncateReady name size k)

include h in
theorem TruncateReady.loaded :
    Quiet k.dirLoaded ∧ Coherent k.dirLoaded ∧ k.dirLoaded.disk = k.disk ∧
    DirSafe k.dirLoaded.currentDirLba k.dirLoaded.currentDirSects k.dirLoaded.ataTotalSectors := by
  obtain ⟨dir, heq, hlba, hsects⟩ := dirLoaded_eq h.quiet.healthy.faults
  refine ⟨?_, (dirLoaded_kept k).coherent h.coherent, (dirLoaded_kept k).disk, ?_⟩
  · rw [heq]
    exact h.quiet.congr rfl rfl rfl rfl
  · grind

include h in
/-- What comes of a call that is not refused. -/
theorem TruncateReady.yields_sysTruncate (hmay : k.dirLoaded.MayTruncate name size slot)
    (hsound : k.dirLoaded.SoundFile slot blocks) :
    Yields (sysTruncate name size) (fun cf k' =>
      (k.TruncateFits name size → cf = false ∧ CutInStep slot size blocks k') ∧
      (k.PlainData name size → cf = false ∧ CutInStep slot size blocks k' →
        k.TruncateFits name size)) k := by
  obtain ⟨hquiet, hcoherent, hdisk, hsafe⟩ := h.loaded
  obtain ⟨hslot, -⟩ := hbfsFindFile_some hmay.found
  have honly : ∀ slot', k.dirLoaded.MayTruncate name size slot' → slot' = slot := fun slot' hmay' =>
    Option.some.inj (hmay'.found.symm.trans hmay.found)
  rw [h.quiet.yields_truncate_of hmay]
  by_cases hextents : k.dirLoaded.dirBuf.HasExtents slot
  · obtain ⟨runs, hruns, hblocks⟩ := hsound.listed hextents
    refine (hquiet.yields_truncateAt_listed h.held hsafe hslot hsound hmay.shorter hcoherent
      hextents hruns
      hblocks).mono fun cf k' ⟨hcf, hiff⟩ => ⟨fun hfits => ⟨hcf, hiff.mpr ?_⟩, fun _ hcut => ?_⟩
    · have hslotFits := hfits slot hmay
      rw [if_pos hextents] at hslotFits
      exact hslotFits runs hruns
    intro slot' hmay'
    obtain rfl := honly slot' hmay'
    rw [if_pos hextents]
    intro runs' hruns'
    rw [← hruns.lists.unique hruns'.lists]
    exact hiff.mp hcut.2
  · by_cases hkept : k.dirLoaded.dirBuf.entryDword slot deBlkcnt ≤ fileBlocks size
    · refine (hquiet.yields_truncateAt_kept h.held hsafe hslot hsound hmay.shorter
        hextents hkept).mono
        fun cf k' hcut => ⟨fun _ => hcut, fun _ _ slot' hmay' => ?_⟩
      obtain rfl := honly slot' hmay'
      rwa [if_neg hextents]
    have hnot : ¬ k.TruncateFits name size := fun hfits => by
      have hslotFits := hfits slot hmay
      rw [if_neg hextents] at hslotFits
      exact hkept hslotFits
    by_cases hdata : k.PlainData name size
    · have hnone := hdata slot hmay hextents
      rw [← hdisk] at hnone
      refine (hquiet.yields_truncateAt_fails hsound hcoherent hextents (not_le.mp hkept) hnone).mono
        fun cf k' hcf => ⟨fun hfits => absurd hfits hnot, fun _ hcut => ?_⟩
      rw [hcf] at hcut
      exact absurd hcut.1 (by decide)
    · exact yields_of_forall fun cf k' =>
        ⟨fun hfits => absurd hfits hnot, fun hplain => absurd hplain hdata⟩

include h in
/-- What fits keeps bitmap and directory in step. -/
theorem TruncateReady.inStep_of_fits (hfits : k.TruncateFits name size) :
    TruncateInStep name size k := by
  unfold TruncateInStep Yields
  refine ⟨fun slot blocks hmay hsound => (h.yields_sysTruncate hmay hsound).1 hfits, fun hcf => ?_⟩
  by_cases hany : ∃ slot, k.dirLoaded.MayTruncate name size slot
  · obtain ⟨slot, hmay⟩ := hany
    obtain ⟨blocks, hsound⟩ := h.sound slot hmay
    have hdone := ((h.yields_sysTruncate hmay hsound).1 hfits).1
    exact absurd (hcf.symm.trans hdone) (by decide)
  · obtain ⟨-, hend⟩ := h.quiet.yields_truncate_refused (not_exists.mp hany)
    rw [hend, (dirLoaded_kept k).disk]
    exact ⟨fun _ _ => rfl, fun _ _ => rfl⟩

include h in
theorem TruncateReady.fits_of_inStep (hplain : k.PlainData name size)
    (hin : TruncateInStep name size k) :
    k.TruncateFits name size := by
  intro slot hmay
  obtain ⟨blocks, hsound⟩ := h.sound slot hmay
  exact (h.yields_sysTruncate hmay hsound).2 hplain (hin.1 slot blocks hmay hsound) slot hmay

end Call

/-- `sys_truncate` keeps entry and bitmap in step when a file that is one run keeps the number of
its blocks, and a run list can be cut as it should be. The converse needs that no file's first data
block looks like a run list. -/
theorem truncate_inStep (h : TruncateReady name size k) :
    (k.TruncateFits name size → TruncateInStep name size k) ∧
      (k.PlainData name size → TruncateInStep name size k → k.TruncateFits name size) :=
  ⟨h.inStep_of_fits, h.fits_of_inStep⟩

/-! ## A file of two blocks -/

/-- A root directory with one file of 8192 bytes in the blocks 20 and 21. -/
def twoBlockDir : Buffer := fun i =>
  if i = 0 then 97
  else if i = deType then 1
  else if i = deSize + 1 then 0x20
  else if i = deBlock then 20
  else if i = deBlkcnt then 2
  else 0

/-- A small volume with that directory and the two blocks allocated. -/
def twoBlockVolume : Kernel := rootVolume twoBlockDir 0x30

theorem twoBlockVolume_dirLoaded :
    twoBlockVolume.dirLoaded = twoBlockVolume := dirLoaded_of_cached rfl rfl rfl

theorem twoBlockVolume_quiet : Quiet twoBlockVolume :=
  ⟨rootVolume_steady _ _, (rootVolume_level twoBlockDir 0x30).forget⟩

theorem twoBlockVolume_held : DirHeld twoBlockVolume := by
  have hdisk : ∀ i < 512 * hbfsRootDirSects, twoBlockDir i = twoBlockVolume.diskDir i :=
    shadowExact_iff.mp (rootVolume_shadowExact twoBlockDir 0x30)
  exact ⟨⟨rfl, rfl⟩, hdisk, hdisk⟩

theorem twoBlockDir_find :
    (List.range (maxEntries hbfsRootDirSects)).find? (twoBlockDir.holdsName [97]) =
    some 0 := by decide

theorem twoBlockVolume_may :
    twoBlockVolume.MayTruncate [97] 1 0 := ⟨twoBlockDir_find, by decide, rfl, by decide⟩

theorem twoBlockVolume_sound : twoBlockVolume.SoundFile 0 [20, 21] := by
  have hblock : twoBlockVolume.dirBuf.entryDword 0 deBlock = 20 := by decide
  have hlba : blockLba 20 = 9026 := blockLba_eq (by decide)
  have hb := layout_eq
  refine ⟨?_, by decide, by rw [hblock]; decide, fun i hi => ?_⟩
  · rw [Kernel.FileBlocks, if_neg (by decide), hblock]
    refine ⟨by decide, fun m hm => ?_⟩
    have hcase : m = 20 ∨ m = 21 := by simpa using hm
    unfold Kernel.Allocated
    rw [twoBlockVolume, rootVolume_bitmapBits]
    rcases hcase with rfl | rfl
    · exact ⟨by decide, rootVolume_bit twoBlockDir 0x30 (by decide)⟩
    · exact ⟨by decide, rootVolume_bit twoBlockDir 0x30 (by decide)⟩
  · rw [hblock, hlba]
    have hi : i < hbfsRootDirSects := hi
    show ¬ (9026 ≤ hbfsRootDirStart + i ∧ _)
    omega

theorem twoBlockVolume_ready (size : Nat) : TruncateReady [97] size twoBlockVolume := by
  refine ⟨twoBlockVolume_quiet, rootVolume_coherent _ _, ?_, rootVolume_dirSafe _ _,
    fun slot hmay => ?_⟩
  · rw [twoBlockVolume_dirLoaded]
    exact twoBlockVolume_held
  · rw [twoBlockVolume_dirLoaded] at hmay ⊢
    obtain rfl : 0 = slot := Option.some.inj (twoBlockDir_find.symm.trans hmay.found)
    exact ⟨[20, 21], twoBlockVolume_sound⟩

/-- To 5000 bytes the file can be cut, since it keeps both blocks. -/
theorem twoBlockVolume_fits : twoBlockVolume.TruncateFits [97] 5000 := by
  intro slot hmay
  rw [twoBlockVolume_dirLoaded] at hmay ⊢
  obtain rfl : 0 = slot := Option.some.inj (twoBlockDir_find.symm.trans hmay.found)
  rw [if_neg (by decide)]
  decide

/-- A file of two blocks, cut and not cut. -/
theorem truncate_inStep_twoBlocks :
    (twoBlockVolume.PlainData [97] 1 → TruncateInStep [97] 1 twoBlockVolume →
      twoBlockVolume.TruncateFits [97] 1) ∧
      TruncateInStep [97] 5000 twoBlockVolume :=
  ⟨(truncate_inStep (twoBlockVolume_ready 1)).2,
    (truncate_inStep (twoBlockVolume_ready 5000)).1 twoBlockVolume_fits⟩

theorem twoBlockVolume_plainData : twoBlockVolume.PlainData [97] 1 := by
  intro slot hmay _ hlooks
  rw [twoBlockVolume_dirLoaded] at hmay hlooks
  obtain rfl : 0 = slot := Option.some.inj (twoBlockDir_find.symm.trans hmay.found)
  have hblock : twoBlockVolume.dirBuf.entryDword 0 deBlock = 20 := by decide
  have hlba : blockLba 20 = 9026 := blockLba_eq (by decide)
  have hblank : (ofDisk twoBlockVolume.disk 9026).dword 0 = 0 := by decide
  rw [hblock, hlba] at hlooks
  exact absurd (hblank.symm.trans hlooks.magic) (by decide)

/-- A file of two blocks cannot be cut to one. -/
theorem truncate_not_inStep :
    TruncateReady [97] 1 twoBlockVolume ∧ ¬ TruncateInStep [97] 1 twoBlockVolume := by
  refine ⟨twoBlockVolume_ready 1, fun hin => ?_⟩
  have hfits := (twoBlockVolume_ready 1).fits_of_inStep twoBlockVolume_plainData hin
  have hzero := hfits 0 (twoBlockVolume_dirLoaded.symm ▸ twoBlockVolume_may)
  rw [twoBlockVolume_dirLoaded, if_neg (by decide)] at hzero
  exact absurd hzero (by decide)

end Mellivora
