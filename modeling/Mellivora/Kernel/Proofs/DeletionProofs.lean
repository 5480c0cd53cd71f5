import Mellivora.Kernel.Deletion
import Mellivora.Kernel.Proofs.SaveProofs
import Mellivora.Kernel.Proofs.TruncationProofs

/-!
# What a deletion gives back

The data blocks of an entry are freed as they should be.
-/

namespace Mellivora

open WriteLog Outcome List Nat

variable {block m start : Nat} {n : Nat} {k k1 k2 k' : Kernel} {run : Nat × Nat}
  {runs : List (Nat × Nat)} {blocks blocks' : List Nat}

/-! ## Freeing inside the transaction -/

/-- These blocks have been freed inside a transaction. -/
structure BlocksFreed (n : Nat) (blocks : List Nat) (k k' : Kernel) : Prop where
  steady : Steady k'
  level : Level true n k'
  files : SameFiles k k'
  disk : DiskKept InBitmap k.disk k'.disk
  bits : ∀ m < k.bitmapBits, (diskBitmap k'.disk).bit m = true ↔ (diskBitmap k.disk).bit m =
    true ∧ m ∉ blocks
  free : k'.superBuf.dword sbFreeBlocks = (k.superBuf.dword sbFreeBlocks + blocks.length) % 2 ^ 32
  onDisk : (k.disk hbfsSuperblockLba).dword sbFreeBlocks = k.superBuf.dword sbFreeBlocks →
    (k'.disk hbfsSuperblockLba).dword sbFreeBlocks = k'.superBuf.dword sbFreeBlocks

theorem BlocksFreed.refl (h : Steady k) (hlevel : Level true n k) : BlocksFreed n [] k k := by
  refine ⟨h, hlevel, SameFiles.refl k, DiskKept.refl _ _, fun m _ => by simp, ?_, id⟩
  rw [length_nil, add_zero, mod_eq_of_lt (Sector.dword_lt _ _)]

theorem BlocksFreed.trans (h : BlocksFreed n blocks k k1) (h' : BlocksFreed n blocks' k1 k2) :
    BlocksFreed n (blocks ++ blocks') k k2 := by
  refine ⟨h'.steady, h'.level, h.files.trans h'.files, h.disk.trans h'.disk, fun m hm => ?_, ?_,
    fun hcount => h'.onDisk (h.onDisk hcount)⟩
  · rw [h'.bits m (h.files.geometry.bitmapBits ▸ hm), h.bits m hm, mem_append, not_or, and_assoc]
  · rw [h'.free, h.free, length_append, mod_add_mod, add_assoc]

theorem BlocksFreed.aside (h : Steady k) (hlevel : Level true n k) (c : BlkCache)
    (e : ExtentState) :
    BlocksFreed n [] k { k with toBlkCache := c, toExtentState := e } := by
  have hsame := BlocksFreed.refl h hlevel
  refine { hsame with steady := ⟨⟨{ h with }, { h.healthy with }, fun hdepth => ?_⟩,
      h.blocks, h.bitmap⟩, level := hlevel.congr (.of rfl), files :=
      ⟨rfl, rfl, rfl, rfl, rfl, rfl, rfl,
      rfl, rfl, rfl⟩ }
  obtain ⟨hfailed, b, recs, hlog⟩ := h.log hdepth
  exact ⟨hfailed, b, recs, hlog.congr hlog.journalled rfl rfl⟩

/-- One run is freed in the books. -/
theorem Steady.yields_freeRun (h : Steady k) (hlevel : Level true n k) (hmapped : k.Mapped run) :
    Yields (hbfsFreeBlocks run.1 run.2) (fun cf k' => cf = false →
      BlocksFreed n (List.range' run.1 run.2) k k' ∧ k'.toExtentState = k.toExtentState) k := by
  obtain ⟨hcover, hcnt⟩ := hmapped.covers
  refine ((h.yields_freeBlocks hcover hcnt).and (hlevel.freeBlocks run.1 run.2)).mono
    fun cf k' ⟨hchanged, hlevel'⟩ hcf => ?_
  subst hcf
  obtain ⟨-, hset⟩ := hchanged
  refine ⟨⟨hset.steady, hlevel', hset.files, hset.disk, fun m hm => ?_, ?_, fun _ => hset.onDisk⟩,
    hset.extent⟩
  · rw [hset.bit hm, withRange, mem_range'_1]
    split
    · grind
    · next hout => exact ⟨fun hbit => ⟨hbit, hout⟩, And.left⟩
  · rw [hset.free, length_range']

/-- All runs of a list are freed. -/
theorem Steady.yields_freeRuns (h : Steady k) (hlevel : Level true n k) {i : Nat}
    (hbuf : k.extentBuf.RunsFrom i runs) (hmapped : ∀ run ∈ runs, k.Mapped run) :
    Yields (freeRuns runs.length i) (fun exit k' => exit = .freed →
      BlocksFreed n (RunList.flat runs) k k') k := by
  induction runs generalizing k i with
  | nil => exact yields_pure.mpr fun _ => BlocksFreed.refl h hlevel
  | cons run runs ih =>
  have hfirst := hmapped run (mem_cons_self ..)
  simp only [length_cons, freeRuns, hbuf.head, yields_rules]
  rw [if_neg hfirst.pos.ne']
  refine (h.yields_freeRun hlevel hfirst).mono fun cf k1 h1 => ?_
  cases cf with
  | true =>
    rw [if_pos rfl]
    simp
  | false =>
  obtain ⟨hfreed, hextent⟩ := h1 rfl
  rw [if_neg Bool.false_ne_true]
  refine (ih hfreed.steady hfreed.level ?_ fun run' hrun' => ?_).mono fun exit k' h' hexit =>
    hfreed.trans (h' hexit)
  · rw [hextent]
    exact hbuf.tail
  · obtain ⟨hpos, hinside⟩ := hmapped run' (mem_cons_of_mem _ hrun')
    exact ⟨hpos, hfreed.files.geometry.bitmapBits ▸ hinside⟩

/-- The runs and the extent block are freed. -/
theorem Steady.yields_freeExtent (h : Steady k) (hlevel : Level true n k) (hk : Coherent k)
    (hruns : k.HoldsRuns block runs) :
    Yields (hbfsFreeExtent block) (fun exit k' => exit = .freed →
      BlocksFreed n (RunList.flat runs ++ [block]) k k') k := by
  simp only [hbfsFreeExtent, yields_rules]
  refine (hk.yields_readExtentBlock h.healthy.faults hruns.lists hruns.nonempty hruns.fits
    hruns.onDevice).mono ?_
  rintro cf k1 ⟨hcf, c, e, heq, hlists⟩
  subst hcf heq
  have hread := BlocksFreed.aside h hlevel c e
  have hrecords : e.extentBuf.RunsFrom 0 runs := fun j run hrun => by
    rw [zero_add]
    exact hlists.run j run hrun
  rw [if_neg Bool.false_ne_true, show (e.extentBuf.dword 4) = runs.length from hlists.count]
  refine (hread.steady.yields_freeRuns hread.level hrecords fun run hrun => ?_).mono
    fun exit k2 h2 => ?_
  · exact ⟨(hruns.mapped run hrun).pos, (hruns.mapped run hrun).inside⟩
  cases exit with
  | damaged =>
    simp only [yields_rules]
    simp
  | undone =>
    simp only [yields_rules]
    simp
  | freed =>
  have hlist := hread.trans (h2 rfl)
  have hmapped : k2.Mapped (block, 1) := ⟨one_pos, hlist.files.geometry.bitmapBits ▸ hruns.here.1⟩
  simp only [yields_rules]
  refine (hlist.steady.yields_freeRun hlist.level hmapped).mono fun cf k3 h3 => ?_
  cases cf with
  | true =>
    rw [if_pos rfl]
    simp
  | false =>
  obtain ⟨hblock, -⟩ := h3 rfl
  have hall := hlist.trans hblock
  rw [if_neg Bool.false_ne_true]
  intro _
  have hend := hall.trans (BlocksFreed.aside hall.steady hall.level k3.toBlkCache ⟨k3.extentBuf, 0⟩)
  rw [append_nil] at hend
  exact hend

theorem Kernel.Owns.count_le {slot : Nat} {data xattr : List Nat} (h : k.Owns slot data xattr)
    {count : Nat}
    (hdata : data = List.range' start count) : start + count ≤ k.bitmapBits ∨ count = 0 := by
  rcases Nat.eq_zero_or_pos count with hzero | hpos
  · exact .inr hzero
  · have hlast : start + count - 1 ∈ data := by
      rw [hdata, mem_range'_1]
      omega
    have hlt := (h.allocated _ (mem_append_left _ hlast)).1
    exact .inl (by omega)

/-- The data of an entry is freed. -/
theorem Steady.yields_freeEntryData (h : Steady k) (hlevel : Level true n k)
    (hk : Coherent k) {slot : Nat} {data xattr : List Nat} (howns : k.Owns slot data xattr) :
    Yields (freeEntryData slot) (fun exit k' => exit = .freed → BlocksFreed n data k k') k := by
  have hb := layout_eq
  have hbits := bitmapBits_le k
  have hdata := howns.ofData
  unfold Kernel.DataBlocks at hdata
  simp only [freeEntryData, yields_rules]
  split
  · next hflag =>
    rw [if_pos hflag] at hdata
    obtain ⟨runs, hruns, rfl⟩ := hdata
    exact h.yields_freeExtent hlevel hk hruns
  next hflag =>
  rw [if_neg hflag] at hdata
  have hcount := howns.count_le hdata
  split
  · next hturns =>
    have hzero : k.dirBuf.entryDword slot deBlkcnt = 0 := by
      rcases hcount with hle | hzero
      · rwa [signedTurns_of_lt (by omega)] at hturns
      · exact hzero
    rw [hzero, range'_zero] at hdata
    subst hdata
    exact fun _ => BlocksFreed.refl h hlevel
  next hturns =>
  have hpos := signedTurns_pos hturns
  have hmapped :
    k.Mapped (k.dirBuf.entryDword slot deBlock, k.dirBuf.entryDword slot deBlkcnt) := by
    rcases hcount with hle | hzero
    · exact ⟨hpos, hle⟩
    · omega
  refine (h.yields_freeRun hlevel hmapped).mono fun cf k' h' => ?_
  cases cf with
  | true => grind
  | false =>
    rw [hdata]
    exact fun _ => (h' rfl).1

/-! ## Clearing the entry -/

/-- What the rest of a deletion does to bitmap and superblock when it does not fail. -/
structure EntryCleared (k k' : Kernel) : Prop where
  bitmap : ∀ s < hbfsBitmapSects, k'.disk (hbfsBitmapStart + s) = k.disk (hbfsBitmapStart + s)
  onDisk : k'.disk hbfsSuperblockLba = k.disk hbfsSuperblockLba ∨
    SameOutsideJournal (k'.disk hbfsSuperblockLba) k.superBuf

/-- The entry is cleared on the disk. -/
theorem Level.yields_clearEntry (h : Level true (n + 1) k)
    (hsafe : DirSafe k.currentDirLba k.currentDirSects k.ataTotalSectors) (slot : Nat) :
    Yields (Mellivora.clearEntry slot) (fun exit k' => exit = .deleted → EntryCleared k k') k := by
  have hb := layout_eq
  set k0 : Kernel := { k with dirBuf := k.dirBuf.clear (entryOff slot 0) hbfsDirEntrySize } with hk0
  have hlevel0 : Level true (n + 1) k0 := h.congr (.of rfl)
  simp only [Mellivora.clearEntry, yields_rules]
  refine Yields.mono (hlevel0.yields_saveRootDir (succ_pos n)) fun cf k1 h₁ => ?_
  cases cf with
  | true => grind
  | false =>
  obtain ⟨hlevel1, hkept, -⟩ := h₁
  have hout : ∀ a, ¬ InLog a → (∀ i < k.currentDirSects, k.currentDirLba + i ≠ a) →
    k1.disk a = k.disk a := by
    intro a ha hne
    refine hkept.disk a ha ?_
    rintro ⟨(h1 : k.currentDirLba ≤ a), (h2 : a < k.currentDirLba + k.currentDirSects)⟩
    exact hne (a - k.currentDirLba) (by omega) (by omega)
  have hsame := hout hbfsSuperblockLba superblock_not_inLog hsafe.resident
  rw [if_neg Bool.false_ne_true]
  refine (edge_commit k1 fun _ => hlevel1.sound (succ_pos n)).mono fun _ k' hedge _ =>
    ⟨fun s hs => ?_, ?_⟩
  · rw [hedge.disk _ (not_inLog_bitmap hs) (by omega)]
    refine hout _ (not_inLog_bitmap hs) fun i hi heq => hsafe.bitmap i hi ?_
    rw [heq]
    exact ⟨by omega, by omega⟩
  · rcases hedge.onDisk with heq | heq
    · exact .inl (heq.trans hsame)
    · exact .inr (heq.trans hkept.resident)

/-! ## The block of extended attributes -/

/-- After the number of a sector was freed as if it were a block's, the block of that sector is as
it was. -/
structure StrayFree (n block : Nat) (k k' : Kernel) : Prop where
  level : Level true n k'
  dir : k'.toDirState = k.toDirState
  total : k'.ataTotalSectors = k.ataTotalSectors
  bit : (diskBitmap k'.disk).bit block = (diskBitmap k.disk).bit block

/-- A change behind the bitmap leaves the bitmap on the disk. -/
theorem Level.yields_changeBeyond (h : Level true n k) (hn : 0 < n)
    (hstart : 8 * hbfsBitmapSize ≤ start) (hend : start < 2 ^ 31) :
    Yields (Mellivora.changeBlocks false start 1 fun free => free + 1) (fun cf k' => cf = false →
      SameFiles k k' ∧ ∀ s < hbfsBitmapSects, k'.disk (hbfsBitmapStart + s) =
      k.disk (hbfsBitmapStart + s)) k := by
  have hb := layout_eq
  have hspan : sectorSpan start 1 = 1 := by
    unfold sectorSpan
    omega
  have hwrite := Usable.yields_metaWrite (k := { k with
    bitmapBuf := k.bitmapBuf.setBits false start (signedTurns 1), journalDepth :=
      k.journalDepth + 1 })
    { h with } (hbfsBitmapStart + start / 4096) (.bitmapBuf (start / 4096)) (sectorSpan start 1)
  refine (h.yields_changeIn hn false (· + 1) hwrite).mono fun cf k' h' hcf => ?_
  obtain ⟨k1, ⟨ws, hws, hwrote⟩, hfiles1, -, -, hdisk1⟩ := h' hcf
  rw [hspan] at hws hwrote
  have hfiles := ((sameFiles_stampedFor _ _).trans hwrote.same.outsideTx.sameFiles).trans hfiles1
  have hnot : ¬ InBitmap (hbfsBitmapStart + start / 4096) := by
    unfold InBitmap
    omega
  refine ⟨{ hfiles with geometry := { hfiles.geometry with } }, fun s hs => ?_⟩
  rw [hdisk1 _ (not_inLog_bitmap hs) (by omega) id, hwrote.disk _ (not_inLog_bitmap hs),
    afterWrites_of_notMem]
  · rfl
  intro hmem
  obtain ⟨w, hw, heq⟩ := mem_map.mp hmem
  rcases mem_append.mp hw with hw | hw
  · obtain ⟨m, hm, hkey⟩ := hws.mem hw
    omega
  · rw [Kernel.trailerWrite, if_neg (by simp [Kernel.extraFor, hnot])] at hw
    exact absurd hw (not_mem_nil)

/-- A sector number is freed as if it were a block. -/
theorem Steady.yields_freeSector (h : Steady k) (hlevel : Level true n k) (hn : 0 < n)
    (hblock : block < k.bitmapBits) :
    Yields (hbfsFreeBlocks (blockLba block) 1) (fun cf k' => cf = false →
      StrayFree n block k k') k := by
  have hb := layout_eq
  have hbits := bitmapBits_le k
  have hlba : blockLba block = 8866 + 8 * block := blockLba_eq (by omega)
  by_cases hin : blockLba block < 8 * hbfsBitmapSize
  · refine ((h.yields_freeBlocks (covers_of_le (by omega)) (by decide)).and
      (hlevel.freeBlocks _ _)).mono ?_
    rintro cf k' ⟨hchanged, hlevel'⟩ hcf
    subst hcf
    obtain ⟨-, hset⟩ := hchanged
    refine ⟨hlevel', hset.files.dir, hset.files.geometry.total, ?_⟩
    rw [hset.bit hblock, withRange, if_neg (by omega)]
  · have hfree := hlevel.freeBlocks (blockLba block) 1
    simp only [hbfsFreeBlocks, yields_bind] at hfree ⊢
    refine (h.yields_loadBitmap.and hfree).mono ?_
    rintro _ k1 ⟨hready, hlevel1⟩
    obtain ⟨state, rfl⟩ := hready.eq
    have hloaded : Level true n { k with toBitmapState := state } := hlevel.congr (.of rfl)
    refine ((hloaded.yields_changeBeyond hn (not_lt.mp hin) (by omega)).and hlevel1).mono ?_
    rintro cf k' ⟨hbeyond, hlevel'⟩ hcf
    obtain ⟨hfiles, hbitmap⟩ := hbeyond hcf
    subst hcf
    exact ⟨hlevel', hfiles.dir, hfiles.geometry.total, diskBitmap_bit_congr hbitmap (by omega)⟩

/-! ## The transaction of a deletion -/

/-- The directory is the same, and so is the disk apart from the journal and the superblock. -/
structure SameBlocks (k k' : Kernel) : Prop where
  dir : k'.toDirState = k.toDirState
  bits : k'.bitmapBits = k.bitmapBits
  total : k'.ataTotalSectors = k.ataTotalSectors
  disk : ∀ lba, ¬ InLog lba → lba ≠ hbfsSuperblockLba → k'.disk lba = k.disk lba

theorem SameBlocks.trans (h : SameBlocks k k1) (h' : SameBlocks k1 k2) : SameBlocks k k2 :=
  ⟨h'.dir.trans h.dir, h'.bits.trans h.bits, h'.total.trans h.total, fun lba hlog hsuper =>
    (h'.disk lba hlog hsuper).trans (h.disk lba hlog hsuper)⟩

theorem TxEdge.sameBlocks (h : TxEdge k k') : SameBlocks k k' :=
  ⟨h.same.dir, h.same.geometry.bitmapBits, h.same.total, h.disk⟩

theorem SameBlocks.bit (h : SameBlocks k k') (hm : m < k.bitmapBits) :
    (diskBitmap k'.disk).bit m = (diskBitmap k.disk).bit m := by
  have hb := layout_eq
  have hbits := bitmapBits_le k
  exact diskBitmap_bit_congr (fun s hs => h.disk _ (not_inLog_bitmap hs) (by omega)) (by omega)

theorem SameBlocks.allocated (h : SameBlocks k k') (hm : k.Allocated m) : k'.Allocated m := by
  refine ⟨h.bits ▸ hm.1, ?_⟩
  rw [h.bit hm.1]
  exact hm.2

theorem SameBlocks.holdsRuns (h : SameBlocks k k') (hruns : k.HoldsRuns block runs) :
    k'.HoldsRuns block runs := by
  have hb := layout_eq
  have hblock := hruns.here.1
  have hbits := bitmapBits_le k
  have hbehind := hruns.behind
  have hlba : blockLba block = 8866 + 8 * block := blockLba_eq (by omega)
  refine ⟨hruns.lists.congr hruns.fits fun i hi => ?_, hruns.nonempty, hruns.fits,
    hruns.pos, hruns.apart,
    fun m hm => h.allocated (hruns.allocated m hm), h.allocated hruns.here, hbehind, ?_⟩
  · have hsectors : ∀ m < hbfsSectorsPerBlk, k'.disk (blockLba block + m) =
      k.disk (blockLba block + m) := by
      intro m hm
      refine h.disk _ ?_ (by omega)
      rw [inLog_iff]
      omega
    exact Buffer.ofDisk_congr hsectors hi
  · rw [h.total]
    exact hruns.onDevice

/-- What an entry owns stays its own. -/
theorem SameBlocks.owns (h : SameBlocks k k') {slot : Nat} {data xattr : List Nat}
    (howns : k.Owns slot data xattr) :
    k'.Owns slot data xattr := by
  refine ⟨?_, ?_, howns.apart, fun m hm => h.allocated (howns.allocated m hm)⟩
  · have hdata := howns.ofData
    unfold Kernel.DataBlocks at hdata ⊢
    rw [h.dir]
    split
    · next hflag =>
      rw [if_pos hflag] at hdata
      obtain ⟨runs, hruns, heq⟩ := hdata
      exact ⟨runs, h.holdsRuns hruns, heq⟩
    · next hflag => rwa [if_neg hflag] at hdata
  · unfold Kernel.XattrBlocks
    rw [h.dir]
    exact howns.ofXattr

/-- A transaction has been opened on a volume that is in order, and it still is. -/
structure TxBegun (n : Nat) (k k' : Kernel) : Prop where
  steady : Steady k'
  level : Level true (n + 1) k'
  coherent : Coherent k'
  edge : TxEdge k k'
  logged : k'.loggedNow = k.loggedNow

theorem Coherent.begin (hk : Coherent k) (h : TxReady k) (hlevel : Level true n k) :
    Yields hbfsJournalBegin (fun _ k' => Coherent k') k := by
  simp only [hbfsJournalBegin, hbfsRequireWritable, yields_rules]
  rw [if_neg (by simp [hlevel.writable_eq]), if_neg (by simp [hlevel.journalled (.inl rfl)])]
  split
  · exact hk
  · exact yields_hbfsWriteSuperblock { h.healthy with } (coherent_of_empty fun _ _ => rfl)

/-- The transaction begins with the books as they are. -/
theorem Steady.yields_begin (h : Steady k) (hlevel : Level true n k) (hk : Coherent k) :
    Yields hbfsJournalBegin (fun _ k' => TxBegun n k k') k := by
  have hb := layout_eq
  refine ((h.toTxReady.yields_begin.and hlevel.begin_journalled).and
    (hk.begin h.toTxReady hlevel)).mono
    fun _ k' ⟨⟨⟨b, hopened⟩, hlevel'⟩, hk'⟩ => ?_
  have hedge := hopened.edge
  have hlog := hopened.ongoing.log (hlevel'.journalled (.inl rfl))
  refine ⟨⟨⟨hlevel'.toUsable, hopened.ongoing.healthy, fun _ => ?_⟩, ?_, fun hvalid => ?_⟩, hlevel',
    hk', hedge, ?_⟩
  · grind
  · rw [hedge.same.totalBlocks]
    exact h.blocks
  · rw [hedge.same.bitmap] at hvalid
    rw [bitmapLoaded_iff]
    intro s hs
    rw [hedge.disk _ (not_inLog_bitmap hs) (by omega), hedge.same.bitmap]
    exact bitmapLoaded_iff.mp (h.bitmap hvalid) s hs
  · obtain ⟨-, recs, hinv, hlogged⟩ := hlog
    rw [← hlogged, loggedIn_journalLogged hinv, Kernel.loggedNow,
      if_neg (by rw [hlevel'.depth]; omega)]

/-! ## The whole deletion -/

/-- The resident free count is the one on the disk. -/
def Kernel.CountSynced (k : Kernel) : Prop :=
  (k.disk hbfsSuperblockLba).dword sbFreeBlocks = k.superBuf.dword sbFreeBlocks

theorem TxEdge.countSynced (h : TxEdge k k') (hcount : k.CountSynced) :
    k'.CountSynced ∧ k'.superBuf.dword sbFreeBlocks = k.superBuf.dword sbFreeBlocks := by
  have hresident : k'.superBuf.dword sbFreeBlocks = k.superBuf.dword sbFreeBlocks :=
    h.same.superBuf.dword (by decide)
  refine ⟨?_, hresident⟩
  unfold Kernel.CountSynced at hcount ⊢
  rcases h.onDisk with heq | hsame
  · rw [heq, hcount, hresident]
  · rw [hsame.dword (by decide), hresident]

theorem EntryCleared.free (h : EntryCleared k k') (hcount : k.CountSynced) :
    (k'.disk hbfsSuperblockLba).dword sbFreeBlocks = k.superBuf.dword sbFreeBlocks := by
  rcases h.onDisk with heq | hsame
  · rw [heq]
    exact hcount
  · exact hsame.dword (by decide)

theorem EntryCleared.bit (h : EntryCleared k k') (hm : m < 8 * hbfsBitmapSize) :
    (diskBitmap k'.disk).bit m = (diskBitmap k.disk).bit m := diskBitmap_bit_congr h.bitmap hm

/-- What was freed is given back in the books. -/
theorem Releases.of_freed (hsame : SameBlocks k k1) (hfreed : BlocksFreed n blocks k1 k2)
    (hcleared : EntryCleared k2 k') (hsynced : k1.CountSynced)
    (hfree : k1.superBuf.dword sbFreeBlocks = (k.disk hbfsSuperblockLba).dword sbFreeBlocks) :
    Releases blocks k k' := by
  have hbits := bitmapBits_le k
  refine ⟨fun m hm => ?_, ?_⟩
  · have hm1 : m < k1.bitmapBits := hsame.bits ▸ hm
    rw [hcleared.bit (by omega), hfreed.bits m hm1, hsame.bit hm]
  · rw [hcleared.free (hfreed.onDisk hsynced), hfreed.free, hfree]

theorem Releases.not_of_bit (hmem : block ∈ blocks) (hblock : block < k.bitmapBits)
    (hbit : (diskBitmap k'.disk).bit block = true) : ¬ Releases blocks k k' :=
  fun h => ((h.bits block hblock).mp hbit).2 hmem

section Delete

variable {slot : Nat} {data xattr : List Nat}

/-- An entry without extended attributes is cleared, and nothing else is freed. -/
theorem BlocksFreed.yields_afterData (h : BlocksFreed (n + 1) blocks k k1)
    (hsafe : DirSafe k1.currentDirLba k1.currentDirSects k1.ataTotalSectors)
    (hnone : k1.dirBuf.entryDword slot deXattrLba = 0) :
    Yields (afterData slot) (fun exit k' => exit = .deleted → EntryCleared k1 k') k1 := by
  simp only [afterData, freeEntryXattr, yields_rules]
  rw [if_pos hnone, if_neg Bool.false_ne_true]
  exact h.level.yields_clearEntry hsafe slot

/-- An entry with extended attributes is cleared, and their block is left allocated. -/
theorem BlocksFreed.yields_afterData_xattr (h : BlocksFreed (n + 1) blocks k k1)
    (hsafe : DirSafe k1.currentDirLba k1.currentDirSects k1.ataTotalSectors)
    (hblock : block < k1.bitmapBits) (hlba : blockLba block = k1.dirBuf.entryDword slot deXattrLba)
    (hsome : k1.dirBuf.entryDword slot deXattrLba ≠ 0) :
    Yields (afterData slot) (fun exit k' => exit = .deleted →
      (diskBitmap k'.disk).bit block = (diskBitmap k1.disk).bit block) k1 := by
  have hsize := bitmapBits_le k1
  simp only [afterData, freeEntryXattr, yields_rules]
  rw [if_neg hsome, ← hlba]
  refine (h.steady.yields_freeSector h.level (succ_pos n) hblock).mono fun cf k2 h2 => ?_
  cases cf with
  | true => grind
  | false =>
  have hstray := h2 rfl
  have hsafe2 : DirSafe k2.currentDirLba k2.currentDirSects k2.ataTotalSectors := by
    rw [hstray.dir, hstray.total]
    exact hsafe
  rw [if_neg Bool.false_ne_true]
  refine (hstray.level.yields_clearEntry hsafe2 slot).mono fun exit k' hcleared hexit => ?_
  rw [(hcleared hexit).bit (by omega), hstray.bit]

/-- The transaction of a deletion, on a volume `k` that differs from `k0` in the quota table at
most. -/
theorem Steady.yields_deleteEntryAt {k0 : Kernel} (h : Steady k) (hlevel : Level true n k)
    (hk : Coherent k)
    (hsafe : DirSafe k.currentDirLba k.currentDirSects k.ataTotalSectors) (hcount : k.CountSynced)
    (hsame : SameBlocks k0 k) (hsuper : k.disk hbfsSuperblockLba = k0.disk hbfsSuperblockLba)
    (howns : k0.Owns slot data xattr) :
    Yields (deleteEntryAt slot) (fun exit k' => exit = .deleted →
      (Releases (data ++ xattr) k0 k' ↔ k0.dirBuf.entryDword slot deXattrLba = 0)) k := by
  simp only [deleteEntryAt, yields_bind]
  refine (h.yields_begin hlevel hk).mono fun _ k1 hbegun => ?_
  have hblocks := hsame.trans hbegun.edge.sameBlocks
  obtain ⟨hsynced, hresident⟩ := hbegun.edge.countSynced hcount
  refine (hbegun.steady.yields_freeEntryData hbegun.level hbegun.coherent (hblocks.owns howns)).mono
    fun exit k2 h2 => ?_
  cases exit with
  | damaged =>
    simp only [yields_pure]
    simp
  | undone =>
    simp only [yields_pure]
    simp
  | freed =>
  have hfreed := h2 rfl
  have hdir : k2.toDirState = k0.toDirState := hfreed.files.dir.trans hblocks.dir
  have hsafe2 : DirSafe k2.currentDirLba k2.currentDirSects k2.ataTotalSectors := by
    rw [hdir, ← hsame.dir, hfreed.files.geometry.total, hbegun.edge.same.total]
    exact hsafe
  have hentry : k2.dirBuf.entryDword slot deXattrLba =
    k0.dirBuf.entryDword slot deXattrLba := by rw [hdir]
  have hxattr := howns.ofXattr
  unfold Kernel.XattrBlocks at hxattr
  show Yields (afterData slot) _ k2
  split at hxattr
  · next hnone =>
    refine (hfreed.yields_afterData hsafe2 (hentry.trans hnone)).mono
      fun exit k' hcleared hexit => ?_
    rw [hxattr, append_nil]
    refine iff_of_true (Releases.of_freed hblocks hfreed (hcleared hexit) hsynced ?_) hnone
    rw [hresident, ← hcount, hsuper]
  next hsome =>
  obtain ⟨block, hlba, rfl⟩ := hxattr
  have hmem : block ∈ data ++ [block] := mem_append_right _ (mem_singleton_self _)
  obtain ⟨hblock, hset⟩ := howns.allocated block hmem
  have hblock1 : block < k1.bitmapBits := hblocks.bits ▸ hblock
  have hblock2 : block < k2.bitmapBits := hfreed.files.geometry.bitmapBits ▸ hblock1
  have hnotMem : block ∉ data := by
    intro hin
    exact (nodup_append.mp howns.apart).2.2 block hin block (mem_singleton_self _) rfl
  refine (hfreed.yields_afterData_xattr hsafe2 hblock2 (hlba.trans hentry.symm)
    (hentry ▸ hsome)).mono
    fun exit k' hbit hexit => ?_
  refine iff_of_false (Releases.not_of_bit hmem hblock ?_) hsome
  rw [hbit hexit]
  exact (hfreed.bits block hblock1).mpr ⟨(hblocks.bit hblock).trans hset, hnotMem⟩

theorem Steady.aside (h : Steady k) (dir : DirState) (quota : QuotaState) :
    Steady { k with toDirState := dir, toQuotaState := quota } :=
  ⟨h.toTxReady.aside _ dir quota, h.blocks, h.bitmap⟩

/-- A deletion that succeeds frees what the entry owns. -/
theorem Steady.yields_deleteFileEntry (h : Steady k) (hlevel : Level true n k) (hk : Coherent k)
    (hsafe : DirSafe k.currentDirLba k.currentDirSects k.ataTotalSectors) (hcount : k.CountSynced)
    (howns : k.Owns slot data xattr) :
    Yields (hbfsDeleteFileEntry slot) (fun exit k' => exit = .deleted →
      (Releases (data ++ xattr) k k' ↔ k.dirBuf.entryDword slot deXattrLba = 0)) k := by
  simp only [hbfsDeleteFileEntry, hbfsRequireWritable, yields_rules]
  rw [if_neg (by simp [hlevel.writable_eq])]
  refine (quotaOnly_releaseEntry k slot).mono ?_
  rintro _ k0 ⟨q, hq⟩
  subst hq
  have hlevel0 : Level true n { k with toQuotaState := q } := hlevel.congr (.of rfl)
  have hsame : SameBlocks k { k with toQuotaState := q } := ⟨rfl, rfl, rfl, fun _ _ _ => rfl⟩
  exact (h.aside _ q).yields_deleteEntryAt hlevel0 hk hsafe hcount hsame rfl howns

/-- A deletion that succeeds gives back exactly the entry's blocks when the entry has no block of
extended attributes, and only then. -/
theorem delete_exact_iff (h : Steady k) (hlevel : Level true n k) (hk : Coherent k)
    (hsafe : DirSafe k.currentDirLba k.currentDirSects k.ataTotalSectors) (hcount : k.CountSynced)
    (howns : k.Owns slot data xattr)
    (hdeleted : Yields (hbfsDeleteFileEntry slot) (fun exit _ => exit = .deleted) k) :
    DeleteExact slot (data ++ xattr) k ↔ k.dirBuf.entryDword slot deXattrLba = 0 := by
  refine (hdeleted.and (h.yields_deleteFileEntry hlevel hk hsafe hcount howns)).decided
    fun exit k' ⟨hexit, hiff⟩ => ?_
  constructor
  · intro hexact
    exact (hiff hexit).mp (hexact hexit)
  · intro hnone _
    exact (hiff hexit).mpr hnone

/-- With three records to spare the entry is cleared. -/
theorem Steady.yields_clearEntry (h : Steady k)
    (hsafe : DirSafe k.currentDirLba k.currentDirSects k.ataTotalSectors)
    (hexact : ShadowExact k.currentDirLba k.currentDirSects k) (hbuf : k.dirBuf = k.dirShadow)
    (hroom : k.loggedNow.card ≤ 12) :
    Yields (clearEntry slot) (fun exit _ => exit = .deleted) k := by
  have hrecords : journalRecords = 15 := rfl
  simp only [clearEntry, yields_rules]
  set dir : DirState :=
    { k.toDirState with dirBuf := k.dirBuf.clear (entryOff slot 0) hbfsDirEntrySize } with hdir
  refine ((h.aside dir _).yields_saveRootDir hsafe hexact).mono fun cf k1 h1 => ?_
  cases cf with
  | true =>
    refine absurd (Kernel.hasRoom_of_card ?_) (h1.1 rfl)
    have hcard : (Kernel.dirTargets { k with toDirState := dir }).card ≤ 3 := by
      refine card_dirTargets_le slot fun i _ hi => ?_
      show k.dirBuf.clear (entryOff slot 0) hbfsDirEntrySize i = k.dirShadow i
      rw [Buffer.clear, if_neg (by omega), hbuf]
    have hlogged : (Kernel.loggedNow { k with toDirState := dir }).card ≤ 12 := hroom
    omega
  | false =>
    rw [if_neg Bool.false_ne_true]
    exact yields_of_forall fun _ _ => trivial

/-- When the entry has no data and the log has room, the deletion succeeds. -/
theorem Steady.yields_deleted (h : Steady k) (hlevel : Level true 0 k) (hk : Coherent k)
    (hsafe : DirSafe k.currentDirLba k.currentDirSects k.ataTotalSectors)
    (hexact : ShadowExact k.currentDirLba k.currentDirSects k) (hbuf : k.dirBuf = k.dirShadow)
    (hflags : k.dirBuf.entryWord slot deFlags &&& hbfs4DeExtents = 0)
    (hdata : k.dirBuf.entryDword slot deBlkcnt = 0)
    (hcover : Covers (k.dirBuf.entryDword slot deXattrLba) 1)
    (hroom : (k.changeTargets (k.dirBuf.entryDword slot deXattrLba) 1).card ≤ 12) :
    Yields (hbfsDeleteFileEntry slot) (fun exit _ => exit = .deleted) k := by
  have hrecords : journalRecords = 15 := rfl
  simp only [hbfsDeleteFileEntry, releaseEntry, hbfsRequireWritable, deleteEntryAt, yields_rules]
  rw [if_neg (by simp [hlevel.writable_eq]), if_neg (not_not.mpr hdata)]
  refine (h.yields_begin hlevel hk).mono fun _ k1 hbegun => ?_
  have hdir1 : k1.toDirState = k.toDirState := hbegun.edge.same.dir
  have hlogged1 : k1.loggedNow = ∅ := hbegun.logged.trans (if_pos hlevel.depth)
  have hexact1 : ShadowExact k.currentDirLba k.currentDirSects k1 := by
    intro i hi
    rw [hdir1, hexact i hi]
    exact (hbegun.edge.disk _ (hsafe.log i hi) (hsafe.resident i hi)).symm
  have hsafe1 : DirSafe k.currentDirLba k.currentDirSects k1.ataTotalSectors :=
    hbegun.edge.same.total ▸ hsafe
  -- The rest of the call, from any state with the same directory.
  have hcleared : ∀ k2, Steady k2 → k2.toDirState = k.toDirState →
    k2.ataTotalSectors = k1.ataTotalSectors →
      ShadowExact k.currentDirLba k.currentDirSects k2 → k2.loggedNow.card ≤ 12 →
      Yields (clearEntry slot) (fun exit _ => exit = .deleted) k2 := by
    intro k2 h2 hdir2 htotal2 hexact2 hroom2
    rw [← hdir2, ← htotal2] at hsafe1
    rw [← hdir2] at hexact2 hbuf
    exact h2.yields_clearEntry hsafe1 hexact2 hbuf hroom2
  simp only [freeEntryData, yields_rules]
  rw [hdir1, if_neg (not_not.mpr hflags), if_pos (by rw [hdata]; rfl)]
  simp only [freeEntryXattr, yields_rules]
  rw [hdir1]
  by_cases hnone : k.dirBuf.entryDword slot deXattrLba = 0
  · rw [if_pos hnone]
    refine hcleared k1 hbegun.steady hdir1 rfl hexact1 ?_
    rw [hlogged1]
    exact Nat.zero_le 12
  rw [if_neg hnone]
  have htargets : k1.changeTargets (k.dirBuf.entryDword slot deXattrLba) 1 =
      k.changeTargets (k.dirBuf.entryDword slot deXattrLba) 1 := by
    unfold Kernel.changeTargets Kernel.bitmapTargets
    rw [hbegun.edge.same.geometry.isV4]
  refine (hbegun.steady.yields_freeBlocks hcover (by decide)).mono fun cf k2 hchanged => ?_
  cases cf with
  | true =>
    refine absurd (Kernel.hasRoom_of_card ?_) hchanged.1
    rw [hlogged1, Finset.card_empty, htargets]
    omega
  | false =>
  obtain ⟨-, hset⟩ := hchanged
  rw [if_neg Bool.false_ne_true]
  refine hcleared k2 hset.steady (hset.files.dir.trans hdir1) hset.files.geometry.total
    (fun i hi => ?_) ?_
  · rw [hset.files.dir, hexact1 i hi, hset.disk _ (hsafe.log i hi) (hsafe.resident i hi)
      (hsafe.bitmap i hi)]
  · rwa [hset.logged (by rw [hbegun.level.depth]; omega), hlogged1, Finset.empty_union, htargets]

end Delete

/-! ## Empty files -/

/-- A root directory with one empty file, whose extended attributes are in block 20. -/
def taggedDir : Buffer := fun i =>
  if i = 0 then 97
  else if i = deType then 1
  else if i = deXattrLba then 0x42
  else if i = deXattrLba + 1 then 0x23
  else 0

/-- A small volume with that directory and the block 20 allocated. -/
def taggedVolume : Kernel := rootVolume taggedDir 16

theorem taggedVolume_countSynced : taggedVolume.CountSynced := by
  unfold Kernel.CountSynced
  decide

theorem taggedVolume_owns : taggedVolume.Owns 0 [] [20] := by
  have hlba : taggedVolume.dirBuf.entryDword 0 deXattrLba = 9026 := by decide
  refine ⟨?_, ?_, by decide, ?_⟩
  · unfold Kernel.DataBlocks
    rw [if_neg (by decide)]
    decide
  · unfold Kernel.XattrBlocks
    rw [hlba, if_neg (by decide)]
    exact ⟨20, blockLba_eq (by decide), rfl⟩
  · intro m hm
    obtain rfl := mem_singleton.mp hm
    refine ⟨?_, rootVolume_bit taggedDir 16 (by decide)⟩
    rw [taggedVolume, rootVolume_bitmapBits]
    decide

theorem taggedVolume_deleted :
    Yields (hbfsDeleteFileEntry 0) (fun exit _ => exit = .deleted) taggedVolume := by
  have hlba : taggedVolume.dirBuf.entryDword 0 deXattrLba = 9026 := by decide
  refine (rootVolume_steady taggedDir 16).yields_deleted (rootVolume_level _ _)
    (rootVolume_coherent _ _) (rootVolume_dirSafe _ _) (rootVolume_shadowExact _ _) rfl
    (by decide) (by decide) ?_ ?_
  · exact hlba ▸ covers_of_le (by decide)
  · show (taggedVolume.changeTargets (taggedVolume.dirBuf.entryDword 0 deXattrLba) 1).card ≤ 12
    rw [hlba]
    decide

/-- The directory with that file, without attributes. -/
def untaggedDir : Buffer := fun i => if i = 0 then 97 else if i = deType then 1 else 0

/-- A small volume with this directory and no block allocated. -/
def untaggedVolume : Kernel := rootVolume untaggedDir 0

theorem untaggedVolume_owns : untaggedVolume.Owns 0 [] [] := by
  have hlba : untaggedVolume.dirBuf.entryDword 0 deXattrLba = 0 := by decide
  refine ⟨?_, ?_, List.nodup_nil, fun m hm => absurd hm List.not_mem_nil⟩
  · unfold Kernel.DataBlocks
    rw [if_neg (by decide)]
    decide
  · unfold Kernel.XattrBlocks
    rw [hlba, if_pos rfl]

theorem untaggedVolume_deleted :
    Yields (hbfsDeleteFileEntry 0) (fun exit _ => exit = .deleted) untaggedVolume := by
  have hlba : untaggedVolume.dirBuf.entryDword 0 deXattrLba = 0 := by decide
  refine (rootVolume_steady untaggedDir 0).yields_deleted (rootVolume_level _ _)
    (rootVolume_coherent _ _) (rootVolume_dirSafe _ _) (rootVolume_shadowExact _ _) rfl
    (by decide) (by decide) ?_ ?_
  · exact hlba ▸ covers_of_le (by decide)
  · show (untaggedVolume.changeTargets (untaggedVolume.dirBuf.entryDword 0 deXattrLba) 1).card ≤ 12
    rw [hlba]
    decide

/-- An entry with attributes, and one without. -/
theorem delete_exact_iff_tagged :
    (DeleteExact 0 ([] ++ [20]) taggedVolume ↔ taggedVolume.dirBuf.entryDword 0 deXattrLba = 0) ∧
      DeleteExact 0 ([] ++ []) untaggedVolume := by
  have huntagged := delete_exact_iff (rootVolume_steady untaggedDir 0) (rootVolume_level _ _)
    (rootVolume_coherent _ _) (rootVolume_dirSafe _ _) (by unfold Kernel.CountSynced; decide)
    untaggedVolume_owns untaggedVolume_deleted
  exact ⟨delete_exact_iff (rootVolume_steady taggedDir 16) (rootVolume_level _ _)
    (rootVolume_coherent _ _) (rootVolume_dirSafe _ _) taggedVolume_countSynced taggedVolume_owns
    taggedVolume_deleted, huntagged.mpr (by decide)⟩

/-- The file is deleted, and the block of its attributes stays allocated. -/
theorem delete_not_exact :
    Steady taggedVolume ∧ taggedVolume.Owns 0 [] [20] ∧ ¬ DeleteExact 0 [20] taggedVolume := by
  have hsteady : Steady taggedVolume := rootVolume_steady taggedDir 16
  refine ⟨hsteady, taggedVolume_owns, fun hexact => ?_⟩
  have hiff := hsteady.yields_deleteFileEntry (rootVolume_level _ _) (rootVolume_coherent _ _)
    (rootVolume_dirSafe _ _) taggedVolume_countSynced taggedVolume_owns
  obtain ⟨⟨hdeleted, hexact⟩, hiff⟩ := (taggedVolume_deleted.and hexact).and hiff
  exact absurd ((hiff hdeleted).mp (hexact hdeleted)) (by decide)

end Mellivora
