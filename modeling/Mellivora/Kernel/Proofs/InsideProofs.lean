import Mellivora.Kernel.Proofs.AccountProofs
import Mellivora.Kernel.Proofs.DirectoryProofs

/-!
# Inside an open transaction

A routine that is called inside a transaction only counts its own begin and commit.
-/

namespace Mellivora

open WriteLog Outcome List Buffer

variable {cnt start : Nat} {j : Bool} {n : Nat} {k k1 k2 k' : Kernel}

/-! ## Begin and commit -/

theorem Level.yields_begin (h : Level j n k) (hn : 0 < n) {Q : Unit → Kernel → Prop} :
    Yields hbfsJournalBegin Q k ↔ Q () { k with journalDepth := k.journalDepth + 1 } := by
  have hdepth := h.depth
  simp only [hbfsJournalBegin, hbfsRequireWritable, yields_rules]
  rw [if_neg (by simp [h.writable_eq]), if_neg (by simp [h.journalled (.inr hn)]),
    if_pos (by omega)]

theorem Level.yields_commit (h : Level j (n + 1) k) (hn : 0 < n) {Q : Unit → Kernel → Prop} :
    Yields hbfsJournalCommit Q k ↔ Q () { k with journalDepth := k.journalDepth - 1 } := by
  have hdepth := h.depth
  have hdirty : k.journalDirty = true := by simp [h.dirty]
  simp only [hbfsJournalCommit, yields_rules]
  rw [if_neg (by simp [h.journalled (by simp)]), if_neg (by simp [hdirty]), if_pos (by omega)]

/-! ## Metadata writes -/

/-- A metadata write that succeeds has written every sector. -/
theorem Usable.yields_metaWrite (h : Usable k) (lba : Nat) (src : MetaSrc) (cnt : Nat) :
    Yields (hbfsMetaWrite lba src cnt) (fun cf k' => cf = false → ∃ ws,
      SrcWrites (k.stampedFor lba) lba src 0 cnt ws ∧
        Wrote (ws ++ k.trailerWrite lba cnt) (k.stampedFor lba) k') k := by
  simp only [hbfsMetaWrite, hbfsRequireWritable, yields_rules]
  rw [if_neg (by simp [h.writable_eq])]
  refine (wrote_metaTry k lba src cnt).mono ?_
  rintro cf k1 ⟨m, ws, vs, hwrote⟩
  cases cf with
  | true => simp [Yields]
  | false =>
    intro _
    obtain ⟨rfl, rfl⟩ := hwrote.all rfl
    exact ⟨ws, hwrote.range, hwrote.wrote⟩

/-! ## The allocator -/

theorem v4Blocks_eq : v4Blocks = 524256 := rfl

/-- Writing the count leaves files, bitmap and data. -/
theorem Usable.yields_writeFreeCount (h : Usable k) (count : Nat → Nat) :
    Yields (writeFreeCount count) (fun cf k' => cf = false → SameFiles k k' ∧
      k'.toExtentState = k.toExtentState ∧ k'.toBitmapState = k.toBitmapState ∧
      DiskKept (fun _ => False) k.disk k'.disk) k := by
  have htry := yields_trySuper k count
  simp only [trySuper, yields_rules] at htry
  simp only [writeFreeCount, hbfsMetaWrite, hbfsRequireWritable, yields_rules]
  rw [if_neg (by simp [h.writable_eq])]
  refine htry.mono fun cf k' h' => ?_
  cases cf with
  | true => simp [Yields]
  | false =>
    obtain ⟨hafter, hdisk⟩ := h'.put rfl
    exact fun _ => ⟨h'.files, h'.extent, hafter.bitmap, hdisk⟩

/-- Inside a transaction only the writes of the bitmap and of the free count have an effect. -/
theorem Level.yields_changeIn (h : Level true n k) (hn : 0 < n) (b : Bool) (count : Nat → Nat)
    {P : Kernel → Prop}
    (hwrite : Yields (writeBitmapRange start cnt) (fun cf k1 => cf = false → P k1) { k with
      bitmapBuf := k.bitmapBuf.setBits b start (signedTurns cnt), journalDepth :=
        k.journalDepth + 1 }) :
    Yields (Mellivora.changeBlocks b start cnt count) (fun cf k' => cf = false → ∃ k1, P k1 ∧
      SameFiles k1 k' ∧
      k'.toExtentState = k1.toExtentState ∧ k'.toBitmapState = k1.toBitmapState ∧
        DiskKept (fun _ => False) k1.disk k'.disk) k := by
  simp only [Mellivora.changeBlocks, yields_rules]
  have hset : Level true n { k with bitmapBuf := k.bitmapBuf.setBits b start (signedTurns cnt) } :=
    h.congr (.of rfl)
  rw [hset.yields_begin hn]
  have hbegun : Level true (n + 1) { k with
      bitmapBuf := k.bitmapBuf.setBits b start (signedTurns cnt), journalDepth :=
        k.journalDepth + 1 } :=
    (hset.yields_begin hn).mp hset.begin_journalled
  refine (hwrite.and (hbegun.metaWrite _ _ _)).check (fun _ _ => by simp) ?_
  rintro k1 ⟨h1, hlevel1⟩
  have hlevel1 : Level true (n + 1) k1 := hlevel1
  refine ((hlevel1.toUsable.yields_writeFreeCount count).and
    (Begun.writeFreeCount (.inl hlevel1) count)).check (fun _ _ => by simp) ?_
  rintro k2 ⟨h2, hlevel2⟩
  obtain ⟨hfiles2, hextent2, hbitmap2, hdisk2⟩ := h2 rfl
  have hlevel2 : Level true (n + 1) k2 := by
    rcases hlevel2 with hlevel2 | ⟨hfalse, -⟩
    · exact hlevel2
    · exact absurd hfalse (by decide)
  rw [hlevel2.yields_commit hn]
  exact fun _ =>
    ⟨k1, h1 rfl, { hfiles2 with geometry := { hfiles2.geometry with } }, hextent2, hbitmap2, hdisk2⟩

variable {used : Nat → Bool}

/-- The set of used blocks with those of a range set to `b`. -/
def withRange (b : Bool) (start cnt : Nat) (used : Nat → Bool) : Nat → Bool :=
  fun m => if start ≤ m ∧ m < start + cnt then b else used m

/-! ## Saving the directory -/

/-- The sectors of a directory. -/
def InDir (lba sects a : Nat) : Prop := lba ≤ a ∧ a < lba + sects

/-- What the save of the directory leaves alone: all but the shadow, the journal and the device. -/
structure SameButShadow (k k' : Kernel) : Prop where
  bitmap : k'.toBitmapState = k.toBitmapState
  extent : k'.toExtentState = k.toExtentState
  cwd : k'.toCwdState = k.toCwdState
  quota : k'.toQuotaState = k.toQuotaState
  caller : k'.toCallerState = k.toCallerState
  dirBuf : k'.dirBuf = k.dirBuf
  currentDirLba : k'.currentDirLba = k.currentDirLba
  currentDirSects : k'.currentDirSects = k.currentDirSects
  dirCacheLba : k'.dirCacheLba = k.dirCacheLba
  dirCacheSects : k'.dirCacheSects = k.dirCacheSects
  geometry : SameGeometry k k'

theorem SameButShadow.refl (k : Kernel) : SameButShadow k k :=
  ⟨rfl, rfl, rfl, rfl, rfl, rfl, rfl, rfl, rfl, rfl, SameGeometry.refl k⟩

theorem SameButShadow.trans (h : SameButShadow k k1) (h' : SameButShadow k1 k2) :
    SameButShadow k k2 := by
  have hgeometry := h.geometry.trans h'.geometry
  cases h; cases h'
  constructor <;> simp only [*]

theorem SameOutsideTx.sameButShadow (h : SameOutsideTx k k') : SameButShadow k k' := by
  refine ⟨h.bitmap, h.extent, h.cwd, h.quota, h.caller, ?_, ?_, ?_, ?_, ?_,
    h.geometry⟩ <;> rw [h.dir]

/-- The shadow is what the directory at `lba` holds on the disk. -/
def ShadowExact (lba sects : Nat) (k : Kernel) : Prop :=
  ∀ i < sects, k.dirShadow.sector i = k.disk (lba + i)

theorem sector_putSector (buf : Buffer) (i : Nat) (s : Sector) :
    (buf.putSector i s).sector i = s := by
  have hdiv : ∀ m : Fin 512, (512 * i + m.val) / 512 = i := fun m => by omega
  have hmod : ∀ m : Fin 512, (512 * i + m.val) % 512 = m.val := fun m => by omega
  refine Sector.ext (funext fun m => ?_)
  simp only [sector, putSector, hdiv, hmod, if_true]

theorem sector_putSector_of_ne (buf : Buffer) {i i' : Nat} (s : Sector) (h : i' ≠ i) :
    (buf.putSector i s).sector i' = buf.sector i' := by
  refine sector_congr fun m h1 h2 => ?_
  rw [putSector, if_neg (by omega)]

theorem nil_logSector (hf : k.faults = []) (lba : Nat) :
    Yields (hbfsJournalLogSector lba) (fun _ k' => k'.faults = []) k := by
  simp only [hbfsJournalLogSector, journalFail, yields_rules]
  split_ifs
  · exact hf
  · exact hf
  · exact hf
  · exact hf
  · exact hf
  refine yields_ataReadSector (fun fs hfs _ => ?_) fun fs hfs => (hfs hf).1
  obtain rfl := hfs hf
  simp only [yields_rules]
  refine yields_ataWriteSector (fun fs hfs _ => ?_) fun fs hfs => (hfs rfl).1
  obtain rfl := hfs rfl
  rw [if_neg Bool.false_ne_true]
  exact yields_ataWriteSector (fun fs hfs _ => hfs rfl) fun fs hfs => (hfs rfl).1

/-- What the loop of a save leaves alone. -/
structure LoopKept (lba i cnt : Nat) (k k' : Kernel) : Prop where
  same : SameButShadow k k'
  resident : SameOutsideJournal k'.superBuf k.superBuf
  depth : k'.journalDepth = k.journalDepth
  disk : ∀ a, ¬ InLog a → ¬ InDir (lba + i) cnt a → k'.disk a = k.disk a
  faults : k.faults = [] → k'.faults = []

theorem LoopKept.cons {lba i cnt : Nat} (h : SameButShadow k k1)
    (hresident : SameOutsideJournal k1.superBuf k.superBuf)
    (hdepth : k1.journalDepth = k.journalDepth)
    (hdisk : ∀ a, ¬ InLog a → a ≠ lba + i → k1.disk a = k.disk a) (hfaults : k.faults = [] →
      k1.faults = [])
    (h' : LoopKept lba (i + 1) cnt k1 k2) : LoopKept lba i (cnt + 1) k k2 := by
  refine ⟨h.trans h'.same, h'.resident.trans hresident, h'.depth.trans hdepth, fun a ha hout => ?_,
    fun hf => h'.faults (hfaults hf)⟩
  unfold InDir at hout
  rw [h'.disk a ha (by unfold InDir; omega)]
  exact hdisk a ha (by omega)

/-- What the loop leaves alone. -/
theorem kept_saveLoop (k : Kernel) (lba cnt i : Nat) :
    Yields (saveLoop lba cnt i) (fun _ k' => LoopKept lba i cnt k k') k := by
  have hstop : ∀ {k k' : Kernel} {i cnt : Nat}, Wrote [] k k' → (k.faults = [] → k'.faults = []) →
      LoopKept lba i cnt k k' := fun h hnil =>
    ⟨h.same.outsideTx.sameButShadow, h.same.outsideTx.superBuf, h.same.depth,
      fun a ha _ => h.disk a ha, hnil⟩
  induction cnt generalizing k i with
  | zero => exact hstop (Wrote.refl k) id
  | succ cnt ih =>
  simp only [saveLoop, yields_rules]
  split
  · exact (ih k (i + 1)).mono fun _ _ =>
      LoopKept.cons (SameButShadow.refl k) (SameOutsideJournal.refl _) rfl
      (fun _ _ _ => rfl) id
  have hlogged : Yields (hbfsJournalLogSector (lba + i)) (fun _ k' => k.faults = [] →
    k'.faults = []) k :=
    fun hf => nil_logSector hf _
  refine ((wrote_logSector k (lba + i)).and hlogged).mono ?_
  rintro cf k1 ⟨h1, hnil1⟩
  split
  · exact hstop h1 hnil1
  refine yields_ataWriteSector (fun fs hfs _ => ?_) fun fs hfs => ?_
  · rw [if_neg Bool.false_ne_true]
    refine (ih _ (i + 1)).mono fun _ _ => LoopKept.cons (h1.same.outsideTx.sameButShadow.trans
      ⟨rfl, rfl, rfl, rfl, rfl, rfl, rfl, rfl, rfl, rfl, rfl, rfl, rfl, rfl, rfl, rfl⟩)
      h1.same.outsideTx.superBuf h1.same.depth (fun a ha hne => ?_) fun hf => hfs (hnil1 hf)
    exact (Function.update_of_ne hne ..).trans (h1.disk a ha)
  · rw [if_pos rfl]
    exact hstop (h1.trans (Wrote.faults k1 fs)) fun hf => (hfs (hnil1 hf)).1

/-- The loop writes the shadow's sectors. -/
theorem yields_saveLoop_written {lba sects : Nat} (hlog : ∀ i < sects, ¬ InLog (lba + i)) :
    ∀ {cnt i : Nat} {k : Kernel}, cnt + i = sects → ShadowExact lba sects k →
      (∀ m < i, k.dirShadow.sector m = k.dirBuf.sector m) →
      Yields (saveLoop lba cnt i) (fun cf k' => cf = false → ShadowExact lba sects k' ∧
        ∀ m < sects, k'.dirShadow.sector m = k'.dirBuf.sector m) k := by
  intro cnt
  induction cnt with
  | zero =>
    intro i k hi hexact hdone
    exact yields_pure.mpr fun _ => ⟨hexact, fun m hm => hdone m (by omega)⟩
  | succ cnt ih =>
  intro i k hi hexact hdone
  simp only [saveLoop, yields_rules]
  split
  · grind
  refine (wrote_logSector k (lba + i)).mono fun cf k1 h1 => ?_
  split
  · simp
  have hbuf1 : k1.dirBuf = k.dirBuf := congrArg DirState.dirBuf h1.same.dir
  have hshadow1 : k1.dirShadow = k.dirShadow := congrArg DirState.dirShadow h1.same.dir
  refine yields_ataWriteSector (fun fs _ _ => ?_) fun fs _ => ?_
  · rw [if_neg Bool.false_ne_true]
    set k2 : Kernel := { Kernel.put { k1 with faults := fs } (lba + i) (k1.dirBuf.sector i) with
      dirShadow := k1.dirShadow.putSector i (k1.dirBuf.sector i) } with hk2
    have hself : k2.dirShadow.sector i = k2.dirBuf.sector i := sector_putSector ..
    have hput : k2.disk (lba + i) = k2.dirBuf.sector i := Function.update_self ..
    have hkept : ∀ a, a ≠ lba + i → k2.disk a = k1.disk a := fun a ha => Function.update_of_ne ha ..
    have hother : ∀ m, m ≠ i → k2.dirShadow.sector m = k.dirShadow.sector m := fun m hm =>
      (sector_putSector_of_ne _ _ hm).trans (by rw [hshadow1])
    refine ih (i := i + 1) (k := k2) (by omega) (fun m hm => ?_) fun m hm => ?_
    · by_cases heq : m = i
      · rw [heq, hself, hput]
      · rw [hother m heq, hexact m hm, hkept _ (by omega)]
        exact (h1.disk _ (hlog m hm)).symm
    · by_cases heq : m = i
      · rw [heq, hself]
      · rw [hother m heq, hdone m (by omega)]
        exact congrArg (sector · m) hbuf1.symm
  · rw [if_pos rfl]
    simp

/-- A save inside a transaction that does not fail: the directory on the disk is the one in the
buffer. -/
structure DirSaved (k k' : Kernel) : Prop where
  same : SameButShadow { k with dirBuf := k.stampedDir } k'
  shadow : ∀ m < k.currentDirSects, k'.dirShadow.sector m = k.stampedDir.sector m
  written : ∀ m < k.currentDirSects, k'.disk (k.currentDirLba + m) = k.stampedDir.sector m
  disk : DiskKept (InDir k.currentDirLba k.currentDirSects) k.disk k'.disk
  faults : k.faults = [] → k'.faults = []

/-- A save inside a transaction. -/
theorem Level.yields_saveRootDir (h : Level true n k) (hn : 0 < n) :
    Yields hbfsSaveRootDir (fun cf k' => if cf then Level false 0 k' else Level true n k' ∧
      LoopKept k.currentDirLba 0 k.currentDirSects { k with dirBuf := k.stampedDir } k' ∧
        ((∀ i < k.currentDirSects, ¬ InLog (k.currentDirLba + i)) →
          ShadowExact k.currentDirLba k.currentDirSects k → DirSaved k k')) k := by
  have heffect : Yields hbfsSaveRootDir (fun cf k' => cf = false →
      LoopKept k.currentDirLba 0 k.currentDirSects { k with dirBuf := k.stampedDir } k' ∧
        ((∀ i < k.currentDirSects, ¬ InLog (k.currentDirLba + i)) →
          ShadowExact k.currentDirLba k.currentDirSects k → DirSaved k k')) k := by
    simp only [hbfsSaveRootDir, hbfsRequireWritable, yields_rules]
    rw [if_neg (by simp [h.writable_eq]), h.yields_begin hn]
    set k1 : Kernel :=
      { k with dirBuf := k.stampedDir, journalDepth := k.journalDepth + 1 } with hk1
    have hlevel1 : Level true (n + 1) k1 := by
      have hbegun : Level true (n + 1) { k with journalDepth := k.journalDepth + 1 } :=
        (h.yields_begin hn).mp h.begin_journalled
      exact hbegun.congr (.of rfl)
    have hwritten : Yields (Mellivora.saveLoop k.currentDirLba k.currentDirSects 0) (fun cf k' =>
        (∀ i < k.currentDirSects, ¬ InLog (k.currentDirLba + i)) →
          ShadowExact k.currentDirLba k.currentDirSects k → cf = false →
            ShadowExact k.currentDirLba k.currentDirSects k' ∧
              ∀ m < k.currentDirSects, k'.dirShadow.sector m = k'.dirBuf.sector m) k1 :=
      fun hlog hexact => yields_saveLoop_written hlog (Nat.add_zero _) hexact (by simp)
    refine Yields.mono (((kept_saveLoop k1 k.currentDirLba k.currentDirSects 0).and hwritten).and
      (hlevel1.saveLoop k.currentDirLba k.currentDirSects 0)) ?_
    rintro cf k2 ⟨⟨hkept, h2⟩, hlevel2⟩
    cases cf with
    | true =>
      rw [if_pos rfl]
      simp [Yields]
    | false =>
    have hlevel2 : Level true (n + 1) k2 := hlevel2
    rw [if_neg Bool.false_ne_true, hlevel2.yields_commit hn]
    have hsame : SameButShadow { k with dirBuf := k.stampedDir }
      { k2 with journalDepth := k2.journalDepth - 1 } :=
      { hkept.same with geometry := { hkept.same.geometry with } }
    refine fun _ =>
      ⟨⟨hsame, hkept.resident, by rw [hkept.depth]; rfl, hkept.disk, hkept.faults⟩,
      fun hlog hexact => ?_⟩
    obtain ⟨hexact2, hall⟩ := h2 hlog hexact rfl
    have hshadow : ∀ m < k.currentDirSects, k2.dirShadow.sector m = k.stampedDir.sector m :=
      fun m hm => by
      rw [hall m hm, hkept.same.dirBuf]
    refine ⟨hsame, hshadow, fun m hm => ?_, fun a ha _ => hkept.disk a ha, hkept.faults⟩
    rw [← hshadow m hm]
    exact (hexact2 m hm).symm
  refine (h.saveRootDir.and heffect).mono ?_
  rintro cf k' ⟨hlevel, h'⟩
  cases cf with
  | true => exact hlevel
  | false => exact ⟨hlevel, h' rfl⟩

end Mellivora
