import Mellivora.Disk.Proofs.BufferProofs
import Mellivora.Kernel.Fitting
import Mellivora.Kernel.Proofs.AbortProofs
import Mellivora.Kernel.Proofs.EffectProofs
import Mellivora.Kernel.Proofs.LevelProofs
import Mathlib.Order.Interval.Finset.Nat

/-!
# The free count and the bitmap

A call of the allocator that goes through changes the bitmap and the count by the same number of
blocks.
-/

namespace Mellivora

open WriteLog Outcome List Buffer

variable {b : Bool} {k1 : Kernel} {buf : Buffer} {cnt first n s start total : Nat}
  {count : Nat → Nat}

namespace Buffer

/-! ## Counting clear bits -/

theorem clearBits_congr {buf buf' : Buffer} (h : ∀ m < total, buf.bit m = buf'.bit m) :
    buf.clearBits total = buf'.clearBits total := by
  unfold clearBits
  congr 1
  refine Finset.filter_congr fun m hm => ?_
  rw [h m (Finset.mem_range.mp hm)]

/-- Setting clear bits takes them from the count. -/
theorem clearBits_setBits_true (hin : n + cnt ≤ total)
    (hclear : ∀ m, n ≤ m → m < n + cnt → buf.bit m = false) :
    (buf.setBits true n cnt).clearBits total + cnt = buf.clearBits total := by
  unfold clearBits
  have hsplit : (Finset.range total).filter (fun m => buf.bit m = false) =
      (Finset.range total).filter (fun m => (buf.setBits true n cnt).bit m = false) ∪ Finset.Ico n
      (n + cnt) := by
    ext m
    simp only [Finset.mem_filter, Finset.mem_range, Finset.mem_union, Finset.mem_Ico, bit_setBits]
    by_cases hm : n ≤ m ∧ m < n + cnt
    · simp [hm, hclear m hm.1 hm.2]
      omega
    · simp [hm]
  have hdisj : Disjoint
      ((Finset.range total).filter fun m => (buf.setBits true n cnt).bit m = false)
      (Finset.Ico n (n + cnt)) := by
    rw [Finset.disjoint_left]
    intro m hm hIco
    rw [Finset.mem_filter, bit_setBits, if_pos (Finset.mem_Ico.mp hIco)] at hm
    exact absurd hm.2 (by decide)
  rw [hsplit, Finset.card_union_of_disjoint hdisj, Nat.card_Ico]
  omega

/-- Clearing set bits adds them to it. -/
theorem clearBits_setBits_false (hin : n + cnt ≤ total)
    (hset : ∀ m, n ≤ m → m < n + cnt → buf.bit m = true) :
    (buf.setBits false n cnt).clearBits total = buf.clearBits total + cnt := by
  have hback : ∀ m < total, ((buf.setBits false n cnt).setBits true n cnt).bit m = buf.bit m := by
    intro m _
    rw [bit_setBits, bit_setBits]
    split
    · next hm => exact (hset m hm.1 hm.2).symm
    · rfl
  have hclear : ∀ m, n ≤ m → m < n + cnt → (buf.setBits false n cnt).bit m = false := by
    intro m h1 h2
    rw [bit_setBits, if_pos ⟨h1, h2⟩]
  rw [← clearBits_setBits_true hin hclear, clearBits_congr hback]

theorem clearBits_of_clear (h : ∀ m < total, buf.bit m = false) : buf.clearBits total = total := by
  unfold clearBits
  rw [Finset.filter_true_of_mem fun m hm => h m (Finset.mem_range.mp hm), Finset.card_range]

theorem clearBits_le (buf : Buffer) (total : Nat) : buf.clearBits total ≤ total := by
  have hle := Finset.card_filter_le (Finset.range total) fun m => buf.bit m = false
  rwa [Finset.card_range] at hle

end Buffer

/-! ## The scan -/

section Search

variable {buf buf' : Buffer} {needed limit total : Nat}

/-- `checkRun` finds the rest of the run clear. -/
theorem checkRun_iff (start left i : Nat) : checkRun buf start limit left i = true ↔
    ∀ m, start + i ≤ m → m < start + i + left → m < limit ∧ buf.bit m = false := by
  induction left generalizing i with
  | zero => simp [checkRun]; omega
  | succ left ih =>
  simp only [checkRun, Bool.if_false_left, Bool.and_eq_true, ih]
  constructor
  · rintro ⟨hlimit, hbit, hrest⟩ m h1 h2
    rcases Nat.eq_or_lt_of_le h1 with rfl | hlt
    · exact ⟨by simpa using hlimit, by simpa using hbit⟩
    · exact hrest m (by omega) (by omega)
  · intro h
    obtain ⟨hlimit, hbit⟩ := h (start + i) le_rfl (by omega)
    exact ⟨by simpa using hlimit, by simp [hbit], fun m h1 h2 => h m (by omega) (by omega)⟩

/-- `.scan_start` stops at a block. -/
def runAt (buf : Buffer) (needed limit block : Nat) : Bool :=
  decide (block < limit) && !buf.bit block && checkRun buf block limit (needed - 1) 1

/-- A run starts here. -/
theorem runAt_iff (block : Nat) :
    runAt buf needed limit block = true ↔ block < limit ∧ buf.bit block = false ∧
    ∀ m, block ≤ m → m < block + needed → m < limit ∧ buf.bit m = false := by
  unfold runAt
  rw [Bool.and_eq_true, Bool.and_eq_true, checkRun_iff, decide_eq_true_eq,
    Bool.not_eq_true', and_assoc]
  refine and_congr_right fun hlimit => and_congr_right fun hbit =>
    ⟨fun h m h1 h2 => ?_, fun h m h1 h2 => ?_⟩
  · rcases Nat.eq_or_lt_of_le h1 with rfl | hlt
    · exact ⟨hlimit, hbit⟩
    · exact h m hlt (by omega)
  · exact h m (by omega) (by omega)

/-- The scan finds the first place at which a run starts. -/
theorem scanFrom_eq_find (turns block : Nat) :
    scanFrom buf needed limit turns block =
    (range' block turns).find? (runAt buf needed limit) := by
  induction turns generalizing block with
  | zero => rfl
  | succ turns ih =>
  rw [scanFrom, ih, range'_succ, find?_cons]
  split
  · next hlimit =>
    have hnone : (range' block (turns + 1)).find? (runAt buf needed limit) = none := by
      refine find?_eq_none.mpr fun m hm => ?_
      rw [runAt_iff]
      have := (mem_range'_1.mp hm).1
      omega
    rw [range'_succ, find?_cons] at hnone
    exact hnone.symm
  · next hlimit =>
    simp only [runAt, not_le.mp hlimit, decide_true, Bool.true_and]
    cases buf.bit block <;> cases checkRun buf block limit (needed - 1) 1 <;> rfl

/-- What `hbfs_alloc_blocks` takes: a run of free blocks behind the journal. -/
theorem firstFit_some (h : firstFit buf needed total = some first) :
    hbfsJournalBlocks ≤ first ∧ first < total ∧ ∀ m, first ≤ m → m < first + signedTurns needed →
      m < total ∧ buf.bit m = false := by
  rw [firstFit, scanFrom_eq_find] at h
  obtain ⟨hlt, -, hrun⟩ := (runAt_iff first).mp (find?_some h)
  exact ⟨(mem_range'_1.mp (mem_of_find?_eq_some h)).1, hlt, hrun⟩

/-- The scan reads the volume's bits only. -/
theorem firstFit_congr (h : ∀ m < total, buf.bit m = buf'.bit m) :
    firstFit buf needed total = firstFit buf' needed total := by
  rw [firstFit, firstFit, scanFrom_eq_find, scanFrom_eq_find]
  congr 1
  funext m
  rw [Bool.eq_iff_iff, runAt_iff, runAt_iff]
  refine and_congr_right fun hm => and_congr (by rw [h m hm]) ?_
  refine forall₃_congr fun i _ _ => and_congr_right fun hi => by rw [h i hi]

end Search

/-! ## What stays the same -/

section Same

variable {k k2 k' : Kernel} {S : Nat → Prop}

/-- What the allocator and the reading of run lists leave alone. -/
structure SameFiles (k k' : Kernel) : Prop where
  dir : k'.toDirState = k.toDirState
  cwd : k'.toCwdState = k.toCwdState
  quota : k'.toQuotaState = k.toQuotaState
  caller : k'.toCallerState = k.toCallerState
  geometry : SameGeometry k k'

theorem SameGeometry.refl (k : Kernel) : SameGeometry k k := ⟨rfl, rfl, rfl, rfl, rfl, rfl⟩

theorem SameFiles.refl (k : Kernel) : SameFiles k k := ⟨rfl, rfl, rfl, rfl, SameGeometry.refl k⟩

theorem SameFiles.trans (h : SameFiles k k1) (h' : SameFiles k1 k2) : SameFiles k k2 :=
  ⟨h'.dir.trans h.dir, h'.cwd.trans h.cwd, h'.quota.trans h.quota, h'.caller.trans h.caller,
    h.geometry.trans h'.geometry⟩

theorem SameOutsideTx.sameFiles (h : SameOutsideTx k k') : SameFiles k k' :=
  ⟨h.dir, h.cwd, h.quota, h.caller, h.geometry⟩

/-- Outside the journal, the superblock and the sectors of `S` the two disks are the same. -/
def DiskKept (S : Nat → Prop) (d d' : Disk) : Prop :=
  ∀ a, ¬ InLog a → a ≠ hbfsSuperblockLba → ¬ S a → d' a = d a

theorem DiskKept.refl (S : Nat → Prop) (d : Disk) : DiskKept S d d := fun _ _ _ _ => rfl

theorem DiskKept.trans {d d' d'' : Disk} (h : DiskKept S d d') (h' : DiskKept S d' d'') :
    DiskKept S d d'' :=
  fun a ha hne hS => (h' a ha hne hS).trans (h a ha hne hS)

theorem DiskKept.mono {T : Nat → Prop} {d d' : Disk} (h : DiskKept S d d') (hST : ∀ a, S a → T a) :
    DiskKept T d d' :=
  fun a ha hne hT => h a ha hne fun hS => hT (hST a hS)

theorem TxEdge.diskKept (h : TxEdge k k') (S : Nat → Prop) : DiskKept S k.disk k'.disk :=
  fun a ha hne _ => h.disk a ha hne

theorem diskKept_of_wrote {ws : List (Nat × Sector)} (h : Wrote ws k k')
    (hws : ∀ w ∈ ws, S w.1) : DiskKept S k.disk k'.disk := by
  intro a ha _ hS
  rw [h.disk a ha, afterWrites_of_notMem]
  intro hmem
  obtain ⟨w, hw, rfl⟩ := mem_map.mp hmem
  exact hS (hws w hw)

theorem SrcWrites.mem {lba : Nat} {src : MetaSrc} {i : Nat} {ws : List (Nat × Sector)}
    (h : SrcWrites k lba src i cnt ws) {w : Nat × Sector} (hw : w ∈ ws) : ∃ m < cnt, w.1 =
    lba + (i + m) := by
  obtain ⟨m, hm, heq⟩ := mem_iff_getElem.mp hw
  rw [h.1] at hm
  obtain ⟨s, hs, -⟩ := h.2 m hm
  rw [getElem?_eq_getElem (by rw [h.1]; exact hm), heq] at hs
  exact ⟨m, hm, congrArg Prod.fst (Option.some.inj hs)⟩

theorem sameFiles_stampedFor (k : Kernel) (lba : Nat) : SameFiles k (k.stampedFor lba) :=
  ⟨rfl, rfl, rfl, rfl, rfl, rfl, rfl, rfl, stampedFor_dword lba (by decide),
    stampedFor_dword lba (by decide)⟩

end Same

/-! ## The bitmap sectors of a change -/

theorem bitmapSize_eq : hbfsBitmapSize = 65536 := rfl

/-! ## Writing the bitmap -/

variable {k : Kernel}

theorem bitmapLoaded_iff :
    k.BitmapLoaded ↔ ∀ s < hbfsBitmapSects, k.disk (hbfsBitmapStart + s) =
    k.bitmapBuf.sector s := by
  have hb := layout_eq
  constructor
  · intro h s hs
    rw [← sector_ofDisk k.disk hbfsBitmapStart s]
    exact sector_congr fun j h1 h2 => (h j (by omega)).symm
  · intro h i hi
    refine eq_of_sector ?_
    rw [diskBitmap, sector_ofDisk]
    exact (h _ (by omega)).symm

theorem not_inLog_bitmap (hs : s < hbfsBitmapSects) : ¬ InLog (hbfsBitmapStart + s) := by
  have hb := layout_eq
  rw [inLog_iff]
  omega

/-- The sectors written for a range are in the bitmap and hold all of its bits. -/
structure Covers (start cnt : Nat) : Prop where
  starts : start / 4096 < hbfsBitmapSects
  ends : start / 4096 + sectorSpan start cnt ≤ hbfsBitmapSects
  inside : ∀ m, start ≤ m → m < start + signedTurns cnt →
    m / 4096 < start / 4096 + sectorSpan start cnt

/-- A range inside the bitmap is covered. -/
theorem covers_of_le
    (h : start < 8 * hbfsBitmapSize ∧ start + cnt ≤ 8 * hbfsBitmapSize ∧ 0 < start + cnt) :
    Covers start cnt := by
  have hb := layout_eq
  have hturns : signedTurns cnt = cnt := if_pos (by omega)
  have hlast : (start + cnt + (2 ^ 32 - 1)) % 2 ^ 32 = start + cnt - 1 := by omega
  have hspan : sectorSpan start cnt = (start + cnt - 1) / 4096 + 1 - start / 4096 := by
    unfold sectorSpan
    rw [hlast]
    omega
  exact ⟨by omega, by omega, fun m h1 h2 => by omega⟩

/-- A sector outside the range stays. -/
theorem Covers.sector_setBits (h : Covers start cnt) (buf : Buffer) (b : Bool)
    (hs : s < start / 4096 ∨ start / 4096 + sectorSpan start cnt ≤ s) :
    (buf.setBits b start (signedTurns cnt)).sector s = buf.sector s := by
  refine sector_congr fun j h1 h2 => ?_
  rcases Nat.eq_zero_or_pos (signedTurns cnt) with hzero | hpos
  · rw [hzero]
    rfl
  · have hlast := h.inside (start + signedTurns cnt - 1) (by omega) (by omega)
    exact setBits_apply_of_outside _ _ (by omega)

theorem sector_stampedFor (k : Kernel) (lba : Nat)
    (hne : k.isV4 = true → s ≠ hbfsBitmapSects - 1) : (k.stampedFor lba).bitmapBuf.sector s =
    k.bitmapBuf.sector s := by
  have hb := layout_eq
  unfold Kernel.stampedFor
  dsimp only
  split
  · next hv =>
    have hne := hne hv.1
    exact sector_congr fun j h1 h2 => stampRun_apply _ (by omega) (by omega)
  · rfl

theorem Covers.mem_bitmap (h : Covers start cnt) {k k' : Kernel} {cf : Bool}
    {ws vs : List (Nat × Sector)}
    (hwrote : MetaWrote k (hbfsBitmapStart + start / 4096) (.bitmapBuf (start / 4096))
      (sectorSpan start cnt) cf k' n ws vs) {w : Nat × Sector} (hw : w ∈ ws ++ vs) :
    InBitmap w.1 := by
  have hstarts := h.starts
  have hends := h.ends
  have hn := hwrote.le
  unfold InBitmap
  rcases mem_append.mp hw with hw | hw
  · rw [hwrote.range.eq (by simp)] at hw
    obtain ⟨j, hj, rfl⟩ := mem_map.mp hw
    have hj := mem_range.mp hj
    dsimp only
    omega
  · rcases hwrote.trailer with rfl | rfl
    · simp at hw
    unfold Kernel.trailerWrite at hw
    split at hw
    · rw [mem_singleton.mp hw]
      unfold bitmapTrailer
      dsimp only
      omega
    · simp at hw

theorem Kernel.BitmapLoaded.of_wrote {k k2 : Kernel}
    {ws : List (Nat × Sector)} (hloaded : k.BitmapLoaded) (hcover : Covers start cnt)
    (hbuf : k1.bitmapBuf = k.bitmapBuf.setBits b start (signedTurns cnt))
    (hdisk : ∀ s < hbfsBitmapSects, k1.disk (hbfsBitmapStart + s) = k.disk (hbfsBitmapStart + s))
    (hws : SrcWrites (k1.stampedFor (hbfsBitmapStart + start / 4096))
      (hbfsBitmapStart + start / 4096) (.bitmapBuf (start / 4096)) 0 (sectorSpan start cnt) ws)
    (hwrote : Wrote (ws ++ k1.trailerWrite (hbfsBitmapStart + start / 4096) (sectorSpan start cnt))
      (k1.stampedFor (hbfsBitmapStart + start / 4096)) k2) : k2.BitmapLoaded := by
  have hb := layout_eq
  set lba := hbfsBitmapStart + start / 4096 with hlba
  set buf := (k1.stampedFor lba).bitmapBuf with hbufdef
  have hstarts := hcover.starts
  have hends := hcover.ends
  have hlist := hws.eq (by simp)
  have hvalues : ∀ w ∈ ws ++ k1.trailerWrite lba (sectorSpan start cnt), w.2 =
    buf.sector (w.1 - hbfsBitmapStart) := by
    intro w hw
    rcases mem_append.mp hw with hw | hw
    · rw [hlist] at hw
      obtain ⟨j, -, rfl⟩ := mem_map.mp hw
      have hidx : lba + (0 + j) - hbfsBitmapStart = start / 4096 + (0 + j) := by omega
      simp only [hidx, Kernel.metaSector]
      rfl
    · unfold Kernel.trailerWrite at hw
      split at hw
      · have hidx : bitmapTrailer - hbfsBitmapStart = hbfsBitmapSects - 1 := by
          unfold bitmapTrailer
          omega
        rw [mem_singleton.mp hw, hidx]
      · simp at hw
  rw [bitmapLoaded_iff]
  intro s hs
  have hbitmap : k2.bitmapBuf = buf := by rw [hwrote.same.bitmap]
  rw [hbitmap, hwrote.disk _ (not_inLog_bitmap hs),
    afterWrites_of_values (f := fun a => buf.sector (a - hbfsBitmapStart)) _ hvalues]
  split
  · rw [Nat.add_sub_cancel_left]
  next hnot =>
  -- The sector was not written, so it is as it was, in the buffer and on the disk.
  rw [map_append, mem_append, not_or] at hnot
  have hrange : s < start / 4096 ∨ start / 4096 + sectorSpan start cnt ≤ s := by
    by_contra hin
    refine hnot.1 ?_
    rw [hlist, map_map]
    exact mem_map.mpr ⟨s - start / 4096, mem_range.mpr (by omega), by simp; omega⟩
  have htrailer : k1.isV4 = true → s ≠ hbfsBitmapSects - 1 := by
    rintro hv rfl
    refine hnot.2 ?_
    have hextra : k1.extraFor lba (sectorSpan start cnt) = true := by
      have hin : InBitmap lba := ⟨by omega, by omega⟩
      simp [Kernel.extraFor, hv, hin]
      omega
    rw [Kernel.trailerWrite, if_pos hextra]
    simp [bitmapTrailer]
    omega
  have hold := bitmapLoaded_iff.mp hloaded s hs
  rw [hbufdef, sector_stampedFor k1 lba htrailer, hbuf, hcover.sector_setBits _ _ hrange, ← hold]
  exact hdisk s hs

/-! ## One call -/

/-- A mounted volume whose books are right. -/
structure Booked (k : Kernel) : Prop where
  closed : k.Closed
  bounds : hbfsJournalLba + hbfsJournalSects ≤ k.ataTotalSectors
  fits : k.totalBlocks ≤ 8 * hbfsBitmapSize
  /-- The checksum at the end of a v4 bitmap is not taken for blocks. -/
  v4 : k.isV4 = true → k.journalled = true ∧
    k.totalBlocks ≤ 8 * (hbfsBitmapSize - hbfs4RunChecksumBytes)
  counted : k.FreeCountExact
  bitmap : Usable k → k.bitmapValid = true → k.BitmapLoaded

/-- The kernel when the writes of the bitmap have been made, or one of them has failed. -/
structure AfterBitmap (b : Bool) (start cnt : Nat) (k : Kernel) (cf : Bool) (k' : Kernel) :
    Prop where
  geometry : SameGeometry k k'
  resident : k'.superBuf.dword sbFreeBlocks = k.superBuf.dword sbFreeBlocks
  onDisk : (k'.disk hbfsSuperblockLba).dword sbFreeBlocks =
    (k.disk hbfsSuperblockLba).dword sbFreeBlocks ∨
      (k'.disk hbfsSuperblockLba).dword sbFreeBlocks = k.superBuf.dword sbFreeBlocks
  loaded : cf = false → k'.BitmapLoaded
  bits : ∀ m < k.totalBlocks, k'.bitmapBuf.bit m =
    (k.bitmapBuf.setBits b start (signedTurns cnt)).bit m
  log : k.journalled = true → ∃ d recs, LogInv d ∅ recs k' ∧
    (∀ s < hbfsBitmapSects, d (hbfsBitmapStart + s) = k.disk (hbfsBitmapStart + s)) ∧
      (cf = false → k'.journalFailed = false)

theorem Booked.bit_stampedFor (h : Booked k) (hg : SameGeometry k k1) (lba : Nat) {m : Nat}
    (hm : m < k.totalBlocks) :
    (k1.stampedFor lba).bitmapBuf.bit m = k1.bitmapBuf.bit m := by
  have hb := layout_eq
  unfold Kernel.stampedFor bit
  dsimp only
  split
  · next hv =>
    have htrailer := (h.v4 (hg.isV4 ▸ hv.1)).2
    rw [stampRun_apply _ (by omega) (by omega)]
  · rfl

/-- Writing the bitmap, with the books kept. -/
theorem Booked.yields_tryBitmap (h : Booked k) (hk : Usable k) (hloaded : k.BitmapLoaded)
    (hcover : Covers start cnt) :
    Yields (tryBitmap b start cnt) (AfterBitmap b start cnt k) k := by
  have hb := layout_eq
  set buf := k.bitmapBuf.setBits b start (signedTurns cnt) with hbuf
  set lba := hbfsBitmapStart + start / 4096 with hlba
  have hstarts := hcover.starts
  have hends := hcover.ends
  simp only [tryBitmap, yields_rules]
  set k0 : Kernel := { k with bitmapBuf := buf } with hk0
  have hbegin : Yields hbfsJournalBegin (fun _ k1 => TxEdge k0 k1 ∧ (k.journalled = true →
      LogInv k1.disk ∅ [] k1 ∧ k1.journalFailed = false)) k0 := by
    refine (edge_begin k0).and ?_
    by_cases hj : k.journalled = true
    · exact (logInv_begin (k := k0) hk.mounted hk.writable hj h.closed.depth).mono
        fun _ _ h' _ => h'
    · exact fun hj' => absurd hj' hj
  refine hbegin.mono fun _ k1 ⟨hedge, hlog⟩ => ?_
  have hg0 : SameGeometry k k0 := ⟨rfl, rfl, rfl, rfl, rfl, rfl⟩
  have hg : SameGeometry k k1 := hg0.trans hedge.same.geometry
  have hbitmap : k1.bitmapBuf = buf := by rw [hedge.same.bitmap]
  have hdisk : ∀ s < hbfsBitmapSects, k1.disk (hbfsBitmapStart + s) =
    k.disk (hbfsBitmapStart + s) :=
    fun s hs => hedge.disk _ (not_inLog_bitmap hs) (by omega)
  have htargets : ∀ j < sectorSpan start cnt, ¬ InLog (lba + j) ∧ lba + j < 2 ^ 32 ∧
    lba + j ∉ (∅ : Set Nat) := by
    intro j hj
    refine ⟨?_, by omega, by simp⟩
    rw [inLog_iff]
    omega
  have hlogged : Yields (hbfsMetaTry lba (.bitmapBuf (start / 4096)) (sectorSpan start cnt))
      (fun cf k2 => k.journalled = true → ∃ recs, LogInv k1.disk ∅ recs k2 ∧
        (cf = false → k2.journalFailed = false)) k1 := by
    by_cases hj : k.journalled = true
    · exact ((hlog hj).1.yields_metaTry (hlog hj).2 _ htargets (by simp)).mono fun _ _ h' _ => h'
    · exact fun hj' => absurd hj' hj
  refine ((wrote_metaTry k1 lba _ _).and hlogged).mono
    fun cf k2 ⟨⟨n, ws, vs, hwrote⟩, hlogged⟩ => ?_
  have hsuper : (k1.stampedFor lba).superBuf = k1.superBuf := by
    have hne : ¬ (k1.isV4 = true ∧ lba = hbfsSuperblockLba) := fun hv => by omega
    exact if_neg hne
  have hsame := hwrote.wrote.same.outsideTx
  have hout : SameOutsideJournal k2.superBuf k.superBuf :=
    (hsuper ▸ hsame.superBuf).trans hedge.same.superBuf
  have hg2 : SameGeometry k k2 := ⟨hsame.mounted.trans hg.mounted, hsame.readOnly.trans hg.readOnly,
    hsame.totalBlocks.trans hg.totalBlocks, hsame.total.trans hg.total, hout.magic,
    hout.dword (by decide)⟩
  have hsb : k2.disk hbfsSuperblockLba = k1.disk hbfsSuperblockLba := by
    rw [hwrote.wrote.disk _ superblock_not_inLog, afterWrites_of_notMem]
    · rfl
    · intro hmem
      obtain ⟨w, hw, heq⟩ := mem_map.mp hmem
      have hin := hcover.mem_bitmap hwrote hw
      unfold InBitmap at hin
      omega
  refine ⟨hg2, hout.dword (by decide), ?_, fun hcf => ?_, fun m hm => ?_, fun hj => ?_⟩
  · rw [hsb]
    refine hedge.onDisk.imp (fun heq => by rw [heq]) fun heq => ?_
    exact heq.dword (by decide)
  · obtain ⟨rfl, rfl⟩ := hwrote.all hcf
    exact hloaded.of_wrote hcover hbitmap hdisk hwrote.range hwrote.wrote
  · rw [hwrote.wrote.same.bitmap, h.bit_stampedFor hg lba hm, hbitmap]
  · grind

theorem diskBitmap_bit_congr {d d' : Disk}
    (h : ∀ s < hbfsBitmapSects, d' (hbfsBitmapStart + s) = d (hbfsBitmapStart + s))
    {m : Nat} (hm : m < 8 * hbfsBitmapSize) : (diskBitmap d').bit m = (diskBitmap d).bit m := by
  have hb := layout_eq
  simp only [bit, diskBitmap, ofDisk]
  rw [h _ (by omega)]

theorem clearBits_diskBitmap {d d' : Disk} (htotal : total ≤ 8 * hbfsBitmapSize)
    (h : ∀ s < hbfsBitmapSects, d (hbfsBitmapStart + s) = d' (hbfsBitmapStart + s)) :
    (diskBitmap d).clearBits total = (diskBitmap d').clearBits total :=
  clearBits_congr fun _ hm => diskBitmap_bit_congr h (by omega)

/-- A failure in the bitmap is rolled back completely. -/
theorem Booked.yields_undo (h : Booked k) {k2 : Kernel}
    (hafter : AfterBitmap b start cnt k true k2) (hj : k.journalled = true) (hf : k2.faults = []) :
    Yields hbfsJournalAbort (fun _ k' => SameGeometry k k' ∧ k'.FreeCountExact ∧
      k'.bitmapValid = false) k2 := by
  obtain ⟨d, recs, hinv, hdisk, -⟩ := hafter.log hj
  have hb := layout_eq
  have hbounds : hbfsJournalLba + hbfsJournalSects ≤ k2.ataTotalSectors := by
    rw [hafter.geometry.total]
    exact h.bounds
  refine (hinv.yields_abort ⟨hf, hbounds⟩).mono fun _ k' hk' => ?_
  have hsame := hk'.superBuf ▸ sameOutsideJournal_clearState₂ k2.superBuf
  have hversion : k'.superBuf.dword sbVersion = k2.superBuf.dword sbVersion :=
    hsame.dword (by decide)
  have hg : SameGeometry k k' :=
    hafter.geometry.trans { hk' with magic := hsame.magic, version := hversion }
  have hbits : (diskBitmap k'.disk).clearBits k'.totalBlocks =
    (diskBitmap k.disk).clearBits k.totalBlocks := by
    rw [hg.totalBlocks]
    refine clearBits_diskBitmap h.fits fun s hs => ?_
    rw [hk'.disk _ (not_inLog_bitmap hs) (by omega), hdisk s hs]
  have hcount : k'.superBuf.dword sbFreeBlocks = (diskBitmap k.disk).clearBits k.totalBlocks := by
    rw [hsame.dword (by decide), hafter.resident]
    exact h.counted.resident
  refine ⟨hg, ⟨?_, ?_⟩, hk'.bitmapValid⟩
  · rw [hbits, hcount]
  · rw [hbits, hk'.onDisk, hcount]

/-- What writing the count of free blocks leaves. -/
structure AfterSuper (free : Nat) (k k' : Kernel) : Prop where
  geometry : SameGeometry k k'
  resident : k'.superBuf.dword sbFreeBlocks = free
  onDisk : (k'.disk hbfsSuperblockLba).dword sbFreeBlocks = free
  bitmap : k'.toBitmapState = k.toBitmapState
  disk : ∀ s < hbfsBitmapSects, k'.disk (hbfsBitmapStart + s) = k.disk (hbfsBitmapStart + s)

/-- What `trySuper` does. -/
structure SuperEffect (count : Nat → Nat) (k : Kernel) (cf : Bool) (k' : Kernel) : Prop where
  files : SameFiles k k'
  extent : k'.toExtentState = k.toExtentState
  depth : k'.journalDepth = k.journalDepth
  put : cf = false → AfterSuper (count (k.superBuf.dword sbFreeBlocks) % 2 ^ 32) k k' ∧
    DiskKept (fun _ => False) k.disk k'.disk

/-- Writing the count of free blocks. -/
theorem yields_trySuper (k : Kernel) (count : Nat → Nat) :
    Yields (trySuper count) (SuperEffect count k) k := by
  have hb := layout_eq
  simp only [trySuper, yields_rules]
  set k1 : Kernel := { k with
    superBuf := k.superBuf.setDword sbFreeBlocks (count (k.superBuf.dword sbFreeBlocks)) } with hk1
  have hset : ∀ off, off + 4 ≤ sbFreeBlocks → k1.superBuf.dword off = k.superBuf.dword off :=
    fun off hoff => Sector.dword_setDword_of_disjoint _ (by decide) _ (Or.inr hoff)
  have hfiles1 : SameFiles k k1 :=
    ⟨rfl, rfl, rfl, rfl, rfl, rfl, rfl, rfl, hset 0 (by decide), hset _ (by decide)⟩
  refine (wrote_metaTry k1 hbfsSuperblockLba _ 1).mono fun cf k' ⟨n, ws, vs, hwrote⟩ => ?_
  have hsame := hwrote.wrote.same
  have hfiles :=
    (hfiles1.trans (sameFiles_stampedFor k1 hbfsSuperblockLba)).trans hsame.outsideTx.sameFiles
  refine ⟨hfiles, hsame.extent, hsame.depth, fun hcf => ?_⟩
  obtain ⟨rfl, rfl⟩ := hwrote.all hcf
  have hnot : ¬ InBitmap hbfsSuperblockLba := by decide
  have htrailer : k1.trailerWrite hbfsSuperblockLba 1 = [] :=
    if_neg (by simp [Kernel.extraFor, hnot])
  have hfree : (k1.stampedFor hbfsSuperblockLba).superBuf.dword sbFreeBlocks =
      count (k.superBuf.dword sbFreeBlocks) % 2 ^ 32 :=
    (stampedFor_dword _ (by decide)).trans (Sector.dword_setDword _ (by decide) _)
  obtain ⟨s, hs, hsrc⟩ := hwrote.range.2 0 (by norm_num)
  obtain ⟨w, hw⟩ := length_eq_one_iff.mp hwrote.range.1
  rw [hw, getElem?_cons_zero, Option.some.injEq] at hs
  have hdisk : OutsideEq k'.disk (Function.update k.disk hbfsSuperblockLba s) := by
    have hout := hwrote.wrote.disk
    rw [htrailer, append_nil, hw, hs] at hout
    exact hout
  obtain ⟨k2, hsame2, rfl⟩ := hsrc
  refine ⟨⟨hfiles.geometry, ?_, ?_, ?_, fun s hs => ?_⟩, fun a ha hne _ => ?_⟩
  · rw [hsame.sameOutsideJournal.dword (by decide), hfree]
  · rw [hdisk _ superblock_not_inLog, Function.update_self]
    exact (hsame2.sameOutsideJournal.dword (by decide)).trans hfree
  · have hbuf : (k1.stampedFor hbfsSuperblockLba).bitmapBuf = k.bitmapBuf :=
      if_neg (fun hv => hnot hv.2)
    rw [hsame.bitmap]
    exact congrArg₂ BitmapState.mk hbuf rfl
  · rw [hdisk _ (not_inLog_bitmap hs), Function.update_of_ne (by omega)]
  · rw [hdisk a ha, Function.update_of_ne hne]

/-- What a change that goes through has to fit: blocks of the volume whose bits are the other way,
and the count that goes with them. -/
structure Fits (b : Bool) (start cnt : Nat) (count : Nat → Nat) (k : Kernel) : Prop where
  covers : Covers start cnt
  count : count (k.superBuf.dword sbFreeBlocks) % 2 ^ 32 =
    (k.bitmapBuf.setBits b start (signedTurns cnt)).clearBits k.totalBlocks

theorem Kernel.BitmapLoaded.clearBits {k' : Kernel} (h : k'.BitmapLoaded)
    (htotal : total ≤ 8 * hbfsBitmapSize) : (diskBitmap k'.disk).clearBits total =
    k'.bitmapBuf.clearBits total := by
  refine clearBits_congr fun m hm => ?_
  unfold bit
  rw [h (m / 8) (by omega)]

/-- The two writes of a change, with the checks for a writable volume out of the way. -/
theorem Usable.yields_changeBlocks (hk : Usable k)
    {Q : Bool → Kernel → Prop} (h : Yields (tryBitmap b start cnt) (fun cf k1 =>
      (cf = true → Yields hbfsJournalAbort (fun _ k' => Q true k') k1) ∧
      (cf = false → Yields (trySuper count) (fun cf k2 =>
        (cf = true → Yields hbfsJournalAbort (fun _ k' => Q true k') k2) ∧
        (cf = false → Yields hbfsJournalCommit (fun _ k' => Q false k') k2)) k1)) k) :
    Yields (changeBlocks b start cnt count) Q k := by
  simp only [tryBitmap, trySuper, yields_rules] at h
  simp only [changeBlocks, writeBitmapRange, writeFreeCount, hbfsMetaWrite, hbfsRequireWritable,
    yields_rules]
  refine ((edge_begin _).and h).mono ?_
  rintro _ k1 ⟨hedge, h1⟩
  have hk1 : Usable k1 :=
    ⟨hedge.same.mounted.trans hk.mounted, hedge.same.readOnly.trans hk.writable⟩
  rw [if_neg (by simp [hk1.writable_eq])]
  refine ((wrote_metaTry k1 _ _ _).and h1).mono ?_
  rintro cf k2 ⟨⟨_, _, _, hwrote⟩, h2⟩
  have hk2 : Usable k2 :=
    ⟨hwrote.wrote.same.mounted.trans hk1.mounted, hwrote.wrote.same.readOnly.trans hk1.writable⟩
  cases cf with
  | true => exact h2.1 rfl
  | false =>
    rw [if_neg Bool.false_ne_true, if_neg Bool.false_ne_true, if_neg (by simp [hk2.writable_eq])]
    refine (h2.2 rfl).mono fun cf k3 h3 => ?_
    cases cf with
    | true => exact h3.1 rfl
    | false => exact h3.2 rfl

theorem AfterBitmap.yields_trySuper (h : AfterBitmap b start cnt k false k1) (count : Nat → Nat) :
    Yields (trySuper count) (fun cf k2 => cf = false → k.journalled = true →
      k2.journalFailed = false) k1 := by
  by_cases hj : k.journalled = true
  · obtain ⟨d, recs, hinv, -, hok⟩ := h.log hj
    simp only [trySuper, yields_rules]
    set sb := k1.superBuf.setDword sbFreeBlocks (count (k1.superBuf.dword sbFreeBlocks)) with hsb
    have hver : sb.dword sbVersion = k1.superBuf.dword sbVersion :=
      Sector.dword_setDword_of_disjoint _ (by decide) _ (by decide)
    have hinv' : LogInv d ∅ recs { k1 with superBuf := sb } :=
      hinv.congr (by simpa [Kernel.journalled, hver] using hinv.journalled) rfl rfl
    have htargets : ∀ j < 1, ¬ InLog (hbfsSuperblockLba + j) ∧ hbfsSuperblockLba + j < 2 ^ 32 ∧
        hbfsSuperblockLba + j ∉ (∅ : Set Nat) := by
      intro j hj
      obtain rfl : j = 0 := by omega
      exact ⟨superblock_not_inLog, by decide, by simp⟩
    refine (hinv'.yields_metaTry (hok rfl) .superBuf htargets (by simp)).mono ?_
    rintro cf k2 ⟨_, _, hok2⟩ hcf _
    exact hok2 hcf
  · exact fun _ hj' => absurd hj' hj

/-- On a volume that may be written, a failure of the bitmap's write finds a journal to roll back
with and a device that fails no more, and the superblock's write does not fail. -/
structure ChangeRecovers (b : Bool) (start cnt : Nat) (count : Nat → Nat) (k : Kernel) : Prop where
  bitmap : Usable k → Yields (tryBitmap b start cnt) (fun cf k' => cf = true → k.journalled = true ∧
    k'.faults = []) k
  super : Usable k → Yields (tryBitmap b start cnt)
    (fun cf k' => cf = false → Yields (trySuper count) (fun cf _ => cf = false) k') k

/-- The books after a change: right whether it went through or was rolled back. -/
theorem Booked.yields_changeBlocks (h : Booked k) (hk : Usable k) (hloaded : k.BitmapLoaded)
    (hfits : Fits b start cnt count k) (hrec : ChangeRecovers b start cnt count k) :
    Yields (changeBlocks b start cnt count) (fun _ k' => SameGeometry k k' ∧ k'.FreeCountExact ∧
      (k'.bitmapValid = true → k'.BitmapLoaded)) k := by
  have hb := layout_eq
  have htry :=
    ((h.yields_tryBitmap hk hloaded hfits.covers).and (hrec.bitmap hk)).and (hrec.super hk)
  refine hk.yields_changeBlocks (htry.mono fun cf k1 ⟨⟨hafter, hundo⟩, hsuper⟩ => ⟨?_, ?_⟩)
  · rintro rfl
    obtain ⟨hj, hf⟩ := hundo rfl
    refine (h.yields_undo hafter hj hf).mono fun _ k' ⟨hg, hexact, hvalid⟩ => ⟨hg, hexact, ?_⟩
    simp [hvalid]
  rintro rfl
  refine (((hsuper rfl).and (Mellivora.yields_trySuper k1 count)).and
    (hafter.yields_trySuper count)).mono fun cf k2 ⟨⟨hcf, heffect⟩, hlog⟩ => ?_
  subst hcf
  refine ⟨by simp, fun _ => ?_⟩
  have hdone := (heffect.put rfl).1
  have hg2 := hafter.geometry.trans hdone.geometry
  refine (edge_commit k2 fun hj => hlog rfl (hg2.journalled ▸ hj)).mono fun _ k' hedge => ?_
  have hg : SameGeometry k k' := hg2.trans hedge.same.geometry
  have hdisk : ∀ s < hbfsBitmapSects, k'.disk (hbfsBitmapStart + s) =
    k1.disk (hbfsBitmapStart + s) := by
    intro s hs
    rw [hedge.disk _ (not_inLog_bitmap hs) (by omega), hdone.disk s hs]
  have hbits : (diskBitmap k'.disk).clearBits k'.totalBlocks =
    count (k.superBuf.dword sbFreeBlocks) % 2 ^ 32 := by
    rw [hg.totalBlocks, clearBits_diskBitmap h.fits hdisk,
      (hafter.loaded rfl).clearBits h.fits, clearBits_congr hafter.bits, hfits.count]
  refine ⟨hg, ⟨?_, ?_⟩, fun _ => ?_⟩
  · rw [hbits, hedge.same.superBuf.dword (by decide), hdone.resident, hafter.resident]
  · rw [hbits]
    rcases hedge.onDisk with heq | heq
    · rw [heq, hdone.onDisk, hafter.resident]
    · rw [heq.dword (by decide), hdone.resident, hafter.resident]
  · rw [bitmapLoaded_iff]
    intro s hs
    rw [hdisk s hs, hedge.same.bitmap, hdone.bitmap]
    exact bitmapLoaded_iff.mp (hafter.loaded rfl) s hs

theorem Booked.setBitmap (h : Booked k) (hk : ¬ Usable k) (buf : Buffer) :
    Booked { k with bitmapBuf := buf } :=
  ⟨{ h.closed with }, h.bounds, h.fits, h.v4,
    { h.counted with }, fun hk' => absurd { hk' with } hk⟩

/-- On a volume that may not be written, a change stays in the resident bitmap. -/
theorem Booked.yields_changeBlocks_of_not_usable (h : Booked k) (hk : ¬ Usable k) (b : Bool)
    (start cnt : Nat)
    (count : Nat → Nat) : Yields (changeBlocks b start cnt count) (fun _ k' => Booked k') k := by
  have hro : (!k.mounted || k.readOnly) = true := by
    by_contra hw
    simp only [Bool.or_eq_true, Bool.not_eq_true', not_or, Bool.not_eq_false,
      Bool.not_eq_true] at hw
    exact hk ⟨hw.1, hw.2⟩
  simp only [changeBlocks, hbfsJournalBegin, writeBitmapRange, hbfsMetaWrite, hbfsRequireWritable,
    hro, if_true, yields_rules]
  exact h.setBitmap hk _

theorem Booked.level (h : Booked k) (hk : Usable k) : Level false 0 k :=
  ⟨hk, h.closed.depth, by simp [h.closed.dirty], fun _ => h.closed.state, by simp, by simp⟩

/-- A change leaves the books right when its failures can be rolled back. -/
theorem Booked.yields_change (h : Booked k) (hloaded : Usable k → k.BitmapLoaded)
    (hfits : Usable k → Fits b start cnt count k) (hrec : ChangeRecovers b start cnt count k) :
    Yields (changeBlocks b start cnt count) (fun _ k' => Booked k') k := by
  by_cases hk : Usable k
  · have hlevel := (h.level hk).changeBlocks b start cnt count
    refine (hlevel.and (h.yields_changeBlocks hk (hloaded hk) (hfits hk) hrec)).mono
      fun cf k' ⟨hlevel, hg, hcounted, hbitmap⟩ => ?_
    have hclosed : Level false 0 k' := by
      cases cf with
      | true => exact hlevel
      | false => exact hlevel
    refine ⟨⟨hclosed.depth, by simp [hclosed.dirty], hclosed.closed rfl⟩, ?_, ?_, fun hv => ?_,
      hcounted, fun _ => hbitmap⟩
    · rw [hg.total]
      exact h.bounds
    · rw [hg.totalBlocks]
      exact h.fits
    · rw [hg.journalled, hg.totalBlocks]
      exact h.v4 (hg.isV4 ▸ hv)
  · exact h.yields_changeBlocks_of_not_usable hk _ _ _ _

/-! ## Whole calls -/

/-- What loading the bitmap leaves. -/
structure AfterLoad (k : Kernel) (cf : Bool) (k' : Kernel) : Prop where
  booked : Booked k'
  disk : k'.disk = k.disk
  totalBlocks : k'.totalBlocks = k.totalBlocks
  loaded : cf = false → Usable k' → k'.BitmapLoaded

theorem bitmapLoaded_load (d : Disk) (buf : Buffer) {i : Nat} (hi : i < hbfsBitmapSize) :
    buf.load (sectorsAt d hbfsBitmapStart hbfsBitmapSects) i = diskBitmap d i := by
  have hb := layout_eq
  have hlt : i / 512 < hbfsBitmapSects := by omega
  simp [load, sectorsAt, diskBitmap, ofDisk, hlt]

/-- Loading the bitmap, with the books kept. -/
theorem Booked.yields_loadBitmap (h : Booked k) : Yields hbfsLoadBitmap (AfterLoad k) k := by
  have hbooked : ∀ (fs : List (Option Nat)) (buf : Buffer) (valid : Bool),
      (valid = true → ∀ i < hbfsBitmapSize, buf i = diskBitmap k.disk i) →
        Booked { k with faults := fs, bitmapBuf := buf, bitmapValid := valid } :=
    fun fs buf valid hload => ⟨{ h.closed with }, h.bounds, h.fits, h.v4,
      { h.counted with }, fun _ hvalid => hload hvalid⟩
  simp only [hbfsLoadBitmap, yields_rules]
  split
  · next hvalid => exact ⟨h, rfl, rfl, fun _ hk => h.bitmap hk hvalid⟩
  next hvalid =>
  have hinvalid : k.bitmapValid = false := by simpa using hvalid
  have hfailed : ∀ fs data, Booked
      { k with faults := fs, bitmapBuf := k.bitmapBuf.load data } := fun fs data => by
    have := hbooked fs (k.bitmapBuf.load data) k.bitmapValid
    exact this fun hv => absurd hv (by simp [hinvalid])
  refine yields_ataReadSectors (fun _ => ?_) (fun fs _ _ => ?_) fun fs n _ _ => ?_
  · exact ⟨hfailed k.faults [], rfl, rfl, by simp⟩
  · have hload : ∀ i < hbfsBitmapSize,
        k.bitmapBuf.load (sectorsAt k.disk hbfsBitmapStart hbfsBitmapSects) i =
        diskBitmap k.disk i :=
      fun i hi => bitmapLoaded_load _ _ hi
    exact ⟨hbooked fs _ true fun _ => hload, rfl, rfl, fun _ _ => hload⟩
  · exact ⟨hfailed fs _, rfl, rfl, by simp⟩

theorem Booked.clearBits_bitmapBuf (h : Booked k) (hloaded : k.BitmapLoaded) :
    k.superBuf.dword sbFreeBlocks = k.bitmapBuf.clearBits k.totalBlocks := by
  rw [h.counted.resident, hloaded.clearBits h.fits]

theorem signedTurns_of_lt (h : n < 2 ^ 31) : signedTurns n = n := if_pos h

theorem signedTurns_pos (h : signedTurns cnt ≠ 0) : 0 < cnt := by
  unfold signedTurns at h
  split at h <;> omega

/-- An allocation changes clear bits. -/
theorem Booked.fits_alloc (h : Booked k) (hloaded : k.BitmapLoaded) {needed : Nat}
    (hneeded : needed < 2 ^ 31) (hfirst : firstFit k.bitmapBuf needed k.totalBlocks = some first) :
    Fits true first needed (fun free => free + 2 ^ 32 - needed) k := by
  have hb := layout_eq
  have hturns := signedTurns_of_lt hneeded
  obtain ⟨hlow, hlt, hrun⟩ := firstFit_some hfirst
  rw [hturns] at hrun
  have hend : first + needed ≤ k.totalBlocks := by grind
  have hfit := h.fits
  have hsplit := clearBits_setBits_true hend fun m h1 h2 => (hrun m h1 h2).2
  refine ⟨covers_of_le (by omega), ?_⟩
  rw [h.clearBits_bitmapBuf hloaded, hturns, ← hsplit]
  have hle := clearBits_le (k.bitmapBuf.setBits true first needed) k.totalBlocks
  omega

/-- A legal free changes set bits. -/
theorem Booked.fits_free (h : Booked k) (hloaded : k.BitmapLoaded) {count : Nat}
    (hlegal : (AllocOp.free start count).Legal k) :
    Fits false start count (fun free => free + count) k := by
  have hb := layout_eq
  obtain ⟨hpos, hend, hset⟩ := hlegal
  have hfit := h.fits
  have hturns := signedTurns_of_lt (n := count) (by omega)
  have hbits : ∀ m, start ≤ m → m < start + count → k.bitmapBuf.bit m = true := by
    intro m h1 h2
    have hbit := hset m h1 h2
    unfold bit at hbit ⊢
    rwa [hloaded (m / 8) (by omega)]
  have hgrow := clearBits_setBits_false hend hbits
  refine ⟨covers_of_le (by omega), ?_⟩
  rw [h.clearBits_bitmapBuf hloaded, hturns, hgrow]
  have hle := clearBits_le (k.bitmapBuf.setBits false start count) k.totalBlocks
  omega

end Mellivora
