import Mellivora.Kernel.Proofs.MetaWriteProofs

/-!
# What metadata writes change

Seen from outside the journal area, logging a sector changes nothing and a metadata write that
succeeds writes its sectors, whatever state the journal is in and whatever the device reports on the
way.
-/

namespace Mellivora

open WriteLog Outcome

variable {k k' k1 : Kernel}

/-- From `k` to `k'` the sectors `ws` have been written, and nothing else happened but logging. -/
structure Wrote (ws : List (Nat × Sector)) (k k' : Kernel) : Prop where
  disk : OutsideEq k'.disk (afterWrites k.disk ws)
  same : SameButLog k k'

theorem Wrote.refl (k : Kernel) : Wrote [] k k := ⟨fun _ _ => rfl, SameButLog.refl k⟩

theorem Wrote.trans {k k2 : Kernel} {ws ws' : List (Nat × Sector)} (h : Wrote ws k k1)
    (h' : Wrote ws' k1 k2) : Wrote (ws ++ ws') k k2 := by
  refine ⟨?_, h.same.trans h'.same⟩
  rw [afterWrites_append]
  exact h'.disk.trans (h.disk.afterWrites ws')

theorem Wrote.put (k : Kernel) (fs : List (Option Nat)) (lba : Nat) (s : Sector) :
    Wrote [(lba, s)] k (Kernel.put { k with faults := fs } lba s) :=
  ⟨fun _ _ => rfl, SameButLog.put k fs lba s⟩

theorem Wrote.faults (k : Kernel) (fs : List (Option Nat)) : Wrote [] k { k with faults := fs } :=
  ⟨fun _ _ => rfl, SameButLog.faults k fs⟩

theorem Wrote.inLog {lba : Nat} {s : Sector} (h : Wrote [(lba, s)] k k') (hlba : InLog lba) :
    Wrote [] k k' :=
  ⟨h.disk.trans (outsideEq_update hlba k.disk s), h.same⟩

/-- Logging a sector writes the log only. -/
theorem wrote_logSector (k : Kernel) (lba : Nat) :
    Yields (hbfsJournalLogSector lba) (fun _ k' => Wrote [] k k') k := by
  have hb := layout_eq
  have hfail : ∀ {k1 : Kernel} (fs : List (Option Nat)) (header : Sector), Wrote [] k k1 →
      Wrote [] k { k1 with faults := fs, jrnlBuf := header, journalFailed := true } :=
    fun fs header h => ⟨h.disk, h.same.trans ⟨rfl, rfl, rfl, rfl, rfl, rfl, rfl, rfl, rfl, .inl rfl,
      rfl, rfl, rfl, rfl, List.prefix_rfl⟩⟩
  simp only [hbfsJournalLogSector, journalFail, yields_rules]
  split
  · exact Wrote.refl k
  split
  · exact Wrote.refl k
  split
  · exact Wrote.refl k
  split
  · exact Wrote.refl k
  split
  · exact hfail k.faults k.jrnlBuf (Wrote.refl k)
  next hroom =>
  have hpay : InLog (hbfsJournalLba + k.journalPtr + 1) := by
    rw [inLog_iff]
    omega
  have hhead : InLog (hbfsJournalLba + k.journalPtr) := by
    rw [inLog_iff]
    omega
  refine yields_ataReadSector (fun fs _ _ => ?_) fun fs _ => hfail fs k.jrnlBuf (Wrote.refl k)
  simp only [yields_rules]
  have hread := Wrote.faults k fs
  refine yields_ataWriteSector (fun fs' _ _ => ?_) fun fs' _ => hfail fs' k.jrnlBuf hread
  have hpaid := hread.trans ((Wrote.put { k with faults := fs } fs' _ (k.disk lba)).inLog hpay)
  rw [if_neg Bool.false_ne_true]
  refine yields_ataWriteSector (fun fs'' _ _ => ?_) fun fs'' _ => ?_
  · exact ⟨(outsideEq_update hhead _ _).trans hpaid.disk, hpaid.same.trans
      ⟨rfl, rfl, rfl, rfl, rfl, rfl, rfl, rfl, rfl, .inr ⟨_, rfl⟩, rfl, rfl, rfl, rfl,
        List.prefix_append ..⟩⟩
  · have hlast := hfail fs'' (preHeader lba k.journalEpoch (k.disk lba)) hpaid
    exact hlast

/-- One sector is written, or none. -/
theorem wrote_logAndWrite (k : Kernel) (lba : Nat) (src : MetaSrc) (i : Nat) :
    Yields (logAndWrite lba src i) (fun cf k' =>
      if cf then Wrote [] k k' else ∃ s, SrcSector k src i s ∧ Wrote [(lba, s)] k k') k := by
  simp only [logAndWrite, yields_rules]
  refine (wrote_logSector k lba).mono fun cf k1 h1 => ?_
  split
  · exact h1
  refine yields_ataWriteSector (fun fs _ _ => ?_) fun fs _ => ?_
  · exact ⟨_, ⟨k1, h1.same, rfl⟩, h1.trans (Wrote.put k1 fs _ _)⟩
  · exact h1.trans (Wrote.faults k1 fs)

theorem SrcWrites.nil (k : Kernel) (lba : Nat) (src : MetaSrc) (i : Nat) :
    SrcWrites k lba src i 0 [] :=
  ⟨rfl, fun j hj => absurd hj (by omega)⟩

theorem SrcWrites.cons {lba : Nat} {src : MetaSrc} {i n : Nat} {s : Sector}
    {ws : List (Nat × Sector)} (hs : SrcSector k src i s) (hsame : SameButLog k k1)
    (hws : SrcWrites k1 lba src (i + 1) n ws) :
    SrcWrites k lba src i (n + 1) ((lba + i, s) :: ws) := by
  refine ⟨by simp [hws.1], fun j hj => ?_⟩
  cases j with
  | zero => exact ⟨s, rfl, hs⟩
  | succ j =>
    obtain ⟨t, ht, hsrc⟩ := hws.2 j (by omega)
    rw [show i + 1 + j = i + (j + 1) by omega] at ht hsrc
    exact ⟨t, ht, hsrc.of_same hsame⟩

/-- What the loop has written, however it ends. -/
theorem wrote_metaWriteLoop (k : Kernel) (lba : Nat) (src : MetaSrc) (cnt i : Nat) :
    Yields (metaWriteLoop lba src cnt i) (fun cf k' => ∃ n ws, n ≤ cnt ∧ (cf = false → n = cnt) ∧
      SrcWrites k lba src i n ws ∧ Wrote ws k k') k := by
  induction cnt generalizing k i with
  | zero => exact ⟨0, [], le_rfl, fun _ => rfl, SrcWrites.nil k lba src i, Wrote.refl k⟩
  | succ cnt ih =>
  simp only [metaWriteLoop, yields_rules]
  refine (wrote_logAndWrite k (lba + i) src i).check
    (fun _ h1 => ⟨0, [], by omega, by simp, SrcWrites.nil k lba src i, h1⟩)
    fun k1 h1 => ?_
  obtain ⟨s, hs, hwrote⟩ := h1
  refine (ih k1 (i + 1)).mono fun cf k2 h2 => ?_
  obtain ⟨n, ws, hn, hcf, hws, hwrote2⟩ := h2
  exact ⟨n + 1, (lba + i, s) :: ws, by omega, fun h => by rw [hcf h], hws.cons hs hwrote.same,
    hwrote.trans hwrote2⟩

/-- The sector with the bitmap's checksum, when it has to be written after the range. -/
def Kernel.trailerWrite (k : Kernel) (lba cnt : Nat) : List (Nat × Sector) :=
  if k.extraFor lba cnt then
    [(bitmapTrailer, (k.stampedFor lba).bitmapBuf.sector (hbfsBitmapSects - 1))]
  else []

/-- What the writes of `hbfs_meta_write` have done, all of them or the first few. -/
structure MetaWrote (k : Kernel) (lba : Nat) (src : MetaSrc) (cnt : Nat) (cf : Bool) (k' : Kernel)
    (n : Nat) (ws vs : List (Nat × Sector)) : Prop where
  le : n ≤ cnt
  range : SrcWrites (k.stampedFor lba) lba src 0 n ws
  trailer : vs = [] ∨ vs = k.trailerWrite lba cnt
  wrote : Wrote (ws ++ vs) (k.stampedFor lba) k'
  all : cf = false → n = cnt ∧ vs = k.trailerWrite lba cnt

/-- What a metadata write has written, however it ends. -/
theorem wrote_metaTry (k : Kernel) (lba : Nat) (src : MetaSrc) (cnt : Nat) :
    Yields (hbfsMetaTry lba src cnt) (fun cf k' => ∃ n ws vs, MetaWrote k lba src cnt cf k' n ws vs)
    k := by
  simp only [hbfsMetaTry, yields_stampForWrite, yields_rules]
  refine (wrote_metaWriteLoop (k.stampedFor lba) lba src cnt 0).mono fun cf k1 h1 => ?_
  obtain ⟨n, ws, hn, hall, hws, hwrote⟩ := h1
  have hnone : Wrote (ws ++ []) (k.stampedFor lba) k1 := by rwa [List.append_nil]
  cases cf with
  | true => exact ⟨n, ws, [], hn, hws, .inl rfl, hnone, by simp⟩
  | false =>
  rw [if_neg Bool.false_ne_true]
  cases hex : k.extraFor lba cnt with
  | false =>
    have htrailer : k.trailerWrite lba cnt = [] := if_neg (by simp [hex])
    exact ⟨n, ws, [], hn, hws, .inl rfl, hnone, fun _ => ⟨hall rfl, htrailer.symm⟩⟩
  | true =>
  rw [if_pos rfl]
  refine (wrote_logAndWrite k1 _ _ 0).mono fun cf k2 h2 => ?_
  cases cf with
  | true =>
    refine ⟨n, ws, [], hn, hws, .inl rfl, ?_, by simp⟩
    exact hwrote.trans h2
  | false =>
    obtain ⟨s, hs, hwrote2⟩ := h2
    rw [(hs.of_same hwrote.same).eq (by simp)] at hwrote2
    have htrailer : k.trailerWrite lba cnt = _ := if_pos hex
    exact ⟨n, ws, _, hn, hws, .inr rfl, htrailer ▸ hwrote.trans hwrote2, fun _ => ⟨hall rfl, rfl⟩⟩

/-! ## Opening and closing a transaction -/

/-- The kernel's variables are the same but for the journal's. -/
structure SameOutsideTx (k k' : Kernel) : Prop where
  bitmap : k'.toBitmapState = k.toBitmapState
  dir : k'.toDirState = k.toDirState
  extent : k'.toExtentState = k.toExtentState
  cwd : k'.toCwdState = k.toCwdState
  quota : k'.toQuotaState = k.toQuotaState
  caller : k'.toCallerState = k.toCallerState
  mounted : k'.mounted = k.mounted
  readOnly : k'.readOnly = k.readOnly
  totalBlocks : k'.totalBlocks = k.totalBlocks
  total : k'.ataTotalSectors = k.ataTotalSectors
  superBuf : SameOutsideJournal k'.superBuf k.superBuf

theorem SameOutsideTx.refl (k : Kernel) : SameOutsideTx k k :=
  ⟨rfl, rfl, rfl, rfl, rfl, rfl, rfl, rfl, rfl, rfl, SameOutsideJournal.refl _⟩

theorem SameButLog.outsideTx (h : SameButLog k k') : SameOutsideTx k k' :=
  { h with superBuf := h.sameOutsideJournal }

/-- What the checks and the bounds of the volume are read off is the same. -/
structure SameGeometry (k k' : Kernel) : Prop where
  mounted : k'.mounted = k.mounted
  readOnly : k'.readOnly = k.readOnly
  totalBlocks : k'.totalBlocks = k.totalBlocks
  total : k'.ataTotalSectors = k.ataTotalSectors
  magic : k'.superBuf.dword 0 = k.superBuf.dword 0
  version : k'.superBuf.dword sbVersion = k.superBuf.dword sbVersion

theorem SameGeometry.trans {k k2 : Kernel} (h : SameGeometry k k1) (h' : SameGeometry k1 k2) :
    SameGeometry k k2 := by
  cases h; cases h'
  constructor <;> simp only [*]

theorem SameOutsideTx.geometry (h : SameOutsideTx k k') : SameGeometry k k' :=
  { h with magic := h.superBuf.magic, version := h.superBuf.dword (by decide) }

theorem SameGeometry.usable (h : SameGeometry k k') (hk : Usable k) : Usable k' :=
  ⟨h.mounted.trans hk.mounted, h.readOnly.trans hk.writable⟩

theorem SameGeometry.journalled (h : SameGeometry k k') : k'.journalled = k.journalled := by
  unfold Kernel.journalled
  rw [h.version]

theorem SameGeometry.isV4 (h : SameGeometry k k') : k'.isV4 = k.isV4 := by
  unfold Kernel.isV4
  rw [h.magic]

/-- What opening or closing a transaction changes: the journal's variables, the log, and the
superblock, which is written with the journal's fields changed, or not at all. -/
structure TxEdge (k k' : Kernel) : Prop where
  same : SameOutsideTx k k'
  disk : ∀ lba, ¬ InLog lba → lba ≠ hbfsSuperblockLba → k'.disk lba = k.disk lba
  onDisk : k'.disk hbfsSuperblockLba = k.disk hbfsSuperblockLba ∨
    SameOutsideJournal (k'.disk hbfsSuperblockLba) k.superBuf

theorem TxEdge.refl (k : Kernel) : TxEdge k k := ⟨SameOutsideTx.refl k, fun _ _ _ => rfl, .inl rfl⟩

theorem TxEdge.writeSuperblock (h : TxEdge k k1) :
    Yields hbfsWriteSuperblock (fun _ k' => TxEdge k k') k1 := by
  have hstamp := (sameOutsideJournal_restamp k1.superBuf).trans h.same.superBuf
  simp only [hbfsWriteSuperblock, yields_rules]
  refine yields_ataWriteSector (fun fs _ _ => ?_) fun fs _ => ?_
  · refine ⟨{ h.same with superBuf := hstamp }, fun lba hlba hne => ?_, .inr ?_⟩
    · exact (Function.update_of_ne hne _ _).trans (h.disk lba hlba hne)
    · simp only [Kernel.put_disk, Function.update_self]
      exact hstamp
  · exact ⟨{ h.same with superBuf := hstamp }, h.disk, h.onDisk⟩

/-- Opening a transaction changes the journal and the superblock only. -/
theorem edge_begin (k : Kernel) : Yields hbfsJournalBegin (fun _ k' => TxEdge k k') k := by
  simp only [hbfsJournalBegin, hbfsRequireWritable, yields_rules]
  split
  · exact TxEdge.refl k
  split
  · exact TxEdge.refl k
  split
  · exact ⟨⟨rfl, rfl, rfl, rfl, rfl, rfl, rfl, rfl, rfl, rfl, SameOutsideJournal.refl _⟩,
      fun _ _ _ => rfl, .inl rfl⟩
  · refine TxEdge.writeSuperblock ⟨⟨rfl, rfl, rfl, rfl, rfl, rfl, rfl, rfl, rfl, rfl, ?_⟩,
      fun _ _ _ => rfl, .inl rfl⟩
    exact (sameOutsideJournal_setDword _ (.inl rfl) _).trans
      (sameOutsideJournal_setDword _ (.inr (.inr rfl)) _)

/-- Closing it changes the same. -/
theorem edge_commit (k : Kernel) (h : k.journalled = true → k.journalFailed = false) :
    Yields hbfsJournalCommit (fun _ k' => TxEdge k k') k := by
  have hb := layout_eq
  simp only [hbfsJournalCommit, writeCommitMarker, yields_rules]
  split
  · exact TxEdge.refl k
  next hj =>
  have hfailed := h (by simpa using hj)
  split
  · exact TxEdge.refl k
  split
  · exact ⟨⟨rfl, rfl, rfl, rfl, rfl, rfl, rfl, rfl, rfl, rfl, SameOutsideJournal.refl _⟩,
      fun _ _ _ => rfl, .inl rfl⟩
  rw [if_neg (by simp [hfailed])]
  have hclear :
    SameOutsideJournal ((k.superBuf.setDword hbfsSbJrnlState 0).setDword hbfsSbJrnlPtr 0)
      k.superBuf := (sameOutsideJournal_setDword _ (.inr (.inl rfl)) _).trans
    (sameOutsideJournal_setDword _ (.inl rfl) _)
  split
  · next hroom =>
    have hin : InLog (hbfsJournalLba + k.journalPtr) := by
      rw [inLog_iff]
      omega
    refine yields_ataWriteSector (fun fs _ _ => ?_) fun fs _ => ?_
    · refine TxEdge.writeSuperblock ⟨⟨rfl, rfl, rfl, rfl, rfl, rfl, rfl, rfl, rfl, rfl, hclear⟩,
        fun lba hlba _ => outsideEq_update hin _ _ lba hlba, .inl ?_⟩
      exact outsideEq_update hin _ _ _ superblock_not_inLog
    · exact TxEdge.writeSuperblock ⟨⟨rfl, rfl, rfl, rfl, rfl, rfl, rfl, rfl, rfl, rfl, hclear⟩,
        fun _ _ _ => rfl, .inl rfl⟩
  · exact TxEdge.writeSuperblock ⟨⟨rfl, rfl, rfl, rfl, rfl, rfl, rfl, rfl, rfl, rfl, hclear⟩,
      fun _ _ _ => rfl, .inl rfl⟩

theorem logInv_begin (hmounted : k.mounted = true) (hwritable : k.readOnly = false)
    (hj : k.journalled = true) (hdepth : k.journalDepth = 0) :
    Yields hbfsJournalBegin
      (fun _ k' => LogInv k'.disk ∅ [] k' ∧ k'.journalFailed = false) k := by
  have hver : ∀ e, (restampSuperblock ((k.superBuf.setDword hbfsSbJrnlEpoch e).setDword
      hbfsSbJrnlState 1)).dword sbVersion = k.superBuf.dword sbVersion := by
    intro e
    rw [dword_restampSuperblock _ (by decide),
      Sector.dword_setDword_of_disjoint _ (by decide) _ (by decide),
      Sector.dword_setDword_of_disjoint _ (by decide) _ (by decide)]
  have hinv : ∀ k' : Kernel, k'.journalled = true → k'.journalDirty = true →
      k'.journalEpoch < 2 ^ 32 → k'.journalPtr = 0 → k'.journalLogged = [] →
      LogInv k'.disk ∅ [] k' :=
    fun k' h1 h2 h3 h4 h5 => ⟨h1, h2, h3, h4, h5, ⟨by simp, by simp, by simp⟩, by simp, by simp,
      by simp, fun _ _ _ _ => rfl⟩
  simp only [hbfsJournalBegin, hbfsRequireWritable, hbfsWriteSuperblock, yields_rules]
  rw [if_neg (by simp [hmounted, hwritable]), if_neg (by simp [hj]), if_neg (by simp [hdepth])]
  have hj' : ∀ e, decide (hbfsVersionV2 ≤ (restampSuperblock ((k.superBuf.setDword hbfsSbJrnlEpoch
      e).setDword hbfsSbJrnlState 1)).dword sbVersion) = true := fun e => by rw [hver]; exact hj
  refine yields_ataWriteSector (fun fs _ _ => ⟨?_, rfl⟩) fun fs _ => ⟨?_, rfl⟩
  · exact hinv _ (hj' _) rfl (Nat.mod_lt _ (by norm_num)) rfl rfl
  · exact hinv _ (hj' _) rfl (Nat.mod_lt _ (by norm_num)) rfl rfl

end Mellivora
