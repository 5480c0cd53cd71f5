import Mellivora.Kernel.Proofs.FrameProofs
import Mellivora.Kernel.Proofs.MetaWriteProofs

/-!
# How deep a transaction is open

`hbfs_journal_begin` and `hbfs_journal_commit` count the open transactions, and `hbfs_journal_abort`
ends all of them at once.
-/

namespace Mellivora

open Outcome Sector

variable {k' : Kernel}

/-- The kernel is inside `n` transactions, on a usable volume. With `j`, the volume is known to
carry a journal; a rollback reads the superblock back from the disk, and what that says is not
known. -/
structure Level (j : Bool) (n : Nat) (k : Kernel) : Prop extends Usable k where
  depth : k.journalDepth = n
  dirty : k.journalDirty = decide (0 < n)
  closed : n = 0 → k.superBuf.dword hbfsSbJrnlState = 0
  journalled : j = true ∨ 0 < n → k.journalled = true
  sound : 0 < n → k.journalFailed = false

/-- The variables the level is read off are the same. -/
structure KeepsLevel (k k' : Kernel) : Prop where
  volume : k'.toVolume = k.toVolume
  depth : k'.journalDepth = k.journalDepth
  dirty : k'.journalDirty = k.journalDirty
  failed : k'.journalFailed = k.journalFailed

variable {j : Bool} {n : Nat} {k : Kernel}

theorem KeepsLevel.of (h : (k'.toVolume, k'.journalDepth, k'.journalDirty, k'.journalFailed) =
    (k.toVolume, k.journalDepth, k.journalDirty, k.journalFailed)) : KeepsLevel k k' := by
  simp only [Prod.mk.injEq] at h
  exact ⟨h.1, h.2.1, h.2.2.1, h.2.2.2⟩

theorem KeepsLevel.refl (k : Kernel) : KeepsLevel k k := .of rfl

theorem KeepsLevel.trans {k k1 k2 : Kernel} (h : KeepsLevel k k1) (h' : KeepsLevel k1 k2) :
    KeepsLevel k k2 :=
  ⟨h'.volume.trans h.volume, h'.depth.trans h.depth, h'.dirty.trans h.dirty,
    h'.failed.trans h.failed⟩

theorem KeepsLevel.after {k k1 k2 : Kernel} (h' : KeepsLevel k1 k2)
    (h : KeepsLevel k k1) : KeepsLevel k k2 := h.trans h'

theorem IoOnly.keepsLevel (h : IoOnly k k') : KeepsLevel k k' :=
  ⟨h.volume, by rw [h.journal], by rw [h.journal], by rw [h.journal]⟩

theorem Usable.congr (h : Usable k) (hvol : k'.toVolume = k.toVolume) : Usable k' :=
  ⟨by rw [hvol]; exact h.mounted, by rw [hvol]; exact h.writable⟩

theorem Level.congr (h : Level j n k) (hk : KeepsLevel k k') : Level j n k' := by
  refine ⟨h.toUsable.congr hk.volume, hk.depth.trans h.depth, hk.dirty.trans h.dirty, ?_, ?_,
    fun hn => hk.failed.trans (h.sound hn)⟩ <;> simp only [Kernel.journalled, hk.volume]
  · exact h.closed
  · exact h.journalled

theorem Level.io (h : Level j n k) (hio : IoOnly k k') : Level j n k' := h.congr hio.keepsLevel

theorem Level.setSuper {sb : Sector} (h : Level j n k)
    (hstate : sb.dword hbfsSbJrnlState = k.superBuf.dword hbfsSbJrnlState)
    (hver : sb.dword sbVersion = k.superBuf.dword sbVersion) :
    Level j n { k with superBuf := sb } := by
  refine ⟨{ h with }, h.depth, h.dirty, fun hn => hstate.trans (h.closed hn), fun hn => ?_, h.sound⟩
  have hj := h.journalled hn
  unfold Kernel.journalled at hj ⊢
  rwa [hver]

theorem Level.setSuper_dword (h : Level j n k) (off v : Nat) (hoff : off + 4 ≤ 512)
    (hstate : off + 4 ≤ hbfsSbJrnlState ∨ hbfsSbJrnlState + 4 ≤ off)
    (hver : off + 4 ≤ sbVersion ∨ sbVersion + 4 ≤ off) :
    Level j n { k with superBuf := k.superBuf.setDword off v } :=
  h.setSuper (dword_setDword_of_disjoint _ hoff _ hstate) (dword_setDword_of_disjoint _ hoff _ hver)

theorem Level.restamp (h : Level j n k) :
    Level j n { k with superBuf := restampSuperblock k.superBuf } :=
  h.setSuper (dword_restampSuperblock _ (by decide)) (dword_restampSuperblock _ (by decide))

theorem Level.writeSuperblock (h : Level j n k) :
    Yields hbfsWriteSuperblock (fun _ k' => Level j n k') k := by
  simp only [hbfsWriteSuperblock, yields_rules]
  exact (io_ataWriteSectors _ _ _).mono fun _ _ hio => h.restamp.io hio

theorem Usable.writable_eq (h : Usable k) : (!k.mounted || k.readOnly) = false := by
  simp [h.mounted, h.writable]

/-! ## Begin, commit and abort -/

/-- What `hbfs_journal_begin` leaves: on a volume without a journal it does nothing. -/
def Begun (j : Bool) (n : Nat) (k : Kernel) : Prop :=
  Level j (n + 1) k ∨ (j = false ∧ n = 0 ∧ Level false 0 k)

theorem Level.not_journalled (h : Level j n k) (hj : ¬ k.journalled = true) :
    j = false ∧ n = 0 := by
  have hnot : ¬ (j = true ∨ 0 < n) := fun hor => hj (h.journalled hor)
  rw [not_or, Bool.not_eq_true, not_lt, Nat.le_zero] at hnot
  exact hnot

/-- A transaction one level deeper. -/
theorem Level.begin (h : Level j n k) : Yields hbfsJournalBegin (fun _ k' => Begun j n k') k := by
  simp only [hbfsJournalBegin, hbfsRequireWritable, yields_rules]
  rw [if_neg (by simp [h.writable_eq])]
  split
  · next hj =>
    obtain ⟨rfl, rfl⟩ := h.not_journalled (by simpa using hj)
    exact .inr ⟨rfl, rfl, h⟩
  next hj =>
  have hj : k.journalled = true := by simpa using hj
  split
  · next hne =>
    have hn : 0 < n := by
      rw [h.depth] at hne
      omega
    exact .inl ⟨{ h with }, by simp [h.depth], by simp [h.dirty, hn], by simp, fun _ => hj,
      fun _ => h.sound hn⟩
  · next heq =>
    obtain rfl : n = 0 := by
      rw [h.depth] at heq
      omega
    refine Yields.mono (Level.writeSuperblock (j := j) (n := 1) ?_) fun _ _ h' => .inl h'
    refine ⟨{ h with }, by simp [h.depth], rfl, by simp, fun _ => ?_, fun _ => rfl⟩
    unfold Kernel.journalled at hj ⊢
    rwa [dword_setDword_of_disjoint _ (by decide) _ (by decide),
      dword_setDword_of_disjoint _ (by decide) _ (by decide)]

theorem keepsLevel_commitMarker (k : Kernel) :
    Yields writeCommitMarker (fun _ k' => KeepsLevel k k') k := by
  simp only [writeCommitMarker, yields_rules]
  split
  · exact (io_ataWriteSectors _ _ _).mono fun _ _ hio =>
      hio.keepsLevel.after (.of rfl)
  · exact KeepsLevel.refl k

theorem keepsLevel_standing (k : Kernel) : Standing (KeepsLevel k) where
  stable hvol hjournal _ h := h.trans ⟨hvol, by rw [hjournal], by rw [hjournal], by rw [hjournal]⟩

theorem keepsLevel_recoverScan (k : Kernel) (turns index : Nat) :
    Yields (recoverScan turns index) (fun _ k' => KeepsLevel k k') k := by
  have hstand := keepsLevel_standing k
  refine maintains_recoverScan (fun lba s => hstand.write lba [s])
    (fun lba => (hstand.read lba 1).bind fun _ => maintains_pure _) ?_ turns index k
    (KeepsLevel.refl k)
  exact fun _ _ h => h.trans (.of rfl)

theorem clearedSuper_state (sb : Sector) :
    ((sb.setDword hbfsSbJrnlState 0).setDword hbfsSbJrnlPtr 0).dword hbfsSbJrnlState = 0 := by
  rw [dword_setDword_of_disjoint _ (by decide) _ (by decide), dword_setDword _ (by decide),
    Nat.zero_mod]

theorem Usable.clearSuper (h : Usable k) (hmounted : k'.mounted = k.mounted)
    (hwritable : k'.readOnly = k.readOnly)
    (hdepth : k'.journalDepth = 0) (hdirty : k'.journalDirty = false) {sb : Sector}
    (hsuper : k'.superBuf = (sb.setDword hbfsSbJrnlState 0).setDword hbfsSbJrnlPtr 0) :
    Level false 0 k' := by
  refine ⟨⟨hmounted.trans h.mounted, hwritable.trans h.writable⟩, hdepth, by simp [hdirty],
    fun _ => ?_, by simp, by simp⟩
  rw [hsuper, clearedSuper_state]

theorem Usable.recover (h : Usable k) :
    Yields hbfsJournalRecover (fun _ k' => Level false 0 k') k := by
  simp only [hbfsJournalRecover, yields_rules]
  refine (keepsLevel_recoverScan k _ _).mono fun _ k1 h1 => ?_
  exact Level.writeSuperblock ((h.congr h1.volume).clearSuper rfl rfl rfl rfl rfl)

/-- An abort leaves every level. -/
theorem Usable.abort (h : Usable k) (hj : k.journalled = true) :
    Yields hbfsJournalAbort (fun _ k' => Level false 0 k') k := by
  simp only [hbfsJournalAbort, yields_rules]
  rw [if_neg (by simp [hj])]
  refine (keepsLevel_commitMarker _).mono fun _ k1 h1 => ?_
  have hk1 : Usable k1 := h.congr h1.volume
  refine hk1.recover.mono fun _ k2 h2 => ?_
  refine (io_ataReadSector _ _).mono fun sb k3 hio => ?_
  have h3 : Level false 0 k3 := h2.congr (hio.keepsLevel.after (.of rfl))
  cases sb with
  | none =>
    simp only [yields_rules]
    refine Yields.mono (Level.writeSuperblock (n := 0) ?_) fun _ _ h4 => h4.congr (.of rfl)
    exact h3.toUsable.clearSuper rfl rfl h3.depth rfl rfl
  | some sb =>
    simp only [yields_rules]
    refine Yields.mono (Level.writeSuperblock (n := 0) ?_) fun _ _ h4 => h4.congr (.of rfl)
    exact h3.toUsable.clearSuper rfl rfl h3.depth rfl rfl

/-- What it takes to roll back: on a volume without a journal nothing may be open. -/
structure Held (k : Kernel) : Prop extends Usable k where
  idle : ¬ k.journalled = true → Level false 0 k

theorem Level.held (h : Level j n k) : Held k := by
  refine ⟨h.toUsable, fun hj => ?_⟩
  obtain ⟨rfl, rfl⟩ := h.not_journalled hj
  exact h

theorem Held.abort (h : Held k) : Yields hbfsJournalAbort (fun _ k' => Level false 0 k') k := by
  by_cases hj : k.journalled = true
  · exact h.toUsable.abort hj
  · simp only [hbfsJournalAbort, yields_rules]
    rw [if_pos (by simp [hj])]
    exact h.idle hj

/-- `hbfs_journal_commit` closes one level. -/
theorem Level.commit (h : Level j (n + 1) k) :
    Yields hbfsJournalCommit (fun _ k' => Level j n k') k := by
  simp only [hbfsJournalCommit, yields_rules]
  have hj : k.journalled = true := h.journalled (by simp)
  have hdirty : k.journalDirty = true := by simp [h.dirty]
  have hsound : k.journalFailed = false := h.sound (by simp)
  rw [if_neg (by simp [hj]), if_neg (by simp [hdirty]), h.depth]
  split
  · next hdepth =>
    exact ⟨{ h with }, rfl, by simp [hdirty]; omega, fun h0 => by omega, fun _ => hj,
      fun _ => hsound⟩
  next hdepth =>
  obtain rfl : n = 0 := by omega
  rw [if_neg (by simp [hsound])]
  refine (keepsLevel_commitMarker _).mono fun _ k1 h1 => ?_
  have hk1 : Usable k1 := h.toUsable.congr h1.volume
  refine Level.writeSuperblock ⟨{ hk1 with }, h1.depth, rfl, fun _ => clearedSuper_state _,
    fun _ => ?_, by simp⟩
  · unfold Kernel.journalled at hj ⊢
    rwa [dword_setDword_of_disjoint _ (by decide) _ (by decide),
      dword_setDword_of_disjoint _ (by decide) _ (by decide), h1.volume]

theorem Begun.commit (h : Begun j n k) : Yields hbfsJournalCommit (fun _ k' => Level j n k') k := by
  rcases h with h | ⟨rfl, rfl, h⟩
  · exact h.commit
  · simp only [hbfsJournalCommit, h.dirty, yields_rules]
    split
    · exact h
    · exact h

/-! ## Logging and writing -/

/-- What a step of a transaction leaves: the level as it was, or something to roll back. -/
def Held.orLevel (j : Bool) (n : Nat) (cf : Bool) (k : Kernel) : Prop :=
  if cf then Held k else Level j n k

theorem Level.failed (h : Level j n k) : Held { k with journalFailed := true } :=
  ⟨{ h with }, fun hj => by
    obtain ⟨-, rfl⟩ := h.not_journalled hj
    exact ⟨{ h with }, h.depth, h.dirty, h.closed, by simp, by simp⟩⟩

/-- Logging keeps the level, or leaves something to roll back. -/
theorem Level.logSector (h : Level j n k) (lba : Nat) :
    Yields (hbfsJournalLogSector lba) (Held.orLevel j n) k := by
  simp only [hbfsJournalLogSector, journalFail, yields_rules]
  split_ifs
  · exact h
  · exact h
  · exact h.held
  · exact h
  · exact h.failed
  refine (io_ataReadSector k lba).mono fun pre k1 hio => ?_
  have h1 := h.io hio
  cases pre with
  | none => exact h1.failed
  | some pre =>
  simp only [yields_rules]
  refine (io_ataWriteSectors _ _ _).mono fun cf k2 hio2 => ?_
  have h2 := h1.io hio2
  split
  · exact h2.failed
  refine (io_ataWriteSectors _ _ _).mono fun cf k3 hio3 => ?_
  have h3 : Level j n k3 := h2.congr (hio3.keepsLevel.after (.of rfl))
  split
  · exact h3.failed
  · have h4 :=
      h3.setSuper_dword hbfsSbJrnlPtr (k3.journalPtr + 2) (by decide) (by decide) (by decide)
    exact h4.congr (.of rfl)

theorem Level.logAndWrite (h : Level j n k) (lba : Nat) (src : MetaSrc) (i : Nat) :
    Yields (logAndWrite lba src i) (Held.orLevel j n) k := by
  simp only [Mellivora.logAndWrite, yields_rules]
  refine (h.logSector lba).check (fun _ h1 => h1) fun k1 h1 => ?_
  refine (io_ataWriteSectors k1 _ _).mono fun cf k2 hio => ?_
  have h2 : Level j n k2 := Level.io h1 hio
  cases cf with
  | true => exact h2.held
  | false => exact h2

theorem Level.metaWriteLoop (h : Level j n k) (lba : Nat) (src : MetaSrc) (cnt i : Nat) :
    Yields (metaWriteLoop lba src cnt i) (Held.orLevel j n) k := by
  induction cnt generalizing k i with
  | zero => exact h
  | succ cnt ih =>
    simp only [Mellivora.metaWriteLoop, yields_rules]
    refine (h.logAndWrite (lba + i) src i).mono fun cf k1 h1 => ?_
    cases cf with
    | true => exact h1
    | false => exact ih h1 (i + 1)

theorem Level.stampedFor (h : Level j n k) (lba : Nat) : Level j n (k.stampedFor lba) := by
  have hsuper : Level j n { k with superBuf := (k.stampedFor lba).superBuf } :=
    h.setSuper (stampedFor_dword lba (by decide)) (stampedFor_dword lba (by decide))
  exact hsuper.congr (.of rfl)

/-- What a routine inside a transaction leaves: the level as it was, or nothing open when it has
failed. -/
def Level.orUndone (j : Bool) (n : Nat) (cf : Bool) (k : Kernel) : Prop :=
  if cf then Level false 0 k else Level j n k

theorem Level.metaTry (h : Level j n k) (lba : Nat) (src : MetaSrc) (cnt : Nat) :
    Yields (hbfsMetaTry lba src cnt) (Held.orLevel j n) k := by
  simp only [hbfsMetaTry, yields_stampForWrite, yields_rules]
  refine ((h.stampedFor lba).metaWriteLoop lba src cnt 0).check (fun _ h1 => h1) fun k1 h1 => ?_
  split
  · exact Level.logAndWrite h1 _ _ _
  · exact h1

/-- A metadata write keeps the level, or has undone everything. -/
theorem Level.metaWrite (h : Level j n k) (lba : Nat) (src : MetaSrc) (cnt : Nat) :
    Yields (hbfsMetaWrite lba src cnt) (Level.orUndone j n) k := by
  simp only [hbfsMetaWrite, hbfsRequireWritable, yields_rules]
  rw [if_neg (by simp [h.writable_eq])]
  refine (h.metaTry lba src cnt).mono fun cf k1 h1 => ?_
  cases cf with
  | true => exact Held.abort h1
  | false => exact h1

/-- The same inside a transaction that was just opened. -/
def Begun.orUndone (j : Bool) (n : Nat) (cf : Bool) (k : Kernel) : Prop :=
  if cf then Level false 0 k else Begun j n k

theorem Begun.metaWrite (h : Begun j n k) (lba : Nat) (src : MetaSrc) (cnt : Nat) :
    Yields (hbfsMetaWrite lba src cnt) (Begun.orUndone j n) k := by
  rcases h with h | ⟨rfl, rfl, h⟩
  · refine (h.metaWrite lba src cnt).mono fun cf k' h' => ?_
    cases cf with
    | true => exact h'
    | false => exact .inl h'
  · refine (h.metaWrite lba src cnt).mono fun cf k' h' => ?_
    cases cf with
    | true => exact h'
    | false => exact .inr ⟨rfl, rfl, h'⟩

/-! ## The allocator and directories -/

theorem keepsLevel_loadBitmap (k : Kernel) :
    Yields hbfsLoadBitmap (fun _ k' => KeepsLevel k k') k :=
  (keepsLevel_standing k).loadBitmap k (KeepsLevel.refl k)

theorem Begun.writeFreeCount (h : Begun j n k) (count : Nat → Nat) :
    Yields (writeFreeCount count) (Begun.orUndone j n) k := by
  simp only [Mellivora.writeFreeCount, yields_rules]
  refine Begun.metaWrite ?_ _ _ _
  rcases h with h | ⟨rfl, rfl, h⟩
  · exact .inl (h.setSuper_dword _ _ (by decide) (by decide) (by decide))
  · exact .inr ⟨rfl, rfl, h.setSuper_dword _ _ (by decide) (by decide) (by decide)⟩

/-- A change of blocks keeps the level, or has undone everything. -/
theorem Level.changeBlocks (h : Level j n k) (b : Bool) (start cnt : Nat) (count : Nat → Nat) :
    Yields (changeBlocks b start cnt count) (Level.orUndone j n) k := by
  simp only [Mellivora.changeBlocks, yields_rules]
  have hset : Level j n { k with bitmapBuf := k.bitmapBuf.setBits b start (signedTurns cnt) } :=
    h.congr (.of rfl)
  refine hset.begin.mono fun _ k1 h1 => ?_
  refine (h1.metaWrite _ _ _).check (fun _ h2 => h2) fun k2 h2 => ?_
  refine (Begun.writeFreeCount h2 _).mono fun cf k3 h3 => ?_
  cases cf with
  | true => exact h3
  | false => exact Begun.commit h3

theorem Level.freeBlocks (h : Level j n k) (start count : Nat) :
    Yields (hbfsFreeBlocks start count) (Level.orUndone j n) k := by
  simp only [hbfsFreeBlocks, yields_bind]
  exact (keepsLevel_loadBitmap k).mono fun _ _ h1 => (h.congr h1).changeBlocks _ _ _ _

theorem Level.saveLoop (h : Level j n k) (lba cnt i : Nat) :
    Yields (saveLoop lba cnt i) (Held.orLevel j n) k := by
  induction cnt generalizing k i with
  | zero => exact h
  | succ cnt ih =>
  simp only [Mellivora.saveLoop, yields_rules]
  split
  · exact ih h (i + 1)
  refine (h.logSector (lba + i)).check (fun _ h1 => h1) fun k1 h1 => ?_
  refine (io_ataWriteSectors k1 _ _).mono fun cf k2 hio => ?_
  have h2 : Level j n k2 := Level.io h1 hio
  cases cf with
  | true => exact h2.held
  | false =>
    rw [if_neg Bool.false_ne_true]
    refine ih ?_ (i + 1)
    exact h2.congr (.of rfl)

/-- A save keeps the level, or has undone everything. -/
theorem Level.saveRootDir (h : Level j n k) : Yields hbfsSaveRootDir (Level.orUndone j n) k := by
  simp only [hbfsSaveRootDir, hbfsRequireWritable, yields_rules]
  rw [if_neg (by simp [h.writable_eq])]
  refine h.begin.mono fun _ k1 h1 => ?_
  rcases h1 with h1 | ⟨rfl, rfl, h1⟩
  · refine Yields.mono (Level.saveLoop (j := j) (n := n + 1) ?_ _ _ _) fun cf k2 h2 => ?_
    · exact h1.congr (.of rfl)
    cases cf with
    | true => exact Held.abort h2
    | false => exact Level.commit h2
  · refine Yields.mono (Level.saveLoop (j := false) (n := 0) ?_ _ _ _) fun cf k2 h2 => ?_
    · exact h1.congr (.of rfl)
    cases cf with
    | true => exact Held.abort h2
    | false => exact Begun.commit (.inr ⟨rfl, rfl, h2⟩)

theorem Level.begin_journalled (h : Level true n k) :
    Yields hbfsJournalBegin (fun _ k' => Level true (n + 1) k') k := by
  refine h.begin.mono fun _ k' h' => ?_
  rcases h' with h' | ⟨hfalse, -⟩
  · exact h'
  · exact absurd hfalse (by decide)

theorem Level.forget (h : Level j n k) : Level false n k :=
  { h with journalled := fun hn => h.journalled (.inr (hn.resolve_left (by decide))) }

end Mellivora
