import Mellivora.Kernel.Proofs.InsideProofs
import Mellivora.Kernel.Proofs.TransactionProofs

/-!
# Changing the bitmap on a device that works

The scan of `hbfs_alloc_blocks` finds the lowest run there is. What is then written has to fit the
log: on a device that reports no error a metadata write fails exactly when the log is full, so a
change of the bitmap goes through exactly when its sectors and those already logged are at most
fifteen.
-/

namespace Mellivora

open WriteLog Outcome List Buffer Finset

variable {state : BitmapState} {cf : Bool} {buf : Buffer} {d : Disk} {src : MetaSrc}
  {cnt first i lba m needed start total : Nat} {count : Nat → Nat} {k k1 k2 k' : Kernel}

/-! ## The scan -/

theorem granted_of_firstFit (hpos : 0 < needed) (h31 : needed < 2 ^ 31)
    (h : firstFit buf needed total = some first) : Granted buf.bit total first needed := by
  obtain ⟨hbehind, -, hrun⟩ := firstFit_some h
  rw [signedTurns_of_lt h31] at hrun
  have hlast := (hrun (first + needed - 1) (by omega) (by omega)).1
  exact ⟨hbehind, by omega, fun m h1 h2 => (hrun m h1 h2).2⟩

/-- The scan finds a run no later than any other. -/
theorem firstFit_le {other : Nat} (hpos : 0 < needed) (h31 : needed < 2 ^ 31)
    (h : Granted buf.bit total other needed) : ∃ first, firstFit buf needed total = some first ∧
    first ≤ other := by
  have hinside := h.inside
  have hrun : runAt buf needed total other = true :=
    (runAt_iff other).mpr ⟨by omega, h.free other le_rfl (by omega),
      fun m h1 h2 => ⟨by omega, h.free m h1 h2⟩⟩
  rw [firstFit, signedTurns_of_lt h31, scanFrom_eq_find]
  cases hfit : (List.range' hbfsJournalBlocks total).find? (runAt buf needed total) with
  | none => exact absurd hrun (find?_eq_none.mp hfit other (mem_range'_1.mpr ⟨h.behind, by omega⟩))
  | some first =>
    refine ⟨first, rfl, not_lt.mp fun hlt => ?_⟩
    have hnot := (find?_range'_eq_some.mp hfit).2.2 other h.behind hlt
    rw [hrun] at hnot
    cases hnot

/-! ## Room in the log -/

section Room

variable {b : Disk} {recs recs' : List (Nat × Sector)}

/-- The sectors that a log keeps. -/
def loggedIn (recs : List (Nat × Sector)) : Finset Nat := (recs.map Prod.fst).toFinset

/-- The sectors a metadata write logs. -/
def Kernel.metaTargets (k : Kernel) (lba cnt : Nat) : Finset Nat :=
  (Finset.range cnt).image (lba + ·) ∪ if k.extraFor lba cnt then {bitmapTrailer} else ∅

theorem LogInv.card_loggedIn {data : Set Nat} (h : LogInv b data recs k) :
    (loggedIn recs).card = recs.length := by
  rw [loggedIn, toFinset_card_of_nodup h.nodup, length_map]

theorem LogInv.room {data : Set Nat} (h : LogInv b data recs k) :
    (loggedIn recs).card ≤ journalRecords := by
  rw [h.card_loggedIn]
  exact h.log.fits

/-- After the loop the log keeps the sectors it wrote. -/
theorem MetaRun.loggedIn_eq (h : MetaRun b ∅ recs k lba src i cnt false recs' k') :
    loggedIn recs' = loggedIn recs ∪ (Finset.range cnt).image (lba + i + ·) := by
  obtain ⟨n, ws, -, hall, hws, hlogged, -⟩ := h.landed
  obtain rfl := hall rfl
  ext a
  simp only [loggedIn, mem_toFinset, Finset.mem_union, Finset.mem_image, Finset.mem_range]
  constructor
  · intro ha
    rcases h.keys a ha with hold | ⟨j, hj, rfl⟩
    · exact .inl hold
    · exact .inr ⟨j, hj, Nat.add_assoc ..⟩
  · rintro (ha | ⟨j, hj, rfl⟩)
    · exact h.grow a ha
    · obtain ⟨s, hs, -⟩ := hws.2 j hj
      rw [Nat.add_assoc]
      exact hlogged _ (mem_of_getElem? hs)

/-- Without faults only a full log stops the loop. -/
theorem MetaRun.no_room (h : MetaRun b ∅ recs k lba src i cnt true recs' k')
    (hk : k.Healthy) (hdevice : ∀ j < cnt, lba + i + j < k.ataTotalSectors) :
    journalRecords < (loggedIn recs ∪ (Finset.range cnt).image (lba + i + ·)).card := by
  have hbounds := hk.bounds
  obtain ⟨-, hfull⟩ := h.works hk.faults
  rcases hfull rfl with hsmall | ⟨j, hj, hout | ⟨hnot, hlen⟩⟩
  · omega
  · have hin := hdevice j hj
    omega
  rw [← Nat.add_assoc] at hnot
  have hsub : insert (lba + i + j) (loggedIn recs') ⊆ loggedIn recs ∪ (Finset.range cnt).image
    (lba + i + ·) := by
    intro a ha
    simp only [Finset.mem_union, Finset.mem_image, Finset.mem_range]
    rcases mem_insert.mp ha with rfl | ha
    · exact .inr ⟨j, hj, rfl⟩
    · rcases h.keys a (mem_toFinset.mp ha) with hold | ⟨m, hm, rfl⟩
      · exact .inl (mem_toFinset.mpr hold)
      · exact .inr ⟨m, hm, Nat.add_assoc ..⟩
  have hnew : lba + i + j ∉ loggedIn recs' := fun hmem => hnot (mem_toFinset.mp hmem)
  have hcard := card_le_card hsub
  rw [card_insert_of_notMem hnew, h.inv.card_loggedIn] at hcard
  unfold journalRecords
  omega

/-- A metadata write is under way: the transaction began on the disk `b` and has logged the sectors
of `logged`. A volume without a journal has neither. -/
structure Ongoing (b : Disk) (logged : Finset Nat) (k : Kernel) : Prop where
  healthy : k.Healthy
  log : k.journalled = true → k.journalFailed = false ∧ ∃ recs, LogInv b ∅ recs k ∧
    loggedIn recs = logged

/-- The transaction that began on the disk `b` can only be rolled back. -/
structure Stuck (b : Disk) (k : Kernel) : Prop where
  healthy : k.Healthy
  log : ∃ recs, LogInv b ∅ recs k

/-- How a write of the sectors `targets` ends: it goes through if the log has room for them, and
only then. -/
def Fitted (b : Disk) (logged targets : Finset Nat) (journalled cf : Bool) (k' : Kernel) : Prop :=
  if cf then journalled = true ∧ journalRecords < (logged ∪ targets).card ∧ Stuck b k'
  else (journalled = true → (logged ∪ targets).card ≤ journalRecords) ∧
    Ongoing b (logged ∪ targets) k'

variable {logged : Finset Nat}

theorem LogInv.ongoing (h : LogInv b ∅ recs k) (hk : k.Healthy)
    (hfailed : k.journalFailed = false) :
    Ongoing b (loggedIn recs) k := ⟨hk, fun _ => ⟨hfailed, recs, h, rfl⟩⟩

theorem MetaRun.healthy (h : MetaRun b ∅ recs k lba src i cnt cf recs' k') (hk : k.Healthy) :
    k'.Healthy :=
  ⟨(h.works hk.faults).1, by rw [h.same.total]; exact hk.bounds⟩

/-- The loop succeeds exactly when the log has room. -/
theorem MetaRun.fitted (h : MetaRun b ∅ recs k lba src i cnt cf recs' k') (hk : k.Healthy)
    (hdevice : ∀ j < cnt, lba + i + j < k.ataTotalSectors) : Fitted b (loggedIn recs)
    ((Finset.range cnt).image (lba + i + ·)) true cf k' := by
  cases cf with
  | true => exact ⟨rfl, h.no_room hk hdevice, h.healthy hk, recs', h.inv⟩
  | false =>
    rw [Fitted, if_neg Bool.false_ne_true, ← h.loggedIn_eq]
    exact ⟨fun _ => h.inv.room, h.inv.ongoing (h.healthy hk) (h.failed rfl)⟩

theorem LogInv.yields_loop_fitted (h : LogInv b ∅ recs k) (hk : k.Healthy)
    (hfailed : k.journalFailed = false) (src : MetaSrc)
    (ht : ∀ j < cnt, ¬ InLog (lba + j) ∧ lba + j < 2 ^ 32 ∧ lba + j < k.ataTotalSectors) :
    Yields (metaWriteLoop lba src cnt 0) (fun cf k' => SameButLog k k' ∧
      Fitted b (loggedIn recs) ((Finset.range cnt).image (lba + ·)) true cf k') k := by
  refine (h.yields_metaWriteLoop hfailed src cnt 0 ?_).mono fun cf k1 hrun => ?_
  · grind
  · obtain ⟨recs1, hrun⟩ := hrun
    exact ⟨hrun.same, hrun.fitted hk fun j hj => (ht j hj).2.2⟩

/-- Sectors are logged before they are written. -/
def Kernel.logs (k : Kernel) : Bool := k.journalled && k.journalDirty

/-- A write that is not logged. -/
structure PlainWrite (k : Kernel) (cf : Bool) (k' : Kernel) : Prop where
  done : cf = false
  healthy : k'.Healthy
  volume : k'.toVolume = k.toVolume
  total : k'.ataTotalSectors = k.ataTotalSectors
  dirty : k'.journalDirty = k.journalDirty

theorem PlainWrite.journalled (h : PlainWrite k cf k') : k'.journalled = k.journalled := by
  rw [Kernel.journalled, Kernel.journalled, h.volume]

theorem PlainWrite.logs (h : PlainWrite k cf k') : k'.logs = k.logs := by
  rw [Kernel.logs, Kernel.logs, h.journalled, h.dirty]

theorem yields_logAndWrite_plain (hk : k.Healthy) (hlogs : k.logs = false) (src : MetaSrc) (i : Nat)
    (hlba : lba < k.ataTotalSectors) : Yields (logAndWrite lba src i) (PlainWrite k) k := by
  have hskip : Yields (hbfsJournalLogSector lba) (fun cf k' => cf = false ∧ k' = k) k := by
    simp only [hbfsJournalLogSector, yields_rules]
    rcases Bool.and_eq_false_iff.mp hlogs with hj | hdirty
    · rw [if_pos (by simp [hj])]
      exact ⟨trivial, trivial⟩
    · grind
  simp only [logAndWrite, yields_rules]
  refine hskip.mono ?_
  rintro cf k1 ⟨hcf, heq⟩
  subst hcf heq
  rw [if_neg Bool.false_ne_true, yields_ataWriteSector_of_nil hk.faults hlba]
  exact ⟨rfl, { hk with }, rfl, rfl, rfl⟩

/-- Without a journal the loop just writes. -/
theorem yields_loop_plain (hk : k.Healthy) (hlogs : k.logs = false) (lba : Nat) (src : MetaSrc)
    (cnt i : Nat) (ht : ∀ j < cnt, lba + (i + j) < k.ataTotalSectors) :
    Yields (metaWriteLoop lba src cnt i) (PlainWrite k) k := by
  induction cnt generalizing k i with
  | zero => exact ⟨rfl, hk, rfl, rfl, rfl⟩
  | succ cnt ih =>
  have hfirst : lba + i < k.ataTotalSectors := ht 0 (Nat.succ_pos cnt)
  simp only [metaWriteLoop, yields_rules]
  refine (yields_logAndWrite_plain hk hlogs src i hfirst).mono fun cf k1 h1 => ?_
  rw [h1.done, if_neg Bool.false_ne_true]
  refine (ih h1.healthy (h1.logs.trans hlogs) (i + 1) fun j hj => ?_).mono fun cf k' h' =>
    ⟨h'.done, h'.healthy, h'.volume.trans h1.volume, h'.total.trans h1.total,
      h'.dirty.trans h1.dirty⟩
  rw [h1.total, show i + 1 + j = i + (j + 1) by omega]
  exact ht (j + 1) (by omega)

theorem image_range_one (lba : Nat) : (Finset.range 1).image (lba + ·) = {lba} := by simp

theorem Ongoing.yields_logAndWrite (h : Ongoing b logged k) (src : MetaSrc) (ht : ¬ InLog (lba + i))
    (ht32 : lba + i < 2 ^ 32) (hdevice : lba + i < k.ataTotalSectors) :
    Yields (logAndWrite (lba + i) src i)
    (fun cf k' => Fitted b logged {lba + i} k.journalled cf k') k := by
  cases hj : k.journalled with
  | true =>
    obtain ⟨hfailed, recs, hinv, rfl⟩ := h.log hj
    rw [← image_range_one (lba + i)]
    refine (hinv.yields_logAndWrite hfailed src ht ht32 (by simp)).mono
      fun cf k1 ⟨recs1, hrun⟩ => ?_
    refine hrun.fitted h.healthy fun j hj => ?_
    omega
  | false =>
  have hlogs : k.logs = false := by rw [Kernel.logs, hj, Bool.false_and]
  refine (yields_logAndWrite_plain h.healthy hlogs src i hdevice).mono fun cf k1 h1 => ?_
  rw [h1.done]
  refine ⟨by simp, h1.healthy, fun hj1 => ?_⟩
  rw [h1.journalled, hj] at hj1
  exact absurd hj1 (by decide)

theorem journalled_stampedFor (lba : Nat) : (k.stampedFor lba).journalled = k.journalled := by
  unfold Kernel.journalled
  rw [stampedFor_dword lba (by decide)]

/-- A metadata write inside a transaction. -/
theorem Ongoing.yields_metaTry (h : Ongoing b logged k) (src : MetaSrc)
    (ht : ∀ j < cnt, ¬ InLog (lba + j) ∧ lba + j < 2 ^ 32 ∧ lba + j < k.ataTotalSectors) :
    Yields (hbfsMetaTry lba src cnt)
    (fun cf k' => Fitted b logged (k.metaTargets lba cnt) k.journalled cf k') k := by
  have hb := layout_eq
  have hbounds := h.healthy.bounds
  have hhealthy : (k.stampedFor lba).Healthy := { h.healthy with }
  simp only [hbfsMetaTry, yields_stampForWrite, yields_rules]
  cases hj : k.journalled with
  | true =>
    obtain ⟨hfailed, recs, hinv, rfl⟩ := h.log hj
    refine ((hinv.stampedFor lba).yields_loop_fitted hhealthy hfailed src ht).mono ?_
    rintro cf k1 ⟨hsame, hfit⟩
    cases cf with
    | true =>
      obtain ⟨-, hfull, hstuck⟩ := hfit
      refine ⟨rfl, lt_of_lt_of_le hfull (card_le_card ?_), hstuck⟩
      exact union_subset_union_right subset_union_left
    | false =>
    obtain ⟨hroom, hongoing⟩ := hfit
    rw [if_neg Bool.false_ne_true]
    cases hextra : k.extraFor lba cnt with
    | false =>
      have htargets : k.metaTargets lba cnt = (Finset.range cnt).image (lba + ·) := by
        simp [Kernel.metaTargets, hextra]
      rw [htargets]
      exact ⟨hroom, hongoing⟩
    | true =>
    have htargets : loggedIn recs ∪ k.metaTargets lba cnt =
        loggedIn recs ∪ (Finset.range cnt).image (lba + ·) ∪ {bitmapTrailer} := by
      simp [Kernel.metaTargets, hextra, union_assoc]
    have hj1 : k1.journalled = true := by rw [hsame.journalled, journalled_stampedFor, hj]
    rw [if_pos rfl]
    have hdevice : bitmapTrailer + 0 < k1.ataTotalSectors := by
      have htotal : k1.ataTotalSectors = k.ataTotalSectors := hsame.total
      unfold bitmapTrailer
      omega
    refine (hongoing.yields_logAndWrite (.bitmapBuf (hbfsBitmapSects - 1)) (by decide)
      (by decide) hdevice).mono
      fun cf k2 hfit2 => ?_
    rw [hj1] at hfit2
    unfold Fitted at hfit2 ⊢
    rw [htargets]
    exact hfit2
  | false =>
  have hlogs : (k.stampedFor lba).logs =
    false := by rw [Kernel.logs, journalled_stampedFor, hj, Bool.false_and]
  have hplain := yields_loop_plain hhealthy hlogs lba src cnt 0 fun j hj => by
    rw [Nat.zero_add]
    exact (ht j hj).2.2
  refine hplain.mono fun cf k1 h1 => ?_
  have hj1 := h1.journalled.trans ((journalled_stampedFor lba).trans hj)
  have hend : ∀ k2 : Kernel, k2.Healthy → k2.journalled = false →
      Fitted b logged (k.metaTargets lba cnt) false false k2 := fun k2 hk2 hj2 =>
    ⟨by simp, hk2, by simp [hj2]⟩
  rw [h1.done, if_neg Bool.false_ne_true]
  split
  · refine (yields_logAndWrite_plain h1.healthy (h1.logs.trans hlogs) _ 0 ?_).mono
      fun cf k2 h2 => ?_
    · have htotal : k1.ataTotalSectors = k.ataTotalSectors := h1.total
      omega
    · rw [h2.done]
      exact hend k2 h2.healthy (h2.journalled.trans hj1)
  · exact hend k1 h1.healthy hj1

end Room

/-! ## A volume on a device that works -/

/-- The journal can be used: the volume may be written, the device reports no error, and the log of
a transaction that is open is in order. -/
structure TxReady (k : Kernel) : Prop extends Usable k where
  healthy : k.Healthy
  log : 0 < k.journalDepth → k.journalFailed = false ∧ ∃ b recs, LogInv b ∅ recs k

/-- A volume between two calls or inside a transaction, on a device that reports no error. -/
structure Steady (k : Kernel) : Prop extends TxReady k where
  blocks : k.totalBlocks ≤ 8 * hbfsBitmapSize
  /-- A resident bitmap is the one on the disk. -/
  bitmap : k.bitmapValid = true → k.BitmapLoaded

/-- A transaction is opened, or one more is counted. -/
structure LogOpened (b : Disk) (k k' : Kernel) : Prop where
  ongoing : Ongoing b k.loggedNow k'
  edge : TxEdge k k'
  depth : k.journalled = true → k'.journalDepth = k.journalDepth + 1
  plain : k.journalled = false → k'.journalDepth = k.journalDepth
  /-- What a rollback brings back. -/
  began : k.journalDepth = 0 → DiskKept (fun _ => False) k.disk b

theorem loggedIn_journalLogged {b : Disk} {recs : List (Nat × Sector)} (h : LogInv b ∅ recs k) :
    loggedIn recs = k.journalLogged.toFinset := by
  rw [loggedIn, h.logged]

theorem LogInv.setDepth {b : Disk} {recs : List (Nat × Sector)} (h : LogInv b ∅ recs k) (n : Nat) :
    LogInv b ∅ recs { k with journalDepth := n } :=
  { h with }

theorem depth_begin (h : Usable k) (hk : k.Healthy) (hj : k.journalled = true) :
    Yields hbfsJournalBegin (fun _ k' => k'.journalDepth = k.journalDepth + 1) k := by
  simp only [hbfsJournalBegin, hbfsRequireWritable, yields_rules]
  rw [if_neg (by simp [h.writable_eq]), if_neg (by simp [hj])]
  split
  · trivial
  · exact yields_hbfsWriteSuperblock { hk with } rfl

theorem yields_begin_nested (h : Usable k) (hj : k.journalled = true) (hdepth : 0 < k.journalDepth)
    {Q : Unit → Kernel → Prop} : Yields hbfsJournalBegin Q k ↔
    Q () { k with journalDepth := k.journalDepth + 1 } := by
  simp only [hbfsJournalBegin, hbfsRequireWritable, yields_rules]
  rw [if_neg (by simp [h.writable_eq]), if_neg (by simp [hj]), if_pos (by omega)]

/-- A transaction begins with an empty log. -/
theorem TxReady.yields_begin (h : TxReady k) :
    Yields hbfsJournalBegin (fun _ k' => ∃ b, LogOpened b k k') k := by
  have hedge := (healthy_begin h.healthy).and (edge_begin k)
  by_cases hj : k.journalled = true
  · have hcount := depth_begin h.toUsable h.healthy hj
    rcases Nat.eq_zero_or_pos k.journalDepth with hdepth | hdepth
    · refine ((hedge.and (logInv_begin h.mounted h.writable hj hdepth)).and hcount).mono
        fun _ k' h' => ?_
      obtain ⟨⟨⟨hhealthy, hedge⟩, hlog, hfailed⟩, hcount⟩ := h'
      refine ⟨k'.disk, ⟨hhealthy, fun _ => ⟨hfailed, [], hlog, ?_⟩⟩, hedge, fun _ => hcount,
        fun hplain => ?_,
        fun _ => hedge.diskKept _⟩
      · rw [Kernel.loggedNow, if_pos hdepth]
        rfl
      · simp [hj] at hplain
    · obtain ⟨hfailed, b, recs, hlog⟩ := h.log hdepth
      have hnested :=
        (yields_begin_nested (Q := fun _ k' => k' = { k with journalDepth := k.journalDepth + 1 })
        h.toUsable hj hdepth).mpr rfl
      refine (hedge.and hnested).mono ?_
      rintro _ k' ⟨⟨hhealthy, hedge⟩, heq⟩
      subst heq
      refine ⟨b, ⟨hhealthy, fun _ => ⟨hfailed, recs, hlog.setDepth _, ?_⟩⟩, hedge, fun _ => rfl,
        fun hplain => ?_,
        fun hzero => ?_⟩
      · rw [loggedIn_journalLogged hlog, Kernel.loggedNow, if_neg (by omega)]
      · simp [hj] at hplain
      · omega
  · have hsame : Yields hbfsJournalBegin (fun _ k' => k' = k) k := by
      simp only [hbfsJournalBegin, hbfsRequireWritable, yields_rules]
      rw [if_neg (by simp [h.writable_eq]), if_pos (by simpa using hj)]
      trivial
    refine (hedge.and hsame).mono ?_
    rintro _ k' ⟨⟨hhealthy, hedge⟩, heq⟩
    subst heq
    exact ⟨k'.disk, ⟨hhealthy, fun h => absurd h hj⟩, hedge, fun h => absurd h hj, fun _ => rfl,
      fun _ => DiskKept.refl _ _⟩

/-- The transaction is closed, or one fewer is counted. -/
structure Committed (b : Disk) (logged : Finset Nat) (k k' : Kernel) : Prop where
  healthy : k'.Healthy
  edge : TxEdge k k'
  depth : k.journalled = true → k'.journalDepth = k.journalDepth - 1
  plain : k.journalled = false → k' = k
  log : 1 < k.journalDepth → Ongoing b logged k'

/-- It ends with what was written. -/
theorem Ongoing.yields_commit {b : Disk} {logged : Finset Nat} (h : Ongoing b logged k)
    (hdepth : k.journalled = true → 0 < k.journalDepth) :
    Yields hbfsJournalCommit (fun _ k' => Committed b logged k k') k := by
  have hb := layout_eq
  have hbounds := h.healthy.bounds
  have hedge := edge_commit k fun hj => (h.log hj).1
  by_cases hj : k.journalled = true
  · obtain ⟨hfailed, recs, hlog, hlogged⟩ := h.log hj
    have hdepth := hdepth hj
    have hrest :
      Yields hbfsJournalCommit (fun _ k' => k'.Healthy ∧ k'.journalDepth = k.journalDepth - 1 ∧
        (1 < k.journalDepth → k' = { k with journalDepth := k.journalDepth - 1 })) k := by
      simp only [hbfsJournalCommit, writeCommitMarker, yields_rules]
      rw [if_neg (by simp [hj]), if_neg (by simp [hlog.dirty])]
      split
      · exact ⟨{ h.healthy with }, trivial, fun _ => trivial⟩
      next hone =>
      have hptr := hlog.ptr
      have hfits := hlog.log.fits
      rw [if_neg (by simp [hfailed]), if_pos (by omega)]
      refine (yields_ataWriteSector_of_nil ?_ ?_).mpr ?_
      · exact h.healthy.faults
      · show hbfsJournalLba + k.journalPtr < k.ataTotalSectors
        omega
      refine yields_hbfsWriteSuperblock { h.healthy with } ?_
      exact ⟨{ h.healthy with }, rfl, fun hmore => absurd hmore (by omega)⟩
    refine (hedge.and hrest).mono ?_
    rintro _ k' ⟨hedge, hhealthy, hcount, hsame⟩
    refine ⟨hhealthy, hedge, fun _ => hcount, fun hplain => ?_, fun hmore => ?_⟩
    · simp [hj] at hplain
    · rw [hsame hmore]
      exact ⟨{ h.healthy with }, fun _ => ⟨hfailed, recs, hlog.setDepth _, hlogged⟩⟩
  · have hsame : Yields hbfsJournalCommit (fun _ k' => k' = k) k := by
      simp only [hbfsJournalCommit, yields_rules]
      rw [if_pos (by simpa using hj)]
      trivial
    refine (hedge.and hsame).mono ?_
    rintro _ k' ⟨hedge, heq⟩
    subst heq
    exact ⟨h.healthy, hedge, fun h => absurd h hj, fun _ => rfl, fun _ => h⟩

theorem TxReady.journalled (h : TxReady k) (hdepth : 0 < k.journalDepth) : k.journalled = true := by
  obtain ⟨-, b, recs, hlog⟩ := h.log hdepth
  exact hlog.journalled

/-- The transaction that `k` opened is closed: the journal can be used as before, and an outer
transaction has logged what was written. -/
theorem Committed.closed {b : Disk} {logged : Finset Nat} (h : Committed b logged k2 k')
    (hk : TxReady k)
    (hg : SameGeometry k k2) (hdepth : k.journalled = true → k2.journalDepth = k.journalDepth + 1)
    (hplain : k.journalled = false → k2.journalDepth = k.journalDepth) :
    TxReady k' ∧ k'.journalDepth = k.journalDepth ∧
    (0 < k.journalDepth → k'.loggedNow = logged) := by
  have hj2 := hg.journalled
  have hg' := hg.trans h.edge.same.geometry
  have hdepth' : k'.journalDepth = k.journalDepth := by
    cases hj : k.journalled with
    | true => rw [h.depth (hj2.trans hj), hdepth hj, Nat.add_sub_cancel]
    | false => rw [h.plain (hj2.trans hj), hplain hj]
  have hlog : 0 < k.journalDepth → k'.journalFailed = false ∧ ∃ recs, LogInv b ∅ recs k' ∧
    loggedIn recs = logged := by
    intro hpos
    have hj := hk.journalled hpos
    refine (h.log ?_).log (hg'.journalled.trans hj)
    rw [hdepth hj]
    omega
  refine ⟨⟨hg'.usable hk.toUsable, h.healthy, fun hpos => ?_⟩, hdepth', fun hpos => ?_⟩
  · obtain ⟨hfailed, recs, hinv, -⟩ := hlog (hdepth' ▸ hpos)
    exact ⟨hfailed, b, recs, hinv⟩
  · obtain ⟨-, recs, hinv, hlogged⟩ := hlog hpos
    rw [Kernel.loggedNow, hdepth', if_neg (by omega), ← loggedIn_journalLogged hinv, hlogged]

/-! ## Writing the bitmap -/

theorem metaTargets_bitmap (hcover : Covers start cnt) (hv4 : k1.isV4 = k.isV4) :
    k1.metaTargets (hbfsBitmapStart + start / 4096) (sectorSpan start cnt) =
    k.bitmapTargets start cnt := by
  have hb := layout_eq
  have hstarts := hcover.starts
  have hends := hcover.ends
  have hin : InBitmap (hbfsBitmapStart + start / 4096) := ⟨by omega, by omega⟩
  unfold Kernel.metaTargets Kernel.bitmapTargets Kernel.extraFor
  rw [hv4]
  cases hv : k.isV4 with
  | false => simp
  | true =>
  simp only [Bool.true_and, decide_eq_true_eq, hin, decide_true, if_true]
  split
  · rfl
  next hlast =>
  -- The range reaches the end of the bitmap, so the checksum's sector is its last.
  rw [union_empty, eq_comm, union_eq_left, singleton_subset_iff, mem_image]
  refine ⟨sectorSpan start cnt - 1, Finset.mem_range.mpr (by omega), ?_⟩
  unfold bitmapTrailer
  omega

/-- The bitmap of `k` with the bits of a range set to `b` is on the disk. -/
structure BitmapPut (b : Bool) (start cnt : Nat) (k k' : Kernel) : Prop where
  buf : k'.bitmapBuf = stampedBitmap k.isV4 (k.bitmapBuf.setBits b start (signedTurns cnt))
  valid : k'.bitmapValid = k.bitmapValid
  loaded : k'.BitmapLoaded
  disk : DiskKept InBitmap k.disk k'.disk
  free : k'.superBuf.dword sbFreeBlocks = k.superBuf.dword sbFreeBlocks

/-- The kernel when the writes of the bitmap have been made, or the log was full. -/
structure BitmapTried (b : Bool) (start cnt : Nat) (d : Disk) (k : Kernel) (cf : Bool)
    (k' : Kernel) : Prop where
  fitted : Fitted d k.loggedNow (k.bitmapTargets start cnt) k.journalled cf k'
  began : k.journalDepth = 0 → DiskKept (fun _ => False) k.disk d
  depth : k.journalled = true → k'.journalDepth = k.journalDepth + 1
  plain : k.journalled = false → k'.journalDepth = k.journalDepth
  files : SameFiles k k'
  extent : k'.toExtentState = k.toExtentState
  put : cf = false → BitmapPut b start cnt k k'

theorem TxReady.aside (h : TxReady k) (state : BitmapState) (dir : DirState) (quota : QuotaState) :
    TxReady { k with toBitmapState := state, toDirState := dir, toQuotaState := quota } :=
  ⟨{ h with }, { h.healthy with }, fun hdepth => by
    obtain ⟨hfailed, b, recs, hlog⟩ := h.log hdepth
    exact ⟨hfailed, b, recs, hlog.congr hlog.journalled rfl rfl⟩⟩

/-- Writing the bitmap inside the transaction. -/
theorem TxReady.yields_tryBitmap (h : TxReady k) (hloaded : k.BitmapLoaded) {b : Bool}
    (hcover : Covers start cnt) :
    Yields (tryBitmap b start cnt) (fun cf k' => ∃ d, BitmapTried b start cnt d k cf k') k := by
  have hb := layout_eq
  have hbounds := h.healthy.bounds
  have hstarts := hcover.starts
  have hends := hcover.ends
  set lba := hbfsBitmapStart + start / 4096 with hlba
  have hin : InBitmap lba := ⟨by omega, by omega⟩
  simp only [tryBitmap, yields_rules]
  set k0 : Kernel := { k with bitmapBuf := k.bitmapBuf.setBits b start (signedTurns cnt) } with hk0
  have hfiles0 : SameFiles k k0 := ⟨rfl, rfl, rfl, rfl, rfl, rfl, rfl, rfl, rfl, rfl⟩
  refine (h.aside _ _ _).yields_begin.mono ?_
  rintro _ k1 ⟨d, hopened⟩
  have hedge := hopened.edge
  have hfiles1 := hfiles0.trans hedge.same.sameFiles
  have htotal1 : k1.ataTotalSectors = k.ataTotalSectors := hfiles1.geometry.total
  have hj1 : k1.journalled = k.journalled := hfiles1.geometry.journalled
  have htargets : ∀ j < sectorSpan start cnt, ¬ InLog (lba + j) ∧ lba + j < 2 ^ 32 ∧
    lba + j < k1.ataTotalSectors := by
    intro j hj
    rw [inLog_iff, htotal1]
    refine ⟨by omega, by omega, by omega⟩
  refine ((hopened.ongoing.yields_metaTry (.bitmapBuf (start / 4096)) htargets).and
    (wrote_metaTry k1 lba _ _)).mono ?_
  rintro cf k2 ⟨hfitted, n, ws, vs, hwrote⟩
  refine ⟨d, ?_⟩
  rw [metaTargets_bitmap hcover hfiles1.geometry.isV4, hj1] at hfitted
  have hsame := hwrote.wrote.same
  have hfiles : SameFiles k k2 :=
    (hfiles1.trans (sameFiles_stampedFor k1 lba)).trans hsame.outsideTx.sameFiles
  have hbitmap1 : k1.toBitmapState = k0.toBitmapState := hedge.same.bitmap
  have hsuper1 : (k1.stampedFor lba).superBuf = k1.superBuf := if_neg fun hv => by omega
  refine ⟨hfitted, fun hdepth => ?_, fun hj => ?_, fun hj => ?_, hfiles,
    hsame.extent.trans hedge.same.extent,
    fun hcf => ?_⟩
  · exact hopened.began hdepth
  · rw [hsame.depth]
    exact hopened.depth hj
  · rw [hsame.depth]
    exact hopened.plain hj
  obtain ⟨rfl, rfl⟩ := hwrote.all hcf
  have hdisk1 : ∀ s < hbfsBitmapSects, k1.disk (hbfsBitmapStart + s) =
    k.disk (hbfsBitmapStart + s) :=
    fun s hs => hedge.disk _ (not_inLog_bitmap hs) (by omega)
  refine ⟨?_, ?_, hloaded.of_wrote hcover (by rw [hbitmap1]) hdisk1 hwrote.range hwrote.wrote,
    ?_, ?_⟩
  · rw [hsame.bitmap]
    show (if k1.isV4 = true ∧
      InBitmap lba then k1.bitmapBuf.stampRun hbfsBitmapSize else k1.bitmapBuf) = _
    rw [hbitmap1, hfiles1.geometry.isV4, stampedBitmap]
    simp only [hin, and_true]
    rfl
  · rw [hsame.bitmap]
    show k1.bitmapValid = k.bitmapValid
    rw [hbitmap1]
  · intro a ha hne hout
    have hkept := diskKept_of_wrote (S := InBitmap) hwrote.wrote fun w hw =>
      hcover.mem_bitmap hwrote hw
    rw [hkept a ha hne hout]
    exact hedge.disk a ha hne
  · rw [hsame.dword (by decide), hsuper1, hedge.same.superBuf.dword (by decide)]

/-! ## Writing the free count -/

/-- The kernel when the superblock with the new count has been written, or the log was full. -/
structure SuperTried (count : Nat → Nat) (d : Disk) (logged : Finset Nat) (k : Kernel) (cf : Bool)
    (k' : Kernel) :
    Prop where
  fitted : Fitted d logged {hbfsSuperblockLba} k.journalled cf k'
  depth : k'.journalDepth = k.journalDepth
  files : SameFiles k k'
  extent : k'.toExtentState = k.toExtentState
  put : cf = false → AfterSuper (count (k.superBuf.dword sbFreeBlocks) % 2 ^ 32) k k' ∧
    DiskKept (fun _ => False) k.disk k'.disk

theorem Ongoing.setSuper {logged : Finset Nat} (h : Ongoing d logged k) {sb : Sector}
    (hversion : sb.dword sbVersion = k.superBuf.dword sbVersion) :
    Ongoing d logged { k with superBuf := sb } := by
  refine ⟨{ h.healthy with }, fun hj => ?_⟩
  have hj' : k.journalled = true := by
    unfold Kernel.journalled at hj ⊢
    rwa [← hversion]
  obtain ⟨hfailed, recs, hlog, hlogged⟩ := h.log hj'
  exact ⟨hfailed, recs, hlog.congr hj rfl rfl, hlogged⟩

theorem metaTargets_super (k : Kernel) :
    k.metaTargets hbfsSuperblockLba 1 = {hbfsSuperblockLba} := by
  have hnot : ¬ InBitmap hbfsSuperblockLba := by decide
  simp [Kernel.metaTargets, Kernel.extraFor, hnot]

/-- Writing the count inside the transaction. -/
theorem Ongoing.yields_trySuper {logged : Finset Nat} (h : Ongoing d logged k) (count : Nat → Nat) :
    Yields (trySuper count) (SuperTried count d logged k) k := by
  have hb := layout_eq
  have hbounds := h.healthy.bounds
  have heffect := Mellivora.yields_trySuper k count
  simp only [trySuper, yields_rules] at heffect ⊢
  set k1 : Kernel := { k with
    superBuf := k.superBuf.setDword sbFreeBlocks (count (k.superBuf.dword sbFreeBlocks)) } with hk1
  have hversion : k1.superBuf.dword sbVersion = k.superBuf.dword sbVersion :=
    Sector.dword_setDword_of_disjoint _ (by decide) _ (by decide)
  have htargets : ∀ j < 1, ¬ InLog (hbfsSuperblockLba + j) ∧ hbfsSuperblockLba + j < 2 ^ 32 ∧
      hbfsSuperblockLba + j < k1.ataTotalSectors := by
    intro j hj
    obtain rfl : j = 0 := by omega
    refine ⟨superblock_not_inLog, by decide, ?_⟩
    show hbfsSuperblockLba < k.ataTotalSectors
    omega
  refine (((h.setSuper hversion).yields_metaTry .superBuf htargets).and heffect).mono ?_
  rintro cf k2 ⟨hfitted, heffect⟩
  have hj1 : k1.journalled = k.journalled := by simp only [Kernel.journalled, hversion]
  rw [metaTargets_super, hj1] at hfitted
  exact { heffect with fitted := hfitted }

/-! ## A change of the bitmap -/

/-- A change of the bitmap that has gone through. -/
structure BlocksChanged (b : Bool) (start cnt : Nat) (count : Nat → Nat) (k k' : Kernel) :
    Prop where
  ready : TxReady k'
  depth : k'.journalDepth = k.journalDepth
  files : SameFiles k k'
  extent : k'.toExtentState = k.toExtentState
  buf : k'.bitmapBuf = stampedBitmap k.isV4 (k.bitmapBuf.setBits b start (signedTurns cnt))
  valid : k'.bitmapValid = k.bitmapValid
  loaded : k'.BitmapLoaded
  disk : DiskKept InBitmap k.disk k'.disk
  free : k'.superBuf.dword sbFreeBlocks = count (k.superBuf.dword sbFreeBlocks) % 2 ^ 32
  onDisk : (k'.disk hbfsSuperblockLba).dword sbFreeBlocks = k'.superBuf.dword sbFreeBlocks
  logged : 0 < k.journalDepth → k'.loggedNow = k.loggedNow ∪ k.changeTargets start cnt

/-- A change that did not fit the log: all transactions are rolled back. -/
structure RolledBack (k k' : Kernel) : Prop where
  ready : TxReady k'
  depth : k'.journalDepth = 0
  keeps : AbortKeeps k k'
  geometry : SameGeometry k k'
  valid : k'.bitmapValid = false
  tag : k'.dirCacheLba = dirCacheNone
  /-- What the outermost transaction had not written itself is as it was. -/
  disk : k.journalDepth = 0 → DiskKept (fun _ => False) k.disk k'.disk

theorem SameFiles.abortKeeps (h : SameFiles k k') (hextent : k'.toExtentState = k.toExtentState) :
    AbortKeeps k k' := by
  refine ⟨hextent, h.cwd, h.quota, h.caller, ?_, ?_, ?_, ?_⟩ <;> rw [h.dir]

/-- A transaction without room is rolled back. -/
theorem Stuck.yields_abort (h : Stuck d k1) (hk : Usable k) (hfiles : SameFiles k k1)
    (hextent : k1.toExtentState = k.toExtentState) (hbegan : k.journalDepth = 0 →
      DiskKept (fun _ => False) k.disk d) :
    Yields hbfsJournalAbort (fun _ k' => RolledBack k k') k1 := by
  obtain ⟨recs, hlog⟩ := h.log
  refine ((hlog.yields_abort h.healthy).and (abortKeeps_abort k1)).mono
    fun _ k' ⟨habort, hkeeps⟩ => ?_
  have hsuper := habort.superBuf ▸ sameOutsideJournal_clearState₂ k1.superBuf
  have hgeometry : SameGeometry k k' :=
    hfiles.geometry.trans ⟨habort.mounted, habort.readOnly, habort.totalBlocks,
    habort.total, hsuper.magic, hsuper.dword (by decide)⟩
  refine ⟨⟨hgeometry.usable hk, ⟨habort.faults, ?_⟩, fun hpos => ?_⟩, habort.depth,
    (hfiles.abortKeeps hextent).trans hkeeps, hgeometry, habort.bitmapValid, habort.dirCacheLba,
    fun hdepth => ?_⟩
  · rw [habort.total]
    exact h.healthy.bounds
  · rw [habort.depth] at hpos
    exact absurd hpos (Nat.lt_irrefl 0)
  · refine (hbegan hdepth).trans fun a ha hne _ => ?_
    exact habort.disk a ha hne

theorem union_changeTargets (logged : Finset Nat) : logged ∪ k.changeTargets start cnt =
    logged ∪ k.bitmapTargets start cnt ∪ {hbfsSuperblockLba} := by
  rw [Kernel.changeTargets, Finset.insert_eq, Finset.union_assoc,
    Finset.union_comm {hbfsSuperblockLba}]

/-- Bitmap and count change together. -/
theorem BlocksChanged.of_committed {b : Bool} (h : TxReady k)
    (hbitmap : BitmapTried b start cnt d k false k1)
    (hsuper : SuperTried count d (k.loggedNow ∪ k.bitmapTargets start cnt) k1 false k2)
    (hcommit : Committed d (k.loggedNow ∪ k.bitmapTargets start cnt ∪ {hbfsSuperblockLba}) k2 k') :
    BlocksChanged b start cnt count k k' := by
  have hb := layout_eq
  have hput := hbitmap.put rfl
  obtain ⟨hafter, hkept⟩ := hsuper.put rfl
  have hedge := hcommit.edge
  have hfiles2 := hbitmap.files.trans hsuper.files
  have hfiles := hfiles2.trans hedge.same.sameFiles
  obtain ⟨hready, hdepth, hlogged⟩ :=
    hcommit.closed h hfiles2.geometry (fun hj => hsuper.depth.trans (hbitmap.depth hj))
    fun hj => hsuper.depth.trans (hbitmap.plain hj)
  have hdisk : ∀ s < hbfsBitmapSects, k'.disk (hbfsBitmapStart + s) =
    k1.disk (hbfsBitmapStart + s) := by
    intro s hs
    rw [hedge.disk _ (not_inLog_bitmap hs) (by omega), hafter.disk s hs]
  have hfree : k'.superBuf.dword sbFreeBlocks = k2.superBuf.dword sbFreeBlocks :=
    hedge.same.superBuf.dword (by decide)
  refine ⟨hready, hdepth, hfiles, hedge.same.extent.trans (hsuper.extent.trans hbitmap.extent), ?_,
    ?_, ?_, ?_, ?_, ?_,
    fun hpos => ?_⟩
  · rw [hedge.same.bitmap, hafter.bitmap]
    exact hput.buf
  · rw [hedge.same.bitmap, hafter.bitmap]
    exact hput.valid
  · rw [bitmapLoaded_iff]
    intro s hs
    rw [hdisk s hs, hedge.same.bitmap, hafter.bitmap]
    exact bitmapLoaded_iff.mp hput.loaded s hs
  · exact (hput.disk.trans (hkept.mono fun _ hfalse => hfalse.elim)).trans (hedge.diskKept _)
  · rw [hfree, hafter.resident, hput.free]
  · rcases hedge.onDisk with heq | heq
    · rw [heq, hafter.onDisk, hfree, hafter.resident]
    · rw [heq.dword (by decide), hfree]
  · rw [hlogged hpos, union_changeTargets]

/-- A change of the bitmap on a device that works: it goes through exactly when the log has room for
its sectors, and otherwise rolls everything back. -/
theorem TxReady.yields_changeBlocks (h : TxReady k) (hloaded : k.BitmapLoaded) {b : Bool}
    (hcover : Covers start cnt) (count : Nat → Nat) :
    Yields (changeBlocks b start cnt count) (fun cf k' =>
      if cf then ¬ k.HasRoom (k.changeTargets start cnt) ∧ RolledBack k k'
      else k.HasRoom (k.changeTargets start cnt) ∧ BlocksChanged b start cnt count k k') k := by
  refine h.toUsable.yields_changeBlocks
    ((h.yields_tryBitmap hloaded hcover).mono fun cf k1 ⟨d, h1⟩ => ⟨?_, ?_⟩)
  · rintro rfl
    obtain ⟨hj, hfull, hstuck⟩ := h1.fitted
    refine (hstuck.yields_abort h.toUsable h1.files h1.extent h1.began).mono fun _ k' hrolled =>
      ⟨fun hroom => ?_, hrolled⟩
    have hsub : k.loggedNow ∪ k.bitmapTargets start cnt ⊆ k.loggedNow ∪ k.changeTargets
      start cnt := by
      rw [union_changeTargets]
      exact subset_union_left
    exact absurd (lt_of_lt_of_le hfull (card_le_card hsub)) (not_lt.mpr (hroom hj))
  rintro rfl
  obtain ⟨-, hongoing⟩ := h1.fitted
  have hj1 : k1.journalled = k.journalled := h1.files.geometry.journalled
  refine (hongoing.yields_trySuper count).mono fun cf k2 h2 => ⟨?_, ?_⟩
  · rintro rfl
    obtain ⟨hj, hfull, hstuck⟩ := h2.fitted
    refine (hstuck.yields_abort h.toUsable (h1.files.trans h2.files) (h2.extent.trans h1.extent)
      h1.began).mono
      fun _ k' hrolled => ⟨fun hroom => ?_, hrolled⟩
    rw [← union_changeTargets] at hfull
    exact absurd hfull (not_lt.mpr (hroom (hj1 ▸ hj)))
  · rintro rfl
    obtain ⟨hroom, hongoing2⟩ := h2.fitted
    have hj2 : k2.journalled = k.journalled := h2.files.geometry.journalled.trans hj1
    refine (hongoing2.yields_commit fun hj => ?_).mono fun _ k' hcommit =>
      ⟨fun hj => ?_, BlocksChanged.of_committed h h1 h2 hcommit⟩
    · rw [h2.depth, h1.depth (hj2 ▸ hj)]
      exact Nat.succ_pos _
    · rw [union_changeTargets]
      exact hroom (hj1.trans hj)

/-! ## Loading the bitmap -/

/-- The bitmap is resident, and nothing else has changed. -/
structure BitmapReady (k k' : Kernel) : Prop where
  eq : ∃ state : BitmapState, k' = { k with toBitmapState := state }
  valid : k'.bitmapValid = true
  loaded : k'.BitmapLoaded

/-- The bitmap is loaded and the volume stays steady. -/
theorem Steady.yields_loadBitmap (h : Steady k) :
    Yields hbfsLoadBitmap (fun _ k' => BitmapReady k k') k := by
  have hb := layout_eq
  have hbounds := h.healthy.bounds
  simp only [hbfsLoadBitmap, yields_rules]
  split
  · next hvalid => exact ⟨⟨k.toBitmapState, rfl⟩, hvalid, h.bitmap hvalid⟩
  · refine yields_ataReadSectors_of_nil h.healthy.faults (fun hoob => ?_) fun _ => ?_
    · simp only [outOfBounds, Bool.or_eq_true, decide_eq_true_eq] at hoob
      omega
    · rw [if_neg Bool.false_ne_true]
      exact ⟨⟨_, rfl⟩, rfl, fun i hi => bitmapLoaded_load _ _ hi⟩

theorem RolledBack.of_bitmap (h : RolledBack { k with toBitmapState := state } k') :
    RolledBack k k' :=
  { h with keeps := { h.keeps with }, geometry := { h.geometry with } }

theorem RolledBack.steady (h : RolledBack k k') (hk : Steady k) : Steady k' := by
  refine ⟨h.ready, ?_, fun hvalid => ?_⟩
  · rw [h.geometry.totalBlocks]
    exact hk.blocks
  · rw [h.valid] at hvalid
    exact absurd hvalid (by decide)

/-! ## The allocator -/

/-- The bits of a range are set to `b` on the disk, and the free count goes with them. -/
structure RangeSet (b : Bool) (start cnt : Nat) (count : Nat → Nat) (k k' : Kernel) : Prop where
  steady : Steady k'
  depth : k'.journalDepth = k.journalDepth
  files : SameFiles k k'
  extent : k'.toExtentState = k.toExtentState
  bits : ∀ m < 8 * hbfsBitmapSize, (diskBitmap k'.disk).bit m =
    (stampedBitmap k.isV4 ((diskBitmap k.disk).setBits b start cnt)).bit m
  disk : DiskKept InBitmap k.disk k'.disk
  free : k'.superBuf.dword sbFreeBlocks = count (k.superBuf.dword sbFreeBlocks) % 2 ^ 32
  onDisk : (k'.disk hbfsSuperblockLba).dword sbFreeBlocks = k'.superBuf.dword sbFreeBlocks
  logged : 0 < k.journalDepth → k'.loggedNow = k.loggedNow ∪ k.changeTargets start cnt

/-- The stamp is behind the bits. -/
theorem bit_stampedBitmap {v4 : Bool} (buf : Buffer)
    (hm : m < if v4 then v4Blocks else 8 * hbfsBitmapSize) : (stampedBitmap v4 buf).bit m =
    buf.bit m := by
  have hb := layout_eq
  have heq := v4Blocks_eq
  unfold stampedBitmap bit
  cases v4 with
  | false => rfl
  | true =>
    rw [if_pos rfl] at hm ⊢
    rw [stampRun_apply _ (by omega) (by omega)]

/-- The bits after a change. -/
theorem RangeSet.bit {b : Bool} (h : RangeSet b start cnt count k k')
    (hm : m < k.bitmapBits) : (diskBitmap k'.disk).bit m =
    withRange b start cnt (diskBitmap k.disk).bit m := by
  have hb := layout_eq
  have heq := v4Blocks_eq
  have hin : m < 8 * hbfsBitmapSize := by
    unfold Kernel.bitmapBits at hm
    split at hm <;> omega
  rw [h.bits m hin, bit_stampedBitmap _ hm, bit_setBits]
  rfl

theorem BlocksChanged.rangeSet {b : Bool} (hk : Steady k)
    (hloaded : Kernel.BitmapLoaded { k with toBitmapState := state }) (hcnt : cnt < 2 ^ 31)
    (h : BlocksChanged b start cnt count { k with toBitmapState := state } k') :
    RangeSet b start cnt count k k' := by
  refine { h with steady := ⟨h.ready, h.files.geometry.totalBlocks ▸ hk.blocks, fun _ => h.loaded⟩
                  files := { h.files with geometry := { h.files.geometry with } }, bits :=
                  fun m hm => ?_ }
  have hbyte : m / 8 < hbfsBitmapSize := by omega
  have hbuf := h.buf
  rw [signedTurns_of_lt hcnt] at hbuf
  have hset : ∀ i < hbfsBitmapSize, state.bitmapBuf.setBits b start cnt i =
    (diskBitmap k.disk).setBits b start cnt i :=
    fun i hi => setBits_congr b start cnt (hloaded i hi)
  unfold bit
  rw [← h.loaded _ hbyte, hbuf]
  show ((stampedBitmap k.isV4 (state.bitmapBuf.setBits b start cnt)) (m / 8)).toNat.testBit
    (m % 8) = _
  unfold stampedBitmap
  split
  · rw [stampRun_congr hset hbyte]
  · rw [hset _ hbyte]

/-- How a call of the allocator that changes these blocks ends, on a device that works. -/
def Changed (b : Bool) (start cnt : Nat) (count : Nat → Nat) (k : Kernel) (cf : Bool)
    (k' : Kernel) : Prop :=
  if cf then ¬ k.HasRoom (k.changeTargets start cnt) ∧ RolledBack k k'
  else k.HasRoom (k.changeTargets start cnt) ∧ RangeSet b start cnt count k k'

/-- Blocks are changed, or all is rolled back. -/
theorem Steady.yields_changeBlocks (h : Steady k)
    (hloaded : Kernel.BitmapLoaded { k with toBitmapState := state }) {b : Bool}
    (hcover : Covers start cnt) (hcnt : cnt < 2 ^ 31) (count : Nat → Nat) :
    Yields (Mellivora.changeBlocks b start cnt count) (Changed b start cnt count k)
      { k with toBitmapState := state } := by
  refine ((h.aside state _ _).yields_changeBlocks hloaded hcover count).mono fun cf k' h' => ?_
  cases cf with
  | true => exact ⟨h'.1, h'.2.of_bitmap⟩
  | false => exact ⟨h'.1, h'.2.rangeSet h hloaded hcnt⟩

theorem Steady.yields_freeBlocks (h : Steady k) (hcover : Covers start cnt) (hcnt : cnt < 2 ^ 31) :
    Yields (hbfsFreeBlocks start cnt) (Changed false start cnt (fun free => free + cnt) k) k := by
  simp only [hbfsFreeBlocks, yields_bind]
  refine h.yields_loadBitmap.mono fun _ k1 hready => ?_
  obtain ⟨state, rfl⟩ := hready.eq
  exact h.yields_changeBlocks hready.loaded hcover hcnt _

theorem Kernel.BitmapLoaded.bit (h : k.BitmapLoaded) (hm : m < 8 * hbfsBitmapSize) :
    k.bitmapBuf.bit m = (diskBitmap k.disk).bit m := by
  unfold Buffer.bit
  rw [h (m / 8) (by omega)]

theorem Granted.covers {used : Nat → Bool} (h : Granted used total first needed)
    (hpos : 0 < needed) (htotal : total ≤ 8 * hbfsBitmapSize) : Covers first needed := by
  have hinside := h.inside
  exact covers_of_le (by omega)

/-- How `hbfs_alloc_blocks` ends on a device that works. -/
structure AllocEnds (needed : Nat) (k : Kernel) (r : Option Nat) (k' : Kernel) : Prop where
  missing : firstFit (diskBitmap k.disk) needed k.totalBlocks = none → r = none ∧ BitmapReady k k'
  full : ∀ first, firstFit (diskBitmap k.disk) needed k.totalBlocks = some first →
    ¬ k.HasRoom (k.changeTargets first needed) → r = none ∧ RolledBack k k'
  found : ∀ first, firstFit (diskBitmap k.disk) needed k.totalBlocks = some first →
    k.HasRoom (k.changeTargets first needed) → r = some first ∧
      RangeSet true first needed (fun free => free + 2 ^ 32 - needed) k k'

/-- An allocation: the first fit, or nothing changes. -/
theorem Steady.yields_allocBlocks (h : Steady k) (hpos : 0 < needed) (h31 : needed < 2 ^ 31) :
    Yields (hbfsAllocBlocks needed) (AllocEnds needed k) k := by
  simp only [hbfsAllocBlocks, yields_rules]
  refine h.yields_loadBitmap.mono fun _ k1 hready => ?_
  have hready' := hready
  obtain ⟨state, rfl⟩ := hready.eq
  have hblocks := h.blocks
  have hfit : firstFit state.bitmapBuf needed k.totalBlocks =
    firstFit (diskBitmap k.disk) needed k.totalBlocks :=
    firstFit_congr fun m hm => hready.loaded.bit (by omega)
  rw [hfit]
  cases hfound : firstFit (diskBitmap k.disk) needed k.totalBlocks with
  | none =>
    rw [yields_pure]
    exact ⟨fun _ => ⟨rfl, hready'⟩, by simp [hfound], by simp [hfound]⟩
  | some first =>
  have hgranted := granted_of_firstFit hpos h31 hfound
  have honly : ∀ {other}, firstFit (diskBitmap k.disk) needed k.totalBlocks = some other →
    other = first :=
    fun hother => (Option.some.inj (hfound.symm.trans hother)).symm
  simp only [yields_rules]
  refine (h.yields_changeBlocks hready.loaded (hgranted.covers hpos hblocks) h31 _).mono
    fun cf k' h' => ?_
  cases cf with
  | true =>
    refine ⟨by simp [hfound], fun other hother _ => ⟨rfl, h'.2⟩, fun other hother hroom => ?_⟩
    rw [honly hother] at hroom
    exact absurd hroom h'.1
  | false =>
    refine ⟨by simp [hfound], fun other hother hroom => ?_, fun other hother _ => ?_⟩
    · rw [honly hother] at hroom
      exact absurd h'.1 hroom
    · rw [honly hother]
      exact ⟨rfl, h'.2⟩

/-! ## First fit -/

/-- Whether a run is recorded on the disk: its bits survive the checksum. -/
theorem RangeSet.taken_iff (h : RangeSet true first needed count k k')
    (hinside : first + needed ≤ 8 * hbfsBitmapSize) :
    (∀ m, first ≤ m → m < first + needed → (diskBitmap k'.disk).bit m = true) ↔
      ∀ m, first ≤ m → m < first + needed → (k.takenBitmap first needed).bit m = true := by
  refine forall_congr' fun m => forall_congr' fun h1 => forall_congr' fun h2 => ?_
  rw [h.bits m (by omega)]
  rfl

theorem RangeSet.untouched (h : RangeSet true first needed count k k') (hm : m < k.bitmapBits)
    (hout : m < first ∨ first + needed ≤ m) : (diskBitmap k'.disk).bit m =
    (diskBitmap k.disk).bit m := by
  rw [h.bit hm]
  exact if_neg (by omega)

/-- First fit is sound and complete exactly when the run it finds can be recorded. -/
theorem firstFit_exact_iff (h : Steady k) (hpos : 0 < needed) (h31 : needed < 2 ^ 31) :
    FirstFitExact needed k ↔ AllocFits needed k := by
  have hblocks := h.blocks
  refine (h.yields_allocBlocks hpos h31).decided fun r k' hends => ?_
  cases hfound : firstFit (diskBitmap k.disk) needed k.totalBlocks with
  | none =>
    obtain ⟨rfl, -⟩ := hends.missing hfound
    have hnone : ¬ ∃ first, Granted (diskBitmap k.disk).bit k.totalBlocks first needed := by
      rintro ⟨first, hgranted⟩
      obtain ⟨found, hfit, -⟩ := firstFit_le hpos h31 hgranted
      exact absurd (hfound.symm.trans hfit) (by simp)
    simp [AllocFits, hfound, hnone]
  | some first =>
  have hgranted := granted_of_firstFit hpos h31 hfound
  have hinside := hgranted.inside
  by_cases hroom : k.HasRoom (k.changeTargets first needed)
  · obtain ⟨rfl, hset⟩ := hends.found first hfound hroom
    have htaken := hset.taken_iff (by omega)
    constructor
    · rintro ⟨-, hexact⟩ other hother
      obtain rfl : first = other := Option.some.inj (hfound.symm.trans hother)
      exact ⟨hroom, htaken.mp (hexact first rfl).2.2.1⟩
    intro hfits
    refine ⟨⟨fun _ => ⟨first, hgranted⟩, fun _ => rfl⟩, fun other hother => ?_⟩
    obtain rfl : first = other := Option.some.inj hother
    refine ⟨hgranted, fun other hother => ?_, htaken.mpr (hfits first hfound).2,
      fun m hm hout => ?_⟩
    · obtain ⟨found, hfit, hle⟩ := firstFit_le hpos h31 hother
      rwa [← Option.some.inj (hfound.symm.trans hfit)] at hle
    · exact hset.untouched hm hout
  · obtain ⟨rfl, -⟩ := hends.full first hfound hroom
    constructor
    · grind
    · intro hfits
      exact absurd (hfits first hfound).1 hroom

/-! ## A run too long for the log -/

theorem smallVolume_steady :
    Steady smallVolume := ⟨⟨⟨rfl, rfl⟩, ⟨rfl, by decide⟩, nofun⟩, by decide, nofun⟩

/-- One block of a small volume. -/
theorem firstFit_exact_iff_one :
    Steady smallVolume ∧ (FirstFitExact 1 smallVolume ↔ AllocFits 1 smallVolume) :=
  ⟨smallVolume_steady, firstFit_exact_iff smallVolume_steady (by decide) (by decide)⟩

/-- The volume with 60000 blocks, all of them free. -/
def wideVolume : Kernel := { smallVolume with totalBlocks := 60000, ataTotalSectors := 500000 }

theorem wideVolume_steady :
    Steady wideVolume := ⟨⟨⟨rfl, rfl⟩, ⟨rfl, by decide⟩, nofun⟩, by decide, nofun⟩

theorem wideVolume_bit (m : Nat) : (diskBitmap wideVolume.disk).bit m = false := by
  have hb := layout_eq
  have hne : hbfsBitmapStart + m / 8 / 512 ≠ hbfsSuperblockLba := by omega
  have hsector : wideVolume.disk (hbfsBitmapStart + m / 8 / 512) = Sector.zero := by
    show Function.update (fun _ => Sector.zero) hbfsSuperblockLba _ _ = _
    rw [Function.update_of_ne hne]
  unfold bit diskBitmap ofDisk
  rw [hsector]
  exact Nat.zero_testBit _

theorem wideVolume_granted :
    Granted (diskBitmap wideVolume.disk).bit wideVolume.totalBlocks 4 57341 :=
  ⟨le_rfl, by decide, fun m _ _ => wideVolume_bit m⟩

theorem wideVolume_firstFit :
    firstFit (diskBitmap wideVolume.disk) 57341 wideVolume.totalBlocks = some 4 := by
  obtain ⟨first, hfit, hle⟩ := firstFit_le (by decide) (by decide) wideVolume_granted
  have hbehind : 4 ≤ first := (granted_of_firstFit (by decide) (by decide) hfit).behind
  rw [hfit, le_antisymm hle hbehind]

theorem wideVolume_no_room : ¬ wideVolume.HasRoom (wideVolume.changeTargets 4 57341) := by
  intro hroom
  exact absurd (hroom (by decide)) (by decide)

/-- The run of 57341 blocks is there, but its bitmap sectors and the superblock are sixteen
sectors. -/
theorem firstFit_not_exact : Steady wideVolume ∧
    Granted (diskBitmap wideVolume.disk).bit wideVolume.totalBlocks 4 57341 ∧
    ¬ FirstFitExact 57341 wideVolume := by
  refine ⟨wideVolume_steady, wideVolume_granted, fun hexact => ?_⟩
  have hcall : Yields (hbfsAllocBlocks 57341) (AllocEnds 57341 wideVolume) wideVolume :=
    wideVolume_steady.yields_allocBlocks (by decide) (by decide)
  obtain ⟨hends, hsome, -⟩ := hcall.and hexact
  obtain ⟨hnone, -⟩ := hends.full 4 wideVolume_firstFit wideVolume_no_room
  rw [hnone] at hsome
  exact absurd (hsome.mpr ⟨4, wideVolume_granted⟩) (by simp)

end Mellivora
