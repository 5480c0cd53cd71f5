import Mellivora.Kernel.Proofs.AccountProofs

/-!
# Proofs: errors that the allocator comes back from

The errors of the device are spent one for each try. What a metadata write spends is counted command
by command, so that the errors a call is given say whether its writes of the bitmap and of the
superblock fail, and what is left of them when the transaction is rolled back.
-/

namespace Mellivora

open WriteLog Outcome List Buffer

variable {b : Disk} {cnt first i lba m n start t tries : Nat} {count : Nat → Nat}
  {fs fs' : List (Option Nat)} {k k' : Kernel} {recs : List (Nat × Sector)} {s : Sector}
  {src : MetaSrc}

/-! ## Commands -/

theorem afterTries_succ (fs : List (Option Nat)) : afterTries cnt (tries + 1) fs =
    if ((fs.head?.bind id).filter (· < cnt)).isSome then afterTries cnt tries fs.tail else
      fs.tail := by
  cases fs <;> rfl

theorem commands_one (fs : List (Option Nat)) :
    commands 1 fs = ((gaveUpAfter 1 3 0 fs).isSome, afterTries 1 3 fs) := by
  simp only [commands]
  split <;> simp_all

theorem commands_add (m n : Nat) (fs : List (Option Nat)) :
    commands (m + n) fs = if (commands m fs).1 then commands m fs else commands n
    (commands m fs).2 := by
  induction m generalizing fs with
  | zero => simp [commands]
  | succ m ih =>
    rw [Nat.add_right_comm, commands, commands]
    split
    · rfl
    · exact ih _

/-- What a run of commands spends goes on from what the first of them have left. -/
theorem commands_of_done (h : (false, fs') = commands m fs) (n : Nat) :
    commands (m + n) fs = commands n fs' := by
  rw [commands_add, ← h]
  rfl

theorem commands_of_failed (h : (true, fs') = commands m fs) (n : Nat) :
    commands (m + n) fs = (true, fs') := by
  rw [commands_add, ← h]
  rfl

/-- A routine of `r` commands: it fails where one of them gives up. -/
structure Spends (k : Kernel) (r : Bool × List (Option Nat)) (cf : Bool) (k' : Kernel) : Prop where
  spent : (cf, k'.faults) = r
  total : k'.ataTotalSectors = k.ataTotalSectors

/-- A read spends the faults of its tries. -/
theorem yields_ataReadTries_spends (lba cnt tries got : Nat) (k : Kernel) :
    Yields (ataReadTries lba cnt tries got) (fun r k' =>
      r.1 = (gaveUpAfter cnt tries got k.faults).isSome ∧
      (r.1 = false → r.2 = sectorsAt k.disk lba cnt) ∧
      k' = { k with faults := afterTries cnt tries k.faults }) k := by
  induction tries generalizing k got with
  | zero => exact ⟨rfl, fun h => Bool.noConfusion h, rfl⟩
  | succ tries ih =>
  simp only [ataReadTries, yields_bind, yields_nextFault_iff]
  rw [gaveUpAfter_succ, afterTries_succ]
  cases (k.faults.head?.bind id).filter (· < cnt) with
  | none => exact ⟨rfl, fun _ => rfl, rfl⟩
  | some n => exact ih (max got n) { k with faults := k.faults.tail }

/-- A read of one sector. -/
theorem spends_read (hlba : lba < k.ataTotalSectors) :
    Yields (ataReadSector lba) (fun r k' => Spends k (commands 1 k.faults) r.isNone k') k := by
  simp only [ataReadSector, ataReadSectors, yields_rules]
  rw [if_neg (by rw [outOfBounds_one]; omega)]
  refine (yields_ataReadTries_spends lba 1 3 0 k).mono ?_
  rintro ⟨cf, data⟩ k' ⟨hcf, hdata, rfl⟩
  rw [commands_one, ← hcf]
  refine ⟨?_, rfl⟩
  cases cf with
  | true => rfl
  | false =>
    obtain rfl : data = _ := hdata rfl
    rfl

/-- A write spends the faults of its tries. -/
theorem yields_ataWriteTries_spends (lba tries got : Nat) (s : Sector) (k : Kernel) :
    Yields (ataWriteTries lba [s] tries)
      (Spends k ((gaveUpAfter 1 tries got k.faults).isSome, afterTries 1 tries k.faults)) k := by
  induction tries generalizing k got with
  | zero => exact ⟨rfl, rfl⟩
  | succ tries ih =>
  simp only [ataWriteTries, yields_bind, length_singleton, yields_nextFault_iff]
  rw [gaveUpAfter_succ, afterTries_succ]
  cases hn : (k.faults.head?.bind id).filter (· < 1) with
  | none => exact ⟨rfl, rfl⟩
  | some n =>
    simp only [yields_rules]
    exact (ih (max got n) _).mono fun cf k' h => ⟨h.spent, h.total⟩

theorem spends_write (hlba : lba < k.ataTotalSectors) (s : Sector) :
    Yields (ataWriteSectors lba [s]) (Spends k (commands 1 k.faults)) k := by
  simp only [ataWriteSectors, length_singleton, yields_rules]
  rw [if_neg (by rw [outOfBounds_one]; omega), commands_one]
  exact yields_ataWriteTries_spends lba 3 0 s k

/-! ## Logging and writing -/

/-- A transaction that has logged `recs`, or no journal. -/
structure Logging (b : Disk) (recs : List (Nat × Sector)) (k : Kernel) : Prop where
  bounds : hbfsJournalLba + hbfsJournalSects ≤ k.ataTotalSectors
  log : k.journalled = true → LogInv b ∅ recs k ∧ k.journalFailed = false

/-- Logging a sector spends three commands at most. -/
theorem LogInv.spends_log (h : LogInv b ∅ recs k) (hfailed : k.journalFailed = false)
    (hbounds : hbfsJournalLba + hbfsJournalSects ≤ k.ataTotalSectors) (hnew : t ∉ recs.map Prod.fst)
    (ht : t < k.ataTotalSectors) : Yields (hbfsJournalLogSector t)
      (Spends k (if journalRecords ≤ recs.length then (true, k.faults) else commands 3 k.faults))
      k := by
  have hb := layout_eq
  have hptr := h.ptr
  simp only [hbfsJournalLogSector, journalFail, yields_rules]
  rw [if_neg (by simp [h.journalled]), if_neg (by simp [h.dirty]), if_neg (by simp [hfailed]),
    if_neg (by rwa [h.logged])]
  by_cases hfull : journalRecords ≤ recs.length
  · rw [if_pos hfull]
    unfold journalRecords at hfull
    rw [if_pos (by omega)]
    exact ⟨rfl, rfl⟩
  rw [if_neg hfull]
  unfold journalRecords at hfull
  rw [if_neg (by omega)]
  refine (spends_read ht).mono fun r k1 h1 => ?_
  cases r with
  | none =>
    simp only [yields_rules]
    exact ⟨(commands_of_failed h1.spent 2).symm, h1.total⟩
  | some pre =>
  rw [show (3 : Nat) = 1 + 2 from rfl, commands_of_done h1.spent 2]
  simp only [yields_rules]
  refine (spends_write (by rw [h1.total]; omega) pre).mono fun cf k2 h2 => ?_
  cases cf with
  | true =>
    rw [if_pos rfl]
    exact ⟨(commands_of_failed h2.spent 1).symm, h2.total.trans h1.total⟩
  | false =>
  rw [if_neg Bool.false_ne_true, show (2 : Nat) = 1 + 1 from rfl, commands_of_done h2.spent 1]
  refine (spends_write (by simp only [h2.total, h1.total]; omega) _).mono fun cf k3 h3 => ?_
  have htotal := h3.total.trans (h2.total.trans h1.total)
  cases cf with
  | true =>
    rw [if_pos rfl]
    exact ⟨h3.spent, htotal⟩
  | false =>
    rw [if_neg Bool.false_ne_true]
    exact ⟨h3.spent, htotal⟩

/-- What the write of `cnt` sectors from `lba` on spends, and the transaction it leaves if it goes
through. -/
structure Logged (b : Disk) (recs : List (Nat × Sector)) (lba cnt : Nat) (k : Kernel) (cf : Bool)
    (k' : Kernel) :
    Prop where
  spends : Spends k (metaCommands k.journalled (journalRecords - recs.length) cnt k.faults) cf k'
  journalled : k'.journalled = k.journalled
  done : cf = false → ∃ recs', Logging b recs' k' ∧ recs'.length = recs.length + cnt ∧
    ∀ a ∈ recs'.map Prod.fst, a ∈ recs.map Prod.fst ∨ lba ≤ a ∧ a < lba + cnt

theorem metaCommands_one (journalled : Bool) (room : Nat) (fs : List (Option Nat)) :
    metaCommands journalled room 1 fs =
      if journalled ∧ room = 0 then (true, fs) else commands (if journalled then 4 else 1) fs := by
  simp only [metaCommands]
  generalize commands (if journalled then 4 else 1) fs = first
  split
  · rfl
  · split
    · rfl
    · next hdone => exact Prod.ext (Bool.eq_false_iff.mpr hdone).symm rfl

theorem metaCommands_succ (journalled : Bool) (room cnt : Nat) (fs : List (Option Nat)) :
    metaCommands journalled room (cnt + 1) fs =
      if (metaCommands journalled room 1 fs).1 then metaCommands journalled room 1 fs
      else metaCommands journalled (room - 1) cnt (metaCommands journalled room 1 fs).2 := by
  rw [metaCommands_one, metaCommands]
  split
  · rw [if_pos rfl]
  · rfl

theorem metaCommands_add (journalled : Bool) (room m n : Nat) (fs : List (Option Nat)) :
    metaCommands journalled room (m + n) fs =
      if (metaCommands journalled room m fs).1 then metaCommands journalled room m fs
      else metaCommands journalled (room - m) n (metaCommands journalled room m fs).2 := by
  induction m generalizing room fs with
  | zero => simp [metaCommands]
  | succ m ih =>
    rw [Nat.add_right_comm, metaCommands_succ, metaCommands_succ _ _ m, ih, Nat.sub_sub,
      Nat.add_comm 1 m]
    split
    · simp_all
    · rfl

/-- Without a journal a write spends one command. -/
theorem Logging.logs_logAndWrite_plain (h : Logging b recs k) (src : MetaSrc) (i : Nat)
    (hj : k.journalled = false) (ht : t < k.ataTotalSectors) :
    Yields (logAndWrite t src i) (Logged b recs t 1 k) k := by
  simp only [logAndWrite, yields_rules]
  have hskip : Yields (hbfsJournalLogSector t) (fun cf k' => cf = false ∧ k' = k) k := by
    simp only [hbfsJournalLogSector, yields_rules]
    rw [if_pos (by simp [hj])]
    exact ⟨trivial, trivial⟩
  refine hskip.mono ?_
  rintro cf k1 ⟨hcf, heq⟩
  subst hcf heq
  rw [if_neg Bool.false_ne_true]
  refine ((spends_write ht _).and
    (yields_ataWriteSector (Q := fun _ k' => k'.superBuf = k1.superBuf)
    (fun _ _ _ => rfl) fun _ _ => rfl)).mono ?_
  rintro cf k2 ⟨hspends, hsuper⟩
  have hj2 : k2.journalled = k1.journalled := by rw [Kernel.journalled, hsuper]; rfl
  refine ⟨?_, hj2,
    fun _ => ⟨recs ++ [(t, Sector.zero)], ⟨?_, fun hj' => ?_⟩, by simp, by simp; grind⟩⟩
  · rw [hj, metaCommands_one]
    exact hspends
  · rw [hspends.total]
    exact h.bounds
  · rw [hj2, hj] at hj'
    cases hj'

/-- A write that has not failed leaves a transaction with the sector's record. -/
theorem Logging.logs_logAndWrite (h : Logging b recs k) (src : MetaSrc) (i : Nat)
    (hnew : t ∉ recs.map Prod.fst)
    (hlog : ¬ InLog t) (ht32 : t < 2 ^ 32) (ht : t < k.ataTotalSectors) :
    Yields (logAndWrite t src i) (Logged b recs t 1 k) k := by
  cases hj : k.journalled with
  | false => exact h.logs_logAndWrite_plain src i hj ht
  | true =>
  simp only [logAndWrite, yields_rules]
  obtain ⟨hinv, hfailed⟩ := h.log hj
  refine ((hinv.yields_log hfailed hlog ht32 (by simp)).and
    (hinv.spends_log hfailed h.bounds hnew ht)).mono ?_
  rintro cf k1 ⟨⟨recs1, hstep⟩, hspent⟩
  have hj1 : k1.journalled = k.journalled := hstep.same.outsideTx.geometry.journalled
  have hroom : (journalRecords - recs.length = 0) = (journalRecords ≤ recs.length) :=
    propext Nat.sub_eq_zero_iff_le
  cases cf with
  | true =>
    rw [if_pos rfl]
    refine ⟨⟨?_, hspent.total⟩, hj1, by simp⟩
    have hspent' := hspent.spent
    simp only [hj, metaCommands_one, true_and, hroom, if_true]
    split at hspent'
    · next hfull => rw [if_pos hfull, ← hspent']
    · next hfull => rw [if_neg hfull, commands_of_failed hspent' 1]
  | false =>
  rw [if_neg Bool.false_ne_true]
  have hfull : ¬ journalRecords ≤ recs.length := fun hfull => by
    have hspent' := hspent.spent
    rw [if_pos hfull] at hspent'
    cases hspent'
  have hlogged := hstep.logged rfl
  obtain ⟨pre, rfl⟩ : ∃ pre, recs1 = recs ++ [(t, pre)] :=
    hstep.grow.resolve_left fun heq => hnew (heq ▸ hlogged)
  have hspent' := hspent.spent
  rw [if_neg hfull] at hspent'
  refine ((spends_write (by rw [hspent.total]; exact ht) _).and (yields_ataWriteSector
    (Q := fun cf k' => k'.journalled = k1.journalled ∧
      (cf = false → LogInv b ∅ (recs ++ [(t, pre)]) k' ∧
      k'.journalFailed = k1.journalFailed))
      (fun fs _ _ => ⟨rfl, fun _ => ⟨hstep.inv.overwrite hlog hlogged _ fs, rfl⟩⟩)
      fun _ _ => ⟨rfl, by simp⟩)).mono ?_
  rintro cf k2 ⟨hwrite, hj2, hdone⟩
  have htotal := hwrite.total.trans hspent.total
  refine ⟨⟨?_, htotal⟩, hj2.trans hj1,
    fun hcf => ⟨recs ++ [(t, pre)], ⟨?_, fun _ => ?_⟩, by simp, by simp; grind⟩⟩
  · simp only [hj, metaCommands_one, true_and, hroom, if_neg hfull, if_true]
    rw [show (4 : Nat) = 3 + 1 from rfl, commands_of_done hspent' 1]
    exact hwrite.spent
  · rw [htotal]
    exact h.bounds
  · obtain ⟨hinv2, hfailed2⟩ := hdone hcf
    exact ⟨hinv2, hfailed2.trans hstep.failed⟩

/-- Sectors that a transaction may log: none of them is in it yet. -/
structure Loggable (recs : List (Nat × Sector)) (lba cnt : Nat) (k : Kernel) : Prop where
  fresh : ∀ a, lba ≤ a → a < lba + cnt → a ∉ recs.map Prod.fst ∧ ¬ InLog a
  range : lba + cnt ≤ 2 ^ 32
  device : lba + cnt ≤ k.ataTotalSectors

/-- The loop over the sectors spends what each of them does. -/
theorem Logging.logs_loop (h : Logging b recs k) (src : MetaSrc) (lba cnt i : Nat)
    (ht : Loggable recs (lba + i) cnt k) :
    Yields (metaWriteLoop lba src cnt i) (Logged b recs (lba + i) cnt k) k := by
  induction cnt generalizing k recs i with
  | zero =>
    exact ⟨⟨rfl, rfl⟩, rfl, fun _ => ⟨recs, h, rfl, fun _ ha => .inl ha⟩⟩
  | succ cnt ih =>
  have hrange := ht.range
  have hdevice := ht.device
  obtain ⟨hnew, hlog⟩ := ht.fresh (lba + i) le_rfl (by omega)
  simp only [metaWriteLoop, yields_rules]
  refine (h.logs_logAndWrite src i hnew hlog (by omega) (by omega)).mono fun cf k1 h1 => ?_
  have hfirst := h1.spends.spent
  cases cf with
  | true =>
    rw [if_pos rfl]
    refine ⟨⟨?_, h1.spends.total⟩, h1.journalled, by simp⟩
    rw [metaCommands_succ, ← hfirst]
    rfl
  | false =>
  rw [if_neg Bool.false_ne_true]
  obtain ⟨recs1, hlogging, hlength, hkeys⟩ := h1.done rfl
  refine (ih hlogging (i + 1)
    ⟨fun a hlow hhigh => ?_, by omega, by rw [h1.spends.total]; omega⟩).mono
    fun cf k2 h2 => ?_
  · obtain ⟨hnew, hlog⟩ := ht.fresh a (by omega) (by omega)
    refine ⟨fun hmem => ?_, hlog⟩
    rcases hkeys a hmem with hold | hrange
    · exact hnew hold
    · omega
  refine ⟨⟨?_, h2.spends.total.trans h1.spends.total⟩, h2.journalled.trans h1.journalled,
    fun hcf => ?_⟩
  · rw [h2.spends.spent, metaCommands_succ, ← hfirst, hlength, h1.journalled, Nat.sub_sub]
    rfl
  · obtain ⟨recs2, hlogging2, hlength2, hkeys2⟩ := h2.done hcf
    refine ⟨recs2, hlogging2, by omega, fun a ha => ?_⟩
    rcases hkeys2 a ha with hold | hrange
    · rcases hkeys a hold with hold | hrange
      · exact .inl hold
      · exact .inr (by omega)
    · exact .inr (by omega)

theorem Logging.stampedFor (h : Logging b recs k) (lba : Nat) :
    Logging b recs (k.stampedFor lba) := by
  refine ⟨h.bounds, fun hj => ?_⟩
  have hj' : k.journalled = true := by
    unfold Kernel.journalled at hj ⊢
    rwa [stampedFor_dword lba (by decide)] at hj
  exact ⟨(h.log hj').1.stampedFor lba, (h.log hj').2⟩

/-- A metadata write with the sector of the bitmap's checksum, if that has to follow. -/
theorem Logging.logs_metaTry (h : Logging b recs k) (src : MetaSrc) (ht : Loggable recs lba cnt k)
    (htrailer : k.extraFor lba cnt = true → Loggable recs bitmapTrailer 1 k) :
    Yields (hbfsMetaTry lba src cnt) (fun cf k' =>
      Spends k (metaCommands k.journalled (journalRecords - recs.length)
        (cnt + if k.extraFor lba cnt then 1 else 0) k.faults) cf k' ∧ k'.journalled = k.journalled ∧
      (cf = false → ∃ recs', Logging b recs' k' ∧
        recs'.length = recs.length + (cnt + if k.extraFor lba cnt then 1 else 0) ∧
        ∀ a ∈ recs'.map Prod.fst, a ∈ recs.map Prod.fst ∨ lba ≤ a ∧ a < lba + cnt ∨
        a = bitmapTrailer)) k := by
  have hb := layout_eq
  have hstamped : (k.stampedFor lba).journalled = k.journalled := by
    unfold Kernel.journalled
    rw [stampedFor_dword lba (by decide)]
  simp only [hbfsMetaTry, yields_stampForWrite, yields_rules]
  refine ((h.stampedFor lba).logs_loop src lba cnt 0 ⟨ht.fresh, ht.range, ht.device⟩).mono
    fun cf k1 h1 => ?_
  have hfirst := h1.spends.spent
  have hj1 := h1.journalled.trans hstamped
  rw [hstamped, show (k.stampedFor lba).faults = k.faults from rfl] at hfirst
  cases cf with
  | true =>
    rw [if_pos rfl]
    refine ⟨⟨?_, h1.spends.total⟩, hj1, by simp⟩
    rw [metaCommands_add, ← hfirst]
    rfl
  | false =>
  rw [if_neg Bool.false_ne_true]
  obtain ⟨recs1, hlogging, hlength, hkeys⟩ := h1.done rfl
  cases hextra : k.extraFor lba cnt with
  | false =>
    refine ⟨⟨hfirst, h1.spends.total⟩, hj1, fun _ => ⟨recs1, hlogging, hlength, fun a ha => ?_⟩⟩
    exact (hkeys a ha).imp_right .inl
  | true =>
  have hbefore : lba + cnt ≤ bitmapTrailer := by
    simp only [Kernel.extraFor, Bool.and_eq_true, decide_eq_true_eq] at hextra
    unfold bitmapTrailer
    omega
  obtain ⟨hfresh, hrange, hdevice⟩ := htrailer hextra
  obtain ⟨hnew, hlog⟩ := hfresh bitmapTrailer le_rfl (Nat.lt_succ_self _)
  have hnew1 : bitmapTrailer ∉ recs1.map Prod.fst := by
    intro hmem
    rcases hkeys _ hmem with hold | hrange
    · exact hnew hold
    · omega
  have hstep := hlogging.logs_logAndWrite (.bitmapBuf (hbfsBitmapSects - 1)) 0 hnew1 hlog (by omega)
    (by rw [h1.spends.total]; exact hdevice)
  rw [if_pos rfl]
  refine hstep.mono fun cf k2 h2 =>
    ⟨⟨?_, h2.spends.total.trans h1.spends.total⟩, h2.journalled.trans hj1, fun hcf => ?_⟩
  · rw [h2.spends.spent, metaCommands_add, ← hfirst, hlength, hj1, Nat.sub_sub]
    rfl
  · obtain ⟨recs2, hlogging2, hlength2, hkeys2⟩ := h2.done hcf
    refine ⟨recs2, hlogging2, by simp only [if_true]; omega, fun a ha => ?_⟩
    rcases hkeys2 a ha with hold | hat
    · rcases hkeys a hold with hold | hrange
      · exact .inl hold
      · exact .inr (.inl hrange)
    · exact .inr (.inr (by omega))

/-! ## A change of the bitmap -/

/-- What the begin of a transaction spends: one command for the flush, whether it works or not. -/
theorem spends_begin (hk : Usable k) (hdepth : k.journalDepth = 0)
    (hbounds : hbfsJournalLba + hbfsJournalSects ≤ k.ataTotalSectors) :
    Yields hbfsJournalBegin (fun _ k' =>
      k'.faults = if k.journalled then afterTries 1 3 k.faults else k.faults) k := by
  have hb := layout_eq
  simp only [hbfsJournalBegin, hbfsRequireWritable, yields_rules]
  rw [if_neg (by simp [hk.mounted, hk.writable])]
  cases hj : k.journalled with
  | false => exact rfl
  | true =>
    rw [if_neg (by simp), if_neg (by simp [hdepth])]
    simp only [hbfsWriteSuperblock, yields_rules]
    refine (spends_write (by show hbfsSuperblockLba < k.ataTotalSectors; omega) _).mono
      fun cf k' h => ?_
    have hspent := h.spent
    rw [commands_one] at hspent
    exact congrArg Prod.snd hspent

/-- The begin leaves a transaction that has logged nothing. -/
theorem logs_begin (hk : Usable k) (hdepth : k.journalDepth = 0)
    (hbounds : hbfsJournalLba + hbfsJournalSects ≤ k.ataTotalSectors) :
    Yields hbfsJournalBegin (fun _ k' => SameGeometry k k' ∧ Logging k'.disk [] k' ∧
      k'.faults = if k.journalled then afterTries 1 3 k.faults else k.faults) k := by
  have hlog : Yields hbfsJournalBegin (fun _ k' => k.journalled = true →
      LogInv k'.disk ∅ [] k' ∧ k'.journalFailed = false) k := by
    by_cases hj : k.journalled = true
    · exact (logInv_begin hk.mounted hk.writable hj hdepth).mono fun _ _ h' _ => h'
    · exact (edge_begin k).mono fun _ _ _ hj' => absurd hj' hj
  refine (((edge_begin k).and hlog).and (spends_begin hk hdepth hbounds)).mono fun _ k' h => ?_
  obtain ⟨⟨hedge, hlog⟩, hfaults⟩ := h
  have hg := hedge.same.geometry
  exact ⟨hg, ⟨hg.total ▸ hbounds, fun hj => hlog (hg.journalled ▸ hj)⟩, hfaults⟩

/-- What the write of the bitmap spends, and the transaction it leaves if it goes through. -/
theorem Booked.logs_tryBitmap (h : Booked k) (hk : Usable k) (bit : Bool)
    (hcover : Covers start cnt) :
    Yields (tryBitmap bit start cnt) (fun cf k' =>
      (cf, k'.faults) = metaCommands k.journalled journalRecords (k.bitmapWrites start cnt)
        (if k.journalled then afterTries 1 3 k.faults else k.faults) ∧
        k'.journalled = k.journalled ∧
      (cf = false → ∃ d recs, Logging d recs k' ∧ recs.length = k.bitmapWrites start cnt ∧
        hbfsSuperblockLba ∉ recs.map Prod.fst)) k := by
  have hb := layout_eq
  have hbounds := h.bounds
  have hstarts := hcover.starts
  have hends := hcover.ends
  simp only [tryBitmap, yields_rules]
  have hbegin := logs_begin (k := { k with
    bitmapBuf := k.bitmapBuf.setBits bit start (signedTurns cnt) }) { hk with } h.closed.depth
    h.bounds
  refine hbegin.mono fun _ k1 h1 => ?_
  obtain ⟨hg1, hlogging, hfaults⟩ := h1
  have hg : SameGeometry k k1 := { hg1 with }
  have hj1 : k1.journalled = k.journalled := hg.journalled
  have hextra :
    (if k1.extraFor (hbfsBitmapStart + start / 4096) (sectorSpan start cnt) then 1 else 0) =
      if k.isV4 ∧ start / 4096 + sectorSpan start cnt < hbfsBitmapSects then 1 else 0 := by
    have hin : InBitmap (hbfsBitmapStart + start / 4096) := by
      unfold InBitmap
      omega
    simp only [Kernel.extraFor, hg.isV4, hin, decide_true, Bool.and_true, Bool.and_eq_true,
      decide_eq_true_eq]
    simp only [Nat.add_assoc, Nat.add_lt_add_iff_left]
  refine (hlogging.logs_metaTry (.bitmapBuf (start / 4096)) ⟨fun a hlow hhigh => ?_, by omega, ?_⟩
    fun _ =>
    ⟨fun a hlow hhigh => ?_, by unfold bitmapTrailer; omega, ?_⟩).mono fun cf k2 h2 => ?_
  · refine ⟨by simp, ?_⟩
    rw [inLog_iff]
    omega
  · rw [hg.total]
    omega
  · refine ⟨by simp, ?_⟩
    unfold bitmapTrailer at hlow hhigh
    rw [inLog_iff]
    omega
  · rw [hg.total]
    unfold bitmapTrailer
    omega
  obtain ⟨hspends, hj2, hdone⟩ := h2
  rw [hextra] at hspends hdone
  refine ⟨?_, hj2.trans hj1, fun hcf => ?_⟩
  · rw [hspends.spent, hj1, hfaults]
    rfl
  · obtain ⟨recs, hlogging2, hlength, hkeys⟩ := hdone hcf
    refine ⟨k1.disk, recs, hlogging2, ?_, fun hmem => ?_⟩
    · rw [hlength, length_nil, Nat.zero_add]
      rfl
    · rcases hkeys _ hmem with hold | hrange | heq
      · simp at hold
      · omega
      · unfold bitmapTrailer at heq
        omega

/-- The write of the superblock in the transaction of the bitmap. -/
theorem Logging.logs_trySuper (h : Logging b recs k) (count : Nat → Nat)
    (hnew : hbfsSuperblockLba ∉ recs.map Prod.fst) : Yields (trySuper count) (fun cf _ =>
      cf = (metaCommands k.journalled (journalRecords - recs.length) 1 k.faults).1) k := by
  have hb := layout_eq
  have hbounds := h.bounds
  simp only [trySuper, yields_rules]
  generalize hsb : k.superBuf.setDword sbFreeBlocks (count (k.superBuf.dword sbFreeBlocks)) = sb
  have hj : ({ k with superBuf := sb } : Kernel).journalled = k.journalled := by
    simp only [Kernel.journalled, ← hsb]
    rw [Sector.dword_setDword_of_disjoint _ (by decide) _ (by decide)]
  have hlogging : Logging b recs { k with superBuf := sb } := by
    refine ⟨h.bounds, fun hj' => ?_⟩
    obtain ⟨hinv, hfailed⟩ := h.log (hj ▸ hj')
    exact ⟨hinv.congr hj' rfl rfl, hfailed⟩
  have hextra : ({ k with superBuf := sb } : Kernel).extraFor hbfsSuperblockLba 1 = false := by
    have hnot : ¬ InBitmap hbfsSuperblockLba := by decide
    simp [Kernel.extraFor, hnot]
  refine (hlogging.logs_metaTry .superBuf ⟨fun a hlow hhigh => ?_, by decide, ?_⟩ fun hx => ?_).mono
    fun cf k2 h2 => ?_
  · obtain rfl : a = hbfsSuperblockLba := by omega
    exact ⟨hnew, superblock_not_inLog⟩
  · show hbfsSuperblockLba + 1 ≤ k.ataTotalSectors
    omega
  · rw [hextra] at hx
    cases hx
  · have hspent := h2.1.spent
    rw [hextra, hj] at hspent
    exact congrArg Prod.fst hspent

/-- Errors that spare a change let it go through or be rolled back. -/
theorem Booked.changeRecovers (h : Booked k) (hcover : Usable k → Covers start cnt)
    (hspares : Usable k → SparesChange k start cnt k.faults) (bit : Bool) (count : Nat → Nat) :
    ChangeRecovers bit start cnt count k := by
  constructor
  · intro hk
    have hspares := hspares hk
    refine (h.logs_tryBitmap hk bit (hcover hk)).mono ?_
    rintro cf k1 ⟨hspent, -, -⟩ rfl
    unfold SparesChange at hspares
    dsimp only at hspares
    rw [← hspent, if_pos rfl] at hspares
    exact hspares
  · intro hk
    have hspares := hspares hk
    refine (h.logs_tryBitmap hk bit (hcover hk)).mono ?_
    rintro cf k1 ⟨hspent, hj, hdone⟩ rfl
    obtain ⟨d, recs, hlogging, hlength, hnew⟩ := hdone rfl
    unfold SparesChange at hspares
    dsimp only at hspares
    rw [← hspent, if_neg Bool.false_ne_true] at hspares
    refine (hlogging.logs_trySuper count hnew).mono fun cf k2 hcf => ?_
    rw [hcf, hj, hlength]
    exact hspares

/-! ## Whole calls -/

/-- What the load of the bitmap spends. -/
structure Spent (k : Kernel) (cf : Bool) (k' : Kernel) : Prop where
  faults : k'.faults = k.errorsLoaded
  volume : k'.toVolume = k.toVolume
  loads : k.bitmapValid = true ∨ gaveUpAfter hbfsBitmapSects 3 0 k.faults = none → cf = false

/-- Loading the bitmap spends the faults of one read, or none. -/
theorem Booked.spends_load (h : Booked k) : Yields hbfsLoadBitmap (Spent k) k := by
  have hb := layout_eq
  have hbounds := h.bounds
  simp only [hbfsLoadBitmap, ataReadSectors, yields_rules]
  split
  · next hvalid => exact ⟨by rw [Kernel.errorsLoaded, if_pos hvalid], rfl, fun _ => rfl⟩
  next hvalid =>
  rw [if_neg (by simp only [outOfBounds, Bool.or_eq_true, decide_eq_true_eq]; omega)]
  refine (yields_ataReadTries_spends hbfsBitmapStart hbfsBitmapSects 3 0 k).mono ?_
  rintro ⟨cf, data⟩ k' ⟨hcf, -, rfl⟩
  have hfaults : k.errorsLoaded = afterTries hbfsBitmapSects 3 k.faults := if_neg hvalid
  have hloads : k.bitmapValid = true ∨ gaveUpAfter hbfsBitmapSects 3 0 k.faults = none →
    cf = false := by
    rintro (hvalid' | hnone)
    · exact absurd hvalid' hvalid
    · simpa [hnone] using hcf
  dsimp only
  split
  · next hfailed => exact ⟨hfaults.symm, rfl, fun hl => absurd (hloads hl) (by simp [hfailed])⟩
  · exact ⟨hfaults.symm, rfl, fun _ => rfl⟩

theorem sparesChange_congr (hvolume : k'.toVolume = k.toVolume) (h : SparesChange k start cnt fs) :
    SparesChange k' start cnt fs := by
  have hj : k'.journalled = k.journalled := by rw [Kernel.journalled, Kernel.journalled, hvolume]
  have hv4 : k'.isV4 = k.isV4 := by rw [Kernel.isV4, Kernel.isV4, hvolume]
  unfold SparesChange Kernel.bitmapWrites at *
  rwa [hj, hv4]

/-- A call of the allocator leaves the books right when the errors of the device spare it. -/
theorem Booked.yields_run (h : Booked k) {op : AllocOp} (hlegal : op.Legal k)
    (hrec : op.Recovers k) :
    Yields op.run (fun _ k' => Booked k') k := by
  have hload := h.yields_loadBitmap.and h.spends_load
  have husable : ∀ {k1 : Kernel}, k1.toVolume = k.toVolume → Usable k1 → Usable k := by
    intro k1 hvolume hk1
    exact ⟨(congrArg Volume.mounted hvolume).symm.trans hk1.mounted,
      (congrArg Volume.readOnly hvolume).symm.trans hk1.writable⟩
  cases op with
  | alloc needed =>
    simp only [AllocOp.run, hbfsAllocBlocks, yields_rules]
    refine hload.mono fun cf k1 hk1 => ?_
    obtain ⟨hload, hspent⟩ := hk1
    have hcf := hspent.loads hrec.loads
    split
    · exact hload.booked
    next first hfirst =>
    simp only [ite_self, yields_rules]
    have hfits :=
      fun hk => hload.booked.fits_alloc (hload.loaded hcf hk) (hrec.positive needed rfl) hfirst
    refine hload.booked.yields_change (hload.loaded hcf) hfits
      (hload.booked.changeRecovers (fun hk => (hfits hk).covers) (fun hk => ?_) true _)
    rw [hspent.faults]
    refine sparesChange_congr hspent.volume (hrec.spares (husable hspent.volume hk) first ?_)
    rw [← hfirst, hload.totalBlocks, ← hload.disk]
    have hfit := h.fits
    refine firstFit_congr fun m hm => ?_
    unfold bit
    rw [hload.loaded hcf hk (m / 8) (by omega)]
  | free start count =>
  simp only [AllocOp.run, hbfsFreeBlocks, yields_bind]
  refine hload.mono fun cf k1 hk1 => ?_
  obtain ⟨hload, hspent⟩ := hk1
  have hcf := hspent.loads hrec.loads
  have hlegal1 : (AllocOp.free start count).Legal k1 := by
    unfold AllocOp.Legal at hlegal ⊢
    rw [hload.disk, hload.totalBlocks]
    exact hlegal
  have hfits := fun hk => hload.booked.fits_free (hload.loaded hcf hk) hlegal1
  refine (hload.booked.yields_change (hload.loaded hcf) hfits
    (hload.booked.changeRecovers (fun hk => (hfits hk).covers) (fun hk => ?_) false _)).mono
    fun _ _ h' => h'
  rw [hspent.faults]
  exact sparesChange_congr hspent.volume (hrec.spares (husable hspent.volume hk))

/-! ## Runs -/

theorem Booked.enter (h : Booked k) (c : AllocCall) : Booked (c.enter k) :=
  ⟨{ h.closed with }, h.bounds, h.fits, h.v4,
    { h.counted with }, fun hk hvalid => h.bitmap { hk with } hvalid⟩

/-- The free count agrees with the bitmap, in memory and on the disk, after any calls of the
allocator whose failures can be rolled back. -/
theorem freeCountExact_after (k : Kernel) (h : Booked k) (calls : List AllocCall)
    (hcalls : Runs.Along AllocCall.step
      (fun c k => c.op.Legal k ∧ c.op.Recovers (c.enter k)) calls k) :
    (Runs.after AllocCall.step k calls).FreeCountExact := by
  refine (Runs.Along.invariant (I := Booked) (fun c k h hc => ?_) h hcalls).counted
  have hlegal : c.op.Legal (c.enter k) := by
    cases hop : c.op with
    | alloc needed => trivial
    | free start count =>
      rw [hop] at hc
      exact hc.1
  exact (h.enter c).yields_run hlegal hc.2

theorem smallVolume_freeCountExact : smallVolume.FreeCountExact := by
  have hclear : (diskBitmap smallVolume.disk).clearBits smallVolume.totalBlocks = 1000 :=
    clearBits_of_clear (by decide +kernel)
  constructor
  · rw [hclear]
    decide +kernel
  · rw [hclear]
    decide +kernel

/-- An allocation whose superblock cannot be logged: six commands work, the seventh fails three
times. -/
def failingAlloc : AllocCall :=
  { op := .alloc 1, faults := List.replicate 6 none ++ List.replicate 3 (some 0) }

/-- A superblock that cannot be logged leaves the count wrong. -/
theorem failingAlloc_not_freeCountExact :
    smallVolume.FreeCountExact ∧ failingAlloc.op.Legal smallVolume ∧
      ¬ (Runs.after AllocCall.step smallVolume [failingAlloc]).FreeCountExact := by
  have hafter : (diskBitmap (failingAlloc.step smallVolume).disk).clearBits
      (failingAlloc.step smallVolume).totalBlocks = 1000 := by
    rw [show (failingAlloc.step smallVolume).totalBlocks = 1000 by decide +kernel]
    exact clearBits_of_clear (by decide +kernel)
  have hcount : (failingAlloc.step smallVolume).superBuf.dword sbFreeBlocks =
    999 := by decide +kernel
  refine ⟨smallVolume_freeCountExact, trivial, fun hexact => ?_⟩
  have hresident := hexact.resident
  rw [Runs.after_cons, Runs.after_nil, hcount, hafter] at hresident
  exact absurd hresident (by decide)

/-- An allocation whose bitmap sector cannot be logged. -/
def undoneAlloc : AllocCall :=
  { op := .alloc 1, faults := List.replicate 2 none ++ List.replicate 3 (some 0) }

/-- That allocation is rolled back: the three errors are all there are. -/
theorem freeCountExact_after_undoneAlloc :
    (Runs.after AllocCall.step smallVolume [undoneAlloc]).FreeCountExact := by
  refine freeCountExact_after smallVolume ⟨⟨rfl, rfl, by decide⟩, by decide, by decide, by decide,
    smallVolume_freeCountExact, fun _ hvalid => absurd hvalid (by decide)⟩ _
    ⟨⟨trivial, .inr (by decide), fun _ first hfirst => ?_, ?_⟩, trivial⟩
  · have hfour : first = 4 := by
      have hfit : firstFit (diskBitmap smallVolume.disk) 1 smallVolume.totalBlocks =
        some 4 := by decide +kernel
      exact Option.some.inj (hfirst.symm.trans hfit)
    subst hfour
    have hbitmap : metaCommands (undoneAlloc.enter smallVolume).journalled journalRecords
        ((undoneAlloc.enter smallVolume).bitmapWrites 4 1)
        (if (undoneAlloc.enter smallVolume).journalled then afterTries 1 3
          (undoneAlloc.enter smallVolume).errorsLoaded
          else (undoneAlloc.enter smallVolume).errorsLoaded) = (true, []) := by decide +kernel
    unfold SparesChange
    dsimp only
    rw [hbitmap, if_pos rfl]
    exact ⟨by decide +kernel, rfl⟩
  · rintro needed ⟨⟩
    decide

end Mellivora
