import Mellivora.Kernel.Services

/-!
# Proofs: services and their tasks

A record that is running or being stopped and the task that it names lead to each other. What the
calls change is one record and at most one task, and the link between the two is made and broken at
once as long as a call goes on with the record it began with.
-/

namespace Mellivora

open Outcome Runs Function List Option Nat

variable {Q : Unit → Scm → Prop} {s s' : Scm} {i j slot slot' : Nat}

/-- The invariant of the services' runs: records and tasks name each other. -/
structure Scm.Inv (s : Scm) : Prop where
  tickCount : s.tickCount < 2 ^ 32
  count : s.count ≤ svcMax
  records : ∀ i < s.count, (s.table i).Active → ∃ slot, s.Runs i slot
  services : ∀ slot < maxTasks, (s.tasks slot).state = .live →
    (s.tasks slot).service ∨ (s.tasks slot).svc ≠ none → ∃ i < s.count, s.Runs i slot
  kills : ∀ k ∈ s.kills, k.target.state = .live ∧ k.target.svc = some k.ix

/-- The invariant holds before the first start. -/
theorem Scm.Idle.inv (h : s.Idle) : s.Inv := by
  refine ⟨h.tickCount, h.count, fun i hi hactive => absurd hactive (h.records i hi),
    fun slot hlt hlive hservice => ?_, ?_⟩
  · obtain ⟨hno, hnone⟩ := h.services slot hlt hlive
    rcases hservice with hservice | hsvc
    · cases hno.symm.trans hservice
    · exact absurd hnone hsvc
  · rw [h.kills]
    simp

/-! ## Changes of a record and of a task -/

section Changes

variable {f : SvcRecord → SvcRecord} {t : SvcTask}

theorem record_setRecord_self (s : Scm) (i : Nat) (f : SvcRecord → SvcRecord) :
    (s.setRecord i f).table i = f (s.table i) := update_self ..

theorem record_setRecord_of_ne (h : j ≠ i) :
    (s.setRecord i f).table j = s.table j := update_of_ne h ..

theorem Scm.runs_iff :
    s.Runs i slot ↔ slot < maxTasks ∧ (s.table i).Active ∧ (s.table i).pid = some slot ∧
    (s.tasks slot).state = .live ∧ (s.tasks slot).svc = some i :=
  ⟨fun ⟨hlt, hactive, hpid, hlive, hsvc⟩ => ⟨hlt, hactive, hpid, hlive, hsvc⟩,
    fun ⟨hlt, hactive, hpid, hlive, hsvc⟩ => ⟨hlt, hactive, hpid, hlive, hsvc⟩⟩

theorem Scm.Inv.congr (h : s.Inv) (htable : s'.table = s.table) (htasks : s'.tasks = s.tasks)
    (hcount : s'.count = s.count) (hkills : ∀ k ∈ s'.kills, k.target.state = .live ∧
      k.target.svc = some k.ix)
    (htick : s'.tickCount < 2 ^ 32) : s'.Inv := by
  have hruns : ∀ i slot, s'.Runs i slot ↔ s.Runs i slot := fun i slot => by
    rw [Scm.runs_iff, Scm.runs_iff, htable, htasks]
  obtain ⟨-, hmax, hrecords, hservices, -⟩ := h
  exact ⟨htick, hcount ▸ hmax, by simpa only [hruns, hcount, htable] using hrecords,
    by simpa only [hruns, hcount, htasks] using hservices, hkills⟩

theorem Scm.setRecord_apply (s : Scm) (i : Nat) (f : SvcRecord → SvcRecord) (j : Nat) :
    (s.setRecord i f).table j = if j = i then f (s.table i) else s.table j := update_apply ..

theorem Scm.setTask_apply (s : Scm) (slot : Nat) (t : SvcTask) (slot' : Nat) :
    (s.setTask slot t).tasks slot' = if slot' = slot then t else s.tasks slot' := update_apply ..

theorem Scm.tasks_setRecord (s : Scm) (i : Nat) (f : SvcRecord → SvcRecord) (slot : Nat) :
    (s.setRecord i f).tasks slot = s.tasks slot := rfl

theorem Scm.table_setTask (s : Scm) (slot : Nat) (t : SvcTask) (i : Nat) :
    (s.setTask slot t).table i = s.table i := rfl

attribute [local grind =] Scm.runs_iff Scm.setRecord_apply Scm.setTask_apply Scm.tasks_setRecord
  Scm.table_setTask

theorem Scm.Inv.setRecord_idle (h : s.Inv) (hbefore : ¬ (s.table i).Active)
    (hafter : ¬ (f (s.table i)).Active) :
    (s.setRecord i f).Inv := by
  refine { h with
    records := fun j hj hactive => ?_, services := fun slot' hlt hlive hservice => ?_ }
  · obtain ⟨slot', hruns⟩ := h.records j hj (by grind)
    exact ⟨slot', by grind⟩
  · obtain ⟨j, hj, hruns⟩ := h.services slot' hlt (by grind) (by grind)
    exact ⟨j, hj, by grind⟩

theorem Scm.Inv.setRecord_active (h : s.Inv) (hafter : (s.table i).Active → (f (s.table i)).Active)
    (hbefore : (f (s.table i)).Active → (s.table i).Active)
    (hpid : (f (s.table i)).pid = (s.table i).pid) :
    (s.setRecord i f).Inv := by
  refine { h with
    records := fun j hj hactive => ?_, services := fun slot' hlt hlive hservice => ?_ }
  · obtain ⟨slot', hruns⟩ := h.records j hj (by grind)
    exact ⟨slot', by grind⟩
  · obtain ⟨j, hj, hruns⟩ := h.services slot' hlt (by grind) (by grind)
    exact ⟨j, hj, by grind⟩

theorem Scm.Inv.setTask_other (h : s.Inv)
    (hbefore : (s.tasks slot).state = .live → (s.tasks slot).svc = none)
    (hafter : t.state = .live → t.service = false ∧ t.svc = none) : (s.setTask slot t).Inv := by
  refine { h with
    records := fun j hj hactive => ?_, services := fun slot' hlt hlive hservice => ?_ }
  · obtain ⟨slot', hruns⟩ := h.records j hj (by grind)
    exact ⟨slot', by grind⟩
  · obtain ⟨j, hj, hruns⟩ := h.services slot' hlt (by grind) (by grind)
    exact ⟨j, hj, by grind⟩

/-- A record at rest gets a task in a free slot. -/
theorem Scm.Inv.link (h : s.Inv) (hi : i < s.count) (hslot : slot < maxTasks)
    (hidle : ¬ (s.table i).Active)
    (hfree : (s.tasks slot).state ≠ .live) (hactive : (f (s.table i)).Active)
    (hpid : (f (s.table i)).pid = some slot)
    (hlive : t.state = .live) (hsvc : t.svc = some i) : ((s.setRecord i f).setTask slot t).Inv := by
  refine { h with
    records := fun j hj hactive => ?_, services := fun slot' hlt hlive hservice => ?_ }
  · by_cases hji : j = i
    · exact ⟨slot, by grind⟩
    · obtain ⟨slot', hruns⟩ := h.records j hj (by grind)
      exact ⟨slot', by grind⟩
  · by_cases hslot : slot' = slot
    · exact ⟨i, hi, by grind⟩
    · obtain ⟨j, hj, hruns⟩ := h.services slot' hlt (by grind) (by grind)
      exact ⟨j, hj, by grind⟩

/-- A record and its task come to rest together. -/
theorem Scm.Inv.unlink (h : s.Inv) (hruns : s.Runs i slot) (hrest : ¬ (f (s.table i)).Active)
    (hdead : t.state ≠ .live) : ((s.setRecord i f).setTask slot t).Inv := by
  refine { h with
    records := fun j hj hactive => ?_, services := fun slot' hlt hlive hservice => ?_ }
  · obtain ⟨slot', hother⟩ := h.records j hj (by grind)
    exact ⟨slot', by grind⟩
  · obtain ⟨j, hj, hother⟩ := h.services slot' hlt (by grind) (by grind)
    exact ⟨j, hj, by grind⟩

end Changes

/-! ## The calls -/

/-- What a call for the record `i` leaves as it was. -/
structure Scm.Later (i : Nat) (s s' : Scm) : Prop where
  count : s'.count = s.count
  others : ∀ j, j ≠ i → s'.table j = s.table j
  name : (s'.table i).name = (s.table i).name
  timeout : (s'.table i).timeout = (s.table i).timeout
  launches : ∀ x ∈ s'.launches, x ∈ s.launches
  control : ∀ name, s'.saysStopped name → s.saysStopped name

attribute [local grind cases] Scm.Later

theorem Scm.Later.trans {s'' : Scm} (h : s.Later i s') (h' : s'.Later i s'') : s.Later i s'' :=
  ⟨h'.count.trans h.count, fun j hj => (h'.others j hj).trans (h.others j hj), h'.name.trans h.name,
    h'.timeout.trans h.timeout, fun x hx => h.launches x (h'.launches x hx),
    fun name hx => h.control name (h'.control name hx)⟩

theorem later_setRecord (s : Scm) (i : Nat) {f : SvcRecord → SvcRecord}
    (hf : (f (s.table i)).name = (s.table i).name ∧ (f (s.table i)).timeout = (s.table i).timeout) :
    s.Later i (s.setRecord i f) := by
  refine ⟨rfl, fun j hj => record_setRecord_of_ne hj, ?_, ?_, fun _ hx => hx, fun _ hx => hx⟩
  · rw [record_setRecord_self]
    exact hf.1
  · rw [record_setRecord_self]
    exact hf.2

theorem later_of_table (i : Nat) (htable : s'.table = s.table) (hcount : s'.count = s.count)
    (hlaunches : ∀ x ∈ s'.launches, x ∈ s.launches) (hcontrol : ∀ name, s'.saysStopped name →
      s.saysStopped name) :
    s.Later i s' :=
  ⟨hcount, fun _ _ => by rw [htable], by rw [htable], by rw [htable], hlaunches, hcontrol⟩

theorem later_setTask (s : Scm) (i slot : Nat) (t : SvcTask) : s.Later i (s.setTask slot t) :=
  later_of_table i rfl rfl (fun _ hx => hx) fun _ hx => hx

theorem Scm.InTime.of_names (h : s.InTime) (hcount : s'.count = s.count)
    (hnames : ∀ j, (s'.table j).name = (s.table j).name ∧
      (s'.table j).timeout = (s.table j).timeout)
    (hlaunches : ∀ x ∈ s'.launches, x ∈ s.launches) : s'.InTime := by
  intro j hj ticks hticks
  rw [hcount] at hj
  have hintime := h j hj ticks (hlaunches _ hticks)
  unfold SvcRecord.Slow at *
  rw [(hnames j).2]
  exact hintime

theorem svcFind_of_names (hcount : s'.count = s.count)
    (hnames : ∀ j, (s'.table j).name = (s.table j).name)
    (name : Name) : s'.svcFind name = s.svcFind name := by
  unfold Scm.svcFind
  rw [hcount]
  simp only [hnames]

theorem failed_idle (r : SvcRecord) (now : Nat) : ¬ (r.failed now).Active := by
  unfold SvcRecord.failed SvcRecord.Active
  dsimp only
  split
  · simp
  · split <;> simp

theorem failed_name (r : SvcRecord) (now : Nat) :
    (r.failed now).name = r.name ∧ (r.failed now).timeout = r.timeout := by
  unfold SvcRecord.failed
  dsimp only
  split
  · exact ⟨rfl, rfl⟩
  · split <;> exact ⟨rfl, rfl⟩

/-- A launch fails, or fills a free slot. -/
theorem allows_svcLaunchImage (service : Bool) :
    Allows (svcLaunchImage service) (fun r s' => r = none ∧
      s' = { s with launches := s.launches.tail } ∨
      ∃ slot ticks, r = some slot ∧ some ticks ∈ s.launches ∧ slot < maxTasks ∧
        (s.tasks slot).state ≠ .live ∧
        s' = { s with
          launches := s.launches.tail
          tickCount := (s.tickCount + ticks) % 2 ^ 32 }.setTask slot { state := .live, service })
            s := by
  simp only [svcLaunchImage, allows_bind, allows_get]
  cases hhead : s.launches.head?.join with
  | none =>
    simp only [allows_bind, allows_set, allows_pure]
    exact .inl ⟨trivial, trivial⟩
  | some ticks =>
  cases hfree : s.freeSlot with
  | none =>
    simp only [allows_bind, allows_set, allows_pure]
    exact .inl ⟨trivial, trivial⟩
  | some slot =>
  simp only [allows_bind, allows_set, allows_pure]
  refine .inr ⟨slot, ticks, rfl, ?_, ?_, ?_, rfl⟩
  · exact mem_of_head? (join_eq_some_iff.mp hhead)
  · exact mem_range.mp (mem_of_find?_eq_some hfree)
  · have hfound := find?_some hfree
    simp only [Bool.and_eq_true, beq_iff_eq] at hfound
    rw [hfound.2]
    simp

theorem allows_svcFail (h : s.Inv) (hi : i < s.count) (hidle : ¬ (s.table i).Active) :
    Allows (svcFail i) (fun _ s' => s'.Inv ∧ s.Later i s') s := by
  have hmax : ¬ svcMax ≤ i := not_le.mpr (hi.trans_le h.count)
  rw [svcFail, allows_modify, if_neg hmax]
  exact ⟨h.setRecord_idle hidle (failed_idle _ _), later_setRecord s i (failed_name _ _)⟩

theorem Scm.Inv.launched (h : s.Inv) (launches : List (Option Nat)) (ticks : Nat) :
    Scm.Inv { s with launches, tickCount := (s.tickCount + ticks) % 2 ^ 32 } :=
  h.congr rfl rfl rfl h.kills (mod_lt _ (by norm_num))

/-- Record and task come to name each other. -/
theorem Scm.Inv.up (h : s.Inv) (hi : s.sstIx < s.count) (hslot : slot < maxTasks)
    (hidle : ¬ (s.table s.sstIx).Active)
    (hrec : s.sstRec = s.sstIx) (hfree : (s.tasks slot).state ≠ .live) :
    ((s.setTask slot { state := .live, service := true }).sstUp slot).Inv ∧
      s.Later s.sstIx ((s.setTask slot { state := .live, service := true }).sstUp slot) := by
  have hstate : (s.setTask slot { state := .live, service := true }).sstUp slot =
      (s.setRecord s.sstIx fun r =>
        { r with
          pid := some slot, state := .running, pend := .nothing, nextTick := s.tickCount }).setTask
          slot
        { state := .live, service := true, svc := some s.sstIx } := by
    rw [← hrec]
    simp only [Scm.sstUp, Scm.setTask, Scm.setRecord, update_idem, update_self, hrec]
  rw [hstate]
  refine ⟨h.link hi hslot hidle hfree (.inl rfl) rfl rfl rfl,
    Scm.Later.trans ?_ (later_setTask _ _ slot _)⟩
  exact later_setRecord s s.sstIx ⟨rfl, rfl⟩

/-- The launch of a service keeps the invariant. -/
theorem allows_sstLaunch (h : s.Inv) (hi : i < s.count) (hidle : ¬ (s.table i).Active)
    (hix : s.sstIx = i) (hrec : s.sstRec = i) (htime : s.InTime) :
    Allows sstLaunch (fun _ s' => s'.Inv ∧ s.Later i s') s := by
  subst hix
  simp only [sstLaunch, allows_bind, allows_get]
  refine (allows_svcLaunchImage true).mono ?_
  rintro r s1 (⟨rfl, rfl⟩ | ⟨slot, ticks, rfl, hticks, hslot, hfree, rfl⟩)
  · simp only [allows_bind, allows_get, allows_pure]
    have hsame : Scm.Inv { s with launches := s.launches.tail } := by
      have hlaunched := h.launched s.launches.tail 0
      rwa [add_zero, mod_eq_of_lt h.tickCount] at hlaunched
    refine (allows_svcFail hsame hi hidle).mono fun _ s' hs' => ⟨hs'.1, Scm.Later.trans ?_ hs'.2⟩
    exact later_of_table _ rfl rfl (fun x hx => mem_of_mem_tail hx) fun _ hx => hx
  have hslow := htime _ hi ticks hticks
  have helapsed : ((s.tickCount + ticks) % 2 ^ 32 + 2 ^ 32 - s.tickCount) % 2 ^ 32 = ticks := by
    have htick := h.tickCount
    omega
  simp only [allows_bind, allows_get]
  rw [if_neg]
  swap
  · show ¬ (s.table s.sstRec).Slow
      (((s.tickCount + ticks) % 2 ^ 32 + 2 ^ 32 - s.tickCount) % 2 ^ 32)
    rw [helapsed, hrec]
    exact hslow.2
  simp only [allows_bind, allows_set, allows_pure]
  obtain ⟨hinv, hlater⟩ := (h.launched s.launches.tail ticks).up hi hslot hidle hrec hfree
  refine ⟨hinv, Scm.Later.trans ?_ hlater⟩
  exact later_of_table _ rfl rfl (fun x hx => mem_of_mem_tail hx) fun _ hx => hx

/-- `svc_start` keeps the invariant. -/
theorem allows_svcStart (h : s.Inv) (hi : i < s.count) (hmay : s.MayStart i) (htime : s.InTime)
    (fuel : Nat) :
    Allows (svcStart (fuel + 1) i) (fun _ s' => s'.Inv ∧ s.Later i s') s := by
  simp only [svcStart, allows_bind, allows_modify, allows_get]
  have hlocals : Scm.Inv { s with sstIx := i, sstRec := i } :=
    h.congr rfl rfl rfl h.kills h.tickCount
  have hlater : s.Later i { s with sstIx := i, sstRec := i } :=
    later_of_table i rfl rfl (fun _ hx => hx) fun _ hx => hx
  have hfail : ¬ (s.table i).Active → Allows sstFail (fun _ s' => s'.Inv ∧ s.Later i s')
      { s with sstIx := i, sstRec := i } := by
    intro hidle
    simp only [sstFail, allows_bind, allows_modify, allows_pure]
    exact ⟨hlocals.setRecord_idle hidle (by simp [SvcRecord.Active]),
      hlater.trans (later_setRecord _ i ⟨rfl, rfl⟩)⟩
  unfold Scm.MayStart at hmay
  by_cases hdisabled : (s.table i).start = .disabled
  · grind
  rw [if_neg hdisabled]
  simp only [if_neg hdisabled] at hmay
  by_cases hrunning : (s.table i).state = .running
  · rw [if_pos hrunning, allows_pure]
    exact ⟨hlocals, hlater⟩
  rw [if_neg hrunning]
  obtain ⟨hstopping, hdep⟩ := hmay.resolve_left hrunning
  have hidle : ¬ (s.table i).Active := by
    rintro (h | h)
    · exact hrunning h
    · exact hstopping h
  by_cases hnone : (s.table i).dep = []
  · rw [if_pos hnone]
    refine (allows_sstLaunch hlocals hi hidle rfl rfl htime).mono fun _ s' hs' => ?_
    exact ⟨hs'.1, hlater.trans hs'.2⟩
  · rw [if_neg hnone]
    have hmissing : Scm.svcFind { s with sstIx := i, sstRec := i } (s.table i).dep = none :=
      hdep.resolve_left hnone
    simp only [hmissing]
    exact hfail hidle

/-! ### Stopping -/

theorem Scm.Runs.svcTaskPid (h : s.Runs i slot) : s.svcTaskPid (s.table i).pid = some slot := by
  have hstate : (s.tasks slot).state ≠ .free := by
    rw [h.live]
    simp
  rw [h.pid, Scm.svcTaskPid, filter_some_pos]
  simpa using ⟨h.lt, hstate⟩

theorem Scm.Inv.setControl (h : s.Inv) (saysStopped : Name → Bool) :
    Scm.Inv { s with saysStopped } :=
  h.congr rfl rfl rfl h.kills h.tickCount

/-- `svc_stop` keeps the invariant. -/
theorem allows_svcStop (h : s.Inv) (hi : i < s.count) :
    Allows (svcStop i) (fun _ s' => s'.Inv) s := by
  simp only [svcStop, allows_bind, allows_get]
  by_cases hrunning : (s.table i).state = .running
  · obtain ⟨slot, hruns⟩ := h.records i hi (.inl hrunning)
    rw [if_neg (not_not_intro hrunning), if_neg (by rw [hruns.svcTaskPid]; simp), allows_bind,
      allows_set, allows_pure]
    exact (h.setControl _).setRecord_active (fun _ => .inr rfl) (fun _ => .inl hrunning) rfl
  · rw [if_pos hrunning, allows_pure]
    exact h

theorem dead_state (t : SvcTask) : t.dead.state ≠ .live := by
  unfold SvcTask.dead
  dsimp only
  split <;> simp

theorem allows_svcStopDone
    (h : Q ()
      { s.setRecord i fun r => { r with
    state := .stopped, pid := none, fails := 0, stopDl := 0 } with
      saysStopped := Function.update s.saysStopped (s.table i).name false }) :
        Allows (svcStopDone i) Q s := by
  rw [svcStopDone, allows_modify]
  simp only [record_setRecord_self]
  exact h

theorem allows_svcKill (hlive : (s.tasks slot).state = .live)
    (h : Q () ({ s with kills := ⟨i, s.tasks slot⟩ :: s.kills, stuck := true }.setTask slot
      (s.tasks slot).dead)) :
    Allows (svcKill i slot) Q s := by
  rw [svcKill, allows_modify]
  simp only [if_pos hlive]
  exact h

/-- The tick leaves a service that is being stopped alone, or kills it. -/
theorem allows_sktStopping (h : s.Inv) (hi : i < s.count)
    (hstopping : (s.table i).state = .stopping)
    (hcontrol : s.saysStopped (s.table i).name = false) :
    Allows (sktStopping i) (fun _ s' => s'.Inv ∧ s.Later i s') s := by
  obtain ⟨slot, hruns⟩ := h.records i hi (.inr hstopping)
  have hsame : s.Inv ∧ s.Later i s := ⟨h, later_of_table i rfl rfl (fun _ hx => hx) fun _ hx => hx⟩
  simp only [sktStopping, allows_bind, allows_get]
  simp only [hruns.svcTaskPid, hcontrol, Bool.false_eq_true, if_false]
  by_cases hnever : (s.table i).stopDl = 0
  · rw [if_pos hnever, allows_pure]
    exact hsame
  rw [if_neg hnever]
  by_cases hearly : s.tickCount < (s.table i).stopDl
  · rw [if_pos hearly, allows_pure]
    exact hsame
  rw [if_neg hearly, allows_bind]
  refine allows_svcStopDone (allows_svcKill hruns.live ?_)
  generalize hrest :
    (fun r : SvcRecord => { r with state := .stopped, pid := none, fails := 0, stopDl := 0 }) = rest
  have hinv : ((s.setRecord i rest).setTask slot (s.tasks slot).dead).Inv := by
    refine h.unlink hruns ?_ (dead_state _)
    rw [← hrest]
    simp [SvcRecord.Active]
  have hnames : (rest (s.table i)).name = (s.table i).name ∧ (rest (s.table i)).timeout =
    (s.table i).timeout := by
    rw [← hrest]
    exact ⟨rfl, rfl⟩
  refine ⟨hinv.congr rfl rfl rfl ?_ h.tickCount, (later_setRecord s i hnames).trans ?_⟩
  · intro k hk
    rcases mem_cons.mp hk with rfl | hk
    · exact ⟨hruns.live, hruns.svc⟩
    · exact h.kills k hk
  · refine later_of_table i rfl rfl (fun _ hx => hx) fun name hname => ?_
    change update s.saysStopped (s.table i).name false name = true at hname
    by_cases hself : name = (s.table i).name
    · rw [hself, update_self] at hname
      cases hname
    · rwa [update_of_ne hself] at hname

/-! ### The tick -/

/-- A recovery keeps the invariant. -/
theorem allows_sktRecover (h : s.Inv) (hrecover : (s.table i).state = .recover) :
    Allows (sktRecover i) (fun _ s' => s'.Inv ∧ s.Later i s') s := by
  simp only [sktRecover, allows_bind, allows_get, allows_modify]
  generalize hafter : s.setRecord i (fun r => { r with pend := .nothing, state := .failed }) = s1
  have hinv : s1.Inv := by
    rw [← hafter]
    exact h.setRecord_idle (by simp [SvcRecord.Active, hrecover]) (by simp [SvcRecord.Active])
  have hlater : s.Later i s1 := by
    rw [← hafter]
    exact later_setRecord s i ⟨rfl, rfl⟩
  cases (s.table i).pend with
  | reboot => exact allows_none
  | nothing => exact allows_pure.mpr ⟨hinv, hlater⟩
  | run =>
  dsimp only
  rw [allows_bind]
  refine (allows_svcLaunchImage false).mono ?_
  rintro r s' (⟨rfl, rfl⟩ | ⟨slot, ticks, rfl, -, -, hfree, rfl⟩)
  · refine allows_pure.mpr ⟨hinv.congr rfl rfl rfl hinv.kills hinv.tickCount, hlater.trans ?_⟩
    exact later_of_table i rfl rfl (fun x hx => mem_of_mem_tail hx) fun _ hx => hx
  · refine allows_pure.mpr ⟨(hinv.launched _ ticks).setTask_other (fun hlive => absurd hlive hfree)
      (fun _ => ⟨rfl, rfl⟩), hlater.trans ?_⟩
    exact later_of_table i rfl rfl (fun x hx => mem_of_mem_tail hx) fun _ hx => hx

/-- One record of `svc_tick` keeps the invariant. -/
theorem allows_sktTurn (h : s.Inv) (hi : i < s.count) (htime : s.InTime)
    (hmay : (s.table i).state = .retry → s.MayStart i)
    (hcontrol : (s.table i).state = .stopping → s.saysStopped (s.table i).name = false) :
    Allows (sktTurn i) (fun _ s' => s'.Inv ∧ s.Later i s') s := by
  have hsame : s.Inv ∧ s.Later i s := ⟨h, later_of_table i rfl rfl (fun _ hx => hx) fun _ hx => hx⟩
  simp only [sktTurn, allows_bind, allows_get]
  cases hstate : (s.table i).state with
  | stopped => exact allows_pure.mpr hsame
  | failed => exact allows_pure.mpr hsame
  | recover => exact allows_sktRecover h hstate
  | stopping => exact allows_sktStopping h hi hstate (hcontrol hstate)
  | running =>
    dsimp only
    by_cases hreset : (s.table i).fails ≠ 0 ∧
        (s.table i).reset * pitHz % 2 ^ 32 ≤ (s.tickCount + 2 ^ 32 - (s.table i).lastFail) % 2 ^ 32
    · rw [if_pos hreset, allows_set]
      exact ⟨h.setRecord_active id id rfl, later_setRecord s i ⟨rfl, rfl⟩⟩
    · rw [if_neg hreset, allows_pure]
      exact hsame
  | retry =>
  dsimp only
  by_cases hearly : s.tickCount < (s.table i).nextTick
  · rw [if_pos hearly, allows_pure]
    exact hsame
  rw [if_neg hearly, allows_bind]
  refine (allows_svcStart h hi (hmay hstate) htime _).mono ?_
  rintro failed s1 ⟨hinv, hlater⟩
  cases failed with
  | true => exact allows_pure.mpr ⟨hinv, hlater⟩
  | false =>
    refine allows_modify.mpr ⟨hinv.setRecord_active id id rfl, hlater.trans ?_⟩
    exact later_setRecord s1 i ⟨rfl, rfl⟩

/-- What the first turns of the tick leave as it was. -/
structure Scm.Turned (n : Nat) (s s' : Scm) : Prop where
  count : s'.count = s.count
  others : ∀ j, n ≤ j → s'.table j = s.table j
  names : ∀ j, (s'.table j).name = (s.table j).name ∧ (s'.table j).timeout = (s.table j).timeout
  launches : ∀ x ∈ s'.launches, x ∈ s.launches
  control : ∀ name, s'.saysStopped name → s.saysStopped name

attribute [local grind cases] Scm.Turned

theorem Scm.Turned.later {s'' : Scm} {n : Nat} (h : s.Turned n s') (h' : s'.Later n s'') :
    s.Turned (n + 1) s'' := by
  refine ⟨h'.count.trans h.count, fun j hj => ?_, fun j => ?_,
    fun x hx => h.launches x (h'.launches x hx),
    fun name hx => h.control name (h'.control name hx)⟩
  · rw [h'.others j (by omega), h.others j (by omega)]
  · grind

theorem Scm.Turned.mayStart {n : Nat} (h : s.Turned n s') (hmay : s.MayStart n) :
    s'.MayStart n := by
  unfold Scm.MayStart at *
  rw [h.others n le_rfl]
  simp only [svcFind_of_names h.count fun j => (h.names j).1]
  exact hmay

/-- `svc_tick` keeps the invariant. -/
theorem allows_sktLoop (h : s.Inv) (horderly : ScmCall.tick.Orderly s) (n : Nat)
    (hn : n ≤ s.count) :
    Allows (sktLoop n) (fun _ s' => s'.Inv ∧ s.Turned n s') s := by
  obtain ⟨htime, hrecords⟩ := horderly
  induction n with
  | zero => exact allows_pure.mpr ⟨h, rfl, fun _ _ => rfl, fun _ => ⟨rfl, rfl⟩, fun _ hx => hx,
      fun _ hx => hx⟩
  | succ n ih =>
  rw [sktLoop, allows_bind]
  refine (ih (by omega)).mono ?_
  rintro ⟨⟩ s1 ⟨hinv, hturned⟩
  rw [allows_bind, allows_get]
  by_cases hstuck : s1.stuck
  · rw [if_pos hstuck, allows_pure]
    exact ⟨hinv, { hturned with others := fun j hj => hturned.others j (by omega) }⟩
  rw [if_neg hstuck]
  obtain ⟨hmay, hcontrol⟩ := hrecords n (by omega)
  refine (allows_sktTurn hinv ?_ ?_ ?_ ?_).mono fun _ s' hs' => ⟨hs'.1, hturned.later hs'.2⟩
  · rw [hturned.count]
    omega
  · exact htime.of_names hturned.count hturned.names hturned.launches
  · intro hretry
    rw [hturned.others n le_rfl] at hretry
    exact hturned.mayStart (hmay hretry)
  · grind

/-! ### The end of a task -/

/-- The exit of a service's task is noted in its record. -/
theorem allows_svcOnExit (hi : i < svcMax) (hrunning : (s.table i).state = .running)
    (code : Nat) (hq : ∀ f, ¬ (f (s.table i)).Active → Q () (s.setRecord i f)) :
    Allows (svcOnExit i code) Q s := by
  have hmax : ¬ svcMax ≤ i := not_le.mpr hi
  simp only [svcOnExit, if_neg hmax, allows_bind, allows_get]
  rw [if_neg (not_not_intro hrunning), allows_bind, allows_modify]
  by_cases hcode : code = 0
  · rw [if_pos hcode, allows_modify]
    have hrest :=
      hq (fun r => { r with pid := none, state := .stopped, fails := 0 })
      (by simp [SvcRecord.Active])
    simpa only [Scm.setRecord, update_idem, update_self] using hrest
  · rw [if_neg hcode, svcFail, allows_modify, if_neg hmax]
    have hrest :=
      hq (fun r => SvcRecord.failed { r with pid := none } s.tickCount) (failed_idle _ _)
    simpa only [Scm.setRecord, update_idem, update_self] using hrest

/-- A task that ends while its service is not being stopped brings the record to rest. -/
theorem allows_taskExit (h : s.Inv) (hslot : slot < maxTasks) (hlive : (s.tasks slot).state = .live)
    (horderly : ∀ i, (s.tasks slot).svc = some i → (s.table i).state ≠ .stopping) (code : Nat) :
    Allows (taskExit slot code) (fun _ s' => s'.Inv) s := by
  simp only [taskExit, allows_bind, allows_get]
  cases hsvc : (s.tasks slot).svc with
  | none =>
    dsimp only
    rw [allows_modify]
    exact h.setTask_other (fun _ => hsvc) (fun hlive => absurd hlive (dead_state _))
  | some ix =>
  obtain ⟨i, hi, hruns⟩ := h.services slot hslot hlive (.inr (by rw [hsvc]; simp))
  obtain rfl : i = ix := by
    have hsame := hruns.svc
    rw [hsvc] at hsame
    exact (some.inj hsame).symm
  have hrunning : (s.table i).state = .running := hruns.active.resolve_right (horderly i hsvc)
  dsimp only
  rw [allows_bind]
  refine allows_svcOnExit (hi.trans_le h.count) hrunning code fun f hf => ?_
  rw [allows_modify]
  exact h.unlink hruns hf (dead_state _)

/-! ### Creating and deleting -/

/-- `.create` keeps the invariant. -/
theorem allows_svcCreate (h : s.Inv) (name : Name) (start : StartType) (dep : Name) :
    Allows (svcCreate name start dep) (fun _ s' => s'.Inv) s := by
  simp only [svcCreate, allows_bind, allows_get]
  by_cases hfound : (s.svcFind name).isSome
  · rw [if_pos hfound, allows_pure]
    exact h
  rw [if_neg hfound]
  by_cases hcycle : dep ≠ [] ∧ s.svcCheckCycle dep name
  · rw [if_pos hcycle, allows_pure]
    exact h
  rw [if_neg hcycle]
  by_cases hfull : svcMax ≤ s.count
  · rw [if_pos hfull, allows_pure]
    exact h
  rw [if_neg hfull, allows_set]
  generalize hs' : Scm.setRecord { s with count := s.count + 1 } s.count
    (fun _ => { name, start, dep }) = s'
  have hcount : s'.count = s.count + 1 := by rw [← hs']; rfl
  have hnew : ¬ (s'.table s.count).Active := by
    rw [← hs', record_setRecord_self]
    simp [SvcRecord.Active]
  have hruns : ∀ i < s.count, ∀ slot, s.Runs i slot → s'.Runs i slot := by
    intro i hi slot hruns
    obtain ⟨hlt, hactive, hpid, hlive, hsvc⟩ := hruns
    rw [← hs', Scm.runs_iff, record_setRecord_of_ne hi.ne]
    exact ⟨hlt, hactive, hpid, hlive, hsvc⟩
  refine ⟨by rw [← hs']; exact h.tickCount, by omega, fun i hi hactive => ?_,
    fun slot hlt hlive hservice => ?_,
    by rw [← hs']; exact h.kills⟩
  · have hold : i < s.count := by
      rcases Nat.lt_succ_iff_lt_or_eq.mp (hcount ▸ hi) with hold | rfl
      · exact hold
      · exact absurd hactive hnew
    rw [← hs', record_setRecord_of_ne hold.ne] at hactive
    obtain ⟨slot, hslot⟩ := h.records i hold hactive
    exact ⟨slot, hruns i hold slot hslot⟩
  · rw [← hs'] at hlive hservice
    obtain ⟨i, hi, hold⟩ := h.services slot hlt hlive hservice
    exact ⟨i, by omega, hruns i hi slot hold⟩

/-- No service is running. -/
structure Scm.Quiet (s : Scm) : Prop where
  inv : s.Inv
  records : ∀ i < s.count, ¬ (s.table i).Active

theorem Scm.Quiet.services (h : s.Quiet) (hslot : slot < maxTasks)
    (hlive : (s.tasks slot).state = .live)
    (hservice : (s.tasks slot).service ∨ (s.tasks slot).svc ≠ none) : False := by
  obtain ⟨i, hi, hruns⟩ := h.inv.services slot hslot hlive hservice
  exact h.records i hi hruns.active

theorem Scm.Quiet.reload (h : s.Quiet) (htick : s'.tickCount = s.tickCount)
    (htasks : s'.tasks = s.tasks) (hkills : s'.kills = s.kills) (hcount : s'.count ≤ svcMax)
    (hrecords : ∀ i < s'.count, ¬ (s'.table i).Active) :
    s'.Quiet := by
  refine ⟨⟨htick ▸ h.inv.tickCount, hcount, fun i hi hactive => absurd hactive (hrecords i hi),
    fun slot hlt hlive hservice => ?_, hkills ▸ h.inv.kills⟩, hrecords⟩
  rw [htasks] at hlive hservice
  exact (h.services hlt hlive hservice).elim

theorem allows_svcLoadOne (h : s.Quiet) (d : SvcDef) :
    Allows (svcLoadOne d) (fun _ s' => s'.Quiet) s := by
  simp only [svcLoadOne, allows_bind, allows_get]
  cases s.svcFind d.name with
  | some i =>
    simp only [allows_bind, allows_set, allows_pure]
    refine h.reload rfl rfl rfl h.inv.count fun j hj => ?_
    by_cases hji : j = i
    · subst hji
      rw [record_setRecord_self]
      exact h.records j hj
    · rw [record_setRecord_of_ne hji]
      exact h.records j hj
  | none =>
  dsimp only
  by_cases hfull : svcMax ≤ s.count
  · rw [if_pos hfull, allows_pure]
    exact h
  rw [if_neg hfull]
  simp only [allows_bind, allows_set, allows_pure]
  refine h.reload rfl rfl rfl (not_le.mp hfull) fun j hj => ?_
  by_cases hnew : j = s.count
  · subst hnew
    rw [record_setRecord_self]
    simp [SvcDef.values, SvcRecord.Active]
  · rw [record_setRecord_of_ne hnew]
    exact h.records j (Nat.lt_of_le_of_ne (Nat.lt_succ_iff.mp hj) hnew)

theorem allows_slaLoop (defs : List SvcDef) (turns n : Nat) (h : s.Quiet) :
    Allows (slaLoop defs turns n) (fun _ s' => s'.Quiet) s := by
  induction turns generalizing n s with
  | zero => exact allows_none
  | succ turns ih =>
  rw [slaLoop]
  cases defs[n]? with
  | none => exact allows_pure.mpr h
  | some d =>
  dsimp only
  rw [allows_bind]
  refine (allows_svcLoadOne h d).mono fun found s1 h1 => ?_
  cases found with
  | none => exact allows_pure.mpr h1
  | some i => exact ih (i + 1) h1

/-- `.delete` starts nothing. -/
theorem allows_svcDelete (h : s.Quiet) (name : Name) (defs : Option (List SvcDef)) :
    Allows (svcDelete name defs) (fun _ s' => s'.Quiet) s := by
  simp only [svcDelete, allows_bind, allows_get]
  cases s.svcFind name with
  | none => exact allows_pure.mpr h
  | some i =>
  dsimp only
  by_cases hactive : (s.table i).state = .running ∨ (s.table i).state = .stopping
  · rw [if_pos hactive, allows_pure]
    exact h
  rw [if_neg hactive]
  cases defs with
  | none => exact allows_pure.mpr h
  | some defs =>
    simp only [svcLoadAll, allows_bind, allows_modify]
    exact allows_slaLoop defs _ 0
      (h.reload rfl rfl rfl (zero_le _) fun i hi => absurd hi (not_lt_zero i))

/-! ## Runs -/

theorem svcFind_lt {name : Name} (h : s.svcFind name = some i) :
    i < s.count := mem_range.mp (mem_of_find?_eq_some h)

/-- Every orderly call keeps the invariant. -/
theorem Scm.Inv.step (h : s.Inv) {c : ScmCall} (horderly : c.Orderly s) :
    Allows c.run (fun _ s' => s'.Inv) s := by
  cases c with
  | start name =>
    simp only [ScmCall.run, allows_bind, allows_get]
    cases hfind : s.svcFind name with
    | none => exact allows_pure.mpr h
    | some i =>
      obtain ⟨hmay, htime⟩ := horderly i hfind
      dsimp only
      rw [allows_bind]
      refine (allows_svcStart h (svcFind_lt hfind) hmay htime _).mono fun _ s' hs' =>
        allows_pure.mpr hs'.1
  | stop name =>
    simp only [ScmCall.run, allows_bind, allows_get]
    cases hfind : s.svcFind name with
    | none => exact allows_pure.mpr h
    | some i =>
      dsimp only
      rw [allows_bind]
      exact (allows_svcStop h (svcFind_lt hfind)).mono fun _ s' hs' => allows_pure.mpr hs'
  | tick =>
    simp only [ScmCall.run, svcTick, allows_bind, allows_get]
    exact (allows_sktLoop h horderly s.count le_rfl).mono fun _ s' hs' => hs'.1
  | exit slot code =>
    simp only [ScmCall.run, allows_bind, allows_get]
    by_cases hlive : slot < maxTasks ∧ (s.tasks slot).state = .live
    · rw [if_pos hlive]
      exact allows_taskExit h hlive.1 hlive.2 (fun i hi => horderly i hlive.2 hi) code
    · rw [if_neg hlive, allows_pure]
      exact h
  | spawn parented =>
    rw [ScmCall.run, allows_modify]
    cases hfree : s.freeSlot with
    | none => exact h
    | some slot =>
      have hfound := find?_some hfree
      simp only [Bool.and_eq_true, beq_iff_eq] at hfound
      refine h.setTask_other (fun hlive => ?_) fun _ => ⟨rfl, rfl⟩
      rw [hfound.2] at hlive
      cases hlive
  | fork parent =>
    rw [ScmCall.run, allows_modify]
    cases hfree : s.freeSlot with
    | none => exact h
    | some slot =>
    dsimp only
    by_cases hparent : (s.tasks parent).state = .live
    · rw [if_pos hparent]
      have hfound := find?_some hfree
      simp only [Bool.and_eq_true, beq_iff_eq] at hfound
      refine h.setTask_other (fun hlive => ?_) fun _ => ⟨rfl, horderly hparent⟩
      rw [hfound.2] at hlive
      cases hlive
    · rw [if_neg hparent]
      exact h
  | reap slot =>
    rw [ScmCall.run, allows_modify]
    by_cases hzombie : (s.tasks slot).state = .zombie
    · rw [if_pos hzombie]
      refine h.setTask_other (fun hlive => ?_) fun hlive => ?_
      · cases hzombie.symm.trans hlive
      · cases hlive
    · rw [if_neg hzombie]
      exact h
  | create name type dep => exact allows_svcCreate h name type dep
  | delete name defs => exact (allows_svcDelete ⟨h, horderly⟩ name defs).mono fun _ s' hs' =>
      hs'.inv
  | control name stopped =>
    rw [ScmCall.run, allows_modify]
    exact h.setControl _
  | time ticks =>
    rw [ScmCall.run, allows_modify]
    exact h.congr rfl rfl rfl h.kills (mod_lt _ (by norm_num))

end Mellivora
