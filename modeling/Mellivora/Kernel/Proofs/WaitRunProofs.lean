import Mellivora.Kernel.Proofs.WaitProofs

/-!
# Proofs: runs of waits and signals

A signal is offered to the waiters of its object until none of their sets is satisfied; no other set
can have become so.
-/

namespace Mellivora

open Function List WaitWorld Nat

variable {calls room : Nat} {w w' : WaitWorld} {stamp : Nat → Nat} {t u obj i : Nat}

/-! ## Offering a signal -/

theorem firstSatisfied_none {l : List Waiter} (h : w.firstSatisfied l = none) :
    ∀ r ∈ l, w.Waits r.task → objWaitEval w r.task = none := by
  induction l with
  | nil => exact fun r hr => absurd hr not_mem_nil
  | cons a l ih =>
    rw [firstSatisfied] at h
    grind [WaitWorld.Waits]

/-- Nobody before the one found is satisfied. -/
theorem firstSatisfied_some {l : List Waiter} {index : Nat}
    (h : w.firstSatisfied l = some (t, index)) :
    ∃ l1 r l2, l = l1 ++ r :: l2 ∧ r.task = t ∧ w.Waits t ∧ objWaitEval w t = some index ∧
      ∀ a ∈ l1, w.Waits a.task → objWaitEval w a.task = none := by
  induction l with
  | nil => cases h
  | cons a l ih =>
  by_cases hpass : w.Waits a.task → objWaitEval w a.task = none
  · -- The record is passed over and goes in front of what is found behind it.
    have hrest : w.firstSatisfied l = some (t, index) := by grind [firstSatisfied, WaitWorld.Waits]
    obtain ⟨l1, r, l2, rfl, hrt, hwaits, heval, hfront⟩ := ih hrest
    exact ⟨a :: l1, r, l2, rfl, hrt, hwaits, heval, by grind⟩
  · exact ⟨[], a, l, rfl, by grind [firstSatisfied, WaitWorld.Waits]⟩

theorem Queues.complete (h : Queues w stamp) (t index : Nat) :
    Leaves (objWaitConsume w t index) t (w.complete t index) := by
  have hc := consumed_objWaitConsume w t index
  have hq := h.consumed hc
  unfold WaitWorld.complete
  refine (hq.owned t).leaves (hq.index_lt t) ⟨rfl, rfl, rfl⟩ ?_
  rintro recs ⟨⟨⟩, -⟩

theorem WaitWorld.AwaitsOnly.satisfied_iff (h : w.AwaitsOnly t obj) :
    w.Satisfied t ↔ (w.objs obj).signal := by
  obtain ⟨-, hcount, hobj⟩ := h
  unfold Satisfied
  rw [hcount, ← hobj]
  split
  · grind
  · grind

/-- The tasks in `done` were completed in the order in which they had been queued. -/
def InOrder (w : WaitWorld) (stamp : Nat → Nat) (done : List Nat) : Prop :=
  ∀ e t1 t2, w.AwaitsOnly t1 e → w.AwaitsOnly t2 e → stamp t1 < stamp t2 → t2 ∈ done →
    [t1, t2].Sublist done

theorem inOrder_nil (w : WaitWorld) (stamp : Nat → Nat) : InOrder w stamp [] :=
  fun _ _ _ _ _ _ hmem => absurd hmem not_mem_nil

/-- The first satisfied record of a list is not behind that of a task that waits for the same
object. -/
theorem Queues.first_not_later (h : Queues w stamp) {l1 l2 : List Waiter} {r : Waiter} {e t1 : Nat}
    (hlist : (w.objs obj).waiters = l1 ++ r :: l2) (hsat : objWaitEval w r.task ≠ none)
    (hfront : ∀ a ∈ l1, w.Waits a.task → objWaitEval w a.task = none)
    (h1 : w.AwaitsOnly t1 e) (h2 : w.AwaitsOnly r.task e) : ¬ stamp t1 < stamp r.task := by
  intro hlt
  have hr : r ∈ (w.objs obj).waiters := by grind
  obtain ⟨-, hindex, -, hobj⟩ := h.current obj r hr
  rw [h2.2.1] at hindex
  rw [lt_one_iff.mp hindex, h2.2.2] at hobj
  have hmem := h.listed t1 h1.1 0 (by rw [h1.2.1]; exact one_pos)
  rw [h1.2.2, hobj, hlist] at hmem
  rcases mem_append.mp hmem with hmem | hmem
  · -- In front, where no set is satisfied.
    have hnone := objWaitEval_eq_none.mp (hfront _ hmem h1.1)
    have hsignal := h2.satisfied_iff.mp (objWaitEval_ne_none.mp hsat)
    exact hnone (h1.satisfied_iff.mpr hsignal)
  · rcases mem_cons.mp hmem with rfl | hmem
    · exact lt_irrefl _ hlt
    · have hsorted := h.sorted obj
      rw [hlist] at hsorted
      have hle := (pairwise_cons.mp (pairwise_append.mp hsorted).2.1).1 _ hmem
      dsimp only at hle
      omega

/-- The loop wakes in order until nobody is satisfied. -/
theorem objSatisfyWaiters_spec (turns : Nat) (h : Queues w stamp)
    (honly : ∀ t, w.Waits t → w.Satisfied t → ∃ i < (w.tasks t).count, (w.tasks t).objs i = obj)
    (hturns : (w.objs obj).waiters.length < turns) :
    ∃ w' done, objSatisfyWaiters w obj turns = some (w', done) ∧ Queues w' stamp ∧ w'.NoLostWakeup ∧
      (∀ t, w'.Waits t → w.Waits t) ∧ InOrder w stamp done := by
  induction turns generalizing w with
  | zero => omega
  | succ turns ih =>
  rw [objSatisfyWaiters]
  cases hfirst : w.firstSatisfied (w.objs obj).waiters with
  | none =>
    refine ⟨w, [], rfl, h, fun t ht => ?_, fun _ ht => ht, inOrder_nil w stamp⟩
    refine objWaitEval_eq_none.mpr fun hsat => ?_
    obtain ⟨i, hi, hobj⟩ := honly t ht hsat
    have hmem := h.listed t ht i hi
    rw [hobj] at hmem
    exact objWaitEval_eq_none.mp (firstSatisfied_none hfirst _ hmem ht) hsat
  | some found =>
  obtain ⟨t, index⟩ := found
  obtain ⟨l1, r, l2, hlist, rfl, hwaits, heval, hfront⟩ := firstSatisfied_some hfirst
  have hc := consumed_objWaitConsume w r.task index
  have hl := h.complete r.task index
  have hother : ∀ u, u ≠ r.task → (w.complete r.task index).tasks u = w.tasks u := by
    intro u hu
    rw [hl.other u hu, hc.tasks]
  have hback : ∀ u, (w.complete r.task index).Waits u → u ≠ r.task ∧ w.Waits u := by
    intro u hu
    obtain ⟨hne, hu⟩ := hl.waits hu
    unfold WaitWorld.Waits at hu
    rw [hc.tasks] at hu
    exact ⟨hne, hu⟩
  have hr : r ∈ (w.objs obj).waiters := by grind
  have honly' : ∀ u, (w.complete r.task index).Waits u → (w.complete r.task index).Satisfied u →
      ∃ i < ((w.complete r.task index).tasks u).count, ((w.complete r.task index).tasks u).objs
      i = obj := by
    intro u hu hsat
    obtain ⟨hne, hu⟩ := hback u hu
    rw [hother u hne]
    exact honly u hu ((hl.satisfied hne hsat).mono (by rw [hc.tasks]) fun i _ => hc.signal _)
  have hshorter : ((w.complete r.task index).objs obj).waiters.length < turns := by
    rw [hl.objs, WaitObj.keep, hc.waiters]
    refine lt_of_lt_of_le (length_filter_lt_length_iff_exists.mpr ⟨r, hr, ?_⟩) (by omega)
    simp
  obtain ⟨w', done, hrun, hq, hnone, hkeep, horder⟩ :=
    ih ((h.consumed hc).leaves hl) honly' hshorter
  refine ⟨w', r.task :: done, ?_, hq, hnone, fun u hu => (hback u (hkeep u hu)).2, ?_⟩
  · dsimp only
    rw [hrun]
    rfl
  intro e t1 t2 h1 h2 hlt hmem
  by_cases heq1 : t1 = r.task
  · grind
  by_cases heq2 : t2 = r.task
  · rw [heq2] at h2 hlt
    exact absurd hlt
      (h.first_not_later hlist (by rw [heval]; exact Option.some_ne_none _) hfront h1 h2)
  refine List.Sublist.cons _ (horder e t1 t2 ?_ ?_ hlt ((mem_cons.mp hmem).resolve_left heq2))
  · unfold WaitWorld.AwaitsOnly WaitWorld.Waits
    rw [hother t1 heq1]
    exact h1
  · unfold WaitWorld.AwaitsOnly WaitWorld.Waits
    rw [hother t2 heq2]
    exact h2

/-- A signal after its object has changed. -/
theorem objSignal_spec (h : Queues w stamp) (hnone : w.NoLostWakeup) (hzero : obj ≠ 0)
    (f : WaitObj → WaitObj) (hf : (f (w.objs obj)).waiters = (w.objs obj).waiters) :
    ∃ w' done, objSignal (w.setObj obj f) obj = some (w', done) ∧ Queues w' stamp ∧
      w'.NoLostWakeup ∧
      (∀ t, w'.Waits t → w.Waits t) ∧ InOrder w stamp done := by
  rw [objSignal, if_neg hzero]
  generalize hw1 : ((w.setObj obj f).setObj obj fun o => { o with signal := true }) = w1
  have htasks : w1.tasks = w.tasks := by rw [← hw1]; rfl
  have hother : ∀ o, o ≠ obj → w1.objs o = w.objs o := by
    intro o ho
    rw [← hw1, setObj_of_ne ho, setObj_of_ne ho]
  have hwaiters : ∀ o, (w1.objs o).waiters = (w.objs o).waiters := by
    intro o
    by_cases heq : o = obj
    · rw [heq, ← hw1, setObj_self, setObj_self]
      exact hf
    · rw [hother o heq]
  have hq : Queues w1 stamp := by
    obtain ⟨hcurrent, hlisted, hnodup, hsorted⟩ := h
    exact ⟨by simpa only [WaitWorld.RecordsCurrent, WaitWorld.Waits, htasks,
      hwaiters] using hcurrent,
      by simpa only [WaitWorld.Waits, htasks, hwaiters] using hlisted,
      by simpa only [hwaiters] using hnodup,
      by simpa only [hwaiters] using hsorted⟩
  have honly : ∀ t, w1.Waits t → w1.Satisfied t →
    ∃ i < (w1.tasks t).count, (w1.tasks t).objs i = obj := by
    -- A set without the object was not satisfied before and is not now.
    intro t ht hsat
    by_contra hout
    unfold WaitWorld.Waits at ht
    rw [htasks] at ht hout
    refine objWaitEval_eq_none.mp (hnone t ht) (hsat.mono (by rw [htasks]) fun i hi hs => ?_)
    rwa [hother] at hs
    intro heq
    exact hout ⟨i, hi, heq⟩
  have hturns : (w1.objs obj).waiters.length < ((w.setObj obj f).objs obj).waiters.length + 1 := by
    rw [hwaiters, setObj_self, hf]
    exact lt_succ_self _
  obtain ⟨w', done, hrun, hq', hnone', hkeep, horder⟩ := objSatisfyWaiters_spec _ hq honly hturns
  refine ⟨w', done, hrun, hq', hnone', fun t ht => ?_, fun e t1 t2 h1 h2 => ?_⟩
  · have hold := hkeep t ht
    unfold WaitWorld.Waits at hold
    rwa [htasks] at hold
  · refine horder e t1 t2 ?_ ?_
    · unfold WaitWorld.AwaitsOnly WaitWorld.Waits
      rwa [htasks]
    · unfold WaitWorld.AwaitsOnly WaitWorld.Waits
      rwa [htasks]

/-! ## Being queued -/

theorem hook_eq (w : WaitWorld) (t i : Nat) :
    (∀ o, (w.hook t i).objs o = { w.objs o with
      waiters := (w.objs o).waiters ++ (if (w.tasks t).objs i = o then [Waiter.mk t i] else []) }) ∧
    (∀ u, u ≠ t → (w.hook t i).tasks u = w.tasks u) ∧
    (w.hook t i).tasks t = { w.tasks t with recs := Function.update (w.tasks t).recs i true } := by
  have hset : ((w.setTask t fun s => { s with recs := update s.recs i true }).tasks t).objs =
    (w.tasks t).objs := by
    rw [setTask_self]
  unfold hook
  dsimp only
  rw [hset]
  refine ⟨fun o => ?_, fun u hu => update_of_ne hu .., update_self ..⟩
  by_cases heq : (w.tasks t).objs i = o
  · rw [if_pos heq, heq, setObj_self]
    rfl
  · rw [if_neg heq, setObj_of_ne (Ne.symm heq), append_nil]
    rfl

/-- The records of the slots are at the ends of the lists. -/
structure Hooked (w : WaitWorld) (t : Nat) (slots : List Nat) (w' : WaitWorld) : Prop where
  objs : ∀ o, w'.objs o = { w.objs o with waiters := (w.objs o).waiters ++
    (slots.filter fun i => (w.tasks t).objs i = o).map (Waiter.mk t) }
  other : ∀ u, u ≠ t → w'.tasks u = w.tasks u
  task : ∃ recs, w'.tasks t = { w.tasks t with recs } ∧ (∀ i ∈ slots, recs i) ∧
    ∀ i, (w.tasks t).recs i → recs i

/-- With room the task is in every list. -/
theorem objWaitEnqueue_spec {slots : List Nat} (hroom : slots.length ≤ room) :
    ∃ w', objWaitEnqueue w t slots room = (w', true) ∧ Hooked w t slots w' := by
  induction slots generalizing w room with
  | nil =>
    refine ⟨w, by cases room <;> rfl, fun o => ?_, fun _ _ => rfl, (w.tasks t).recs, rfl,
      fun i hi => absurd hi not_mem_nil, fun _ h => h⟩
    simp
  | cons i slots ih =>
  cases room with
  | zero => exact absurd hroom (by simp)
  | succ room =>
  obtain ⟨hobjs, hother, htask⟩ := hook_eq w t i
  obtain ⟨w', hrun, hobjs', hother', recs, htask', hslots, hkeep⟩ :=
    ih (w := w.hook t i) (le_of_succ_le_succ hroom)
  rw [htask] at hkeep
  refine ⟨w', hrun, fun o => ?_, fun u hu => (hother' u hu).trans (hother u hu),
    recs, by rw [htask', htask],
    by grind [update_apply], by grind [update_apply]⟩
  rw [hobjs', hobjs, htask]
  dsimp only
  rw [append_assoc]
  congr 2
  by_cases heq : (w.tasks t).objs i = o
  · rw [if_pos heq, filter_cons_of_pos (by simpa using heq)]
    rfl
  · rw [if_neg heq, filter_cons_of_neg (by simpa using heq)]
    rfl

theorem objWaitEnqueue_short (slots rest : List Nat) :
    objWaitEnqueue w t (slots ++ i :: rest) slots.length =
      ((objWaitEnqueue w t slots slots.length).1.undo t i, false) := by
  induction slots generalizing w with
  | nil => rfl
  | cons j slots ih => exact ih

/-- What is left on the lists when the records of the slots below `i` are given back. -/
theorem Hooked.waiters_undo (h : Hooked w t (range i) w') (o : Nat) :
    ((w'.undo t i).objs o).waiters = (w.objs o).waiters ++
      ((range i).filter ((w.tasks t).objs · = o)).head?.elim [] fun j =>
        (range (j + 1)).reverse.map (Waiter.mk t) := by
  obtain ⟨recs, htask, -⟩ := h.task
  unfold undo
  dsimp only
  rw [h.objs o, htask, length_append, length_map, Nat.add_sub_cancel, take_left]

/-- A wait that cannot be queued leaves the lists as they were exactly if no record was made for
it. -/
theorem objWaitEnqueue_undone_iff (w : WaitWorld) (t room : Nat)
    (hroom : room < (w.tasks t).count) :
    ∃ w', objWaitEnqueue w t (range (w.tasks t).count) room = (w', false) ∧
      (∀ i < room, (w'.tasks t).recs i = false) ∧
      ((∀ obj, (w'.objs obj).waiters = (w.objs obj).waiters) ↔ room = 0) := by
  obtain ⟨w1, hrun, hh⟩ : ∃ w1, objWaitEnqueue w t (range room) room = (w1, true) ∧
      Hooked w t (range room) w1 := objWaitEnqueue_spec (length_range ..).le
  have hslots : range (w.tasks t).count = range room ++ room :: range' (room + 1)
    ((w.tasks t).count - room - 1) := by
    have happ := range'_append_1 (s := 0) (m := room) (n := (w.tasks t).count - room - 1 + 1)
    rw [zero_add, range'_succ] at happ
    rw [range_eq_range', range_eq_range', happ]
    congr 1
    omega
  have hfail := objWaitEnqueue_short (w := w) (t := t) (i := room) (range room)
    (range' (room + 1) ((w.tasks t).count - room - 1))
  rw [← hslots, length_range, hrun] at hfail
  refine ⟨_, hfail, fun i hi => ?_, ?_⟩
  · unfold undo
    rw [setTask_self]
    exact if_pos hi
  constructor
  · -- The list of the object of slot 0 is longer by the record of slot 0.
    intro hsame
    by_contra hpos
    obtain ⟨n, rfl⟩ := exists_eq_succ_of_ne_zero hpos
    have hfirst := hsame ((w.tasks t).objs 0)
    rw [hh.waiters_undo, range_succ_eq_map, filter_cons_of_pos (by simp)] at hfirst
    simp at hfirst
  · rintro rfl obj
    rw [hh.waiters_undo]
    exact append_nil _

/-- A task that did not wait is queued on all its objects and blocks. -/
theorem Queues.blocks (h : Queues w stamp) (ht : ¬ w.Waits t)
    (hpast : ∀ u, w.Waits u → stamp u < calls) (hh : Hooked w t (range (w.tasks t).count) w')
    {f : WaitTask → WaitTask} (hf : ∀ s, (f s).state = .blocked ∧ (f s).waiting ∧
      (f s).count = s.count ∧
      (f s).objs = s.objs ∧ (f s).recs = s.recs) :
    Queues (w'.setTask t f) (Function.update stamp t calls) := by
  obtain ⟨recs, htask, hrecs, -⟩ := hh.task
  have hwaits := fun o r hr => h.current o r hr
  have hself : ((w'.setTask t f).tasks t).count = (w.tasks t).count ∧
      ((w'.setTask t f).tasks t).objs = (w.tasks t).objs ∧ ((w'.setTask t f).tasks t).recs = recs ∧
      (w'.setTask t f).Waits t := by
    grind [WaitWorld.Waits, setTask_self]
  have hother : ∀ u, u ≠ t → (w'.setTask t f).tasks u = w.tasks u := fun u hu =>
    (setTask_of_ne hu f).trans (hh.other u hu)
  have hlist : ∀ o, ((w'.setTask t f).objs o).waiters = (w.objs o).waiters ++
      ((range (w.tasks t).count).filter fun i => (w.tasks t).objs i = o).map (Waiter.mk t) := by
    intro o
    show (w'.objs o).waiters = _
    rw [hh.objs]
  have hnew : ∀ o r, r ∈ ((range (w.tasks t).count).filter fun i => (w.tasks t).objs i = o).map
    (Waiter.mk t) ↔
      r.task = t ∧ r.index < (w.tasks t).count ∧ (w.tasks t).objs r.index = o := by
    rintro o ⟨task, index⟩
    grind
  have hne : ∀ o, ∀ r ∈ (w.objs o).waiters, r.task ≠ t := by
    rintro o r hr rfl
    exact ht (h.current o r hr).1
  refine ⟨fun o r hr => ?_, fun u hu i hi => ?_, fun o => ?_, fun o => ?_⟩
  · rw [hlist, mem_append, hnew] at hr
    rcases hr with hr | ⟨hrt, hindex, hobj⟩
    · grind [WaitWorld.Waits]
    · rw [hrt, hself.1, hself.2.1, hself.2.2.1]
      exact ⟨hself.2.2.2, hindex, hrecs _ (mem_range.mpr hindex), hobj⟩
  · rw [hlist, mem_append, hnew]
    grind [WaitWorld.Waits, h.listed]
  · rw [hlist]
    refine nodup_append.mpr ⟨h.nodup o, ?_, by grind⟩
    exact (nodup_range.filter _).map fun i j hij => congrArg Waiter.index hij
  · rw [hlist]
    refine pairwise_append.mpr ⟨?_, ?_, fun a ha b hb => ?_⟩
    · refine (h.sorted o).imp_of_mem fun {a b} ha hb hle => ?_
      rwa [update_of_ne (hne o a ha), update_of_ne (hne o b hb)]
    · refine pairwise_of_forall_mem_list fun a ha b hb => ?_
      rw [((hnew o a).mp ha).1, ((hnew o b).mp hb).1]
    · grind

/-! ## Waiting -/

/-- Looking up the handles wakes nobody. -/
theorem waitResolve_calm (hrun : (w.tasks t).state = .running)
    (handles : List (Option Nat)) (i : Nat) :
    Calm w (waitResolve w t handles i).1 ∧
      ((waitResolve w t handles i).1.tasks t).state = .running ∧
      ((waitResolve w t handles i).1.tasks t).count = (w.tasks t).count := by
  induction handles generalizing w i with
  | nil => exact ⟨⟨rfl, fun _ _ => rfl, fun _ h => h⟩, hrun, rfl⟩
  | cons handle handles ih =>
  cases handle with
  | none => exact ⟨⟨rfl, fun _ _ => rfl, fun _ h => h⟩, hrun, rfl⟩
  | some obj =>
  rw [waitResolve]
  generalize hw1 : (w.setTask t fun s => { s with objs := update s.objs i obj }) = w1
  have hcalm : Calm w w1 := by
    rw [← hw1]
    exact calm_setTask (by grind [WaitWorld.Waits]) (by grind)
  have hself : (w1.tasks t).state = .running ∧ (w1.tasks t).count = (w.tasks t).count := by
    rw [← hw1, setTask_self]
    exact ⟨hrun, rfl⟩
  split
  · obtain ⟨hcalm', hrun', hcount'⟩ := ih hself.1 (i + 1)
    exact ⟨hcalm.trans hcalm', hrun', hcount'.trans hself.2⟩
  · exact ⟨hcalm, hself⟩

theorem nextReady_some (h : w.nextReady t = some u) : (w.tasks u).state = .ready :=
  of_decide_eq_true (find?_some (p := fun u => decide ((w.tasks u).state = .ready)) h)

/-- How the invariant stands after a wait: the task has been queued, or its records are as
before. -/
def Waited (w : WaitWorld) (stamp : Nat → Nat) (calls t : Nat)
    (out : WaitWorld × Option WaitResult) : Prop :=
  Queues out.1 (if out.2 = none then Function.update stamp t calls else stamp) ∧
    out.1.NoLostWakeup ∧
    ∀ u, out.1.Waits u → (out.2 = none ∧ u = t) ∨ w.Waits u

theorem waited_calm {result : WaitResult} (h : Queues w stamp) (hnone : w.NoLostWakeup)
    (hcalm : Calm w w') : Waited w stamp calls t (w', some result) :=
  ⟨h.calm hcalm, noLostWakeup_calm hnone hcalm, fun u hu => .inr (hcalm.waits u hu)⟩

/-- A task that blocks is queued and misses no signal. -/
theorem waitBlock_spec (h : Queues w stamp) (hnone : w.NoLostWakeup)
    (hpast : ∀ u, w.Waits u → stamp u < calls)
    (ht : ¬ w.Waits t) (heval : objWaitEval w t = none) (hroom : (w.tasks t).count ≤ room)
    (timeout : Nat) :
    Waited w stamp calls t (waitBlock w t timeout room) := by
  have hlength : (range (w.tasks t).count).length ≤ room := by rwa [length_range]
  obtain ⟨w1, hrun, hh⟩ := objWaitEnqueue_spec (w := w) (t := t) hlength
  unfold waitBlock
  rw [hrun]
  dsimp only
  rw [if_neg (by decide)]
  generalize hwake :
    (if timeout = waitForever then timeout else (timeout + w1.ticks) % 2 ^ 32) = wakeup
  generalize hw2 : (w1.setTask t fun s =>
    { s with waiting := true, result := .failed, wakeup, state := .blocked }) = w2
  obtain ⟨recs, htask, -⟩ := hh.task
  have hother : ∀ u, u ≠ t → w2.tasks u = w.tasks u := by
    intro u hu
    rw [← hw2, setTask_of_ne hu, hh.other u hu]
  have hset : (w2.tasks t).set = (w.tasks t).set := by
    rw [← hw2, setTask_self, htask]
    rfl
  have hsignal : ∀ o, (w2.objs o).signal → (w.objs o).signal := by
    intro o hs
    rw [← hw2] at hs
    have hobj := hh.objs o
    rw [show ((w1.setTask t _).objs o) = w1.objs o from rfl, hobj] at hs
    exact hs
  have hq2 : Queues w2 (update stamp t calls) := by
    rw [← hw2]
    exact h.blocks ht hpast hh fun s => ⟨rfl, rfl, rfl, rfl, rfl⟩
  have hnone2 : w2.NoLostWakeup := by
    intro u hu
    refine objWaitEval_eq_none.mpr fun hsat => ?_
    by_cases heq : u = t
    · rw [heq] at hsat
      exact objWaitEval_eq_none.mp heval (hsat.mono hset fun i _ => hsignal _)
    · unfold WaitWorld.Waits at hu
      rw [hother u heq] at hu
      exact objWaitEval_eq_none.mp (hnone u hu) (hsat.mono (congrArg WaitTask.set (hother u heq))
        fun i _ => hsignal _)
  have hback : ∀ u, w2.Waits u → u = t ∨ w.Waits u := by
    intro u hu
    by_cases heq : u = t
    · exact .inl heq
    · unfold WaitWorld.Waits at hu
      rw [hother u heq] at hu
      exact .inr hu
  cases hyield : objYieldCpu w2 t with
  | some w3 =>
    have hcalm : Calm w2 w3 := by
      unfold objYieldCpu at hyield
      cases hnext : w2.nextReady t with
      | some v =>
        rw [hnext] at hyield
        cases hyield
        have hready := nextReady_some hnext
        refine calm_setTask (fun hw => ?_) (fun hf => by cases hf.1)
        rw [hw.1] at hready
        cases hready
      | none =>
      rw [hnext] at hyield
      dsimp only at hyield
      split at hyield
      · cases hyield
      · cases hyield
        exact ⟨rfl, fun _ _ => rfl, fun _ hw => hw⟩
    refine ⟨hq2.calm hcalm, noLostWakeup_calm hnone2 hcalm, fun u hu => ?_⟩
    rcases hback u (hcalm.waits u hu) with heq | hold
    · exact .inl ⟨rfl, heq⟩
    · exact .inr hold
  | none =>
  -- There is no other task, and the wait is given up.
  have hleaves : Leaves w2 t (objWaitDequeue (w2.setTask t fun s =>
      { s with state := .running, wakeup := 0, waiting := false }) t) := by
    have hid : ∀ v : WaitWorld, v.setTask t (fun s => s) = v := by
      intro v
      unfold setTask
      rw [update_eq_self]
    rw [← hid (objWaitDequeue _ t)]
    refine (hq2.owned t).leaves (hq2.index_lt t) ⟨rfl, rfl, rfl⟩ ?_
    rintro recs ⟨⟨⟩, -⟩
  refine ⟨?_, noLostWakeup_leaves hnone2 hleaves, fun u hu => ?_⟩
  · rw [if_neg (Option.some_ne_none _)]
    refine (hq2.leaves hleaves).restamp fun u hu => ?_
    rw [update_of_ne (hleaves.waits hu).1]
  · obtain ⟨hne, hold⟩ := hleaves.waits hu
    exact .inr ((hback u hold).resolve_left hne)

/-- A wait returns at once, or blocks. -/
theorem objWaitDo_spec (h : Queues w stamp) (hnone : w.NoLostWakeup)
    (hpast : ∀ u, w.Waits u → stamp u < calls)
    (hrun : (w.tasks t).state = .running) (kind : WaitKind) (handles : Option (List (Option Nat)))
    (hroom : ∀ hs, handles = some hs → hs.length ≤ room) (timeout : Nat) (alertable : Bool) :
    Waited w stamp calls t (objWaitDo w t kind handles timeout alertable room) := by
  have hid : Calm w w := ⟨rfl, fun _ _ => rfl, fun _ hw => hw⟩
  cases handles with
  | none => exact waited_calm h hnone hid
  | some hs =>
  unfold objWaitDo
  dsimp only
  split
  · exact waited_calm h hnone hid
  split
  · exact waited_calm h hnone hid
  generalize hw1 : (w.setTask t fun s => { s with kind, count := hs.length }) = w1
  have hcalm1 : Calm w w1 := by
    rw [← hw1]
    exact calm_setTask (by grind [WaitWorld.Waits]) (by grind)
  have hself : (w1.tasks t).state = .running ∧ (w1.tasks t).count = hs.length := by
    rw [← hw1, setTask_self]
    exact ⟨hrun, rfl⟩
  obtain ⟨hcalm', hrun2, hcount2⟩ := waitResolve_calm hself.1 hs 0
  have hcalm := hcalm1.trans hcalm'
  generalize waitResolve w1 t hs 0 = resolved at hcalm hrun2 hcount2
  obtain ⟨w2, ok⟩ := resolved
  dsimp only at hcalm hrun2 hcount2 ⊢
  split
  · exact waited_calm h hnone hcalm
  have hq2 := h.calm hcalm
  have hnone2 := noLostWakeup_calm hnone hcalm
  cases heval : objWaitEval w2 t with
  | some index =>
    have hc := consumed_objWaitConsume w2 t index
    refine ⟨hq2.consumed hc, noLostWakeup_consumed hnone2 hc, fun u hu => .inr (hcalm.waits u ?_)⟩
    unfold WaitWorld.Waits at hu ⊢
    rwa [hc.tasks] at hu
  | none =>
  dsimp only
  split
  · exact waited_calm h hnone hcalm
  have hblock : Waited w2 stamp calls t (waitBlock w2 t timeout room) := by
    refine waitBlock_spec hq2 hnone2 (fun u hu => hpast u (hcalm.waits u hu)) (fun hw => ?_)
      heval ?_ timeout
    · rw [hw.1] at hrun2
      cases hrun2
    · rw [hcount2, hself.2]
      exact hroom hs rfl
  obtain ⟨hq, hn, hback⟩ := hblock
  exact ⟨hq, hn, fun u hu => (hback u hu).imp_right (hcalm.waits u)⟩

/-! ## Calls -/

/-- A timeout takes one task out. -/
theorem expire_spec (h : Queues w stamp) (hnone : w.NoLostWakeup) (t : Nat) :
    Queues (w.expire t) stamp ∧ (w.expire t).NoLostWakeup ∧ ∀ u, (w.expire t).Waits u →
    w.Waits u := by
  unfold expire
  dsimp only
  split
  · exact ⟨h, hnone, fun _ hu => hu⟩
  · have hleaves :
      Leaves w t ((objWaitDequeue (w.setTask t fun s => { s with wakeup := 0, result := .timeout })
        t).setTask t fun s => { s with state := .ready }) := by
      refine (h.owned t).leaves (h.index_lt t) ⟨rfl, rfl, rfl⟩ ?_
      rintro recs ⟨⟨⟩, -⟩
    exact ⟨h.leaves hleaves, noLostWakeup_leaves hnone hleaves, fun u hu => (hleaves.waits hu).2⟩

/-- The timeouts keep the queues. -/
theorem objWaitTimeouts_spec (h : Queues w stamp) (hnone : w.NoLostWakeup) :
    Queues (objWaitTimeouts w) stamp ∧ (objWaitTimeouts w).NoLostWakeup ∧
      ∀ u, (objWaitTimeouts w).Waits u → w.Waits u := by
  unfold objWaitTimeouts
  generalize range maxTasks = tasks
  induction tasks generalizing w with
  | nil => exact ⟨h, hnone, fun _ hu => hu⟩
  | cons t tasks ih =>
    obtain ⟨hq, hn, hback⟩ := expire_spec h hnone t
    obtain ⟨hq', hn', hback'⟩ := ih hq hn
    exact ⟨hq', hn', fun u hu => hback u (hback' u hu)⟩

theorem preempt_calm (w : WaitWorld) : Calm w w.preempt := by
  refine ⟨rfl, fun u hu => ?_, fun u hu => ?_⟩
  · exact if_neg (by rw [hu.1]; decide)
  unfold WaitWorld.Waits at hu ⊢
  unfold preempt at hu
  dsimp only at hu
  split at hu
  · cases hu.1
  · exact hu

theorem dispatch_calm (w : WaitWorld) (t : Nat) : Calm w (w.dispatch t) := by
  unfold dispatch
  by_cases hready : (w.preempt.tasks t).state = .ready
  · rw [if_pos hready]
    refine (preempt_calm w).trans (calm_setTask (fun hw => ?_) (fun hf => by cases hf.1))
    rw [hw.1] at hready
    cases hready
  · rw [if_neg hready]
    exact preempt_calm w

/-- The lists are right, nobody is left behind, and the stamps are those of past calls. -/
structure WaitInv (r : WaitRun) : Prop where
  queues : Queues r.world r.queuedAt
  served : r.world.NoLostWakeup
  past : ∀ t, r.world.Waits t → r.queuedAt t < r.calls

/-- A call that queues nobody. -/
theorem WaitInv.signals {r : WaitRun} {c : WaitCall} (h : WaitInv r) {done : List Nat}
    (hqueues : c.queues r.world = none) (hrun : c.run r.world = some (w', done))
    (hq : Queues w' r.queuedAt)
    (hnone : w'.NoLostWakeup) (hback : ∀ t, w'.Waits t → r.world.Waits t)
    (horder : InOrder r.world r.queuedAt done) :
    ∃ r', c.step r = some r' ∧ WaitInv r' ∧ r.CompletesInOrder r' := by
  have hstamp : (fun t => if c.queues r.world = some t then r.calls else r.queuedAt t) =
    r.queuedAt := by
    funext t
    rw [hqueues]
    rfl
  have hstep : c.step r = some ⟨w', r.calls + 1, r.queuedAt, done⟩ := by
    rw [WaitCall.step, hrun, hstamp]
    rfl
  exact ⟨_, hstep, ⟨hq, hnone, fun t ht => lt_succ_of_lt (h.past t (hback t ht))⟩, horder⟩

/-- Every legal call keeps the invariant and the order. -/
theorem WaitInv.step {r : WaitRun} (h : WaitInv r) (c : WaitCall) (hlegal : c.Legal r) :
    ∃ r', c.step r = some r' ∧ WaitInv r' ∧ r.CompletesInOrder r' := by
  have hnobody := inOrder_nil r.world r.queuedAt
  have hsignal : ∀ (obj : Nat) (f : WaitObj → WaitObj), (f (r.world.objs obj)).waiters =
    (r.world.objs obj).waiters →
      c.queues r.world = none → some obj ≠ some 0 →
      c.run r.world = objSignal (r.world.setObj obj f) obj →
      ∃ r', c.step r = some r' ∧ WaitInv r' ∧ r.CompletesInOrder r' := by
    intro obj f hf hqueues hzero hrun
    obtain ⟨w', done, hsig, hq, hn, hback, horder⟩ :=
      objSignal_spec h.queues h.served (fun heq => hzero (congrArg some heq)) f hf
    exact h.signals hqueues (hrun.trans hsig) hq hn hback horder
  cases c with
  | wait t kind handles timeout alertable room =>
    obtain ⟨-, hrun, hroom⟩ := hlegal
    obtain ⟨hq, hn, hback⟩ :=
      objWaitDo_spec h.queues h.served h.past hrun kind handles hroom timeout alertable
    by_cases hblocks : (objWaitDo r.world t kind handles timeout alertable room).2 = none
    · refine ⟨_, rfl, ⟨?_, hn, fun u hu => ?_⟩, hnobody⟩
      · rw [if_pos hblocks] at hq
        refine hq.restamp fun u _ => ?_
        show _ = if WaitCall.queues _ r.world = some u then r.calls else r.queuedAt u
        rw [WaitCall.queues, if_pos hblocks]
        by_cases heq : u = t
        · rw [heq, update_self, if_pos rfl]
        · grind
      · show (if WaitCall.queues _ r.world = some u then r.calls else r.queuedAt u) < r.calls + 1
        rcases hback u hu with ⟨-, rfl⟩ | hold
        · rw [WaitCall.queues, if_pos hblocks, if_pos rfl]
          exact lt_succ_self _
        · have hlt := h.past u hold
          split <;> omega
    · rw [if_neg hblocks] at hq
      refine h.signals ?_ rfl hq hn
        (fun u hu => (hback u hu).resolve_left fun hbad => hblocks hbad.1) hnobody
      rw [WaitCall.queues, if_neg hblocks]
  | eventSet obj =>
    cases obj with
    | none => exact h.signals rfl rfl h.queues h.served (fun _ hu => hu) hnobody
    | some obj =>
      refine hsignal obj (fun o => o) rfl rfl hlegal ?_
      show objSignal r.world obj = _
      rw [setObj, update_eq_self]
  | eventReset obj =>
    cases obj with
    | none => exact h.signals rfl rfl h.queues h.served (fun _ hu => hu) hnobody
    | some obj =>
    have hc : Consumed r.world (objReset r.world obj) := by
      unfold objReset
      split
      · exact .refl _
      refine ⟨rfl, fun o => ?_, fun o hs => ?_⟩
      · by_cases heq : o = obj
        · rw [heq, setObj_self]
        · rw [setObj_of_ne heq]
      · by_cases heq : o = obj
        · rw [heq, setObj_self] at hs
          cases hs
        · rwa [setObj_of_ne heq] at hs
    refine h.signals rfl rfl (h.queues.consumed hc) (noLostWakeup_consumed h.served hc)
      (fun u hu => ?_) hnobody
    have hu' : (objReset r.world obj).Waits u := hu
    unfold WaitWorld.Waits at hu' ⊢
    rwa [hc.tasks] at hu'
  | mutantRelease obj =>
    cases obj with
    | none => exact h.signals rfl rfl h.queues h.served (fun _ hu => hu) hnobody
    | some obj => exact hsignal obj (fun o => { o with word0 := 0, word1 := 0 }) rfl rfl hlegal rfl
  | semaphoreRelease obj n =>
    cases obj with
    | none => exact h.signals rfl rfl h.queues h.served (fun _ hu => hu) hnobody
    | some obj =>
      by_cases hrefused : n = 0 ∨ (r.world.objs obj).word1 < ((r.world.objs obj).word0 + n) % 2 ^ 32
      · refine h.signals rfl ?_ h.queues h.served (fun _ hu => hu) hnobody
        exact if_pos hrefused
      · refine hsignal obj (fun o => { o with word0 := ((r.world.objs obj).word0 + n) % 2 ^ 32 })
          rfl rfl hlegal ?_
        exact if_neg hrefused
  | timeouts ticks =>
    have hcalm : Calm r.world { r.world with ticks } := ⟨rfl, fun _ _ => rfl, fun _ hu => hu⟩
    obtain ⟨hq, hn, hback⟩ :=
      objWaitTimeouts_spec (h.queues.calm hcalm) (noLostWakeup_calm h.served hcalm)
    exact h.signals rfl rfl hq hn hback hnobody
  | dispatch t =>
    have hcalm := dispatch_calm r.world t
    exact h.signals rfl rfl (h.queues.calm hcalm) (noLostWakeup_calm h.served hcalm)
      hcalm.waits hnobody

/-! ## Who is woken -/

/-- The start of a run. -/
def WaitRun.initial (w : WaitWorld) : WaitRun :=
  { world := w, calls := 0, queuedAt := fun _ => 0, completed := [] }

/-- The invariant holds before the first call. -/
theorem WaitWorld.Quiescent.inv (h : w.Quiescent) : WaitInv (.initial w) := by
  refine ⟨⟨fun o r hr => ?_, fun t ht => absurd ht (h.tasks t), fun o => ?_, fun o => ?_⟩,
    fun t ht => absurd ht (h.tasks t), fun t ht => absurd ht (h.tasks t)⟩
  · rw [WaitRun.initial, h.waiters] at hr
    exact absurd hr not_mem_nil
  · rw [WaitRun.initial, h.waiters]
    exact nodup_nil
  · rw [WaitRun.initial, h.waiters]
    exact List.Pairwise.nil

/-- Tasks 0, 1 and 2, and auto-reset events that are not signalled. -/
def eventWorld : WaitWorld where
  objs _ := { type := .event, signal := false, word0 := 0, word1 := 0, waiters := [] }
  tasks t :=
    { state := if t = 0 then .running else if t < 3 then .ready else .free
      kind := .one, count := 0, objs := fun _ => 0, recs := fun _ => false, waiting :=
      false, result := .failed
      wakeup := 0, pending := false }
  ticks := 0

/-- Task 0 waits for the events at 16 and 32. -/
def pairWorld : WaitWorld :=
  eventWorld.setTask 0 fun s => { s with count := 2, objs := fun i => 16 * (i + 1) }

/-- There is a record for the first event only, or there is none. -/
theorem objWaitEnqueue_undone_pair :
    (∃ w', objWaitEnqueue pairWorld 0 (range 2) 1 = (w', false) ∧
      (∀ i < 1, (w'.tasks 0).recs i = false) ∧
      ((∀ obj, (w'.objs obj).waiters = (pairWorld.objs obj).waiters) ↔ 1 = 0)) ∧
    ∃ w', objWaitEnqueue pairWorld 0 (range 2) 0 = (w', false) ∧
      ∀ obj, (w'.objs obj).waiters = (pairWorld.objs obj).waiters := by
  obtain ⟨w', hrun, -, hiff⟩ := objWaitEnqueue_undone_iff pairWorld 0 0 (by decide)
  exact ⟨objWaitEnqueue_undone_iff pairWorld 0 1 (by decide), w', hrun, hiff.mpr rfl⟩

/-- That record is given back, and the first event still lists it. -/
theorem objWaitEnqueue_leaves_record :
    (pairWorld.objs 16).waiters = [] ∧ (objWaitEnqueue pairWorld 0 (range 2) 1).2 = false ∧
      ((objWaitEnqueue pairWorld 0 (range 2) 1).1.objs 16).waiters =
      [{ task := 0, index := 0 }] := by
  decide

end Mellivora
