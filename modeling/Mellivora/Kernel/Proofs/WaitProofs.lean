import Mellivora.Kernel.Waits

/-!
# Proofs: waiting for objects

The lists of waiters hold the records of the sets that tasks are blocked on and no others
(`Queues`).
-/

namespace Mellivora

open Function List WaitWorld

variable {w1 : WaitWorld} {p : Waiter → Bool} {w w' : WaitWorld} {stamp : Nat → Nat}
  {t u obj i : Nat}

@[simp] theorem WaitWorld.setObj_self (f : WaitObj → WaitObj) :
    (w.setObj obj f).objs obj = f (w.objs obj) :=
  update_self ..

theorem WaitWorld.setObj_of_ne {o : Nat} (h : o ≠ obj) (f : WaitObj → WaitObj) :
    (w.setObj obj f).objs o = w.objs o :=
  update_of_ne h ..

@[simp] theorem WaitWorld.setTask_self (f : WaitTask → WaitTask) :
    (w.setTask t f).tasks t = f (w.tasks t) :=
  update_self ..

theorem WaitWorld.setTask_of_ne (h : u ≠ t) (f : WaitTask → WaitTask) :
    (w.setTask t f).tasks u = w.tasks u :=
  update_of_ne h ..

/-! ## Sets -/

/-- The signals a task waits for are there. -/
def WaitWorld.Satisfied (w : WaitWorld) (t : Nat) : Prop :=
  if (w.tasks t).kind = .all then ∀ i < (w.tasks t).count, (w.objs ((w.tasks t).objs i)).signal
  else ∃ i < (w.tasks t).count, (w.objs ((w.tasks t).objs i)).signal

/-- `obj_wait_eval` finds a wait satisfied exactly when it is. -/
theorem objWaitEval_ne_none : objWaitEval w t ≠ none ↔ w.Satisfied t := by
  have hany : (w.signalled t).head? ≠ none ↔
    ∃ i < (w.tasks t).count, (w.objs ((w.tasks t).objs i)).signal := by
    rw [ne_eq, head?_eq_none_iff, eq_nil_iff_forall_not_mem]
    simp only [signalled, mem_filter, mem_range, not_forall, not_not]
  unfold objWaitEval WaitWorld.Satisfied
  cases hkind : (w.tasks t).kind with
  | one => exact hany
  | any => exact hany
  | all =>
  have hall : (w.signalled t).length < (w.tasks t).count ↔
      ¬ ∀ i < (w.tasks t).count, (w.objs ((w.tasks t).objs i)).signal := by
    have hle :=
      length_filter_le (fun i => (w.objs ((w.tasks t).objs i)).signal) (range (w.tasks t).count)
    have hiff : (w.signalled t).length = (range (w.tasks t).count).length ↔
        ∀ i ∈ range (w.tasks t).count, (w.objs ((w.tasks t).objs i)).signal :=
      length_filter_eq_length_iff
    rw [length_range] at hle hiff
    simp only [mem_range] at hiff
    rw [← hiff]
    unfold signalled at *
    omega
  simp only [if_true, ne_eq, ite_eq_left_iff, reduceCtorEq, imp_false, not_not, hall]

theorem objWaitEval_eq_none : objWaitEval w t = none ↔ ¬ w.Satisfied t := by
  rw [← objWaitEval_ne_none, ne_eq, not_not]

/-- What a task waits for. -/
def WaitTask.set (s : WaitTask) : WaitKind × Nat × (Nat → Nat) := (s.kind, s.count, s.objs)

theorem WaitWorld.Satisfied.mono (h : w'.Satisfied t) (hset : (w'.tasks t).set = (w.tasks t).set)
    (hsignal : ∀ i < (w.tasks t).count,
      (w'.objs ((w.tasks t).objs i)).signal → (w.objs ((w.tasks t).objs i)).signal) :
      w.Satisfied t := by
  obtain ⟨hkinds, hcounts, hobjs⟩ : (w'.tasks t).kind = (w.tasks t).kind ∧
      (w'.tasks t).count = (w.tasks t).count ∧ (w'.tasks t).objs = (w.tasks t).objs := by
    simpa only [WaitTask.set, Prod.mk.injEq] using hset
  unfold Satisfied at h ⊢
  rw [hkinds, hcounts, hobjs] at h
  by_cases hkind : (w.tasks t).kind = .all
  · rw [if_pos hkind] at h ⊢
    exact fun i hi => hsignal i hi (h i hi)
  · grind

/-! ## Consuming -/

/-- Signals are taken, and nothing else changes for those that wait. -/
structure Consumed (w w' : WaitWorld) : Prop where
  tasks : w'.tasks = w.tasks
  waiters : ∀ o, (w'.objs o).waiters = (w.objs o).waiters
  signal : ∀ o, (w'.objs o).signal → (w.objs o).signal

theorem Consumed.refl (w : WaitWorld) : Consumed w w := ⟨rfl, fun _ => rfl, fun _ h => h⟩

theorem Consumed.trans (h : Consumed w w1) (h' : Consumed w1 w') : Consumed w w' :=
  ⟨h'.tasks.trans h.tasks, fun o => (h'.waiters o).trans (h.waiters o),
    fun o hs => h.signal o (h'.signal o hs)⟩

/-- A signal is only taken away. -/
theorem objConsumeOne_spec (o : WaitObj) :
    (objConsumeOne o).waiters = o.waiters ∧ ((objConsumeOne o).signal → o.signal) := by
  unfold objConsumeOne
  split
  · grind
  · grind
  · exact ⟨rfl, nofun⟩
  · exact ⟨rfl, fun h => h⟩

theorem consumed_one (w : WaitWorld) (obj : Nat) : Consumed w (w.setObj obj objConsumeOne) := by
  have hobj := objConsumeOne_spec (w.objs obj)
  refine ⟨rfl, fun o => ?_, fun o hs => ?_⟩
  · by_cases heq : o = obj
    · rw [heq, setObj_self]
      exact hobj.1
    · rw [setObj_of_ne heq]
  · by_cases heq : o = obj
    · rw [heq, setObj_self] at hs
      rw [heq]
      exact hobj.2 hs
    · rwa [setObj_of_ne heq] at hs

/-- A wait that ends only takes signals away. -/
theorem consumed_objWaitConsume (w : WaitWorld) (t index : Nat) :
    Consumed w (objWaitConsume w t index) := by
  have hfold : ∀ (slots : List Nat) (w1 : WaitWorld), Consumed w1
      (slots.foldl (fun w' i => w'.setObj ((w.tasks t).objs i) objConsumeOne) w1) := by
    intro slots
    induction slots with
    | nil => exact fun w1 => .refl w1
    | cons i slots ih => exact fun w1 => (consumed_one w1 _).trans (ih _)
  unfold objWaitConsume
  cases (w.tasks t).kind with
  | all => exact hfold _ w
  | one => exact consumed_one w _
  | any => exact consumed_one w _

/-! ## Leaving the lists -/

/-- The object with only the waiters that `p` keeps. -/
def WaitObj.keep (o : WaitObj) (p : Waiter → Bool) : WaitObj :=
  { o with waiters := o.waiters.filter p }

theorem WaitObj.keep_of_forall {o : WaitObj} (h : ∀ r ∈ o.waiters, p r) : o.keep p = o := by
  unfold keep
  rw [filter_eq_self.mpr h]

theorem WaitObj.keep_keep (o : WaitObj) (p q : Waiter → Bool) :
    (o.keep p).keep q = o.keep fun r => p r && q r := by
  unfold keep
  rw [filter_filter]
  simp only [Bool.and_comm]

/-- The records of a task are those that its set knows of. -/
structure Owned (w : WaitWorld) (t : Nat) : Prop where
  nodup : ∀ o, (w.objs o).waiters.Nodup
  own : ∀ o, ∀ r ∈ (w.objs o).waiters, r.task = t → (w.tasks t).recs r.index ∧
    (w.tasks t).objs r.index = o

attribute [local grind cases] Owned

/-- Some records are taken off the lists, and the set of a task knows which. -/
structure Unhooked (w : WaitWorld) (t : Nat) (p : Waiter → Bool) (w' : WaitWorld) : Prop where
  objs : ∀ o, w'.objs o = (w.objs o).keep p
  other : ∀ u, u ≠ t → w'.tasks u = w.tasks u
  task : ∃ recs, w'.tasks t = { w.tasks t with recs } ∧ ∀ j, p { task := t, index := j } →
    recs j = (w.tasks t).recs j

attribute [local grind cases] Unhooked

/-- One record leaves its list. -/
theorem Owned.unhook (h : Owned w t) (i : Nat) :
    Unhooked w t (fun r => r ≠ { task := t, index := i }) (w.unhook t i) := by
  unfold WaitWorld.unhook
  have hsame : ∀ o, { task := t, index := i } ∉ (w.objs o).waiters →
      (w.objs o).keep (fun r => r ≠ { task := t, index := i }) = w.objs o := by
    intro o hout
    refine WaitObj.keep_of_forall fun r hr => decide_eq_true ?_
    rintro rfl
    exact hout hr
  have hid : (∀ o, { task := t, index := i } ∉ (w.objs o).waiters) →
      Unhooked w t (fun r => r ≠ { task := t, index := i }) w := by
    intro hout
    exact ⟨fun o => (hsame o (hout o)).symm, fun _ _ => rfl, (w.tasks t).recs, rfl, fun _ _ => rfl⟩
  by_cases hrec : (w.tasks t).recs i
  · rw [if_pos hrec]
    by_cases hmem : { task := t, index := i } ∈ (w.objs ((w.tasks t).objs i)).waiters
    · rw [if_pos hmem]
      refine ⟨fun o => ?_, fun u hu => ?_, update (w.tasks t).recs i false, ?_, fun j hj => ?_⟩
      · by_cases heq : o = (w.tasks t).objs i
        · rw [heq]
          simp only [setTask, setObj, update_self, WaitObj.keep]
          rw [(h.nodup _).erase_eq_filter]
          simp only [ne_eq, decide_not]
          rfl
        · rw [hsame o]
          · simp only [setTask, setObj, update_of_ne heq]
          · intro hin
            exact heq (h.own o _ hin rfl).2.symm
      · simp only [setTask, setObj, update_of_ne hu]
      · simp only [setTask, setObj, update_self]
      · rw [update_of_ne]
        rintro rfl
        simp at hj
    · grind
  · rw [if_neg hrec]
    exact hid fun o hin => hrec (h.own o _ hin rfl).1

theorem Unhooked.owned (hun : Unhooked w t p w') (h : Owned w t) : Owned w' t := by
  obtain ⟨recs, htask, hrecs⟩ := hun.task
  refine ⟨fun o => ?_, fun o r hr hrt => ?_⟩
  · rw [hun.objs]
    exact (h.nodup o).filter p
  rw [hun.objs] at hr
  obtain ⟨hr, hp⟩ := mem_filter.mp hr
  obtain ⟨hrec, hobj⟩ := h.own o r hr hrt
  rw [htask]
  obtain ⟨task, index⟩ := r
  dsimp only at hrt
  subst hrt
  exact ⟨(hrecs index hp).trans hrec, hobj⟩

theorem Unhooked.trans {q : Waiter → Bool} (h : Unhooked w t p w1) (h' : Unhooked w1 t q w') :
    Unhooked w t (fun r => p r && q r) w' := by
  obtain ⟨recs, htask, hrecs⟩ := h.task
  obtain ⟨recs', htask', hrecs'⟩ := h'.task
  refine ⟨fun o => ?_, fun u hu => ?_, recs', ?_, fun j hj => ?_⟩
  · rw [h'.objs, h.objs, WaitObj.keep_keep]
  · rw [h'.other u hu, h.other u hu]
  · rw [htask', htask]
  · grind

/-- A task leaves the lists it waits in, and only those. -/
theorem Owned.unhookAll (h : Owned w t) (slots : List Nat) :
    Unhooked w t (fun r => ¬ (r.task = t ∧ r.index ∈ slots))
    (slots.foldl (fun w i => w.unhook t i) w) := by
  induction slots generalizing w with
  | nil =>
    refine ⟨fun o => ?_, fun _ _ => rfl, (w.tasks t).recs, rfl, fun _ _ => rfl⟩
    rw [WaitObj.keep_of_forall]
    · rfl
    · intro r _
      simp
  | cons i slots ih =>
  have hone := h.unhook i
  have hrest := hone.trans (ih (hone.owned h))
  have hkeep : (fun r : Waiter => decide ¬ (r.task = t ∧ r.index ∈ i :: slots)) = fun r =>
      decide (r ≠ { task := t, index := i }) && decide ¬ (r.task = t ∧ r.index ∈ slots) := by
    funext ⟨task, index⟩
    by_cases htask : task = t <;> by_cases hindex : index = i <;> simp [htask, hindex]
  rw [hkeep]
  exact hrest

/-- A task is not blocked on its set any more, and its records are gone. -/
structure Leaves (w : WaitWorld) (t : Nat) (w' : WaitWorld) : Prop where
  objs : ∀ o, w'.objs o = (w.objs o).keep fun r => r.task ≠ t
  other : ∀ u, u ≠ t → w'.tasks u = w.tasks u
  gone : ¬ w'.Waits t

/-- Something is noted in the task, its records are taken off the lists, and something else is
noted. -/
theorem Owned.leaves (h : Owned w t)
    (hcount : ∀ o, ∀ r ∈ (w.objs o).waiters, r.task = t → r.index < (w.tasks t).count)
    {f g : WaitTask → WaitTask} (hf : (f (w.tasks t)).count = (w.tasks t).count ∧
      (f (w.tasks t)).objs = (w.tasks t).objs ∧ (f (w.tasks t)).recs = (w.tasks t).recs)
    (hg : ∀ recs, ¬ ((g { f (w.tasks t) with recs }).state = .blocked ∧
      (g { f (w.tasks t) with recs }).waiting)) :
    Leaves w t ((objWaitDequeue (w.setTask t f) t).setTask t g) := by
  have hself : (w.setTask t f).tasks t = f (w.tasks t) := setTask_self f
  have howned : Owned (w.setTask t f) t := by
    refine ⟨h.nodup, fun o r hr hrt => ?_⟩
    rw [hself, hf.2.1, hf.2.2]
    exact h.own o r hr hrt
  obtain ⟨hobjs, hother, recs, htask, -⟩ := howned.unhookAll (range ((w.setTask t f).tasks t).count)
  refine ⟨fun o => ?_, fun u hu => ?_, ?_⟩
  · show (objWaitDequeue (w.setTask t f) t).objs o = _
    refine (hobjs o).trans ?_
    show (w.objs o).keep _ = _
    unfold WaitObj.keep
    congr 1
    refine filter_congr fun r hr => ?_
    by_cases hrt : r.task = t
    · have hlt := hcount o r hr hrt
      rw [hself, hf.1]
      simp [hrt, hlt]
    · simp [hrt]
  · rw [setTask_of_ne hu]
    refine (hother u hu).trans ?_
    rw [setTask_of_ne hu]
  · unfold WaitWorld.Waits
    rw [setTask_self, objWaitDequeue, htask, hself]
    exact hg recs

/-! ## The invariant -/

/-- The lists hold the records of the sets that tasks are blocked on, in the order in which they
were queued. -/
structure Queues (w : WaitWorld) (stamp : Nat → Nat) : Prop where
  current : w.RecordsCurrent
  listed : ∀ t, w.Waits t → ∀ i < (w.tasks t).count,
    { task := t, index := i } ∈ (w.objs ((w.tasks t).objs i)).waiters
  nodup : ∀ o, (w.objs o).waiters.Nodup
  sorted : ∀ o, (w.objs o).waiters.Pairwise fun a b => stamp a.task ≤ stamp b.task

attribute [local grind cases] Queues

theorem Queues.owned (h : Queues w stamp) (t : Nat) : Owned w t := by
  refine ⟨h.nodup, fun o r hr hrt => ?_⟩
  obtain ⟨-, -, hrec, hobj⟩ := h.current o r hr
  rw [hrt] at hrec hobj
  exact ⟨hrec, hobj⟩

theorem Queues.index_lt (h : Queues w stamp) (t : Nat) :
    ∀ o, ∀ r ∈ (w.objs o).waiters, r.task = t → r.index < (w.tasks t).count := by
  rintro o r hr rfl
  exact (h.current o r hr).2.1

theorem Queues.restamp {stamp' : Nat → Nat} (h : Queues w stamp)
    (hsame : ∀ u, w.Waits u → stamp u = stamp' u) :
    Queues w stamp' := by
  refine { h with sorted := fun o => (h.sorted o).imp_of_mem fun {a b} ha hb hle => ?_ }
  rw [← hsame _ (h.current o a ha).1, ← hsame _ (h.current o b hb).1]
  exact hle

/-- Signals taken away wake nobody. -/
theorem Queues.consumed (h : Queues w stamp) (hc : Consumed w w') : Queues w' stamp := by
  refine ⟨fun o r hr => ?_, fun t ht i hi => ?_, fun o => ?_, fun o => ?_⟩
  · rw [hc.waiters] at hr
    unfold WaitWorld.Waits
    rw [hc.tasks]
    exact h.current o r hr
  · unfold WaitWorld.Waits at ht
    rw [hc.tasks] at ht hi ⊢
    rw [hc.waiters]
    exact h.listed t ht i hi
  · rw [hc.waiters]
    exact h.nodup o
  · rw [hc.waiters]
    exact h.sorted o

theorem noLostWakeup_consumed (h : w.NoLostWakeup) (hc : Consumed w w') : w'.NoLostWakeup := by
  intro t ht
  unfold WaitWorld.Waits at ht
  rw [hc.tasks] at ht
  refine objWaitEval_eq_none.mpr fun hsat => objWaitEval_eq_none.mp (h t ht) ?_
  exact hsat.mono (by rw [hc.tasks]) fun i _ => hc.signal _

theorem Leaves.waits (h : Leaves w t w') (hu : w'.Waits u) : u ≠ t ∧ w.Waits u := by
  have hne : u ≠ t := by
    rintro rfl
    exact h.gone hu
  unfold WaitWorld.Waits at hu ⊢
  rw [h.other u hne] at hu
  exact ⟨hne, hu⟩

/-- The others' places stay when a task leaves. -/
theorem Queues.leaves (h : Queues w stamp) (hl : Leaves w t w') : Queues w' stamp := by
  refine ⟨fun o r hr => ?_, fun u hu i hi => ?_, fun o => ?_, fun o => ?_⟩
  · rw [hl.objs] at hr
    obtain ⟨hr, hne⟩ := mem_filter.mp hr
    have hother := hl.other r.task (of_decide_eq_true hne)
    unfold WaitWorld.Waits
    rw [hother]
    exact h.current o r hr
  · obtain ⟨hne, hu⟩ := hl.waits hu
    rw [hl.other u hne] at hi ⊢
    rw [hl.objs]
    exact mem_filter.mpr ⟨h.listed u hu i hi, decide_eq_true hne⟩
  · rw [hl.objs]
    exact (h.nodup o).filter _
  · rw [hl.objs]
    exact (h.sorted o).filter _

theorem Leaves.satisfied (h : Leaves w t w') (hne : u ≠ t) (hsat : w'.Satisfied u) :
    w.Satisfied u := by
  refine hsat.mono (congrArg WaitTask.set (h.other u hne)) fun i _ hs => ?_
  rw [h.objs] at hs
  exact hs

theorem noLostWakeup_leaves (h : w.NoLostWakeup) (hl : Leaves w t w') : w'.NoLostWakeup := by
  intro u hu
  obtain ⟨hne, hu⟩ := hl.waits hu
  exact objWaitEval_eq_none.mpr fun hsat => objWaitEval_eq_none.mp (h u hu) (hl.satisfied hne hsat)

/-- Nothing changes for those that wait, and nobody else does. -/
structure Calm (w w' : WaitWorld) : Prop where
  objs : w'.objs = w.objs
  same : ∀ u, w.Waits u → w'.tasks u = w.tasks u
  waits : ∀ u, w'.Waits u → w.Waits u

attribute [local grind cases] Calm

theorem Calm.trans (h : Calm w w1) (h' : Calm w1 w') : Calm w w' := by
  refine ⟨h'.objs.trans h.objs, fun u hu => ?_, fun u hu => h.waits u (h'.waits u hu)⟩
  have hsame := h.same u hu
  refine (h'.same u ?_).trans hsame
  unfold WaitWorld.Waits at hu ⊢
  rwa [hsame]

/-- A task that does not wait changes. -/
theorem calm_setTask (ht : ¬ w.Waits t) {f : WaitTask → WaitTask}
    (hf : ¬ ((f (w.tasks t)).state = .blocked ∧ (f (w.tasks t)).waiting)) :
    Calm w (w.setTask t f) := by
  refine ⟨rfl, fun u hu => ?_, fun u hu => ?_⟩
  · have hne : u ≠ t := by
      rintro rfl
      exact ht hu
    exact setTask_of_ne hne _
  · by_cases heq : u = t
    · rw [heq, WaitWorld.Waits, setTask_self] at hu
      exact absurd hu hf
    · rw [WaitWorld.Waits, setTask_of_ne heq] at hu
      exact hu

/-- A call that wakes and queues nobody keeps the queues. -/
theorem Queues.calm (h : Queues w stamp) (hc : Calm w w') : Queues w' stamp := by
  refine ⟨fun o r hr => ?_, fun u hu i hi => ?_, fun o => ?_, fun o => ?_⟩
  · rw [hc.objs] at hr
    obtain ⟨hw, hrest⟩ := h.current o r hr
    unfold WaitWorld.Waits
    rw [hc.same _ hw]
    exact ⟨hw, hrest⟩
  · grind
  · rw [hc.objs]
    exact h.nodup o
  · rw [hc.objs]
    exact h.sorted o

theorem noLostWakeup_calm (h : w.NoLostWakeup) (hc : Calm w w') : w'.NoLostWakeup := by
  intro u hu
  have hold := hc.waits u hu
  refine objWaitEval_eq_none.mpr fun hsat => objWaitEval_eq_none.mp (h u hold) ?_
  refine hsat.mono (congrArg WaitTask.set (hc.same u hold)) fun i _ hs => ?_
  rwa [hc.objs] at hs

end Mellivora
