import Mathlib.Algebra.Ring.Nat
import Mathlib.Data.List.Basic

/-!
# Runs of a deterministic machine

A machine takes operations one after the other. What an invariant needs from each operation may
depend on the state it is called in; `Along` says that a property of operation and state holds at
every call of a run.
-/

namespace Runs

variable {σ α : Type*} {step : α → σ → σ} {C P : α → σ → Prop} {I : σ → Prop} {ops : List α} {s : σ}

/-- The state after the operations, the first of the list first. -/
def after (step : α → σ → σ) (s : σ) (ops : List α) : σ := ops.foldl (fun s a => step a s) s

@[simp] theorem after_nil (s : σ) : after step s [] = s := rfl

@[simp] theorem after_cons (s : σ) (a : α) (ops : List α) :
    after step s (a :: ops) = after step (step a s) ops := rfl

/-- `P` holds of every operation and the state it is called in. -/
def Along (step : α → σ → σ) (P : α → σ → Prop) : List α → σ → Prop
  | [], _ => True
  | a :: ops, s => P a s ∧ Along step P ops (step a s)

/-- An invariant that every operation keeps where `C` holds survives a run on which it always
does. -/
theorem Along.invariant (hstep : ∀ a s, I s → C a s → I (step a s))
    (hs : I s) (h : Along step C ops s) : I (after step s ops) := by
  induction ops generalizing s with
  | nil => exact hs
  | cons a ops ih => exact ih (hstep a s hs h.1) h.2

/-- An invariant that every operation keeps holds after every run. -/
theorem after_invariant (hstep : ∀ a s, I s → I (step a s)) (hs : I s) (ops : List α) :
    I (after step s ops) := by
  induction ops generalizing s with
  | nil => exact hs
  | cons a ops ih => exact ih (hstep a s hs)

/-- And what every call guarantees under the invariant, it guarantees along the run. -/
theorem Along.guarantee (hstep : ∀ a s, I s → C a s → I (step a s))
    (hcall : ∀ a s, I s → C a s → P a s)
    (hs : I s) (h : Along step C ops s) : Along step P ops s := by
  induction ops generalizing s with
  | nil => trivial
  | cons a ops ih => exact ⟨hcall a s hs h.1, ih (hstep a s hs h.1) h.2⟩

/-! ## Operations that may run forever -/

section Partial

variable {step : α → σ → Option σ}

/-- The state after the operations, if all of them come to an end. -/
def afterAll (step : α → σ → Option σ) : σ → List α → Option σ
  | s, [] => some s
  | s, a :: ops => (step a s).bind fun s' => afterAll step s' ops

/-- `P` holds of every operation and the state it is called in, as far as the run gets. -/
def AlongAll (step : α → σ → Option σ) (P : α → σ → Prop) : List α → σ → Prop
  | [], _ => True
  | a :: ops, s => P a s ∧ ∀ s', step a s = some s' → AlongAll step P ops s'

theorem AlongAll.and (hC : AlongAll step C ops s) (hP : AlongAll step P ops s) :
    AlongAll step (fun a s => C a s ∧ P a s) ops s := by
  induction ops generalizing s with
  | nil => trivial
  | cons a ops ih => exact ⟨⟨hC.1, hP.1⟩, fun s' hs' => ih (hC.2 s' hs') (hP.2 s' hs')⟩

/-- What holds along a run holds along the first part of it. -/
theorem AlongAll.left {ops ops' : List α} (h : AlongAll step P (ops ++ ops') s) :
    AlongAll step P ops s := by
  induction ops generalizing s with
  | nil => trivial
  | cons a ops ih => exact ⟨h.1, fun s' hs' => ih (h.2 s' hs')⟩

theorem AlongAll.right {ops ops' : List α} {s t : σ} (h : AlongAll step P (ops ++ ops') s)
    (ht : afterAll step s ops = some t) : AlongAll step P ops' t := by
  induction ops generalizing s with
  | nil =>
    cases ht
    exact h
  | cons a ops ih =>
    obtain ⟨s', hs', hrun⟩ := Option.bind_eq_some_iff.mp ht
    exact ih (h.2 s' hs') hrun

/-- Where every operation comes to an end and keeps an invariant, so does the run. -/
theorem AlongAll.invariant (hstep : ∀ a s, I s → C a s → ∃ s', step a s = some s' ∧ I s')
    (hs : I s) (h : AlongAll step C ops s) : ∃ s', afterAll step s ops = some s' ∧ I s' := by
  induction ops generalizing s with
  | nil => exact ⟨s, rfl, hs⟩
  | cons a ops ih =>
    obtain ⟨t, ht, hI⟩ := hstep a s hs h.1
    obtain ⟨s', hrun, hs'⟩ := ih hI (h.2 t ht)
    refine ⟨s', ?_, hs'⟩
    rw [afterAll, ht]
    exact hrun

/-- And what every call guarantees under the invariant, it guarantees along the run. -/
theorem AlongAll.guarantee (hstep : ∀ a s, I s → C a s → ∃ s', step a s = some s' ∧ I s')
    (hcall : ∀ a s, I s → C a s → P a s) (hs : I s) (h : AlongAll step C ops s) :
    AlongAll step P ops s := by
  induction ops generalizing s with
  | nil => trivial
  | cons a ops ih =>
    refine ⟨hcall a s hs h.1, fun s' hs' => ?_⟩
    obtain ⟨t, ht, hI⟩ := hstep a s hs h.1
    obtain rfl : t = s' := Option.some.inj (ht.symm.trans hs')
    exact ih hI (h.2 t hs')

end Partial

end Runs
