import Mathlib.Algebra.Ring.Nat
import Mathlib.Data.List.TakeDrop

/-!
# Stores, lists of writes, and cuts

A store is a function from addresses to values. A program that writes to it one address at a time
leaves a list of writes behind, and a power cut keeps a prefix of that list: a property that has to
survive the cut is one that holds after every prefix.

The second half is about undo lists: writes whose values are all read off one earlier store. Such a
list may be applied in any order, any number of times, and from any prefix of itself.
-/

namespace WriteLog

open Function List

variable {α β : Type*} [DecidableEq α] {ws : List (α × β)} {a : α}

/-- The store after a list of writes, the first of the list applied first. -/
def afterWrites (d : α → β) (ws : List (α × β)) : α → β :=
  ws.foldl (fun d w => update d w.1 w.2) d

@[simp] theorem afterWrites_nil (d : α → β) : afterWrites d [] = d := rfl

@[simp] theorem afterWrites_cons (d : α → β) (w : α × β) (ws : List (α × β)) :
    afterWrites d (w :: ws) = afterWrites (update d w.1 w.2) ws := rfl

theorem afterWrites_append (d : α → β) (ws vs : List (α × β)) :
    afterWrites d (ws ++ vs) = afterWrites (afterWrites d ws) vs :=
  foldl_append

theorem afterWrites_of_notMem (d : α → β) (h : a ∉ ws.map Prod.fst) : afterWrites d ws a = d a := by
  induction ws generalizing d with
  | nil => rfl
  | cons w ws ih =>
    simp only [map_cons, mem_cons, not_or] at h
    rw [afterWrites_cons, ih _ h.2, update_of_ne h.1]

/-- What an address holds in the end depends on what it held before and on the writes. -/
theorem afterWrites_congr_at {d d' : α → β} (ws : List (α × β)) (h : d a = d' a) :
    afterWrites d ws a = afterWrites d' ws a := by
  induction ws generalizing d d' with
  | nil => exact h
  | cons w ws ih =>
    rw [afterWrites_cons, afterWrites_cons]
    refine ih ?_
    by_cases ha : a = w.1
    · rw [ha, update_self, update_self]
    · rw [update_of_ne ha, update_of_ne ha, h]

/-- A property of the old value and of every value written at an address holds of the last one. -/
theorem afterWrites_prop {P : β → Prop} (d : α → β) (h0 : P (d a))
    (h : ∀ w ∈ ws, w.1 = a → P w.2) : P (afterWrites d ws a) := by
  induction ws generalizing d with
  | nil => exact h0
  | cons w ws ih =>
    refine ih (update d w.1 w.2) ?_ fun v hv => h v (mem_cons_of_mem _ hv)
    by_cases ha : a = w.1
    · subst ha
      rw [update_self]
      exact h w (mem_cons_self ..) rfl
    · rwa [update_of_ne ha]

/-- When no address is written twice, each holds what was written to it. -/
theorem afterWrites_of_mem_nodup (d : α → β) (hnd : (ws.map Prod.fst).Nodup)
    {w : α × β} (hw : w ∈ ws) : afterWrites d ws w.1 = w.2 := by
  induction ws generalizing d with
  | nil => simp at hw
  | cons v ws ih =>
    rw [map_cons, nodup_cons] at hnd
    rcases mem_cons.mp hw with rfl | hw
    · rw [afterWrites_cons, afterWrites_of_notMem _ hnd.1, update_self]
    · exact ih _ hnd.2 hw

/-! ## Cuts -/

/-- `P` holds of the store at every point where the writes may be cut, both ends included. -/
def Throughout (P : (α → β) → Prop) (d : α → β) (ws : List (α × β)) : Prop :=
  ∀ k, P (afterWrites d (ws.take k))

variable {P : (α → β) → Prop} {d : α → β}

theorem throughout_nil : Throughout P d [] ↔ P d := by
  simp [Throughout]

theorem Throughout.start (h : Throughout P d ws) : P d := by
  simpa using h 0

theorem Throughout.finish (h : Throughout P d ws) : P (afterWrites d ws) := by
  simpa using h ws.length

theorem throughout_cons {w : α × β} :
    Throughout P d (w :: ws) ↔ P d ∧ Throughout P (update d w.1 w.2) ws := by
  constructor
  · intro h
    exact ⟨h.start, fun k => by simpa using h (k + 1)⟩
  · rintro ⟨h0, h⟩ k
    cases k with
    | zero => simpa using h0
    | succ k => simpa using h k

/-- At every moment of two runs of writes. -/
theorem throughout_append {ws vs : List (α × β)} :
    Throughout P d (ws ++ vs) ↔ Throughout P d ws ∧ Throughout P (afterWrites d ws) vs := by
  induction ws generalizing d with
  | nil =>
    rw [nil_append, afterWrites_nil, throughout_nil]
    exact ⟨fun h => ⟨h.start, h⟩, fun h => h.2⟩
  | cons w ws ih =>
    rw [cons_append, throughout_cons, throughout_cons, ih, afterWrites_cons, and_assoc]

theorem Throughout.mono {Q : (α → β) → Prop} (h : Throughout P d ws) (hPQ : ∀ d, P d → Q d) :
    Throughout Q d ws :=
  fun k => hPQ _ (h k)

/-! ## Undo lists -/

/-- Writes that carry the values of one store `f` put `f` back at their addresses and nowhere
else, whatever their order. -/
theorem afterWrites_of_values {f : α → β} (d : α → β) (h : ∀ w ∈ ws, w.2 = f w.1) (a : α) :
    afterWrites d ws a = if a ∈ ws.map Prod.fst then f a else d a := by
  induction ws generalizing d with
  | nil => simp
  | cons w ws ih =>
    have hw := h w (mem_cons_self ..)
    rw [afterWrites_cons, ih _ (fun v hv => h v (mem_cons_of_mem _ hv))]
    by_cases ha : a ∈ ws.map Prod.fst
    · simp [ha]
    · by_cases haw : a = w.1
      · subst haw
        simp [hw]
      · simp [ha, haw]

/-- Cutting an undo list short and running all of it afterwards is running it once. -/
theorem afterWrites_take_redo {f : α → β} (d : α → β) (h : ∀ w ∈ ws, w.2 = f w.1) (k : Nat) :
    afterWrites (afterWrites d (ws.take k)) ws = afterWrites d ws := by
  funext a
  have hk : ∀ w ∈ ws.take k, w.2 = f w.1 := fun w hw => h w (mem_of_mem_take hw)
  rw [afterWrites_of_values _ h, afterWrites_of_values _ h, afterWrites_of_values _ hk]
  by_cases ha : a ∈ ws.map Prod.fst
  · simp [ha]
  · have hak : a ∉ (ws.take k).map Prod.fst := by
      intro hmem
      obtain ⟨w, hw, rfl⟩ := mem_map.mp hmem
      exact ha (mem_map.mpr ⟨w, mem_of_mem_take hw, rfl⟩)
    rw [if_neg ha, if_neg ha, if_neg hak]

end WriteLog
