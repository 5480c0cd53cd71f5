import Mathlib.Data.Finset.Card

/-!
# Counting the places that hold a value

A finite set of places, each of which holds a value. Writing one place takes the count of its old
value down and the count of its new value up.
-/

namespace Counting

open Function Finset

variable {α β : Type*} [DecidableEq β]

/-- The number of places in `s` that hold `b`. -/
def count (s : Finset α) (f : α → β) (b : β) : Nat := (s.filter fun a => f a = b).card

theorem count_eq_zero {s : Finset α} {f : α → β} {b : β} : count s f b = 0 ↔ ∀ a ∈ s, f a ≠ b := by
  rw [count, card_eq_zero, filter_eq_empty_iff]

variable [DecidableEq α]

/-- One entry changes from one value to another. -/
theorem count_update {s : Finset α} {a : α} (ha : a ∈ s) (f : α → β) (v b : β) :
    count s (update f a v) b + (if f a = b then 1 else 0) =
    count s f b + (if v = b then 1 else 0) := by
  have hrest : ∀ g : α → β, count s g b = count (s.erase a) g b + (if g a = b then 1 else 0) := by
    intro g
    unfold count
    conv_lhs => rw [← insert_erase ha, filter_insert]
    split
    · rw [card_insert_of_notMem (by simp)]
    · rfl
  have hsame : count (s.erase a) (update f a v) b = count (s.erase a) f b := by
    refine congrArg card (filter_congr fun x hx => ?_)
    rw [update_of_ne (ne_of_mem_erase hx)]
  rw [hrest f, hrest (update f a v), hsame, update_self]
  omega

end Counting
