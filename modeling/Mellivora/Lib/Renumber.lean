import Mathlib.Algebra.Ring.Nat
import Mathlib.Data.List.Count

/-!
# Renumbering a table

When the entries of a table that fail a test are taken out, an entry that stays moves to the place
given by the number of entries before it that stay.
-/

namespace Renumber

variable {α : Type} {p : α → Bool} {l : List α} {a : α} {i j : Nat}

/-- The place of the `i`-th entry once the entries that fail `p` are gone. -/
def rank (p : α → Bool) (l : List α) (i : Nat) : Nat := (l.take i).countP p

theorem rank_cons_succ (p : α → Bool) (a : α) (l : List α) (i : Nat) :
    rank p (a :: l) (i + 1) = rank p l i + if p a then 1 else 0 := by
  simp [rank, List.countP_cons]

/-- Ranks keep the order. -/
theorem rank_lt (hij : i < j) (ha : l[i]? = some a) (hp : p a = true) :
    rank p l i < rank p l j := by
  induction l generalizing i j with
  | nil => simp at ha
  | cons b l ih =>
    obtain ⟨j, rfl⟩ : ∃ j', j = j' + 1 := ⟨j - 1, by omega⟩
    rw [rank_cons_succ]
    cases i with
    | zero =>
      obtain rfl : b = a := by simpa using ha
      simp [rank, hp]
    | succ i =>
      rw [rank_cons_succ]
      have hlt := ih (Nat.lt_of_succ_lt_succ hij) ((List.getElem?_cons_succ ..).symm.trans ha)
      omega

/-- An entry that stays is found at its rank. -/
theorem getElem?_rank (ha : l[i]? = some a) (hp : p a = true) :
    (l.filter p)[rank p l i]? = some a := by
  induction l generalizing i with
  | nil => simp at ha
  | cons b l ih =>
    cases i with
    | zero =>
      obtain rfl : b = a := by simpa using ha
      simp [rank, hp]
    | succ i =>
      have := ih (i := i) (by simpa using ha)
      rw [rank_cons_succ]
      by_cases hb : p b = true
      · simpa [hb] using this
      · simpa [hb] using this

/-- Every place of the new table is the rank of an entry that stays. -/
theorem exists_of_getElem?_filter (ha : (l.filter p)[j]? = some a) :
    ∃ i, l[i]? = some a ∧ p a = true ∧ rank p l i = j := by
  induction l generalizing j with
  | nil => simp at ha
  | cons b l ih =>
    by_cases hb : p b = true
    · rw [List.filter_cons_of_pos hb] at ha
      cases j with
      | zero =>
        obtain rfl : b = a := by simpa using ha
        exact ⟨0, rfl, hb, rfl⟩
      | succ j =>
        obtain ⟨i, hi, hp, hrank⟩ := ih (by simpa using ha)
        refine ⟨i + 1, by simpa using hi, hp, ?_⟩
        rw [rank_cons_succ, hrank, if_pos hb]
    · rw [List.filter_cons_of_neg hb] at ha
      obtain ⟨i, hi, hp, hrank⟩ := ih ha
      refine ⟨i + 1, by simpa using hi, hp, ?_⟩
      rw [rank_cons_succ, hrank, if_neg hb, Nat.add_zero]

/-- Entries that stay keep different places. -/
theorem rank_inj {b : α} (ha : l[i]? = some a) (hpa : p a = true) (hb : l[j]? = some b)
    (hpb : p b = true) (h : rank p l i = rank p l j) : i = j := by
  rcases Nat.lt_trichotomy i j with hlt | heq | hlt
  · have := rank_lt hlt ha hpa
    omega
  · exact heq
  · have := rank_lt hlt hb hpb
    omega

end Renumber
