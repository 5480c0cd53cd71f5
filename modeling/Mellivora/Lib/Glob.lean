import Mathlib.Data.List.Basic

/-!
# Glob patterns

A pattern is a list of tokens: one that stands for any single letter, one that stands for any
string, and one for each letter. `Matches` says which strings a pattern describes. The lemmas are
those a matcher needs that remembers only the last star it met: a star absorbs whatever stands in
front of a match, and so the attempts an earlier star still has left cannot find a match that the
later star misses.
-/

namespace Glob

open List

/-- A piece of a pattern. -/
inductive Token (α : Type*) where
  | one
  | many
  | lit (a : α)

variable {α : Type*}

/-- The strings a pattern describes. -/
def Matches : List (Token α) → List α → Prop
  | [], s => s = []
  | .one :: p, s => ∃ b t, s = b :: t ∧ Matches p t
  | .lit a :: p, s => ∃ t, s = a :: t ∧ Matches p t
  | .many :: p, s => ∃ u t, s = u ++ t ∧ Matches p t

/-- A token that consumes exactly one letter. -/
def Token.Single : Token α → Prop
  | .many => False
  | _ => True

@[simp] theorem matches_nil {s : List α} : Matches ([] : List (Token α)) s ↔ s = [] := Iff.rfl

@[simp] theorem matches_one_cons {p : List (Token α)} {b : α} {t : List α} :
    Matches (.one :: p) (b :: t) ↔ Matches p t := by
  constructor
  · rintro ⟨b', t', h, hp⟩
    cases h
    exact hp
  · intro hp
    exact ⟨b, t, rfl, hp⟩

@[simp] theorem matches_lit_cons {p : List (Token α)} {a b : α} {t : List α} :
    Matches (.lit a :: p) (b :: t) ↔ b = a ∧ Matches p t := by
  constructor
  · rintro ⟨t', h, hp⟩
    cases h
    exact ⟨rfl, hp⟩
  · rintro ⟨rfl, hp⟩
    exact ⟨t, rfl, hp⟩

/-- A token that consumes a letter matches no empty string. -/
theorem Token.Single.not_matches_nil {x : Token α} (hx : x.Single) (p : List (Token α)) :
    ¬ Matches (x :: p) [] := by
  cases x with
  | one =>
    rintro ⟨b, t, h, -⟩
    cases h
  | many => exact hx.elim
  | lit a =>
    rintro ⟨t, h, -⟩
    cases h

/-- A star stands for nothing, or for one letter and then what it may still stand for. -/
theorem matches_many {p : List (Token α)} {s : List α} :
    Matches (.many :: p) s ↔ Matches p s ∨ ∃ b t, s = b :: t ∧ Matches (.many :: p) t := by
  constructor
  · rintro ⟨u, t, rfl, hp⟩
    cases u with
    | nil => exact Or.inl hp
    | cons b u => exact Or.inr ⟨b, u ++ t, rfl, u, t, rfl, hp⟩
  · rintro (hp | ⟨b, t, rfl, u, t', rfl, hp⟩)
    · exact ⟨[], s, rfl, hp⟩
    · exact ⟨b :: u, t', rfl, hp⟩

/-- A star absorbs what stands in front of a match. -/
theorem Matches.many_of_suffix {p : List (Token α)} {s t : List α} (h : Matches (.many :: p) t)
    (hst : t <:+ s) : Matches (.many :: p) s := by
  obtain ⟨u, rfl⟩ := hst
  obtain ⟨v, t', rfl, hp⟩ := h
  exact ⟨u ++ v, t', (append_assoc u v t').symm, hp⟩

/-- A piece without stars consumes as many letters as it has tokens. -/
theorem Matches.drop_single {w p : List (Token α)} (hw : ∀ x ∈ w, x.Single) {s : List α}
    (h : Matches (w ++ p) s) : Matches p (s.drop w.length) := by
  induction w generalizing s with
  | nil => exact h
  | cons x w ih =>
    have hrest {t : List α} (ht : Matches (w ++ p) t) : Matches p (t.drop w.length) :=
      ih (fun y hy => hw y (mem_cons_of_mem x hy)) ht
    cases s with
    | nil => exact absurd h ((hw x mem_cons_self).not_matches_nil (w ++ p))
    | cons b t =>
      cases x with
      | one => exact hrest (matches_one_cons.mp h)
      | many => exact (hw .many mem_cons_self).elim
      | lit a => exact hrest (matches_lit_cons.mp h).2

/-- What an earlier star finds at a later place, the next star finds from here: both have the same
piece `w` between them, so the later place leaves no more letters than are left here. -/
theorem Matches.later_star {w p : List (Token α)} (hw : ∀ x ∈ w, x.Single) {s t : List α}
    (h : Matches (.many :: (w ++ .many :: p)) s) (hst : s.drop w.length <:+ t) :
    Matches (.many :: p) t := by
  obtain ⟨u, s', rfl, hp⟩ := h
  refine (Matches.drop_single hw hp).many_of_suffix (List.IsSuffix.trans ?_ hst)
  rw [drop_append]
  refine List.IsSuffix.trans ?_ (suffix_append _ _)
  have hdrop : s'.drop w.length = (s'.drop (w.length - u.length)).drop
    (w.length - (w.length - u.length)) := by
    rw [drop_drop]
    congr 1
    omega
  rw [hdrop]
  exact drop_suffix _ _

end Glob
