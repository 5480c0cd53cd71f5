import Mathlib.Algebra.Ring.Nat
import Mathlib.Data.List.Nodup
import Mathlib.Data.List.Pairwise
import Mathlib.Data.List.Perm.Subperm

/-!
# Ranges of addresses

Half-open ranges, and lists of them in which every range ends before the next one starts. Such a
list stays one when a range is put in its place, taken out, cut down, or joined with the next.
-/

/-- The addresses from `lo` up to `hi`. -/
structure Span where
  lo : Nat
  hi : Nat
deriving DecidableEq

namespace Span

open List

variable {e f x : Span} {l l' : List Span} {n : Nat}

/-- One of the ranges ends before the other starts. -/
def Apart (e f : Span) : Prop := e.hi ≤ f.lo ∨ f.hi ≤ e.lo

theorem Apart.symm (h : e.Apart f) : f.Apart e := Or.symm h

instance : Std.Symm Apart := ⟨fun _ _ h => h.symm⟩

/-- `e` is a part of `f`. -/
def Within (e f : Span) : Prop := f.lo ≤ e.lo ∧ e.hi ≤ f.hi

theorem Apart.within (h : f.Apart x) (hin : e.Within f) : e.Apart x := by
  obtain ⟨hlo, hhi⟩ := hin
  rcases h with h | h
  · exact Or.inl (Nat.le_trans hhi h)
  · exact Or.inr (Nat.le_trans h hlo)

/-- What is apart from two ranges that touch does not fit between them. -/
theorem Apart.join (he : e.Apart x) (hf : f.Apart x) (htouch : e.hi = f.lo) (hx : x.lo < x.hi) :
    Span.Apart ⟨e.lo, f.hi⟩ x := by
  unfold Apart at *
  simp only
  omega

/-- Every range ends before the next one starts. -/
def Sorted (l : List Span) : Prop := l.Pairwise fun e f => e.hi ≤ f.lo

/-- A span that is apart from the others is inserted. -/
theorem Sorted.insert (h : Sorted (l ++ l')) (hapart : ∀ f ∈ l ++ l', f.Apart e)
    (hpos : ∀ f ∈ l ++ l', f.lo < f.hi)
    (he : e.lo < e.hi) (hl : ∀ f ∈ l, f.lo < e.lo) (hl' : ∀ f ∈ l', e.lo ≤ f.lo) :
    Sorted (l ++ e :: l') := by
  have hbefore : ∀ f ∈ l, f.hi ≤ e.lo := by
    intro f hf
    have hlt := hl f hf
    rcases hapart f (mem_append_left _ hf) with h | h
    · exact h
    · omega
  have hafter : ∀ f ∈ l', e.hi ≤ f.lo := by
    intro f hf
    have hle := hl' f hf
    have hf' := hpos f (mem_append_right _ hf)
    rcases hapart f (mem_append_right _ hf) with h | h
    · omega
    · exact h
  obtain ⟨h1, h2, h3⟩ := pairwise_append.mp h
  refine pairwise_append.mpr ⟨h1, pairwise_cons.mpr ⟨hafter, h2⟩, ?_⟩
  intro a ha b hb
  rcases mem_cons.mp hb with rfl | hb
  · exact hbefore a ha
  · exact h3 a ha b hb

theorem Sorted.remove (h : Sorted (l ++ e :: l')) : Sorted (l ++ l') :=
  h.sublist (List.Sublist.append_left (sublist_cons_self ..) l)

/-- Two neighbours made one. -/
theorem Sorted.join (h : Sorted (l ++ e :: f :: l')) : Sorted (l ++ ⟨e.lo, f.hi⟩ :: l') := by
  obtain ⟨h1, h2, h3⟩ := pairwise_append.mp h
  obtain ⟨-, h5⟩ := pairwise_cons.mp h2
  obtain ⟨h6, h7⟩ := pairwise_cons.mp h5
  refine pairwise_append.mpr ⟨h1, pairwise_cons.mpr ⟨h6, h7⟩, ?_⟩
  intro a ha b hb
  rcases mem_cons.mp hb with rfl | hb
  · exact h3 a ha e (mem_cons_self ..)
  · exact h3 a ha b (mem_cons_of_mem _ (mem_cons_of_mem _ hb))

/-- Ranges of at least `n` addresses each need room. -/
theorem Sorted.length_le (h : Sorted l) (hn : ∀ e ∈ l, e.lo + n ≤ e.hi) {lo hi : Nat}
    (hlohi : lo ≤ hi)
    (hlo : ∀ e ∈ l, lo ≤ e.lo) (hhi : ∀ e ∈ l, e.hi ≤ hi) : lo + n * l.length ≤ hi := by
  induction l generalizing lo with
  | nil => simpa using hlohi
  | cons e l ih =>
    obtain ⟨hnext, hrest⟩ := pairwise_cons.mp h
    have he := hn e (mem_cons_self ..)
    have hle := hlo e (mem_cons_self ..)
    have hlast := hhi e (mem_cons_self ..)
    have := ih hrest (fun f hf => hn f (mem_cons_of_mem _ hf)) hlast hnext
      fun f hf => hhi f (mem_cons_of_mem _ hf)
    rw [length_cons, Nat.mul_succ]
    omega

/-- Ranges that are apart from each other, below `hi`, are together no longer than that. -/
theorem sum_length_le (h : l.Pairwise Apart) {hi : Nat} (hhi : ∀ e ∈ l, e.hi ≤ hi) :
    (l.map fun e => e.hi - e.lo).sum ≤ hi := by
  have hnodup : (l.flatMap fun e => range' e.lo (e.hi - e.lo)).Nodup := by
    rw [nodup_flatMap]
    refine ⟨fun e _ => nodup_range', h.imp fun {e f} hapart a ha hb => ?_⟩
    rw [mem_range'_1] at ha hb
    rcases hapart with hapart | hapart
    · omega
    · omega
  have hsub : (l.flatMap fun e => range' e.lo (e.hi - e.lo)) ⊆ range hi := by
    intro a ha
    obtain ⟨e, he, ha⟩ := mem_flatMap.mp ha
    rw [mem_range'_1] at ha
    have := hhi e he
    exact mem_range.mpr (by omega)
  have hlength := (hnodup.subperm hsub).length_le
  rw [length_range, length_flatMap] at hlength
  simpa using hlength

end Span
