import Mathlib.Algebra.Ring.Nat
import Mathlib.Data.List.Nodup
import Mathlib.Data.List.Pairwise
import Mathlib.Algebra.BigOperators.Group.List.Basic

/-!
# Lists of runs

A set of numbers written as a list of runs, each by its first member and its length. The list can be
cut behind any number of members, which splits one run unless the cut is at the edge between two.
-/

namespace RunList

open List

variable {n m : Nat} {run run' : Nat × Nat} {runs : List (Nat × Nat)}

/-- The members of the runs, in order. -/
def flat (runs : List (Nat × Nat)) : List Nat := runs.flatMap fun run => range' run.1 run.2

/-- The runs of the first `n` members. -/
def keep : (n : Nat) → List (Nat × Nat) → List (Nat × Nat)
  | _, [] => []
  | n, run :: runs =>
    if run.2 ≤ n then run :: keep (n - run.2) runs else if n = 0 then [] else [(run.1, n)]

/-- The runs of the other members. -/
def rest : (n : Nat) → List (Nat × Nat) → List (Nat × Nat)
  | _, [] => []
  | n, run :: runs => if run.2 ≤ n then rest (n - run.2) runs else (run.1 + n, run.2 - n) :: runs

/-- The first `n` members end with a run, and there are more runs behind it. -/
def AtEdge (n : Nat) (runs : List (Nat × Nat)) : Prop :=
  ∃ i < runs.length, ((runs.take i).map Prod.snd).sum = n

instance : Decidable (AtEdge n runs) :=
  inferInstanceAs (Decidable (∃ i < runs.length, ((runs.take i).map Prod.snd).sum = n))

theorem flat_cons (run : Nat × Nat) (runs : List (Nat × Nat)) :
    flat (run :: runs) = range' run.1 run.2 ++ flat runs := rfl

theorem mem_flat : m ∈ flat runs ↔ ∃ run ∈ runs, run.1 ≤ m ∧ m < run.1 + run.2 := by
  simp only [flat, mem_flatMap, mem_range'_1]

/-- A run cut in two. -/
theorem range'_cut (run : Nat × Nat) {n : Nat} (h : n ≤ run.2) :
    range' run.1 run.2 = range' run.1 n ++ range' (run.1 + n) (run.2 - n) := by
  rw [range'_append_1, Nat.add_sub_cancel' h]

/-- The runs kept are the first `n` blocks. -/
theorem flat_keep (n : Nat) (runs : List (Nat × Nat)) :
    flat (keep n runs) = (flat runs).take n := by
  induction runs generalizing n with
  | nil => rw [keep, flat, flatMap_nil, take_nil]
  | cons run runs ih =>
    have hlen : (range' run.1 run.2).length = run.2 := length_range'
    rw [keep, flat_cons]
    split
    · next hle => rw [flat_cons, ih, take_append, take_of_length_le (hlen.trans_le hle), hlen]
    next hlt =>
    have htake : (range' run.1 run.2 ++ flat runs).take n = range' run.1 n := by
      rw [range'_cut run (Nat.le_of_not_le hlt), append_assoc]
      exact take_left' length_range'
    rw [htake]
    split
    · next hzero =>
      subst hzero
      rfl
    · rw [flat_cons]
      exact append_nil _

/-- The rest is the blocks behind the first `n`. -/
theorem flat_rest (n : Nat) (runs : List (Nat × Nat)) :
    flat (rest n runs) = (flat runs).drop n := by
  induction runs generalizing n with
  | nil => rw [rest, flat, flatMap_nil, drop_nil]
  | cons run runs ih =>
    have hlen : (range' run.1 run.2).length = run.2 := length_range'
    rw [rest, flat_cons]
    split
    · next hle => rw [ih, drop_append, drop_of_length_le (hlen.trans_le hle), hlen, nil_append]
    next hlt =>
    rw [flat_cons, range'_cut run (Nat.le_of_not_le hlt), append_assoc]
    exact (drop_left' length_range').symm

theorem rest_pos (h : ∀ run ∈ runs, 0 < run.2) (n : Nat) : ∀ run ∈ rest n runs, 0 < run.2 := by
  induction runs generalizing n with
  | nil =>
    intro run hrun
    exact absurd hrun (not_mem_nil)
  | cons first runs ih =>
    have hrest := fun run hrun => h run (mem_cons_of_mem first hrun)
    rw [rest]
    split
    · exact ih hrest _
    · intro run hrun
      rcases mem_cons.mp hrun with rfl | hrun
      · show 0 < first.2 - n
        omega
      · exact hrest run hrun

/-- Whether a cut falls between two runs. -/
theorem atEdge_cons (hpos : 0 < run.2) :
    AtEdge n (run :: runs) ↔ if run.2 ≤ n then AtEdge (n - run.2) runs else n = 0 := by
  have hlater : (∃ i < runs.length, (((run :: runs).take (i + 1)).map Prod.snd).sum = n) ↔
      run.2 ≤ n ∧ AtEdge (n - run.2) runs := by
    simp only [AtEdge, take_succ_cons, map_cons, sum_cons]
    constructor
    · rintro ⟨i, hi, hsum⟩
      exact ⟨by omega, i, hi, by omega⟩
    · rintro ⟨hle, i, hi, hsum⟩
      exact ⟨i, hi, by omega⟩
  have hsplit : AtEdge n (run :: runs) ↔ n = 0 ∨ run.2 ≤ n ∧ AtEdge (n - run.2) runs := by
    rw [← hlater]
    constructor
    · rintro ⟨i, hi, hsum⟩
      cases i with
      | zero => exact .inl (by simpa using hsum.symm)
      | succ i => exact .inr ⟨i, by simpa using hi, hsum⟩
    · rintro (rfl | ⟨i, hi, hsum⟩)
      · exact ⟨0, by simp, by simp⟩
      · exact ⟨i + 1, by simpa using hi, hsum⟩
  rw [hsplit]
  split
  · next hle => exact ⟨fun h => h.elim (fun hzero => by omega) And.right, fun h => .inr ⟨hle, h⟩⟩
  · next hlt => exact ⟨fun h => h.elim id fun h => absurd h.1 hlt, .inl⟩

/-- Runs without a common member: one that shares a member with another is that other. -/
theorem eq_of_mem (hnodup : (flat runs).Nodup) (hrun : run ∈ runs) (hrun' : run' ∈ runs)
    (hm : run.1 ≤ m ∧ m < run.1 + run.2) (hm' : run'.1 ≤ m ∧ m < run'.1 + run'.2) : run = run' := by
  obtain ⟨-, hpair⟩ := nodup_flatMap.mp hnodup
  by_contra hne
  have hsymm : Std.Symm (Function.onFun List.Disjoint fun run : Nat × Nat => range' run.1 run.2) :=
    ⟨fun _ _ h _ hleft hright => h hright hleft⟩
  have hdisjoint := hpair.forall hrun hrun' hne
  exact hdisjoint (mem_range'_1.mpr hm) (mem_range'_1.mpr hm')

theorem notMem_of_nodup_cons (hnodup : (flat (run :: runs)).Nodup) (hpos : 0 < run.2) :
    run ∉ runs := by
  intro hmem
  have hfirst : run.1 ≤ run.1 ∧ run.1 < run.1 + run.2 := ⟨Nat.le_refl _, by omega⟩
  rw [flat_cons] at hnodup
  have hdisjoint := (nodup_append'.mp hnodup).2.2
  exact hdisjoint (mem_range'_1.mpr hfirst) (mem_flat.mpr ⟨run, hmem, hfirst⟩)

end RunList
