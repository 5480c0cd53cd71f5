import Mathlib.Algebra.Ring.Nat
import Mathlib.Data.List.Nodup

/-!
# Singly linked lists in memory

A list whose links are kept in a memory `next`, ended by a value `nil` that is no node. `Chain next
nil h l` says that following the links from `h` passes the nodes `l` and ends. A walk over the list
keeps the node it came from, so that the node it stands on can be taken out: `none` for the head, as
`List.getLast?` of the nodes it has passed.
-/

namespace Linked

open Function List

variable {α : Type*} {next next' : α → α} {nil h p q : α} {l done : List α}

/-- Following `next` from `h` passes the nodes `l` and ends at `nil`. -/
def Chain (next : α → α) (nil : α) : α → List α → Prop
  | h, [] => h = nil
  | h, p :: l => h = p ∧ p ≠ nil ∧ Chain next nil (next p) l

@[simp] theorem chain_nil : Chain next nil h [] ↔ h = nil := Iff.rfl

/-- The links of other nodes do not matter. -/
theorem Chain.congr (hl : Chain next nil h l) (heq : ∀ p ∈ l, next' p = next p) :
    Chain next' nil h l := by
  induction l generalizing h with
  | nil => exact hl
  | cons p l ih =>
    obtain ⟨rfl, hnil, hrest⟩ := hl
    refine ⟨rfl, hnil, ?_⟩
    rw [heq h (mem_cons_self ..)]
    exact ih hrest fun q hq => heq q (mem_cons_of_mem _ hq)

/-- A list is determined by its links. -/
theorem Chain.unique {l' : List α} (hl : Chain next nil h l) (hl' : Chain next nil h l') :
    l = l' := by
  induction l generalizing h l' with
  | nil =>
    cases l' with
    | nil => rfl
    | cons q l' =>
      obtain ⟨rfl, hnil, -⟩ := hl'
      exact absurd hl hnil
  | cons p l ih =>
    obtain ⟨rfl, hnil, hrest⟩ := hl
    cases l' with
    | nil => exact absurd hl' hnil
    | cons q l' =>
      obtain ⟨rfl, -, hrest'⟩ := hl'
      rw [ih hrest hrest']

theorem Chain.notMem_nil (hl : Chain next nil h l) : nil ∉ l := by
  induction l generalizing h with
  | nil => simp
  | cons p l ih =>
    obtain ⟨rfl, hnil, hrest⟩ := hl
    rw [mem_cons, not_or]
    exact ⟨fun heq => hnil heq.symm, ih hrest⟩

/-- In a list that does not start with the node `q`, some node leads to it. -/
theorem Chain.exists_next (hl : Chain next nil h l) (hq : q ∈ l) (hne : h ≠ q) :
    ∃ p ∈ l, next p = q := by
  induction l generalizing h with
  | nil => cases hq
  | cons a l ih =>
    obtain ⟨rfl, -, hrest⟩ := hl
    have hq' : q ∈ l := (mem_cons.mp hq).resolve_left hne.symm
    by_cases heq : next h = q
    · exact ⟨h, mem_cons_self .., heq⟩
    · obtain ⟨p, hp, hnext⟩ := ih hrest hq' heq
      exact ⟨p, mem_cons_of_mem _ hp, hnext⟩

/-- The list after a node `q` that it passes. -/
theorem Chain.tail (hl : Chain next nil h (done ++ l)) (hq : done.getLast? = some q) :
    Chain next nil (next q) l := by
  induction done generalizing h with
  | nil => simp at hq
  | cons a done ih =>
    obtain ⟨rfl, -, hrest⟩ := hl
    cases done with
    | nil =>
      obtain rfl : h = q := by simpa using hq
      exact hrest
    | cons b done => exact ih hrest (by rwa [getLast?_cons_cons] at hq)

/-- Another list put behind the node `q`. -/
theorem Chain.splice {l' : List α} (hl : Chain next nil h (done ++ l)) (hnodup : done.Nodup)
    (hq : done.getLast? = some q) (heq : ∀ p ∈ done, p ≠ q → next' p = next p)
    (hl' : Chain next' nil (next' q) l') : Chain next' nil h (done ++ l') := by
  induction done generalizing h with
  | nil => simp at hq
  | cons a done ih =>
    obtain ⟨rfl, hnil, hrest⟩ := hl
    obtain ⟨hout, hnodup⟩ := nodup_cons.mp hnodup
    refine ⟨rfl, hnil, ?_⟩
    cases done with
    | nil =>
      obtain rfl : h = q := by simpa using hq
      exact hl'
    | cons b done =>
      have hlast : (b :: done).getLast? = some q := by rwa [getLast?_cons_cons] at hq
      have hne : h ≠ q := by
        rintro rfl
        exact hout (mem_of_getLast? hlast)
      rw [heq h (mem_cons_self ..) hne]
      exact ih hrest hnodup hlast fun p hp => heq p (mem_cons_of_mem _ hp)

variable [DecidableEq α]

/-- Walk from `p`, coming from `prev`, over the nodes that `go` lets pass: the last node passed and
the one the walk ends at. -/
def walk (next : α → α) (nil : α) (go : α → Bool) :
    (turns : Nat) → (prev : Option α) → (p : α) → Option (Option α × α)
  | 0, _, _ => none
  | turns + 1, prev, p =>
    if p ≠ nil ∧ go p then walk next nil go turns (some p) (next p) else some (prev, p)

/-- A walk over a list that ends: it stops in front of the first node that `go` does not let
pass. -/
theorem Chain.walk_eq (go : α → Bool) {turns : Nat} (passed : List α) (hl : Chain next nil p l)
    (hturns : l.length < turns) :
    ∃ l1 l2 q, l = l1 ++ l2 ∧ walk next nil go turns passed.getLast? p =
      some ((passed ++ l1).getLast?, q) ∧
      Chain next nil q l2 ∧ (∀ a ∈ l1, go a) ∧ ∀ a, l2.head? = some a → ¬ go a := by
  induction l generalizing p passed turns with
  | nil =>
    obtain ⟨turns, rfl⟩ : ∃ n, turns = n + 1 := ⟨turns - 1, by simp at hturns; omega⟩
    refine ⟨[], [], p, rfl, ?_, hl, by simp, by simp⟩
    rw [walk, if_neg (fun h => h.1 hl), append_nil]
  | cons a l ih =>
    obtain ⟨turns, rfl⟩ : ∃ n, turns = n + 1 := ⟨turns - 1, by simp at hturns; omega⟩
    have hlen : l.length < turns := by simpa using hturns
    obtain ⟨rfl, hnil, hrest⟩ := hl
    by_cases hgo : go p
    · obtain ⟨l1, l2, q, rfl, hwalk, hq, hpass, hstop⟩ := ih (passed ++ [p]) hrest hlen
      refine ⟨p :: l1, l2, q, rfl, ?_, hq, ?_, hstop⟩
      · rw [walk, if_pos ⟨hnil, hgo⟩]
        simpa using hwalk
      · intro a ha
        rcases mem_cons.mp ha with rfl | ha
        · exact hgo
        · exact hpass a ha
    · refine ⟨[], p :: l, p, rfl, ?_, ⟨rfl, hnil, hrest⟩, by simp, ?_⟩
      · rw [walk, if_neg (fun h => hgo h.2), append_nil]
      · rintro a ha
        cases ha
        exact hgo

theorem Chain.update (hl : Chain next nil h l) (hp : p ∉ l) (v : α) :
    Chain (update next p v) nil h l := by
  refine hl.congr fun q hq => update_of_ne ?_ _ _
  rintro rfl
  exact hp hq

theorem Chain.push (hl : Chain next nil h l) (hp : p ∉ l) (hnil : p ≠ nil) :
    Chain (Function.update next p h) nil p (p :: l) := by
  refine ⟨rfl, hnil, ?_⟩
  rw [update_self]
  exact hl.update hp h

/-- A node taken out by giving its link to the node `q` before it. -/
theorem Chain.unlink (hl : Chain next nil h (done ++ p :: l)) (hnodup : (done ++ p :: l).Nodup)
    (hq : done.getLast? = some q) : Chain (Function.update next q (next p)) nil h (done ++ l) := by
  obtain ⟨hdone, hrest, hdisj⟩ := nodup_append.mp hnodup
  refine hl.splice hdone hq (fun a _ hne => update_of_ne hne _ _) ?_
  rw [update_self]
  obtain ⟨-, -, htail⟩ := hl.tail hq
  have hmem : q ∈ done := mem_of_getLast? hq
  refine htail.update (fun hin => ?_) _
  exact hdisj q hmem q (mem_cons_of_mem _ hin) rfl

end Linked
