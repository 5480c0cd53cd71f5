import Mathlib.Data.List.Basic
import Mathlib.Data.Nat.ModEq

/-!
# Ring buffers

A queue in `cap` cells: the oldest element is at `readPos`, the next one goes to `writePos`, and
both go back to the first cell after the last.
-/

/-- A ring: its cells, where it is read and written, and how many elements it holds. -/
structure RingBuffer (α : Type*) where
  cells : Nat → α
  readPos : Nat := 0
  writePos : Nat := 0
  count : Nat := 0

namespace RingBuffer

open Function List Nat

variable {α : Type*} {r : RingBuffer α} {cap : Nat} {a : α}

/-- The cell after a cell. -/
def next (cap pos : Nat) : Nat := if pos + 1 < cap then pos + 1 else 0

/-- Writes an element. -/
def push (cap : Nat) (r : RingBuffer α) (a : α) : RingBuffer α :=
  { r with
    cells := update r.cells r.writePos a, writePos := next cap r.writePos, count := r.count + 1 }

/-- The oldest element. -/
def front (r : RingBuffer α) : α := r.cells r.readPos

/-- Drops the oldest element. -/
def pop (cap : Nat) (r : RingBuffer α) : RingBuffer α :=
  { r with readPos := next cap r.readPos, count := r.count - 1 }

/-- The empty ring, with whatever its cells hold. -/
def clear (r : RingBuffer α) : RingBuffer α := { r with readPos := 0, writePos := 0, count := 0 }

/-- The elements, the oldest first. -/
def contents (cap : Nat) (r : RingBuffer α) : List α :=
  (range r.count).map fun i => r.cells ((r.readPos + i) % cap)

/-- The two positions are as far apart as there are elements. -/
structure WF (cap : Nat) (r : RingBuffer α) : Prop where
  count : r.count ≤ cap
  readPos : r.readPos < cap
  writePos : r.writePos = (r.readPos + r.count) % cap

theorem next_eq {pos : Nat} (h : pos < cap) : next cap pos = (pos + 1) % cap := by
  unfold next
  by_cases hlast : pos + 1 < cap
  · rw [if_pos hlast, mod_eq_of_lt hlast]
  · obtain rfl : cap = pos + 1 := by omega
    rw [if_neg hlast, mod_self]

theorem wf_clear (hcap : 0 < cap) (r : RingBuffer α) :
    r.clear.WF cap := ⟨zero_le _, hcap, (zero_mod cap).symm⟩

theorem WF.push (h : r.WF cap) (hroom : r.count < cap) (a : α) : (r.push cap a).WF cap := by
  refine ⟨hroom, h.readPos, ?_⟩
  have hpos : r.writePos < cap := h.writePos ▸ mod_lt _ (by omega)
  show next cap r.writePos = (r.readPos + (r.count + 1)) % cap
  rw [next_eq hpos, h.writePos, mod_add_mod, add_assoc]

/-- Two cells of the queue are different. -/
theorem offset_injective {pos i j : Nat} (hi : i < cap) (hj : j < cap)
    (h : (pos + i) % cap = (pos + j) % cap) :
    i = j := by
  have hmod : i % cap = j % cap := Nat.ModEq.add_left_cancel' pos h
  rwa [mod_eq_of_lt hi, mod_eq_of_lt hj] at hmod

/-- A push appends. -/
theorem WF.contents_push (h : r.WF cap) (hroom : r.count < cap) (a : α) :
    (r.push cap a).contents cap = r.contents cap ++ [a] := by
  show (range (r.count + 1)).map (fun i => update r.cells r.writePos a ((r.readPos + i) % cap)) = _
  rw [range_succ, map_append, map_singleton, ← h.writePos, update_self, contents]
  congr 1
  apply map_congr_left
  intro i hi
  have hlt : i < r.count := mem_range.mp hi
  rw [update_of_ne]
  intro hsame
  rw [h.writePos] at hsame
  have heq := offset_injective (hlt.trans hroom) hroom hsame
  omega

theorem WF.pop (h : r.WF cap) (hsome : r.count ≠ 0) : (r.pop cap).WF cap := by
  have hcap : 0 < cap := zero_lt_of_lt h.readPos
  refine ⟨(sub_le _ _).trans h.count, ?_, ?_⟩
  · show next cap r.readPos < cap
    rw [next_eq h.readPos]
    exact mod_lt _ hcap
  · show r.writePos = (next cap r.readPos + (r.count - 1)) % cap
    rw [next_eq h.readPos, h.writePos, mod_add_mod]
    congr 1
    omega

/-- A pop takes the first. -/
theorem WF.contents_pop (h : r.WF cap) (hsome : r.count ≠ 0) :
    r.contents cap = r.front :: (r.pop cap).contents cap := by
  obtain ⟨n, hn⟩ := exists_eq_succ_of_ne_zero hsome
  have hrest : (r.pop cap).contents cap = (range n).map fun i =>
    r.cells ((r.readPos + (i + 1)) % cap) := by
    show (range (r.count - 1)).map (fun i => r.cells ((next cap r.readPos + i) % cap)) = _
    rw [hn, succ_sub_one]
    apply map_congr_left
    intro i _
    rw [next_eq h.readPos, mod_add_mod, add_assoc, add_comm 1 i]
  rw [hrest, contents, hn, range_succ_eq_map, map_cons, map_map, add_zero,
    mod_eq_of_lt h.readPos, front]
  rfl

end RingBuffer
