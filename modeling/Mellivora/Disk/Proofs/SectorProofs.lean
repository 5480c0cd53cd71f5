import Mellivora.Disk.Sector
import Mathlib.Data.Nat.Bitwise
import Mathlib.Tactic.IntervalCases

/-!
# Reading and writing sector fields

A stored double word reads back, and a store changes no field it does not overlap. The checksum is a
32-bit number.
-/

namespace Mellivora

variable {off : Nat}

namespace Sector

theorem byteAt_lt (s : Sector) (i : Nat) : s.byteAt i < 256 := by
  unfold byteAt
  split
  · exact UInt8.toNat_lt _
  · norm_num

theorem dword_lt (s : Sector) (off : Nat) : s.dword off < 2 ^ 32 := by
  have h0 := s.byteAt_lt off
  have h1 := s.byteAt_lt (off + 1)
  have h2 := s.byteAt_lt (off + 2)
  have h3 := s.byteAt_lt (off + 3)
  unfold dword
  omega

theorem eq_of_byteAt {s t : Sector} (h : ∀ i, s.byteAt i = t.byteAt i) : s = t := by
  ext i
  have hi := h i.val
  simp only [byteAt, i.isLt, dif_pos] at hi
  exact congrArg UInt8.toNat (UInt8.toNat_inj.mp hi)

/-- The bytes after a store. -/
theorem byteAt_setDword (s : Sector) (hoff : off + 4 ≤ 512) (v i : Nat) :
    (s.setDword off v).byteAt i =
      if off ≤ i ∧ i < off + 4 then v / 2 ^ (8 * (i - off)) % 256 else s.byteAt i := by
  unfold byteAt setDword
  by_cases hi : i < 512
  · by_cases hin : off ≤ i ∧ i < off + 4
    · simp [hi, hin]
    · simp [hi, hin]
  · have hin : ¬ (off ≤ i ∧ i < off + 4) := by omega
    simp [hi, hin]

/-- A word is read back. -/
theorem dword_setDword (s : Sector) (hoff : off + 4 ≤ 512) (v : Nat) :
    (s.setDword off v).dword off = v % 2 ^ 32 := by
  unfold dword
  rw [byteAt_setDword s hoff, byteAt_setDword s hoff, byteAt_setDword s hoff,
    byteAt_setDword s hoff]
  rw [if_pos (by omega), if_pos (by omega), if_pos (by omega), if_pos (by omega)]
  have e1 : off + 1 - off = 1 := by omega
  have e2 : off + 2 - off = 2 := by omega
  have e3 : off + 3 - off = 3 := by omega
  rw [Nat.sub_self, e1, e2, e3]
  norm_num
  omega

theorem dword_setDword_of_disjoint (s : Sector) {off' : Nat} (hoff : off + 4 ≤ 512) (v : Nat)
    (h : off + 4 ≤ off' ∨ off' + 4 ≤ off) : (s.setDword off v).dword off' = s.dword off' := by
  unfold dword
  rw [byteAt_setDword s hoff, byteAt_setDword s hoff, byteAt_setDword s hoff,
    byteAt_setDword s hoff]
  rw [if_neg (by omega), if_neg (by omega), if_neg (by omega), if_neg (by omega)]

theorem setDword_dword (s : Sector) (hoff : off + 4 ≤ 512) : s.setDword off (s.dword off) = s := by
  refine eq_of_byteAt fun i => ?_
  rw [byteAt_setDword s hoff]
  split
  · next hi =>
    obtain ⟨j, hj, rfl⟩ : ∃ j < 4, i = off + j := ⟨i - off, by omega, by omega⟩
    have h0 := s.byteAt_lt off
    have h1 := s.byteAt_lt (off + 1)
    have h2 := s.byteAt_lt (off + 2)
    have h3 := s.byteAt_lt (off + 3)
    rw [Nat.add_sub_cancel_left]
    unfold dword
    interval_cases j <;> norm_num <;> omega
  · rfl

theorem setDword_mod (s : Sector) (hoff : off + 4 ≤ 512) (v : Nat) :
    s.setDword off (v % 2 ^ 32) = s.setDword off v := by
  refine eq_of_byteAt fun i => ?_
  rw [byteAt_setDword s hoff, byteAt_setDword s hoff]
  split
  · next hi =>
    obtain ⟨j, hj, rfl⟩ : ∃ j < 4, i = off + j := ⟨i - off, by omega, by omega⟩
    rw [Nat.add_sub_cancel_left]
    interval_cases j <;> norm_num <;> omega
  · rfl

theorem setDword_setDword (s : Sector) (off v w : Nat) :
    (s.setDword off v).setDword off w = s.setDword off w := by
  ext i
  simp only [setDword]
  split <;> rfl

end Sector

theorem crc32cBit_lt {v : Nat} (h : v < 2 ^ 32) : crc32cBit v < 2 ^ 32 := by
  unfold crc32cBit
  split
  · exact Nat.xor_lt_two_pow (by omega) (by norm_num)
  · omega

theorem crc32cTable_lt {i : Nat} (h : i < 2 ^ 32) : crc32cTable i < 2 ^ 32 := by
  unfold crc32cTable
  exact Function.Iterate.rec (fun v => v < 2 ^ 32) h (fun _ hv => crc32cBit_lt hv) 8

theorem crc32cByte_lt {crc : Nat} (h : crc < 2 ^ 32) (b : UInt8) : crc32cByte crc b < 2 ^ 32 := by
  unfold crc32cByte
  refine Nat.xor_lt_two_pow ?_ (crc32cTable_lt ?_)
  · rw [Nat.shiftRight_eq_div_pow]
    omega
  · exact lt_of_le_of_lt Nat.and_le_right (by norm_num)

theorem crc32c_foldl_lt (buf : List UInt8) {crc : Nat} (h : crc < 2 ^ 32) :
    buf.foldl crc32cByte crc < 2 ^ 32 := by
  induction buf generalizing crc with
  | nil => exact h
  | cons b buf ih => exact ih (crc32cByte_lt h b)

theorem crc32c_lt (buf : List UInt8) : crc32c buf < 2 ^ 32 :=
  Nat.xor_lt_two_pow (crc32c_foldl_lt buf (by norm_num)) (by norm_num)

end Mellivora
