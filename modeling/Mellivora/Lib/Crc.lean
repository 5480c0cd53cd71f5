import Mathlib.Data.Nat.Bitwise

/-!
# Cyclic redundancy checks

A reflected check with the polynomial `P` shifts its register down one bit at a time and takes the
polynomial in where the bit that falls out is set. A register is a natural number and the shift is
linear for exclusive or, so a message fed bit by bit may as well be taken in whole before the
shifts. Where the polynomial has its top bit, the shift loses nothing, and an error that fits the
register is always seen.
-/

namespace Crc

open Function Nat

variable {P w : ℕ}

/-- One step of the register. -/
def shift (P v : ℕ) : ℕ := if v % 2 = 1 then v / 2 ^^^ P else v / 2

/-- One bit into the register. -/
def feed (P v : ℕ) (b : Bool) : ℕ := shift P (v ^^^ b.toNat)

/-- The bits as a number, the first one lowest. -/
def ofBits : List Bool → ℕ
  | [] => 0
  | b :: bs => b.toNat ^^^ 2 * ofBits bs

theorem xor_half (a b : ℕ) : (a ^^^ b) / 2 = a / 2 ^^^ b / 2 := by
  simpa [shiftRight_eq_div_pow] using shiftRight_xor_distrib (a := a) (b := b) (i := 1)

/-- The register's step is linear. -/
theorem shift_xor (P a b : ℕ) : shift P (a ^^^ b) = shift P a ^^^ shift P b := by
  have hpar : (a ^^^ b) % 2 = (a % 2 + b % 2) % 2 := by
    rw [xor_mod_two_eq, add_mod]
  rw [shift, shift, shift, xor_half, hpar]
  rcases mod_two_eq_zero_or_one a with ha | ha <;> rcases mod_two_eq_zero_or_one b with hb | hb
  · simp [ha, hb]
  · simp [ha, hb, Nat.xor_assoc]
  · rw [ha, hb, if_pos (by decide), if_pos rfl, if_neg (by decide), Nat.xor_assoc,
      Nat.xor_comm (b / 2) P,
      ← Nat.xor_assoc]
  · rw [ha, hb, if_neg (by decide), if_pos rfl, if_pos rfl, Nat.xor_assoc,
      Nat.xor_comm P (b / 2 ^^^ P),
      Nat.xor_assoc (b / 2), Nat.xor_self, Nat.xor_zero]

theorem iterate_shift_xor (P n a b : ℕ) :
    (shift P)^[n] (a ^^^ b) = (shift P)^[n] a ^^^ (shift P)^[n] b := by
  induction n generalizing a b with
  | zero => rfl
  | succ n ih => rw [iterate_succ_apply, shift_xor, ih]; rfl

theorem shift_two_mul (P v : ℕ) : shift P (2 * v) = v := by
  rw [shift, if_neg (by omega)]
  omega

/-- Bits that stand above those shifted out only move down. -/
theorem iterate_shift_two_pow_mul (P n v : ℕ) : (shift P)^[n] (2 ^ n * v) = v := by
  induction n generalizing v with
  | zero => simp
  | succ n ih => rw [iterate_succ_apply, pow_succ', mul_assoc, shift_two_mul, ih]

/-- The low bits of a register are shifted through; the others only move down. -/
theorem iterate_shift_eq (P n v : ℕ) :
    (shift P)^[n] v = v / 2 ^ n ^^^ (shift P)^[n] (v % 2 ^ n) := by
  have hsplit : v = 2 ^ n * (v / 2 ^ n) ^^^ v % 2 ^ n := by
    apply eq_of_testBit_eq
    intro i
    rw [testBit_xor, testBit_two_pow_mul, testBit_mod_two_pow, testBit_div_two_pow]
    by_cases hi : i < n
    · simp [hi, not_le.mpr hi]
    · simp [hi, Nat.le_of_not_lt hi]
  conv_lhs => rw [hsplit, iterate_shift_xor, iterate_shift_two_pow_mul]

/-- A message fed bit by bit is a message taken in at once and then shifted through. -/
theorem foldl_feed (P v : ℕ) (bs : List Bool) :
    bs.foldl (feed P) v = (shift P)^[bs.length] (v ^^^ ofBits bs) := by
  induction bs generalizing v with
  | nil => simp [ofBits]
  | cons b bs ih =>
    have hrest : shift P (2 * ofBits bs) = ofBits bs := shift_two_mul P _
    rw [List.foldl_cons, ih, List.length_cons, iterate_succ_apply, ofBits, ← Nat.xor_assoc,
      shift_xor P (v ^^^ b.toNat), hrest]
    rfl

/-- The bits are read back. -/
theorem testBit_ofBits (bs : List Bool) (i : ℕ) : (ofBits bs).testBit i = bs.getD i false := by
  induction bs generalizing i with
  | nil => simp [ofBits]
  | cons b bs ih =>
    rw [ofBits, testBit_xor]
    cases i with
    | zero => cases b <;> simp
    | succ i =>
      have hb : b.toNat.testBit (i + 1) = false := by
        rw [testBit_succ]
        cases b <;> simp
      have hrest : (2 * ofBits bs).testBit (i + 1) = bs.getD i false := by
        rw [Nat.testBit_succ, Nat.mul_div_cancel_left _ (by decide), ih]
      rw [hb, hrest]
      simp

/-! ## Errors -/

/-- A shift of a register that is not clear leaves it so: only the polynomial could cancel it, and
that has the top bit, which has just been shifted out. -/
theorem shift_ne_zero (hP : 2 ^ w ≤ 2 * P) {v : ℕ} (hv : v < 2 ^ w) (h0 : v ≠ 0) :
    shift P v ≠ 0 := by
  rw [shift]
  split_ifs with hodd
  · intro hx
    have := Nat.xor_eq_zero_iff.mp hx
    omega
  · omega

theorem shift_lt (hP : P < 2 ^ w) {v : ℕ} (hv : v < 2 ^ w) : shift P v < 2 ^ w := by
  rw [shift]
  split_ifs
  · exact xor_lt_two_pow (by omega) hP
  · omega

theorem iterate_shift_ne_zero (hP : P < 2 ^ w) (htop : 2 ^ w ≤ 2 * P) (n : ℕ) {v : ℕ}
    (hv : v < 2 ^ w) (h0 : v ≠ 0) : (shift P)^[n] v ≠ 0 := by
  induction n generalizing v with
  | zero => exact h0
  | succ n ih => exact ih (shift_lt hP hv) (shift_ne_zero htop hv h0)

/-- **A burst that fits the register is seen**: two messages that differ in some of `w` consecutive
bits and nowhere else leave different registers. -/
theorem burst_seen (hP : P < 2 ^ w) (htop : 2 ^ w ≤ 2 * P) {n start v m m' : ℕ} (hn : start ≤ n)
    (hne : m ≠ m') (hlow : ∀ i < start, m.testBit i = m'.testBit i) (hhigh : ∀ i, start + w ≤ i →
      m.testBit i = m'.testBit i) :
    (shift P)^[n] (v ^^^ m) ≠ (shift P)^[n] (v ^^^ m') := by
  intro heq
  -- The difference of the registers is what becomes of the difference of the messages.
  have hdiff : (shift P)^[n] (m ^^^ m') = 0 := by
    rw [iterate_shift_xor] at heq ⊢
    rw [iterate_shift_xor] at heq
    rw [Nat.xor_eq_zero_iff]
    exact xor_right_injective heq
  have hsplit : m ^^^ m' = 2 ^ start * ((m ^^^ m') >>> start) := by
    apply eq_of_testBit_eq
    intro i
    rw [testBit_two_pow_mul, testBit_shiftRight, testBit_xor]
    by_cases hi : start ≤ i
    · simp [hi]
    · simp [hi, hlow i (by omega)]
  have hsmall : (m ^^^ m') >>> start < 2 ^ w := by
    apply lt_pow_two_of_testBit
    intro i hi
    rw [testBit_shiftRight, testBit_xor, hhigh (start + i) (by omega), Bool.xor_self]
  have hzero : (m ^^^ m') >>> start ≠ 0 := by
    intro h0
    rw [h0, mul_zero] at hsplit
    exact hne (Nat.xor_eq_zero_iff.mp hsplit)
  obtain ⟨k, rfl⟩ := Nat.exists_eq_add_of_le hn
  rw [hsplit, add_comm start k, iterate_add_apply, iterate_shift_two_pow_mul] at hdiff
  exact iterate_shift_ne_zero hP htop k hsmall hzero hdiff

end Crc
