import Mathlib.Data.UInt
import Mathlib.Data.Nat.Bitwise

/-!
# The two encodings of Unicode text

A text is a list of characters, that is of code points without the surrogates. Its UTF-8 form is the
library's; here is its UTF-16 form, and the same described from the units alone: no surrogate stands
without its other half. A zero-terminated string is what a C string holds in front of its
terminator.
-/

namespace Unicode

open List Nat

/-! ## Zero-terminated strings -/

/-- The units in front of the terminator, none of which is zero. -/
@[ext] structure ZString (α : Type*) [Zero α] where
  units : List α
  noZero : 0 ∉ units

/-- The string a buffer holds: everything in front of the first zero. -/
def ZString.ofBuffer {α : Type*} [Zero α] [DecidableEq α] (buffer : List α) : ZString α where
  units := buffer.takeWhile (· ≠ 0)
  noZero h := by simpa using all_eq_true.mp all_takeWhile 0 h

theorem ZString.ofBuffer_terminated {α : Type*} [Zero α] [DecidableEq α] (s : ZString α) :
    ZString.ofBuffer (s.units ++ [0]) = s := by
  ext1
  have hall : ∀ x ∈ s.units, decide (x ≠ 0) = true := by
    intro x hx
    exact decide_eq_true fun h0 => s.noZero (h0 ▸ hx)
  show (s.units ++ [0]).takeWhile (· ≠ 0) = s.units
  rw [takeWhile_append_of_pos hall]
  simp

/-! ## UTF-8 and UTF-16 -/

/-- The UTF-8 encoding of a text. -/
def utf8 (cs : List Char) : List UInt8 := cs.flatMap String.utf8EncodeChar

/-- A character as one unit, or as a pair of surrogates. -/
def utf16EncodeChar (c : Char) : List UInt16 :=
  let v := c.toNat
  if v < 0x10000 then [UInt16.ofNat v]
  else [UInt16.ofNat (0xD800 + (v - 0x10000) / 0x400),
    UInt16.ofNat (0xDC00 + (v - 0x10000) % 0x400)]

/-- The UTF-16 encoding of a text. -/
def utf16 (cs : List Char) : List UInt16 := cs.flatMap utf16EncodeChar

/-- The first unit of a pair. -/
def HighSurrogate (u : UInt16) : Prop := 0xD800 ≤ u.toNat ∧ u.toNat < 0xDC00

/-- The second unit of a pair. -/
def LowSurrogate (u : UInt16) : Prop := 0xDC00 ≤ u.toNat ∧ u.toNat < 0xE000

/-- No half of a pair stands alone. -/
inductive WellPaired : List UInt16 → Prop
  | nil : WellPaired []
  | unit {u : UInt16} {w : List UInt16} (hu : ¬ HighSurrogate u ∧ ¬ LowSurrogate u)
    (hw : WellPaired w) :
      WellPaired (u :: w)
  | pair {hi lo : UInt16} {w : List UInt16} (hhi : HighSurrogate hi) (hlo : LowSurrogate lo)
      (hw : WellPaired w) : WellPaired (hi :: lo :: w)

/-- A list of bytes that is the UTF-8 form of a text: no sequence in it is broken. -/
def WellFormedUtf8 (s : List UInt8) : Prop := ∃ cs : List Char, s = utf8 cs

@[simp] theorem utf8_nil : utf8 [] = [] := rfl
@[simp] theorem utf8_cons (c : Char) (cs : List Char) :
    utf8 (c :: cs) = String.utf8EncodeChar c ++ utf8 cs := rfl
@[simp] theorem utf16_nil : utf16 [] = [] := rfl
@[simp] theorem utf16_cons (c : Char) (cs : List Char) :
    utf16 (c :: cs) = utf16EncodeChar c ++ utf16 cs := rfl

/-- A character is no surrogate and no more than the last code point. -/
theorem char_range (c : Char) : c.toNat < 0xD800 ∨ 0xDFFF < c.toNat ∧ c.toNat < 0x110000 := c.valid

/-- The character with a given code point. -/
theorem exists_char {v : Nat} (hv : v.isValidChar) : ∃ c : Char, c.toNat = v := by
  have hlt : v < 2 ^ 32 := by
    rcases hv with hv | hv <;> omega
  have hto : (UInt32.ofNat v).toNat = v := by simpa using mod_eq_of_lt hlt
  refine ⟨⟨UInt32.ofNat v, ?_⟩, hto⟩
  rw [UInt32.isValidChar, hto]
  exact hv

theorem utf16EncodeChar_small {c : Char} (h : c.toNat < 0x10000) :
    utf16EncodeChar c = [UInt16.ofNat c.toNat] := by
  simp [utf16EncodeChar, h]

theorem utf16EncodeChar_large {c : Char} (h : ¬ c.toNat < 0x10000) :
    utf16EncodeChar c = [UInt16.ofNat (0xD800 + (c.toNat - 0x10000) / 0x400),
      UInt16.ofNat (0xDC00 + (c.toNat - 0x10000) % 0x400)] := by
  simp [utf16EncodeChar, h]

theorem toNat_ofNat16 {v : Nat} (h : v < 0x10000) : (UInt16.ofNat v).toNat = v := by
  simpa using mod_eq_of_lt h

theorem toNat_ofNat8 {v : Nat} (h : v < 0x100) : (UInt8.ofNat v).toNat = v := by
  simpa using mod_eq_of_lt h

/-- The encoding by cases of the code point. -/
theorem utf8EncodeChar_eq (c : Char) : String.utf8EncodeChar c =
    if c.toNat ≤ 127 then [UInt8.ofNat c.toNat]
    else if c.toNat ≤ 2047 then [UInt8.ofNat (c.toNat / 64 % 32 + 192),
      UInt8.ofNat (c.toNat % 64 + 128)]
    else if c.toNat ≤ 65535 then
      [UInt8.ofNat (c.toNat / 4096 % 16 + 224), UInt8.ofNat (c.toNat / 64 % 64 + 128),
        UInt8.ofNat (c.toNat % 64 + 128)]
    else
      [UInt8.ofNat (c.toNat / 262144 % 8 + 240), UInt8.ofNat (c.toNat / 4096 % 64 + 128),
        UInt8.ofNat (c.toNat / 64 % 64 + 128), UInt8.ofNat (c.toNat % 64 + 128)] := rfl

theorem ofNat8_eq_zero {v : Nat} (h : v < 0x100) : (0 = UInt8.ofNat v) ↔ v = 0 := by
  rw [← UInt8.toNat_inj, toNat_ofNat8 h, UInt8.toNat_zero]
  exact eq_comm

theorem ofNat16_eq_zero {v : Nat} (h : v < 0x10000) : (0 = UInt16.ofNat v) ↔ v = 0 := by
  rw [← UInt16.toNat_inj, toNat_ofNat16 h, UInt16.toNat_zero]
  exact eq_comm

/-- Only the character zero has a zero in its UTF-8 form. -/
theorem zero_mem_utf8EncodeChar {c : Char} : 0 ∈ String.utf8EncodeChar c ↔ c.toNat = 0 := by
  rw [utf8EncodeChar_eq]
  split_ifs with h1 h2 h3
  · rw [mem_singleton, ofNat8_eq_zero (by omega)]
  all_goals
    simp (disch := omega) only [mem_cons, not_mem_nil, or_false, ofNat8_eq_zero]
    omega

/-- And in its UTF-16 form. -/
theorem zero_mem_utf16EncodeChar {c : Char} : 0 ∈ utf16EncodeChar c ↔ c.toNat = 0 := by
  have hc := char_range c
  by_cases h : c.toNat < 0x10000
  · rw [utf16EncodeChar_small h, mem_singleton, ofNat16_eq_zero h]
  · rw [utf16EncodeChar_large h]
    simp only [mem_cons, not_mem_nil, or_false]
    rw [ofNat16_eq_zero (by omega), ofNat16_eq_zero (by omega)]
    omega

/-- The two forms of a text have zeros together. -/
theorem zero_mem_utf8_iff {cs : List Char} : 0 ∈ utf8 cs ↔ 0 ∈ utf16 cs := by
  simp only [utf8, utf16, mem_flatMap, zero_mem_utf8EncodeChar, zero_mem_utf16EncodeChar]

theorem wellPaired_encodeChar (c : Char) {w : List UInt16} (hw : WellPaired w) :
    WellPaired (utf16EncodeChar c ++ w) := by
  have hc := char_range c
  by_cases h : c.toNat < 0x10000
  · rw [utf16EncodeChar_small h]
    refine .unit ?_ hw
    rw [HighSurrogate, LowSurrogate, toNat_ofNat16 h]
    omega
  · rw [utf16EncodeChar_large h]
    refine .pair ?_ ?_ hw
    · rw [HighSurrogate, toNat_ofNat16 (by omega)]
      omega
    · rw [LowSurrogate, toNat_ofNat16 (by omega)]
      omega

/-- The UTF-16 forms of texts are the lists of units in which no half of a pair stands alone. -/
theorem wellPaired_iff {w : List UInt16} : WellPaired w ↔ ∃ cs, w = utf16 cs := by
  constructor
  · intro h
    induction h with
    | nil => exact ⟨[], rfl⟩
    | @unit u w hu hw ih =>
      obtain ⟨cs, rfl⟩ := ih
      have hlt : u.toNat < 0x10000 := u.toNat_lt
      simp only [HighSurrogate, LowSurrogate] at hu
      have hvalid : u.toNat.isValidChar := by
        simp only [Nat.isValidChar]
        omega
      obtain ⟨c, hc⟩ := exists_char hvalid
      refine ⟨c :: cs, ?_⟩
      rw [utf16_cons, utf16EncodeChar_small (by omega), hc, UInt16.ofNat_toNat]
      rfl
    | @pair hi lo w hhi hlo hw ih =>
      obtain ⟨cs, rfl⟩ := ih
      simp only [HighSurrogate, LowSurrogate] at hhi hlo
      have hvalid : (0x10000 + (hi.toNat - 0xD800) * 0x400 + (lo.toNat - 0xDC00)).isValidChar := by
        simp only [Nat.isValidChar]
        omega
      obtain ⟨c, hc⟩ := exists_char hvalid
      refine ⟨c :: cs, ?_⟩
      have hhigh : 0xD800 + (c.toNat - 0x10000) / 0x400 = hi.toNat := by omega
      have hlow : 0xDC00 + (c.toNat - 0x10000) % 0x400 = lo.toNat := by omega
      rw [utf16_cons, utf16EncodeChar_large (by omega), hhigh, hlow, UInt16.ofNat_toNat,
        UInt16.ofNat_toNat]
      rfl
  · rintro ⟨cs, rfl⟩
    induction cs with
    | nil => exact .nil
    | cons c cs ih => exact wellPaired_encodeChar c ih

/-! ## The masks of the encodings -/

theorem and_80_iff {b : Nat} (hb : b < 256) : b &&& 0x80 = 0 ↔ b < 0x80 := by
  revert b
  decide +kernel

theorem and_c0_iff {b : Nat} (hb : b < 256) : b &&& 0xC0 = 0x80 ↔ 0x80 ≤ b ∧ b < 0xC0 := by
  revert b
  decide +kernel

theorem and_e0_iff {b : Nat} (hb : b < 256) : b &&& 0xE0 = 0xC0 ↔ 0xC0 ≤ b ∧ b < 0xE0 := by
  revert b
  decide +kernel

theorem and_f0_iff {b : Nat} (hb : b < 256) : b &&& 0xF0 = 0xE0 ↔ 0xE0 ≤ b ∧ b < 0xF0 := by
  revert b
  decide +kernel

theorem and_f8_iff {b : Nat} (hb : b < 256) : b &&& 0xF8 = 0xF0 ↔ 0xF0 ≤ b ∧ b < 0xF8 := by
  revert b
  decide +kernel

/-- The low bits of a number, as a remainder. -/
theorem and_low (v k m : Nat) (hm : m = 2 ^ k - 1) : v &&& m = v % 2 ^ k := by
  rw [hm, and_two_pow_sub_one_eq_mod]

/-- Bits put below those of `v`, as a sum. -/
theorem shiftLeft_or (v k : Nat) {x : Nat} (hx : x < 2 ^ k) : v <<< k ||| x = v * 2 ^ k + x := by
  rw [← shiftLeft_add_eq_or_of_lt hx, shiftLeft_eq]

/-- Bits put below those of a constant that has none there, as a sum. -/
theorem const_or (v k : Nat) {x : Nat} (hv : v % 2 ^ k = 0) (hx : x < 2 ^ k) : v ||| x = v + x := by
  obtain ⟨q, rfl⟩ := dvd_of_mod_eq_zero hv
  rw [mul_comm, ← shiftLeft_eq, shiftLeft_or _ _ hx, shiftLeft_eq]

end Unicode
