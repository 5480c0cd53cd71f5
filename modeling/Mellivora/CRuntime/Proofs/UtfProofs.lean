import Mellivora.CRuntime.Utf

/-!
# Proofs: the Unicode boundary of the C runtime

The decoder is described by the class of the lead byte, and with it decoding is inverse to the
encoding of each character.
-/

namespace Mellivora

open Unicode List Nat

variable {cap cp need v : Nat} {s : List UInt8}

/-! ## The decoder by lead byte -/

theorem byteAt_lt (s : List UInt8) (i : Nat) : byteAt s i < 256 := (s.getD i 0).toNat_lt

@[simp] theorem byteAt_cons_zero (b : UInt8) (s : List UInt8) : byteAt (b :: s) 0 = b.toNat := rfl

@[simp] theorem byteAt_cons_succ (b : UInt8) (s : List UInt8) (i : Nat) :
    byteAt (b :: s) (i + 1) = byteAt s i := rfl

/-- What is read behind the end is the terminator. -/
theorem lt_length_of_byteAt {i : Nat} (h : 0 < byteAt s i) : i < s.length := by
  by_contra hle
  rw [byteAt, getD_eq_default _ _ (Nat.le_of_not_lt hle)] at h
  exact absurd h (by decide)

theorem mvUtf8Decode_ascii (h : byteAt s 0 < 0x80) : mvUtf8Decode s = ⟨byteAt s 0, 1⟩ := by
  rw [mvUtf8Decode, if_pos h]

theorem mvUtf8Decode_two (h : 0xC0 ≤ byteAt s 0) (h' : byteAt s 0 < 0xE0) :
    mvUtf8Decode s =
      if byteAt s 0 % 2 ^ 5 < 0x02 then mvMalformed else mvFinish s 1 (byteAt s 0 % 2 ^ 5) := by
  rw [mvUtf8Decode, if_neg (by omega), if_pos ((and_e0_iff (byteAt_lt s 0)).mpr ⟨h, h'⟩),
    and_low _ 5 0x1F rfl]

theorem mvUtf8Decode_three (h : 0xE0 ≤ byteAt s 0) (h' : byteAt s 0 < 0xF0) :
    mvUtf8Decode s = mvFinish s 2 (byteAt s 0 % 2 ^ 4) := by
  have hlt := byteAt_lt s 0
  rw [mvUtf8Decode, if_neg (by omega), if_neg (by rw [and_e0_iff hlt]; omega),
    if_pos ((and_f0_iff hlt).mpr ⟨h, h'⟩), and_low _ 4 0x0F rfl]

theorem mvUtf8Decode_four (h : 0xF0 ≤ byteAt s 0) (h' : byteAt s 0 < 0xF8) :
    mvUtf8Decode s = mvFinish s 3 (byteAt s 0 % 2 ^ 3) := by
  have hlt := byteAt_lt s 0
  rw [mvUtf8Decode, if_neg (by omega), if_neg (by rw [and_e0_iff hlt]; omega),
    if_neg (by rw [and_f0_iff hlt]; omega), if_pos ((and_f8_iff hlt).mpr ⟨h, h'⟩),
    and_low _ 3 0x07 rfl]

theorem mvUtf8Decode_noLead (h : 0x80 ≤ byteAt s 0) (h' : byteAt s 0 < 0xC0 ∨ 0xF8 ≤ byteAt s 0) :
    mvUtf8Decode s = mvMalformed := by
  have hlt := byteAt_lt s 0
  rw [mvUtf8Decode, if_neg (by omega), if_neg (by rw [and_e0_iff hlt]; omega),
    if_neg (by rw [and_f0_iff hlt]; omega), if_neg (by rw [and_f8_iff hlt]; omega)]

theorem mvContinue_succ (i need cp : Nat) :
    mvContinue s i (need + 1) cp =
      if 0x80 ≤ byteAt s i ∧
        byteAt s i < 0xC0 then mvContinue s (i + 1) need (cp * 2 ^ 6 + byteAt s i % 2 ^ 6)
      else none := by
  rw [mvContinue, and_low _ 6 0x3F rfl, shiftLeft_or cp 6 (mod_lt _ (by decide))]
  by_cases h : byteAt s i &&& 0xC0 = 0x80
  · rw [if_neg (not_not.mpr h), if_pos ((and_c0_iff (byteAt_lt s i)).mp h)]
  · rw [if_pos h, if_neg fun h' => h ((and_c0_iff (byteAt_lt s i)).mpr h')]

/-- What the loop over the continuation bytes yields, and that it stays in the string. -/
theorem mvContinue_some {i : Nat} (h : mvContinue s i need cp = some v) :
    cp * (2 ^ 6) ^ need ≤ v ∧ v < (cp + 1) * (2 ^ 6) ^ need ∧ (need = 0 ∨ i + need ≤ s.length) := by
  induction need generalizing i cp with
  | zero =>
    obtain rfl : cp = v := Option.some.inj h
    exact ⟨by omega, by omega, .inl rfl⟩
  | succ need ih =>
  rw [mvContinue_succ] at h
  split at h
  case isFalse => cases h
  case isTrue hcont =>
    obtain ⟨hlow, hv, hlen⟩ := ih h
    have hin := lt_length_of_byteAt (s := s) (i := i) (by omega)
    have hcp : cp * 2 ^ 6 + byteAt s i % 2 ^ 6 + 1 ≤ (cp + 1) * 2 ^ 6 := by omega
    rw [pow_succ' (2 ^ 6) need, ← mul_assoc, ← mul_assoc]
    refine ⟨?_, ?_, .inr (by omega)⟩
    · exact (mul_le_mul_right _ (le_add_right _ _)).trans hlow
    · exact hv.trans_le (mul_le_mul_right _ hcp)

/-- What the decoder guarantees for every string: the code point of a character, and a cursor that
stays in the string. -/
structure Decoded.Sound (d : Decoded) (s : List UInt8) : Prop where
  valid : d.cp.isValidChar
  len_le : d.len ≤ s.length

theorem mvMalformed_sound (hs : s ≠ []) :
    mvMalformed.Sound s := ⟨by decide, length_pos_of_ne_nil hs⟩

theorem mvFinish_of_none (h : mvContinue s 1 need cp = none) :
    mvFinish s need cp = mvMalformed := by
  rw [mvFinish, h]

theorem mvFinish_of_some (h : mvContinue s 1 need cp = some v) :
    mvFinish s need cp =
      if (need = 2 ∧ v < 0x800) ∨ (need = 3 ∧ v < 0x10000) ∨ v > 0x10FFFF ∨
        (v ≥ 0xD800 ∧ v ≤ 0xDFFF) then
        mvMalformed
      else ⟨v, need + 1⟩ := by
  rw [mvFinish, h]

theorem mvFinish_sound (hs : s ≠ []) (hneed : need ≠ 0) : (mvFinish s need cp).Sound s := by
  cases hc : mvContinue s 1 need cp with
  | none =>
    rw [mvFinish_of_none hc]
    exact mvMalformed_sound hs
  | some v =>
  obtain ⟨-, -, hlen⟩ := mvContinue_some hc
  rw [mvFinish_of_some hc]
  split_ifs with hbad
  · exact mvMalformed_sound hs
  · refine ⟨?_, ?_⟩
    · show v < 55296 ∨ 57343 < v ∧ v < 1114112
      omega
    · show need + 1 ≤ s.length
      omega

/-- What is decoded is the bytes that are consumed, or U+FFFD. -/
theorem mvUtf8Decode_sound (hs : s ≠ []) : (mvUtf8Decode s).Sound s := by
  rcases lt_or_ge (byteAt s 0) 0x80 with h | h
  · rw [mvUtf8Decode_ascii h]
    refine ⟨?_, length_pos_of_ne_nil hs⟩
    show byteAt s 0 < 55296 ∨ 57343 < byteAt s 0 ∧ byteAt s 0 < 1114112
    omega
  · rw [mvUtf8Decode, if_neg (not_lt.mpr h)]
    split_ifs
    · exact mvMalformed_sound hs
    · exact mvFinish_sound hs (by decide)
    · exact mvFinish_sound hs (by decide)
    · exact mvFinish_sound hs (by decide)
    · exact mvMalformed_sound hs

/-! ## One character -/

/-- A well-formed sequence of `need` continuation bytes decodes to its code point. -/
theorem mvFinish_continued (h : mvContinue s 1 need cp = some v) (hv : v.isValidChar)
    (h2 : need = 2 → 0x800 ≤ v) (h3 : need = 3 → 0x10000 ≤ v) : mvFinish s need cp =
    ⟨v, need + 1⟩ := by
  rw [mvFinish_of_some h, if_neg]
  simp only [Nat.isValidChar] at hv
  omega

theorem toNat_continuation (x : Nat) :
    (UInt8.ofNat (x % 64 + 128)).toNat = x % 64 + 128 := toNat_ofNat8 (by omega)

/-- The decoder reads back the encoding of a character, whatever follows it. -/
theorem mvUtf8Decode_encodeChar (c : Char) (rest : List UInt8) :
    mvUtf8Decode (String.utf8EncodeChar c ++ rest) =
    ⟨c.toNat, (String.utf8EncodeChar c).length⟩ := by
  have hc := char_range c
  have hvalid : c.toNat.isValidChar := c.valid
  rw [utf8EncodeChar_eq]
  split_ifs with h1 h2 h3
  · have hb : byteAt (UInt8.ofNat c.toNat :: rest) 0 = c.toNat := toNat_ofNat8 (by omega)
    rw [singleton_append, mvUtf8Decode_ascii (by omega), hb]
    rfl
  · have hb : (UInt8.ofNat (c.toNat / 64 % 32 + 192)).toNat = c.toNat / 64 % 32 + 192 :=
      toNat_ofNat8 (by omega)
    simp only [cons_append, nil_append]
    rw [mvUtf8Decode_two (by rw [byteAt_cons_zero]; omega) (by rw [byteAt_cons_zero]; omega),
      if_neg (by rw [byteAt_cons_zero]; omega)]
    apply mvFinish_continued
    · rw [mvContinue_succ, byteAt_cons_zero, byteAt_cons_succ, byteAt_cons_zero,
        toNat_continuation, hb,
        if_pos (by omega), mvContinue]
      congr 1
      omega
    · exact hvalid
    · omega
    · omega
  · have hb : (UInt8.ofNat (c.toNat / 4096 % 16 + 224)).toNat = c.toNat / 4096 % 16 + 224 :=
      toNat_ofNat8 (by omega)
    simp only [cons_append, nil_append]
    rw [mvUtf8Decode_three (by rw [byteAt_cons_zero]; omega) (by rw [byteAt_cons_zero]; omega)]
    apply mvFinish_continued
    · simp only [mvContinue_succ, byteAt_cons_zero, byteAt_cons_succ, toNat_continuation, hb]
      rw [if_pos (by omega), if_pos (by omega), mvContinue]
      congr 1
      omega
    · exact hvalid
    · omega
    · omega
  · have hb : (UInt8.ofNat (c.toNat / 262144 % 8 + 240)).toNat = c.toNat / 262144 % 8 + 240 :=
      toNat_ofNat8 (by omega)
    simp only [cons_append, nil_append]
    rw [mvUtf8Decode_four (by rw [byteAt_cons_zero]; omega) (by rw [byteAt_cons_zero]; omega)]
    apply mvFinish_continued
    · simp only [mvContinue_succ, byteAt_cons_zero, byteAt_cons_succ, toNat_continuation, hb]
      rw [if_pos (by omega), if_pos (by omega), if_pos (by omega), mvContinue]
      congr 1
      omega
    · exact hvalid
    · omega
    · omega

/-- The encoder agrees with the standard one. -/
theorem mvUtf8Encode_toNat (c : Char) : mvUtf8Encode c.toNat = String.utf8EncodeChar c := by
  have hc := char_range c
  have hcont : ∀ x, 0x80 ||| x &&& 0x3F = x % 64 + 128 := by
    intro x
    rw [and_low x 6 0x3F rfl, const_or 0x80 6 rfl (mod_lt _ (by decide)), add_comm]
    rfl
  rw [utf8EncodeChar_eq, mvUtf8Encode]
  simp only [hcont, shiftRight_eq_div_pow]
  split_ifs with h1 h1' h2 h2' h3 h3'
  all_goals first | omega | skip
  · rfl
  · have hlead : 0xC0 ||| c.toNat / 2 ^ 6 = c.toNat / 64 % 32 + 192 := by
      rw [const_or 0xC0 5 rfl (by omega)]
      omega
    rw [hlead]
  · have hlead : 0xE0 ||| c.toNat / 2 ^ 12 = c.toNat / 4096 % 16 + 224 := by
      rw [const_or 0xE0 4 rfl (by omega)]
      omega
    rw [hlead]
  · have hlead : 0xF0 ||| c.toNat / 2 ^ 18 = c.toNat / 262144 % 8 + 240 := by
      rw [const_or 0xF0 3 rfl (by omega)]
      omega
    rw [hlead]

/-- A turn of `mv_utf8_to_utf16` stores the UTF-16 form of the character it has decoded, if all of
it fits in front of the terminator. -/
theorem utf8ToUtf16Loop_turn (hs : s ≠ []) {c : Char}
    (hc : (mvUtf8Decode s).cp = c.toNat) (out : List UInt16) :
    utf8ToUtf16Loop cap s out =
      if out.length + (utf16EncodeChar c).length ≥ cap then out
      else utf8ToUtf16Loop cap (s.drop (mvUtf8Decode s).len) (out ++ utf16EncodeChar c) := by
  rw [utf8ToUtf16Loop, dif_neg hs]
  simp only [hc]
  by_cases h : c.toNat < 0x10000
  · rw [if_neg (by omega), utf16EncodeChar_small h]
    rfl
  · rw [if_pos (by omega), utf16EncodeChar_large h, and_low _ 10 0x3FF rfl, shiftRight_eq_div_pow]
    rfl

/-- Units of a character are read back as that character. -/
theorem takeWide_encodeChar (c : Char) (w : List UInt16) :
    ∃ u rest, utf16EncodeChar c ++ w = u :: rest ∧ takeWide u rest = (c.toNat, w) := by
  have hc := char_range c
  by_cases h : c.toNat < 0x10000
  · refine ⟨UInt16.ofNat c.toNat, w, by rw [utf16EncodeChar_small h]; rfl, ?_⟩
    rw [takeWide, toNat_ofNat16 h]
    simp only []
    rw [if_neg (by omega), if_neg (by omega)]
  refine ⟨UInt16.ofNat (0xD800 + (c.toNat - 0x10000) / 0x400),
    UInt16.ofNat (0xDC00 + (c.toNat - 0x10000) % 0x400) ::
    w, by rw [utf16EncodeChar_large h]; rfl, ?_⟩
  simp only [takeWide, getD_cons_zero, drop_succ_cons, drop_zero]
  rw [toNat_ofNat16 (by omega), toNat_ofNat16 (by omega), if_pos (by omega), if_pos (by omega),
    shiftLeft_eq]
  refine Prod.ext ?_ rfl
  show 0x10000 + (0xD800 + (c.toNat - 0x10000) / 0x400 - 0xD800) * 2 ^ 10 +
    (0xDC00 + (c.toNat - 0x10000) % 0x400 - 0xDC00) = c.toNat
  omega

theorem mvReplacement_valid : mvReplacement.isValidChar := by decide

/-- What is read from units is a character. -/
theorem takeWide_valid (u : UInt16) (w : List UInt16) : (takeWide u w).1.isValidChar := by
  have hu : u.toNat < 0x10000 := u.toNat_lt
  simp only [takeWide, shiftLeft_eq]
  split_ifs with h1 h2 h3
  · simp only [Nat.isValidChar]
    omega
  · exact mvReplacement_valid
  · exact mvReplacement_valid
  · simp only [Nat.isValidChar]
    omega

/-! ## Texts -/

theorem utf8_cons_ne_nil (c : Char) (cs : List Char) : utf8 (c :: cs) ≠ [] := by
  intro h
  have hlen := congrArg length h
  simp [String.length_utf8EncodeChar] at hlen
  exact absurd hlen.1 (ne_of_gt (Char.utf8Size_pos c))

/-- The length of a well-formed text is counted right. -/
theorem utf16LenLoop_utf8 (cs : List Char) (n : Nat) :
    utf16LenLoop (utf8 cs) n = n + (utf16 cs).length := by
  induction cs generalizing n with
  | nil => simp [utf16LenLoop]
  | cons c cs ih =>
  rw [utf16LenLoop, dif_neg (utf8_cons_ne_nil c cs), utf8_cons, mvUtf8Decode_encodeChar,
    drop_left, ih,
    utf16_cons, length_append, add_assoc]
  congr 2
  by_cases h : c.toNat < 0x10000
  · rw [if_neg (by simpa using le_of_lt_succ h), utf16EncodeChar_small h]
    rfl
  · rw [if_pos (Nat.lt_of_not_le fun hle => h (Nat.lt_succ_of_le hle)), utf16EncodeChar_large h]
    rfl

/-- With room a well-formed text is converted whole. -/
theorem utf8ToUtf16Loop_utf8 (cs : List Char) (out : List UInt16)
    (hcap : out.length + (utf16 cs).length < cap) : utf8ToUtf16Loop cap (utf8 cs) out =
    out ++ utf16 cs := by
  induction cs generalizing out with
  | nil => simp [utf8ToUtf16Loop]
  | cons c cs ih =>
  rw [utf16_cons, length_append] at hcap
  have hdecode := mvUtf8Decode_encodeChar c (utf8 cs)
  rw [← utf8_cons] at hdecode
  rw [utf8ToUtf16Loop_turn (utf8_cons_ne_nil c cs) (congrArg Decoded.cp hdecode),
    if_neg (by omega), hdecode,
    utf8_cons, drop_left, ih, utf16_cons, append_assoc]
  rw [length_append]
  omega

/-- With room well-paired units are converted whole. -/
theorem utf16ToUtf8Loop_utf16 (cs : List Char) (out : List UInt8)
    (hcap : out.length + (utf8 cs).length < cap) : utf16ToUtf8Loop cap (utf16 cs) out =
    out ++ utf8 cs := by
  induction cs generalizing out with
  | nil => simp [utf16ToUtf8Loop]
  | cons c cs ih =>
  obtain ⟨u, rest, hw, htake⟩ := takeWide_encodeChar c (utf16 cs)
  rw [utf8_cons, length_append] at hcap
  rw [utf16_cons, hw, utf16ToUtf8Loop]
  simp only [htake, mvUtf8Encode_toNat]
  rw [if_neg (by omega), ih, utf8_cons, append_assoc]
  rw [length_append]
  omega

/-! ## Any input -/

/-- What a conversion has stored is complete, and leaves room for the terminator. -/
def StoredWhole {α : Type} (form : List Char → List α) (cap : Nat) (out : List α) : Prop :=
  (∃ cs, out = form cs) ∧ (out = [] ∨ out.length < cap)

/-- Only whole characters are stored. -/
theorem utf8ToUtf16Loop_fits (cap : Nat) (s : List UInt8) (out : List UInt16)
    (h : StoredWhole utf16 cap out) :
    StoredWhole utf16 cap (utf8ToUtf16Loop cap s out) := by
  -- The loop ends because what is left of the string gets shorter.
  induction hn : s.length using Nat.strong_induction_on generalizing s out with
  | _ n ih =>
  by_cases hs : s = []
  · rw [utf8ToUtf16Loop, dif_pos hs]
    exact h
  obtain ⟨c, hc⟩ := exists_char (mvUtf8Decode_sound hs).valid
  rw [utf8ToUtf16Loop_turn hs hc.symm]
  split_ifs with hfull
  · exact h
  refine ih _ ?_ _ _ ?_ rfl
  · rw [← hn]
    exact length_drop_decoded hs
  · obtain ⟨⟨cs, rfl⟩, -⟩ := h
    refine ⟨⟨cs ++ [c], by simp [utf16]⟩, .inr ?_⟩
    rw [length_append]
    omega

/-- Only whole characters are stored. -/
theorem utf16ToUtf8Loop_fits (cap : Nat) (w : List UInt16) (out : List UInt8)
    (h : StoredWhole utf8 cap out) :
    StoredWhole utf8 cap (utf16ToUtf8Loop cap w out) := by
  fun_induction utf16ToUtf8Loop cap w out with
  | case1 out => exact h
  | case2 out u rest hlen buf hfull => exact h
  | case3 out u rest hlen buf hroom ih =>
    apply ih
    obtain ⟨⟨cs, rfl⟩, -⟩ := h
    obtain ⟨c, hc⟩ := exists_char (takeWide_valid u rest)
    have hbuf : buf = String.utf8EncodeChar c := by
      rw [← mvUtf8Encode_toNat c, hc]
    rw [hbuf] at hroom ⊢
    refine ⟨⟨cs ++ [c], by simp [utf8]⟩, .inr ?_⟩
    rw [length_append]
    omega

theorem StoredWhole.terminated {α : Type} [Zero α] {form : List Char → List α} {out : List α}
    (h : StoredWhole form cap out) (happ : ∀ cs, form (cs ++ ['\x00']) = form cs ++ [0]) :
    (∃ cs, (Conversion.terminated out cap).stored = form cs) ∧
    (Conversion.terminated out cap).stored.length ≤ cap := by
  obtain ⟨⟨cs, rfl⟩, hroom⟩ := h
  rw [Conversion.terminated]
  by_cases hcap : cap = 0
  · grind
  · grind

theorem utf16_terminated (cs : List Char) : utf16 (cs ++ ['\x00']) = utf16 cs ++ [0] := by
  rw [utf16, flatMap_append]
  rfl

theorem utf8_terminated (cs : List Char) : utf8 (cs ++ ['\x00']) = utf8 cs ++ [0] := by
  rw [utf8, flatMap_append]
  rfl

/-! ## The conversions -/

theorem Conversion.text_terminated {α : Type} [Zero α] [DecidableEq α] (s : ZString α)
    (hcap : s.units.length < cap) : (Conversion.terminated s.units cap).text = s := by
  rw [Conversion.text, Conversion.terminated, if_pos (by omega)]
  exact ZString.ofBuffer_terminated s

section Text

variable {cs : List Char} {s : ZString UInt8} {w : ZString UInt16}

theorem mvUtf8ToUtf16_text (hs : s.units = utf8 cs) (hw : w.units = utf16 cs)
    (hcap : w.units.length < cap) : mvUtf8ToUtf16 s cap = .terminated w.units cap := by
  rw [mvUtf8ToUtf16, hs, utf8ToUtf16Loop_utf8, nil_append, hw]
  simpa [← hw] using hcap

theorem mvUtf16ToUtf8_text (hs : s.units = utf8 cs) (hw : w.units = utf16 cs)
    (hcap : s.units.length < cap) : mvUtf16ToUtf8 w cap = .terminated s.units cap := by
  rw [mvUtf16ToUtf8, hw, utf16ToUtf8Loop_utf16, nil_append, hs]
  simpa [← hs] using hcap

/-- A well-formed text comes back. -/
theorem roundTripsUtf8_of_wellFormed (hs : WellFormedUtf8 s.units) : RoundTripsUtf8 s := by
  obtain ⟨cs, hcs⟩ := hs
  have hnul : 0 ∉ utf16 cs := by
    rw [← zero_mem_utf8_iff, ← hcs]
    exact s.noZero
  let w : ZString UInt16 := ⟨utf16 cs, hnul⟩
  have hlen : mvUtf16Len s = w.units.length := by
    rw [mvUtf16Len, hcs, utf16LenLoop_utf8, zero_add]
  intro cap hcap
  rw [hlen] at hcap ⊢
  rw [mvUtf8ToUtf16_text hcs rfl hcap]
  refine ⟨rfl, fun room hroom => ?_⟩
  rw [Conversion.text_terminated w hcap, mvUtf16ToUtf8_text hcs rfl hroom,
    Conversion.text_terminated s hroom]

/-- Paired units come back. -/
theorem roundTripsUtf16_of_wellPaired (hw : WellPaired w.units) : RoundTripsUtf16 w := by
  obtain ⟨cs, hcs⟩ := wellPaired_iff.mp hw
  have hnul : 0 ∉ utf8 cs := by
    rw [zero_mem_utf8_iff, ← hcs]
    exact w.noZero
  let s : ZString UInt8 := ⟨utf8 cs, hnul⟩
  refine ⟨s.units.length, fun cap hcap => ?_⟩
  rw [mvUtf16ToUtf8_text rfl hcs hcap]
  refine ⟨rfl, fun room hroom => ?_⟩
  rw [Conversion.text_terminated s hcap, mvUtf8ToUtf16_text rfl hcs hroom,
    Conversion.text_terminated w hroom]

end Text

/-- **The conversions are inverse to each other and never break a character**: well-formed strings
of either form come back as they were; and for any string and any capacity, what is stored, the
terminator included, fits the buffer and holds no half of a surrogate pair and no part of a UTF-8
sequence. -/
theorem utf_conversions :
    (∀ s : ZString UInt8, WellFormedUtf8 s.units → RoundTripsUtf8 s) ∧
      (∀ w : ZString UInt16, WellPaired w.units → RoundTripsUtf16 w) ∧
      (∀ (s : ZString UInt8) (cap : Nat),
        (mvUtf8ToUtf16 s cap).stored.length ≤ cap ∧ WellPaired (mvUtf8ToUtf16 s cap).stored) ∧
      ∀ (w : ZString UInt16) (cap : Nat),
        (mvUtf16ToUtf8 w cap).stored.length ≤ cap ∧
        WellFormedUtf8 (mvUtf16ToUtf8 w cap).stored := by
  refine ⟨fun s => roundTripsUtf8_of_wellFormed, fun w => roundTripsUtf16_of_wellPaired, ?_, ?_⟩
  · intro s cap
    have hfits := utf8ToUtf16Loop_fits cap s.units [] ⟨⟨[], rfl⟩, .inl rfl⟩
    obtain ⟨hcs, hlen⟩ := hfits.terminated utf16_terminated
    exact ⟨hlen, wellPaired_iff.mpr hcs⟩
  · intro w cap
    have hfits := utf16ToUtf8Loop_fits cap w.units [] ⟨⟨[], rfl⟩, .inl rfl⟩
    obtain ⟨hcs, hlen⟩ := hfits.terminated utf8_terminated
    exact ⟨hlen, hcs⟩

/-- The text `é😀`: six bytes, three units. -/
theorem utf_conversions_accented :
    RoundTripsUtf8 ⟨[0xC3, 0xA9, 0xF0, 0x9F, 0x98, 0x80], by decide⟩ ∧
      RoundTripsUtf16 ⟨[0xE9, 0xD83D, 0xDE00], by decide⟩ :=
  ⟨utf_conversions.1 _ ⟨['é', '😀'], by decide⟩,
    utf_conversions.2.1 _ (wellPaired_iff.mpr ⟨['é', '😀'], by decide⟩)⟩

end Mellivora
