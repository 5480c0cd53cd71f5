import Mellivora.Lib.Unicode

/-!
# The Unicode boundary of the C runtime

`utf.c`: a decoder and an encoder for one code point, and the conversions between UTF-8 and UTF-16
over them. A string is what stands in front of its terminator, and reading at its end gives the
terminator. What a conversion stores goes to ascending places from the start of the buffer, so it is
the list of the stored units; `written` is what the function returns.
-/

namespace Mellivora

open Unicode

/-- `MV_REPLACEMENT`: U+FFFD. -/
def mvReplacement : Nat := 0xFFFD

/-- The byte at an offset from the cursor; the terminator behind the string's last byte. -/
def byteAt (s : List UInt8) (i : Nat) : Nat := (s.getD i 0).toNat

/-- A code point and the bytes it was decoded from. -/
structure Decoded where
  cp : Nat
  len : Nat
deriving DecidableEq, Repr

/-! ## One code point -/

/-- The loop over the `need` continuation bytes from `i` on; `none` is the jump to `malformed`. -/
def mvContinue (s : List UInt8) (i : Nat) : Nat → Nat → Option Nat
  | 0, cp => some cp
  | need + 1, cp =>
    if byteAt s i &&& 0xC0 ≠ 0x80 then none
    else mvContinue s (i + 1) need (cp <<< 6 ||| byteAt s i &&& 0x3F)

/-- What a malformed sequence decodes to: U+FFFD, one byte on. -/
def mvMalformed : Decoded := ⟨mvReplacement, 1⟩

/-- From the lead byte's bits on: the continuation bytes, and what UTF-8 cannot mean. -/
def mvFinish (s : List UInt8) (need cp : Nat) : Decoded :=
  match mvContinue s 1 need cp with
  | none => mvMalformed
  | some cp =>
    if (need = 2 ∧ cp < 0x800) ∨ (need = 3 ∧ cp < 0x10000) ∨ cp > 0x10FFFF ∨
      (cp ≥ 0xD800 ∧ cp ≤ 0xDFFF) then
      mvMalformed
    else ⟨cp, need + 1⟩

/-- `mv_utf8_decode`: the code point at the front of `s`. -/
def mvUtf8Decode (s : List UInt8) : Decoded :=
  if byteAt s 0 < 0x80 then ⟨byteAt s 0, 1⟩
  else if byteAt s 0 &&& 0xE0 = 0xC0 then
    if byteAt s 0 &&& 0x1F < 0x02 then mvMalformed else mvFinish s 1 (byteAt s 0 &&& 0x1F)
  else if byteAt s 0 &&& 0xF0 = 0xE0 then mvFinish s 2 (byteAt s 0 &&& 0x0F)
  else if byteAt s 0 &&& 0xF8 = 0xF0 then mvFinish s 3 (byteAt s 0 &&& 0x07)
  else mvMalformed

/-- `mv_utf8_encode`: the bytes it puts in `out`; it returns how many. -/
def mvUtf8Encode (cp : Nat) : List UInt8 :=
  if cp < 0x80 then [UInt8.ofNat cp]
  else if cp < 0x800 then [UInt8.ofNat (0xC0 ||| cp >>> 6), UInt8.ofNat (0x80 ||| cp &&& 0x3F)]
  else if cp < 0x10000 then
    [UInt8.ofNat (0xE0 ||| cp >>> 12), UInt8.ofNat (0x80 ||| cp >>> 6 &&& 0x3F),
      UInt8.ofNat (0x80 ||| cp &&& 0x3F)]
  else
    [UInt8.ofNat (0xF0 ||| cp >>> 18), UInt8.ofNat (0x80 ||| cp >>> 12 &&& 0x3F),
      UInt8.ofNat (0x80 ||| cp >>> 6 &&& 0x3F), UInt8.ofNat (0x80 ||| cp &&& 0x3F)]

/-- Decoding makes progress, so every loop over a string ends. -/
theorem mvUtf8Decode_len_pos (s : List UInt8) : 1 ≤ (mvUtf8Decode s).len := by
  have hfinish : ∀ need cp, 1 ≤ (mvFinish s need cp).len := by
    intro need cp
    rw [mvFinish]
    split
    · exact le_refl 1
    · split
      · exact le_refl 1
      · exact Nat.le_add_left 1 need
  rw [mvUtf8Decode]
  split_ifs
  · exact le_refl 1
  · exact le_refl 1
  · exact hfinish _ _
  · exact hfinish _ _
  · exact hfinish _ _
  · exact le_refl 1

theorem length_drop_decoded {s : List UInt8} (hs : ¬ s = []) :
    (s.drop (mvUtf8Decode s).len).length < s.length := by
  have hpos := mvUtf8Decode_len_pos s
  have hne := List.length_pos_of_ne_nil hs
  rw [List.length_drop]
  omega

/-! ## Strings -/

/-- The loop of `mv_utf16_len`. -/
def utf16LenLoop (s : List UInt8) (units : Nat) : Nat :=
  if hs : s = [] then units
  else
    utf16LenLoop (s.drop (mvUtf8Decode s).len)
      (units + if (mvUtf8Decode s).cp > 0xFFFF then 2 else 1)
termination_by s.length
decreasing_by exact length_drop_decoded hs

/-- `mv_utf16_len`: the units a text takes in UTF-16. -/
def mvUtf16Len (utf8 : ZString UInt8) : Nat := utf16LenLoop utf8.units 0

/-- What a conversion stores, with its terminator, and the count it returns. -/
structure Conversion (α : Type) where
  stored : List α
  written : Nat

/-- The terminator is stored unless there is no room at all. -/
def Conversion.terminated {α : Type} [Zero α] (out : List α) (cap : Nat) : Conversion α :=
  ⟨if cap ≠ 0 then out ++ [0] else out, out.length⟩

/-- The loop of `mv_utf8_to_utf16`; it stops where the next unit would take the last place. -/
def utf8ToUtf16Loop (cap : Nat) (s : List UInt8) (out : List UInt16) : List UInt16 :=
  if hs : s = [] then out
  else
    have := length_drop_decoded hs
    let cp := (mvUtf8Decode s).cp
    if cp > 0xFFFF then
      if out.length + 2 ≥ cap then out
      else
        utf8ToUtf16Loop cap (s.drop (mvUtf8Decode s).len)
          (out ++ [UInt16.ofNat (0xD800 + (cp - 0x10000) >>> 10),
            UInt16.ofNat (0xDC00 + ((cp - 0x10000) &&& 0x3FF))])
    else if out.length + 1 ≥ cap then out
    else utf8ToUtf16Loop cap (s.drop (mvUtf8Decode s).len) (out ++ [UInt16.ofNat cp])
termination_by s.length
decreasing_by
  · exact this
  · exact this

/-- `mv_utf8_to_utf16`. -/
def mvUtf8ToUtf16 (utf8 : ZString UInt8) (cap : Nat) : Conversion UInt16 :=
  .terminated (utf8ToUtf16Loop cap utf8.units []) cap

/-- The code point at the front of a UTF-16 string and what is left: a lone surrogate is
replaced. -/
def takeWide (u : UInt16) (wide : List UInt16) : Nat × List UInt16 :=
  let cp := u.toNat
  if cp ≥ 0xD800 ∧ cp ≤ 0xDBFF then
    let low := (wide.getD 0 0).toNat
    if low ≥ 0xDC00 ∧ low ≤ 0xDFFF then
      (0x10000 + (cp - 0xD800) <<< 10 + (low - 0xDC00), wide.drop 1)
    else (mvReplacement, wide)
  else if cp ≥ 0xDC00 ∧ cp ≤ 0xDFFF then (mvReplacement, wide)
  else (cp, wide)

theorem length_takeWide (u : UInt16) (wide : List UInt16) :
    (takeWide u wide).2.length ≤ wide.length := by
  simp only [takeWide]
  split_ifs
  · rw [List.length_drop]
    exact Nat.sub_le _ _
  all_goals exact le_refl _

/-- The loop of `mv_utf16_to_utf8`. -/
def utf16ToUtf8Loop (cap : Nat) (wide : List UInt16) (out : List UInt8) : List UInt8 :=
  match wide with
  | [] => out
  | u :: rest =>
    have := length_takeWide u rest
    let buf := mvUtf8Encode (takeWide u rest).1
    if out.length + buf.length ≥ cap then out
    else utf16ToUtf8Loop cap (takeWide u rest).2 (out ++ buf)
termination_by wide.length
decreasing_by simp only [List.length_cons]; omega

/-- `mv_utf16_to_utf8`. -/
def mvUtf16ToUtf8 (wide : ZString UInt16) (cap : Nat) : Conversion UInt8 :=
  .terminated (utf16ToUtf8Loop cap wide.units []) cap

/-! ## What the conversions are for -/

/-- The string a reader of the buffer finds. -/
def Conversion.text {α : Type} [Zero α] [DecidableEq α] (r : Conversion α) : ZString α :=
  .ofBuffer r.stored

/-- With room for it, the whole string is converted, and converting back returns it. -/
def RoundTripsUtf8 (s : ZString UInt8) : Prop :=
  ∀ cap, mvUtf16Len s < cap → (mvUtf8ToUtf16 s cap).written = mvUtf16Len s ∧
    ∀ room, s.units.length < room → (mvUtf16ToUtf8 (mvUtf8ToUtf16 s cap).text room).text = s

/-- The same from a wide string, where `size` bytes are what it takes. -/
def RoundTripsUtf16 (w : ZString UInt16) : Prop :=
  ∃ size, ∀ cap, size < cap → (mvUtf16ToUtf8 w cap).written = size ∧
    ∀ room, w.units.length < room → (mvUtf8ToUtf16 (mvUtf16ToUtf8 w cap).text room).text = w

end Mellivora
