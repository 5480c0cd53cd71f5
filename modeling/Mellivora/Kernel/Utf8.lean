import Mellivora.CRuntime.Utf

/-!
# UTF-8 at the console

`utf8_decode` of `utf8.inc`, which reads one code point at ESI. The cursor is an offset from where
it stood at entry, and `.ud_cont` moves it onto the continuation byte it is about to read.
-/

namespace Mellivora

open Unicode

/-- EAX, how far ESI has moved, and the carry flag. -/
structure Ud where
  eax : Nat
  esi : Nat
  cf : Bool
deriving DecidableEq, Repr

/-- `.ud_cont`: one continuation byte. -/
def udCont (s : List UInt8) (r : Ud) : Ud :=
  if byteAt s (r.esi + 1) &&& 0xC0 ≠ 0x80 then ⟨r.eax, r.esi + 1, true⟩
  else ⟨r.eax <<< 6 ||| byteAt s (r.esi + 1) &&& 0x3F, r.esi + 1, false⟩

/-- `.ud_bad`: U+FFFD, one byte on. -/
def udBad (r : Ud) : Ud := ⟨0xFFFD, r.esi + 1, true⟩

/-- `.ud_two`: a sequence of two bytes. -/
def udTwo (s : List UInt8) : Ud :=
  let r := udCont s ⟨byteAt s 0 &&& 0x1F, 0, false⟩
  if r.cf then udBad r
  else if r.eax < 0x80 then udBad r
  else r

/-- `.ud_three`: three bytes; no surrogates. -/
def udThree (s : List UInt8) : Ud :=
  let r := udCont s ⟨byteAt s 0 &&& 0x0F, 0, false⟩
  if r.cf then udBad r
  else
    let r := udCont s r
    if r.cf then udBad r
    else if r.eax < 0x800 then udBad r
    else if r.eax < 0xD800 then r
    else if r.eax ≤ 0xDFFF then udBad r
    else r

/-- `.ud_four`: four bytes, up to U+10FFFF. -/
def udFour (s : List UInt8) : Ud :=
  let r := udCont s ⟨byteAt s 0 &&& 0x07, 0, false⟩
  if r.cf then udBad r
  else
    let r := udCont s r
    if r.cf then udBad r
    else
      let r := udCont s r
      if r.cf then udBad r
      else if r.eax < 0x10000 then udBad r
      else if r.eax > 0x10FFFF then udBad r
      else r

/-- `utf8_decode`: the character at the front of `s`. -/
def utf8Decode (s : List UInt8) : Ud :=
  if byteAt s 0 = 0 then ⟨0, 0, false⟩
  else if byteAt s 0 &&& 0x80 = 0 then ⟨byteAt s 0, 1, false⟩
  else if byteAt s 0 &&& 0xE0 = 0xC0 then udTwo s
  else if byteAt s 0 &&& 0xF0 = 0xE0 then udThree s
  else if byteAt s 0 &&& 0xF8 = 0xF0 then udFour s
  else udBad ⟨byteAt s 0 &&& 0xF8, 0, false⟩

/-- At the cursor the kernel and the C runtime read the same code point and move on by the same
number of bytes: at least one, and none behind the terminator. -/
structure SameDecoding (s : List UInt8) : Prop where
  codePoint : (utf8Decode s).eax = (mvUtf8Decode s).cp
  advance : (utf8Decode s).esi = (mvUtf8Decode s).len
  moves : 1 ≤ (utf8Decode s).esi
  stays : (utf8Decode s).esi ≤ s.length

/-- A byte that announces continuation bytes. -/
def IsLead (b : Nat) : Prop := 0xC0 ≤ b ∧ b < 0xF8

instance (b : Nat) : Decidable (IsLead b) := inferInstanceAs (Decidable (_ ∧ _))

end Mellivora
