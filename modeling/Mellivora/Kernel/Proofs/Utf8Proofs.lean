import Mellivora.CRuntime.Proofs.UtfProofs
import Mellivora.Kernel.Utf8

/-!
# Proofs: UTF-8 at the console

Both decoders accept the same sequences and read the same code points in them.
-/

namespace Mellivora

open Unicode List

section Continuations

variable {s : List UInt8} {r : Ud}

theorem udCont_of_cont (h : 0x80 ≤ byteAt s (r.esi + 1) ∧ byteAt s (r.esi + 1) < 0xC0) :
    udCont s r = ⟨r.eax * 2 ^ 6 + byteAt s (r.esi + 1) % 2 ^ 6, r.esi + 1, false⟩ := by
  rw [udCont, if_neg (not_not.mpr ((and_c0_iff (byteAt_lt s _)).mpr h)), and_low _ 6 0x3F rfl,
    shiftLeft_or _ 6 (Nat.mod_lt _ (by decide))]

theorem udCont_of_bad (h : ¬ (0x80 ≤ byteAt s (r.esi + 1) ∧ byteAt s (r.esi + 1) < 0xC0)) :
    udCont s r = ⟨r.eax, r.esi + 1, true⟩ := by
  rw [udCont, if_pos fun h' => h ((and_c0_iff (byteAt_lt s _)).mp h')]

end Continuations

/-- `n` continuation bytes, as far as they are such. -/
def udConts (s : List UInt8) : Nat → Ud → Ud
  | 0, r => r
  | n + 1, r => if (udCont s r).cf then udCont s r else udConts s n (udCont s r)

theorem udConts_of_some {s : List UInt8} {n i eax v : Nat}
    (h : mvContinue s (i + 1) n eax = some v) :
    udConts s n ⟨eax, i, false⟩ = ⟨v, i + n, false⟩ := by
  induction n generalizing i eax with
  | zero =>
    obtain rfl : eax = v := Option.some.inj h
    rfl
  | succ n ih =>
  rw [mvContinue_succ] at h
  split at h
  case isFalse => cases h
  case isTrue hcont =>
    rw [udConts, udCont_of_cont hcont, if_neg Bool.false_ne_true, ih h]
    congr 1
    omega

theorem udConts_of_none {s : List UInt8} {n i eax : Nat} (h : mvContinue s (i + 1) n eax = none) :
    ∃ eax' e, 1 ≤ e ∧ udConts s n ⟨eax, i, false⟩ = ⟨eax', i + e, true⟩ := by
  induction n generalizing i eax with
  | zero => cases h
  | succ n ih =>
  rw [mvContinue_succ] at h
  split at h
  case isFalse hbad => exact ⟨eax, 1, le_refl 1, by rw [udConts, udCont_of_bad hbad, if_pos rfl]⟩
  case isTrue hcont =>
    obtain ⟨eax', e, he, hr⟩ := ih h
    refine ⟨eax', e + 1, by omega, ?_⟩
    rw [udConts, udCont_of_cont hcont, if_neg Bool.false_ne_true, hr]
    congr 1
    omega

/-- How the kernel's result lies beside the C runtime's for a lead byte with `need` continuation
bytes: both refuse, the kernel's cursor behind a continuation byte, or both accept, the kernel's
cursor one byte short. -/
inductive Skewed (need : Nat) (k : Ud) (c : Decoded) : Prop
  | refused (e : Nat) (he : 1 ≤ e) (hk : k = ⟨0xFFFD, e + 1, true⟩) (hc : c = mvMalformed) :
    Skewed need k c
  | accepted (cp : Nat) (hk : k = ⟨cp, need, false⟩) (hc : c = ⟨cp, need + 1⟩) : Skewed need k c

/-- What the branches for a lead byte have in common: behind the continuation bytes the kernel
refuses the code points in `bad`, which are those that the C runtime refuses. -/
theorem skewed_of_checks {s : List UInt8} {need cp : Nat} (bad : Nat → Prop) [DecidablePred bad]
    (hneed : 1 ≤ need) (hbad : ∀ v, mvContinue s 1 need cp = some v →
      (bad v ↔ (need = 2 ∧ v < 0x800) ∨ (need = 3 ∧ v < 0x10000) ∨ v > 0x10FFFF ∨
        (v ≥ 0xD800 ∧ v ≤ 0xDFFF))) :
    Skewed need
      (let r :=
        udConts s need ⟨cp, 0, false⟩; if r.cf then udBad r else if bad r.eax then udBad r else r)
      (mvFinish s need cp) := by
  cases hc : mvContinue s 1 need cp with
  | none =>
    obtain ⟨eax, e, he, hr⟩ := udConts_of_none hc
    rw [mvFinish_of_none hc, hr, Nat.zero_add]
    exact .refused e he rfl rfl
  | some v =>
  rw [mvFinish_of_some hc, udConts_of_some hc, Nat.zero_add]
  simp only [Bool.false_eq_true, if_false]
  by_cases hv : bad v
  · rw [if_pos hv, if_pos ((hbad v hc).mp hv)]
    exact .refused need hneed rfl rfl
  · rw [if_neg hv, if_neg fun h => hv ((hbad v hc).mpr h)]
    exact .accepted v rfl rfl

section Lead

variable {s : List UInt8}

theorem udTwo_eq : udTwo s =
    let r := udConts s 1 ⟨byteAt s 0 % 2 ^ 5, 0, false⟩
    if r.cf then udBad r else if r.eax < 0x80 then udBad r else r := by
  rw [udTwo, and_low _ 5 0x1F rfl]
  simp only [udConts]
  split_ifs <;> rfl

theorem udThree_eq : udThree s =
    let r := udConts s 2 ⟨byteAt s 0 % 2 ^ 4, 0, false⟩
    if r.cf then udBad r else if r.eax < 0x800 ∨
      (0xD800 ≤ r.eax ∧ r.eax ≤ 0xDFFF) then udBad r else r := by
  rw [udThree, and_low _ 4 0x0F rfl]
  simp only [udConts]
  grind

theorem udFour_eq : udFour s =
    let r := udConts s 3 ⟨byteAt s 0 % 2 ^ 3, 0, false⟩
    if r.cf then udBad r else if r.eax < 0x10000 ∨ r.eax > 0x10FFFF then udBad r else r := by
  rw [udFour, and_low _ 3 0x07 rfl]
  simp only [udConts]
  grind

/-- Two bytes: both refuse, or both accept the same code point. -/
theorem skewed_two (h : 0xC0 ≤ byteAt s 0) (h' : byteAt s 0 < 0xE0) :
    Skewed 1 (udTwo s) (mvUtf8Decode s) := by
  rw [mvUtf8Decode_two h h', udTwo_eq]
  split_ifs with hover
  · -- An overlong form: the C runtime sees it in the lead byte, the kernel behind the continuation
    -- byte.
    cases hc : mvContinue s 1 1 (byteAt s 0 % 2 ^ 5) with
    | none =>
      obtain ⟨eax, e, he, hr⟩ := udConts_of_none hc
      rw [hr, Nat.zero_add]
      exact .refused e he rfl rfl
    | some v =>
      obtain ⟨-, hv, -⟩ := mvContinue_some hc
      rw [udConts_of_some hc]
      simp only [Bool.false_eq_true, if_false]
      rw [if_pos (by omega)]
      exact .refused 1 (le_refl 1) rfl rfl
  · apply skewed_of_checks (fun v => v < 0x80) (le_refl 1)
    intro v hc
    obtain ⟨hlow, hv, -⟩ := mvContinue_some hc
    omega

theorem skewed_three (h : 0xE0 ≤ byteAt s 0) (h' : byteAt s 0 < 0xF0) :
    Skewed 2 (udThree s) (mvUtf8Decode s) := by
  rw [mvUtf8Decode_three h h', udThree_eq]
  apply skewed_of_checks (fun v => v < 0x800 ∨ (0xD800 ≤ v ∧ v ≤ 0xDFFF)) (by decide)
  intro v hc
  obtain ⟨-, hv, -⟩ := mvContinue_some hc
  omega

theorem skewed_four (h : 0xF0 ≤ byteAt s 0) (h' : byteAt s 0 < 0xF8) :
    Skewed 3 (udFour s) (mvUtf8Decode s) := by
  rw [mvUtf8Decode_four h h', udFour_eq]
  apply skewed_of_checks (fun v => v < 0x10000 ∨ v > 0x10FFFF) (by decide)
  intro v hc
  omega

/-- Behind a lead byte the two cursors are never in the same place. -/
theorem Skewed.not_same {need : Nat} (h : Skewed need (utf8Decode s) (mvUtf8Decode s)) :
    ¬ SameDecoding s := by
  intro hsame
  have hadv := hsame.advance
  rcases h with ⟨e, he, hk, hc⟩ | ⟨cp, hk, hc⟩
  · rw [hk, hc] at hadv
    simp only [mvMalformed] at hadv
    omega
  · rw [hk, hc] at hadv
    simp only at hadv
    omega

/-- For any lead byte both refuse, or both accept the same code point. -/
theorem utf8Decode_lead (h : IsLead (byteAt s 0)) :
    ∃ need, Skewed need (utf8Decode s) (mvUtf8Decode s) := by
  obtain ⟨hlow, hhigh⟩ := h
  have hlt := byteAt_lt s 0
  have hascii : ¬ byteAt s 0 &&& 0x80 = 0 := by
    rw [and_80_iff hlt]
    omega
  rw [utf8Decode, if_neg (by omega), if_neg hascii]
  by_cases h2 : byteAt s 0 < 0xE0
  · rw [if_pos ((and_e0_iff hlt).mpr ⟨hlow, h2⟩)]
    exact ⟨1, skewed_two hlow h2⟩
  rw [if_neg (by rw [and_e0_iff hlt]; omega)]
  by_cases h3 : byteAt s 0 < 0xF0
  · rw [if_pos ((and_f0_iff hlt).mpr ⟨by omega, h3⟩)]
    exact ⟨2, skewed_three (by omega) h3⟩
  · rw [if_neg (by rw [and_f0_iff hlt]; omega), if_pos ((and_f8_iff hlt).mpr ⟨by omega, hhigh⟩)]
    exact ⟨3, skewed_four (by omega) hhigh⟩

/-- Everywhere else both read one byte. -/
theorem sameDecoding_of_noLead (hs : s ≠ []) (h0 : byteAt s 0 ≠ 0) (h : ¬ IsLead (byteAt s 0)) :
    SameDecoding s := by
  have hlt := byteAt_lt s 0
  have hlen := length_pos_of_ne_nil hs
  by_cases hascii : byteAt s 0 < 0x80
  · have hk : utf8Decode s = ⟨byteAt s 0, 1, false⟩ := by
      rw [utf8Decode, if_neg h0, if_pos ((and_80_iff hlt).mpr hascii)]
    have hc := mvUtf8Decode_ascii hascii
    exact ⟨by rw [hk, hc], by rw [hk, hc], by rw [hk], by rw [hk]; exact hlen⟩
  · rw [IsLead] at h
    have hc := mvUtf8Decode_noLead (s := s) (by omega) (by omega)
    have hk : utf8Decode s = ⟨0xFFFD, 1, true⟩ := by
      rw [utf8Decode, if_neg h0, if_neg (by rw [and_80_iff hlt]; omega),
        if_neg (by rw [and_e0_iff hlt]; omega),
        if_neg (by rw [and_f0_iff hlt]; omega), if_neg (by rw [and_f8_iff hlt]; omega)]
      rfl
    exact ⟨by rw [hk, hc]; rfl, by rw [hk, hc]; rfl, by rw [hk], by rw [hk]; exact hlen⟩

end Lead

theorem byteAt_drop (s : List UInt8) (pos : Nat) : byteAt (s.drop pos) 0 = byteAt s pos := by
  simp [byteAt, getD_eq_getElem?_getD]

theorem byteAt_ne_zero (s : ZString UInt8) {pos : Nat} (hpos : pos < s.units.length) :
    byteAt s.units pos ≠ 0 := by
  intro h0
  rw [byteAt, getD_eq_getElem _ _ hpos] at h0
  have hzero : s.units[pos] = 0 := UInt8.toNat_inj.mp h0
  exact s.noZero (hzero ▸ getElem_mem hpos)

/-- **The two decoders agree exactly where no lead byte stands**: at every byte of every string the
kernel reads the code point that the C runtime reads and moves as far as it does, at least one byte
and not behind the terminator, if and only if the byte announces no continuation bytes. -/
theorem sameDecoding_iff (s : ZString UInt8) (pos : Nat) (hpos : pos < s.units.length) :
    SameDecoding (s.units.drop pos) ↔ ¬ IsLead (byteAt s.units pos) := by
  have hne : s.units.drop pos ≠ [] := by simpa using hpos
  rw [← byteAt_drop]
  constructor
  · intro hsame hlead
    obtain ⟨need, hskew⟩ := utf8Decode_lead hlead
    exact hskew.not_same hsame
  · apply sameDecoding_of_noLead hne
    rw [byteAt_drop]
    exact byteAt_ne_zero s hpos

/-- At the `a` of `aé` they agree. -/
theorem sameDecoding_iff_ascii :
    SameDecoding (([0x61, 0xC3, 0xA9] : List UInt8).drop 0) ↔
    ¬ IsLead (byteAt [0x61, 0xC3, 0xA9] 0) :=
  sameDecoding_iff ⟨[0x61, 0xC3, 0xA9], by decide⟩ 0 (by decide)

/-- At its `é` they do not: the kernel reads the right code point but moves one byte only, onto the
continuation byte. And at a lead byte that ends a string it moves behind the terminator. -/
theorem sameDecoding_fails :
    ¬ SameDecoding [0xC3, 0xA9] ∧ utf8Decode [0xC3, 0xA9] = ⟨0xE9, 1, false⟩ ∧
      mvUtf8Decode [0xC3, 0xA9] = ⟨0xE9, 2⟩ ∧
      utf8Decode [0xC3] = ⟨0xFFFD, 2, true⟩ ∧ mvUtf8Decode [0xC3] = ⟨0xFFFD, 1⟩ := by
  refine ⟨fun h => absurd h.advance (by decide), ?_⟩
  decide

end Mellivora
