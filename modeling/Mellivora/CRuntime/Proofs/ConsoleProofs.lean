import Mellivora.CRuntime.Stdio
import Mathlib.Data.List.TakeWhile

/-!
# Proofs: output to the console

A call hands the console a prefix of its bytes, and all of them if they fit into the buffer of
`console_write`. So the calls print a text completely exactly when each of them does.
-/

namespace Mellivora

open List Option Nat

variable {s acc : List UInt8} {f f' : Stream} {c : StreamCall} {calls : List StreamCall}

theorem crlf_append (s t : List UInt8) : crlf (s ++ t) = crlf s ++ crlf t := flatMap_append ..

theorem length_le_crlf (s : List UInt8) : s.length ≤ (crlf s).length := by
  induction s with
  | nil => exact le_refl _
  | cons b s ih =>
    rw [crlf, flatMap_cons, length_append, length_cons, ← crlf]
    have hb : 1 ≤ (if b = 10 then [13, 10] else [b] : List UInt8).length := by split <;> simp
    omega

theorem zero_mem_crlf : 0 ∈ crlf s ↔ 0 ∈ s := by
  simp only [crlf, mem_flatMap]
  constructor
  · rintro ⟨b, hb, h⟩
    split at h <;> simp_all
  · exact fun h => ⟨0, h, by decide⟩

theorem crlfFill_full (h : 511 ≤ acc.length) : crlfFill s acc = acc := by
  induction s with
  | nil => rfl
  | cons b s ih =>
    rw [crlfFill, if_neg (fun hb => absurd hb.2 (by unfold outChunk; omega)),
      if_neg (by unfold outChunk; omega), ih]

/-- The buffer holds the translated text as far as it goes. -/
theorem crlfFill_spec (s acc : List UInt8) (h : acc.length ≤ 512) :
    crlfFill s acc <+: acc ++ crlf s ∧ (crlfFill s acc).length ≤ 512 ∧
      (511 ≤ (crlfFill s acc).length ∨ (acc ++ crlf s).length ≤ (crlfFill s acc).length) := by
  induction s generalizing acc with
  | nil => simpa [crlfFill, crlf] using h
  | cons b s ih =>
    by_cases hfull : 511 ≤ acc.length
    · rw [crlfFill_full hfull]
      exact ⟨prefix_append .., h, .inl hfull⟩
    have hcrlf : acc ++ crlf (b :: s) = acc ++ (if b = 10 then [13, 10] else [b]) ++ crlf s := by
      rw [crlf, flatMap_cons, append_assoc]
      rfl
    rw [crlfFill, hcrlf]
    unfold outChunk
    by_cases hb : b = 10
    · rw [if_pos ⟨hb, by omega⟩, if_pos hb]
      exact ih _ (by rw [length_append]; simp; omega)
    · rw [if_neg (fun hb' => hb hb'.1), if_pos (by omega), if_neg hb]
      exact ih _ (by rw [length_append]; simp; omega)

/-- A text that fits the line buffer is printed as it is. -/
theorem consoleWrite_of_fits (hlen : (crlf s).length < 512) (hzero : f.fd1 = true ∨ 0 ∉ s) :
    consoleWrite s f = some { f with console := f.console ++ crlf s } := by
  obtain ⟨hpre, -, hlong⟩ := crlfFill_spec s [] (zero_le _)
  have heq : crlfFill s [] = crlf s := by
    refine hpre.eq_of_length_le ?_
    have := hpre.length_le
    rw [nil_append] at *
    omega
  rw [consoleWrite, heq, if_neg (by unfold outChunk; omega)]
  rcases hzero with hfd | hzero
  · rw [if_pos hfd]
  · have hall : (crlf s).takeWhile (· ≠ 0) = crlf s := by
      refine takeWhile_eq_self_iff.mpr fun b hb => ?_
      rw [decide_eq_true_eq]
      exact fun h => hzero (zero_mem_crlf.mp (h ▸ hb))
    rw [hall, ite_self]

/-- A write that returns has printed at most the text. -/
theorem consoleWrite_some (h : consoleWrite s f = some f') :
    ∃ out, out.length ≤ (crlf s).length ∧ f' = { f with console := f.console ++ out } ∧
      out.length < 512 ∧
      (out = crlf s → f.fd1 = true ∨ 0 ∉ s) := by
  obtain ⟨hpre, hle, -⟩ := crlfFill_spec s [] (zero_le _)
  rw [consoleWrite] at h
  split at h
  case isTrue => cases h
  case isFalse hne =>
    unfold outChunk at hne
    obtain rfl := some.inj h
    by_cases hfd : f.fd1 = true
    · rw [if_pos hfd]
      exact ⟨_, hpre.length_le, rfl, by omega, fun _ => .inl hfd⟩
    · rw [if_neg hfd]
      have hcut := (takeWhile_sublist (l := crlfFill s []) (fun b => decide (b ≠ 0))).length_le
      refine ⟨_, hcut.trans hpre.length_le, rfl, by omega, fun heq => .inr fun hzero => ?_⟩
      · have := mem_takeWhile_imp (heq ▸ zero_mem_crlf.mpr hzero)
        simp at this

theorem length_text (h : c.Legal) : c.text.length = c.size * c.count := by
  cases c with
  | fwrite buf size count => exact h
  | fputs s => exact (Nat.one_mul _).symm
  | fputc b => rfl
  | fflush => rfl

theorem step_console (hf : f.IsConsole) :
    c.step f = (fwrite c.text c.size c.count f).map fun p => (c.result p.1, p.2) := by
  cases c with
  | fflush =>
    rw [StreamCall.step, fflush, if_pos (.inl hf.2)]
    rfl
  | _ => rfl

/-- A call with a printable text prints all of it. -/
theorem step_printable (hf : f.IsConsole) (hlegal : c.Legal) (h : c.Printable f.fd1) :
    c.step f = some (c.result c.count, { f with console := f.console ++ crlf c.text }) := by
  obtain ⟨hlen, hzero, hsize⟩ := h
  have htext := length_text hlegal
  have hlt : c.size * c.count < 2 ^ 32 := by
    have := length_le_crlf c.text
    unfold outChunk at hlen
    omega
  rw [step_console hf, fwrite]
  split
  case isTrue hnone =>
    have hcount : c.count = 0 := by tauto
    rw [hcount, Nat.mul_zero] at htext
    rw [length_eq_zero_iff.mp htext, hcount]
    simp [crlf]
  case isFalse =>
    rw [mod_eq_of_lt hlt, if_pos hf.1, ← htext, take_length, consoleWrite_of_fits hlen hzero]
    rfl

/-- A call that returns has printed at most its text. -/
theorem step_some {r : Int} (hf : f.IsConsole) (hlegal : c.Legal) (h : c.step f = some (r, f')) :
    ∃ out, out.length ≤ (crlf c.text).length ∧ f' = { f with console := f.console ++ out } ∧
      (out = crlf c.text → r = c.result c.count → c.Printable f.fd1) := by
  have htext := length_text hlegal
  rw [step_console hf, fwrite] at h
  split at h
  case isTrue hnone =>
    obtain ⟨rfl, rfl⟩ := Prod.mk.inj (some.inj h)
    have hnil : c.text = [] := length_eq_zero_iff.mp (htext.trans (Nat.mul_eq_zero.mpr hnone))
    rw [StreamCall.Printable, hnil]
    refine ⟨[], zero_le _, by simp,
      fun _ hr => ⟨by simp [crlf, outChunk], by simp, fun hsize => ?_⟩⟩
    cases c with
    | fwrite buf size count => exact (Int.ofNat.inj hr).symm
    | fflush => rfl
    | _ => cases hsize
  case isFalse =>
    rw [if_pos hf.1, Option.map_map] at h
    obtain ⟨f'', hwrite, heq⟩ := map_eq_some_iff.mp h
    obtain ⟨rfl, rfl⟩ := Prod.mk.inj heq
    obtain ⟨out, hout, rfl, hlen, hzero⟩ := consoleWrite_some hwrite
    have hcut :=
      congrArg (fun s => (crlf s).length) (take_append_drop (c.size * c.count % 2 ^ 32) c.text)
    simp only [crlf_append, length_append] at hcut
    refine ⟨out, by omega, rfl, fun hout _ => ?_⟩
    rw [hout] at hlen
    have hle := length_le_crlf c.text
    rw [take_of_length_le (by omega)] at hzero
    exact ⟨hlen, hzero hout, fun hsize => by tauto⟩

/-- The calls hand over no more than their text, and where they hand over all of it each is
printable. -/
theorem run_some {rs : List Int} (hf : f.IsConsole) (hlegal : ∀ c ∈ calls, c.Legal)
    (h : f.run calls = some (rs, f')) :
    ∃ out, out.length ≤ (crlf (calls.flatMap StreamCall.text)).length ∧
      f'.console = f.console ++ out ∧
      (out = crlf (calls.flatMap StreamCall.text) → rs = calls.map (fun c => c.result c.count) →
        ∀ c ∈ calls, c.Printable f.fd1) := by
  induction calls generalizing f rs with
  | nil =>
    obtain ⟨rfl, rfl⟩ := Prod.mk.inj (some.inj h)
    exact ⟨[], zero_le _, (append_nil _).symm, by simp⟩
  | cons c calls ih =>
    rw [forall_mem_cons] at hlegal
    obtain ⟨⟨r, f₁⟩, hstep, hrest⟩ := bind_eq_some_iff.mp h
    obtain ⟨⟨rs', f₂⟩, hrun, heq⟩ := bind_eq_some_iff.mp hrest
    obtain ⟨rfl, rfl⟩ := Prod.mk.inj (some.inj heq)
    obtain ⟨out₁, hle₁, rfl, hall₁⟩ := step_some hf hlegal.1 hstep
    obtain ⟨out₂, hle₂, hout₂, hall₂⟩ :=
      ih (f := { f with console := f.console ++ out₁ }) hf hlegal.2 hrun
    refine ⟨out₁ ++ out₂, ?_, hout₂.trans (append_assoc ..), fun hout hrs => ?_⟩
    · rw [flatMap_cons, crlf_append, length_append, length_append]
      exact Nat.add_le_add hle₁ hle₂
    rw [flatMap_cons, crlf_append] at hout
    have hlen := congrArg length hout
    rw [length_append, length_append] at hlen
    obtain ⟨hout₁, hout₂⟩ := append_inj hout (by omega)
    obtain ⟨hr, hrs⟩ := cons.inj hrs
    exact forall_mem_cons.mpr ⟨hall₁ hout₁ hr, hall₂ hout₂ hrs⟩

/-- Printable texts are printed whole. -/
theorem run_printable (hf : f.IsConsole) (hlegal : ∀ c ∈ calls, c.Legal)
    (h : ∀ c ∈ calls, c.Printable f.fd1) :
    f.run calls = some (calls.map (fun c => c.result c.count),
      { f with console := f.console ++ crlf (calls.flatMap StreamCall.text) }) := by
  induction calls generalizing f with
  | nil => simp [Stream.run, crlf]
  | cons c calls ih =>
    rw [forall_mem_cons] at hlegal h
    rw [Stream.run, step_printable hf hlegal.1 h.1, flatMap_cons, crlf_append, ← append_assoc]
    exact congrArg (bind · _)
      (ih (f := { f with console := f.console ++ crlf c.text }) hf hlegal.2 h.2)

/-- The calls print their text completely exactly when each of them is printable. -/
theorem printsAll_iff (f : Stream) (hf : f.IsConsole) (calls : List StreamCall)
    (hlegal : ∀ c ∈ calls, c.Legal) : f.PrintsAll calls ↔ ∀ c ∈ calls, c.Printable f.fd1 := by
  constructor
  · intro h
    obtain ⟨⟨rs, f'⟩, hrun, heq⟩ := map_eq_some_iff.mp h
    obtain ⟨hrs, hconsole⟩ := Prod.mk.inj heq
    obtain ⟨out, -, hout, hall⟩ := run_some hf hlegal hrun
    exact hall (append_cancel_left (hout.symm.trans hconsole)) hrs
  · intro h
    rw [Stream.PrintsAll, run_printable hf hlegal h]
    rfl

/-- A line and its end, by two calls. -/
theorem printsAll_line :
    ({ isConsole := true } : Stream).PrintsAll [.fputs [104, 105], .fputc 10] := by
  refine (printsAll_iff _ ⟨rfl, rfl⟩ _ ?_).mpr ?_ <;>
    simp [StreamCall.Legal, StreamCall.Printable, StreamCall.text, StreamCall.size, crlf, outChunk]

/-- Of 512 bytes the last one is lost. -/
theorem longText_not_printsAll :
    (StreamCall.fwrite (replicate 512 97) 1 512).Legal ∧
      ¬ ({ isConsole := true } : Stream).PrintsAll [.fwrite (replicate 512 97) 1 512] := by
  refine ⟨length_replicate, ?_⟩
  unfold Stream.PrintsAll
  decide +kernel

end Mellivora
