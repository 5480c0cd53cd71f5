import Mellivora.CRuntime.Proofs.ConsoleProofs

/-!
# Proofs: streams that write to a file

A stream collects what is written and a flush replaces the file by it, so the file has everything as
long as nothing is written after a flush that stored something. After that the bytes of the flush
are lost.
-/

namespace Mellivora

open List

variable {seen buf : List UInt8} {f f' : Stream} {c : StreamCall} {calls : List StreamCall}

/-- A file stream whose writes succeed and for which there is memory. -/
structure Stream.Ready (f : Stream) : Prop where
  isFile : f.isConsole = false
  writes : f.writes = true
  room : ∀ n, 0 < n → f.room n = true
  fits : f.wbuf.length ≤ f.wcap

/-- A stream that can take all of `calls`: each is legal, and their text fits an `int`. -/
structure Stream.ReadyFor (f : Stream) (calls : List StreamCall) : Prop extends f.Ready where
  legal : ∀ c ∈ calls, c.Legal
  len : f.wbuf.length + (calls.flatMap StreamCall.text).length ≤ 2 ^ 31

/-- Collecting a text appends it to the buffer. -/
theorem collect_ready (h : f.Ready) (hlen : f.wbuf.length + buf.length ≤ 2 ^ 31) :
    ∃ wcap, collect buf f = (buf.length, { f with wbuf := f.wbuf ++ buf, wcap }) ∧
      Stream.Ready { f with wbuf := f.wbuf ++ buf, wcap } := by
  induction buf generalizing f with
  | nil => exact ⟨f.wcap, by simp [collect], by simpa using h⟩
  | cons b buf ih =>
    rw [length_cons] at hlen
    -- The buffer after the growth, if it has to grow.
    obtain ⟨wcap, hgrow, hready⟩ : ∃ wcap,
        collect (b :: buf) f = ((collect buf { f with wbuf := f.wbuf ++ [b], wcap }).1 + 1,
          (collect buf { f with wbuf := f.wbuf ++ [b], wcap }).2) ∧
        Stream.Ready { f with wbuf := f.wbuf ++ [b], wcap } := by
      by_cases hfull : f.wbuf.length = f.wcap
      · obtain ⟨bigger, hbigger⟩ : ∃ n, n = if f.wcap = 0 then 1024 else f.wcap * 2 % 2 ^ 32 :=
          ⟨_, rfl⟩
        have hlt : f.wcap < bigger := by
          rw [hbigger]
          split <;> omega
        have hroom := h.room bigger (by omega)
        refine ⟨bigger, ?_, { h with fits := by simp; omega }⟩
        rw [collect, ← hbigger]
        simp only [if_pos hfull]
        rw [if_neg fun hc => hc.2 ⟨by omega, hroom⟩]
      · refine ⟨f.wcap, ?_, { h with fits := ?_ }⟩
        · rw [collect]
          simp only [if_neg (fun hc : _ ∧ _ => hfull hc.1), if_neg hfull]
        · have := h.fits
          simp
          omega
    obtain ⟨wcap', hrest, hready'⟩ := ih hready (by simp; omega)
    simp only [append_assoc, singleton_append] at hrest hready'
    exact ⟨wcap', by rw [hgrow, hrest, length_cons], hready'⟩

/-- A flush stores the buffer, unless it is empty. -/
theorem fflush_ready (h : f.Ready) :
    (fflush f).2.Ready ∧ (fflush f).2.wbuf = [] ∧ (fflush f).2.file = if f.wbuf =
    [] then f.file else f.wbuf := by
  rw [fflush]
  by_cases hnil : f.wbuf = []
  · rw [if_pos (.inr hnil), if_pos hnil]
    exact ⟨h, hnil, rfl⟩
  have hcap : f.wcap ≠ 0 := fun h0 => hnil (length_eq_zero_iff.mp (Nat.le_zero.mp (h0 ▸ h.fits)))
  rw [if_neg (by tauto), if_neg (by simp [h.isFile, h.writes]), if_neg hnil]
  exact ⟨{ h with fits := Nat.zero_le _ }, rfl, rfl⟩

/-- `fwrite` to a stream that is ready. -/
theorem fwrite_ready {size count : Nat} (h : f.Ready) (htext : buf.length = size * count)
    (hlen : f.wbuf.length + buf.length ≤ 2 ^ 31) :
    ∃ n f', fwrite buf size count f = some (n, f') ∧ f'.Ready ∧ f'.wbuf = f.wbuf ++ buf ∧
    f'.file = f.file := by
  rw [fwrite]
  split
  case isTrue hnone =>
    have hnil : buf = [] := length_eq_zero_iff.mp (htext.trans (Nat.mul_eq_zero.mpr hnone))
    exact ⟨_, _, rfl, h, by rw [hnil, append_nil], rfl⟩
  case isFalse =>
    obtain ⟨wcap, hcollect, hready⟩ := collect_ready h hlen
    rw [Nat.mod_eq_of_lt (by omega), if_neg (by simp [h.isFile]), ← htext, take_length, hcollect]
    exact ⟨_, _, rfl, hready, rfl, rfl⟩

/-- Any legal call leaves the stream ready. -/
theorem step_ready (h : f.Ready) (hlegal : c.Legal)
    (hlen : f.wbuf.length + c.text.length ≤ 2 ^ 31) :
    ∃ r f', c.step f = some (r, f') ∧ f'.Ready ∧
      (c = .fflush ∧ f'.wbuf = [] ∧ f'.file = (if f.wbuf = [] then f.file else f.wbuf) ∨
        c ≠ .fflush ∧ f'.wbuf = f.wbuf ++ c.text ∧ f'.file = f.file) := by
  by_cases hflush : c = .fflush
  · subst hflush
    obtain ⟨hready, hfile⟩ := fflush_ready h
    exact ⟨_, _, rfl, hready, .inl ⟨rfl, hfile⟩⟩
  have hwrite : c.step f = (fwrite c.text c.size c.count f).map fun p => (c.result p.1, p.2) := by
    cases c with
    | fflush => exact absurd rfl hflush
    | _ => rfl
  obtain ⟨n, f', hfwrite, hready, hfile⟩ := fwrite_ready h (length_text hlegal) hlen
  rw [hwrite, hfwrite]
  exact ⟨_, _, rfl, hready, .inr ⟨hflush, hfile⟩⟩

theorem fclose_file (h : f.Ready) :
    (fclose f).2.file = if f.wbuf = [] then f.file else f.wbuf := (fflush_ready h).2.2

/-- What one call does to the buffer and the file, and what is left to show after it. -/
theorem stores_cons (seen : List UInt8) (h : f.ReadyFor (c :: calls)) :
    ∃ f' : Stream, f'.ReadyFor calls ∧
      (f.Stores seen (c :: calls) ↔ (c = .fflush → f'.file = seen) ∧
        f'.Stores (seen ++ c.text) calls) ∧
      (c = .fflush ∧ f'.wbuf = [] ∧ f'.file = (if f.wbuf = [] then f.file else f.wbuf) ∨
        c ≠ .fflush ∧ f'.wbuf = f.wbuf ++ c.text ∧ f'.file = f.file) := by
  have hlen := h.len
  rw [flatMap_cons, length_append] at hlen
  obtain ⟨hlegal, hlegals⟩ := forall_mem_cons.mp h.legal
  obtain ⟨r, f', hstep, hready, hcase⟩ := step_ready h.toReady hlegal (by omega)
  refine ⟨f', ⟨hready, hlegals, ?_⟩, ⟨?_, fun hrest => ⟨r, f', hstep, hrest⟩⟩, hcase⟩
  · rcases hcase with ⟨-, hbuf, -⟩ | ⟨-, hbuf, -⟩
    · simp only [hbuf, length_nil]
      omega
    · rw [hbuf, length_append]
      omega
  · rintro ⟨r', f'', hstep', hrest⟩
    obtain ⟨-, rfl⟩ := Prod.mk.inj (Option.some.inj (hstep.symm.trans hstep'))
    exact hrest

/-- Bytes that neither the buffer nor the file has do not come back. -/
theorem not_stores_of_lost (h : f.ReadyFor calls) (hbuf : f.wbuf.length < seen.length)
    (hfile : f.wbuf = [] → f.file.length < seen.length) : ¬ f.Stores seen calls := by
  induction calls generalizing f seen with
  | nil =>
    rw [Stream.Stores, fclose_file h.toReady]
    rintro rfl
    split at hbuf <;> simp_all
  | cons c calls ih =>
    obtain ⟨f', h', hiff, hcase⟩ := stores_cons seen h
    rw [hiff]
    rintro ⟨hflush, hrest⟩
    rcases hcase with ⟨hc, -, hf'⟩ | ⟨-, hbuf', hf'⟩
    · rw [hflush hc] at hf'
      subst hf'
      split at hbuf <;> simp_all
    refine ih h' ?_ (fun hnil => ?_) hrest
    · rw [hbuf', length_append, length_append]
      omega
    · rw [hbuf', append_eq_nil_iff] at hnil
      rw [hf', hnil.2, append_nil]
      exact hfile hnil.1

/-- Once something is stored, only calls without text keep it so. -/
theorem stores_of_stored (h : f.ReadyFor calls) (hbuf : f.wbuf = []) (hfile : f.file = seen)
    (hne : seen ≠ []) : f.Stores seen calls ↔ calls.flatMap StreamCall.text = [] := by
  induction calls generalizing f with
  | nil => simp [Stream.Stores, fclose_file h.toReady, hbuf, hfile]
  | cons c calls ih =>
    obtain ⟨f', h', hiff, hcase⟩ := stores_cons seen h
    rw [hiff, flatMap_cons, append_eq_nil_iff]
    by_cases hnil : c.text = []
    · have hstate : f'.wbuf = [] ∧ f'.file = seen := by
        rcases hcase with ⟨-, hb, hf⟩ | ⟨-, hb, hf⟩ <;> simp_all
      rw [hnil, append_nil, ih h' hstate.1 hstate.2]
      simp [hstate.2]
    have hlost : ¬ f'.Stores (seen ++ c.text) calls := by
      rcases hcase with ⟨rfl, -⟩ | ⟨-, hb, -⟩
      · exact absurd rfl hnil
      · refine not_stores_of_lost h' ?_ (fun hb' => ?_)
        · rw [hb, hbuf, length_append]
          have := length_pos_iff.mpr hne
          simp; omega
        · simp_all
    simp [hlost, hnil]

/-- When a sequence of calls stores all of its text. -/
theorem stores_iff (h : f.ReadyFor calls) (hbuf : f.wbuf = seen) (hfile : seen = [] → f.file = []) :
    f.Stores seen calls ↔ FlushLast seen calls := by
  induction calls generalizing f seen with
  | nil =>
    rw [Stream.Stores, fclose_file h.toReady, FlushLast]
    split <;> simp_all
  | cons c calls ih =>
    obtain ⟨f', h', hiff, hcase⟩ := stores_cons seen h
    rw [hiff]
    rcases hcase with ⟨rfl, hb, hf⟩ | ⟨hc, hb, hf⟩
    · have hf' : f'.file = seen := by
        rw [hf]
        split <;> simp_all
      rw [FlushLast]
      simp only [StreamCall.text, append_nil, hf', implies_true, true_and]
      split
      case isTrue hnil =>
        subst hnil
        exact ih h' hb fun _ => hf'
      case isFalse hne => exact stores_of_stored h' hb hf' hne
    · have hlast : FlushLast seen (c :: calls) = FlushLast (seen ++ c.text) calls := by
        cases c with
        | fflush => exact absurd rfl hc
        | _ => rfl
      rw [hlast, ← ih h' (by rw [hb, hbuf])]
      · exact and_iff_right fun hc' => absurd hc' hc
      · intro hnil
        rw [hf, hfile (append_eq_nil_iff.mp hnil).1]

/-- A stream that was opened is ready; a file of more than 4096 bytes is refused. -/
theorem fopen_ready {append : Bool} (hwrites : f.writes = true)
    (hroom : ∀ n, 0 < n → f.room n = true)
    {file : List UInt8} (hfile : file = if append ∧ f.onHbfs then f.file else []) :
    (4096 < file.length ∧ fopen append f = none) ∨
      file.length ≤ 4096 ∧ ∃ f', fopen append f = some f' ∧ f'.Ready ∧ f'.wbuf = file ∧
      f'.file = file := by
  have hready :
    Stream.Ready { f with isConsole := false, wbuf := [], wcap := 0, error := false, file } :=
    ⟨rfl, hwrites, hroom, Nat.le_refl _⟩
  rw [fopen, ← hfile]
  split
  case isTrue happend =>
    by_cases hlong : 4096 < file.length
    · exact .inl ⟨hlong, if_pos hlong⟩
    · obtain ⟨n, f', hwrite, h', hbuf, hf'⟩ :=
        fwrite_ready hready (Nat.one_mul file.length).symm (by simp; omega)
      rw [if_neg hlong, hwrite]
      exact .inr ⟨by omega, f', rfl, h', hbuf, hf'⟩
  case isFalse happend =>
    obtain rfl : file = [] := hfile.trans (if_neg fun h => happend h.1)
    exact .inr ⟨by simp, _, rfl, hready, rfl, rfl⟩

/-- With memory for all that is written, a stream stores everything exactly when a file that is
appended to is on HBFS and fits into the buffer of `fopen`, and nothing is written after a flush
that stores something. -/
theorem fopen_stores_iff (append : Bool) (f : Stream) (hwrites : f.writes = true)
    (hroom : ∀ n, 0 < n → f.room n = true) (calls : List StreamCall) (hlegal : ∀ c ∈ calls, c.Legal)
    (hlen : (f.start append).length + (calls.flatMap StreamCall.text).length ≤ 2 ^ 31) :
    (∃ f', fopen append f = some f' ∧ f'.Stores (f.start append) calls) ↔
      (f.start append = [] ∨ f.file.length ≤ 4096 ∧ f.onHbfs = true) ∧
      FlushLast (f.start append) calls := by
  obtain ⟨file, hfile⟩ : ∃ file, file = if append ∧ f.onHbfs then f.file else [] := ⟨_, rfl⟩
  -- The old contents are kept, unless they are not on HBFS.
  have hcases : file = f.start append ∧ (file = [] ∨ file = f.file ∧ f.onHbfs = true) ∨
      file = [] ∧ f.start append ≠ [] ∧ f.onHbfs ≠ true := by
    rw [hfile, Stream.start]
    by_cases hbfs : f.onHbfs = true
    · cases append <;> simp [hbfs]
    · cases append <;> simp [hbfs, eq_comm, em]
  rcases fopen_ready hwrites hroom hfile with ⟨hlong, hnone⟩ | ⟨hshort, f', hsome, h', hbuf, hf'⟩
  · rw [hnone]
    grind
  have hopen : (∃ g, fopen append f = some g ∧ g.Stores (f.start append) calls) ↔
      f'.Stores (f.start append) calls := by simp [hsome]
  rw [hopen]
  rcases hcases with ⟨heq, hkept⟩ | ⟨hnil, hne, hbfs⟩
  · rw [stores_iff ⟨h', hlegal, by rwa [hbuf, heq]⟩ (hbuf.trans heq) (by grind)]
    grind
  have hlost : ¬ f'.Stores (f.start append) calls := by
    have hpos := length_pos_iff.mpr hne
    rw [hnil] at hbuf hf'
    refine not_stores_of_lost ⟨h', hlegal, ?_⟩ ?_ fun _ => ?_
    · rw [hbuf, length_nil]
      omega
    · rwa [hbuf]
    · rwa [hf']
  tauto

/-- Two texts are written to a file and both are there at the end. -/
theorem fopen_stores_twice : ∃ f, fopen false { isConsole := false } = some f ∧
    f.Stores [] [.fputs [97], .fputc 98, .fflush] := by
  refine (fopen_stores_iff false _ rfl (fun _ _ => rfl) _ ?_ ?_).mpr ⟨.inl rfl, ?_⟩ <;>
    simp [StreamCall.Legal, StreamCall.text, Stream.start, FlushLast]

/-- What is written before a flush is lost if more is written after it. -/
theorem flushTwice_not_stores : (∀ c ∈ [StreamCall.fputc 97, .fflush, .fputc 98], c.Legal) ∧
    ¬ ∃ f, fopen false { isConsole := false } = some f ∧
    f.Stores [] [.fputc 97, .fflush, .fputc 98] := by
  refine ⟨by simp [StreamCall.Legal], ?_⟩
  rintro ⟨f, hopen, h⟩
  obtain rfl := Option.some.inj hopen
  simp [Stream.Stores, StreamCall.step, fwrite, collect, fflush, fclose, StreamCall.text,
    StreamCall.size,
    StreamCall.count] at h

end Mellivora
