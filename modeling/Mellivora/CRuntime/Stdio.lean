import Mathlib.Algebra.Ring.Nat
import Mathlib.Data.List.Basic

/-!
# Streams of the C runtime that are written to

`stdio.c`: a console stream hands its bytes on with a carriage return before each newline, a file
stream collects them and replaces the file when it is flushed. Both kinds share `fwrite`. A write
past the end of a buffer is `none`.
-/

namespace Mellivora

/-- The stream, with the console and the file behind it and the system's answers: whether descriptor
1 is open and a file write succeeds, and which requests the heap has room for. -/
structure Stream where
  isConsole : Bool
  wbuf : List UInt8 := []
  wcap : Nat := 0
  error : Bool := false
  console : List UInt8 := []
  file : List UInt8 := []
  onHbfs : Bool := true
  fd1 : Bool := false
  writes : Bool := true
  room : Nat → Bool := fun _ => true

/-- `OUT_CHUNK` -/
def outChunk : Nat := 256

/-- The loop of `console_write`, with the bytes that `crlf` holds so far. -/
def crlfFill : List UInt8 → List UInt8 → List UInt8
  | [], crlf => crlf
  | b :: s, crlf =>
    if b = 10 ∧ crlf.length + 1 < outChunk * 2 then crlfFill s (crlf ++ [13, 10])
    else if crlf.length < outChunk * 2 - 1 then crlfFill s (crlf ++ [b])
    else crlfFill s crlf

/-- `crlf[k] = 0` is past the end when the buffer is full. `mv_print` stops at a zero byte. -/
def consoleWrite (s : List UInt8) (f : Stream) : Option Stream :=
  let crlf := crlfFill s []
  if crlf.length = outChunk * 2 then none
  else some { f with console := f.console ++ if f.fd1 then crlf else crlf.takeWhile (· ≠ 0) }

/-- The loop of `fwrite` for a file: the number of bytes collected. -/
def collect : List UInt8 → Stream → Nat × Stream
  | [], f => (0, f)
  | b :: buf, f =>
    -- `realloc` refuses a request for no bytes.
    let bigger := if f.wcap = 0 then 1024 else f.wcap * 2 % 2 ^ 32
    if f.wbuf.length = f.wcap ∧ ¬ (bigger ≠ 0 ∧ f.room bigger) then (0, { f with error := true })
    else
      let wcap := if f.wbuf.length = f.wcap then bigger else f.wcap
      let (done, f) := collect buf { f with wbuf := f.wbuf ++ [b], wcap }
      (done + 1, f)

/-- `fwrite`. The number of bytes is taken modulo 2^32. -/
def fwrite (buf : List UInt8) (size count : Nat) (f : Stream) : Option (Nat × Stream) :=
  if size = 0 ∨ count = 0 then some (0, f)
  else
    let buf := buf.take (size * count % 2 ^ 32)
    if f.isConsole then (consoleWrite buf f).map fun f => (count, f)
    else some ((collect buf f).1 / size, (collect buf f).2)

/-- `fflush`: the file is replaced by what is collected. Of a file that is not on HBFS, `SYS_FWRITE`
stores the first 4096 bytes at most and returns 0 all the same; that is left out, `writes` stands
for a write that stores every byte. -/
def fflush (f : Stream) : Int × Stream :=
  if f.wcap = 0 ∨ f.wbuf = [] then (0, f)
  else if f.isConsole ∨ ¬ f.writes then (-1, { f with error := true })
  else (0, { f with file := f.wbuf, wbuf := [] })

/-- `fopen` with mode "w" or "a", for the file as it is. `SYS_OPEN` with `O_CREAT` removes a file
that is not on HBFS. The old contents are read into a buffer of 4096 bytes and become the first
bytes collected. -/
def fopen (append : Bool) (f : Stream) : Option Stream :=
  let file := if append ∧ f.onHbfs then f.file else []
  let f := { f with isConsole := false, wbuf := [], wcap := 0, error := false, file }
  if append then
    if 4096 < file.length then none else (fwrite file 1 file.length f).map Prod.snd
  else some f

/-- `fclose`: what is collected is flushed, and the buffer given back. -/
def fclose (f : Stream) : Int × Stream :=
  ((fflush f).1, { (fflush f).2 with wbuf := [], wcap := 0 })

/-- The calls that write to a stream: `fputs` and `fputc` write through `fwrite`. -/
inductive StreamCall
  | fwrite (buf : List UInt8) (size count : Nat)
  | fputs (s : List UInt8)
  | fputc (c : UInt8)
  | fflush

namespace StreamCall

/-- The bytes that a call writes. -/
def text : StreamCall → List UInt8
  | fwrite buf _ _ => buf
  | fputs s => s
  | fputc c => [c]
  | fflush => []

/-- The size of an element. -/
def size : StreamCall → Nat
  | fwrite _ size _ => size
  | fflush => 0
  | _ => 1

/-- The number of elements. -/
def count : StreamCall → Nat
  | fwrite _ _ count => count
  | fputs s => s.length
  | fputc _ => 1
  | fflush => 0

/-- What the call returns when `fwrite` returns `n`. -/
def result : StreamCall → Nat → Int
  | fputs s, n => if n = s.length then 0 else -1
  | fputc c, n => if n = 1 then c.toNat else -1
  | _, n => n

/-- What a call returns, and the stream after it. -/
def step (f : Stream) : StreamCall → Option (Int × Stream)
  | fflush => some (Mellivora.fflush f)
  | c => (Mellivora.fwrite c.text c.size c.count f).map fun p => (c.result p.1, p.2)

/-- The buffer has the bytes that the sizes say, and a string no zero byte. -/
def Legal : StreamCall → Prop
  | fwrite buf size count => buf.length = size * count
  | fputs s => 0 ∉ s
  | _ => True

end StreamCall

/-- What the calls return, and the stream after them. -/
def Stream.run : List StreamCall → Stream → Option (List Int × Stream)
  | [], f => some ([], f)
  | c :: calls, f => do
    let (r, f) ← c.step f
    let (rs, f) ← Stream.run calls f
    return (r :: rs, f)

/-! ## The console -/

/-- The bytes with a carriage return before each newline. -/
def crlf (s : List UInt8) : List UInt8 := s.flatMap fun b => if b = 10 then [13, 10] else [b]

/-- The calls hand the console every byte and return what they should. -/
def Stream.PrintsAll (f : Stream) (calls : List StreamCall) : Prop :=
  (f.run calls).map (fun p => (p.1, p.2.console)) =
    some (calls.map (fun c => c.result c.count), f.console ++ crlf (calls.flatMap StreamCall.text))

/-- `stdout` or `stderr` -/
def Stream.IsConsole (f : Stream) : Prop := f.isConsole = true ∧ f.wcap = 0

/-- The text and its carriage returns leave room for a zero byte in the buffer, the text has no zero
byte unless descriptor 1 is open, and the elements have bytes if there are any. -/
def StreamCall.Printable (fd1 : Bool) (c : StreamCall) : Prop :=
  (crlf c.text).length < outChunk * 2 ∧ (fd1 = true ∨ 0 ∉ c.text) ∧ (c.size = 0 → c.count = 0)

/-! ## Files -/

/-- What a stream that is opened begins with. -/
def Stream.start (append : Bool) (f : Stream) : List UInt8 := if append then f.file else []

/-- Each flush among the calls leaves the file with all that was written, which before them is
`seen`, and so does `fclose` after them. -/
def Stream.Stores : (seen : List UInt8) → List StreamCall → Stream → Prop
  | seen, [], f => (fclose f).2.file = seen
  | seen, c :: calls, f => ∃ r f', c.step f = some (r, f') ∧ (c = .fflush → f'.file = seen) ∧
      Stream.Stores (seen ++ c.text) calls f'

/-- Nothing is written after a flush that stores something. -/
def FlushLast : (seen : List UInt8) → List StreamCall → Prop
  | _, [] => True
  | seen, .fflush :: calls =>
    if seen = [] then FlushLast [] calls else calls.flatMap StreamCall.text = []
  | seen, c :: calls => FlushLast (seen ++ c.text) calls

end Mellivora
