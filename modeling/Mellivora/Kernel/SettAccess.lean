import Mellivora.Kernel.Sett

/-!
# Access to the Sett by path

The helpers of `settx.inc` that the rest of the kernel keeps its settings with: a value is named by
the path of its key and its own name. A path is looked for as it is given, and only made canonical
when a key has to be made or deleted.
-/

namespace Mellivora

/-- The bytes of a 32-bit word. -/
def dwordBytes (x : Nat) : List UInt8 := (List.range 4).map fun i => UInt8.ofNat (x / 2 ^ (8 * i))

/-- `sett_word`: the next word of a line, of at most `room` characters, and the line behind it. -/
def settWord (room : Nat) (line : Text) : Option (Text × Text) :=
  let line := line.dropWhile (· == 0x20)
  if line = [] ∨ room = 0 then none
  else
    let word := (line.takeWhile (· != 0x20)).take room
    some (word, line.drop word.length)

namespace Sett

/-- `sett_kv_lookup` -/
def kvLookup (s : Sett) (path name : Text) : Option SettValue :=
  (s.keyFind path).bind fun key => (s.valueFind key name).bind fun slot => s.vals[slot]?

/-- `sett_kv_get_u32`: four bytes are read, however long the value is. -/
def kvGetU32 (s : Sett) (path name : Text) : Option Nat :=
  (s.kvLookup path name).bind fun v =>
    if v.type = settTypeU32 then some (s.arena.dword v.off) else none

/-- `sett_kv_set`: whether the value is stored, and the tables, in which the key may have been made
all the same. -/
def kvSet (s : Sett) (path name : Text) (type : Nat) (data : List UInt8) : Bool × Sett :=
  let (key, s) := match s.keyFind path with
    | some key => (some key, s)
    | none => s.ensurePath path
  match key.bind (s.valueSet · name type data) with
  | none => (false, s)
  | some s' => (true, s')

/-- `sett_kv_delkey` -/
def kvDelKey (s : Sett) (path : Text) : Option Sett := s.keyDelete path

/-- The last component of a path that is one component of at most `room` characters below
`above`. -/
def childComponent (above : Text) (room : Nat) (path : Text) : Option Text :=
  let comp := path.drop (above.length + 1)
  if settPrefix path above ∧ path[above.length]? = some settSep ∧ settSep ∉ comp ∧
      comp.length ≤ room then some comp
  else none

/-- `sett_child_name`: the component of the `n`-th child in the order of the table. -/
def childName (s : Sett) (n : Nat) (above : Text) (room : Nat) : Option Text :=
  (s.keys.filterMap fun k => childComponent above room k.path)[n]?

/-- The number of keys of a path that are still to be made, with `done` of it behind the scan. -/
def missingFrom (s : Sett) (done : Text) : Text → Nat
  | [] => if (s.keyFind done).isNone then 1 else 0
  | c :: rest => (if c = settSep ∧ (s.keyFind done).isNone then 1 else 0) + s.missingFrom
      (done ++ [c]) rest

end Sett

end Mellivora
