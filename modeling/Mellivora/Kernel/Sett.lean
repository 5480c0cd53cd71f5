import Mellivora.Disk.Buffer
import Mellivora.Lib.Renumber
import Mellivora.Lib.Spans

/-!
# The Sett

The configuration store of `sett.inc`: a table of keys, a table of values that belong to them, and
an arena that holds the values' bytes. A key is known by its full path, and paths and names are
compared without regard to case. A call that is refused leaves the tables as they were, except that
a path may have been built in part.
-/

namespace Mellivora

/-- The bytes of a NUL-terminated string, without the terminator. -/
abbrev Text := List UInt8

/-- `SETT_MAX_KEYS`. -/
def settMaxKeys : Nat := 64
/-- `SETT_KEY_PATH`: the bytes of a path's field. -/
def settKeyPath : Nat := 128
/-- `SETT_MAX_VALUES`. -/
def settMaxValues : Nat := 64
/-- `SETT_VAL_NAME`: the bytes of a name's field. -/
def settValName : Nat := 32
/-- `SETT_ARENA`: the bytes for the values' data. -/
def settArena : Nat := 16384

/-- The type of a 32-bit value. -/
def settTypeU32 : Nat := 1
/-- The type of a value that is plain bytes. -/
def settTypeBinary : Nat := 3

/-- `SETT_MODE_DEFAULT`. -/
def settModeDefault : Nat := 0x0F

/-! ## Strings -/

/-- The separator of paths, a backslash. -/
def settSep : UInt8 := 0x5C

/-- `sett_upper_al` -/
def settUpper (c : UInt8) : UInt8 := if 97 ≤ c ∧ c ≤ 122 then c - 32 else c

/-- Equality without regard to case. -/
def settCiEqual : Text → Text → Bool
  | [], [] => true
  | a :: s, b :: t => settUpper a == settUpper b && settCiEqual s t
  | _, _ => false

/-- `sett_prefix`: the first string starts with the second. -/
def settPrefix : Text → Text → Bool
  | _, [] => true
  | [], _ :: _ => false
  | a :: s, b :: t => settUpper a == settUpper b && settPrefix s t

/-- `.spn_copy` with room for `room - 1` more characters. Separators are only remembered, and one of
them is written before the character that follows. -/
def normFrom : (room : Nat) → (pending : Bool) → Text → Option Text
  | _, _, [] => some []
  | room, pending, c :: rest =>
    if c = settSep then normFrom room true rest
    else if pending then
      if room - 1 = 0 ∨ room - 2 = 0 then none
      else (normFrom (room - 2) false rest).map fun out => settSep :: c :: out
    else if room - 1 = 0 then none
    else (normFrom (room - 1) false rest).map (c :: ·)

/-- `sett_path_norm`: the canonical form of a path, if it fits. -/
def settPathNorm (path : Text) : Option Text :=
  (normFrom (settKeyPath - 2) false (path.dropWhile (· == settSep))).map (settSep :: ·)

/-! ## The tables -/

/-- A key. -/
structure SettKey where
  /-- the index of the key above, none for -1 -/
  parent : Option Nat
  path : Text
  /-- `SETT_KEY_SPARE`: the mode and the owner -/
  spare : Nat := settModeDefault <<< 24
  deriving DecidableEq, Repr

/-- A value's record. -/
structure SettValue where
  key : Nat
  type : Nat
  /-- where the bytes are in the arena -/
  off : Nat
  len : Nat
  name : Text
  deriving DecidableEq, Repr

/-- The Sett: keys, values and the arena with the values' bytes. -/
structure Sett where
  keys : List SettKey := []
  vals : List SettValue := []
  arena : Buffer := fun _ => 0
  arenaUsed : Nat := 0

/-! ## Keys -/

namespace Sett

/-- `sett_key_find` -/
def keyFind (s : Sett) (path : Text) : Option Nat := s.keys.findIdx? (settCiEqual path ·.path)

/-- `sett_key_create`: the new key is the last one. -/
def keyCreate (s : Sett) (path : Text) (parent : Option Nat) : Option Sett :=
  if settMaxKeys ≤ s.keys.length then none
  else if settKeyPath - 1 ≤ path.length then none
  else some { s with keys := s.keys ++ [{ parent, path }] }

/-- `.sep_component`: the key of `path`, made if it is not there. -/
def component (s : Sett) (path : Text) (parent : Option Nat) : Option (Nat × Sett) :=
  match s.keyFind path with
  | some key => some (key, s)
  | none => (s.keyCreate path parent).map fun s' => (s.keys.length, s')

/-- `.sep_next`: the rest of a path, with `done` of it behind the scan and `parent` the key of the
component before. -/
def ensureFrom (s : Sett) (parent : Option Nat) (done : Text) : Text → Option Nat × Sett
  | [] =>
    match s.component done parent with
    | none => (none, s)
    | some (key, s') => (some key, s')
  | c :: rest =>
    if c = settSep then
      match s.component done parent with
      | none => (none, s)
      | some (key, s') => ensureFrom s' (some key) (done ++ [c]) rest
    else ensureFrom s parent (done ++ [c]) rest

/-- `sett_ensure_path` -/
def ensurePath (s : Sett) (path : Text) : Option Nat × Sett :=
  match settPathNorm path with
  | none => (none, s)
  | some norm =>
    match s.keyFind norm with
    | some key => (some key, s)
    | none => s.ensureFrom none (norm.take 1) (norm.drop 1)

/-- `path` is `target` or below it. -/
def under (target path : Text) : Bool :=
  settPrefix path target && (path[target.length]?.all (· == settSep))

/-- `sett_remap`: the new index of a key that is kept. -/
def remap (s : Sett) (target : Text) : Nat → Nat :=
  Renumber.rank (fun k => !under target k.path) s.keys

/-- `sett_keep` -/
def keeps (s : Sett) (target : Text) (i : Nat) : Bool :=
  s.keys[i]?.any fun k => !under target k.path

/-- The tables without the keys of `target` and below. -/
def prune (s : Sett) (target : Text) : Sett :=
  { s with
    keys := (s.keys.filter fun k => !under target k.path).map fun k =>
      { k with parent := k.parent.map (s.remap target) }
    vals :=
      (s.vals.filter fun v => s.keeps target v.key).map
      fun v => { v with key := s.remap target v.key } }

/-- `sett_key_delete` -/
def keyDelete (s : Sett) (path : Text) : Option Sett :=
  match settPathNorm path with
  | none => none
  | some target => (s.keyFind target).map fun _ => s.prune target

/-! ## Values -/

/-- `sett_value_find` -/
def valueFind (s : Sett) (key : Nat) (name : Text) : Option Nat :=
  s.vals.findIdx? fun v => v.key == key && settCiEqual name v.name

/-- `sett_value_set`: a new value, or one that has grown, goes to the end of the arena. -/
def valueSet (s : Sett) (key : Nat) (name : Text) (type : Nat) (data : List UInt8) : Option Sett :=
  match s.valueFind key name with
  | none =>
    if settMaxValues ≤ s.vals.length then none
    else if settValName - 1 ≤ name.length then none
    else if settArena < s.arenaUsed + data.length then none
    else some { s with
      vals := s.vals ++ [{ key, type, off := s.arenaUsed, len := data.length, name }]
      arena := s.arena.write s.arenaUsed data
      arenaUsed := s.arenaUsed + data.length }
  | some slot =>
    s.vals[slot]?.bind fun v =>
      if data.length ≤ v.len then
        some { s with
          vals := s.vals.set slot { v with type, len := data.length }
          arena := s.arena.write v.off data }
      else if settArena < s.arenaUsed + data.length then none
      else some { s with
        vals := s.vals.set slot { v with type, off := s.arenaUsed, len := data.length }
        arena := s.arena.write s.arenaUsed data
        arenaUsed := s.arenaUsed + data.length }

/-- `sett_value_del`: the last entry moves into the slot. -/
def valueDel (s : Sett) (key : Nat) (name : Text) : Option Sett :=
  (s.valueFind key name).map fun slot =>
    { s with vals :=
        match s.vals.getLast? with
        | some last => (s.vals.set slot last).dropLast
        | none => [] }

/-- The bytes of a value. -/
def bytes (s : Sett) (v : SettValue) : List UInt8 :=
  (List.range v.len).map fun i => s.arena (v.off + i)

/-- `.sco_loop`: the values' bytes one after the other in the scratch buffer, from `pos` on. -/
def packFrom (s : Sett) :
    List SettValue → (pos : Nat) → (scratch : Buffer) → List SettValue × Nat × Buffer
  | [], pos, scratch => ([], pos, scratch)
  | v :: vs, pos, scratch =>
    let (vs, used, scratch) := s.packFrom vs (pos + v.len) (scratch.write pos (s.bytes v))
    ({ v with off := pos } :: vs, used, scratch)

/-- `sett_compact` -/
def compact (s : Sett) : Sett :=
  let (vals, used, scratch) := s.packFrom s.vals 0 fun _ => 0
  { s with vals, arenaUsed := used, arena := fun i => if i < used then scratch i else s.arena i }

/-! ## Looking up -/

/-- What is stored under a name of a key: its type and its bytes. -/
def value? (s : Sett) (key : Nat) (name : Text) : Option (Nat × List UInt8) :=
  (s.vals.find? fun v => v.key == key && settCiEqual name v.name).map fun v => (v.type, s.bytes v)

/-- The type and the bytes of a value, by its path and name. -/
def lookup (s : Sett) (path name : Text) : Option (Nat × List UInt8) :=
  (s.keyFind path).bind (s.value? · name)

end Sett

/-! ## Runs -/

/-- A change of the Sett. -/
inductive SettOp
  | ensurePath (path : Text)
  | keyCreate (path : Text) (parent : Option Nat)
  | valueSet (key : Nat) (name : Text) (type : Nat) (data : List UInt8)
  | valueDel (key : Nat) (name : Text)
  | keyDelete (path : Text)
  | compact

/-- The Sett after the change; one that is refused leaves it alone. -/
def SettOp.step : SettOp → Sett → Sett
  | ensurePath path, s => (s.ensurePath path).2
  | keyCreate path parent, s => (s.keyCreate path parent).getD s
  | valueSet key name type data, s => (s.valueSet key name type data).getD s
  | valueDel key name, s => (s.valueDel key name).getD s
  | keyDelete path, s => (s.keyDelete path).getD s
  | compact, s => s.compact

/-- A path as `sett_path_norm` makes it: it starts with a separator, and every separator has a
component behind it, except in the path of the root. -/
def Canonical (p : Text) : Prop :=
  p.length < settKeyPath - 1 ∧ (p = [settSep] ∨
    p.head? = some settSep ∧ ∀ i, p[i]? = some settSep → ∃ c, p[i + 1]? = some c ∧ c ≠ settSep)

/-- The text in capitals. -/
def folded (p : Text) : Text := p.map settUpper

/-- The path `p` is, up to case, one component below `q`. -/
def ChildOf (p q : Text) : Prop :=
  ∃ comp, comp ≠ [] ∧ settSep ∉ comp ∧ folded p = folded q ++ settSep :: folded comp

/-- The addresses of a value's bytes in the arena. -/
def SettValue.span (v : SettValue) : Span := ⟨v.off, v.off + v.len⟩

/-- What the parent of the `i`-th key is: a key without one is the root or has one component, and
any other is a child of an earlier key. -/
def Sett.ParentOk (s : Sett) (i : Nat) (k : SettKey) : Prop :=
  match k.parent with
  | none => settSep ∉ k.path.tail
  | some p => p < i ∧ ∃ q, s.keys[p]? = some q ∧ ChildOf k.path q.path

/-- The tables are a tree of keys with their values. -/
structure Sett.Tree (s : Sett) : Prop where
  keysFit : s.keys.length ≤ settMaxKeys
  valsFit : s.vals.length ≤ settMaxValues
  canonical : ∀ k ∈ s.keys, Canonical k.path
  distinct : s.keys.Pairwise fun a b => folded a.path ≠ folded b.path
  parents : ∀ i k, s.keys[i]? = some k → s.ParentOk i k
  owners : ∀ v ∈ s.vals, v.key < s.keys.length
  names : s.vals.Pairwise fun a b => ¬ (a.key = b.key ∧ folded a.name = folded b.name)
  arenaFits : s.arenaUsed ≤ settArena
  inside : ∀ v ∈ s.vals, v.off + v.len ≤ s.arenaUsed
  apart : s.vals.Pairwise fun a b => a.span.Apart b.span

end Mellivora
