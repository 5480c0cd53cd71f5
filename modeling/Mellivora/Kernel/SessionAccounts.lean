import Mellivora.Kernel.SettAccess

/-!
# Accounts

The accounts of `session.inc` are keys of the Sett, each with its uid, the scheme of the password
function, the salt and the hash. The `account` command adds and deletes them, and a logon verifies a
password against the stored hash.
-/

namespace Mellivora

/-- `ACC_PREFIX`: `\Registry\Machine\Security\Accounts` -/
def accPrefix : Text :=
  [92, 82, 101, 103, 105, 115, 116, 114, 121, 92, 77, 97, 99, 104, 105, 110, 101,
    92, 83, 101, 99, 117, 114, 105, 116, 121, 92, 65, 99, 99, 111, 117, 110, 116, 115]

/-- `ACC_VAL_UID`: "Uid". -/
def accValUid : Text := [85, 105, 100]

/-- `ACC_VAL_SALT`: "Salt". -/
def accValSalt : Text := [83, 97, 108, 116]

/-- `ACC_VAL_HASH`: "Hash". -/
def accValHash : Text := [72, 97, 115, 104]

/-- `ACC_VAL_ALGO`: "Algo". -/
def accValAlgo : Text := [65, 108, 103, 111]

/-- `SESS_KDF_SCHEME`. -/
def sessKdfScheme : Nat := 1

/-- The password function: the hash of a password under a salt. -/
structure Kdf where
  hash : (password : Text) → (salt : List UInt8) → List UInt8
  length : ∀ password salt, (hash password salt).length = 32

/-- `sess_path_of_account` -/
def pathOfAccount (name : Text) : Text := accPrefix ++ settSep :: name

namespace Sett

/-- `.sua_loop`: the highest uid of the accounts from the `i`-th on, `left` of them at most. -/
def uidScan (s : Sett) : (left i highest : Nat) → Nat
  | 0, _, highest => highest
  | left + 1, i, highest =>
    match s.childName i accPrefix 23 with
    | none => highest
    | some name =>
      match s.kvGetU32 (pathOfAccount name) accValUid with
      | none => s.uidScan left (i + 1) highest
      | some uid => s.uidScan left (i + 1) (if uid ≤ highest then highest else uid)

/-- `sess_uid_alloc` -/
def uidAlloc (s : Sett) : Nat := (s.uidScan 32 0 999 + 1) % 2 ^ 32

/-- A binary value of a given length. -/
def kvGetBin (s : Sett) (path name : Text) (len : Nat) : Option (List UInt8) :=
  (s.kvLookup path name).bind fun v =>
    if v.type = settTypeBinary ∧ v.len = len then some (s.bytes v) else none

/-- `sess_load_account`: the uid, the salt and the hash. -/
def loadAccount (s : Sett) (name : Text) : Option (Nat × List UInt8 × List UInt8) :=
  let path := pathOfAccount name
  (s.kvGetU32 path accValUid).bind fun uid =>
    (s.kvGetU32 path accValAlgo).bind fun algo =>
      if algo ≠ sessKdfScheme then none
      else
        (s.kvGetBin path accValSalt 8).bind fun salt =>
          (s.kvGetBin path accValHash 32).map fun hash => (uid, salt, hash)

/-- `sess_verify`: the uid, if the password is accepted. -/
def verify (kdf : Kdf) (s : Sett) (name password : Text) : Option Nat :=
  (s.loadAccount name).bind fun (uid, salt, hash) =>
    if kdf.hash password salt = hash then some uid else none

/-- `sett_kv_set` for one value after the other, up to the first that is refused. -/
def kvSetAll (path : Text) : List (Text × Nat × List UInt8) → Sett → Bool × Sett
  | [], s => (true, s)
  | (name, type, data) :: rest, s =>
    match s.kvSet path name type data with
    | (false, s') => (false, s')
    | (true, s') => s'.kvSetAll path rest

end Sett

/-! ## The command -/

/-- What a command finds: the tick count, what the last logon left in `sess_uid_buf`, and whether
the Sett can be written to the disk. -/
structure Moment where
  tick : Nat
  uidBuf : Nat
  saved : Bool

/-- The salt: the tick, and the tick again mixed with the uid buffer. -/
def Moment.salt (m : Moment) : List UInt8 :=
  dwordBytes m.tick ++ dwordBytes (m.tick * 2654435761 % 2 ^ 32 ^^^ m.uidBuf)

/-- What the command prints. -/
inductive AccountReply
  | added
  | duplicate
  | failed
  | deleted
  | noSuch
  | listed
  | usage
  deriving DecidableEq, Repr

/-- The values of an account, in the order in which they are written. -/
def accountValues (uid : Nat) (salt hash : List UInt8) : List (Text × Nat × List UInt8) :=
  [(accValUid, settTypeU32, dwordBytes uid), (accValAlgo, settTypeU32, dwordBytes sessKdfScheme),
    (accValSalt, settTypeBinary, salt), (accValHash, settTypeBinary, hash)]

/-- `.add_stale`: the values are written, and the Sett is compacted and saved. -/
def accountWrite (kdf : Kdf) (m : Moment) (s : Sett) (name password : Text) (uid : Nat) :
    AccountReply × Sett :=
  match s.kvSetAll (pathOfAccount name) (accountValues uid m.salt (kdf.hash password m.salt)) with
  | (false, s') => (.failed, s')
  | (true, s') => (if m.saved then .added else .failed, s'.compact)

/-- `.add` behind the words. For the lookup of the scheme EDI is loaded from ESI, which still has
the address of the name `Uid`, so that this name is taken for the path. -/
def accountAdd (kdf : Kdf) (m : Moment) (s : Sett) (name password : Text) : AccountReply × Sett :=
  match s.kvGetU32 (pathOfAccount name) accValUid with
  | none => accountWrite kdf m s name password s.uidAlloc
  | some uid =>
    match s.kvGetU32 accValUid accValAlgo with
    | none => accountWrite kdf m s name password uid
    | some algo =>
      if algo ≠ sessKdfScheme then accountWrite kdf m s name password uid else (.duplicate, s)

/-- `.del` behind the word. -/
def accountDel (s : Sett) (name : Text) : AccountReply × Sett :=
  match s.kvDelKey (pathOfAccount name) with
  | none => (.noSuch, s)
  | some s' => (.deleted, s'.compact)

/-- `sess_account_command`, with the line behind the command's own name. -/
def accountCommand (kdf : Kdf) (m : Moment) (s : Sett) (line : Text) : AccountReply × Sett :=
  match settWord 16 line with
  | none => (.usage, s)
  | some (verb, line) =>
    if settCiEqual verb [97, 100, 100] then
      match settWord 15 line with
      | none => (.usage, s)
      | some (name, line) =>
        match settWord 31 line with
        | none => (.usage, s)
        | some (password, _) => accountAdd kdf m s name password
    else if settCiEqual verb [100, 101, 108] then
      match settWord 15 line with
      | none => (.usage, s)
      | some (name, _) => accountDel s name
    else if settCiEqual verb [108, 105, 115, 116] then (.listed, s)
    else (.usage, s)

/-! ## Runs -/

/-- `account add NAME PASSWORD` or `account del NAME` -/
inductive AccountOp
  | add (name password : Text) (m : Moment)
  | del (name : Text) (m : Moment)

/-- The command line. -/
def AccountOp.line : AccountOp → Text
  | add name password _ => [97, 100, 100, 32] ++ name ++ 32 :: password
  | del name _ => [100, 101, 108, 32] ++ name

/-- What the clock and the random numbers give the command. -/
def AccountOp.moment : AccountOp → Moment
  | add _ _ m => m
  | del _ m => m

/-- A word of a line that fits `room`. -/
def IsWord (room : Nat) (word : Text) : Prop := word ≠ [] ∧ word.length ≤ room ∧ 0x20 ∉ word

/-- Name and password are words that fit their buffers. -/
def AccountOp.WellFormed : AccountOp → Prop
  | add name password _ => IsWord 15 name ∧ IsWord 31 password
  | del name _ => IsWord 15 name

/-- An account, with the password in clear. -/
structure Account where
  uid : Nat
  salt : List UInt8
  password : Text

/-- The accounts there should be, by their names up to case. -/
abbrev Ledger := Text → Option Account

/-- A name that is not there is entered with the uid it is given, and a name that is there stays as
it is. -/
def AccountOp.enter (s : Sett) (l : Ledger) : AccountOp → Ledger
  | add name password m =>
    if (l (folded name)).isSome then l
    else Function.update l (folded name) (some { uid := s.uidAlloc, salt := m.salt, password })
  | del name _ => Function.update l (folded name) none

/-- The Sett and the ledger after the command. -/
def AccountOp.step (kdf : Kdf) (op : AccountOp) (st : Sett × Ledger) : Sett × Ledger :=
  ((accountCommand kdf op.moment st.1 op.line).2, op.enter st.1 st.2)

/-- There is room for one more account. -/
def Sett.Room (s : Sett) (name : Text) : Prop :=
  s.keys.length + s.missingFrom [settSep] (pathOfAccount name).tail ≤ settMaxKeys ∧
    s.vals.length + 4 ≤ settMaxValues ∧ s.arenaUsed + 48 ≤ settArena

/-- The Sett has the accounts of the ledger: the uid of each is its own and no lower than 1000, and
a logon succeeds with the password given and with those that have the same hash. -/
structure Keeps (kdf : Kdf) (s : Sett) (l : Ledger) : Prop where
  uid : ∀ name, s.kvGetU32 (pathOfAccount name) accValUid = (l (folded name)).map (·.uid)
  own : ∀ n n' a a', l n = some a → l n' = some a' → a.uid = a'.uid → n = n'
  high : ∀ n a, l n = some a → 1000 ≤ a.uid
  verify : ∀ name password, s.verify kdf name password = (l (folded name)).bind fun a =>
    if kdf.hash password a.salt = kdf.hash a.password a.salt then some a.uid else none

/-- How a command is answered: a name that is there is refused and nothing changes, and any other is
added. -/
def AccountOp.Answered (kdf : Kdf) (op : AccountOp) (st : Sett × Ledger) : Prop :=
  match op with
  | add name _ m =>
    if (st.2 (folded name)).isSome then accountCommand kdf m st.1 op.line = (.duplicate, st.1)
    else (accountCommand kdf m st.1 op.line).1 = if m.saved then .added else .failed
  | del name m => (accountCommand kdf m st.1 op.line).1 =
      if (st.2 (folded name)).isSome then .deleted else .noSuch

/-- The names have no separator; a name that is added is not there yet, and no account has the last
uid there is. -/
def AccountOp.Harmless (op : AccountOp) (st : Sett × Ledger) : Prop :=
  match op with
  | add name _ _ => settSep ∉ name ∧ st.2 (folded name) = none ∧ ∀ n a, st.2 n = some a →
      a.uid ≠ 2 ^ 32 - 1
  | del name _ => settSep ∉ name

/-- The command finds the room it needs. -/
def AccountOp.Roomy (op : AccountOp) (st : Sett × Ledger) : Prop :=
  match op with
  | add name _ _ => st.1.Room name
  | del _ _ => True

end Mellivora
