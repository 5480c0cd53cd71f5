import Mellivora.Kernel.Directory
import Mellivora.Kernel.Sett

/-!
# Access control lists

`acl.inc`: an entry's access control list is kept in its extended attributes, one for each access
control entry (ACE). `acl_perm` reads them in the order of the specification and `hbfs_check_access`
asks it before it looks at the mode word. The attributes are a parameter: what `hbfs_xattr_get`
finds under a key, without the terminator, and `none` where it answers -1.
-/

namespace Mellivora

/-- The kinds of ACE: a named user, a named group, the mask and everyone else. -/
inductive FileAce where
  | user (uid : Nat)
  | group (gid : Nat)
  | mask
  | other
deriving DecidableEq, Repr

/-! ## The code -/

/-- `.ak_divide`: the digits of a number, pushed from the last to the first. A number has no more
digits than its value, so `n + 1` turns are enough. -/
def akDivide : (turns : Nat) → (n : Nat) → List Nat → List Nat
  | 0, _, digits => digits
  | turns + 1, n, digits => if n / 10 = 0 then n % 10 :: digits else akDivide turns (n / 10)
      (n % 10 :: digits)

/-- `.ak_emit`: a number in decimal. -/
def akEmit (n : Nat) : Text := (akDivide (n + 1) n []).map fun digit => UInt8.ofNat (digit + 48)

/-- `acl_key`: the key of an ACE, `acl:u1000` and so on. -/
def aclKey : FileAce → Text
  | .user uid => [97, 99, 108, 58, 117] ++ akEmit uid
  | .group gid => [97, 99, 108, 58, 103] ++ akEmit gid
  | .mask => [97, 99, 108, 58, 109]
  | .other => [97, 99, 108, 58, 111]

/-- What a byte of a value gives: it less `'0'`, if that is no more than 7. -/
def aceDigit (b : UInt8) : Option Nat :=
  let eax := (b.toNat + (2 ^ 32 - 48)) % 2 ^ 32
  if eax ≤ 7 then some eax else none

section Evaluation

variable (xattr : Text → Option Text)

/-- `acl_get`: the digit of an ACE. Only the first byte of the value is looked at, and there is one
answer for an ACE that is not there and for one that is no digit. -/
def aclGet (ace : FileAce) : Option Nat :=
  match xattr (aclKey ace) with
  | none => none
  | some value => aceDigit (value.headD 0)

/-- `.acp_mask`: the rights that the mask entry leaves. -/
def acpMask (perms : Nat) : Nat :=
  match aclGet xattr .mask with
  | none => perms
  | some m => perms &&& m

/-- `acl_perm`: the permissions of a caller, `none` if the entry has no list. -/
def aclPerm (owner mode uid gid : Nat) : Option Nat :=
  match aclGet xattr .other with
  | none => none
  | some other =>
    let perms :=
      if owner = uid then
        match aclGet xattr (.user owner) with
        | some perms => perms
        | none => mode >>> 6 &&& 7
      else
        match aclGet xattr (.user uid) with
        | some perms => acpMask xattr perms
        | none =>
          match aclGet xattr (.group gid) with
          | some perms => acpMask xattr perms
          | none => other
    some (perms &&& 7)

/-- The 16-bit word of an entry that is given as a list. -/
def listWord (entry : List UInt8) (off : Nat) : Nat :=
  (entry.getD off 0).toNat + 2 ^ 8 * (entry.getD (off + 1) 0).toNat

/-- The kernel whose files carry the attributes `xattr`. -/
def Kernel.withXattr (k : Kernel) : Kernel :=
  { k with
    aclPerm := fun entry =>
      aclPerm xattr (listWord entry deUid) (listWord entry deMode) k.euid k.egid }

end Evaluation

/-! ## The specification -/

/-- An access control list: the ACEs an entry has and the permissions they give. -/
abbrev FileAcl := FileAce → Option (Fin 8)

/-- The attributes are those of a list: a digit for each of its ACEs, and nothing for the others. -/
def CarriesAcl (xattr : Text → Option Text) (acl : FileAcl) : Prop :=
  ∀ ace, xattr (aclKey ace) = (acl ace).map fun d => [UInt8.ofNat (48 + d.val)]

/-- Who asks for what: the entry's mode word, owner and group, the caller and the access bits. -/
structure AccessRequest where
  mode : Nat
  owner : Nat
  group : Nat
  uid : Nat
  gid : Nat
  access : Nat

/-- The mode word: one triplet of it, and for an entry without any bits reading only. -/
def AccessRequest.ModeGrants (r : AccessRequest) : Prop :=
  if r.mode = 0 then ¬ r.access.testBit 0 ∧ ¬ r.access.testBit 1
  else
    let triplet := if r.uid = r.owner then 6 else if r.gid = r.group then 3 else 0
    ∀ i, r.access.testBit i → i < 3 ∧ r.mode.testBit (triplet + i)

/-- The mask entry, if there is one, leaves right `i`. -/
def MaskLeaves (acl : FileAcl) (i : Nat) : Prop := ∀ m, acl .mask = some m → m.val.testBit i

/-- The list gives a right: the owner's ACE or triplet, a named user's and a group's ACE as far as
the mask leaves it, or that of everyone else. -/
def AccessRequest.AclGives (r : AccessRequest) (acl : FileAcl) (other : Fin 8) (i : Nat) : Prop :=
  if r.uid = r.owner then
    match acl (.user r.owner) with
    | some d => d.val.testBit i
    | none => i < 3 ∧ r.mode.testBit (6 + i)
  else
    match acl (.user r.uid) with
    | some d => d.val.testBit i ∧ MaskLeaves acl i
    | none =>
      match acl (.group r.gid) with
      | some d => d.val.testBit i ∧ MaskLeaves acl i
      | none => other.val.testBit i

/-- The rules of section 9a: root; the list where there is one; the mode word where there is
none. -/
def AccessRequest.Grants (r : AccessRequest) (acl : FileAcl) : Prop :=
  r.uid = 0 ∨
    match acl .other with
    | some other => ∀ i, r.access.testBit i → r.AclGives acl other i
    | none => r.ModeGrants

/-- The request that `hbfs_check_access` decides. -/
def accessRequest (k : Kernel) (buf : Buffer) (slot access : Nat) : AccessRequest where
  mode := buf.entryWord slot deMode
  owner := buf.entryWord slot deUid
  group := buf.entryWord slot deGid
  uid := k.euid
  gid := k.egid
  access := access

/-- The attributes with the value of one ACE replaced by a byte. -/
def corruptAce (xattr : Text → Option Text) (ace : FileAce) (b : UInt8) : Text → Option Text :=
  Function.update xattr (aclKey ace) (some [b])

/-- The code decides by the rules, and no ACE that is no longer a digit lets the caller in. -/
structure AccessSound (k : Kernel) (xattr : Text → Option Text) (acl : FileAcl) (buf : Buffer)
    (slot access : Nat) :
    Prop where
  exact : hbfsCheckAccess (k.withXattr xattr) buf slot access = false ↔
    (accessRequest k buf slot access).Grants acl
  neverWidens : ∀ ace b, (acl ace).isSome → ¬ (48 ≤ b.toNat ∧ b.toNat ≤ 55) →
    hbfsCheckAccess (k.withXattr xattr) buf slot access = true →
    hbfsCheckAccess (k.withXattr (corruptAce xattr ace b)) buf slot access = true

end Mellivora
