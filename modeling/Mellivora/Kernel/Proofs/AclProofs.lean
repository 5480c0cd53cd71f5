import Mellivora.Kernel.Acl
import Mellivora.Kernel.Objects

/-!
# Proofs: access control lists

Where every ACE is a digit, `hbfs_check_access` decides by the rules of the specification.
-/

namespace Mellivora

open Function List Nat

/-! ## Keys -/

theorem toNat_digit {d : Nat} (h : d < 10) : (UInt8.ofNat (d + 48)).toNat - 48 = d := by
  rw [UInt8.toNat_ofNat']
  omega

/-- The digits that are pushed stand for the number, and those under them follow it. -/
theorem foldl_akDivide (turns n : Nat) (hn : n < turns) (digits : List Nat) :
    (akDivide turns n digits).foldl (fun a d => 10 * a + ((UInt8.ofNat (d + 48)).toNat - 48)) 0 =
      digits.foldl (fun a d => 10 * a + ((UInt8.ofNat (d + 48)).toNat - 48)) n := by
  have hdigit := toNat_digit (mod_lt n (show 10 > 0 by decide))
  induction turns generalizing n digits with
  | zero => omega
  | succ turns ih =>
  rw [akDivide]
  split_ifs with h
  · rw [foldl_cons, hdigit]
    congr 1
    omega
  · rw [ih (n / 10) (by omega) _ (toNat_digit (mod_lt _ (by decide))), foldl_cons, hdigit]
    congr 1
    omega

theorem decimal_akEmit (n : Nat) : decimal (akEmit n) = n := by
  rw [decimal, akEmit, foldl_map]
  exact foldl_akDivide (n + 1) n (by omega) []

theorem akEmit_injective : Function.Injective akEmit := by
  intro n m h
  rw [← decimal_akEmit n, h, decimal_akEmit]

theorem aclKey_injective : Function.Injective aclKey := by
  intro a b h
  cases a <;> cases b <;> simp [aclKey] at h ⊢
  · exact akEmit_injective h
  · exact akEmit_injective h

/-! ## What `acl_get` reads -/

theorem aceDigit_digit : ∀ d : Fin 8, aceDigit (UInt8.ofNat (48 + d.val)) = some d.val := by decide

theorem aceDigit_eq_none {b : UInt8} (hb : ¬ (48 ≤ b.toNat ∧ b.toNat ≤ 55)) :
    aceDigit b = none := by
  have hlt := b.toNat_lt
  rw [aceDigit, if_neg (by omega)]

section Reading

variable {xattr : Text → Option Text} {acl : FileAcl}

theorem aclGet_of_carries (h : CarriesAcl xattr acl) (ace : FileAce) :
    aclGet xattr ace = (acl ace).map Fin.val := by
  rw [aclGet, h ace]
  cases acl ace with
  | none => rfl
  | some d => exact aceDigit_digit d

/-- A damaged entry reads as none. -/
theorem aclGet_corruptAce (h : CarriesAcl xattr acl) (ace : FileAce) {b : UInt8}
    (hb : ¬ (48 ≤ b.toNat ∧ b.toNat ≤ 55)) (ace' : FileAce) : aclGet (corruptAce xattr ace b) ace' =
    (Function.update acl ace none ace').map Fin.val := by
  by_cases heq : ace' = ace
  · subst heq
    rw [update_self, aclGet, corruptAce, update_self]
    exact aceDigit_eq_none hb
  · have hkey : aclKey ace' ≠ aclKey ace := fun hk => heq (aclKey_injective hk)
    rw [update_of_ne heq, ← aclGet_of_carries h, aclGet, aclGet, corruptAce, update_of_ne hkey]

end Reading

/-! ## The rules -/

theorem and_eq_iff (perms access : Nat) :
    perms &&& access = access ↔ ∀ i, access.testBit i → perms.testBit i := by
  constructor
  · grind
  intro h
  apply eq_of_testBit_eq
  intro i
  rw [testBit_and]
  cases hi : access.testBit i with
  | false => rw [Bool.and_false]
  | true => rw [h i hi, Bool.and_true]

theorem testBit_and_seven (perms i : Nat) :
    (perms &&& 7).testBit i = true ↔ i < 3 ∧ perms.testBit i = true := by
  rw [testBit_and, Bool.and_eq_true, show (7 : Nat) = 2 ^ 3 - 1 by rfl, testBit_two_pow_sub_one,
    decide_eq_true_eq, and_comm]

theorem testBit_digit (d : Fin 8) {i : Nat} (h : d.val.testBit i = true) : i < 3 := by
  by_contra hle
  have hlt : d.val < 2 ^ i :=
    d.isLt.trans_le (Nat.pow_le_pow_right (n := 2) (by decide) (Nat.le_of_not_lt hle))
  rw [testBit_lt_two_pow hlt] at h
  cases h

theorem listWord_entry (buf : Buffer) (slot off : Nat) (hoff : off + 1 < hbfsDirEntrySize) :
    listWord ((List.range hbfsDirEntrySize).map fun i => buf (entryOff slot i)) off =
    buf.entryWord slot off := by
  have hget : ∀ i < hbfsDirEntrySize,
      ((range hbfsDirEntrySize).map fun i => buf (entryOff slot i)).getD i 0 =
      buf (entryOff slot i) := by
    intro i hi
    simp [getD_eq_getElem?_getD, hi]
  rw [listWord, hget off (by omega), hget (off + 1) hoff]
  rfl

section Rules

variable {xattr : Text → Option Text} {acl : FileAcl}

theorem aclPerm_eq_none (hget : ∀ ace, aclGet xattr ace = (acl ace).map Fin.val)
    (hother : acl .other = none)
    (owner mode uid gid : Nat) : aclPerm xattr owner mode uid gid = none := by
  rw [aclPerm, hget, hother]
  rfl

/-- A right passes the mask. -/
theorem testBit_acpMask (hget : ∀ ace, aclGet xattr ace = (acl ace).map Fin.val)
    (d : Fin 8) (i : Nat) :
    (acpMask xattr d.val &&& 7 &&& 7).testBit i = true ↔ d.val.testBit i = true ∧
    MaskLeaves acl i := by
  have hdigit : (d.val.testBit i = true → i < 3) := testBit_digit d
  rw [testBit_and_seven, testBit_and_seven, acpMask, hget, MaskLeaves]
  cases acl .mask with
  | none => grind
  | some m => grind

/-- What `acl_perm` answers for a complete list. -/
theorem aclPerm_eq_some (hget : ∀ ace, aclGet xattr ace = (acl ace).map Fin.val) {other : Fin 8}
    (hother : acl .other = some other) (r : AccessRequest) :
    ∃ perms, aclPerm xattr r.owner r.mode r.uid r.gid = some perms ∧
      ∀ i, (perms &&& 7).testBit i = true ↔ r.AclGives acl other i := by
  have hdigit : ∀ (d : Fin 8) (i : Nat), (d.val &&& 7 &&& 7).testBit i = true ↔
    d.val.testBit i = true := by
    intro d i
    rw [testBit_and_seven, testBit_and_seven]
    exact ⟨fun h => h.2.2, fun h => ⟨testBit_digit d h, testBit_digit d h, h⟩⟩
  simp only [aclPerm, hget, hother, Option.map_some, AccessRequest.AclGives]
  refine ⟨_, rfl, fun i => ?_⟩
  by_cases howner : r.owner = r.uid
  · rw [if_pos howner, if_pos howner.symm]
    cases acl (.user r.owner) with
    | some d => exact hdigit d i
    | none =>
      simp only [Option.map_none]
      rw [testBit_and_seven, testBit_and_seven, testBit_and_seven, testBit_shiftRight]
      exact ⟨fun h => h.2.2, fun h => ⟨h.1, h.1, h⟩⟩
  · rw [if_neg howner, if_neg fun h => howner h.symm]
    cases acl (.user r.uid) with
    | some d => exact testBit_acpMask hget d i
    | none =>
      cases acl (.group r.gid) with
      | some d => exact testBit_acpMask hget d i
      | none => exact hdigit other i

theorem asked_iff {perms access : Nat} {Gives : Nat → Prop}
    (h : ∀ i, (perms &&& 7).testBit i = true ↔ Gives i) :
    (perms &&& 7 &&& access != access) = false ↔ ∀ i, access.testBit i = true → Gives i := by
  rw [bne_eq_false_iff_eq, and_eq_iff]
  exact forall_congr' fun i => imp_congr_right fun _ => h i

/-- The check of the mode bits. -/
theorem modeGrants_iff (r : AccessRequest) :
    (if r.mode = 0 then r.access &&& (hbfsAccWrite ||| hbfsAccExec) != 0
      else
        (if r.uid = r.owner then r.mode >>> 6 else if r.gid = r.group then r.mode >>> 3 else
          r.mode) &&& 7
          &&& r.access != r.access) = false ↔ r.ModeGrants := by
  rw [AccessRequest.ModeGrants]
  by_cases hmode : r.mode = 0
  · rw [if_pos hmode, if_pos hmode, bne_eq_false_iff_eq, show hbfsAccWrite ||| hbfsAccExec =
      2 ^ 2 - 1 by rfl,
      and_two_pow_sub_one_eq_mod, testBit_zero, testBit_succ, testBit_zero, decide_eq_true_eq,
      decide_eq_true_eq]
    omega
  rw [if_neg hmode, if_neg hmode]
  apply asked_iff
  intro i
  rw [testBit_and_seven]
  refine and_congr_right fun _ => ?_
  split_ifs
  · rw [testBit_shiftRight]
  · rw [testBit_shiftRight]
  · rw [zero_add]

/-- `hbfs_check_access` decides by the rules, over the ACEs that `acl_get` finds. -/
theorem hbfsCheckAccess_iff (hget : ∀ ace, aclGet xattr ace = (acl ace).map Fin.val) (k : Kernel)
    (buf : Buffer) (slot access : Nat) :
    hbfsCheckAccess (k.withXattr xattr) buf slot access = false ↔
    (accessRequest k buf slot access).Grants acl := by
  have huid := listWord_entry buf slot deUid (by decide)
  have hmode := listWord_entry buf slot deMode (by decide)
  rw [hbfsCheckAccess, AccessRequest.Grants]
  by_cases hroot : k.euid = 0
  · exact iff_of_true (if_pos hroot) (Or.inl hroot)
  have hnot : ¬ (accessRequest k buf slot access).uid = 0 := hroot
  simp only [Kernel.withXattr, hroot, hnot, if_false, false_or, huid, hmode]
  cases hother : acl .other with
  | none =>
    rw [aclPerm_eq_none hget hother]
    exact modeGrants_iff (accessRequest k buf slot access)
  | some other =>
    obtain ⟨perms, hperms, hbits⟩ := aclPerm_eq_some hget hother (accessRequest k buf slot access)
    have hanswer : aclPerm xattr (buf.entryWord slot deUid) (buf.entryWord slot deMode)
      k.euid k.egid =
      some perms := hperms
    rw [hanswer]
    exact asked_iff hbits

/-- **Access control lists**: for every entry with a list, every caller and every access, the code
decides by the rules of the specification; and an ACE that is no digit lets nobody in who was not
let in, if and only if the caller has the access already or would be denied by the same rules
without any one of the ACEs. -/
theorem accessSound_iff (k : Kernel) (xattr : Text → Option Text) (acl : FileAcl)
    (hacl : CarriesAcl xattr acl) (buf : Buffer) (slot access : Nat) :
    AccessSound k xattr acl buf slot access ↔
      (accessRequest k buf slot access).Grants acl ∨
        ∀ ace, (acl ace).isSome →
        ¬ (accessRequest k buf slot access).Grants (Function.update acl ace none) := by
  have hexact := hbfsCheckAccess_iff (aclGet_of_carries hacl) k buf slot access
  have hcorrupt := fun ace {b : UInt8} hb =>
    hbfsCheckAccess_iff (aclGet_corruptAce hacl ace (b := b) hb) k buf slot access
  constructor
  · intro hsound
    by_cases hgrants : (accessRequest k buf slot access).Grants acl
    · exact Or.inl hgrants
    refine Or.inr fun ace hace hwide => ?_
    have hdenied : hbfsCheckAccess (k.withXattr xattr) buf slot access = true := by
      rw [← Bool.not_eq_false, hexact]
      exact hgrants
    have hstill := hsound.neverWidens ace 56 hace (by decide) hdenied
    rw [(hcorrupt ace (by decide)).mpr hwide] at hstill
    cases hstill
  · intro h
    refine ⟨hexact, fun ace b hace hb hdenied => ?_⟩
    rw [← Bool.not_eq_false, hexact] at hdenied
    rw [← Bool.not_eq_false, hcorrupt ace hb]
    exact (h.resolve_left hdenied) ace hace

end Rules

/-! ## A list that is lost -/

/-- A list with one ACE: everyone but the owner is shut out. -/
def shutAcl : FileAcl := fun ace => if ace = .other then some 0 else none

/-- Attributes whose one entry gives others no right. -/
def shutXattr : Text → Option Text := fun key => if key = aclKey .other then some [48] else none

theorem shutXattr_carries : CarriesAcl shutXattr shutAcl := by
  intro ace
  by_cases h : ace = .other
  · subst h
    rfl
  · rw [shutXattr, if_neg fun hk => h (aclKey_injective hk), shutAcl, if_neg h]
    rfl

/-- An entry of user 1 that its mode word opens to everyone. -/
def openedEntry : Buffer := (Buffer.setWord (fun _ => 0) deMode 0o666).setWord deUid 1

/-- User 2. -/
def stranger : Kernel := { euid := 2, egid := 2, disk := fun _ => ⟨fun _ => 0⟩ }

/-- The owner has what the mode word gives. -/
theorem accessSound_iff_owner :
    AccessSound { stranger with euid := 1 } shutXattr shutAcl openedEntry 0 4 ↔
      (accessRequest { stranger with euid := 1 } openedEntry 0 4).Grants shutAcl ∨
        ∀ ace, (shutAcl ace).isSome →
          ¬ (accessRequest { stranger with euid := 1 } openedEntry 0 4).Grants
          (Function.update shutAcl ace none) :=
  accessSound_iff _ _ _ shutXattr_carries _ _ _

/-- A stranger is denied; with the digit of `acl:o` spoilt they may read and write. -/
theorem accessSound_fails :
    hbfsCheckAccess (stranger.withXattr shutXattr) openedEntry 0 6 = true ∧
      hbfsCheckAccess (stranger.withXattr (corruptAce shutXattr .other 56)) openedEntry
      0 6 = false ∧
      ¬ AccessSound stranger shutXattr shutAcl openedEntry 0 6 := by
  have hdenied : hbfsCheckAccess (stranger.withXattr shutXattr) openedEntry 0 6 = true := by decide
  have hgranted : hbfsCheckAccess (stranger.withXattr (corruptAce shutXattr .other 56)) openedEntry
    0 6 = false := by
    decide
  refine ⟨hdenied, hgranted, fun h => ?_⟩
  have hstill := h.neverWidens .other 56 rfl (by decide) hdenied
  cases hgranted.symm.trans hstill

end Mellivora
