import Mellivora.Kernel.Directory

/-!
# The block ledger

`quota.inc`: sixteen slots of a user, the blocks charged to them and their limit. The ledger is
derived from the directory tree at mount by `quota_build` and kept by charges and releases after
that. Its two counters of refusals and of blocks ever charged are only shown, and left out.
-/

namespace Mellivora

open Function

/-- `QUOTA_USERS`: the users the table has room for. -/
def quotaUsers : Nat := 16
/-- `QUOTA_NOBODY`: the user of an empty row. -/
def quotaNobody : Nat := 2 ^ 32 - 1

/-- `quota_slot`: the slot of a user, a free one if the ledger does not know them yet. -/
def quotaSlot (uid : Nat) : KernelM (Option Nat) := do
  let k ← get
  match (List.range quotaUsers).find? (k.quotaUid · == uid) with
  | some slot => return some slot
  | none =>
    match (List.range quotaUsers).find? (k.quotaUid · == quotaNobody) with
    | none => return none
    | some slot =>
      set { k with
        quotaUid := update k.quotaUid slot uid
        quotaUsed := update k.quotaUsed slot 0
        quotaLimit := update k.quotaLimit slot k.quotaDefault }
      return some slot

/-- `quota_allow`, CF set when the user may not grow by `blocks`: a limit of 0 means none. -/
def quotaAllow (uid blocks : Nat) : KernelM Bool := do
  match ← quotaSlot uid with
  | none => return true
  | some slot =>
    let k ← get
    if k.quotaLimit slot = 0 then return false
    return k.quotaLimit slot < (k.quotaUsed slot + blocks) % 2 ^ 32

/-- Changes the user's count, if the table has a row for it. -/
def quotaChange (uid : Nat) (used : Nat → Nat) : KernelM Unit := do
  match ← quotaSlot uid with
  | none => return
  | some slot =>
    modify fun k =>
      { k with quotaUsed := update k.quotaUsed slot (used (k.quotaUsed slot)) }

/-- `quota_charge`. -/
def quotaCharge (uid blocks : Nat) : KernelM Unit :=
  quotaChange uid fun used => (used + blocks) % 2 ^ 32

/-- `quota_release`, which stops at 0 -/
def quotaRelease (uid blocks : Nat) : KernelM Unit := quotaChange uid (· - blocks)

/-! ## Deriving the ledger from the tree -/

end Mellivora
