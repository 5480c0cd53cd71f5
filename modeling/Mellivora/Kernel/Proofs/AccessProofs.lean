import Mellivora.Kernel.Waits
import Mellivora.Kernel.Proofs.RefCountProofs

/-!
# Proofs: the default descriptor

The first entry of the descriptor has the low byte of the creator's uid, which is compared with
whole uids and of which `0xFF` stands for everybody.
-/

namespace Mellivora

variable {type : ObjType} {w : World} {obj t u uid rights : Nat}

/-- What the descriptor of an object should do for its creator and against another task. -/
structure World.Protects (w : World) (obj creator other : Nat) : Prop where
  other : ∀ rights, handleRights rights (w.objs obj).type.all &&& mandatoryRights ≠ 0 →
    objAccess w (some other) obj rights = false
  creator : ∀ rights, handleRights rights (w.objs obj).type.all &&& (w.objs obj).type.all =
    handleRights rights (w.objs obj).type.all → objAccess w (some creator) obj rights = true

/-- The rights of everybody. -/
def worldRights : Nat := rightQueryState ||| rightReadAttr ||| rightSynchronize

/-- The rights a default descriptor gives a user. -/
theorem mask_defaultSecurity (htype : type.waitable) :
    (defaultSecurity u type).mask uid false &&&
      ((defaultSecurity u type).mask uid true ^^^ 0xFFFFFFFF) =
      if u % 256 = aceWorld ∨ u % 256 = uid then type.all else worldRights := by
  by_cases hsid : u % 256 = aceWorld ∨ u % 256 = uid
  all_goals
    simp only [Security.mask, defaultSecurity, sdAceMax]
    cases type <;> first | exact absurd htype Bool.false_ne_true | simp [hsid]; rfl

/-- The access check on a default descriptor. -/
theorem objAccess_default (htype : (w.objs obj).type.waitable)
    (hsd : (w.objs obj).security = some (defaultSecurity u (w.objs obj).type))
    (ht : (w.tasks t).euid ≠ 0) :
    objAccess w (some t) obj rights = true ↔
      (if u % 256 = aceWorld ∨
        u % 256 = (w.tasks t).euid then (w.objs obj).type.all else worldRights) &&&
        handleRights rights (w.objs obj).type.all = handleRights rights (w.objs obj).type.all := by
  have hwho : w.identity (some t) = ⟨(w.tasks t).euid, (w.tasks t).sess, integrityMedium, false⟩ :=
    if_neg ht
  have hlevel : ¬ integrityMedium < (defaultSecurity u (w.objs obj).type).integ := by
    intro h
    exact lt_irrefl _ h
  simp only [objAccess, hsd, World.hasPriv, hwho, mask_defaultSecurity htype, hlevel, false_and,
    and_false, if_false,
    Bool.or_false, decide_eq_true_eq]

/-- **The default descriptor** of a waitable object keeps it from a user who is not its creator, and
lets its creator do everything, if and only if the creator's uid is below 255. -/
theorem defaultSecurity_protects_iff (w : World) (obj creator other : Nat)
    (htype : (w.objs obj).type.waitable)
    (hsd : (w.objs obj).security = some (defaultSecurity (w.tasks creator).euid (w.objs obj).type))
    (hne : (w.tasks other).euid ≠ (w.tasks creator).euid) (hother : (w.tasks other).euid ≠ 0) :
    w.Protects obj creator other ↔ (w.tasks creator).euid < 255 := by
  have hdesired : handleRights rightSetState (w.objs obj).type.all = rightSetState :=
    if_pos (by decide)
  have hset : rightSetState &&& (w.objs obj).type.all = rightSetState := by
    generalize (w.objs obj).type = type at htype
    cases type <;> first | rfl | exact absurd htype Bool.false_ne_true
  constructor
  · intro h
    by_contra hlow
    have hcreator := h.creator rightSetState (by rwa [hdesired])
    rw [objAccess_default htype hsd (by omega), hdesired] at hcreator
    split at hcreator
    case isTrue hsid =>
      -- Everybody has the rights of the creator.
      have hworld : (w.tasks creator).euid % 256 = aceWorld := by
        unfold aceWorld at hsid ⊢
        omega
      have hdenied := h.other rightSetState (by rw [hdesired]; decide)
      rw [Bool.eq_false_iff, Ne, objAccess_default htype hsd hother, if_pos (Or.inl hworld),
        hdesired, Nat.land_comm] at hdenied
      exact hdenied hset
    case isFalse => exact absurd hcreator (by decide)
  · intro hlow
    have hsid : (w.tasks creator).euid % 256 = (w.tasks creator).euid := Nat.mod_eq_of_lt (by omega)
    constructor
    · intro rights hasked
      rw [Bool.eq_false_iff, Ne, objAccess_default htype hsd hother, hsid, if_neg]
      · intro hgranted
        rw [← hgranted, Nat.land_comm worldRights, Nat.land_assoc] at hasked
        exact hasked (Nat.and_zero _)
      · unfold aceWorld
        omega
    · intro rights hasked
      by_cases hzero : (w.tasks creator).euid = 0
      · have hpriv : w.hasPriv (some creator) =
          true := by simp [World.hasPriv, World.identity, hzero]
        simp [objAccess, hsd, hpriv]
      · rw [objAccess_default htype hsd hzero, if_pos (Or.inr hsid), Nat.land_comm, hasked]

/-- Object 16 is an event that task 0 has created, and the other tasks are of another user. -/
def eventOf (uid other : Nat) : World :=
  { bareWorld with
    objs := fun _ => { type := .event, security := some (defaultSecurity uid .event) }
    tasks := fun i => { bareWorld.tasks i with euid := if i = 0 then uid else other } }

/-- User 1000 is too large for the entry, user 100 is not. -/
theorem defaultSecurity_protects_1000 :
    ((eventOf 1000 7).Protects 16 0 1 ↔ 1000 < 255) ∧ (eventOf 100 7).Protects 16 0 1 :=
  ⟨defaultSecurity_protects_iff (eventOf 1000 7) 16 0 1 rfl rfl (by decide) (by decide),
    (defaultSecurity_protects_iff (eventOf 100 7) 16 0 1 rfl rfl (by decide) (by decide)).mpr
    (by decide)⟩

/-- User 1000 may not set the event, whose entry has the uid 232, and user 232 may. -/
theorem defaultSecurity_not_protects :
    objAccess (eventOf 1000 232) (some 0) 16 rightSetState = false ∧
      objAccess (eventOf 1000 232) (some 1) 16 rightSetState = true := by
  decide

end Mellivora
