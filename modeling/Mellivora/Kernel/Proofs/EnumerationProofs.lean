import Mellivora.Kernel.Enumeration

/-!
# Proofs: listing a directory

Every call is a call with the index 0. So a directory with an entry is never seen to end, and only
one without is listed as it should be.
-/

namespace Mellivora

variable {d : VfsDirs} {proc : Buffer → Nat → Nat → Option Nat × Buffer} {path : Name}

theorem readdirScan_zero_none {live : Nat → Bool} (left slot : Nat) :
    readdirScan live 0 left slot 0 = none ↔ ∀ s, slot ≤ s → s < slot + left → live s = false := by
  induction left generalizing slot with
  | zero => exact ⟨fun _ s h1 h2 => absurd h2 (by omega), fun _ => rfl⟩
  | succ left ih =>
  rw [readdirScan]
  cases hlive : live slot with
  | true =>
    refine ⟨nofun, fun hall => ?_⟩
    rw [hall slot le_rfl (by omega)] at hlive
    cases hlive
  | false =>
  rw [if_pos (by decide), ih]
  constructor
  · intro hall s h1 h2
    by_cases hs : s = slot
    · rwa [hs]
    · exact hall s (by omega) (by omega)
  · exact fun hall s h1 h2 => hall s (by omega) (by omega)

/-- Whatever the index, a call returns -1 exactly when the directory is vacant. -/
theorem vfsReaddir_none (hproc : (vfsRoute path).1 ≠ .proc) (buf index : Nat) (mem : Buffer) :
    (vfsReaddir d proc path buf mem index).1 = none ↔ d.Vacant (vfsRoute path).1 := by
  have hscan : ∀ live n, readdirScan live 0 n 0 0 = none ↔ ∀ s < n, live s = false :=
    fun live n => by
    rw [readdirScan_zero_none]
    simp
  obtain ⟨fs, hroute⟩ : ∃ fs, vfsRoute path = (fs, 0) := ⟨_, rfl⟩
  rw [hroute] at hproc ⊢
  unfold vfsReaddir
  rw [hroute]
  cases fs with
  | proc => exact absurd rfl hproc
  | dev => exact ⟨nofun, False.elim⟩
  | hbfs =>
    simp only [vfsHbfsReaddir, VfsDirs.Vacant, ← hscan]
    split <;> simp_all
  | tmp =>
    simp only [vfsTmpReaddir, VfsDirs.Vacant, ← hscan]
    split <;> simp_all

/-- An empty directory has no names. -/
theorem liveNames_vacant {fs : VfsFs} (h : d.Vacant fs) : d.liveNames fs = [] := by
  cases fs with
  | hbfs =>
    have hnone : (List.range (hbfsRootDirSize / hbfsDirEntrySize)).filter d.hbfsLive = [] := by
      refine List.filter_eq_nil_iff.mpr fun slot hslot => ?_
      have hlt := List.mem_range.mp hslot
      rw [h slot (by simp only [readdirSlots, hbfsRootDirSize, hbfsDirEntrySize] at *; omega)]
      exact Bool.false_ne_true
    rw [VfsDirs.liveNames, hnone]
    rfl
  | tmp =>
    have hnone : (List.range tmpfsMaxFiles).filter (fun slot => (d.tmpfsTable slot).live) = [] := by
      refine List.filter_eq_nil_iff.mpr fun slot hslot => ?_
      rw [h slot (List.mem_range.mp hslot)]
      exact Bool.false_ne_true
    rw [VfsDirs.liveNames, hnone]
    rfl
  | dev => exact h.elim
  | proc => exact h.elim

/-- A directory is listed as it should be exactly when it is vacant. -/
theorem enumerates_iff (hproc : (vfsRoute path).1 ≠ .proc) (buf : Nat) (mem : Buffer) :
    Enumerates (vfsReaddir d proc path buf) mem buf (d.liveNames (vfsRoute path).1) ↔
    d.Vacant (vfsRoute path).1 := by
  constructor
  · rintro ⟨seen, -, -, hends⟩
    exact (vfsReaddir_none hproc ..).mp hends
  · intro hvacant
    rw [liveNames_vacant hvacant]
    exact ⟨[], List.Perm.refl _, nofun, (vfsReaddir_none hproc ..).mpr hvacant⟩

/-- The root directory has one file, and `/tmp` none. -/
def loneFile : VfsDirs :=
  { dirBuf := fun i => if i = deType then 1 else 0, tmpfsTable := fun _ => {} }

/-- A `/proc` that lists nothing. -/
def noProc (mem : Buffer) (_ _ : Nat) : Option Nat × Buffer := (none, mem)

/-- A listing of `/tmp` with one file. -/
theorem enumerates_iff_tmp : (vfsRoute (asciiName "/tmp")).1 ≠ .proc ∧
    Enumerates (vfsReaddir loneFile noProc (asciiName "/tmp") 0x300000) (fun _ => 0) 0x300000
    (loneFile.liveNames .tmp) :=
  ⟨by decide, Iff.mpr (enumerates_iff (by decide) _ _) fun _ _ => rfl⟩

/-- The one file is seen again and again, and so is `null` in `/dev`. -/
theorem not_enumerates :
    ¬ Enumerates (vfsReaddir loneFile noProc (asciiName "/") 0x300000) (fun _ => 0) 0x300000
    (loneFile.liveNames .hbfs) ∧
    ¬ Enumerates (vfsReaddir loneFile noProc (asciiName "/dev") 0x300000) (fun _ => 0) 0x300000
      (loneFile.liveNames .dev) := by
  constructor
  · rintro ⟨seen, -, -, hends⟩
    have hvacant := Iff.mp (vfsReaddir_none (by decide) ..) hends
    exact absurd (hvacant 0 (by decide)) (by decide)
  · rintro ⟨seen, -, -, hends⟩
    exact Iff.mp (vfsReaddir_none (by decide) ..) hends

end Mellivora
