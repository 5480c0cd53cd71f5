import Mellivora.Kernel.Paths
import Mellivora.Kernel.Proofs.PlaceProofs
import Mellivora.Kernel.Proofs.DirectoryProofs

/-!
# Proofs: creating and emptying files by path

Between `path_enter` and `path_leave` the slot holds the caller's directory, and the file operations
move neither it nor the kernel. Where `cd` goes is read off the directories on the disk.
-/

namespace Mellivora.Paths

open Outcome

variable {s : PathState} {k : Kernel} {P : Cwd → Prop}

theorem yields_onKernel {α : Type} {x : KernelM α} {Q : α → PathState → Prop} :
    Yields (onKernel x) Q s ↔ Yields x (fun a k => Q a { s with kernel := k }) s.kernel := Iff.rfl

/-! ## Where `cd` goes -/

theorem DirsInStep.setCwd (h : DirsInStep k) (c : Cwd) : DirsInStep (k.setCwd c) := { h with }

/-- What a load leaves where the directories are in step. -/
structure Looked (k : Kernel) (cf : Bool) (k' : Kernel) : Prop where
  inStep : DirsInStep k'
  cwd : k'.cwd = k.cwd
  disk : k'.disk = k.disk
  prev : k'.prevDir = k.prevDir
  shows : Fits k.cwd → k.currentDirLba ≠ dirCacheNone →
    ShowsDir k'.dirBuf k.disk k.cwd ∨ ∀ i < hbfsRootDirSize, k'.dirBuf i = 0

/-- Loading keeps the buffer in step with the directory. -/
theorem DirsInStep.load (h : DirsInStep k) :
    Yields hbfsLoadRootDir (fun cf k' => Looked k cf k') k := by
  simp only [hbfsLoadRootDir, yields_rules]
  rw [if_neg (by simp [h.mounted])]
  split
  · next hcached =>
    obtain ⟨hlba, hsects⟩ := hcached
    refine ⟨h, rfl, rfl, rfl, fun hfits hne => .inl ?_⟩
    have hcurrent := h.current (hlba ▸ hne) (hlba ▸ hfits.2)
    rwa [← hlba, ← hsects] at hcurrent
  refine yields_ataReadSectors_of_nil (k := { k with dirBuf := k.dirBuf.clear 0 hbfsRootDirSize })
    h.faults
    (fun _ => ?_) fun _ => ?_
  · simp only [if_true]
    exact ⟨⟨h.mounted, h.faults, fun _ hne => absurd rfl hne⟩, rfl, rfl, rfl,
      fun _ _ => .inr fun i hi => clear_apply k.dirBuf hi⟩
  · simp only [Bool.false_eq_true, if_false]
    split
    · exact ⟨⟨h.mounted, h.faults, fun _ hne => absurd rfl hne⟩, rfl, rfl, rfl,
        fun _ _ => .inr fun i hi => clear_apply _ hi⟩
    · exact ⟨⟨h.mounted, h.faults, fun _ _ i hi => load_sectorsAt _ _ hi⟩, rfl, rfl, rfl,
        fun _ _ => .inl fun i hi => load_sectorsAt _ _ hi⟩

end Mellivora.Paths
