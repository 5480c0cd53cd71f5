import Mellivora.Kernel.Proofs.VmAreaProofs

/-!
# Proofs: the search for room

`vm_gap` walks upward from the bump, so it finds a run only above it, and not one that ends at the
top of the zone. And it keeps the bump of group `n` in the entry `7 * n`.
-/

namespace Mellivora

open Option

variable {s : Vm} {vmNext : Nat → Nat} {tgid pages : Nat}

theorem Vm.FreeRun.vmOverlaps {run : Nat} (h : s.FreeRun run pages) :
    s.vmOverlaps run (pages * vmPage) = false := by
  have htop := h.top
  refine vmOverlaps_false.mpr fun i hi => ?_
  have hapart := h.apart i hi
  simp only [Span.Apart, VmArea.span, userDemandMax] at *
  omega

/-- What `vm_gap` comes to: the base of a run above the candidate, which moves the bump, or nothing
when there is no such run. -/
structure Vm.Searched (s : Vm) (pages start : Nat) (s' : Vm) : Prop where
  found : s.RunAbove pages → s.FreeRun start pages ∧ s'.next ≠ s.next
  lost : ¬ s.RunAbove pages → start = 0 ∧ s'.next = s.next

/-- `vm_gap` ends, and answers 0 only if there is no gap. -/
theorem Vm.Ranged.vmGap (h : s.Ranged) (hpos : 0 < pages) (hsmall : pages * vmPage < 2 ^ 31) :
    ∃ start s', s.vmGap pages = some (start, s') ∧ s.Searched pages start s' := by
  have hmod : pages * vmPage % 2 ^ 32 = pages * vmPage := Nat.mod_eq_of_lt (by omega)
  have hseed : s.vgSeed.next = s.next := by
    unfold Vm.vgSeed
    split <;> rfl
  obtain ⟨r, hr, hwalked⟩ := h.vgWalk (pages * vmPage)
  simp only [Vm.vmGap, hmod, hr]
  cases r with
  | none =>
    refine ⟨0, _, rfl, fun habove => ?_, fun _ => ⟨rfl, hseed⟩⟩
    obtain ⟨run, hfree, hle, hend⟩ := habove
    exact absurd rfl (hwalked.complete run hfree.aligned hle hend hfree.vmOverlaps)
  | some c =>
  obtain ⟨hplace, hle, hlt, hnone⟩ := hwalked.found c rfl
  have htop := hplace.top
  have hsame : (c + pages * vmPage) % 2 ^ 32 = c + pages * vmPage := Nat.mod_eq_of_lt (by
    simp only [userDemandMax] at htop
    omega)
  rw [hsame] at hlt
  have hfree : s.FreeRun c pages := ⟨hplace.aligned, hplace.base, Nat.le_of_lt hlt, fun i hi =>
    apart_of_vmOverlaps hnone (by rw [← hsame]; exact Nat.mod_lt _ (by decide)) hi⟩
  refine ⟨c, _, rfl, fun _ => ⟨hfree, ?_⟩, fun hno => absurd ⟨c, hfree, hle, hlt⟩ hno⟩
  -- The walk starts at the bump, if there is one, so the end of what is found lies behind it.
  show (c + pages * vmPage) % 2 ^ 32 ≠ s.next
  rw [hsame]
  unfold Vm.vgCand at hle
  simp only [vmPage] at *
  split at hle <;> omega

theorem Vm.FreeRun.ne_zero {run : Nat} (h : s.FreeRun run pages) (hs : s.Ranged) : run ≠ 0 := by
  have hbase := h.base
  have hmin := hs.base.2.1
  simp only [userDemandMin] at hmin
  omega

/-- For group 0 the search is complete and private exactly when a run, if there is one, lies above
the bump and ends before the top of the zone. Any other group moves the bump of a third, so there
must be no run to find. -/
theorem gapExact_iff (h : Vm.Ranged { s with next := vmNext (vmAreaSize * tgid / 4) })
    (hpos : 0 < pages) (hsmall : pages * vmPage < 2 ^ 31) :
    s.GapExact vmNext tgid pages ↔
      if tgid = 0 then (∃ run, s.FreeRun run pages) → Vm.RunAbove { s with next := vmNext 0 } pages
      else ¬ ∃ run, s.FreeRun run pages := by
  have hentry : vmAreaSize * tgid / 4 = 7 * tgid := by
    simp only [vmAreaSize]
    omega
  rw [hentry] at h
  unfold Vm.GapExact Vm.vmGapOf
  rw [hentry]
  dsimp only
  generalize hs0 : ({ s with next := vmNext (7 * tgid) } : Vm) = s0 at h
  have hruns : ∀ run, s0.FreeRun run pages ↔ s.FreeRun run pages := fun run => by
    subst hs0
    exact ⟨fun h => { h with }, fun h => { h with }⟩
  have hnext : s0.next = vmNext (7 * tgid) := by rw [← hs0]
  obtain ⟨c, s', hgap, hsearched⟩ := h.vmGap hpos hsmall
  have hfound : s.FreeRun c pages ↔ s0.RunAbove pages := by
    rw [← hruns]
    refine ⟨fun hfree => ?_, fun habove => (hsearched.found habove).1⟩
    by_contra hno
    exact hfree.ne_zero h (hsearched.lost hno).1
  have hexists : s0.RunAbove pages → ∃ run, s.FreeRun run pages := by
    rintro ⟨run, hfree, -⟩
    exact ⟨run, (hruns run).mp hfree⟩
  rw [hgap]
  simp only [map_some, some.injEq, Prod.mk.injEq, existsAndEq, true_and, and_true, hfound]
  by_cases hzero : tgid = 0
  · subst hzero
    rw [if_pos rfl, hs0]
    refine ⟨fun hboth => hboth.1, fun habove => ⟨habove, fun i hi => ?_⟩⟩
    rw [Function.update_of_ne (by omega)]
  rw [if_neg hzero]
  constructor
  · rintro ⟨habove, hprivate⟩ hex
    have hmoved := hprivate (7 * tgid) (by omega)
    rw [Function.update_self, ← hnext] at hmoved
    exact (hsearched.found (habove hex)).2 hmoved
  · intro hno
    have hlost := hsearched.lost fun habove => hno (hexists habove)
    refine ⟨fun hex => absurd hex hno, fun i _ => ?_⟩
    rw [hlost.2, hnext, Function.update_eq_self]

/-- The witnesses start with no areas. -/
def noAreas : Vm := { demandBase := 0x08000000 }

theorem noAreas_freeRun {run : Nat} (haligned : run % vmPage = 0) (hbase : 0x08000000 ≤ run)
    (htop : run + vmPage ≤ userDemandMax) : noAreas.FreeRun run 1 :=
  ⟨haligned, hbase, by rwa [Nat.one_mul], fun i hi => absurd rfl hi.2⟩

/-- A page that a hint has put at the end of the address space. -/
def topArea : Vm := noAreas.setArea 0 { start := 0xFFFFF000, pages := 1, prot := 1, vend := 0 }

/-- It does not keep group 0 from finding its first page. -/
theorem gapExact_iff_first :
    Vm.Ranged { topArea with next := 0 } ∧ topArea.GapExact (fun _ => 0) 0 1 := by
  have hlive : ∀ i, topArea.Live i → i = 0 := by
    intro i hi
    by_contra hne
    have harea : topArea.areas i = {} := area_setArea_of_ne hne
    exact hi.2 (by rw [harea])
  have hranged : Vm.Ranged { topArea with next := 0 } := by
    refine ⟨by decide, .inl rfl, fun i hi => ?_⟩
    obtain rfl := hlive i hi
    exact ⟨by decide, by decide⟩
  have hiff : topArea.GapExact (fun _ => 0) 0 1 ↔ _ := gapExact_iff hranged Nat.one_pos (by decide)
  refine ⟨hranged, hiff.mpr ?_⟩
  rw [if_pos rfl]
  refine fun _ =>
    ⟨topArea.vgCand, ⟨by decide, by decide, by decide, fun i hi => ?_⟩, Nat.le_refl _, by decide⟩
  obtain rfl := hlive i hi
  exact .inl (by decide)

/-- With the bump at the last page, the free pages below it are not found. And group 1 moves the
bump of group 7. -/
theorem gap_not_exact :
    ¬ noAreas.GapExact (fun _ => 0x3FFFF000) 0 1 ∧ ¬ noAreas.GapExact (fun _ => 0) 1 1 := by
  constructor
  · rintro ⟨start, vmNext', hgap, hfound, -⟩
    have hfails : (noAreas.vmGapOf (fun _ => 0x3FFFF000) 0 1).map Prod.fst = some 0 := by decide
    rw [hgap] at hfails
    obtain rfl : start = 0 := some.inj hfails
    exact absurd (hfound ⟨0x08000000, noAreas_freeRun rfl (by decide) (by decide)⟩).base (by decide)
  · rintro ⟨start, vmNext', hgap, -, hprivate⟩
    have hmoves : (noAreas.vmGapOf (fun _ => 0) 1 1).map (fun r => r.2 7) =
      some 0x08001000 := by decide
    rw [hgap] at hmoves
    have hkept := (hprivate 7 (by decide)).symm.trans (some.inj hmoves)
    exact absurd hkept (by decide)

end Mellivora
