import Mellivora.Kernel.VmAreas

/-!
# Proofs: memory areas

An area enters the table where nothing overlaps it, and is cut, changed or taken out in place.
-/

namespace Mellivora

open Runs List Function Nat

variable {pages : Nat} {prot : UInt32} {s s' : Vm} {i j start len addr : Nat}

/-- The zone begins at a page and ends before the address space does. -/
structure Vm.Inv (s : Vm) : Prop where
  base : s.demandBase % vmPage = 0 ∧ userDemandMin ≤ s.demandBase ∧ s.demandBase ≤ userDemandBaseMax
  next : NextOk s.demandBase s.next
  sound : s.Sound

theorem Vm.Inv.wf (h : s.Inv) : s.WellFormed := h.sound.toWellFormed

theorem Vm.Inv.ranged (h : s.Inv) : s.Ranged := by
  refine ⟨h.base, h.next, fun i hi => ?_⟩
  have hok := h.wf.areas i hi
  refine ⟨?_, hok.top⟩
  have haligned := hok.aligned
  have hsize := hok.size
  simp only [vmPage] at *
  omega

/-! ## Changes of one area -/

section Changes

variable {a : VmArea}

theorem area_setArea_self (s : Vm) (i : Nat) (a : VmArea) :
    (s.setArea i a).areas i = a := update_self ..

theorem area_setArea_of_ne (h : j ≠ i) : (s.setArea i a).areas j = s.areas j := update_of_ne h ..

theorem live_setArea_of_ne (h : j ≠ i) : (s.setArea i a).Live j ↔ s.Live j := by
  unfold Vm.Live
  rw [area_setArea_of_ne h]

/-- An area that is right and apart from the others takes the place of another, or a free one. -/
theorem Vm.WellFormed.setArea (h : s.WellFormed) (hok : a.start ≠ 0 → a.Ok s.demandBase)
    (hapart : a.start ≠ 0 → ∀ j, s.Live j → j ≠ i → a.span.Apart (s.areas j).span) :
    (s.setArea i a).WellFormed := by
  have hself : (s.setArea i a).Live i → a.start ≠ 0 := by
    rintro ⟨-, hstart⟩
    rwa [area_setArea_self] at hstart
  refine ⟨fun k hk => ?_, fun k l hk hl hkl => ?_⟩
  · by_cases hki : k = i
    · subst hki
      rw [area_setArea_self]
      exact hok (hself hk)
    · rw [area_setArea_of_ne hki]
      exact h.areas k ((live_setArea_of_ne hki).mp hk)
  by_cases hki : k = i
  · subst hki
    have hlk : l ≠ k := hkl.symm
    rw [area_setArea_self, area_setArea_of_ne hlk]
    exact hapart (hself hk) l ((live_setArea_of_ne hlk).mp hl) hlk
  rw [area_setArea_of_ne hki]
  have hk' := (live_setArea_of_ne hki).mp hk
  by_cases hli : l = i
  · subst hli
    rw [area_setArea_self]
    exact (hapart (hself hl) k hk' hki).symm
  · rw [area_setArea_of_ne hli]
    exact h.apart k l hk' ((live_setArea_of_ne hli).mp hl) hkl

theorem Vm.Sound.setArea (h : s.Sound) (hat : a.AtBlock) (hok : a.start ≠ 0 → a.Ok s.demandBase)
    (hapart : a.start ≠ 0 → ∀ j, s.Live j → j ≠ i → a.span.Apart (s.areas j).span) :
    (s.setArea i a).Sound := by
  refine ⟨h.toWellFormed.setArea hok hapart, fun k => ?_⟩
  simp only [Vm.setArea, update_apply]
  split
  · exact hat
  · exact h.sectors k

end Changes

/-! ## Looking for areas -/

theorem vmFindArea_some (h : s.vmFindArea addr = some i) :
    s.Live i ∧ (s.areas i).start ≤ addr ∧ addr < (s.areas i).vend := by
  have hfound := find?_some h
  simp only [ne_eq, decide_eq_true_eq] at hfound
  exact ⟨⟨mem_range.mp (mem_of_find?_eq_some h), hfound.1⟩, hfound.2⟩

theorem vmFreeSlot_some (h : s.vmFreeSlot = some i) : i < vmAreasPerTask ∧ (s.areas i).start = 0 :=
  ⟨mem_range.mp (mem_of_find?_eq_some h), of_decide_eq_true (find?_some h :)⟩

/-- What `vm_overlaps` lets pass meets no mapping. -/
theorem apart_of_vmOverlaps (h : s.vmOverlaps start len = false) (hend : start + len < 2 ^ 32)
    (hi : s.Live i) :
    Span.Apart ⟨start, start + len⟩ (s.areas i).span := by
  unfold Vm.vmOverlaps at h
  rw [any_eq_false] at h
  have hno := h i (mem_range.mpr hi.1)
  simp only [ne_eq, decide_eq_true_eq, mod_eq_of_lt hend] at hno
  show start + len ≤ (s.areas i).start ∨ (s.areas i).vend ≤ start
  by_contra hboth
  rw [not_or] at hboth
  exact hno ⟨hi.2, by omega, by omega⟩

/-! ## Finding room -/

/-- A place in the zone from which `.vg_try` may go on. -/
structure Vm.Place (s : Vm) (cand : Nat) : Prop where
  aligned : cand % vmPage = 0
  base : s.demandBase ≤ cand
  top : cand ≤ userDemandMax

theorem Vm.Ranged.place_vend (h : s.Ranged) (hi : s.Live i) {cand : Nat} (hplace : s.Place cand)
    (hlt : cand < (s.areas i).vend) : s.Place (pageDown (((s.areas i).vend + 0xFFF) % 2 ^ 32)) ∧
      pageDown (((s.areas i).vend + 0xFFF) % 2 ^ 32) = (s.areas i).vend := by
  obtain ⟨haligned, htop⟩ := h.ends i hi
  have hbase := hplace.base
  have hsame : pageDown (((s.areas i).vend + 0xFFF) % 2 ^ 32) = (s.areas i).vend := by
    simp only [pageDown, vmPage, userDemandMax] at *
    omega
  rw [hsame]
  exact ⟨⟨haligned, by omega, htop⟩, rfl⟩

/-- How the walk upward from a place ends: at a free range, or at the top of the zone when there is
none. -/
structure Vm.Walked (s : Vm) (bytes cand : Nat) (r : Option Nat) : Prop where
  found : ∀ c, r = some c → s.Place c ∧ cand ≤ c ∧ (c + bytes) % 2 ^ 32 < userDemandMax ∧
    s.vmOverlaps c bytes = false
  complete : ∀ run, run % vmPage = 0 → cand ≤ run → run + bytes < userDemandMax →
    s.vmOverlaps run bytes = false →
    r ≠ none

theorem vmOverlaps_false {bytes : Nat} : s.vmOverlaps start bytes = false ↔
    ∀ i, s.Live i → (start + bytes) % 2 ^ 32 ≤ (s.areas i).start ∨ (s.areas i).vend ≤ start := by
  simp only [Vm.vmOverlaps, any_eq_false, mem_range, decide_eq_true_eq, Vm.Live]
  grind

/-- The search from a candidate ends. -/
theorem Vm.Ranged.vgTry (h : s.Ranged) (bytes : Nat) {cand fuel : Nat} (hplace : s.Place cand)
    (hfuel : (userDemandMax - cand) / vmPage < fuel) :
    ∃ r, s.vgTry bytes fuel cand = some r ∧ s.Walked bytes cand r := by
  induction fuel generalizing cand with
  | zero => exact absurd hfuel (not_lt_zero _)
  | succ fuel ih =>
  have haligned := hplace.aligned
  have hbase := hplace.base
  rw [Vm.vgTry]
  by_cases hfull : userDemandMax ≤ (cand + bytes) % 2 ^ 32
  · refine ⟨none, if_pos hfull, nofun, fun run _ hle hend _ => ?_⟩
    simp only [userDemandMax] at *
    omega
  rw [if_neg hfull]
  cases hoverlaps : s.vmOverlaps cand bytes with
  | false => exact ⟨some cand, if_pos rfl, by grind, nofun⟩
  | true =>
  rw [if_neg (by decide)]
  -- Some area ends behind the candidate, so the next one is still in the zone.
  obtain ⟨i, hlive, hlt⟩ : ∃ i, s.Live i ∧ cand < (s.areas i).vend := by
    by_contra hno
    rw [vmOverlaps_false.mpr fun i hi => ?_] at hoverlaps
    · cases hoverlaps
    · grind
  have htop := (h.ends i hlive).2
  have hnext : ∀ next, s.Place next → cand < next → (∀ run, run % vmPage = 0 → cand < run →
      run + bytes < userDemandMax → s.vmOverlaps run bytes = false → next ≤ run) →
      ∃ r, s.vgTry bytes fuel next = some r ∧ s.Walked bytes cand r := by
    intro next hplace' hgt hskips
    have haligned' := hplace'.aligned
    have htop' := hplace'.top
    obtain ⟨r, hr, hwalked⟩ := ih hplace' (by simp only [vmPage, userDemandMax] at *; omega)
    refine ⟨r, hr, fun c hc => ?_, fun run hrun hle hend hfree => ?_⟩
    · obtain ⟨hc, hle, hrest⟩ := hwalked.found c hc
      exact ⟨hc, le_trans (le_of_lt hgt) hle, hrest⟩
    · have hne : cand ≠ run := by
        rintro rfl
        cases hoverlaps.symm.trans hfree
      exact hwalked.complete run hrun (hskips run hrun (by omega) hend hfree) hend hfree
  cases hfind : s.vmFindArea cand with
  | some i =>
    obtain ⟨hlive, hlo, hlt⟩ := vmFindArea_some hfind
    obtain ⟨hplace', hvend⟩ := h.place_vend hlive hplace hlt
    refine hnext _ hplace' (by rwa [hvend]) fun run _ hgt hend hfree => ?_
    rw [hvend]
    have hapart := vmOverlaps_false.mp hfree i hlive
    simp only [userDemandMax] at hend
    omega
  | none =>
  have hsame : (cand + 0x1000) % 2 ^ 32 = cand + 0x1000 := by
    simp only [userDemandMax] at htop
    omega
  dsimp only
  rw [hsame]
  refine hnext _ ⟨?_, by omega, ?_⟩ (by omega) fun run hrun hgt _ _ => ?_
  all_goals
    simp only [vmPage, userDemandMax] at *
    omega

/-- The areas are as they were, and the bump is one that `vm_gap` may leave. -/
structure Vm.Moved (s s' : Vm) : Prop where
  areas : s'.areas = s.areas
  demandBase : s'.demandBase = s.demandBase
  next : NextOk s'.demandBase s'.next

theorem Vm.Moved.inv (h : s.Moved s') (hinv : s.Inv) : s'.Inv := by
  refine ⟨h.demandBase ▸ hinv.base, h.next, ⟨?_, ?_⟩, h.areas ▸ hinv.sound.sectors⟩
  · unfold Vm.Live
    rw [h.areas, h.demandBase]
    exact hinv.wf.areas
  · unfold Vm.Live
    rw [h.areas]
    exact hinv.wf.apart

theorem Vm.Moved.ranged (h : s.Moved s') (hranged : s.Ranged) : s'.Ranged := by
  refine ⟨h.demandBase ▸ hranged.base, h.next, ?_⟩
  unfold Vm.Live
  rw [h.areas]
  exact hranged.ends

theorem Vm.Ranged.place_random (h : s.Ranged) (r : Nat) :
    s.Place ((r / 2 ^ 13 % 2 ^ 11 * 2 ^ 13 + s.demandBase) % 2 ^ 32) := by
  obtain ⟨haligned, hmin, hmax⟩ := h.base
  refine ⟨?_, ?_, ?_⟩
  all_goals
    simp only [vmPage, userDemandMax, userDemandMin, userDemandBaseMax] at *
    omega

theorem Vm.Ranged.vgCand (h : s.Ranged) : s.Place s.vgCand := by
  unfold Vm.vgCand
  split
  case isTrue hnext =>
    obtain ⟨hpage, hbase, htop⟩ := h.next.resolve_left hnext
    exact ⟨hpage, hbase, htop⟩
  case isFalse => exact h.place_random _

theorem Vm.Ranged.vgSeed (h : s.Ranged) : s.Moved s.vgSeed := by
  unfold Vm.vgSeed
  split
  · exact ⟨rfl, rfl, h.next⟩
  · exact ⟨rfl, rfl, h.next⟩

theorem Vm.Moved.vmOverlaps (h : s.Moved s') : s'.vmOverlaps = s.vmOverlaps := by
  unfold Vm.vmOverlaps
  rw [h.areas]

/-- The walk of `vm_gap`. -/
theorem Vm.Ranged.vgWalk (h : s.Ranged) (bytes : Nat) :
    ∃ r, s.vgSeed.vgTry bytes Vm.vgFuel s.vgCand = some r ∧ s.Walked bytes s.vgCand r := by
  have hmoved := h.vgSeed
  have hplace := h.vgCand
  obtain ⟨r, hr, hwalked⟩ := (hmoved.ranged h).vgTry bytes
    ⟨hplace.aligned, hmoved.demandBase ▸ hplace.base, hplace.top⟩
    (Nat.lt_succ_of_le (Nat.div_le_div_right (Nat.sub_le _ _)))
  refine ⟨r, hr, fun c hc => ?_, hmoved.vmOverlaps ▸ hwalked.complete⟩
  obtain ⟨hc, hrest⟩ := hwalked.found c hc
  exact ⟨⟨hc.aligned, hmoved.demandBase ▸ hc.base, hc.top⟩, hmoved.vmOverlaps ▸ hrest⟩

/-- `vm_gap` comes back, with a free range inside the zone or without one. -/
theorem Vm.Inv.vmGap (h : s.Inv) (hpages : 0 < pages ∧ pages ≤ vmMaxPages) :
    ∃ v s', s.vmGap pages = some (v, s') ∧ s.Moved s' ∧
      (v ≠ 0 → v % vmPage = 0 ∧ s.demandBase ≤ v ∧ v + pages * vmPage < userDemandMax ∧
        s.vmOverlaps v (pages * vmPage) = false) := by
  have hmoved := h.ranged.vgSeed
  have hmod : pages * vmPage % 2 ^ 32 = pages * vmPage := by
    simp only [vmMaxPages, vmPage] at *
    omega
  obtain ⟨r, hr, hwalked⟩ := h.ranged.vgWalk (pages * vmPage)
  unfold Vm.vmGap
  rw [hmod]
  dsimp only
  rw [hr]
  cases r with
  | none => exact ⟨0, _, rfl, hmoved, fun hne => absurd rfl hne⟩
  | some c =>
  obtain ⟨hplace, -, hend, hfree⟩ := hwalked.found c rfl
  have haligned := hplace.aligned
  have hbase := hplace.base
  have htop := hplace.top
  have hend : c + pages * vmPage < userDemandMax := by
    simp only [vmMaxPages, vmPage, userDemandMax] at *
    omega
  refine ⟨c, _, rfl, ⟨hmoved.areas, hmoved.demandBase, .inr ?_⟩,
    fun _ => ⟨haligned, hbase, hend, hfree⟩⟩
  have hseed := hmoved.demandBase
  simp only [vmPage, userDemandMax] at *
  refine ⟨?_, ?_, ?_⟩
  all_goals omega

/-! ## Mapping -/

theorem pagesOf_some (h : pagesOf len = some pages) : 0 < pages ∧ pages ≤ vmMaxPages := by
  unfold pagesOf at h
  split at h
  · cases h
  · grind

theorem and_protMask (prot : UInt32) :
    prot &&& protMask &&& (protWrite ||| protExec) = prot &&& (protWrite ||| protExec) := by
  rw [UInt32.and_assoc]
  rfl

theorem Vm.Inv.record (h : s.Inv) {a : VmArea} (hat : a.AtBlock) (hok : a.Ok s.demandBase)
    (hapart : ∀ j, s.Live j → a.span.Apart (s.areas j).span) : (s.record a).2.Inv := by
  unfold Vm.record
  cases s.vmFreeSlot with
  | none => exact h
  | some i => exact ⟨h.base, h.next, h.sound.setArea hat (fun _ => hok) fun _ j hj _ => hapart j hj⟩

/-- A mapping in a gap keeps the others apart. -/
theorem Vm.Inv.record_range (h : s.Inv) {a : VmArea} {extra : UInt32} (hprot : protOk extra prot)
    (haligned : a.start % vmPage = 0) (hbase : s.demandBase ≤ a.start)
    (htop : a.start + a.pages * vmPage ≤ userDemandMax) (hpages : 0 < a.pages)
    (hfree : s.vmOverlaps a.start (a.pages * vmPage) = false) (haprot : a.prot = prot &&& protMask)
    (hvend : a.vend = (a.start + a.pages * vmPage) % 2 ^ 32)
    (hjit : a.jit = decide (prot &&& vmMapJit ≠ 0)) (hat : a.AtBlock) : (s.record a).2.Inv := by
  have hnowrap : a.start + a.pages * vmPage < 2 ^ 32 := by
    simp only [userDemandMax] at htop
    omega
  rw [mod_eq_of_lt hnowrap] at hvend
  refine h.record hat ⟨haligned, hbase, by rwa [hvend], by rw [hvend, mul_comm], hpages,
    fun hwx => ?_⟩ fun j hj => ?_
  · rw [haprot, and_protMask] at hwx
    rw [hjit]
    exact decide_eq_true (hprot.2 hwx)
  · rw [VmArea.span, hvend]
    exact apart_of_vmOverlaps hfree hnowrap hj

theorem Vm.Inv.record_gap (h : s.Inv) {extra : UInt32} (hprot : protOk extra prot)
    (area : Nat → VmArea)
    (hpages : 0 < pages ∧ pages ≤ vmMaxPages) (harea : ∀ v, (area v).start = v ∧
      (area v).pages = pages ∧
      (area v).prot = prot &&& protMask ∧ (area v).vend = (v + pages * vmPage) % 2 ^ 32 ∧
      (area v).jit = decide (prot &&& vmMapJit ≠ 0) ∧ (area v).AtBlock) :
    ∃ s', (((s.vmGap pages).map fun (v, s) => if v = 0 then (none, s) else s.record (area v)).map
      Prod.snd) =
      some s' ∧ s'.Inv := by
  obtain ⟨v, s1, hgap, hmoved, hrange⟩ := h.vmGap hpages
  have hinv := hmoved.inv h
  rw [hgap]
  refine ⟨_, rfl, ?_⟩
  dsimp only
  by_cases hzero : v = 0
  · rw [if_pos hzero]
    exact hinv
  rw [if_neg hzero]
  obtain ⟨haligned, hbase, htop, hfree⟩ := hrange hzero
  obtain ⟨hstart, hsize, haprot, hvend, hjit, hat⟩ := harea v
  refine hinv.record_range hprot ?_ ?_ ?_ ?_ ?_ haprot ?_ hjit hat
  · rwa [hstart]
  · rwa [hstart, hmoved.demandBase]
  · rw [hstart, hsize]
    exact le_of_lt htop
  · rw [hsize]
    exact hpages.1
  · rw [hstart, hsize]
    unfold Vm.vmOverlaps at hfree ⊢
    rwa [hmoved.areas]
  · rw [hstart, hsize, hvend]

/-- `sys_mmap` keeps the invariant. -/
theorem Vm.Inv.sysMmap (h : s.Inv) {hint len : UInt32}
    (horderly : (VmCall.mmap hint len prot).Orderly s) :
    ∃ s', (s.sysMmap hint len prot).map Prod.snd = some s' ∧ s'.Inv := by
  unfold Vm.sysMmap
  by_cases hprot : protOk 0 prot
  swap
  · rw [if_pos hprot]
    exact ⟨s, rfl, h⟩
  rw [if_neg (not_not_intro hprot)]
  cases hpages : pagesOf len.toNat with
  | none => exact ⟨s, rfl, h⟩
  | some pages =>
  have hcount := pagesOf_some hpages
  dsimp only
  by_cases hhint : s.HintOk hint.toNat pages
  · rw [if_pos hhint]
    obtain ⟨-, haligned, hbase, htop, hfree⟩ := hhint
    rw [mod_eq_of_lt (horderly haligned pages hpages)] at htop
    exact ⟨_, rfl, h.record_range hprot haligned hbase htop hcount.1 hfree rfl rfl rfl (.inl rfl)⟩
  · rw [if_neg hhint]
    exact h.record_gap hprot (anonArea pages prot) hcount fun v =>
      ⟨rfl, rfl, rfl, rfl, rfl, .inl rfl⟩

theorem atBlock_fileArea (pages : Nat) (prot : UInt32) (block blocks start : Nat) :
    (Vm.fileArea pages prot ((block * hbfsSectorsPerBlk + hbfsDataStart + 1) % 2 ^ 32) blocks
      start).AtBlock := by
  refine .inr ?_
  show (block * hbfsSectorsPerBlk + hbfsDataStart + 1) % 2 ^ 32 % hbfsSectorsPerBlk = _
  simp only [hbfsSectorsPerBlk, hbfsDataStart]
  omega

/-- `sys_mmap_file` keeps the invariant. -/
theorem Vm.Inv.sysMmapFile (h : s.Inv) (len prot off : UInt32) (file : Option (UInt32 × UInt32)) :
    ∃ s', (s.sysMmapFile len prot off file).map Prod.snd = some s' ∧ s'.Inv := by
  unfold Vm.sysMmapFile
  by_cases hbad : ¬ protOk vmMapShared prot ∨ off.toNat % vmPage ≠ 0
  · rw [if_pos hbad]
    exact ⟨s, rfl, h⟩
  rw [if_neg hbad]
  rw [not_or, not_not] at hbad
  cases file with
  | none => exact ⟨s, rfl, h⟩
  | some geometry =>
  obtain ⟨blocks, first⟩ := geometry
  cases hpages : pagesOf len.toNat with
  | none => exact ⟨s, rfl, h⟩
  | some pages =>
  dsimp only
  by_cases hend : blocks.toNat ≤ off.toNat / vmPage
  · rw [if_pos hend]
    exact ⟨s, rfl, h⟩
  · rw [if_neg hend]
    exact h.record_gap hbad.1 (fileArea pages prot _ _) (pagesOf_some hpages) fun v =>
      ⟨rfl, rfl, rfl, rfl, rfl, atBlock_fileArea _ prot _ _ v⟩

/-! ## Splitting -/

section Pieces

variable {a : VmArea} {base : Nat}

/-- The lower part of a cut. -/
theorem VmArea.Ok.left (h : a.Ok base) (haddr : addr % vmPage = 0) (hlo : a.start < addr)
    (hhi : addr < a.vend) :
    (a.left addr).Ok base := by
  have haligned := h.aligned
  have htop := h.top
  refine ⟨h.aligned, h.base, ?_, ?_, ?_, h.wx⟩
  · exact le_trans (le_of_lt hhi) htop
  · show addr = a.start + vmPage * ((addr - a.start) / vmPage)
    simp only [vmPage] at *
    omega
  · show 0 < (addr - a.start) / vmPage
    simp only [vmPage] at *
    omega

/-- The upper part of a cut. -/
theorem VmArea.Ok.right (h : a.Ok base) (haddr : addr % vmPage = 0) (hlo : a.start < addr)
    (hhi : addr < a.vend) :
    (a.right addr).Ok base := by
  have haligned := h.aligned
  have hsize := h.size
  refine ⟨haddr, le_trans h.base (le_of_lt hlo), h.top, ?_, ?_, h.wx⟩
  · show a.vend = addr + vmPage * ((a.vend - addr) / vmPage)
    simp only [vmPage] at *
    omega
  · show 0 < (a.vend - addr) / vmPage
    simp only [vmPage] at *
    omega

theorem VmArea.AtBlock.right (h : a.AtBlock) (addr : Nat) : (a.right addr).AtBlock := by
  unfold VmArea.AtBlock VmArea.right at *
  simp only [hbfsSectorsPerBlk, hbfsDataStart] at *
  split
  · exact .inl rfl
  · omega

end Pieces

/-- An area is cut in two at an address inside it. -/
structure Vm.Cut (s : Vm) (addr i j : Nat) : Prop where
  find : s.vmFindArea addr = some i
  inside : (s.areas i).start ≠ addr
  slot : s.vmFreeSlot = some j

/-- The table with the area `i` cut, and its right piece in the record `j`. -/
def Vm.cut (s : Vm) (addr i j : Nat) : Vm :=
  (s.setArea j ((s.areas i).right addr)).setArea i ((s.areas i).left addr)

/-- `vm_split_at` finds no area or no record for the piece, or nothing has to be cut, or it cuts. -/
theorem vmSplitAt_cases (s : Vm) (addr : Nat) :
    s.vmSplitAt addr = (none, s) ∨
      (∃ i, s.vmSplitAt addr = (some i, s) ∧ s.vmFindArea addr = some i ∧
        (s.areas i).start = addr) ∨
      ∃ i j, s.vmSplitAt addr = (some j, s.cut addr i j) ∧ s.Cut addr i j := by
  unfold Vm.vmSplitAt
  cases hfind : s.vmFindArea addr with
  | none => exact .inl rfl
  | some i =>
  dsimp only
  by_cases hsame : addr = (s.areas i).start
  · rw [if_pos hsame]
    exact .inr (.inl ⟨i, rfl, rfl, hsame.symm⟩)
  rw [if_neg hsame]
  cases hslot : s.vmFreeSlot with
  | none => exact .inl rfl
  | some j => exact .inr (.inr ⟨i, j, rfl, hfind, Ne.symm hsame, hslot⟩)

theorem Vm.Cut.spec {i j : Nat} (h : s.Cut addr i j) :
    s.Live i ∧ (s.areas i).start < addr ∧ addr < (s.areas i).vend ∧ j < vmAreasPerTask ∧
    ¬ s.Live j ∧ i ≠ j := by
  obtain ⟨hlive, hlo, hhi⟩ := vmFindArea_some h.find
  obtain ⟨hlt, hfree⟩ := vmFreeSlot_some h.slot
  have hinside := h.inside
  refine ⟨hlive, by omega, hhi, hlt, fun hj => hj.2 hfree, ?_⟩
  rintro rfl
  exact hlive.2 hfree

/-- A mapping cut in two covers what it did. -/
theorem Vm.Sound.cut (h : s.Sound) (haddr : addr % vmPage = 0) (hcut : s.Cut addr i j) :
    (s.cut addr i j).Sound := by
  obtain ⟨hlive, hlt, hhi, -, -, hne⟩ := hcut.spec
  have hok := h.areas i hlive
  have hcomm : s.cut addr i j = (s.setArea i ((s.areas i).left addr)).setArea j
    ((s.areas i).right addr) := by
    unfold Vm.cut Vm.setArea
    rw [update_comm hne]
  rw [hcomm]
  have hleft : ((s.areas i).left addr).span.Within (s.areas i).span := ⟨le_refl _, le_of_lt hhi⟩
  have hright : ((s.areas i).right addr).span.Within (s.areas i).span := ⟨le_of_lt hlt, le_refl _⟩
  have hat := h.sectors i
  have hsound : (s.setArea i ((s.areas i).left addr)).Sound :=
    h.setArea hat (fun _ => hok.left haddr hlt hhi) fun _ k hk hki =>
      (h.apart i k hlive hk hki.symm).within hleft
  refine hsound.setArea (hat.right addr) (fun _ => hok.right haddr hlt hhi) fun _ k hk hkj => ?_
  by_cases hki : k = i
  · subst hki
    rw [area_setArea_self]
    exact .inr (le_refl _)
  · rw [area_setArea_of_ne hki]
    exact (h.apart i k hlive ((live_setArea_of_ne hki).mp hk) (Ne.symm hki)).within hright

/-- A split keeps the invariant. -/
theorem Vm.Inv.vmSplitAt (h : s.Inv) (haddr : addr % vmPage = 0) : (s.vmSplitAt addr).2.Inv := by
  rcases vmSplitAt_cases s addr with heq | ⟨i, heq, -⟩ | ⟨i, j, heq, hcut⟩
  · rw [heq]
    exact h
  · rw [heq]
    exact h
  · rw [heq]
    exact ⟨h.base, h.next, h.sound.cut haddr hcut⟩

theorem vmSplitAt_lt (h : (s.vmSplitAt addr).1 = some j) : j < vmAreasPerTask := by
  rcases vmSplitAt_cases s addr with heq | ⟨i, heq, hfind, -⟩ | ⟨i, k, heq, hcut⟩
  · rw [heq] at h
    cases h
  · rw [heq] at h
    cases h
    exact (vmFindArea_some hfind).1.1
  · rw [heq] at h
    cases h
    exact hcut.spec.2.2.2.1

theorem vmIsolate_lt (h : (s.vmIsolate start len).1 = some j) : j < vmAreasPerTask := by
  unfold Vm.vmIsolate at h
  split at h
  · cases h
  split at h
  · cases h
  split at h
  · cases h
  case h_2 k s1 heq =>
    have hk : k < vmAreasPerTask := vmSplitAt_lt (by rw [heq])
    split at h
    · cases h
      exact hk
    split at h
    · cases h
    · cases h
      exact hk

/-- What a split keeps, `vm_isolate` keeps. -/
theorem vmIsolate_keeps {P : Vm → Prop} (hstart : start % vmPage = 0) (hlen : len % vmPage = 0)
    (hsplit : ∀ s addr, addr % vmPage = 0 → P s → P (s.vmSplitAt addr).2) (h : P s) :
    P (s.vmIsolate start len).2 := by
  have hend : (start + len) % vmPage = 0 := by
    simp only [vmPage] at *
    omega
  unfold Vm.vmIsolate
  split
  · exact h
  split
  · exact h
  have hfirst := hsplit s start hstart h
  split
  case h_1 s1 heq =>
    rw [heq] at hfirst
    exact hfirst
  case h_2 j s1 heq =>
    rw [heq] at hfirst
    split
    · exact hfirst
    have hsecond := hsplit s1 _ hend hfirst
    split
    case h_1 s2 heq' =>
      rw [heq'] at hsecond
      exact hsecond
    case h_2 k s2 heq' =>
      rw [heq'] at hsecond
      exact hsecond

theorem Vm.Inv.vmIsolate (h : s.Inv) (hstart : start % vmPage = 0) (hlen : len % vmPage = 0) :
    (s.vmIsolate start len).2.Inv :=
  vmIsolate_keeps hstart hlen (fun _ _ haddr hinv => hinv.vmSplitAt haddr) h

theorem rangeOf_some {range : Nat × Nat} (h : Vm.rangeOf addr len = some range) :
    range.1 % vmPage = 0 ∧ range.2 % vmPage = 0 := by
  unfold Vm.rangeOf at h
  split at h
  · cases h
  · cases h
    simp only [pageDown, vmPage]
    omega

/-- `sys_munmap` keeps the invariant. -/
theorem Vm.Inv.sysMunmap (h : s.Inv) (addr len : UInt32) : (s.sysMunmap addr len).2.Inv := by
  unfold Vm.sysMunmap
  split
  · exact h
  case h_2 start length hrange =>
    obtain ⟨hstart, hlength⟩ := rangeOf_some hrange
    have hisolated := h.vmIsolate hstart hlength
    split
    case h_1 s1 heq =>
      rw [heq] at hisolated
      exact hisolated
    case h_2 i s1 heq =>
      rw [heq] at hisolated
      exact ⟨hisolated.base, hisolated.next,
        hisolated.sound.setArea (.inl rfl) (fun hne => absurd rfl hne)
        fun hne => absurd rfl hne⟩

/-- `sys_mprotect` keeps the invariant. -/
theorem Vm.Inv.sysMprotect (h : s.Inv) (addr len prot : UInt32) (copied : Bool) :
    (s.sysMprotect addr len prot copied).2.Inv := by
  unfold Vm.sysMprotect
  split
  · exact h
  case isFalse hprot =>
    rw [not_or] at hprot
    split
    · exact h
    case h_2 start length hrange =>
      obtain ⟨hstart, hlength⟩ := rangeOf_some hrange
      have hisolated := h.vmIsolate hstart hlength
      split
      case h_1 s1 heq =>
        rw [heq] at hisolated
        exact hisolated
      case h_2 i s1 heq =>
        have hi : i < vmAreasPerTask := vmIsolate_lt (by rw [heq])
        rw [heq] at hisolated
        refine ⟨hisolated.base, hisolated.next, hisolated.sound.setArea (hisolated.sound.sectors i)
          (fun hstart => ?_)
          fun hstart k hk hki => ?_⟩
        · have hok := hisolated.wf.areas i ⟨hi, hstart⟩
          exact { hok with wx := fun hwx => absurd hwx hprot.2 }
        · exact hisolated.wf.apart i k ⟨hi, hstart⟩ hk hki.symm

/-! ## Runs -/

/-- Every orderly call returns and keeps the invariant. -/
theorem Vm.Inv.step (h : s.Inv) {c : VmCall} (horderly : c.Orderly s) :
    ∃ s', c.step s = some s' ∧ s'.Inv := by
  cases c with
  | mmap hint len prot => exact h.sysMmap horderly
  | mmapFile len prot off file => exact h.sysMmapFile len prot off file
  | munmap addr len => exact ⟨_, rfl, h.sysMunmap addr len⟩
  | mprotect addr len prot copied => exact ⟨_, rfl, h.sysMprotect addr len prot copied⟩
  | bump next => exact ⟨_, rfl, h.base, horderly, { h.wf with }, h.sound.sectors⟩

theorem userDemandBase_bounds (pmmMemTop : UInt32) :
    userDemandBase pmmMemTop % vmPage = 0 ∧ userDemandMin ≤ userDemandBase pmmMemTop ∧
      userDemandBase pmmMemTop ≤ userDemandBaseMax := by
  unfold userDemandBase
  simp only [vmPage, userDemandMin, userDemandBaseMax]
  split <;> omega

theorem inv_noAreas {base next : Nat}
    (hbase : base % vmPage = 0 ∧ userDemandMin ≤ base ∧ base ≤ userDemandBaseMax)
    (hnext : NextOk base next) (rng : Nat) : Vm.Inv { next, rng, demandBase := base } :=
  ⟨hbase, hnext, ⟨fun _ hi => absurd rfl hi.2, fun _ _ hi => absurd rfl hi.2⟩, fun _ => .inl rfl⟩

/-- In an orderly run every call comes back, and the table stays well formed. -/
theorem vmRun_wellFormed (pmmMemTop : UInt32) {next : Nat}
    (hnext : NextOk (userDemandBase pmmMemTop) next) (rng : Nat)
    (calls : List VmCall) (horderly :
      AlongAll VmCall.step VmCall.Orderly calls
    { next, rng, demandBase := userDemandBase pmmMemTop }) :
    ∃ s', afterAll VmCall.step { next, rng, demandBase := userDemandBase pmmMemTop }
      calls = some s' ∧
      s'.WellFormed := by
  obtain ⟨s', hrun, hinv⟩ := AlongAll.invariant (I := Vm.Inv) (fun c s h hc => h.step hc)
    (inv_noAreas (userDemandBase_bounds pmmMemTop) hnext rng) horderly
  exact ⟨s', hrun, hinv.wf⟩

/-- Three pages are mapped at a hint, and the middle one is made read-only and unmapped. -/
theorem vmRun_wellFormed_split :
    ∃ s', afterAll VmCall.step { demandBase := userDemandBase 0x08000000 }
      [.mmap 0x10000000 0x3000 3, .mprotect 0x10001000 1 1 true, .munmap 0x10001000 0x1000] =
        some s' ∧
        s'.WellFormed := by
  refine vmRun_wellFormed 0x08000000 (.inl rfl) 0 _ ⟨fun _ pages hpages => ?_, fun _ _ =>
    ⟨trivial, fun _ _ =>
    ⟨trivial, fun _ _ => trivial⟩⟩⟩
  have hthree : pagesOf (0x3000 : UInt32).toNat = some 3 := by decide
  obtain rfl : 3 = pages := Option.some.inj (hthree.symm.trans hpages)
  decide

/-- The page before the end of the address space is asked for, and given. And a process whose bump
is a part of a path, `!!!!`, is given a range that does not begin at a page. -/
theorem hintAtTop_not_wellFormed :
    (∃ s', afterAll VmCall.step { demandBase := userDemandBase 0x08000000 }
        [.mmap 0xFFFFF000 0x1000 1] = some s' ∧
        ¬ s'.WellFormed) ∧
      ∃ s', afterAll VmCall.step { demandBase := userDemandBase 0x08000000 }
          [.bump 0x21212121, .mmap 0 0x1000 1] = some s' ∧ ¬ s'.WellFormed := by
  have htop :
    ((afterAll VmCall.step { demandBase := userDemandBase 0x08000000 }
    [.mmap 0xFFFFF000 0x1000 1]).map
      fun s => ((s.areas 0).start, (s.areas 0).vend, (s.areas 0).pages)) =
      some (0xFFFFF000, 0, 1) := by decide +kernel
  have hbump : ((afterAll VmCall.step { demandBase := userDemandBase 0x08000000 }
      [.bump 0x21212121, .mmap 0 0x1000 1]).map fun s => (s.areas 0).start) =
      some 0x21212121 := by decide +kernel
  obtain ⟨s, hs, hfacts⟩ := Option.map_eq_some_iff.mp htop
  obtain ⟨t, ht, hstart'⟩ := Option.map_eq_some_iff.mp hbump
  simp only [Prod.mk.injEq] at hfacts
  obtain ⟨hstart, hvend, hpages⟩ := hfacts
  refine ⟨⟨s, hs, fun hwf => ?_⟩, t, ht, fun hwf => ?_⟩
  · have hlive : s.Live 0 := ⟨by decide, by rw [hstart]; decide⟩
    have hsize := (hwf.areas 0 hlive).size
    rw [hstart, hvend, hpages] at hsize
    simp [vmPage] at hsize
  · have hlive : t.Live 0 := ⟨by decide, by rw [hstart']; decide⟩
    have haligned := (hwf.areas 0 hlive).aligned
    rw [hstart'] at haligned
    simp [vmPage] at haligned

end Mellivora
