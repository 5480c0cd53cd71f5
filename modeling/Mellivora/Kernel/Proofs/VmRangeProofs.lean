import Mellivora.Kernel.Proofs.VmAreaProofs

/-!
# Proofs: what a call changes for an address

Cutting an area changes nothing for any address: the right piece begins as many blocks further into
the file as pages were cut off.
-/

namespace Mellivora

open Runs Nat

variable {s s' : Vm} {i j start len addr p : Nat} {a : VmArea}

/-! ## Areas and views -/

/-- The area in the record `i` has the address. -/
def Vm.Holds (s : Vm) (i addr : Nat) : Prop :=
  s.Live i ∧ (s.areas i).start ≤ addr ∧ addr < (s.areas i).vend

theorem Vm.WellFormed.unique (h : s.WellFormed) (hi : s.Holds i p) (hj : s.Holds j p) : i = j := by
  by_contra hne
  obtain ⟨hi, hlo, hhi⟩ := hi
  obtain ⟨hj, hlo', hhi'⟩ := hj
  rcases h.apart i j hi hj hne with hapart | hapart
  · exact absurd (lt_of_lt_of_le hhi hapart) (not_lt.mpr hlo')
  · exact absurd (lt_of_lt_of_le hhi' hapart) (not_lt.mpr hlo)

theorem Vm.WellFormed.vmFindArea_iff (h : s.WellFormed) :
    s.vmFindArea p = some i ↔ s.Holds i p := by
  refine ⟨vmFindArea_some, fun hi => ?_⟩
  cases hfind : s.vmFindArea p with
  | some j => rw [h.unique hi (vmFindArea_some hfind)]
  | none =>
    have hnone := List.find?_eq_none.mp hfind i (List.mem_range.mpr hi.1.1)
    simp only [decide_eq_true_eq] at hnone
    exact absurd ⟨hi.1.2, hi.2⟩ hnone

theorem Vm.WellFormed.view_iff (h : s.WellFormed) {v : VmView} :
    s.view p = some v ↔ ∃ i, s.Holds i p ∧ (s.areas i).view p = v := by
  simp only [Vm.view, Option.map_eq_some_iff, h.vmFindArea_iff]

/-! ## Cutting -/

/-- The lower part of a cut shows what the mapping did. -/
theorem view_left (hlo : a.start ≤ p) (hhi : p < addr) (haddr : addr % vmPage = 0)
    (hstart : a.start % vmPage = 0) :
    (a.left addr).view p = a.view p := by
  have hpage : (p - a.start) / vmPage < (addr - a.start) / vmPage := by
    simp only [vmPage] at *
    omega
  unfold VmArea.view VmArea.backing VmArea.left
  by_cases hsector : a.sector = 0
  · simp only [hsector, true_or, if_true]
  · simp only [hsector, if_false, false_or, min_le_iff, not_le.mpr hpage, or_false]

/-- The upper part of a cut shows what the mapping did. -/
theorem view_right (hat : a.AtBlock) (hlo : a.start < addr) (hhi : addr ≤ p)
    (haddr : addr % vmPage = 0)
    (hstart : a.start % vmPage = 0) : (a.right addr).view p = a.view p := by
  have hpage : (p - a.start) / vmPage = (addr - a.start) / vmPage + (p - addr) / vmPage := by
    simp only [vmPage] at *
    omega
  unfold VmArea.view VmArea.backing VmArea.right
  rcases hat with hsector | hsector
  · simp only [hsector, true_or, if_true]
  have hne : a.sector ≠ 0 := by
    intro hzero
    rw [hzero] at hsector
    exact absurd hsector (by decide)
  rw [hpage]
  generalize (addr - a.start) / vmPage = moved
  generalize (p - addr) / vmPage = page
  -- The sector of a block is never 0, so the piece is not taken for an anonymous mapping.
  have hkeeps : (a.sector + moved * hbfsSectorsPerBlk) % 2 ^ 32 ≠ 0 := by
    simp only [hbfsSectorsPerBlk, hbfsDataStart] at *
    omega
  simp only [hne, if_false, hkeeps, false_or, Nat.sub_le_iff_le_add', VmView.mk.injEq, true_and]
  split
  · rfl
  · simp only [Option.some.injEq, hbfsSectorsPerBlk]
    omega

theorem areas_cut (s : Vm) (addr i j k : Nat) : (s.cut addr i j).areas k =
    if k = i then (s.areas i).left addr else if k =
      j then (s.areas i).right addr else s.areas k := by
  simp only [Vm.cut, Vm.setArea, Function.update_apply]

/-- A cut changes nothing for any address. -/
theorem Vm.Sound.view_cut (h : s.Sound) (haddr : addr % vmPage = 0) (hcut : s.Cut addr i j) :
    (s.cut addr i j).view = s.view := by
  have hwf := (h.cut haddr hcut).toWellFormed
  obtain ⟨hlive, hlt, hhi, hj, hfree, hne⟩ := hcut.spec
  have haligned := (h.areas i hlive).aligned
  have hareas := areas_cut s addr i j
  refine funext fun p => Option.ext fun v => ?_
  rw [hwf.view_iff, h.view_iff]
  have hleft : ∀ p, (s.areas i).start ≤ p → p < addr → ((s.areas i).left addr).view p =
    (s.areas i).view p :=
    fun p hlo hp => view_left hlo hp haddr haligned
  have hright : ∀ p, addr ≤ p → ((s.areas i).right addr).view p = (s.areas i).view p :=
    fun p hp => view_right (h.sectors i) hlt hp haddr haligned
  have hl : ((s.areas i).left addr).start = (s.areas i).start ∧ ((s.areas i).left addr).vend =
    addr := ⟨rfl, rfl⟩
  have hr : ((s.areas i).right addr).start = addr ∧ ((s.areas i).right addr).vend =
    (s.areas i).vend := ⟨rfl, rfl⟩
  unfold Vm.Holds Vm.Live at *
  constructor
  · rintro ⟨k, hk, rfl⟩
    rw [hareas k] at hk ⊢
    grind
  rintro ⟨k, hk, rfl⟩
  by_cases hki : k = i ∧ addr ≤ p
  · refine ⟨j, ?_⟩
    rw [hareas j]
    grind
  · refine ⟨k, ?_⟩
    rw [hareas k]
    grind

/-- A split changes no view. -/
theorem Vm.Sound.vmSplitAt (h : s.Sound) (haddr : addr % vmPage = 0) :
    (s.vmSplitAt addr).2.Sound ∧ (s.vmSplitAt addr).2.view = s.view := by
  rcases vmSplitAt_cases s addr with heq | ⟨i, heq, -⟩ | ⟨i, j, heq, hcut⟩
  · rw [heq]
    exact ⟨h, rfl⟩
  · rw [heq]
    exact ⟨h, rfl⟩
  · rw [heq]
    exact ⟨h.cut haddr hcut, h.view_cut haddr hcut⟩

theorem Vm.Sound.vmIsolate (h : s.Sound) (hstart : start % vmPage = 0) (hlen : len % vmPage = 0) :
    (s.vmIsolate start len).2.Sound ∧ (s.vmIsolate start len).2.view = s.view := by
  refine vmIsolate_keeps (P := fun s' => s'.Sound ∧ s'.view = s.view) hstart hlen ?_ ⟨h, rfl⟩
  intro s1 addr haddr ⟨hsound, hview⟩
  obtain ⟨hsound', hview'⟩ := hsound.vmSplitAt haddr
  exact ⟨hsound', hview'.trans hview⟩

/-- A split that succeeds starts a mapping at the address. -/
theorem vmSplitAt_some (h : (s.vmSplitAt addr).1 = some j) :
    ∃ i, s.Holds i addr ∧ (s.vmSplitAt addr).2.Live j ∧
      ((s.vmSplitAt addr).2.areas j).start = addr ∧
      ((s.vmSplitAt addr).2.areas j).vend = (s.areas i).vend ∧
      ((s.areas i).start < addr → (((s.vmSplitAt addr).2.areas i).start = (s.areas i).start ∧
        ((s.vmSplitAt addr).2.areas i).vend = addr)) := by
  rcases vmSplitAt_cases s addr with heq | ⟨i, heq, hfind, hstart⟩ | ⟨i, k, heq, hcut⟩
  · rw [heq] at h
    cases h
  · rw [heq] at h ⊢
    obtain rfl : i = j := Option.some.inj h
    have hholds := vmFindArea_some hfind
    exact ⟨i, hholds, hholds.1, hstart, rfl, fun hlt => absurd hstart (Nat.ne_of_lt hlt)⟩
  · rw [heq] at h ⊢
    cases h
    obtain ⟨hlive, hlt, hhi, hk, -, hne⟩ := hcut.spec
    have hpos : addr ≠ 0 := by omega
    refine ⟨i, ⟨hlive, le_of_lt hlt, hhi⟩, ?_⟩
    rw [Vm.Live, areas_cut, if_neg hne.symm, if_pos rfl, areas_cut, if_pos rfl]
    exact ⟨⟨hk, hpos⟩, rfl, rfl, fun _ => ⟨rfl, rfl⟩⟩

/-- `vm_isolate` hands out an area that is exactly the range. -/
theorem Vm.Sound.vmIsolate_some (h : s.Sound) (hstart : start % vmPage = 0) (hlen : 0 < len)
    (hj : (s.vmIsolate start len).1 = some j) : (s.vmIsolate start len).2.Live j ∧
      ((s.vmIsolate start len).2.areas j).span = ⟨start, start + len⟩ := by
  unfold Vm.vmIsolate at hj ⊢
  cases hfind : s.vmFindArea start with
  | none =>
    rw [hfind] at hj
    cases hj
  | some i =>
  rw [hfind] at hj
  dsimp only at hj ⊢
  have hholds := vmFindArea_some hfind
  split at hj
  · cases hj
  next hin =>
  rw [if_neg hin]
  rw [not_or, not_le, not_lt] at hin
  have hfirst k (hk : (s.vmSplitAt start).1 = some k) := vmSplitAt_some hk
  have hsound := (h.vmSplitAt hstart).1
  generalize s.vmSplitAt start = r at hj hfirst hsound ⊢
  obtain ⟨_ | k, s1⟩ := r
  · cases hj
  dsimp only at hj hsound ⊢
  obtain ⟨i', hi', hlive, hk, hvend, -⟩ := hfirst k rfl
  dsimp only at hlive hk hvend
  obtain rfl := h.unique hholds hi'
  rw [← hvend] at hin
  split at hj
  · next hshort =>
    cases hj
    rw [if_pos hshort]
    exact ⟨hlive, by rw [VmArea.span, hk, le_antisymm hshort hin.2]⟩
  next hlong =>
  rw [if_neg hlong]
  have hholds1 : s1.Holds k (start + len) := ⟨hlive, by omega, not_le.mp hlong⟩
  have hsecond l (hl : (s1.vmSplitAt (start + len)).1 = some l) := vmSplitAt_some hl
  generalize s1.vmSplitAt (start + len) = r at hj hsecond ⊢
  obtain ⟨_ | l, s2⟩ := r
  · cases hj
  cases hj
  obtain ⟨k', hk', -, -, -, hleft⟩ := hsecond l rfl
  obtain rfl := hsound.unique hholds1 hk'
  obtain ⟨hstart2, hvend2⟩ := hleft (by omega)
  dsimp only at hstart2 hvend2 ⊢
  refine ⟨⟨hlive.1, ?_⟩, by rw [VmArea.span, hstart2, hvend2, hk]⟩
  rw [hstart2]
  exact hlive.2

/-! ## The calls -/

/-- A change of one mapping changes its addresses only. -/
theorem Vm.WellFormed.view_setArea (h : s.WellFormed) (h' : (s.setArea j a).WellFormed)
    (hj : s.Live j)
    (hspan : a.start ≠ 0 → a.span = (s.areas j).span) (p : Nat) : (s.setArea j a).view p =
      if (s.areas j).start ≤ p ∧ p < (s.areas j).vend then if a.start =
        0 then none else some (a.view p)
      else s.view p := by
  have hself : (s.setArea j a).Holds j p → (s.areas j).start ≤ p ∧ p < (s.areas j).vend := by
    rintro ⟨⟨-, hstart⟩, hin⟩
    rw [area_setArea_self] at hstart hin
    have heq := hspan hstart
    simp only [VmArea.span, Span.mk.injEq] at heq
    rwa [← heq.1, ← heq.2]
  have hother : ∀ k ≠ j, ((s.setArea j a).Holds k p ↔ s.Holds k p) := fun k hk => by
    simp only [Vm.Holds, live_setArea_of_ne hk, area_setArea_of_ne hk]
  refine Option.ext fun v => ?_
  rw [h'.view_iff]
  by_cases hin : (s.areas j).start ≤ p ∧ p < (s.areas j).vend
  · rw [if_pos hin]
    constructor
    · rintro ⟨k, hk, rfl⟩
      have hkj : k = j := by
        by_contra hne
        exact hne (h.unique ((hother k hne).mp hk) ⟨hj, hin⟩)
      subst hkj
      have hstart := hk.1.2
      rw [area_setArea_self] at hstart ⊢
      rw [if_neg hstart]
    · intro hv
      split at hv
      · cases hv
      next hstart =>
      have heq := hspan hstart
      simp only [VmArea.span, Span.mk.injEq] at heq
      refine ⟨j, ⟨⟨hj.1, ?_⟩, ?_⟩, ?_⟩
      · rwa [area_setArea_self]
      · rw [area_setArea_self, heq.1, heq.2]
        exact hin
      · rw [area_setArea_self]
        exact Option.some.inj hv
  · rw [if_neg hin, h.view_iff]
    refine exists_congr fun k => ?_
    by_cases hkj : k = j
    · subst hkj
      exact ⟨fun hk => absurd (hself hk.1) hin, fun hk => absurd hk.1.2 hin⟩
    · rw [hother k hkj, area_setArea_of_ne hkj]

theorem rangeOf_pos {addr len size : Nat} (h : Vm.rangeOf addr len = some (start, size)) :
    0 < size := by
  unfold Vm.rangeOf at h
  split at h
  · cases h
  · cases h
    simp only [pageDown, vmPage]
    omega

/-- A range that is accepted is changed as asked, and no other address sees a difference, also where
`sys_mprotect` runs out of memory for the pages it copies. A range that cannot be isolated is left
as it is. -/
theorem vmRange_exact (h : s.Sound) :
    (∀ start len, start % vmPage = 0 → len % vmPage = 0 → (s.vmIsolate start len).1 = none →
      (s.vmIsolate start len).2.view = s.view) ∧
    ∀ (addr len : UInt32) (start size : Nat), Vm.rangeOf addr.toNat len.toNat = some (start, size) →
      ((s.sysMunmap addr len).1 = true → ∀ p, (s.sysMunmap addr len).2.view p =
        if start ≤ p ∧ p < start + size then none else s.view p) ∧
      ∀ prot, (s.sysMprotect addr len prot true).1 = true →
        ∀ copied p, (s.sysMprotect addr len prot copied).2.view p =
          if start ≤ p ∧ p < start + size then (s.view p).map fun v =>
            { v with prot } else s.view p := by
  refine ⟨fun start len hstart hlen _ => (h.vmIsolate hstart hlen).2,
    fun addr len start size hrange => ?_⟩
  obtain ⟨hstart, hsize⟩ := rangeOf_some hrange
  obtain ⟨hsound, hview⟩ := h.vmIsolate hstart hsize
  have hsome := fun j => h.vmIsolate_some (j := j) hstart (rangeOf_pos hrange)
  simp only [Vm.sysMunmap, Vm.sysMprotect, hrange]
  generalize s.vmIsolate start size = r at hsound hview hsome
  obtain ⟨_ | j, s1⟩ := r
  · refine ⟨nofun, fun prot hdone => ?_⟩
    split at hdone <;> cases hdone
  obtain ⟨hlive, hspan⟩ := hsome j rfl
  dsimp only at hsound hview hlive hspan ⊢
  simp only [VmArea.span, Span.mk.injEq] at hspan
  refine ⟨fun _ p => ?_, fun prot hdone copied p => ?_⟩
  · have hwf : (s1.setArea j {}).WellFormed :=
      hsound.toWellFormed.setArea (fun hne => absurd rfl hne) fun hne => absurd rfl hne
    rw [hsound.view_setArea hwf hlive (fun hne => absurd rfl hne), hspan.1, hspan.2, hview]
    rfl
  split at hdone
  · cases hdone
  next hprot =>
  rw [not_or] at hprot
  rw [if_neg (not_or.mpr hprot)]
  have hok := hsound.areas j hlive
  have hwf : (s1.setArea j { s1.areas j with prot }).WellFormed := hsound.toWellFormed.setArea
    (fun _ => { hok with wx := fun hwx => absurd hwx hprot.2 })
    fun _ k hk hkj => hsound.apart j k hlive hk hkj.symm
  have hset := hsound.view_setArea hwf hlive (fun _ => rfl) p
  dsimp only at hset ⊢
  rw [hset, if_neg hlive.2, ← hspan.2, ← hspan.1, hview]
  split
  · next hin =>
    have hbefore : s.view p = some ((s1.areas j).view p) := by
      rw [← hview]
      exact hsound.view_iff.mpr ⟨j, ⟨hlive, hin⟩, rfl⟩
    rw [hbefore]
    rfl
  · rfl

/-- Three pages of a file that has two blocks. -/
def threePages : Vm :=
  Vm.setArea { demandBase := 0x08000000 } 0
    { start := 0x10000000, pages := 3, prot := 3, sector := 8867, vend := 0x10003000, blocks := 2 }

theorem threePages_sound : threePages.Sound := by
  have hareas : ∀ i, threePages.areas i = if i = 0 then threePages.areas 0 else {} := fun i =>
    Function.update_apply ..
  have hlive : ∀ i, threePages.Live i → i = 0 := fun i hi => by
    by_contra hne
    rw [Vm.Live, hareas i, if_neg hne] at hi
    exact hi.2 rfl
  refine ⟨⟨fun i hi => ?_, fun i j hi hj hne => ?_⟩, fun i => ?_⟩
  · obtain rfl := hlive i hi
    exact ⟨by decide, by decide, by decide, by decide, by decide, fun h => absurd h (by decide)⟩
  · exact absurd ((hlive i hi).trans (hlive j hj).symm) hne
  · rw [hareas i]
    split
    · exact Or.inr rfl
    · exact Or.inl rfl

/-- When the middle page is unmapped, the first keeps its block and the third its zeros. -/
theorem vmRange_exact_middle : threePages.Sound ∧
    (threePages.sysMunmap 0x10001000 0x1000).2.view 0x10000000 = some ⟨3, 0, some 8866⟩ ∧
    (threePages.sysMunmap 0x10001000 0x1000).2.view 0x10001000 = none ∧
    (threePages.sysMunmap 0x10001000 0x1000).2.view 0x10002000 = some ⟨3, 0, none⟩ := by
  have hmunmap :=
    ((vmRange_exact threePages_sound).2 0x10001000 0x1000 0x10001000 0x1000 (by decide)).1
    (by decide)
  refine ⟨threePages_sound, ?_, ?_, ?_⟩
  · rw [hmunmap]
    decide
  · rw [hmunmap]
    decide
  · rw [hmunmap]
    decide

/-! ## What is shown of files -/

/-- A property of records that the calls make or cut. -/
structure RecordRule (Q : VmArea → Prop) : Prop where
  unused : Q {}
  left : ∀ a addr, Q a → Q (a.left addr)
  right : ∀ a addr, Q a → Q (a.right addr)
  prot : ∀ a prot, Q a → Q { a with prot }
  anon : ∀ pages prot start, Q (Vm.anonArea pages prot start)

section Records

variable {Q : VmArea → Prop}

theorem RecordRule.setArea (h : ∀ k, Q (s.areas k)) (ha : Q a) (i k : Nat) :
    Q ((s.setArea i a).areas k) := by
  by_cases hk : k = i
  · rwa [hk, area_setArea_self]
  · rw [area_setArea_of_ne hk]
    exact h k

theorem RecordRule.record (h : ∀ k, Q (s.areas k)) (ha : Q a) (k : Nat) :
    Q ((s.record a).2.areas k) := by
  unfold Vm.record
  cases s.vmFreeSlot with
  | none => exact h k
  | some i => exact RecordRule.setArea h ha i k

theorem RecordRule.isolate (hQ : RecordRule Q) (h : ∀ k, Q (s.areas k)) {start len : Nat}
    (hstart : start % vmPage = 0)
    (hlen : len % vmPage = 0) : ∀ k, Q ((s.vmIsolate start len).2.areas k) := by
  refine vmIsolate_keeps (P := fun s => ∀ k, Q (s.areas k)) hstart hlen (fun s addr _ hs => ?_) h
  rcases vmSplitAt_cases s addr with heq | ⟨i, heq, -⟩ | ⟨i, j, heq, -⟩
  · rwa [heq]
  · rwa [heq]
  · rw [heq]
    exact RecordRule.setArea (RecordRule.setArea hs (hQ.right _ addr (hs i)) j)
      (hQ.left _ addr (hs i)) i

theorem areas_vmGap {pages v : Nat} (h : s.vmGap pages = some (v, s')) : s'.areas = s.areas := by
  have hseed : s.vgSeed.areas = s.areas := by
    unfold Vm.vgSeed
    split <;> rfl
  obtain ⟨r, -, hr⟩ := Option.map_eq_some_iff.mp h
  cases r with
  | none =>
    cases hr
    exact hseed
  | some cand =>
    cases hr
    exact hseed

theorem RecordRule.gap (h : ∀ k, Q (s.areas k)) {pages : Nat} {area : Nat → VmArea}
    (harea : ∀ v, Q (area v))
    (hrun : ((s.vmGap pages).map fun (v, s) => if v = 0 then (none, s) else s.record (area v)).map
      Prod.snd = some s')
    (k : Nat) : Q (s'.areas k) := by
  obtain ⟨_, hmap, rfl⟩ := Option.map_eq_some_iff.mp hrun
  obtain ⟨⟨v, s1⟩, hgap, rfl⟩ := Option.map_eq_some_iff.mp hmap
  have h1 : ∀ k, Q (s1.areas k) := by rwa [areas_vmGap hgap]
  dsimp only
  split
  · exact h1 k
  · exact RecordRule.record h1 (harea v) k

/-- A call keeps such a property of all records, if the record of a file that it maps has it. -/
theorem RecordRule.step (hQ : RecordRule Q) {c : VmCall} (h : ∀ k, Q (s.areas k))
    (hrun : c.step s = some s')
    (hfile : ∀ len prot off blocks first, c = .mmapFile len prot off (some (blocks, first)) →
      ∀ pages start,
      off.toNat / vmPage < blocks.toNat → Q (Vm.fileArea pages prot
        (((first.toNat + off.toNat / vmPage) * hbfsSectorsPerBlk + hbfsDataStart + 1) % 2 ^ 32)
        (min (blocks.toNat - off.toNat / vmPage) pages) start)) (k : Nat) : Q (s'.areas k) := by
  cases c with
  | mmap hint len prot =>
    simp only [VmCall.step, Vm.sysMmap] at hrun
    split at hrun
    · cases hrun
      exact h k
    split at hrun
    · cases hrun
      exact h k
    split at hrun
    · cases hrun
      exact RecordRule.record h (hQ.anon _ _ _) k
    · exact RecordRule.gap h (hQ.anon _ _) hrun k
  | mmapFile len prot off file =>
    simp only [VmCall.step, Vm.sysMmapFile] at hrun
    split at hrun
    · cases hrun
      exact h k
    split at hrun
    · split at hrun
      · cases hrun
        exact h k
      · exact RecordRule.gap h (fun v => hfile _ _ _ _ _ rfl _ v (by omega)) hrun k
    · cases hrun
      exact h k
  | munmap addr len =>
    cases hrun
    unfold Vm.sysMunmap
    split
    · exact h k
    next start length hrange =>
    obtain ⟨hstart, hlength⟩ := rangeOf_some hrange
    have hisolated := hQ.isolate h hstart hlength
    split
    next heq =>
      rw [heq] at hisolated
      exact hisolated k
    next i s1 heq =>
      rw [heq] at hisolated
      exact RecordRule.setArea hisolated hQ.unused i k
  | mprotect addr len prot copied =>
    cases hrun
    unfold Vm.sysMprotect
    split
    · exact h k
    split
    · exact h k
    next start length hrange =>
    obtain ⟨hstart, hlength⟩ := rangeOf_some hrange
    have hisolated := hQ.isolate h hstart hlength
    split
    next heq =>
      rw [heq] at hisolated
      exact hisolated k
    next i s1 heq =>
      rw [heq] at hisolated
      exact RecordRule.setArea hisolated (hQ.prot _ prot (hisolated i)) i k
  | bump next =>
    cases hrun
    exact h k

end Records

variable {total : Nat}

/-- The upper part still shows blocks of its file. -/
theorem VmArea.Shows.right (h : a.Shows total) (htotal : total ≤ 8 * hbfsBitmapSize) (addr : Nat) :
    (a.right addr).Shows total := by
  intro hsector hblocks
  simp only [VmArea.right] at hsector hblocks ⊢
  generalize (addr - a.start) / vmPage = moved at *
  by_cases hne : a.sector = 0
  · rw [if_pos hne] at hsector
    exact absurd rfl hsector
  rw [if_neg hne] at hblocks
  obtain ⟨first, hfirst, hend⟩ := h hne (by omega)
  refine ⟨first + moved, ?_, ?_⟩
  · rw [if_neg hne, hfirst]
    simp only [hbfsBitmapSize, hbfsDataStart, hbfsSectorsPerBlk] at *
    omega
  · rw [if_neg hne]
    omega

theorem shows_rule (htotal : total ≤ 8 * hbfsBitmapSize) : RecordRule (VmArea.Shows total) where
  unused := fun hne => absurd rfl hne
  left a addr h := by
    intro hsector hblocks
    have hne : a.sector ≠ 0 := hsector
    simp only [VmArea.left, if_neg hne] at hblocks ⊢
    generalize (addr - a.start) / vmPage = moved at *
    obtain ⟨first, hfirst, hend⟩ := h hne (by omega)
    exact ⟨first, hfirst, by omega⟩
  right _ addr h := h.right htotal addr
  prot _ _ h := h
  anon _ _ _ := fun hne => absurd rfl hne

/-- Every call keeps the mappings on the volume. -/
theorem Vm.shows_step (h : ∀ k, (s.areas k).Shows total)
    (htotal : total ≤ 8 * hbfsBitmapSize) {c : VmCall}
    (hreads : c.Reads total) (hrun : c.step s = some s') : ∀ k, (s'.areas k).Shows total := by
  refine (shows_rule htotal).step h hrun ?_
  rintro len prot off blocks first rfl pages start hskip - -
  have hend : first.toNat + blocks.toNat ≤ total := hreads
  generalize off.toNat / vmPage = skip at *
  refine ⟨first.toNat + skip, ?_, ?_⟩
  · show _ % 2 ^ 32 = _
    simp only [hbfsBitmapSize, hbfsDataStart, hbfsSectorsPerBlk] at *
    omega
  · show _ + min _ _ ≤ total
    omega

/-- A page shows a block of the volume. -/
theorem VmArea.Shows.backing (h : a.Shows total) (htotal : total ≤ 8 * hbfsBitmapSize)
    {sector : Nat} (hback : a.backing p = some sector) : ∃ block < total, sector =
    hbfsDataStart + hbfsSectorsPerBlk * block := by
  unfold VmArea.backing at hback
  dsimp only at hback
  split at hback
  · cases hback
  next hfile =>
  generalize (p - a.start) / vmPage = page at *
  rw [not_or, not_le] at hfile
  obtain ⟨first, hfirst, hend⟩ := h hfile.1 (by omega)
  refine ⟨first + page, by omega, ?_⟩
  cases hback
  simp only [hbfsBitmapSize, hbfsDataStart, hbfsSectorsPerBlk] at *
  omega

/-- Along an orderly run that maps files of a volume with `total` blocks, every page of a file that
an address shows is read from where a block of the volume begins. -/
theorem vmRun_showsBlocks (h : s.Inv) (hshows : ∀ k, (s.areas k).Shows total)
    (htotal : total ≤ 8 * hbfsBitmapSize) {calls : List VmCall}
    (hcalls : AlongAll VmCall.step (fun c s => c.Orderly s ∧ c.Reads total) calls s) :
    ∃ s', afterAll VmCall.step s calls = some s' ∧ s'.Sound ∧ ∀ p v sector, s'.view p = some v →
      v.backing = some sector → ∃ block < total, sector =
      hbfsDataStart + hbfsSectorsPerBlk * block := by
  have hstep : ∀ c s, (s.Inv ∧ ∀ k, (s.areas k).Shows total) → VmCall.Orderly c s ∧ c.Reads total →
      ∃ s', c.step s = some s' ∧ s'.Inv ∧ ∀ k, (s'.areas k).Shows total := by
    rintro c s ⟨hinv, hs⟩ ⟨horderly, hreads⟩
    obtain ⟨s', hrun, hinv'⟩ := hinv.step horderly
    exact ⟨s', hrun, hinv', Vm.shows_step hs htotal hreads hrun⟩
  obtain ⟨s', hrun, hinv, hs⟩ := hcalls.invariant hstep ⟨h, hshows⟩
  refine ⟨s', hrun, hinv.sound, fun p v sector hview hback => ?_⟩
  obtain ⟨i, -, rfl⟩ := Option.map_eq_some_iff.mp hview
  exact (hs i).backing htotal hback

/-- Of a file in the blocks 5 and 6 both are mapped, and the first one is unmapped: the second page
shows block 6. -/
theorem vmRun_showsBlocks_file :
    ∃ s', afterAll VmCall.step { demandBase := userDemandMin, next := 0x10000000 }
    [.mmapFile 0x2000 1 0 (some (2, 5)), .munmap 0x10000000 0x1000] = some s' ∧ s'.Sound ∧
      (s'.view 0x10001000).bind VmView.backing = some 8914 ∧
      ∃ block < 7, 8914 = hbfsDataStart + hbfsSectorsPerBlk * block := by
  have h : Vm.Inv { demandBase := userDemandMin, next := 0x10000000 } :=
    inv_noAreas (by decide) (.inr (by decide)) 0
  have hcalls : AlongAll VmCall.step (fun c s => c.Orderly s ∧ c.Reads 7)
      [.mmapFile 0x2000 1 0 (some (2, 5)), .munmap 0x10000000 0x1000]
      { demandBase := userDemandMin, next := 0x10000000 } :=
    ⟨⟨trivial, show 5 + 2 ≤ 7 by decide⟩, fun _ _ => ⟨⟨trivial, trivial⟩, fun _ _ => trivial⟩⟩
  obtain ⟨s', hrun, hsound, hblocks⟩ :=
    vmRun_showsBlocks h (fun _ hne => absurd rfl hne) (by decide) hcalls
  have hback : ((afterAll VmCall.step { demandBase := userDemandMin, next := 0x10000000 }
      [.mmapFile 0x2000 1 0 (some (2, 5)), .munmap 0x10000000 0x1000]).bind
        fun s => (s.view 0x10001000).bind VmView.backing) = some 8914 := by decide +kernel
  rw [hrun, Option.bind_some] at hback
  obtain ⟨v, hview, hsector⟩ := Option.bind_eq_some_iff.mp hback
  exact ⟨s', hrun, hsound, hback, hblocks _ v 8914 hview hsector⟩

end Mellivora
