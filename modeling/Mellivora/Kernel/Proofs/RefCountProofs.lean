import Mellivora.Kernel.Proofs.BodyProofs
import Mellivora.Kernel.Proofs.ObjectCallProofs

/-!
# Proofs: reference counts

Each object handed out has a reference for each open handle, one if it is permanent, and one if the
running call holds it.
-/

namespace Mellivora

open Outcome Counting Function

variable {keep : Nat → Prop} {w w' : World} {held obj i index : Nat}

/-- The references of an object are accounted for, and the objects in `keep` stay permanent. -/
structure Counted (keep : Nat → Prop) (w : World) (held : Nat) : Prop where
  base : w.Base
  entry : ∀ p ∈ handleSlots, w.entry p ≠ 0 → w.live (w.entry p)
  refs : ∀ o, w.live o →
    w.openHandles o + (if (w.objs o).permanent then 1 else 0) + (if o = held then 1 else 0) ≤
    (w.objs o).refs
  kept : ∀ o, keep o → w.live o ∧ (w.objs o).permanent
  root : keep w.root

theorem mem_tableSlots {tables size : Nat} (hi : i < tables) (hindex : index < size) :
    (i, index) ∈ tableSlots tables size := by
  rw [tableSlots, Finset.mem_product, Finset.mem_range, Finset.mem_range]
  exact ⟨hi, hindex⟩

theorem mem_handleSlots (hi : i < maxTasks) (hindex : index < handleMaxCap) :
    (i, index) ∈ handleSlots :=
  mem_tableSlots hi hindex

theorem Counted.of_core (h : Counted keep w held) (hbase : w'.Base) (hlive : w'.live = w.live)
    (hroot : w'.root = w.root) (hentry : w'.entry = w.entry)
    (hcore : ∀ a, (w'.objs a).core = (w.objs a).core) : Counted keep w' held := by
  have hrefs : ∀ a, (w'.objs a).refs = (w.objs a).refs :=
    fun a => congrArg (fun c => c.2.2.2) (hcore a)
  have hperm : ∀ a, (w'.objs a).permanent = (w.objs a).permanent :=
    fun a => congrArg (fun c => c.2.1) (hcore a)
  refine ⟨hbase, ?_, fun o ho => ?_, fun o ho => ?_, hroot ▸ h.root⟩
  · rw [hentry, hlive]
    exact h.entry
  · rw [hlive] at ho
    rw [World.openHandles, hentry, hrefs, hperm]
    exact h.refs o ho
  · rw [hlive, hperm]
    exact h.kept o ho

theorem Counted.setObj {held' : Nat} {f : Obj → Obj} (h : Counted keep w held)
    (hbase : (w.setObj obj f).Base)
    (hrefs : w.live obj → w.openHandles obj + (if (f (w.objs obj)).permanent then 1 else 0) +
      (if obj = held' then 1 else 0) ≤ (f (w.objs obj)).refs)
    (hperm : (w.objs obj).permanent → (f (w.objs obj)).permanent)
    (hheld : ∀ o, w.live o → o ≠ obj → o ≠ held') : Counted keep (w.setObj obj f) held' := by
  have hobj : ∀ a, (w.setObj obj f).objs a = if a = obj then f (w.objs obj) else w.objs a :=
    fun a =>
    update_apply ..
  refine ⟨hbase, h.entry, fun o (ho : w.live o) => ?_, fun o ho => ?_, h.root⟩
  · have hold := h.refs o ho
    show w.openHandles o + _ + _ ≤ _
    grind
  · obtain ⟨hlive, hmark⟩ := h.kept o ho
    exact ⟨hlive, by grind⟩

/-- A new object is held by the call that made it. -/
theorem Counted.takes (h : Counted keep w 0) (htakes : w.Takes obj w') : Counted keep w' obj := by
  have hentry := World.entry_congr htakes.tasks
  have hbase := h.base.takes htakes
  have hlive := htakes.live_apply
  have hne : ∀ a, w.live a → a ≠ obj := fun a ha => htakes.ne h.base.inv ha
  have hnone : count handleSlots w.entry obj = 0 := by
    refine count_eq_zero.mpr fun p hp heq => ?_
    have hzero : w.entry p ≠ 0 := heq ▸ hbase.ne_zero (htakes.live ▸ update_self ..)
    exact hne _ (h.entry p hp hzero) heq
  refine ⟨hbase, by grind [h.entry, congrFun hentry],
    fun o ho => ?_, by grind [h.kept, htakes.objs], htakes.root ▸ h.root⟩
  have hold := h.refs o
  rw [World.openHandles, hentry]
  grind [World.openHandles, htakes.fresh, htakes.objs]

/-- A handle more, a reference more. -/
theorem Counted.opens (h : Counted keep w held) (hlive : w.live obj) (hi : i < maxTasks)
    (hindex : index < handleMaxCap) (hopens : w.Opens i index obj w') : Counted keep w' held := by
  have hcore : ∀ a, (w'.objs a).permanent = (w.objs a).permanent ∧
      (w'.objs a).refs = (w.objs a).refs + if a = obj then 1 else 0 := by
    intro a
    have hcounted := hopens.counted
    have hsame := hopens.core a
    simp only [Obj.core, Prod.mk.injEq] at hcounted hsame
    grind
  refine ⟨h.base.opens hopens, ?_, fun o ho => ?_, ?_, hopens.root ▸ h.root⟩
  · rw [hopens.entry, hopens.live]
    grind [h.entry, update_apply]
  · rw [hopens.live] at ho
    have hold := h.refs o ho
    have hcount := count_update (mem_handleSlots hi hindex) w.entry obj o
    rw [World.openHandles, hopens.entry]
    grind [World.openHandles, hopens.free]
  · rw [hopens.live]
    grind [h.kept]

/-- A handle less; its reference is the call's. -/
theorem Counted.closes (h : Counted keep w 0) (hi : i < maxTasks) (hindex : index < handleMaxCap)
    (hcloses : w.Closes i index w') : Counted keep w' (w.entry (i, index)) := by
  have hperm : ∀ a, (w'.objs a).permanent = (w.objs a).permanent :=
    fun a => congrArg (fun c => c.2.1) (hcloses.core a)
  have hrefs : ∀ a, (w'.objs a).refs = (w.objs a).refs :=
    fun a => congrArg (fun c => c.2.2.2) (hcloses.core a)
  refine ⟨h.base.closes hcloses, ?_, fun o ho => ?_, ?_, hcloses.root ▸ h.root⟩
  · rw [hcloses.entry, hcloses.live]
    grind [h.entry, update_apply]
  · rw [hcloses.live] at ho
    have hold := h.refs o ho
    have hzero := h.base.ne_zero ho
    have hcount := count_update (mem_handleSlots hi hindex) w.entry 0 o
    rw [World.openHandles, hcloses.entry, hperm, hrefs]
    grind [World.openHandles]
  · rw [hcloses.live]
    grind [h.kept]

/-- The last reference is the one that the call holds, so no handle leads to the object and it is
not permanent. -/
theorem Counted.destroy (h : Counted keep w obj) (hlive : w.live obj)
    (hlast : (w.objs obj).refs = 1) (hdestroys : w.Destroys obj w') : Counted keep w' 0 := by
  have hentry := World.entry_congr hdestroys.tasks
  have hgone := hdestroys.live_apply
  have hown := h.refs obj hlive
  rw [if_pos rfl, hlast] at hown
  have hnone : ∀ p ∈ handleSlots, w.entry p ≠ obj := by
    refine count_eq_zero.mp ?_
    unfold World.openHandles at hown
    omega
  have hmark : (w.objs obj).permanent = false := by grind
  refine ⟨h.base.destroy hlive hdestroys, by grind [h.entry, congrFun hentry],
    fun o ho => ?_, by grind [h.kept, hdestroys.objs],
    hdestroys.root ▸ h.root⟩
  have hne : o ≠ obj := by grind
  have holive : w.live o := by grind
  have hold := h.refs o holive
  rw [World.openHandles, hentry, hdestroys.objs o hne, if_neg (h.base.ne_zero holive)]
  grind [World.openHandles]

/-- A spare reference may be held. -/
theorem Counted.borrow (h : Counted keep w 0) (hspare : w.Spare obj) : Counted keep w obj := by
  refine { h with refs := fun o ho => ?_ }
  have hold := h.refs o ho
  grind [World.Spare]

theorem Counted.leak (h : Counted keep w obj) : Counted keep w 0 := by
  refine { h with refs := fun o ho => ?_ }
  have hold := h.refs o ho
  rw [if_neg (h.base.ne_zero ho)]
  omega

/-- The counts survive each change that the calls are made up of. -/
theorem countedRule (keep : Nat → Prop) : ObjectRule False (Counted keep) where
  base h := h.base
  root h := (h.kept _ h.root).1
  quiet h hquiet := h.of_core (h.base.quiet hquiet) hquiet.live hquiet.root hquiet.entry hquiet.core
  takes h htakes := h.takes htakes
  link h hlive hblank hparent hne _ _ _ _ :=
    h.of_core (h.base.link _ hlive hblank hparent.1 hne) rfl rfl rfl fun _ => rfl
  opens h hlive hi hindex hopens := h.opens hlive hi hindex hopens
  closes h hi hindex _ hcloses := h.closes hi hindex hcloses
  spend {w obj} h hlive hmany := by
    have hold := h.refs obj hlive
    rw [if_pos rfl] at hold
    refine h.setObj (h.base.setObj (by dsimp only; omega) rfl) (fun _ => ?_) (fun hperm => hperm) ?_
    · rw [if_neg (h.base.ne_zero hlive)]
      dsimp only
      omega
    · exact fun o ho _ => h.base.ne_zero ho
  destroy h hlive hlast _ hdestroys := h.destroy hlive hlast hdestroys
  leak h := h.leak
  promote {w obj} h hlive := by
    have hold := h.refs obj hlive
    rw [if_pos rfl] at hold
    refine h.setObj (h.base.setObj (h.base.inv.body obj hlive).2.1 rfl) (fun _ => ?_)
      (fun _ => rfl) ?_
    · rw [if_neg (h.base.ne_zero hlive), if_pos rfl]
      dsimp only
      omega
    · exact fun o ho _ => h.base.ne_zero ho
  vacate h hfree := h.of_core h.base.vacate rfl rfl (entry_vacate hfree) fun _ => rfl

/-! ## Runs -/

/-- An open handle names a live object. -/
theorem Counted.live_of_htEntry (h : Counted keep w 0) (hi : i < maxTasks) {handle slot : Nat}
    (hentry : htEntry (w.tasks i).table handle = some slot) :
    w.live ((w.tasks i).table.mem.dword (slot + heObj)) := by
  obtain ⟨-, ⟨hcap, hne⟩, rfl⟩ := ((h.base.table i).htEntry_eq_some handle slot).mp hentry
  have hobj := entryObj_of_lt hcap
  have hlive :=
    h.entry (i, handleIndex handle)
    (mem_handleSlots hi (Nat.lt_of_lt_of_le hcap (h.base.table i).cap))
  unfold World.entry at hlive
  rw [hobj] at hlive
  exact hlive hne

/-- A legal call is one the rule speaks of. -/
theorem Counted.fits (h : Counted keep w 0) {c : ObjectCall} (hlegal : c.Legal w)
    (hcounts : c.Counts w) :
    c.Fits False (Counted keep) w := by
  cases c with
  | create caller name type rights disposition =>
    refine ⟨hcounts.1, fun place w' hplace => ⟨fun hne hdisp => ?_, fun _ hstrict => hstrict.elim⟩⟩
    exact h.borrow (hcounts.2 place w' hplace hne hdisp)
  | opens caller name rights => exact hcounts
  | dup caller handle rights =>
    exact ⟨hcounts, fun i slot hcaller hentry => h.live_of_htEntry (hlegal i hcaller) hentry⟩
  | closes caller handle =>
    intro i slot hcaller hentry
    exact ⟨h.live_of_htEntry (hlegal i hcaller) hentry, fun hstrict => hstrict.elim⟩
  | closeAll caller =>
    intro i n w' hcaller hn _ h' hne
    have hcap := Nat.lt_of_lt_of_le hn (h.base.table i).cap
    exact ⟨h'.entry _ (mem_handleSlots (hlegal i hcaller) hcap) hne, fun hstrict => hstrict.elim⟩
  | newNamed type name parent integ => exact fun hstrict => hstrict.elim
  | becomes task pid euid sess => trivial

theorem Counted.sound (h : Counted keep w 0) : w.CountsSound := by
  refine ⟨fun o ho => ?_, h.entry⟩
  have hold := h.refs o ho
  omega

theorem Counted.permanent (h : Counted keep w 0) :
    Counted (fun o => w.live o ∧ (w.objs o).permanent) w 0 :=
  { h with kept := fun _ ho => ho, root := h.kept _ h.root }

theorem World.NoHandles.entry (h : w.NoHandles) (p : Nat × Nat) : w.entry p = 0 :=
  entryObj_of_le (by rw [(h p.1).2.1]; exact Nat.zero_le _)

theorem World.NoHandles.tables (h : w.NoHandles) (i : Nat) : TableInv (w.tasks i).table := by
  obtain ⟨hhandles, hcap, hpages⟩ := h i
  refine ⟨hpages, fun _ => hcap, fun hne => absurd hhandles hne, ?_, fun j hj => ?_⟩
  · rw [hcap]
    exact Nat.zero_le _
  · rw [hcap] at hj
    exact absurd hj (Nat.not_lt_zero _)

/-- The counts are right when the system has started. -/
theorem World.Started.counted (h : w.Started) :
    Counted (fun o => w.live o ∧ (w.objs o).permanent) w 0 := by
  have hnone := h.noHandles.entry
  have hbase : w.Base := ⟨h.inv, h.noHandles.tables⟩
  refine ⟨hbase, fun p _ hne => absurd (hnone p) hne, fun o ho => ?_, fun _ ho => ho, h.root⟩
  have hzero : w.openHandles o = 0 := by
    refine count_eq_zero.mpr fun p _ => ?_
    rw [hnone]
    exact Ne.symm (hbase.ne_zero ho)
  have hpos := (h.inv.body o ho).2.1
  rw [hzero, if_neg (hbase.ne_zero ho)]
  split <;> omega

theorem Counted.run (h : Counted keep w 0) {calls : List ObjectCall}
    (hlegal : Runs.AlongAll ObjectCall.step ObjectCall.Legal calls w)
    (hcounts : Runs.AlongAll ObjectCall.step ObjectCall.Counts calls w) :
    ∃ w', Runs.afterAll ObjectCall.step w calls = some w' ∧ Counted keep w' 0 :=
  (hlegal.and hcounts).invariant (I := fun w => Counted keep w 0)
    (fun c _ hinv hc => (countedRule keep).step c hinv hc.1 (hinv.fits hc.1 hc.2)) h

/-- In a run that gives no reference away twice every call ends, the counts cover the handles, and
no object that was once permanent is destroyed. -/
theorem objectRun_countsSound (w : World) (hstart : w.Started) (before after : List ObjectCall)
    (hlegal : Runs.AlongAll ObjectCall.step ObjectCall.Legal (before ++ after) w)
    (hcounts : Runs.AlongAll ObjectCall.step ObjectCall.Counts (before ++ after) w) :
    ∃ w₁ w₂, Runs.afterAll ObjectCall.step w before = some w₁ ∧
      Runs.afterAll ObjectCall.step w₁ after = some w₂ ∧ w₁.CountsSound ∧ w₂.CountsSound ∧
      ∀ obj, w₁.live obj → (w₁.objs obj).permanent → w₂.live obj ∧ (w₂.objs obj).permanent := by
  obtain ⟨w₁, hrun₁, h₁⟩ := hstart.counted.run hlegal.left hcounts.left
  obtain ⟨w₂, hrun₂, h₂⟩ := h₁.permanent.run (hlegal.right hrun₁) (hcounts.right hrun₁)
  exact ⟨w₁, w₂, hrun₁, hrun₂, h₁.sound, h₂.sound,
    fun obj hlive hperm => h₂.kept obj ⟨hlive, hperm⟩⟩

/-- Before `obj_init`, with 20 bodies in the pool. Task 0 runs as user 0. -/
def bareWorld : World where
  objs _ := {}
  nodes _ := {}
  live _ := false
  pool := (List.range 20).map fun i => 0x1000000 + 512 * i
  grants := List.replicate 60 true
  tasks i :=
    { table := { mem := fun _ => 0, pages := [0x900000] }, pid := i, euid :=
      if i = 0 then 0 else 1000, sess := 1 }
  ownerLive _ := 0
  root := 0
  onwLinks := 0

/-- A permanent root with one more body in the pool. -/
def rootWorld : World :=
  { bareWorld with
    objs := fun a => if a = 0x1000000 then { permanent := true, refs := 1 } else {}
    live := fun a => a = 0x1000000
    pool := [0x1000200]
    root := 0x1000000 }

theorem bareWorld_noHandles : bareWorld.NoHandles := fun _ => ⟨rfl, rfl, tablePages_singleton⟩

theorem rootWorld_started : rootWorld.Started := by
  have hlive : ∀ a, rootWorld.live a → a = 0x1000000 := fun a ha => of_decide_eq_true ha
  have hthreaded : Threaded rootWorld.nodes rootWorld.live fun _ => [] :=
    ⟨fun _ => rfl, fun _ => List.nodup_nil, rfl, fun _ _ ha => absurd ha List.not_mem_nil⟩
  refine ⟨⟨⟨List.nodup_singleton _, fun body hbody => ?_, fun obj hobj => ?_, _, hthreaded⟩,
    fun _ => ⟨rfl, rfl⟩⟩, bareWorld_noHandles, rfl, rfl⟩
  · obtain rfl := List.mem_singleton.mp hbody
    exact ⟨by decide, by decide, by decide⟩
  · obtain rfl := hlive obj hobj
    exact ⟨⟨by decide, by decide⟩, by decide, rfl⟩

/-- An object is made in the root and its handle closed, which destroys it. -/
theorem objectRun_countsSound_createClose :
    ∃ w₁ w₂, Runs.afterAll ObjectCall.step rootWorld
      [.create (some 0) (some [separator, 0x41]) 1 1 2] = some w₁ ∧
      Runs.afterAll ObjectCall.step w₁ [.closes (some 0) 0x40000] = some w₂ ∧ w₁.CountsSound ∧
      w₂.CountsSound ∧
      ∀ obj, w₁.live obj → (w₁.objs obj).permanent → w₂.live obj ∧ (w₂.objs obj).permanent := by
  refine objectRun_countsSound rootWorld rootWorld_started _ _
    ⟨?_, fun _ _ => ⟨?_, fun _ _ => trivial⟩⟩
    ⟨⟨?_, fun place w' hplace hne => ?_⟩, fun _ _ => ⟨trivial, fun _ _ => trivial⟩⟩
  · rintro i ⟨⟩
    decide
  · rintro i ⟨⟩
    decide
  · rintro i ⟨⟩ hne
    exact absurd rfl hne
  · have hfree : ((createPlace (some 0) (some [separator, 0x41])).run rootWorld).map
        (fun r => r.1.toOption.map Place.existing) = some (some 0) := by
      decide +kernel
    rw [hplace] at hfree
    exact absurd (Option.some.inj (Option.some.inj hfree)) hne

/-- A task of user 0 opens `\KernelObjects` with `sys_object_create` and closes the handle, and the
permanent directory is gone. -/
theorem openedDirectory_destroyed :
    ∃ w₁ w₂, objInit.run bareWorld = some (true, w₁) ∧
      Runs.AlongAll ObjectCall.step ObjectCall.Legal
        [.create (some 0) (some (separator :: nameKernelObjects)) 0 1 1,
          .closes (some 0) 0x40000] w₁ ∧
      Runs.afterAll ObjectCall.step w₁
        [.create (some 0) (some (separator :: nameKernelObjects)) 0 1 1, .closes (some 0) 0x40000] =
        some w₂ ∧
      w₁.live 0x1000200 ∧ (w₁.objs 0x1000200).permanent ∧ w₂.live 0x1000200 = false := by
  have hrun : ((objInit.run bareWorld).bind fun r => (Runs.afterAll ObjectCall.step r.2
      [.create (some 0) (some (separator :: nameKernelObjects)) 0 1 1,
        .closes (some 0) 0x40000]).map
        fun w₂ => (r.1, r.2.live 0x1000200, (r.2.objs 0x1000200).permanent, w₂.live 0x1000200)) =
      some (true, true, true, false) := by
    decide +kernel
  obtain ⟨⟨made, w₁⟩, hinit, hcalls⟩ := Option.bind_eq_some_iff.mp hrun
  obtain ⟨w₂, hafter, hvals⟩ := Option.map_eq_some_iff.mp hcalls
  simp only [Prod.mk.injEq] at hvals
  obtain ⟨rfl, hlive, hperm, hgone⟩ := hvals
  refine ⟨w₁, w₂, hinit, ⟨?_, fun _ _ => ⟨?_, fun _ _ => trivial⟩⟩, hafter, hlive, hperm, hgone⟩
  · rintro i ⟨⟩
    decide
  · rintro i ⟨⟩
    decide

end Mellivora
