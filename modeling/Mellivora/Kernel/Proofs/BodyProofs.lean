import Mellivora.Kernel.Proofs.ObjectProofs

/-!
# Proofs: bodies along the changes

Bodies are in the pool or handed out, the ones handed out are referenced, and the sibling lists are
whole, after each change that the object calls are made up of.
-/

namespace Mellivora

open Function List

variable {w w' : World} {obj i index : Nat}

theorem World.Bodies.recount (h : w.Bodies) (hlive : w'.live = w.live) (hpool : w'.pool = w.pool)
    (hnodes : w'.nodes = w.nodes)
    (hobjs : ∀ a, (w.objs a).refs ≤ (w'.objs a).refs ∧ (w'.objs a).deleting = (w.objs a).deleting) :
    w'.Bodies := by
  refine ⟨?_, ?_, fun a ha => ?_, ?_⟩
  · rw [hpool]
    exact h.pool
  · rw [hpool, hlive]
    exact h.free
  · rw [hlive] at ha
    obtain ⟨hptr, hpos, hdel⟩ := h.body a ha
    exact ⟨hptr, hpos.trans_le (hobjs a).1, (hobjs a).2.trans hdel⟩
  · rw [hnodes, hlive]
    exact h.threaded

theorem World.Bodies.quiet (h : w.Bodies) (hquiet : w.Quiet w') : w'.Bodies :=
  h.recount hquiet.live hquiet.pool hquiet.nodes fun a =>
    ⟨(hquiet.refs a).ge, congrArg (fun c => c.2.2.1) (hquiet.core a)⟩

theorem World.Base.bodies (h : w.Base) : w.Bodies := h.inv.toBodies

theorem World.Base.of_bodies (h : w.Base) (hbodies : w'.Bodies)
    (htokens : ∀ j, (w'.tasks j).token = (w.tasks j).token ∧
      (w'.tasks j).procObj = (w.tasks j).procObj)
    (htables : ∀ j, TableInv (w'.tasks j).table) : w'.Base := by
  refine ⟨{ hbodies with tasks := fun j => ?_ }, htables⟩
  rw [(htokens j).1, (htokens j).2]
  exact h.inv.tasks j

theorem World.Base.quiet (h : w.Base) (hquiet : w.Quiet w') : w'.Base :=
  h.of_bodies (h.bodies.quiet hquiet) hquiet.tokens (hquiet.tables h.table)

theorem World.Bodies.ne_zero (h : w.Bodies) (hlive : w.live obj) :
    obj ≠ 0 := (h.body obj hlive).1.ne_zero

/-- A new body keeps the pool and the live bodies apart. -/
theorem World.Bodies.takes (h : w.Bodies) (htakes : w.Takes obj w') : w'.Bodies := by
  have hpool := h.pool
  have hfree := h.free
  rw [htakes.pool] at hpool hfree
  obtain ⟨hdead, hptr⟩ := hfree obj (mem_cons_self ..)
  refine ⟨(nodup_cons.mp hpool).2, fun body hbody => ?_, fun a ha => ?_, ?_⟩
  · obtain ⟨hlive, hbodyPtr⟩ := hfree body (mem_cons_of_mem _ hbody)
    refine ⟨?_, hbodyPtr⟩
    rw [htakes.live, update_of_ne]
    · exact hlive
    · rintro rfl
      exact (nodup_cons.mp hpool).1 hbody
  · by_cases heq : a = obj
    · rw [heq]
      exact ⟨hptr, by rw [htakes.fresh.1]; exact Nat.one_pos, htakes.fresh.2.2⟩
    · rw [htakes.live, update_of_ne heq] at ha
      rw [htakes.objs a heq]
      exact h.body a ha
  · obtain ⟨kids, hkids⟩ := h.threaded
    rw [htakes.nodes, htakes.live]
    exact ⟨_, hkids.take hdead hptr.ne_zero⟩

theorem World.Base.takes (h : w.Base) (htakes : w.Takes obj w') : w'.Base := by
  have hbodies := h.bodies.takes htakes
  refine ⟨{ hbodies with tasks := ?_ }, ?_⟩
  · rw [htakes.tasks]
    exact h.inv.tasks
  · rw [htakes.tasks]
    exact h.table

theorem World.Base.link {parent : Nat} (h : w.Base) (name : ObjName) (hlive : w.live obj)
    (hblank : w.nodes obj = {}) (hparent : w.live parent) (hne : obj ≠ parent) :
    World.Base { w with nodes := linkNodes w.nodes obj name parent } := by
  obtain ⟨kids, hkids⟩ := h.inv.threaded
  have hlink := hkids.link (by rw [hblank]) hlive (h.ne_zero hlive) (h.ne_zero hparent) hne name
  exact ⟨{ h.inv with threaded := ⟨_, hlink⟩ }, h.table⟩

/-- An open keeps the bodies and the tables. -/
theorem World.Base.opens (h : w.Base) (hopens : w.Opens i index obj w') : w'.Base := by
  refine h.of_bodies (h.bodies.recount hopens.live hopens.pool hopens.nodes fun a => ?_)
    hopens.tokens hopens.tables
  by_cases heq : a = obj
  · have hrefs := congrArg (fun c => c.2.2.2) hopens.counted
    have hdeleting := congrArg (fun c => c.2.2.1) hopens.counted
    rw [heq]
    exact ⟨(Nat.le_succ _).trans_eq hrefs.symm, hdeleting⟩
  · have hcore := hopens.core a heq
    exact ⟨(congrArg (fun c => c.2.2.2) hcore).ge, congrArg (fun c => c.2.2.1) hcore⟩

theorem World.Base.closes (h : w.Base) (hcloses : w.Closes i index w') : w'.Base := by
  refine h.of_bodies (h.bodies.recount hcloses.live hcloses.pool hcloses.nodes fun a => ?_)
    hcloses.tokens hcloses.tables
  have hcore := hcloses.core a
  exact ⟨(congrArg (fun c => c.2.2.2) hcore).ge, congrArg (fun c => c.2.2.1) hcore⟩

theorem World.Base.setObj (h : w.Base) {f : Obj → Obj} (hpos : 0 < (f (w.objs obj)).refs)
    (hdel : (f (w.objs obj)).deleting = (w.objs obj).deleting) : (w.setObj obj f).Base := by
  refine ⟨{ h.inv with body := fun a ha => ?_ }, h.table⟩
  obtain ⟨hptr, hold, hdeleting⟩ := h.inv.body a ha
  by_cases heq : a = obj
  · rw [heq] at hptr hdeleting ⊢
    rw [objs_set_self]
    exact ⟨hptr, hpos, hdel.trans hdeleting⟩
  · rw [objs_set_of_ne heq]
    exact ⟨hptr, hold, hdeleting⟩

/-- A body that is destroyed goes back to the pool. -/
theorem World.Bodies.destroy (h : w.Bodies) (hlive : w.live obj) (hdestroys : w.Destroys obj w') :
    w'.Bodies := by
  have hnot : obj ∉ w.pool := by
    intro hmem
    have hdead := (h.free obj hmem).1
    cases hlive.symm.trans hdead
  refine ⟨?_, fun body hbody => ?_, fun a ha => ?_, ?_⟩
  · rw [hdestroys.pool]
    exact nodup_cons.mpr ⟨hnot, h.pool⟩
  · rw [hdestroys.pool] at hbody
    rw [hdestroys.live]
    rcases mem_cons.mp hbody with rfl | hfree
    · rw [update_self]
      exact ⟨rfl, (h.body body hlive).1⟩
    · rw [update_of_ne]
      · exact h.free body hfree
      · rintro rfl
        exact hnot hfree
  · have hne : a ≠ obj := by
      rintro rfl
      rw [hdestroys.live, update_self] at ha
      cases ha
    rw [hdestroys.live, update_of_ne hne] at ha
    rw [hdestroys.objs a hne]
    exact h.body a ha
  · obtain ⟨kids, hkids⟩ := h.threaded
    obtain ⟨nodes, hunlink, -, hthreaded⟩ :=
      hkids.nsUnlink (fun a ha => (h.body a ha).1.2) (h.ne_zero hlive)
    obtain rfl : nodes = w'.nodes := Option.some.inj (hunlink.symm.trans hdestroys.nodes)
    rw [hdestroys.live]
    exact ⟨_, hthreaded⟩

/-- A destroy keeps the bodies and the tables. -/
theorem World.Base.destroy (h : w.Base) (hlive : w.live obj) (hdestroys : w.Destroys obj w') :
    w'.Base := by
  have hbodies := h.bodies.destroy hlive hdestroys
  refine ⟨{ hbodies with tasks := ?_ }, ?_⟩
  · rw [hdestroys.tasks]
    exact h.inv.tasks
  · rw [hdestroys.tasks]
    exact h.table

theorem World.Base.vacate (h : w.Base) :
    (w.setTask i fun t => { t with table := t.table.dropped }).Base := by
  refine ⟨{ h.inv with tasks := fun j => ?_ }, ?_⟩
  · have htokens := tokens_setTask (w := w) (i := i) (w.tasks i).table.dropped j
    have hold := h.inv.tasks j
    exact ⟨htokens.1.trans hold.1, htokens.2.trans hold.2⟩
  · exact tables_setTask h.table (h.table i).dropped

theorem entry_vacate (hfree : ∀ n, w.entry (i, n) = 0) :
    (w.setTask i fun t => { t with table := t.table.dropped }).entry = w.entry := by
  have hsame : (w.tasks i).table.dropped.entryObj = (w.tasks i).table.entryObj := by
    rw [entryObj_dropped]
    funext n
    exact (hfree n).symm
  exact entry_setTask_same hsame

end Mellivora
