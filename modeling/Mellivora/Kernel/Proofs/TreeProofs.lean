import Mellivora.Kernel.Proofs.RefCountProofs

/-!
# Proofs: the namespace is a tree

The way from an object up to the root is an inductive relation, `Below`, with its length. A change
is made at one object that is nobody's parent, so the ways of the others stay.
-/

namespace Mellivora

open Outcome Counting Linked Function List Option

variable {a held' n : Nat} {w w' : World} {kids : Nat → List Nat} {held obj i index : Nat}

/-- Going up from an object ends at the root after a number of steps. -/
inductive Below (w : World) : Nat → Nat → Prop
  | root : Below w 0 w.root
  | child {n a : Nat} (hlive : w.live a) (hin : (w.nodes a).inNs)
    (hparent : Below w n (w.nodes a).parent) :
      Below w (n + 1) a

theorem Below.iterate (h : Below w n a) : (fun a => (w.nodes a).parent)^[n] a = w.root := by
  induction h with
  | root => rfl
  | child _ _ _ ih =>
    rw [iterate_succ_apply]
    exact ih

/-- The depth check bounds how far down an object is. -/
theorem Below.lt_of_depthOk {left : Nat} (h : Below w n a) (hzero : w.root ≠ 0)
    (hlive : ∀ a, w.live a → a ≠ 0) (hdepth : depthOk w.nodes left a) : n < left := by
  induction h generalizing left with
  | root =>
    cases left with
    | zero => exact absurd (of_decide_eq_true hdepth) hzero
    | succ left => exact Nat.succ_pos left
  | child ha _ _ ih =>
    cases left with
    | zero => exact absurd (of_decide_eq_true hdepth) (hlive _ ha)
    | succ left =>
      rw [depthOk, Bool.or_eq_true, decide_eq_true_eq] at hdepth
      exact Nat.succ_lt_succ (ih (hdepth.resolve_left (hlive _ ha)))

theorem Below.congr (h : Below w n a) (hne : a ≠ obj) (hroot : w'.root = w.root)
    (hkeep : ∀ a, a ≠ obj → w.live a → (w.nodes a).inNs →
      w'.live a ∧ (w'.nodes a).inNs ∧ (w'.nodes a).parent = (w.nodes a).parent ∧
      (w.nodes a).parent ≠ obj) :
    Below w' n a := by
  induction h with
  | root =>
    rw [← hroot]
    exact .root
  | child ha hin _ ih =>
    obtain ⟨hlive', hin', hparent', hobj⟩ := hkeep _ hne ha hin
    refine .child hlive' hin' ?_
    rw [hparent']
    exact ih hobj

/-- The namespace below the root, which always keeps a reference of its own. -/
structure Tree (w : World) (kids : Nat → List Nat) (held : Nat) : Prop where
  base : w.Base
  threaded : Threaded w.nodes w.live kids
  root : w.live w.root
  top : (w.nodes w.root).inNs = false
  spare : w.openHandles w.root + (if w.root = held then 1 else 0) < (w.objs w.root).refs
  homed : ∀ o, w.live o → (w.nodes o).inNs →
    w.live (w.nodes o).parent ∧ (w.objs (w.nodes o).parent).type = .directory ∧
    o ∈ kids (w.nodes o).parent
  depth : ∀ o, w.live o → (w.nodes o).inNs → ∃ n ≤ objMaxDepth, Below w n o
  names : ∀ dir, (kids dir).Pairwise fun a b => ¬ sameName (w.nodes a).name (w.nodes b).name

attribute [local grind cases] Tree

/-- A tree is well formed. -/
theorem Tree.wellFormed (h : Tree w kids held) : w.WellFormed := by
  refine ⟨kids, fun dir _ => h.threaded.chain dir, fun o ho => ?_, fun dir _ => h.names dir⟩
  have hin : w.live o ∧ (w.nodes o).inNs := by
    rcases ho with ho | ⟨dir, -, hkid⟩
    · exact ho
    · obtain ⟨hlive, hin, -⟩ := h.threaded.kid dir o hkid
      exact ⟨hlive, hin⟩
  obtain ⟨hparent, htype, hkid⟩ := h.homed o hin.1 hin.2
  obtain ⟨n, hn, hbelow⟩ := h.depth o hin.1 hin.2
  exact ⟨hin.1, hparent, htype, count_eq_one_of_mem (h.threaded.nodup _) hkid, n, hn,
    hbelow.iterate⟩

theorem Tree.ne_root (h : Tree w kids held) (hin : (w.nodes obj).inNs) : obj ≠ w.root := by
  rintro rfl
  rw [h.top] at hin
  cases hin

theorem Tree.parent_ne (h : Tree w kids held) (hchild : (w.nodes obj).child = 0) (ha : w.live a)
    (hin : (w.nodes a).inNs) : (w.nodes a).parent ≠ obj := by
  intro heq
  have hkid := (h.homed a ha hin).2.2
  have hchain := h.threaded.chain obj
  rw [hchild] at hchain
  rw [heq, hchain.unique (show Chain (fun a => (w.nodes a).next) 0 0 [] from rfl)] at hkid
  exact absurd hkid not_mem_nil

/-- Any other object can be held, and the root where its references allow it. -/
theorem Tree.hold (h : Tree w kids held)
    (hspare : w.openHandles w.root + (if w.root = held' then 1 else 0) < (w.objs w.root).refs) :
    Tree w kids held' :=
  { h with spare := hspare }

theorem Tree.leak (h : Tree w kids held) : Tree w kids 0 := by
  refine h.hold ?_
  have hold := h.spare
  rw [if_neg (h.base.ne_zero h.root)]
  omega

theorem Tree.borrow (h : Tree w kids 0) (hin : (w.nodes obj).inNs) : Tree w kids obj := by
  refine h.hold ?_
  have hold := h.spare
  rw [if_neg (Ne.symm (h.ne_root hin))]
  omega

theorem Tree.of_links (h : Tree w kids held) (hbase : w'.Base) (hlive : w'.live = w.live)
    (hroot : w'.root = w.root) (hnodes : w'.nodes = w.nodes)
    (htype : ∀ a, (w'.objs a).type = (w.objs a).type)
    (hspare : w'.openHandles w.root + (if w.root = held' then 1 else 0) < (w'.objs w.root).refs) :
    Tree w' kids held' := by
  refine ⟨hbase,
    hnodes ▸ hlive ▸
    h.threaded, by rw [hlive, hroot]; exact h.root, by rw [hnodes, hroot]; exact h.top,
    hroot ▸ hspare, ?_, fun o ho hin => ?_, hnodes ▸ h.names⟩
  · rw [hlive, hnodes]
    simpa only [htype] using h.homed
  rw [hlive] at ho
  rw [hnodes] at hin
  obtain ⟨n, hn, hbelow⟩ := h.depth o ho hin
  -- No object has the address 0, so the change is at nobody.
  refine ⟨n, hn, hbelow.congr (h.base.ne_zero ho) hroot fun a _ ha hina => ?_⟩
  rw [hlive, hnodes]
  exact ⟨ha, hina, rfl, h.base.ne_zero (h.homed a ha hina).1⟩

theorem Tree.quiet (h : Tree w kids held) (hquiet : w.Quiet w') : Tree w' kids held := by
  refine h.of_links (h.base.quiet hquiet) hquiet.live hquiet.root hquiet.nodes hquiet.type ?_
  rw [World.openHandles, hquiet.entry, hquiet.refs]
  exact h.spare

theorem Tree.setObj {f : Obj → Obj} (h : Tree w kids held) (hbase : (w.setObj obj f).Base)
    (htype : (f (w.objs obj)).type = (w.objs obj).type)
    (hspare : w.openHandles w.root + (if w.root = held' then 1 else 0) <
      ((w.setObj obj f).objs w.root).refs) :
    Tree (w.setObj obj f) kids held' := by
  refine h.of_links hbase rfl rfl rfl (fun a => ?_) hspare
  by_cases heq : a = obj
  · rw [heq, objs_set_self]
    exact htype
  · rw [objs_set_of_ne heq]

/-- A new object has no place yet. -/
theorem Tree.takes (h : Tree w kids 0) (htakes : w.Takes obj w') :
    Tree w' (Function.update kids obj []) obj := by
  have hdead : w.live obj = false := (h.base.inv.free obj (htakes.pool ▸ mem_cons_self ..)).1
  have hbase := h.base.takes htakes
  have hzero : obj ≠ 0 := hbase.ne_zero (htakes.live ▸ update_self ..)
  have hlive := htakes.live_apply
  have hnodes := htakes.nodes_apply
  have hhomed := h.homed
  have hroot := h.root
  refine ⟨hbase, ?_, ?_, ?_, ?_, ?_, fun o ho hin => ?_, fun dir => ?_⟩
  · rw [htakes.nodes, htakes.live]
    exact h.threaded.take hdead hzero
  · grind [htakes.root]
  · grind [htakes.root, h.top]
  · have hspare := h.spare
    rw [World.openHandles, World.entry_congr htakes.tasks]
    grind [World.openHandles, htakes.root, htakes.objs]
  · grind [htakes.objs]
  · obtain ⟨n, hn, hbelow⟩ := h.depth o (by grind) (by grind)
    have hother : o ≠ obj := by grind
    exact ⟨n, hn, hbelow.congr hother htakes.root (by grind)⟩
  · by_cases hdir : dir = obj
    · rw [hdir, update_self]
      exact List.Pairwise.nil
    · rw [update_of_ne hdir]
      refine (h.names dir).imp_of_mem fun {a b} ha hb hdiff => ?_
      grind [h.threaded.kid dir a ha, h.threaded.kid dir b hb]

/-- Below an object that is not the root there is a child of the root. -/
theorem Tree.exists_kid_root (h : Tree w kids held) (hbelow : Below w n a) (hne : a ≠ w.root) :
    kids w.root ≠ [] := by
  induction hbelow with
  | root => exact absurd rfl hne
  | @child n a ha hin _ ih => grind

theorem Tree.placed_below (h : Tree w kids held) (hplaced : w.Placed obj) : ∃ n, Below w n obj := by
  rcases hplaced.2 with rfl | hin
  · exact ⟨0, .root⟩
  · obtain ⟨n, -, hbelow⟩ := h.depth obj hplaced.1 hin
    exact ⟨n, hbelow⟩

/-- An object gets a name in a directory that has no child of that name and is not too deep. -/
theorem Tree.link {name : ObjName} {parent : Nat} (h : Tree w kids obj) (hlive : w.live obj)
    (hblank : w.nodes obj = {}) (hparent : w.Placed parent) (hne : obj ≠ parent)
    (hdir : (w.objs parent).type = .directory) (hdepth : depthOk w.nodes objMaxDepth parent)
    (hfind : nsFindChild w.nodes parent name = some 0) (hlen : name.length ≤ objNameMax) :
    Tree { w with nodes := linkNodes w.nodes obj name parent }
      (Function.update kids parent (obj :: kids parent)) obj := by
  have hbase := h.base.link name hlive hblank hparent.1 hne
  have hout : (w.nodes obj).inNs = false := by rw [hblank]
  have hchild : (w.nodes obj).child = 0 := by rw [hblank]
  obtain ⟨n, hbelow⟩ := h.placed_below hparent
  have hrootNe : w.root ≠ obj := by
    rintro rfl
    have hchain := h.threaded.chain w.root
    rw [hchild] at hchain
    exact h.exists_kid_root hbelow (Ne.symm hne)
      (hchain.unique (show Chain (fun a => (w.nodes a).next) 0 0 [] from rfl))
  have hother : ∀ a, a ≠ obj → (linkNodes w.nodes obj name parent a).inNs = (w.nodes a).inNs ∧
      (linkNodes w.nodes obj name parent a).parent = (w.nodes a).parent ∧
      (linkNodes w.nodes obj name parent a).name = (w.nodes a).name :=
      fun a ha => linkNodes_of_ne hne ha
  have hself := linkNodes_obj w.nodes name hne
  have hkidNe : ∀ dir, ∀ a ∈ kids dir, a ≠ obj := by grind [h.threaded.kid]
  have hways : ∀ {n a}, Below w n a → a ≠ obj →
    Below { w with nodes := linkNodes w.nodes obj name parent } n a := by
    intro n a hbelow ha
    refine hbelow.congr ha rfl fun b hb hlive hin => ?_
    obtain ⟨hin', hparent', -⟩ := hother b hb
    exact ⟨hlive, hin'.trans hin, hparent', h.parent_ne hchild hlive hin⟩
  refine ⟨hbase, ?_, h.root, ?_, h.spare, fun o ho hin => ?_, fun o ho hin => ?_, fun dir => ?_⟩
  · exact h.threaded.link hout hlive (h.base.ne_zero hlive) (h.base.ne_zero hparent.1) hne name
  · exact (hother _ hrootNe).1.trans h.top
  · have hhomed := h.homed
    have hplace := hparent.1
    grind [update_apply]
  · by_cases heq : o = obj
    · subst heq
      refine ⟨n + 1, hbelow.lt_of_depthOk (h.base.ne_zero h.root)
        (fun a ha => h.base.ne_zero ha) hdepth,
        .child ho hin ?_⟩
      simp only [hself]
      exact hways hbelow (Ne.symm hne)
    · grind
  · have hpair : (kids dir).Pairwise fun a b =>
      ¬ sameName (linkNodes w.nodes obj name parent a).name
        (linkNodes w.nodes obj name parent b).name := by
      refine (h.names dir).imp_of_mem fun {a b} ha hb hdiff => ?_
      rw [(hother a (hkidNe dir a ha)).2.2, (hother b (hkidNe dir b hb)).2.2]
      exact hdiff
    by_cases hdirEq : dir = parent
    · rw [hdirEq] at hpair ⊢
      rw [update_self]
      refine pairwise_cons.mpr ⟨fun b hb hsame => ?_, hpair⟩
      obtain ⟨a, hfound, hcase⟩ :=
        h.threaded.nsFindChild (fun a => h.base.lt) (h.base.ne_zero hparent.1) name
      obtain rfl : a = 0 := some.inj (hfound.symm.trans hfind)
      rcases hcase with ⟨-, hnone⟩ | ⟨hkid, -⟩
      · have hdiff := hnone b hb
        dsimp only at hsame
        rw [hself, (hother b (hkidNe _ b hb)).2.2] at hsame
        rw [segMatch, decide_eq_true hlen, decide_eq_true hsame] at hdiff
        cases hdiff
      · exact h.threaded.ne_zero hkid rfl
    · rw [update_of_ne hdirEq]
      exact hpair

/-- An object that has no children and is not the root is given back. -/
theorem Tree.destroy (h : Tree w kids obj) (hlive : w.live obj) (hlast : (w.objs obj).refs = 1)
    (hchild : (w.nodes obj).child = 0) (hdestroys : w.Destroys obj w') :
    Tree w' (fun dir => (kids dir).erase obj) 0 := by
  have hbase := h.base.destroy hlive hdestroys
  have hrootNe : w.root ≠ obj := by grind
  obtain ⟨nodes, hunlink, hout, hthreaded⟩ :=
    h.threaded.nsUnlink (fun a => h.base.lt) (h.base.ne_zero hlive)
  obtain rfl : nodes = w'.nodes := some.inj (hunlink.symm.trans hdestroys.nodes)
  have hlive' := hdestroys.live_apply
  have hparent := fun a => h.parent_ne hchild (a := a)
  have hhomed := h.homed
  have hother := hout.other
  have hgone := hout.out
  refine ⟨hbase, ?_, ?_, ?_, ?_, ?_, fun o ho hin => ?_, fun dir => ?_⟩
  · rw [hdestroys.live]
    exact hthreaded
  · grind [hdestroys.root, h.root]
  · grind [hdestroys.root, h.top]
  · have hspare := h.spare
    rw [World.openHandles, World.entry_congr hdestroys.tasks]
    grind [World.openHandles, hdestroys.root, hdestroys.objs, h.base.ne_zero h.root]
  · grind [hdestroys.objs]
  · obtain ⟨n, hn, hbelow⟩ := h.depth o (by grind) (by grind)
    have hne : o ≠ obj := by grind
    exact ⟨n, hn, hbelow.congr hne hdestroys.root (by grind)⟩
  · have hpair : (kids dir).Pairwise fun a b => ¬ sameName (w'.nodes a).name (w'.nodes b).name := by
      refine (h.names dir).imp fun {a b} hdiff => ?_
      rw [hout.name, hout.name]
      exact hdiff
    exact hpair.sublist erase_sublist

/-- A handle more leaves the tree. -/
theorem Tree.opens (h : Tree w kids held) (hi : i < maxTasks) (hindex : index < handleMaxCap)
    (hopens : w.Opens i index obj w') : Tree w' kids held := by
  have hspare := h.spare
  have hcount := count_update (mem_handleSlots hi hindex) w.entry obj w.root
  rw [hopens.free, if_neg (Ne.symm (h.base.ne_zero h.root))] at hcount
  refine h.of_links (h.base.opens hopens) hopens.live hopens.root hopens.nodes (fun a => ?_) ?_
  · by_cases heq : a = obj
    · rw [heq]
      exact congrArg (fun c => c.1) hopens.counted
    · exact congrArg (fun c => c.1) (hopens.core a heq)
  rw [World.openHandles, hopens.entry]
  unfold World.openHandles at hspare
  by_cases heq : obj = w.root
  · have hrefs : (w'.objs obj).refs = (w.objs obj).refs + 1 :=
      congrArg (fun c => c.2.2.2) hopens.counted
    rw [if_pos heq] at hcount
    rw [heq] at hrefs hcount ⊢
    omega
  · have hrefs : (w'.objs w.root).refs = (w.objs w.root).refs :=
      congrArg (fun c => c.2.2.2) (hopens.core w.root (Ne.symm heq))
    rw [if_neg heq] at hcount
    omega

/-- A handle less leaves the tree. -/
theorem Tree.closes (h : Tree w kids 0) (hi : i < maxTasks) (hindex : index < handleMaxCap)
    (hcloses : w.Closes i index w') : Tree w' kids (w.entry (i, index)) := by
  have hspare := h.spare
  have hcount := count_update (mem_handleSlots hi hindex) w.entry 0 w.root
  rw [if_neg (Ne.symm (h.base.ne_zero h.root))] at hcount
  refine h.of_links (h.base.closes hcloses) hcloses.live hcloses.root hcloses.nodes
    (fun a => congrArg (fun c => c.1) (hcloses.core a)) ?_
  have hrefs : (w'.objs w.root).refs = (w.objs w.root).refs :=
    congrArg (fun c => c.2.2.2) (hcloses.core w.root)
  rw [World.openHandles, hcloses.entry, hrefs, if_congr (eq_comm (a := w.root)) rfl rfl]
  unfold World.openHandles at hspare
  omega

/-- The namespace is a tree. -/
def HasTree (w : World) (held : Nat) : Prop := ∃ kids, Tree w kids held

/-- Being a tree survives every change the calls are made of. -/
theorem treeRule : ObjectRule True HasTree where
  base h := h.choose_spec.base
  root h := h.choose_spec.root
  quiet h hquiet := ⟨_, h.choose_spec.quiet hquiet⟩
  takes h htakes := ⟨_, h.choose_spec.takes htakes⟩
  link h hlive hblank hparent hne hdir hdepth hfind hlen :=
    ⟨_, h.choose_spec.link hlive hblank hparent hne (hdir trivial) hdepth hfind hlen⟩
  opens h _ hi hindex hopens := ⟨_, h.choose_spec.opens hi hindex hopens⟩
  closes h hi hindex _ hcloses := ⟨_, h.choose_spec.closes hi hindex hcloses⟩
  spend {w obj} h hlive hmany := by
    obtain ⟨kids, h⟩ := h
    refine ⟨kids, h.setObj (h.base.setObj (by dsimp only; omega) rfl) rfl ?_⟩
    have hspare := h.spare
    rw [if_neg (h.base.ne_zero h.root)]
    by_cases heq : w.root = obj
    · rw [if_pos heq] at hspare
      rw [← heq, objs_set_self]
      dsimp only
      omega
    · rw [objs_set_of_ne heq]
      rw [if_neg heq] at hspare
      exact hspare
  destroy h hlive hlast hchild hdestroys :=
    ⟨_, h.choose_spec.destroy hlive hlast (hchild trivial) hdestroys⟩
  leak h := ⟨_, h.choose_spec.leak⟩
  promote {w obj} h hlive := by
    obtain ⟨kids, h⟩ := h
    have h := h.leak
    refine ⟨kids, h.setObj (h.base.setObj (h.base.inv.body obj hlive).2.1 rfl) rfl ?_⟩
    have hspare := h.spare
    by_cases heq : w.root = obj
    · rw [heq] at hspare ⊢
      rw [objs_set_self]
      exact hspare
    · rw [objs_set_of_ne heq]
      exact hspare
  vacate h hfree := by
    obtain ⟨kids, h⟩ := h
    refine ⟨kids, h.of_links h.base.vacate rfl rfl rfl (fun _ => rfl) ?_⟩
    rw [World.openHandles, entry_vacate hfree]
    exact h.spare

/-- An orderly call is one the rule speaks of. -/
theorem HasTree.fits (h : HasTree w 0) {c : ObjectCall} (horderly : c.Orderly w) :
    c.Fits True HasTree w := by
  cases c with
  | create caller name type rights disposition =>
    refine ⟨horderly.1,
      fun place w' hplace => ⟨fun hne _ => ?_, fun hfree _ => horderly.2 place w' hplace hfree⟩⟩
    obtain ⟨r, w₁, hrun, -, hplaces⟩ := returns_createPlace treeRule caller h name
    obtain ⟨rfl, rfl⟩ := Prod.mk.inj (some.inj (hplace.symm.trans hrun))
    obtain ⟨kids, h⟩ := h
    exact ⟨kids, h.borrow ((hplaces place rfl).2 hne).2⟩
  | opens caller name rights => exact horderly
  | dup caller handle rights => exact horderly
  | closes caller handle =>
    intro i slot hcaller hentry
    have hdrop := horderly i slot hcaller hentry
    exact ⟨hdrop.1, fun _ => hdrop⟩
  | closeAll caller =>
    intro i n w' hcaller hn hrun _ hne
    have hdrop := horderly i n w' hcaller hn hrun hne
    exact ⟨hdrop.1, fun _ => hdrop⟩
  | newNamed type name parent integ => exact fun _ => horderly
  | becomes task pid euid sess => trivial

/-! ## The first objects -/

theorem World.Blank.base (h : w.Blank) : w.Base := by
  refine ⟨⟨⟨h.pool, fun body hbody => ⟨h.live body, h.free body hbody⟩, fun o ho => ?_, fun _ => [],
    ?_⟩, h.tasks⟩,
    h.noHandles.tables⟩
  · rw [h.live] at ho
    cases ho
  · refine ⟨fun dir => ?_, fun _ => nodup_nil, rfl, fun _ _ ha => absurd ha not_mem_nil⟩
    rw [h.nodes]
    rfl

/-- The root is a tree of its own. -/
theorem World.Blank.tree (h : w.Blank) (htakes : w.Takes obj w') :
    HasTree { w' with root := obj } 0 := by
  have hbase := h.base.takes htakes
  have hlive : w'.live obj := by rw [htakes.live, update_self]
  have hblank : w'.nodes obj = {} := by rw [htakes.nodes, update_self]
  have honly : ∀ o, w'.live o → (w'.nodes o).inNs = false := by
    intro o ho
    by_cases heq : o = obj
    · rw [heq, hblank]
    · rw [htakes.live, update_of_ne heq, h.live] at ho
      cases ho
  obtain ⟨kids, hkids⟩ := hbase.inv.threaded
  have hnone : ∀ dir, kids dir = [] := by
    intro dir
    refine eq_nil_iff_forall_not_mem.mpr fun a ha => ?_
    obtain ⟨halive, hin, -⟩ := hkids.kid dir a ha
    rw [honly a halive] at hin
    cases hin
  have hentry : ∀ p, w'.entry p = 0 := by
    intro p
    rw [World.entry, htakes.tasks]
    exact h.noHandles.entry p
  refine ⟨kids, ⟨{ hbase.inv with },
    hbase.table⟩, hkids, hlive, ?_, ?_, fun o ho hin => ?_, fun o ho hin => ?_, fun dir => ?_⟩
  · exact congrArg NsNode.inNs hblank
  · show w'.openHandles obj + (if obj = 0 then 1 else 0) < (w'.objs obj).refs
    have hzero : w'.openHandles obj = 0 := by
      refine count_eq_zero.mpr fun p _ => ?_
      rw [hentry]
      exact Ne.symm (hbase.ne_zero hlive)
    rw [hzero, if_neg (hbase.ne_zero hlive), htakes.fresh.1]
    exact Nat.one_pos
  · exact absurd hin (by rw [honly o ho]; exact Bool.false_ne_true)
  · exact absurd hin (by rw [honly o ho]; exact Bool.false_ne_true)
  · rw [hnone dir]
    exact List.Pairwise.nil

/-- Each directory is made in one that is there. -/
def ParentsMade : Nat → List (ObjName × Nat × Nat) → Prop
  | _, [] => True
  | n, (_, parent, _) :: dirs => parent < n ∧ ParentsMade (n + 1) dirs

theorem parentsMade_initDirs : ParentsMade 1 initDirs := by
  repeat (first | exact trivial | refine ⟨by decide, ?_⟩)

/-- The directories made at the start are in the tree. -/
theorem returns_makeDirs {dirs : List (ObjName × Nat × Nat)} {made : List Nat} (h : HasTree w 0)
    (hmade : ∀ a ∈ made, w.Placed a ∧ (w.objs a).type = .directory)
    (hparents : ParentsMade made.length dirs) :
    Returns (makeDirs made dirs) (fun _ w' => HasTree w' 0) w := by
  induction dirs generalizing w made with
  | nil => exact returns_pure.mpr h
  | cons dir dirs ih =>
  obtain ⟨name, parent, integ⟩ := dir
  have hmem : made.getD parent 0 ∈ made := by
    rw [getD_eq_getElem _ _ hparents.1]
    exact getElem_mem _
  obtain ⟨hplaced, hdir⟩ := hmade _ hmem
  rw [makeDirs, returns_bind]
  refine (returns_objNewNamed treeRule h hplaced (fun _ => hdir) .directory name integ).mono ?_
  rintro o w₁ ⟨h₁, hnew⟩
  by_cases hzero : o = 0
  · rw [if_pos hzero]
    exact returns_pure.mpr h₁
  rw [if_neg hzero]
  obtain ⟨⟨hplaced₁, htype₁⟩, hkeep⟩ := hnew hzero
  refine ih h₁ (fun a ha => ?_) ?_
  · grind
  · rw [length_append]
    exact hparents.2

/-- Where `obj_init` makes everything, there is a tree. -/
theorem returns_objInit (h : w.Blank) :
    Returns objInit (fun made w' => made = true → HasTree w' 0) w := by
  rw [objInit, returns_bind, objAlloc, returns_bind]
  refine (returns_kmemAlloc h.base.zero_notMem).mono ?_
  rintro body w₁ (⟨rfl, -⟩ | ⟨hne, hpool, hlive, hroot, hnodes, hobjs, htasks, -⟩)
  · rw [if_pos rfl, returns_pure, if_pos rfl]
    exact returns_pure.mpr (by simp)
  rw [if_neg hne]
  simp only [returns_rules]
  rw [if_neg hne]
  simp only [returns_rules]
  have htakes :
    w.Takes body (w₁.setObj body fun o => { o with type := .directory, refs := 1 }) := by
    refine ⟨hpool, hlive, hroot, hnodes, fun a ha => ?_, ?_, htasks⟩
    · rw [objs_set_of_ne ha, hobjs, update_of_ne ha]
    · rw [objs_set_self, hobjs, update_self]
      exact ⟨rfl, rfl, rfl⟩
  obtain ⟨kids₁, h₁⟩ := h.tree htakes
  refine (returns_objSecurityAlloc body).mono ?_
  rintro secured w₂ ⟨hquiet₂, -⟩
  have h₂ := h₁.quiet hquiet₂
  have hroot₂ : w₂.root = body := hquiet₂.root
  cases secured with
  | false =>
    rw [if_pos rfl]
    exact returns_pure.mpr (by simp)
  | true =>
  rw [if_neg (by decide), returns_bind, returns_modify, returns_bind]
  have hpos := (h₂.base.inv.body _ h₂.root).2.1
  rw [hroot₂] at hpos
  generalize hw₃ :
    (w₂.setObj body fun o => { o with permanent := true, security := o.security.map fun sd =>
    { sd with integ := integritySystem } }) = w₃
  have h₃ : Tree w₃ kids₁ 0 := by
    rw [← hw₃]
    refine h₂.setObj (h₂.base.setObj hpos rfl) rfl ?_
    have hspare := h₂.spare
    rw [hroot₂] at hspare ⊢
    rw [objs_set_self]
    exact hspare
  have hdir : w₃.Placed body ∧ (w₃.objs body).type = .directory := by
    have hroot₃ := h₃.root
    rw [← hw₃] at hroot₃ ⊢
    refine ⟨⟨hroot₂ ▸ hroot₃, Or.inl hroot₂.symm⟩, ?_⟩
    rw [objs_set_self]
    rw [hquiet₂.type]
    simp only [World.setObj, update_self]
  have hdirs : Returns (makeDirs [body] initDirs) (fun _ w' => HasTree w' 0) w₃ :=
    returns_makeDirs ⟨kids₁, h₃⟩ (fun a ha => mem_singleton.mp ha ▸ hdir) parentsMade_initDirs
  refine hdirs.mono fun made w₄ h₄ => ?_
  cases made with
  | none => exact returns_pure.mpr (by simp)
  | some made =>
    simp only [objMakeWorldAll, returns_rules]
    exact fun _ => treeRule.quiet h₄ (.setObj w₄ _ rfl)

/-! ## Runs -/

/-- From `obj_init` on, in a run that keeps to directories and drops none that has children, every
call ends and the namespace is a tree. -/
theorem objectRun_wellFormed (w w₀ : World) (hblank : w.Blank)
    (hinit : objInit.run w = some (true, w₀))
    (calls : List ObjectCall) (hlegal : Runs.AlongAll ObjectCall.step ObjectCall.Legal calls w₀)
    (horderly : Runs.AlongAll ObjectCall.step ObjectCall.Orderly calls w₀) :
    ∃ w', Runs.afterAll ObjectCall.step w₀ calls = some w' ∧ w'.WellFormed := by
  obtain ⟨made, w₁, hrun, htree⟩ := returns_objInit hblank
  obtain ⟨rfl, rfl⟩ := Prod.mk.inj (some.inj (hinit.symm.trans hrun))
  obtain ⟨w', hafter, kids, h⟩ := (hlegal.and horderly).invariant (I := fun w => HasTree w 0)
    (fun c _ hinv hc => treeRule.step c hinv hc.1 (HasTree.fits hinv hc.2)) (htree rfl)
  exact ⟨w', hafter, h.wellFormed⟩

theorem bareWorld_blank : bareWorld.Blank := by
  refine ⟨?_, fun body hbody => ?_, fun _ => rfl, fun _ => rfl, fun _ => ⟨rfl, rfl⟩,
    bareWorld_noHandles⟩
  · exact List.Nodup.map (fun i j hij => by simpa using hij) nodup_range
  · obtain ⟨i, hi, rfl⟩ := mem_map.mp hbody
    rw [mem_range] at hi
    unfold ObjectPointer kernelReservedEnd
    omega

/-- An object is made in the root, and its handle is closed. -/
theorem objectRun_wellFormed_createClose :
    ∃ w₀, objInit.run bareWorld = some (true, w₀) ∧
      ∃ w', Runs.afterAll ObjectCall.step w₀
        [.create (some 0) (some [separator, 0x41]) 1 1 2, .closes (some 0) 0x40000] = some w' ∧
        w'.WellFormed := by
  have hmade : ((objInit.run bareWorld).map fun r => (r.1, (r.2.tasks 0).table.handles,
      ((createPlace (some 0) (some [separator, 0x41])).run r.2).map fun r' =>
        r'.1.toOption.map fun place => (r.2.objs place.parent).type)) =
      some (true, 0, some (some .directory)) := by
    decide +kernel
  have hopened : ((objInit.run bareWorld).bind fun r =>
      (ObjectCall.step (.create (some 0) (some [separator, 0x41]) 1 1 2) r.2).map fun w₁ =>
        (htEntry (w₁.tasks 0).table 0x40000).map fun slot =>
          (w₁.live ((w₁.tasks 0).table.mem.dword (slot + heObj)),
            (w₁.nodes ((w₁.tasks 0).table.mem.dword (slot + heObj))).child)) =
      some (some (true, 0)) := by
    decide +kernel
  obtain ⟨⟨made, w₀⟩, hinit, hvals⟩ := map_eq_some_iff.mp hmade
  simp only [Prod.mk.injEq] at hvals
  obtain ⟨rfl, hhandles, hplaces⟩ := hvals
  rw [hinit, bind_some] at hopened
  have hcaller : ∀ i, some 0 = some i → i < maxTasks := by
    rintro i ⟨⟩
    decide
  refine ⟨w₀, hinit, objectRun_wellFormed bareWorld w₀ bareWorld_blank hinit _
    ⟨hcaller, fun _ _ => ⟨hcaller, fun _ _ => trivial⟩⟩
    ⟨⟨?_, fun place w' hplace _ => ?_⟩, fun w₁ hw₁ => ⟨?_, fun _ _ => trivial⟩⟩⟩
  · rintro i ⟨⟩ hne
    exact absurd hhandles hne
  · rw [hplace] at hplaces
    exact some.inj (some.inj hplaces)
  · rintro i slot ⟨⟩ hslot
    rw [hw₁, map_some, hslot] at hopened
    obtain ⟨hlive, hchild⟩ := Prod.mk.inj (some.inj (some.inj hopened))
    exact ⟨hlive, fun _ => hchild⟩

/-- The directory `\D` is made, an object in it, and the handle of the directory closed: the
object's parent is gone. -/
theorem closedDirectory_not_wellFormed :
    ∃ w₀ w', objInit.run bareWorld = some (true, w₀) ∧
      Runs.AlongAll ObjectCall.step ObjectCall.Legal
        [.create (some 0) (some [separator, 0x44]) 0 1 2,
          .create (some 0) (some [separator, 0x44, separator, 0x45]) 1 1 2,
          .closes (some 0) 0x40000] w₀ ∧
      Runs.afterAll ObjectCall.step w₀
        [.create (some 0) (some [separator, 0x44]) 0 1 2,
          .create (some 0) (some [separator, 0x44, separator, 0x45]) 1 1 2,
          .closes (some 0) 0x40000] = some w' ∧
      ¬ w'.WellFormed := by
  have hrun : ((objInit.run bareWorld).bind fun r => (Runs.afterAll ObjectCall.step r.2
      [.create (some 0) (some [separator, 0x44]) 0 1 2,
        .create (some 0) (some [separator, 0x44, separator, 0x45]) 1 1 2,
        .closes (some 0) 0x40000]).map
        fun w' => (r.1, w'.live 0x1001400, w'.live 0x1001600, (w'.nodes 0x1001600).inNs,
          (w'.nodes 0x1001600).parent)) =
      some (true, false, true, true, 0x1001400) := by
    decide +kernel
  obtain ⟨⟨made, w₀⟩, hinit, hcalls⟩ := bind_eq_some_iff.mp hrun
  obtain ⟨w', hafter, hvals⟩ := map_eq_some_iff.mp hcalls
  simp only [Prod.mk.injEq] at hvals
  obtain ⟨rfl, hgone, hlive, hin, hparent⟩ := hvals
  have hcaller : ∀ i, some 0 = some i → i < maxTasks := by
    rintro i ⟨⟩
    decide
  refine ⟨w₀, w', hinit, ⟨hcaller, fun _ _ => ⟨hcaller, fun _ _ => ⟨hcaller, fun _ _ => trivial⟩⟩⟩,
    hafter, ?_⟩
  rintro ⟨kids, -, hobjs, -⟩
  have hdead := (hobjs 0x1001600 (Or.inl ⟨hlive, hin⟩)).2.1
  rw [hparent, hgone] at hdead
  cases hdead

end Mellivora
