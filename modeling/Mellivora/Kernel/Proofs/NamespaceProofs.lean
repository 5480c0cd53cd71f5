import Mellivora.Kernel.ObjectRuns

/-!
# Proofs: the sibling lists of the namespace

`Threaded` is kept by every change of the lists, also by an unlink from a parent that is gone: the
memory of that parent still has its list, or has been cleared and has none. Lookups come to an end
and find a child.
-/

namespace Mellivora

open Linked Function List

variable {a parent : Nat} {nodes' : Nat → NsNode} {nodes : Nat → NsNode} {live : Nat → Bool}
  {kids : Nat → List Nat} {obj dir : Nat} {seg : ObjName}

/-! ## Links -/

/-- The sibling behind a node. -/
def nextOf (nodes : Nat → NsNode) (a : Nat) : Nat := (nodes a).next

theorem setNode_self (a : Nat) (f : NsNode → NsNode) :
    setNode nodes a f a = f (nodes a) := update_self ..

theorem setNode_apply (nodes : Nat → NsNode) (a : Nat) (f : NsNode → NsNode) (b : Nat) :
    setNode nodes a f b = if b = a then f (nodes a) else nodes b := update_apply ..

attribute [local grind =] setNode_apply update_apply

theorem Threaded.list (h : Threaded nodes live kids) (dir : Nat) :
    Chain (nextOf nodes) 0 (nodes dir).child (kids dir) :=
  h.chain dir

theorem Threaded.eq_parent (h : Threaded nodes live kids) (ha : a ∈ kids dir) :
    (nodes a).parent = dir :=
  (h.kid dir a ha).2.2

theorem Threaded.ne_zero (h : Threaded nodes live kids) (ha : a ∈ kids dir) : a ≠ 0 := by
  rintro rfl
  exact (h.list dir).notMem_nil ha

/-- A list of children is shorter than the walk's bound. -/
theorem Threaded.length_lt (h : Threaded nodes live kids) (hlive : ∀ a, live a → a < 2 ^ 32)
    (dir : Nat) :
    (kids dir).length < siblingTurns := by
  have hsub : (kids dir).toFinset ⊆ Finset.range (2 ^ 32) := by
    intro a ha
    exact Finset.mem_range.mpr (hlive a (h.kid dir a (mem_toFinset.mp ha)).1)
  have hcard := Finset.card_le_card hsub
  rw [toFinset_card_of_nodup (h.nodup dir), Finset.card_range] at hcard
  unfold siblingTurns
  omega

/-- Looking a segment up finds a child that has the name, or there is none. -/
theorem Threaded.nsFindChild (h : Threaded nodes live kids) (hlive : ∀ a, live a → a < 2 ^ 32)
    (hdir : dir ≠ 0) (seg : ObjName) :
    ∃ a, nsFindChild nodes dir seg = some a ∧
      (a = 0 ∧ (∀ b ∈ kids dir, segMatch seg (nodes b) = false) ∨ a ∈ kids dir ∧
        segMatch seg (nodes a)) := by
  obtain ⟨l1, l2, a, hkids, hwalk, hchain, hpass, hstop⟩ :=
    (h.list dir).walk_eq (fun a => !segMatch seg (nodes a)) [] (h.length_lt hlive dir)
  refine ⟨a, ?_, ?_⟩
  · rw [Mellivora.nsFindChild, if_neg hdir]
    exact congrArg (Option.map Prod.snd) hwalk
  cases l2 with
  | nil =>
    refine Or.inl ⟨hchain, fun b hb => ?_⟩
    rw [hkids, append_nil] at hb
    simpa using hpass b hb
  | cons b l2 =>
    obtain ⟨rfl, -⟩ := hchain
    refine Or.inr ⟨?_, ?_⟩
    · rw [hkids]
      simp
    · simpa using hstop a rfl

/-! ## Changes -/

theorem Threaded.congr (h : Threaded nodes live kids) {live' : Nat → Bool}
    (hchild : ∀ a, (nodes' a).child = (nodes a).child)
    (hkid : ∀ dir, ∀ a ∈ kids dir, live' a ∧ (nodes' a).next = (nodes a).next ∧
      (nodes' a).inNs ∧ (nodes' a).parent = dir) :
    Threaded nodes' live' kids := by
  refine ⟨fun d => ?_, h.nodup, h.zero, fun d a ha => ?_⟩
  · rw [hchild d]
    exact (h.list d).congr fun a ha => (hkid d a ha).2.1
  · grind

/-- A new body is in no list. -/
theorem Threaded.take (h : Threaded nodes live kids) (hobj : live obj = false) (hzero : obj ≠ 0) :
    Threaded (update nodes obj {}) (update live obj true) (update kids obj []) := by
  have hkid := h.kid
  have hnodup := h.nodup
  refine ⟨fun d => ?_, by grind, by grind [h.zero], by grind⟩
  by_cases hd : d = obj
  · rw [hd, update_self, update_self]
    rfl
  · rw [update_of_ne hd, update_of_ne hd]
    exact (h.list d).congr fun a ha => by grind [nextOf]

/-- A body in no list can go. -/
theorem Threaded.release (h : Threaded nodes live kids) (hobj : (nodes obj).inNs = false) :
    Threaded nodes (update live obj false) kids := by
  refine h.congr (fun _ => rfl) fun d a ha => ?_
  obtain ⟨hl, hin, hparent⟩ := h.kid d a ha
  refine ⟨?_, rfl, hin, hparent⟩
  rwa [update_of_ne]
  rintro rfl
  cases hin.symm.trans hobj

theorem linkNodes_apply (nodes : Nat → NsNode) (hne : obj ≠ parent) (name : ObjName) (a : Nat) :
    linkNodes nodes obj name parent a =
      if a = obj then { nodes obj with name, next := (nodes parent).child, parent, inNs := true }
      else if a = parent then { nodes parent with child := obj } else nodes a := by
  simp only [linkNodes, setNode_apply]
  grind

theorem linkNodes_obj (nodes : Nat → NsNode) (name : ObjName) (hne : obj ≠ parent) :
    linkNodes nodes obj name parent obj =
      { nodes obj with name, next := (nodes parent).child, parent, inNs := true } := by
  rw [linkNodes_apply nodes hne, if_pos rfl]

theorem linkNodes_of_ne {name : ObjName} (hne : obj ≠ parent) (ha : a ≠ obj) :
    (linkNodes nodes obj name parent a).inNs = (nodes a).inNs ∧
      (linkNodes nodes obj name parent a).parent = (nodes a).parent ∧
      (linkNodes nodes obj name parent a).name = (nodes a).name := by
  grind [linkNodes_apply]

/-- A body without a name is put in front of the children of another. -/
theorem Threaded.link (h : Threaded nodes live kids) (hobj : (nodes obj).inNs = false)
    (hlive : live obj)
    (hzero : obj ≠ 0) (hparent : parent ≠ 0) (hne : obj ≠ parent) (name : ObjName) :
    Threaded (linkNodes nodes obj name parent) live
      (update kids parent (obj :: kids parent)) := by
  have hkid := h.kid
  have hnodup := h.nodup
  have hnode := linkNodes_apply nodes hne name
  have hlist : ∀ d, Chain (nextOf (linkNodes nodes obj name parent)) 0 (nodes d).child (kids d) :=
    fun d =>
    (h.list d).congr fun a ha => by grind [nextOf]
  refine ⟨fun d => ?_, by grind, by grind [h.zero], by grind⟩
  by_cases hd : d = parent
  · have hnext : (linkNodes nodes obj name parent obj).next = (nodes parent).child := by grind
    have hchild : (linkNodes nodes obj name parent parent).child = obj := by grind
    rw [hd, update_self, hchild]
    refine ⟨rfl, hzero, ?_⟩
    dsimp only
    rw [hnext]
    exact hlist parent
  · have hchild : (linkNodes nodes obj name parent d).child = (nodes d).child := by grind
    rw [update_of_ne hd, hchild]
    exact hlist d

/-! ## Unlinking -/

/-- What an unlink leaves as it was. -/
structure Unlinked (nodes : Nat → NsNode) (obj : Nat) (nodes' : Nat → NsNode) : Prop where
  out : (nodes' obj).inNs = false
  name : ∀ a, (nodes' a).name = (nodes a).name
  other : ∀ a, a ≠ obj → (nodes' a).inNs = (nodes a).inNs ∧ (nodes' a).parent = (nodes a).parent
  child : ∀ a, a ≠ (nodes obj).parent → (nodes' a).child = (nodes a).child

theorem setNode_next (a v : Nat) :
    nextOf (setNode nodes a fun n => { n with next := v }) = update (nextOf nodes) a v := by
  funext b
  grind [nextOf]

theorem setNode_next_child (a v b : Nat) :
    (setNode nodes a (fun n => { n with next := v }) b).child = (nodes b).child := by
  grind

theorem setNode_child_next (a v : Nat) :
    nextOf (setNode nodes a fun n => { n with child := v }) = nextOf nodes := by
  funext b
  grind [nextOf]

theorem Unlinked.setNext (h : Unlinked nodes obj nodes') (a v : Nat) :
    Unlinked nodes obj (setNode nodes' a fun n => { n with next := v }) := by
  obtain ⟨hout, hname, hother, hchild⟩ := h
  exact ⟨by grind, by grind, by grind, by grind⟩

theorem Unlinked.setChild (h : Unlinked nodes obj nodes') (v : Nat) :
    Unlinked nodes obj (setNode nodes' (nodes obj).parent fun n => { n with child := v }) := by
  obtain ⟨hout, hname, hother, hchild⟩ := h
  exact ⟨by grind, by grind, by grind, by grind⟩

/-- A child less in one list. -/
theorem Threaded.erase (h : Threaded nodes live kids) (hout : Unlinked nodes obj nodes')
    (hlist : Chain (nextOf nodes') 0 (nodes' (nodes obj).parent).child
      ((kids (nodes obj).parent).erase obj))
    (hnext : ∀ dir, dir ≠ (nodes obj).parent → ∀ a ∈ kids dir, nextOf nodes' a = nextOf nodes a) :
    Threaded nodes' (update live obj false) (fun dir => (kids dir).erase obj) := by
  refine ⟨fun d => ?_, fun d => (h.nodup d).erase obj, ?_, fun d a ha => ?_⟩
  · by_cases hd : d = (nodes obj).parent
    · rw [hd]
      exact hlist
    · have hnot : obj ∉ kids d := fun hmem => hd (h.eq_parent hmem).symm
      rw [erase_of_not_mem hnot, hout.child d hd]
      exact (h.list d).congr (hnext d hd)
  · rw [h.zero, erase_nil]
  · have hne : a ≠ obj := by
      rintro rfl
      exact (h.nodup d).not_mem_erase ha
    obtain ⟨hl, hin, hparent⟩ := h.kid d a (mem_of_mem_erase ha)
    rw [update_of_ne hne, (hout.other a hne).1, (hout.other a hne).2]
    exact ⟨hl, hin, hparent⟩

/-- `obj_ns_unlink` comes to an end and takes the body out of every list. -/
theorem Threaded.nsUnlink (h : Threaded nodes live kids) (hlive : ∀ a, live a → a < 2 ^ 32)
    (hobj : obj ≠ 0) :
    ∃ nodes', nsUnlink nodes obj = some nodes' ∧ Unlinked nodes obj nodes' ∧
      Threaded nodes' (update live obj false) (fun dir => (kids dir).erase obj) := by
  unfold Mellivora.nsUnlink
  dsimp only
  by_cases hin : (nodes obj).inNs = false
  · -- The body has no name, so it is in no list.
    rw [if_pos hin]
    have hout : ∀ d, obj ∉ kids d := by
      intro d hmem
      rw [(h.kid d obj hmem).2.1] at hin
      cases hin
    refine ⟨nodes, rfl, ⟨hin, fun _ => rfl, fun _ _ => ⟨rfl, rfl⟩, fun _ _ => rfl⟩, ?_⟩
    have hkids : (fun d => (kids d).erase obj) = kids := funext fun d => erase_of_not_mem (hout d)
    rw [hkids]
    exact h.release hin
  rw [if_neg hin]
  set nodes1 := setNode nodes obj fun n => { n with inNs := false, parent := 0 } with hnodes1
  have hchild1 : ∀ a, (nodes1 a).child = (nodes a).child := by grind
  have hnext1 : nextOf nodes1 = nextOf nodes := by
    funext a
    grind [nextOf]
  have hout1 : Unlinked nodes obj nodes1 := ⟨by grind, by grind, by grind, by grind⟩
  -- Each case ends by clearing the link of the body, which the other lists do not pass.
  have hlast : ∀ nodes2, Unlinked nodes obj nodes2 →
      (∀ dir, dir ≠ (nodes obj).parent → ∀ a ∈ kids dir, nextOf nodes2 a = nextOf nodes a) →
      Chain (nextOf nodes2) 0 (nodes2 (nodes obj).parent).child
      ((kids (nodes obj).parent).erase obj) →
      Unlinked nodes obj (setNode nodes2 obj fun n => { n with next := 0 }) ∧
        Threaded (setNode nodes2 obj fun n => { n with next := 0 }) (update live obj false)
          (fun dir => (kids dir).erase obj) := by
    intro nodes2 hout2 hnext2 hlist2
    refine ⟨hout2.setNext obj 0, h.erase (hout2.setNext obj 0) ?_ fun d hd a ha => ?_⟩
    · rw [setNode_next, setNode_next_child]
      exact hlist2.update (h.nodup _).not_mem_erase 0
    · rw [setNode_next, update_of_ne]
      · exact hnext2 d hd a ha
      · rintro rfl
        exact hd (h.eq_parent ha).symm
  have hlist := h.list (nodes obj).parent
  by_cases hzero : (nodes obj).parent = 0
  · rw [if_pos hzero]
    refine ⟨nodes1, rfl, hout1, h.erase hout1 ?_ fun d _ a _ => by rw [hnext1]⟩
    rw [hzero, h.zero, erase_nil, hchild1 0]
    rw [hzero, h.zero] at hlist
    exact hlist
  rw [if_neg hzero]
  by_cases hhead : (nodes1 (nodes obj).parent).child = obj
  · rw [if_pos hhead]
    have hout2 := hout1.setChild (nodes obj).next
    refine ⟨_, rfl, hlast _ hout2 (fun d _ a _ => by rw [setNode_child_next, hnext1]) ?_⟩
    rw [setNode_child_next, hnext1, setNode_self]
    rw [hchild1] at hhead
    rw [hhead] at hlist
    cases hkids : kids (nodes obj).parent with
    | nil =>
      rw [hkids] at hlist
      exact absurd hlist hobj
    | cons a l =>
      rw [hkids] at hlist
      obtain ⟨rfl, -, hrest⟩ := hlist
      rw [erase_cons_head]
      exact hrest
  rw [if_neg hhead]
  rw [hchild1] at hhead
  obtain ⟨l1, l2, q, hkids, hwalk, hq, hpass, hstop⟩ :=
    hlist.walk_eq (fun a => nextOf nodes a ≠ obj) [] (h.length_lt hlive _)
  have hwalk1 : Linked.walk (fun a => (nodes1 a).next) 0 (fun a => (nodes1 a).next ≠ obj)
    siblingTurns none
      (nodes1 (nodes obj).parent).child = some (([] ++ l1).getLast?, q) := by
    rw [hchild1, show (fun a => (nodes1 a).next) = nextOf nodes from hnext1,
      show (fun a => decide ((nodes1 a).next ≠ obj)) = fun a => decide (nextOf nodes a ≠ obj) from
        funext fun a => by rw [← hnext1]; rfl]
    exact hwalk
  rw [hwalk1]
  cases l2 with
  | nil =>
    -- The list does not have the body: its parent is gone and the memory has another list.
    obtain rfl : q = 0 := hq
    have hnot : obj ∉ kids (nodes obj).parent := by
      intro hmem
      obtain ⟨a, ha, hnext⟩ := hlist.exists_next hmem hhead
      rw [hkids, append_nil] at ha
      simpa [hnext] using hpass a ha
    refine ⟨_, rfl, hlast nodes1 hout1 (fun d _ a _ => by rw [hnext1]) ?_⟩
    rw [hnext1, hchild1, erase_of_not_mem hnot]
    exact hlist
  | cons a l3 =>
  obtain ⟨rfl, hq0, hrest⟩ := hq
  have hnext : nextOf nodes q = obj := by simpa using hstop q rfl
  rw [hnext] at hrest
  cases l3 with
  | nil => exact absurd hrest hobj
  | cons b l3 =>
  obtain ⟨rfl, -, -⟩ := hrest
  have hlist' : kids (nodes obj).parent = (l1 ++ [q]) ++ obj :: l3 := by simpa using hkids
  have hnodup := h.nodup (nodes obj).parent
  rw [hlist'] at hlist hnodup
  have hnot : obj ∉ l1 ++ [q] := by grind
  refine ⟨_, rfl, hlast _ (by rw [if_neg hq0]; exact hout1.setNext q _) (fun d hd a ha => ?_) ?_⟩
  · rw [if_neg hq0, setNode_next, hnext1, update_of_ne]
    rintro rfl
    refine hd ((h.eq_parent ha).symm.trans (h.eq_parent ?_))
    rw [hlist']
    simp
  · rw [if_neg hq0, setNode_next, setNode_next_child, hnext1, hchild1, hlist',
      erase_append_right _ hnot, erase_cons_head]
    exact hlist.unlink hnodup (by simp)

/-! ## Walks -/

variable {w : World} {caller : Option Nat}

/-- A way down the tree along the segments of a text. -/
inductive Reaches (w : World) (kids : Nat → List Nat) : Nat → List ObjName → Nat → Prop
  | here (a : Nat) : Reaches w kids a [] a
  | down {dir a obj : Nat} {seg : ObjName} {segs : List ObjName} (hkid : a ∈ kids dir)
      (hname : segMatch seg (w.nodes a)) (hrest : Reaches w kids a segs obj) :
      Reaches w kids dir (seg :: segs) obj

theorem Reaches.eq_or_kid {segs : List ObjName} (h : Reaches w kids a segs obj) :
    obj = a ∨ ∃ dir, obj ∈ kids dir := by
  induction h with
  | here a => exact Or.inl rfl
  | down hkid _ _ ih => grind

section Walk

variable (h : Threaded w.nodes w.live kids) (hlive : ∀ a, w.live a → a < 2 ^ 32)
include h hlive

variable (caller) in
/-- A walk ends, and what it finds is reached by the names. -/
theorem nsWalkSegs_spec (segs : List ObjName) (depth : Nat) {cur : Nat} (hcur : cur ≠ 0) :
    ∃ e, nsWalkSegs w caller segs depth cur = some e ∧ ∀ obj, e = .found obj →
    Reaches w kids cur segs obj := by
  induction segs generalizing depth cur with
  | nil => exact ⟨_, rfl, fun obj heq => by cases heq; exact .here cur⟩
  | cons seg segs ih =>
  rw [nsWalkSegs]
  split
  · exact ⟨_, rfl, nofun⟩
  split
  · exact ⟨_, rfl, nofun⟩
  split
  · exact ⟨_, rfl, nofun⟩
  obtain ⟨a, hfind, hcase⟩ := h.nsFindChild hlive hcur seg
  rw [hfind]
  by_cases hzero : a = 0
  · exact ⟨.refused .invalidParameter, by simp [hzero], nofun⟩
  obtain ⟨hkid, hname⟩ := hcase.resolve_left fun hnone => hzero hnone.1
  by_cases hlink : (w.nodes a).symlink
  · exact ⟨.link (w.nodes a).target, by simp [hzero, hlink], nofun⟩
  · obtain ⟨e, hwalk, hfound⟩ := ih (depth + 1) hzero
    refine ⟨e, ?_, fun obj heq => .down hkid hname (hfound obj heq)⟩
    simpa [hzero, hlink] using hwalk

/-- What a walk comes to: an object is the end of a way along the text that the walk ended on. -/
def Walked (w : World) (kids : Nat → List Nat)
    (r : Option (Except MvStatus Nat × ObjName × Nat)) : Prop :=
  ∃ result text links, r = some (result, text, links) ∧
    ∀ obj, result = .ok obj → Reaches w kids w.root (segments text) obj

/-- One walk from the root; what is left is the walk along the target of a symlink. -/
theorem nsWalkFrom_step (hroot : w.root ≠ 0) (turns links : Nat) (text : ObjName)
    (hnext : ∀ target, (links + 1) % 2 ^ 32 ≤ symlinkMax →
      Walked w kids (nsWalkFrom w caller turns ((links + 1) % 2 ^ 32) target)) :
    Walked w kids (nsWalkFrom w caller (turns + 1) links text) := by
  obtain ⟨e, hwalk, hfound⟩ := nsWalkSegs_spec caller h hlive (segments text) 0 hroot
  rw [nsWalkFrom, hwalk]
  cases e with
  | found obj => exact ⟨.ok obj, text, links, rfl, fun a heq => by cases heq; exact hfound obj rfl⟩
  | refused status => exact ⟨.error status, text, links, rfl, nofun⟩
  | link target =>
  simp only [Option.bind_eq_bind, Option.bind_some]
  by_cases hmax : symlinkMax < (links + 1) % 2 ^ 32
  · rw [if_pos hmax]
    exact ⟨_, _, _, rfl, nofun⟩
  rw [if_neg hmax]
  by_cases hsep : target.head? ≠ some separator
  · rw [if_pos hsep]
    exact ⟨_, _, _, rfl, nofun⟩
  · rw [if_neg hsep]
    exact hnext target (by omega)

/-- A walk ends within the links it may follow. -/
theorem nsWalkFrom_few (hroot : w.root ≠ 0) {turns links : Nat} (hlinks : links ≤ symlinkMax)
    (hturns : symlinkMax < turns + links) (text : ObjName) :
    Walked w kids (nsWalkFrom w caller turns links text) := by
  induction turns generalizing links text with
  | zero => omega
  | succ turns ih =>
    refine nsWalkFrom_step h hlive hroot turns links text fun target hle => ih hle ?_ target
    have hmod : (links + 1) % 2 ^ 32 = links + 1 :=
      Nat.mod_eq_of_lt (by unfold symlinkMax at hlinks; omega)
    omega

variable (caller) in
/-- The walk comes to an end. -/
theorem walk_spec (hroot : w.root ≠ 0) (path : ObjName) : Walked w kids (w.walk caller path) := by
  unfold World.walk
  dsimp only
  by_cases hrefused : w.sessionRefused caller (stripSeparator path)
  · rw [if_pos hrefused]
    exact ⟨_, _, _, rfl, nofun⟩
  · rw [if_neg hrefused]
    refine nsWalkFrom_step h hlive hroot 34 w.onwLinks _ fun target hle => ?_
    exact nsWalkFrom_few h hlive hroot hle (by unfold symlinkMax; omega) target

end Walk

end Mellivora
