import Mellivora.Kernel.Proofs.HandleProofs
import Mellivora.Kernel.Proofs.NamespaceProofs

/-!
# Proofs: the object calls

What the calls do to bodies, handles and names is said once, as the few changes of which every call
is made up. `ObjectRule` asks of an invariant that it survives each of these changes; it then
survives the calls. The invariant speaks of a world and of an object that the running call still
holds a reference to, 0 if it does not.
-/

namespace Mellivora

open Outcome Linked Function

variable {table : HandleTable} {a : Nat} {t : HandleTable} {obj rights index : Nat}

/-! ## The objects in a table -/

theorem entryObj_of_lt (h : index < t.hcap) :
    t.entryObj index = t.mem.dword (htSlot index t.handles) := if_pos h

theorem entryObj_of_le (h : t.hcap ≤ index) : t.entryObj index = 0 := if_neg (by omega)

theorem HandleTable.Empty.entryObj (h : t.Empty) : t.entryObj = fun _ => 0 := by
  funext j
  by_cases hj : j < t.hcap
  · rw [entryObj_of_lt hj]
    refine dword_zero fun i hi hi' => h.2.2 i ?_ ?_ <;> simp only [htSlot, heEntry] at * <;> omega
  · exact entryObj_of_le (by omega)

theorem TableInv.entryObj_of_noTable (h : TableInv t) (hnone : t.handles = 0) :
    t.entryObj = fun _ => 0 := by
  funext j
  exact entryObj_of_le (by rw [h.noTable hnone]; omega)

/-- One entry is filled. -/
theorem entryObj_withEntry (h : TableInv t) (hindex : index < t.hcap)
    (hfree : t.mem.dword (htSlot index t.handles) = 0)
    (hlow : index + 1 < t.hcap → t.mem.word (htSlot (index + 1) t.handles) = 0)
    (hobj : ObjectPointer obj) :
    (t.withEntry index obj rights).entryObj = update t.entryObj index obj := by
  have hgen := (h.entry index hindex).gen_eq_zero hfree
  obtain ⟨-, hdword, -⟩ := storeEntry_spec rights hgen hobj.2
  funext j
  by_cases hj : j < t.hcap
  · rw [entryObj_of_lt (show j < (t.withEntry index obj rights).hcap from hj)]
    by_cases hji : j = index
    · rw [hji, update_self]
      exact hdword
    · rw [update_of_ne hji, entryObj_of_lt hj]
      have hbytes := withEntry_entryBytes rights h hindex hfree hlow hobj hj hji
      show (t.withEntry index obj rights).mem.dword (htSlot j t.handles) = _
      exact Buffer.dword_congr fun i hi hi' => hbytes i hi (by omega)
  · have hne : j ≠ index := by omega
    rw [entryObj_of_le (show (t.withEntry index obj rights).hcap ≤ j by
      show t.hcap ≤ j
      omega), update_of_ne hne, entryObj_of_le (by omega)]

theorem HandleTable.Empty.low (h : t.Empty) :
    0 + 1 < t.hcap → t.mem.word (htSlot (0 + 1) t.handles) = 0 := by
  intro hcap
  unfold Buffer.word
  rw [h.2.2 _ (by unfold htSlot heEntry; omega) (by unfold htSlot heEntry; omega),
    h.2.2 _ (by unfold htSlot heEntry; omega) (by unfold htSlot heEntry; omega)]
  rfl

/-- Where there is room, an open puts the object into a free entry, and a failed one changes no
entry. -/
def OpenedEntry (t : HandleTable) (obj : Nat) : Except MvStatus Nat → HandleTable → Prop
  | .ok _, t' => ∃ index < handleMaxCap, t.entryObj index = 0 ∧
      t'.entryObj = update t.entryObj index obj
  | .error _, t' => t'.entryObj = t.entryObj

/-- An open fills one entry and leaves the others. -/
theorem Opened.entry {r : Except MvStatus Nat} {t' : HandleTable} (h : TableInv t)
    (hspace : t.Spacious)
    (hobj : ObjectPointer obj) (hopened : Opened t obj rights r t') : OpenedEntry t obj r t' := by
  cases r with
  | ok handle =>
    obtain ⟨index, t1, -, h1, hfound, rfl⟩ := hopened
    obtain ⟨-, hindex, hfree⟩ := hfound.free
    refine ⟨index, Nat.lt_of_lt_of_le hindex h1.cap, ?_⟩
    by_cases hnone : t.handles = 0
    · -- A new table is empty.
      rcases hfound with ⟨rfl, hslot⟩ | ⟨hnew, rfl⟩
      · exact absurd hnone (HandleTable.freeSlot_some hslot).1
      · rw [h.entryObj_of_noTable hnone, entryObj_withEntry h1 hindex hfree hnew.empty.low hobj,
          hnew.empty.entryObj]
        exact ⟨rfl, rfl⟩
    · obtain ⟨index', hslot, hlt, hlow⟩ := hspace hnone
      rcases hfound with ⟨rfl, hslot'⟩ | ⟨hnew, -⟩
      · obtain rfl : index' = index := Option.some.inj (hslot.symm.trans hslot')
        refine ⟨?_, entryObj_withEntry h1 hindex hfree (fun _ => hlow) hobj⟩
        rw [entryObj_of_lt hindex, hfree]
      · cases hnew.full.symm.trans hslot
  | error status =>
  rcases hopened with ⟨pages, rfl⟩ | hnew
  · rfl
  have hnone : t.handles = 0 := by
    by_contra hne
    obtain ⟨index, hslot, -⟩ := hspace hne
    cases hnew.full.symm.trans hslot
  show t'.entryObj = t.entryObj
  rw [hnew.empty.entryObj, h.entryObj_of_noTable hnone]

/-- One entry is emptied. -/
theorem entryObj_clearEntry (hindex : index < t.hcap) :
    (t.clearEntry index).entryObj = update t.entryObj index 0 := by
  funext j
  by_cases hj : j < t.hcap
  · rw [entryObj_of_lt (show j < (t.clearEntry index).hcap from hj)]
    by_cases hji : j = index
    · rw [hji, update_self]
      exact HandleTable.withoutEntry_dword
    rw [update_of_ne hji, entryObj_of_lt hj]
    refine Buffer.dword_congr fun i hi hi' => ?_
    show (t.withoutEntry (htSlot index t.handles)).mem i = t.mem i
    refine HandleTable.withoutEntry_apply ?_
    have hi1 : htSlot j t.handles ≤ i := hi
    have hi2 : i < htSlot j t.handles + 4 := hi'
    unfold htSlot heEntry at *
    omega
  · have hne : j ≠ index := by omega
    rw [entryObj_of_le (show (t.clearEntry index).hcap ≤ j by
      show t.hcap ≤ j
      omega), update_of_ne hne, entryObj_of_le (by omega)]

theorem TableInv.clearEntry (h : TableInv t) (index : Nat) : TableInv (t.clearEntry index) := by
  have hout := h.withoutEntry index
  exact { hout with }

theorem TableInv.dropped (h : TableInv t) : TableInv t.dropped :=
  ⟨h.pages, fun _ => rfl, fun hne => absurd rfl hne, Nat.zero_le _,
    fun _ hi => absurd hi (Nat.not_lt_zero _)⟩

theorem entryObj_dropped :
    t.dropped.entryObj = fun _ => 0 := funext fun _ => entryObj_of_le (Nat.zero_le _)

/-! ## Changes of the world -/

variable {w w' : World} {i : Nat}

/-- Bodies, tasks and tables in every run. -/
structure World.Base (w : World) : Prop where
  inv : ObjInv w
  table : ∀ i, TableInv (w.tasks i).table

/-- What the reference counts and the namespace depend on in a header. -/
def Obj.core (o : Obj) : ObjType × Bool × Bool × Nat := (o.type, o.permanent, o.deleting, o.refs)

/-- Nothing changes that a count or a name depends on. -/
structure World.Quiet (w w' : World) : Prop where
  live : w'.live = w.live
  pool : w'.pool = w.pool
  root : w'.root = w.root
  nodes : w'.nodes = w.nodes
  core : ∀ a, (w'.objs a).core = (w.objs a).core
  tokens : ∀ j, (w'.tasks j).token = (w.tasks j).token ∧ (w'.tasks j).procObj = (w.tasks j).procObj
  tables : (∀ j, TableInv (w.tasks j).table) → ∀ j, TableInv (w'.tasks j).table
  entry : w'.entry = w.entry

/-- A body is handed out, with one reference. -/
structure World.Takes (w : World) (body : Nat) (w' : World) : Prop where
  pool : w.pool = body :: w'.pool
  live : w'.live = update w.live body true
  root : w'.root = w.root
  nodes : w'.nodes = update w.nodes body {}
  objs : ∀ a, a ≠ body → w'.objs a = w.objs a
  fresh : (w'.objs body).refs = 1 ∧ (w'.objs body).permanent = false ∧
    (w'.objs body).deleting = false
  tasks : w'.tasks = w.tasks

/-- A task has put an object into an entry, which takes a reference. -/
structure World.Opens (w : World) (i index obj : Nat) (w' : World) : Prop where
  live : w'.live = w.live
  pool : w'.pool = w.pool
  root : w'.root = w.root
  nodes : w'.nodes = w.nodes
  core : ∀ a, a ≠ obj → (w'.objs a).core = (w.objs a).core
  counted : (w'.objs obj).core =
    ((w.objs obj).type, (w.objs obj).permanent, (w.objs obj).deleting, (w.objs obj).refs + 1)
  tokens : ∀ j, (w'.tasks j).token = (w.tasks j).token ∧ (w'.tasks j).procObj = (w.tasks j).procObj
  tables : ∀ j, TableInv (w'.tasks j).table
  free : w.entry (i, index) = 0
  entry : w'.entry = update w.entry (i, index) obj

/-- A task has taken an object out of an entry. -/
structure World.Closes (w : World) (i index : Nat) (w' : World) : Prop where
  live : w'.live = w.live
  pool : w'.pool = w.pool
  root : w'.root = w.root
  nodes : w'.nodes = w.nodes
  core : ∀ a, (w'.objs a).core = (w.objs a).core
  tokens : ∀ j, (w'.tasks j).token = (w.tasks j).token ∧ (w'.tasks j).procObj = (w.tasks j).procObj
  tables : ∀ j, TableInv (w'.tasks j).table
  entry : w'.entry = update w.entry (i, index) 0

/-- A body is given back. -/
structure World.Destroys (w : World) (obj : Nat) (w' : World) : Prop where
  pool : w'.pool = obj :: w.pool
  live : w'.live = update w.live obj false
  root : w'.root = w.root
  nodes : nsUnlink w.nodes obj = some w'.nodes
  objs : ∀ a, a ≠ obj → w'.objs a = w.objs a
  tasks : w'.tasks = w.tasks

/-- An invariant that survives each of the changes. The number is the object that a call holds a
reference to on its way. In a strict run objects are made in directories and no object with children
is destroyed. -/
structure ObjectRule (strict : Prop) (I : World → Nat → Prop) : Prop where
  base : ∀ {w held}, I w held → w.Base
  root : ∀ {w held}, I w held → w.live w.root
  quiet : ∀ {w w' held}, I w held → w.Quiet w' → I w' held
  takes : ∀ {w w' body}, I w 0 → w.Takes body w' → I w' body
  link : ∀ {w obj name parent}, I w obj → w.live obj → w.nodes obj = {} → w.Placed parent →
    obj ≠ parent →
    (strict → (w.objs parent).type = .directory) → depthOk w.nodes objMaxDepth parent →
    nsFindChild w.nodes parent name = some 0 → name.length ≤ objNameMax →
    I { w with nodes := linkNodes w.nodes obj name parent } obj
  opens : ∀ {w w' held i index obj}, I w held → w.live obj → i < maxTasks → index < handleMaxCap →
    w.Opens i index obj w' → I w' held
  closes : ∀ {w w' i index}, I w 0 → i < maxTasks → index < handleMaxCap →
    w.live (w.entry (i, index)) →
    w.Closes i index w' → I w' (w.entry (i, index))
  spend : ∀ {w obj}, I w obj → w.live obj → 1 < (w.objs obj).refs →
    I (w.setObj obj fun o => { o with refs := (w.objs obj).refs - 1 }) 0
  destroy : ∀ {w w' obj}, I w obj → w.live obj → (w.objs obj).refs = 1 →
    (strict → (w.nodes obj).child = 0) → w.Destroys obj w' → I w' 0
  leak : ∀ {w obj}, I w obj → I w 0
  promote : ∀ {w obj}, I w obj → w.live obj →
    I (w.setObj obj fun o => { o with permanent := true }) 0
  vacate : ∀ {w i}, I w 0 → (∀ index, w.entry (i, index) = 0) →
    I (w.setTask i fun t => { t with table := t.table.dropped }) 0

/-! ## Reading and writing -/

@[simp] theorem objs_set_self (f : Obj → Obj) :
    (w.setObj obj f).objs obj = f (w.objs obj) := update_self ..

theorem objs_set_of_ne (h : a ≠ obj) (f : Obj → Obj) :
    (w.setObj obj f).objs a = w.objs a := update_of_ne h ..

@[simp] theorem tasks_set_self (f : Task → Task) :
    (w.setTask i f).tasks i = f (w.tasks i) := update_self ..

theorem tasks_set_of_ne {j : Nat} (h : j ≠ i) (f : Task → Task) :
    (w.setTask i f).tasks j = w.tasks j :=
  update_of_ne h ..

theorem World.Quiet.of_eq (hlive : w'.live = w.live) (hpool : w'.pool = w.pool)
    (hroot : w'.root = w.root)
    (hnodes : w'.nodes = w.nodes) (hobjs : w'.objs = w.objs) (htasks : w'.tasks = w.tasks) :
    w.Quiet w' :=
  ⟨hlive, hpool, hroot, hnodes, fun a => by rw [hobjs], fun j => by rw [htasks]; exact ⟨rfl, rfl⟩,
    fun h j => by rw [htasks]; exact h j, by funext p; rw [World.entry, World.entry, htasks]⟩

theorem World.Quiet.trans {w1 : World} (h : w.Quiet w1) (h' : w1.Quiet w') : w.Quiet w' :=
  ⟨h'.live.trans h.live, h'.pool.trans h.pool, h'.root.trans h.root, h'.nodes.trans h.nodes,
    fun a => (h'.core a).trans (h.core a),
    fun j => ⟨(h'.tokens j).1.trans (h.tokens j).1, (h'.tokens j).2.trans (h.tokens j).2⟩,
    fun ht => h'.tables (h.tables ht), h'.entry.trans h.entry⟩

theorem World.Quiet.placed (h : w.Quiet w') (ha : w.Placed a) : w'.Placed a := by
  unfold World.Placed at *
  rwa [h.live, h.root, h.nodes]

theorem World.Quiet.refs (h : w.Quiet w') (a : Nat) : (w'.objs a).refs = (w.objs a).refs :=
  congrArg (fun c => c.2.2.2) (h.core a)

theorem World.Quiet.type (h : w.Quiet w') (a : Nat) : (w'.objs a).type = (w.objs a).type :=
  congrArg (fun c => c.1) (h.core a)

theorem World.Quiet.setObj (w : World) (obj : Nat) {f : Obj → Obj}
    (hf : (f (w.objs obj)).core = (w.objs obj).core) :
    w.Quiet (w.setObj obj f) := by
  refine ⟨rfl, rfl, rfl, rfl, fun a => ?_, fun _ => ⟨rfl, rfl⟩, fun h => h, rfl⟩
  by_cases ha : a = obj
  · rw [ha, objs_set_self, hf]
  · rw [objs_set_of_ne ha]

theorem World.Takes.live_apply (h : w.Takes obj w') (a : Nat) :
    w'.live a = if a = obj then true else w.live a := by
  rw [h.live, update_apply]

theorem World.Takes.nodes_apply (h : w.Takes obj w') (a : Nat) :
    w'.nodes a = if a = obj then {} else w.nodes a := by
  rw [h.nodes, update_apply]

theorem World.Destroys.live_apply (h : w.Destroys obj w') (a : Nat) :
    w'.live a = if a = obj then false else w.live a := by
  rw [h.live, update_apply]

theorem World.entry_congr (htasks : w'.tasks = w.tasks) : w'.entry = w.entry := by
  funext p
  rw [World.entry, World.entry, htasks]

theorem World.Takes.ne (h : w.Takes obj w') (hinv : ObjInv w) (ha : w.live a) : a ≠ obj := by
  rintro rfl
  have hfree := (hinv.free a (h.pool ▸ List.mem_cons_self ..)).1
  cases ha.symm.trans hfree

theorem World.Takes.placed (h : w.Takes obj w') (hinv : ObjInv w) (ha : w.Placed a) :
    w'.Placed a := by
  have hne := h.ne hinv ha.1
  unfold World.Placed
  rw [h.live, h.root, h.nodes, update_of_ne hne, update_of_ne hne]
  exact ha

theorem entry_setTask {v : Nat} (h : table.entryObj = update (w.tasks i).table.entryObj index v) :
    (w.setTask i fun t => { t with table }).entry = update w.entry (i, index) v := by
  funext ⟨j, k⟩
  by_cases hj : j = i
  · subst hj
    rw [World.entry, tasks_set_self]
    show table.entryObj k = _
    rw [h]
    by_cases hk : k = index
    · rw [hk, update_self, update_self]
    · rw [update_of_ne hk, update_of_ne (by simpa using hk)]
      rfl
  · rw [World.entry, tasks_set_of_ne hj, update_of_ne (by simp [hj])]
    rfl

theorem World.Base.lt (h : w.Base) (ha : w.live a) : a < 2 ^ 32 := (h.inv.body a ha).1.2

theorem World.Base.ne_zero (h : w.Base) (ha : w.live a) : a ≠ 0 := (h.inv.body a ha).1.ne_zero

/-! ## The functions -/

section Rule

variable {strict : Prop} {I : World → Nat → Prop} (rule : ObjectRule strict I) {caller : Option Nat}
  {held : Nat}
include rule

/-- A walk finds only objects that have a place. -/
theorem returns_objNsWalk (hI : I w held) (path : ObjName) :
    Returns (objNsWalk caller path)
      (fun r w' => (∃ links, w' = { w with onwLinks := links }) ∧ ∀ obj, r = .ok obj →
        w.Placed obj) w := by
  have hbase := rule.base hI
  have hroot := rule.root hI
  obtain ⟨kids, hkids⟩ := hbase.inv.threaded
  obtain ⟨result, text, links, hwalk, hway⟩ :=
    walk_spec caller hkids (fun a => hbase.lt) (hbase.ne_zero hroot) path
  simp only [objNsWalk, returns_lift, returns_rules]
  refine ⟨_, hwalk, ⟨links, rfl⟩, fun obj hobj => ?_⟩
  rcases (hway obj hobj).eq_or_kid with rfl | ⟨dir, hkid⟩
  · exact ⟨hroot, .inl rfl⟩
  · obtain ⟨hlive, hin, -⟩ := hkids.kid dir obj hkid
    exact ⟨hlive, .inr hin⟩

omit rule in
theorem quiet_onwLinks (w : World) (links : Nat) : w.Quiet { w with onwLinks := links } :=
  .of_eq rfl rfl rfl rfl rfl rfl

variable (caller) in
/-- The place of a new object is a directory's. -/
theorem returns_createPlace (hI : I w held) (name : Option ObjName) :
    Returns (createPlace caller name)
      (fun r w' => (∃ links, w' = { w with onwLinks := links }) ∧
        ∀ place, r = .ok place → w.Placed place.parent ∧
          (place.existing ≠ 0 → w.live place.existing ∧ (w.nodes place.existing).inNs)) w := by
  rw [createPlace]
  cases (objCopyName name).bind objSplitName with
  | none => exact returns_pure.mpr ⟨⟨w.onwLinks, rfl⟩, by simp⟩
  | some split =>
  obtain ⟨path, leaf⟩ := split
  simp only [returns_bind]
  refine (returns_objNsWalk rule hI path).mono ?_
  rintro r w1 ⟨⟨links, rfl⟩, hplaced⟩
  cases r with
  | error status => exact returns_pure.mpr ⟨⟨links, rfl⟩, by simp⟩
  | ok parent =>
  have hparent := hplaced parent rfl
  have hbase := rule.base hI
  obtain ⟨kids, hkids⟩ := hbase.inv.threaded
  obtain ⟨existing, hfind, hcase⟩ :=
    hkids.nsFindChild (fun a => hbase.lt) (hbase.ne_zero hparent.1) leaf
  simp only [returns_lift, returns_rules]
  refine ⟨existing, hfind, ⟨links, rfl⟩, fun place hplace => ?_⟩
  cases hplace
  refine ⟨hparent, fun hne => ?_⟩
  rcases hcase with ⟨hzero, -⟩ | ⟨hkid, -⟩
  · exact absurd hzero hne
  · obtain ⟨hlive, hin, -⟩ := hkids.kid _ _ hkid
    exact ⟨hlive, hin⟩

/-! ### References -/

omit rule in
/-- `obj_destroy` ends, with the body back in the pool. -/
theorem returns_objDestroy {kids : Nat → List Nat} (hkids : Threaded w.nodes w.live kids)
    (hlt : ∀ a, w.live a → a < 2 ^ 32) (hne : obj ≠ 0) :
    Returns (objDestroy obj) (fun _ w' => w.Destroys obj w') w := by
  obtain ⟨nodes, hunlink, -⟩ := hkids.nsUnlink hlt hne
  have hlast : ∀ w1 : World, w1.pool = w.pool → w1.live = w.live → w1.root = w.root →
    w1.nodes = nodes →
      (∀ a, a ≠ obj → w1.objs a = w.objs a) → w1.tasks = w.tasks →
      Returns (kmemFree obj) (fun _ w' => w.Destroys obj w') w1 := by
    intro w1 hpool hlive1 hroot hnodes hobjs htasks
    rw [kmemFree, returns_modify]
    exact ⟨by rw [hpool], by rw [hlive1], hroot, by rw [hunlink, hnodes], hobjs, htasks⟩
  simp only [objDestroy, returns_lift, returns_rules]
  refine ⟨nodes, hunlink, ?_⟩
  split
  · rw [returns_bind, returns_modify]
    exact hlast _ rfl rfl rfl rfl (fun a ha => by simp only [World.setObj, update_of_ne ha]) rfl
  · exact hlast _ rfl rfl rfl rfl (fun a ha => by simp only [World.setObj, update_of_ne ha]) rfl

omit rule in
/-- The last reference destroys the object. -/
theorem destroys_objDeref {kids : Nat → List Nat} (hkids : Threaded w.nodes w.live kids)
    (hlt : ∀ a, w.live a → a < 2 ^ 32) (hne : obj ≠ 0) (hone : (w.objs obj).refs = 1) :
    Returns (objDeref obj) (fun _ w' => w.Destroys obj w') w := by
  rw [objDeref, if_neg hne]
  simp only [returns_rules]
  rw [if_neg (by omega)]
  simp only [returns_rules]
  rw [if_pos hone]
  refine (returns_objDestroy (w := w.setObj obj _) hkids hlt hne).mono ?_
  rintro - w' ⟨hpool, hlive', hroot, hnodes, hobjs, htasks⟩
  refine ⟨hpool, hlive', hroot, hnodes, fun a ha => ?_, htasks⟩
  rw [hobjs a ha, objs_set_of_ne ha]

/-- The reference that a call holds is let go. -/
theorem returns_objDeref (hI : I w obj) (hlive : w.live obj)
    (hdrop : strict → (w.objs obj).refs = 1 → (w.nodes obj).child = 0) :
    Returns (objDeref obj) (fun _ w' => I w' 0 ∧ w'.tasks = w.tasks) w := by
  have hbase := rule.base hI
  by_cases hone : (w.objs obj).refs = 1
  · obtain ⟨kids, hkids⟩ := hbase.inv.threaded
    refine (destroys_objDeref hkids (fun a => hbase.lt) (hbase.ne_zero hlive) hone).mono
      fun _ w' hdestroys => ?_
    exact ⟨rule.destroy hI hlive hone (fun hs => hdrop hs hone) hdestroys, hdestroys.tasks⟩
  have hpos := (hbase.inv.body obj hlive).2.1
  rw [objDeref, if_neg (hbase.ne_zero hlive)]
  simp only [returns_rules]
  rw [if_neg (by omega)]
  simp only [returns_rules]
  rw [if_neg hone, returns_pure]
  exact ⟨rule.spend hI hlive (by omega), rfl⟩

/-! ### Bodies -/

omit rule in
/-- A body from the pool, or none. -/
theorem returns_kmemAlloc (hpool : 0 ∉ w.pool) :
    Returns kmemAlloc (fun body w' => body = 0 ∧ (∃ grants, w' = { w with grants }) ∨
      body ≠ 0 ∧ w.pool = body :: w'.pool ∧ w'.live = update w.live body true ∧ w'.root = w.root ∧
      w'.nodes = update w.nodes body {} ∧ w'.objs = update w.objs body {} ∧
      w'.tasks = w.tasks ∧ w'.ownerLive = w.ownerLive) w := by
  simp only [kmemAlloc, granted, returns_rules]
  by_cases hgrant : w.grants.headD false
  · rw [if_pos hgrant, returns_bind, returns_get]
    dsimp only
    cases hcase : w.pool with
    | nil => exact returns_pure.mpr (.inl ⟨rfl, _, rfl⟩)
    | cons body pool =>
      simp only [returns_rules]
      refine .inr ⟨?_, trivial, rfl, rfl, rfl, rfl, rfl, rfl⟩
      rintro rfl
      exact hpool (hcase ▸ List.mem_cons_self ..)
  · rw [if_neg hgrant, returns_pure]
    exact .inl ⟨rfl, _, rfl⟩

omit rule in
theorem World.Base.zero_notMem (hbase : w.Base) :
    0 ∉ w.pool := fun hmem => (hbase.inv.free 0 hmem).2.ne_zero rfl

/-- What `obj_alloc` does: nothing, or a new object, which goes back if the quota is used up. -/
def ObjAllocated (w : World) (type : ObjType) (body : Nat) (w' : World) : Prop :=
  (body = 0 ∧ w.Quiet w') ∨
    (body = 0 ∧ ∃ obj w1, w.Takes obj w1 ∧ w1.live obj ∧ (w1.nodes obj).child = 0 ∧
    w1.Destroys obj w') ∨ (body ≠ 0 ∧ w.Takes body w' ∧ (w'.objs body).type = type)

omit rule in
/-- A new object is blank. -/
theorem allocated_objAlloc (hpool : 0 ∉ w.pool) (type : ObjType) :
    Returns (objAlloc caller type) (fun body w' => ObjAllocated w type body w') w := by
  rw [objAlloc, returns_bind]
  refine (returns_kmemAlloc hpool).mono ?_
  rintro body w1 (⟨rfl, grants, rfl⟩ | ⟨hne, hpool, hlive, hroot, hnodes, hobjs, htasks, -⟩)
  · rw [if_pos rfl, returns_pure]
    exact .inl ⟨rfl, .of_eq rfl rfl rfl rfl rfl rfl⟩
  have hbody : w1.objs body = {} := by rw [hobjs, update_self]
  have hother : ∀ a, a ≠ body → w1.objs a = w.objs a := fun a ha => by rw [hobjs, update_of_ne ha]
  rw [if_neg hne, returns_bind, returns_modify]
  cases caller with
  | none =>
    rw [returns_pure]
    refine .inr (.inr ⟨hne, ⟨hpool, hlive, hroot, hnodes, fun a ha => ?_, ?_, htasks⟩, ?_⟩)
    · rw [objs_set_of_ne ha, hother a ha]
    · rw [objs_set_self, hbody]
      exact ⟨rfl, rfl, rfl⟩
    · rw [objs_set_self]
  | some i =>
  simp only [returns_rules]
  have htakes : ∀ pid : Nat, ∀ w2 : World, w2.pool = w1.pool → w2.live = w1.live →
    w2.root = w1.root →
      w2.nodes = w1.nodes → w2.tasks = w1.tasks →
      w2.objs = ((w1.setObj body fun o => { o with type, refs := 1 }).setObj body
        fun o => { o with ownerPid := pid }).objs → w.Takes body w2 ∧
        (w2.objs body).type = type := by
    intro pid w2 hpool2 hlive2 hroot2 hnodes2 htasks2 hobjs2
    refine ⟨⟨by rw [hpool, hpool2], by rw [hlive2, hlive], by rw [hroot2, hroot],
      by rw [hnodes2, hnodes],
      fun a ha => ?_, ?_, by rw [htasks2, htasks]⟩, ?_⟩
    · rw [hobjs2, objs_set_of_ne ha, objs_set_of_ne ha, hother a ha]
    · rw [hobjs2, objs_set_self, objs_set_self, hbody]
      exact ⟨rfl, rfl, rfl⟩
    · rw [hobjs2, objs_set_self, objs_set_self]
  split
  · exact returns_pure.mpr (.inr (.inr ⟨hne, htakes _ _ rfl rfl rfl rfl rfl rfl⟩))
  simp only [returns_rules]
  split
  · simp only [returns_rules]
    exact .inr (.inr ⟨hne, htakes _ _ rfl rfl rfl rfl rfl rfl⟩)
  -- The quota is used up, and the body goes back.
  simp only [kmemFree, returns_rules]
  obtain ⟨htake, -⟩ :=
    htakes (w1.tasks i).pid ((w1.setObj body fun o => { o with type, refs := 1 }).setObj body
      fun o => { o with ownerPid := (w1.tasks i).pid }) rfl rfl rfl rfl rfl rfl
  refine .inr (.inl ⟨rfl, body, _, htake, ?_, ?_, ⟨rfl, rfl, rfl, ?_, fun _ _ => rfl, rfl⟩⟩)
  · rw [htake.live, update_self]
  · rw [htake.nodes, update_self]
  · have hin : ((w1.setObj body fun o => { o with type, refs := 1 }).setObj body
        fun o => { o with ownerPid := (w1.tasks i).pid }).nodes body = {} := by
      rw [htake.nodes, update_self]
    rw [nsUnlink, hin]
    rfl

/-- A new object, or the invariant as it was. -/
theorem returns_objAlloc (hI : I w 0) (type : ObjType) :
    Returns (objAlloc caller type) (fun body w' => body = 0 ∧ I w' 0 ∨
      body ≠ 0 ∧ w.Takes body w' ∧ (w'.objs body).type = type) w := by
  refine (allocated_objAlloc (rule.base hI).zero_notMem type).mono ?_
  rintro body w' (⟨rfl, hquiet⟩ | ⟨rfl, obj, w1, htakes, hlive, hchild, hdestroys⟩ | hnew)
  · exact .inl ⟨rfl, rule.quiet hI hquiet⟩
  · exact .inl
      ⟨rfl, rule.destroy (rule.takes hI htakes) hlive htakes.fresh.1 (fun _ => hchild) hdestroys⟩
  · exact .inr hnew

omit rule in
theorem returns_objSecurityAlloc (obj : Nat) :
    Returns (objSecurityAlloc caller obj) (fun _ w' => w.Quiet w' ∧ w'.tasks = w.tasks) w := by
  simp only [objSecurityAlloc, granted, returns_rules]
  split
  · simp only [returns_rules]
    have hgrants : w.Quiet { w with grants := w.grants.tail } := .of_eq rfl rfl rfl rfl rfl rfl
    exact ⟨hgrants.trans (.setObj _ obj rfl), rfl⟩
  · rw [returns_pure]
    exact ⟨.of_eq rfl rfl rfl rfl rfl rfl, rfl⟩

/-! ### Names -/

/-- Linking an object into a directory. -/
theorem returns_objNsLink {parent : Nat} (hI : I w obj) (hlive : w.live obj)
    (hblank : w.nodes obj = {}) (hparent : w.Placed parent) (hne : obj ≠ parent) (hdir : strict →
      (w.objs parent).type = .directory)
    (name : ObjName) :
    Returns (objNsLink caller obj name parent) (fun r w' => r ≠ none ∧ w' = w ∨
      r = none ∧ w' = { w with nodes := linkNodes w.nodes obj name parent } ∧ I w' obj) w := by
  have hbase := rule.base hI
  rw [objNsLink, returns_bind, returns_get]
  by_cases hname : objNameMax < name.length ∨ name = []
  · rw [if_pos hname, returns_pure]
    exact .inl ⟨by simp, rfl⟩
  rw [if_neg hname]
  by_cases hdepth : depthOk w.nodes objMaxDepth parent = false
  · rw [if_pos hdepth, returns_pure]
    exact .inl ⟨by simp, rfl⟩
  rw [if_neg hdepth]
  by_cases haccess : objAccess w caller parent rightWriteData = false
  · rw [if_pos haccess, returns_pure]
    exact .inl ⟨by simp, rfl⟩
  rw [if_neg haccess]
  obtain ⟨kids, hkids⟩ := hbase.inv.threaded
  obtain ⟨found, hfind, -⟩ := hkids.nsFindChild (fun a => hbase.lt) (hbase.ne_zero hparent.1) name
  rw [returns_bind, returns_lift]
  refine ⟨found, hfind, ?_⟩
  by_cases hfound : found ≠ 0
  · rw [if_pos hfound, returns_pure]
    exact .inl ⟨by simp, rfl⟩
  · rw [if_neg hfound, returns_bind, returns_set, returns_pure]
    refine .inr ⟨rfl, rfl, rule.link hI hlive hblank hparent hne hdir (by simpa using hdepth)
      ?_ (by omega)⟩
    rw [hfind, not_not.mp hfound]

/-! ### Handles -/

omit rule in
theorem returns_onTable {α : Type} {x : HandleM α} {Q : α → HandleTable → Prop}
    (h : Returns x Q (w.tasks i).table) :
    Returns (onTable i x) (fun a w' => ∃ table, Q a table ∧
      w' = w.setTask i fun t => { t with table }) w := by
  obtain ⟨a, table, hrun, hQ⟩ := h
  simp only [onTable, returns_lift, returns_rules]
  exact ⟨(a, table), hrun, table, hQ, rfl⟩

omit rule in
theorem tables_setTask (h : ∀ j, TableInv (w.tasks j).table) (ht : TableInv table) (j : Nat) :
    TableInv ((w.setTask i fun t => { t with table }).tasks j).table := by
  by_cases hj : j = i
  · rw [hj, tasks_set_self]
    exact ht
  · rw [tasks_set_of_ne hj]
    exact h j

omit rule in
theorem tokens_setTask (table : HandleTable) (j : Nat) :
    ((w.setTask i fun t => { t with table }).tasks j).token = (w.tasks j).token ∧
      ((w.setTask i fun t => { t with table }).tasks j).procObj = (w.tasks j).procObj := by
  by_cases hj : j = i
  · rw [hj, tasks_set_self]
    exact ⟨rfl, rfl⟩
  · rw [tasks_set_of_ne hj]
    exact ⟨rfl, rfl⟩

omit rule in
theorem entry_setTask_same (h : table.entryObj = (w.tasks i).table.entryObj) :
    (w.setTask i fun t => { t with table }).entry = w.entry := by
  funext ⟨j, k⟩
  by_cases hj : j = i
  · subst hj
    rw [World.entry, tasks_set_self]
    exact congrFun h k
  · rw [World.entry, tasks_set_of_ne hj]
    rfl

/-- A handle is opened, with a reference of its own, or not. -/
theorem returns_htOpenObject (hI : I w held) (hlive : w.live obj)
    (hcaller : ∀ i, caller = some i → i < maxTasks) (hspace : w.Spacious caller) (rights : Nat) :
    Returns (htOpenObject caller obj rights) (fun r w' => I w' held ∧ w'.live = w.live ∧
      w'.nodes = w.nodes ∧
      ∀ handle, r = .ok handle → (w'.objs obj).refs = (w.objs obj).refs + 1) w := by
  have hbase := rule.base hI
  obtain ⟨hptr, -, hdeleting⟩ := hbase.inv.body obj hlive
  unfold htOpenObject
  cases caller with
  | none => exact returns_pure.mpr ⟨hI, rfl, rfl, nofun⟩
  | some i =>
  simp only [returns_rules]
  refine (returns_onTable (returns_htOpen (hbase.table i) hptr)).mono ?_
  rintro r w1 ⟨table, ⟨htable, hopened⟩, rfl⟩
  have hentry := hopened.entry (hbase.table i) (hspace i rfl) hptr
  cases r with
  | error status =>
    refine returns_pure.mpr ⟨rule.quiet hI ?_, rfl, rfl, nofun⟩
    exact ⟨rfl, rfl, rfl, rfl, fun _ => rfl, tokens_setTask _, fun h => tables_setTask h htable,
      entry_setTask_same hentry⟩
  | ok handle =>
  obtain ⟨index, hindex, hfree, hentries⟩ := hentry
  have hdel : ((w.setTask i fun t => { t with table }).objs obj).deleting = false := hdeleting
  simp only [objRef, hbase.ne_zero hlive, hdel, Bool.false_eq_true, or_self, if_false,
    returns_rules]
  refine ⟨rule.opens hI hlive (hcaller i rfl) hindex ⟨rfl, rfl, rfl, rfl, fun a ha => ?_, ?_,
    tokens_setTask _,
    tables_setTask hbase.table htable, hfree, entry_setTask hentries⟩, rfl, rfl, fun _ _ => ?_⟩
  · rw [objs_set_of_ne ha, objs_set_of_ne ha]
    rfl
  · rw [objs_set_self, objs_set_self]
    rfl
  · rw [objs_set_self, objs_set_self]
    rfl

/-- `.soc_make_handle` never destroys the object: the handle has taken a reference. -/
theorem returns_makeHandle (hI : I w obj) (hlive : w.live obj)
    (hcaller : ∀ i, caller = some i → i < maxTasks) (hspace : w.Spacious caller) (rights : Nat) :
    Returns (makeHandle caller obj rights) (fun _ w' => I w' 0) w := by
  rw [makeHandle, returns_bind]
  refine (returns_htOpenObject rule hI hlive hcaller hspace rights).mono ?_
  rintro r w1 ⟨hI1, hlive1, -, hrefs⟩
  cases r with
  | error status => exact returns_pure.mpr (rule.leak hI1)
  | ok handle =>
    have hpos := ((rule.base hI).inv.body obj hlive).2.1
    have hmore := hrefs handle rfl
    rw [returns_bind]
    refine (returns_objDeref rule hI1 (by rwa [hlive1]) fun _ hone => by omega).mono
      fun _ w2 hI2 => ?_
    exact returns_pure.mpr hI2.1

end Rule

end Mellivora
