import Mellivora.Kernel.Proofs.ObjectProofs

/-!
# Proofs: runs of the object calls

Every call is made up of the changes that an `ObjectRule` is about, so an invariant with such a rule
holds along every run whose calls fit.
-/

namespace Mellivora

open Outcome Linked Function

variable {handle : Nat} {w w' : World} {obj rights i : Nat} {caller : Option Nat}

section Rule

variable {strict : Prop} {I : World → Nat → Prop} (rule : ObjectRule strict I)
include rule

/-! ## Making and opening -/

/-- A new object is made, linked and opened, or all is taken back. -/
theorem returns_createNew {place : Place} (hI : I w 0) (hparent : w.Placed place.parent)
    (hdir : strict → (w.objs place.parent).type = .directory) (hcaller : ∀ i, caller = some i →
      i < maxTasks)
    (hspace : w.Spacious caller) (type : ObjType) (rights : Nat) :
    Returns (createNew caller type place rights) (fun _ w' => I w' 0) w := by
  have hbase := rule.base hI
  rw [createNew, returns_bind]
  refine (returns_objAlloc rule hI type).mono ?_
  rintro body w1 (⟨rfl, hI1⟩ | ⟨hne, htakes, -⟩)
  · rw [if_pos rfl, returns_pure]
    exact hI1
  rw [if_neg hne]
  have hI1 := rule.takes hI htakes
  -- The body was not handed out, so it is not the directory.
  have hparentNe : body ≠ place.parent := (htakes.ne hbase.inv hparent.1).symm
  have hparent1 : w1.Placed place.parent := htakes.placed hbase.inv hparent
  have hdir1 : strict → (w1.objs place.parent).type = .directory := by
    rw [htakes.objs _ hparentNe.symm]
    exact hdir
  rw [returns_bind]
  refine (returns_objSecurityAlloc body).mono ?_
  rintro secured w2 ⟨hquiet, htasks2⟩
  have hI2 := rule.quiet hI1 hquiet
  have hlive2 : w2.live body := by rw [hquiet.live, htakes.live, update_self]
  have hblank2 : w2.nodes body = {} := by rw [hquiet.nodes, htakes.nodes, update_self]
  cases secured with
  | false =>
    rw [if_pos rfl, returns_pure]
    exact rule.leak hI2
  | true =>
  rw [if_neg (by decide), returns_bind]
  refine (returns_objNsLink rule hI2 hlive2 hblank2 (hquiet.placed hparent1) hparentNe
    (by rw [hquiet.type]; exact hdir1) place.leaf).mono ?_
  rintro r w3 (⟨hsome, rfl⟩ | ⟨rfl, rfl, hI3⟩)
  · obtain ⟨status, rfl⟩ := Option.ne_none_iff_exists'.mp hsome
    simp only [returns_bind]
    refine (returns_objDeref rule hI2 hlive2 fun _ _ => by rw [hblank2]).mono fun _ w4 hI4 => ?_
    exact returns_pure.mpr hI4.1
  simp only [returns_rules]
  split
  · refine returns_makeHandle rule hI3 hlive2 hcaller (fun i hi => ?_) rights
    show (w2.tasks i).table.Spacious
    rw [htasks2, htakes.tasks]
    exact hspace i hi
  · rw [returns_bind]
    refine (returns_objDeref rule hI3 hlive2 fun _ _ => ?_).mono fun _ w4 hI4 => ?_
    · show (linkNodes w2.nodes body place.leaf place.parent body).child = 0
      rw [linkNodes_obj _ _ hparentNe, hblank2]
    · exact returns_pure.mpr hI4.1

theorem returns_openExisting (hI : I w obj) (hdone : I w 0) (hlive : w.live obj)
    (hcaller : ∀ i, caller = some i → i < maxTasks) (hspace : w.Spacious caller) (rights : Nat) :
    Returns (openExisting caller obj rights) (fun _ w' => I w' 0) w := by
  rw [openExisting, returns_bind, returns_get]
  split
  · exact returns_makeHandle rule hI hlive hcaller hspace rights
  · exact returns_pure.mpr hdone

/-- `SYS_OBJECT_OPEN` keeps the invariant. -/
theorem returns_sysObjectOpen (hI : I w 0) (hcaller : ∀ i, caller = some i → i < maxTasks)
    (hspace : w.Spacious caller) (name : Option ObjName) (rights : Nat) :
    Returns (sysObjectOpen caller name rights) (fun _ w' => I w' 0) w := by
  unfold sysObjectOpen
  cases objCopyName name with
  | none => exact returns_pure.mpr hI
  | some path =>
  simp only [returns_bind]
  refine (returns_objNsWalk rule hI path).mono ?_
  rintro r w1 ⟨⟨links, rfl⟩, hplaced⟩
  have hI1 := rule.quiet hI (quiet_onwLinks w links)
  cases r with
  | error status => exact returns_pure.mpr hI1
  | ok obj =>
  simp only [returns_rules]
  split
  · rw [returns_bind]
    refine (returns_htOpenObject rule hI1 (hplaced obj rfl).1 hcaller hspace rights).mono ?_
    rintro r w2 ⟨hI2, -⟩
    cases r with
    | error status => exact returns_pure.mpr hI2
    | ok handle => exact returns_pure.mpr hI2
  · exact returns_pure.mpr hI1

/-- What a call has to meet for the invariant to hold after it. -/
def ObjectCall.Fits (strict : Prop) (I : World → Nat → Prop) : ObjectCall → World → Prop
  | create caller name _ _ disposition, w =>
    w.Spacious caller ∧ ∀ place w', (createPlace caller name).run w = some (.ok place, w') →
      (place.existing ≠ 0 → Disposition.ofIndex disposition ≠ some .create → I w place.existing) ∧
      (place.existing = 0 → strict → (w.objs place.parent).type = .directory)
  | opens caller _ _, w => w.Spacious caller
  | dup caller handle _, w =>
    w.Spacious caller ∧ ∀ i slot, caller = some i → htEntry (w.tasks i).table handle = some slot →
      w.live ((w.tasks i).table.mem.dword (slot + heObj))
  | closes caller handle, w =>
    ∀ i slot, caller = some i → htEntry (w.tasks i).table handle = some slot →
      w.live ((w.tasks i).table.mem.dword (slot + heObj)) ∧
      (strict → w.MayDrop ((w.tasks i).table.mem.dword (slot + heObj)))
  | closeAll caller, w =>
    ∀ i n w', caller = some i → n < (w.tasks i).table.hcap → (htCloseSlots i n).run w =
      some ((), w') →
      I w' 0 → w'.entry (i, n) ≠ 0 → w'.live (w'.entry (i, n)) ∧
      (strict → w'.MayDrop (w'.entry (i, n)))
  | newNamed _ _ parent _, w => strict → (w.objs parent).type = .directory
  | becomes _ _ _ _, _ => True

/-- `SYS_OBJECT_CREATE` keeps the invariant. -/
theorem returns_sysObjectCreate {name : Option ObjName} {type rights disposition : Nat} (hI : I w 0)
    (hcaller : ∀ i, caller = some i → i < maxTasks)
    (hfits : (ObjectCall.create caller name type rights disposition).Fits strict I w) :
    Returns (sysObjectCreate caller name type rights disposition) (fun _ w' => I w' 0) w := by
  obtain ⟨hspace, hplaces⟩ := hfits
  unfold sysObjectCreate
  cases ObjType.ofIndex type with
  | none => exact returns_pure.mpr hI
  | some type =>
  cases hdisp : Disposition.ofIndex disposition with
  | none => exact returns_pure.mpr hI
  | some disp =>
  dsimp only
  by_cases hreplace : disp = .supersede ∨ disp = .overwriteIf
  · rw [if_pos hreplace, returns_pure]
    exact hI
  rw [if_neg hreplace, returns_bind]
  obtain ⟨r, w1, hrun, ⟨links, rfl⟩, hplaced⟩ := returns_createPlace rule caller hI name
  refine ⟨r, _, hrun, ?_⟩
  have hI1 := rule.quiet hI (quiet_onwLinks w links)
  cases r with
  | error status => exact returns_pure.mpr hI1
  | ok place =>
  obtain ⟨hparent, hexisting⟩ := hplaced place rfl
  obtain ⟨hborrow, hdir⟩ := hplaces place _ hrun
  dsimp only
  by_cases hne : place.existing ≠ 0
  · rw [if_pos hne]
    by_cases hcreate : disp = .create
    · rw [if_pos hcreate, returns_pure]
      exact hI1
    · rw [if_neg hcreate]
      have hheld :=
        rule.quiet (hborrow hne (by simpa [hdisp] using hcreate)) (quiet_onwLinks w links)
      exact returns_openExisting rule hheld hI1 (hexisting hne).1 hcaller hspace rights
  · rw [if_neg hne]
    by_cases hopens : disp = .opens
    · rw [if_pos hopens, returns_pure]
      exact hI1
    · rw [if_neg hopens]
      exact returns_createNew rule hI1 hparent (hdir (not_not.mp hne)) hcaller hspace type rights

/-- `SYS_OBJECT_DUP` keeps the invariant. -/
theorem returns_sysObjectDup {rights : Nat} (hI : I w 0)
    (hcaller : ∀ i, caller = some i → i < maxTasks)
    (hfits : (ObjectCall.dup caller handle rights).Fits strict I w) :
    Returns (sysObjectDup caller handle rights) (fun _ w' => I w' 0) w := by
  obtain ⟨hspace, hlive⟩ := hfits
  rw [sysObjectDup, returns_bind, returns_get]
  cases caller with
  | none => exact returns_pure.mpr hI
  | some i =>
  simp only [Option.bind_some]
  cases hentry : htEntry (w.tasks i).table handle with
  | none => exact returns_pure.mpr hI
  | some slot =>
  simp only [Option.map_some]
  split
  · exact returns_pure.mpr hI
  rw [returns_bind]
  refine (returns_htOpenObject rule hI (hlive i slot rfl hentry) hcaller hspace _).mono ?_
  rintro r w1 ⟨hI1, -⟩
  cases r with
  | error status => exact returns_pure.mpr hI1
  | ok handle => exact returns_pure.mpr hI1

omit rule in
theorem linkNodes_inNs {nodes : Nat → NsNode} {name : ObjName} {parent a : Nat} (hne : obj ≠ parent)
    (ha : (nodes a).inNs) : (linkNodes nodes obj name parent a).inNs := by
  grind [linkNodes_apply]

/-- The kernel makes an object, which is then in the namespace along with those that were. -/
theorem returns_objNewNamed {parent : Nat} (hI : I w 0) (hparent : w.Placed parent)
    (hdir : strict → (w.objs parent).type = .directory) (type : ObjType) (name : ObjName)
    (integ : Nat) :
    Returns (objNewNamed type name parent integ) (fun obj w' => I w' 0 ∧
      (obj ≠ 0 → (w'.Placed obj ∧ (w'.objs obj).type = type) ∧
        ∀ a, w.Placed a → w'.Placed a ∧ (w'.objs a).type = (w.objs a).type)) w := by
  have hbase := rule.base hI
  rw [objNewNamed, returns_bind]
  refine (returns_objAlloc rule hI type).mono ?_
  rintro body w1 (⟨rfl, hI1⟩ | ⟨hne, htakes, htype⟩)
  · rw [if_pos rfl, returns_pure]
    exact ⟨hI1, fun hne => absurd rfl hne⟩
  rw [if_neg hne, returns_bind]
  have hparentNe : body ≠ parent := (htakes.ne hbase.inv hparent.1).symm
  have hI1 := rule.takes hI htakes
  refine (returns_objSecurityAlloc body).mono ?_
  rintro secured w2 ⟨hquiet2, -⟩
  have hI2 := rule.quiet hI1 hquiet2
  cases secured with
  | false =>
    rw [if_pos rfl, returns_pure]
    exact ⟨rule.leak hI2, fun hne => absurd rfl hne⟩
  | true =>
  rw [if_neg (by decide), returns_bind, returns_modify, returns_bind]
  generalize hw3 : (w2.setObj body fun o =>
    { o with security := o.security.map fun sd => { sd with integ } }) = w3
  have hquiet : w1.Quiet w3 := hquiet2.trans (hw3 ▸ .setObj w2 body rfl)
  have hI3 := rule.quiet hI1 hquiet
  have hlive3 : w3.live body := by rw [hquiet.live, htakes.live, update_self]
  have hblank3 : w3.nodes body = {} := by rw [hquiet.nodes, htakes.nodes, update_self]
  have hparent3 := hquiet.placed (htakes.placed hbase.inv hparent)
  have hkeep : ∀ a, w.live a → (w3.objs a).type = (w.objs a).type := fun a ha => by
    rw [hquiet.type, htakes.objs a (htakes.ne hbase.inv ha)]
  refine (returns_objNsLink rule hI3 hlive3 hblank3 hparent3 hparentNe
    (by rw [hkeep parent hparent.1]; exact hdir) name).mono ?_
  rintro r w4 (⟨hsome, rfl⟩ | ⟨rfl, rfl, hI4⟩)
  · obtain ⟨status, rfl⟩ := Option.ne_none_iff_exists'.mp hsome
    exact returns_pure.mpr ⟨rule.leak hI3, fun hne => absurd rfl hne⟩
  simp only [returns_rules]
  refine ⟨rule.promote hI4 hlive3, fun _ => ⟨⟨⟨hlive3, Or.inr ?_⟩, ?_⟩, fun a ha => ?_⟩⟩
  · show (linkNodes w3.nodes body name parent body).inNs
    rw [linkNodes_obj _ _ hparentNe]
  · rw [objs_set_self]
    show (w3.objs body).type = type
    rw [hquiet.type, htype]
  · have ha3 := hquiet.placed (htakes.placed hbase.inv ha)
    refine ⟨⟨ha3.1, ha3.2.imp id (linkNodes_inNs hparentNe)⟩, ?_⟩
    rw [objs_set_of_ne (htakes.ne hbase.inv ha.1)]
    exact hkeep a ha.1

/-! ## Closing -/

omit rule in
theorem TableInv.entryObj_of_htEntry {t : HandleTable} {slot : Nat} (h : TableInv t)
    (hentry : htEntry t handle = some slot) :
    handleIndex handle < t.hcap ∧ slot = htSlot (handleIndex handle) t.handles ∧
      t.entryObj (handleIndex handle) = t.mem.dword (slot + heObj) := by
  obtain ⟨-, ⟨hindex, -⟩, rfl⟩ := (h.htEntry_eq_some handle slot).mp hentry
  exact ⟨hindex, rfl, entryObj_of_lt hindex⟩

/-- An entry is emptied and its reference dropped. -/
theorem returns_dropEntry {table : HandleTable} {index : Nat} (hI : I w 0) (hi : i < maxTasks)
    (hindex : index < (w.tasks i).table.hcap) (htable : TableInv table)
    (hentries : table.entryObj = Function.update (w.tasks i).table.entryObj index 0)
    (hlive : w.live (w.entry (i, index))) (hdrop : strict → w.MayDrop (w.entry (i, index))) :
    Returns (do
        modify fun w' => w'.setObj (w.entry (i, index)) fun o => { o with handles := o.handles - 1 }
        objDeref (w.entry (i, index)))
      (fun _ w' => I w' 0 ∧ w'.tasks = (w.setTask i fun t => { t with table }).tasks)
      (w.setTask i fun t => { t with table }) := by
  have hbase := rule.base hI
  rw [returns_bind, returns_modify]
  set w1 := (w.setTask i fun t => { t with table }).setObj (w.entry (i, index))
    fun o => { o with handles := o.handles - 1 } with hw1
  have hcloses : w.Closes i index w1 := by
    refine ⟨rfl, rfl, rfl, rfl, fun a => ?_, tokens_setTask _, tables_setTask hbase.table htable,
      entry_setTask hentries⟩
    by_cases ha : a = w.entry (i, index)
    · rw [hw1, ha, objs_set_self]
      rfl
    · rw [hw1, objs_set_of_ne ha]
      rfl
  have hrefs : (w1.objs (w.entry (i, index))).refs = (w.objs (w.entry (i, index))).refs :=
    congrArg (fun c => c.2.2.2) (hcloses.core _)
  have hI1 := rule.closes hI hi (Nat.lt_of_lt_of_le hindex (hbase.table i).cap) hlive hcloses
  refine (returns_objDeref rule hI1 hlive fun hs hone => ?_).mono fun _ w2 hI2 => hI2
  exact (hdrop hs).2 (hrefs ▸ hone)

/-- `SYS_OBJECT_CLOSE` keeps the invariant. -/
theorem returns_sysObjectClose (hI : I w 0) (hcaller : ∀ i, caller = some i → i < maxTasks)
    (hfits : (ObjectCall.closes caller handle).Fits strict I w) :
    Returns (sysObjectClose caller handle) (fun _ w' => I w' 0) w := by
  have hbase := rule.base hI
  unfold sysObjectClose htCloseObject
  cases caller with
  | none => exact returns_pure.mpr hI
  | some i =>
  simp only [returns_bind]
  refine (returns_onTable (returns_htClose handle)).mono ?_
  rintro r w1 ⟨table, htable, rfl⟩
  cases hentry : htEntry (w.tasks i).table handle with
  | none =>
    rw [hentry] at htable
    obtain ⟨rfl, rfl⟩ := htable
    refine returns_pure.mpr (rule.quiet hI ?_)
    exact ⟨rfl, rfl, rfl, rfl, fun _ => rfl, tokens_setTask _, fun h => tables_setTask h (h i),
      entry_setTask_same rfl⟩
  | some slot =>
  rw [hentry] at htable
  obtain ⟨rfl, rfl⟩ := htable
  obtain ⟨hindex, rfl, hobj⟩ := (hbase.table i).entryObj_of_htEntry hentry
  obtain ⟨hlive, hdrop⟩ := hfits i _ rfl hentry
  have hheld : w.entry (i, handleIndex handle) =
      (w.tasks i).table.mem.dword (htSlot (handleIndex handle) (w.tasks i).table.handles + heObj) :=
      hobj
  rw [← hheld] at hlive hdrop
  have hdone := returns_dropEntry rule hI (hcaller i rfl) hindex
    ((hbase.table i).withoutEntry (handleIndex handle)) (entryObj_clearEntry hindex) hlive hdrop
  rw [returns_bind, returns_modify] at hdone
  simp only [returns_bind, returns_modify]
  have hsame : (w.tasks i).table.mem.dword (htSlot (handleIndex handle) (w.tasks i).table.handles) =
      w.entry (i, handleIndex handle) := hheld.symm
  rw [hsame]
  exact hdone.mono fun _ w2 hI2 => returns_pure.mpr hI2.1

theorem returns_htCloseSlot {n : Nat} (hI : I w 0) (hi : i < maxTasks)
    (hn : n < (w.tasks i).table.hcap)
    (hdrop : w.entry (i, n) ≠ 0 → w.live (w.entry (i, n)) ∧ (strict → w.MayDrop (w.entry (i, n)))) :
    Returns (htCloseSlot i n) (fun _ w' => I w' 0 ∧
      (w'.tasks i).table.hcap = (w.tasks i).table.hcap ∧
      w'.entry = Function.update w.entry (i, n) 0) w := by
  rw [htCloseSlot, returns_bind, returns_get]
  have hentry : (w.tasks i).table.entryObj n = w.entry (i, n) := rfl
  simp only [hentry]
  by_cases hzero : w.entry (i, n) = 0
  · rw [if_pos hzero, returns_pure]
    refine ⟨hI, rfl, ?_⟩
    rw [← hzero, update_eq_self]
  rw [if_neg hzero]
  obtain ⟨hlive, hmay⟩ := hdrop hzero
  have hdone := returns_dropEntry rule hI hi hn ((rule.base hI).table i |>.clearEntry n)
    (entryObj_clearEntry hn) hlive hmay
  rw [returns_bind, returns_modify]
  refine hdone.mono ?_
  rintro - w1 ⟨hI1, htasks⟩
  refine ⟨hI1, ?_, ?_⟩
  · rw [htasks, tasks_set_self]
    rfl
  have hsame :
    w1.entry = (w.setTask i fun t => { t with table := (w.tasks i).table.clearEntry n }).entry := by
    funext p
    rw [World.entry, htasks]
    rfl
  rw [hsame, entry_setTask (entryObj_clearEntry hn)]

/-- Closing the entries one by one. -/
theorem returns_htCloseSlots {n : Nat} (hI : I w 0) (hi : i < maxTasks)
    (hn : n ≤ (w.tasks i).table.hcap)
    (hdrop : ∀ m w', m < n → (htCloseSlots i m).run w = some ((), w') → I w' 0 →
      w'.entry (i, m) ≠ 0 →
      w'.live (w'.entry (i, m)) ∧ (strict → w'.MayDrop (w'.entry (i, m)))) :
    Returns (htCloseSlots i n) (fun _ w' => I w' 0 ∧
      (w'.tasks i).table.hcap = (w.tasks i).table.hcap ∧
      ∀ m < n, w'.entry (i, m) = 0) w := by
  induction n with
  | zero => exact returns_pure.mpr ⟨hI, rfl, fun m hm => absurd hm (Nat.not_lt_zero _)⟩
  | succ n ih =>
  obtain ⟨⟨⟩, w1, hrun, hI1, hcap, hfree⟩ := ih (by omega) fun m w' hm => hdrop m w' (by omega)
  rw [htCloseSlots, returns_bind]
  refine ⟨(), w1, hrun, ?_⟩
  refine (returns_htCloseSlot rule hI1 hi (by omega) (hdrop n w1 (by omega) hrun hI1)).mono ?_
  rintro - w2 ⟨hI2, hcap2, hentry⟩
  refine ⟨hI2, hcap2.trans hcap, fun m hm => ?_⟩
  rw [hentry]
  by_cases hmn : m = n
  · rw [hmn, update_self]
  · rw [update_of_ne (by simpa using hmn)]
    exact hfree m (by omega)

omit rule in
theorem returns_objDeref_zero : Returns (objDeref 0) (fun _ w' => w' = w) w := by
  rw [objDeref, if_pos rfl, returns_pure]

omit rule in
theorem World.Quiet.setTask (w : World) (i : Nat) {f : Task → Task}
    (htable : (f (w.tasks i)).table = (w.tasks i).table)
    (htoken : (f (w.tasks i)).token = (w.tasks i).token ∧ (f (w.tasks i)).procObj =
      (w.tasks i).procObj) :
    w.Quiet (w.setTask i f) := by
  have htables : ∀ j, ((w.setTask i f).tasks j).table = (w.tasks j).table := by
    intro j
    by_cases hj : j = i
    · rw [hj, tasks_set_self, htable]
    · rw [tasks_set_of_ne hj]
  refine ⟨rfl, rfl, rfl, rfl, fun _ => rfl, fun j => ?_, fun h j => ?_, ?_⟩
  · by_cases hj : j = i
    · rw [hj, tasks_set_self]
      exact htoken
    · rw [tasks_set_of_ne hj]
      exact ⟨rfl, rfl⟩
  · rw [htables j]
    exact h j
  · funext p
    rw [World.entry, htables]
    rfl

/-- A task that ends gives up what it holds. -/
theorem returns_htCloseAll (hI : I w 0) (hcaller : ∀ i, caller = some i → i < maxTasks)
    (hfits : (ObjectCall.closeAll caller).Fits strict I w) :
    Returns (htCloseAll caller) (fun _ w' => I w' 0) w := by
  have hbase := rule.base hI
  unfold htCloseAll
  cases caller with
  | none => exact returns_pure.mpr hI
  | some i =>
  -- The references behind the table are none, since the token and the process object are 0.
  have hlast : ∀ w1, I w1 0 → (∀ n, w1.entry (i, n) = 0) →
      Returns (do
        modify fun w => w.setTask i fun t => { t with table := t.table.dropped }
        let token := ((← get).tasks i).token
        modify fun w => w.setTask i fun t => { t with token := 0 }
        objDeref token
        let procObj := ((← get).tasks i).procObj
        modify fun w => w.setTask i fun t => { t with procObj := 0 }
        objDeref procObj) (fun _ w' => I w' 0) w1 := by
    intro w1 hI1 hfree
    have hI2 := rule.vacate hI1 hfree
    set w2 := w1.setTask i fun t => { t with table := t.table.dropped }
    have htokens := (rule.base hI2).inv.tasks i
    simp only [returns_rules]
    rw [htokens.1]
    refine returns_objDeref_zero.mono ?_
    rintro - w3 rfl
    have hI3 :=
      rule.quiet hI2 (.setTask w2 i (f := fun t => { t with token := 0 }) rfl ⟨htokens.1.symm, rfl⟩)
    have htokens3 := (rule.base hI3).inv.tasks i
    rw [htokens3.2]
    refine returns_objDeref_zero.mono ?_
    rintro - w4 rfl
    exact rule.quiet hI3
      (.setTask _ i (f := fun t => { t with procObj := 0 }) rfl ⟨rfl, htokens3.2.symm⟩)
  simp only [returns_rules]
  by_cases htable : (w.tasks i).table.handles ≠ 0
  · rw [if_pos htable, returns_bind]
    refine (returns_htCloseSlots rule hI (hcaller i rfl) (Nat.le_refl _)
      fun m w' hm hrun hI' hne => hfits i m w' rfl hm hrun hI' hne).mono ?_
    rintro - w1 ⟨hI1, hcap, hfree⟩
    refine hlast w1 hI1 fun n => ?_
    by_cases hn : n < (w.tasks i).table.hcap
    · exact hfree n hn
    · exact entryObj_of_le (by rw [hcap]; omega)
  · rw [if_neg htable]
    refine hlast w hI fun n => ?_
    exact congrFun ((hbase.table i).entryObj_of_noTable (not_not.mp htable)) n

/-- Every call that fits comes to an end and keeps the invariant. -/
theorem ObjectRule.step (c : ObjectCall) (hI : I w 0) (hlegal : c.Legal w)
    (hfits : c.Fits strict I w) :
    ∃ w', c.step w = some w' ∧ I w' 0 := by
  have hstep : Returns c.run (fun _ w' => I w' 0) w → ∃ w', c.step w = some w' ∧ I w' 0 := by
    rintro ⟨⟨⟩, w', hrun, hI'⟩
    exact ⟨w', by rw [ObjectCall.step, hrun]; rfl, hI'⟩
  refine hstep ?_
  cases c with
  | create caller name type rights disposition =>
    exact returns_bind.mpr ((returns_sysObjectCreate rule hI hlegal hfits).mono
      fun _ _ h => returns_pure.mpr h)
  | opens caller name rights =>
    exact returns_bind.mpr ((returns_sysObjectOpen rule hI hlegal hfits name rights).mono
      fun _ _ h => returns_pure.mpr h)
  | dup caller handle rights =>
    exact returns_bind.mpr ((returns_sysObjectDup rule hI hlegal hfits).mono
      fun _ _ h => returns_pure.mpr h)
  | closes caller handle =>
    exact returns_bind.mpr ((returns_sysObjectClose rule hI hlegal hfits).mono
      fun _ _ h => returns_pure.mpr h)
  | closeAll caller => exact returns_htCloseAll rule hI hlegal hfits
  | newNamed type name parent integ =>
    exact returns_bind.mpr ((returns_objNewNamed rule hI hlegal hfits type name integ).mono
      fun _ _ h => returns_pure.mpr h.1)
  | becomes task pid euid sess =>
    exact returns_modify.mpr (rule.quiet hI (.setTask w task rfl ⟨rfl, rfl⟩))

end Rule

end Mellivora
