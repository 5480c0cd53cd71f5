import Mellivora.Kernel.Vfs
import Mellivora.Kernel.Proofs.RefCountProofs
import Mellivora.Kernel.Proofs.FileDescriptorProofs

/-!
# Proofs: virtual descriptors and what is under them

Every open entry of `fd_table` is named by a descriptor and every File object is owned by one.
-/

namespace Mellivora

open Outcome Runs Function List

variable {e : FdEntry}

/-! ## The entries of `fd_table` -/

section Fds

variable {s s' : FdState} {fd : Nat}

theorem entry_setEntry (s : FdState) (fd : Nat) (e : FdEntry) :
    (s.setEntry fd e).entry = update s.entry fd e := by
  funext i
  show update s.fdTable s.task _ s.task i = _
  rw [update_self]
  rfl

theorem FdState.closed_of_findFd (h : s.findFd = some fd) :
    fd < fdMax ∧ (s.entry fd).flags = fdFlagClosed :=
  ⟨mem_range.mp (mem_of_find?_eq_some h), by simpa using find?_some h⟩

/-- The entry that is filled, if any. -/
theorem entry_fdOpenIn (s : FdState) (fd : Nat) (base : Name) (mode : Nat) :
    Yields (fdOpenIn fd base mode) (fun r s' => r = none ∧ s'.entry = s.entry ∨
      ∃ e, r = some fd ∧ e.flags = mode ∧ s'.entry = update s.entry fd e) s := by
  simp only [fdOpenIn, yields_rules]
  cases hfind : hbfsFindFile s.kernel base with
  | none => exact .inl ⟨rfl, rfl⟩
  | some slot =>
    dsimp only
    rw [yields_ite]
    split
    · exact .inl ⟨rfl, rfl⟩
    · exact .inr ⟨s.kernel.fdEntry slot mode, rfl, rfl,
        entry_setEntry s fd (s.kernel.fdEntry slot mode)⟩

/-- An open fills one closed entry. -/
theorem entry_fdOpen (s : FdState) (dir : List PathStep) (base : Name) (mode : Nat) :
    Yields (fdOpen dir base mode) (fun r s' => r = none ∧ s'.entry = s.entry ∨
      ∃ fd e, r = some fd ∧ s.findFd = some fd ∧ e.flags = mode ∧
      s'.entry = update s.entry fd e) s := by
  simp only [fdOpen, yields_bind, yields_get]
  cases hfd : s.findFd with
  | none => exact .inl ⟨rfl, rfl⟩
  | some fd =>
  by_cases hempty : base.isEmpty
  · simp only [if_pos hempty]
    exact .inl ⟨rfl, rfl⟩
  simp only [if_neg hempty, yields_bind, yields_get, yields_onKernel]
  refine Yields.mono (Q := fun _ _ => True) trivial fun failed k1 _ => ?_
  cases failed with
  | true => exact .inl ⟨rfl, rfl⟩
  | false =>
    rw [if_neg Bool.false_ne_true, yields_bind]
    refine (entry_fdOpenIn _ fd base mode).mono ?_
    rintro r s1 (⟨rfl, hentry⟩ | ⟨e, rfl, hflags, hentry⟩)
    · exact .inl ⟨rfl, hentry⟩
    · exact .inr ⟨fd, e, rfl, rfl, hflags, hentry⟩

/-- A close changes one entry. -/
theorem entry_fdClose (s : FdState) (fd : Nat) :
    Yields (fdClose fd) (fun _ s' => s'.entry =
      if fd < fdMax then update s.entry fd { s.entry fd with flags := fdFlagClosed } else s.entry)
        s := by
  simp only [fdClose, yields_onKernel, yields_rules]
  by_cases hfd : fdMax ≤ fd
  · rw [if_pos hfd, if_neg (Nat.not_lt.mpr hfd)]
  · rw [if_neg hfd, if_pos (Nat.lt_of_not_le hfd)]
    split
    · refine Yields.mono (Q := fun _ _ => True) trivial fun _ k1 _ => ?_
      exact entry_setEntry { s with kernel := k1 } fd { s.entry fd with flags := fdFlagClosed }
    · exact entry_setEntry s fd { s.entry fd with flags := fdFlagClosed }

/-- The entries that are open are as they were, except for how far they have been read. -/
def FdState.Keeps (s s' : FdState) : Prop :=
  ∀ fd, (s'.entry fd).flags = (s.entry fd).flags ∧
    ((s.entry fd).flags ≠ fdFlagClosed → (s'.entry fd).SameFile (s.entry fd))

theorem FdState.Keeps.of_eq (h : s'.entry = s.entry) : s.Keeps s' := by
  intro fd
  rw [h]
  exact ⟨rfl, fun _ => rfl⟩

theorem keeps_update (h : s'.entry = update s.entry fd e) (hflags : e.flags = (s.entry fd).flags)
    (hfile : (s.entry fd).flags ≠ fdFlagClosed → e.SameFile (s.entry fd)) : s.Keeps s' := by
  intro i
  rw [h]
  by_cases hi : i = fd
  · rw [hi, update_self]
    exact ⟨hflags, hfile⟩
  · rw [update_of_ne hi]
    exact ⟨rfl, fun _ => rfl⟩

/-- A read changes a position only. -/
theorem keeps_fdRead (s : FdState) (fd len : Nat) :
    Yields (fdRead fd len) (fun _ s' => s.Keeps s') s := by
  simp only [fdRead, yields_rules]
  split
  · exact .of_eq rfl
  split
  · exact .of_eq rfl
  split
  · exact .of_eq rfl
  rw [yields_onKernel]
  refine Yields.mono (Q := fun _ _ => True) trivial fun block k1 _ => ?_
  cases block with
  | none => exact .of_eq rfl
  | some block =>
  simp only [yields_bind, yields_onKernel]
  refine Yields.mono (Q := fun _ _ => True) trivial fun data k2 _ => ?_
  simp only [yields_rules]
  split
  · exact .of_eq rfl
  · exact keeps_update (entry_setEntry _ fd _) rfl fun _ => rfl

end Fds

/-! ## The File objects -/

section Files

variable {w w' : World} {S : Nat → Prop} {obj : Nat} {caller : Option Nat}

/-- The File objects are those in `S`, with one reference each. -/
structure World.Files (w : World) (S : Nat → Prop) : Prop where
  bodies : w.Bodies
  file : ∀ a, S a ↔ w.live a ∧ (w.objs a).type = .file
  refs : ∀ a, S a → (w.objs a).refs = 1

theorem World.Files.zero_notMem (h : w.Files S) :
    0 ∉ w.pool := fun hmem => (h.bodies.free 0 hmem).2.ne_zero rfl

theorem World.Files.congr {S' : Nat → Prop} (h : w.Files S) (hS : ∀ a, S' a ↔ S a) : w.Files S' :=
  ⟨h.bodies, fun a => (hS a).trans (h.file a), fun a ha => h.refs a ((hS a).mp ha)⟩

theorem World.Files.ne_zero (h : w.Files S) {a : Nat} (ha : S a) :
    a ≠ 0 := h.bodies.ne_zero ((h.file a).mp ha).1

theorem World.Files.quiet (h : w.Files S) (hquiet : w.Quiet w') : w'.Files S := by
  refine ⟨h.bodies.quiet hquiet, fun a => ?_, fun a ha => ?_⟩
  · rw [hquiet.live, hquiet.type]
    exact h.file a
  · rw [hquiet.refs]
    exact h.refs a ha

theorem World.Files.notMem_takes (h : w.Files S) (htakes : w.Takes obj w') : ¬ S obj := by
  intro hS
  have hlive := ((h.file obj).mp hS).1
  have hfree := (h.bodies.free obj (htakes.pool ▸ mem_cons_self ..)).1
  cases hlive.symm.trans hfree

theorem World.Files.takes (h : w.Files S) (htakes : w.Takes obj w')
    (htype : (w'.objs obj).type = .file) :
    w'.Files fun a => S a ∨ a = obj := by
  refine ⟨h.bodies.takes htakes, ?_, ?_⟩
  · grind [h.file, htakes.live_apply, htakes.objs]
  · grind [h.refs, htakes.fresh, htakes.objs]

theorem World.Files.destroys (h : w.Files S) (hS : S obj) (hdestroys : w.Destroys obj w') :
    w'.Files fun a => S a ∧ a ≠ obj := by
  refine ⟨h.bodies.destroy ((h.file obj).mp hS).1 hdestroys, ?_, ?_⟩
  · grind [h.file, hdestroys.live_apply, hdestroys.objs]
  · grind [h.refs, hdestroys.objs]

theorem World.Files.takes_destroys {w1 : World} (h : w.Files S) (htakes : w.Takes obj w1)
    (hlive : w1.live obj) (hdestroys : w1.Destroys obj w') : w'.Files S := by
  have hnot := h.notMem_takes htakes
  refine ⟨(h.bodies.takes htakes).destroy hlive hdestroys, ?_, ?_⟩
  · grind [h.file, htakes.live_apply, htakes.objs, hdestroys.live_apply, hdestroys.objs]
  · grind [h.refs, htakes.objs, hdestroys.objs]

theorem Threaded.rename {nodes : Nat → NsNode} {live : Nat → Bool} {kids : Nat → List Nat}
    (h : Threaded nodes live kids) (obj : Nat) (name : ObjName) :
    Threaded (setNode nodes obj fun n => { n with name }) live kids := by
  have hkid := h.kid
  exact h.congr (by grind [setNode_apply]) (by grind [setNode_apply])

theorem World.Files.rename (h : w.Files S) (obj : Nat) (name : ObjName) :
    World.Files { w with nodes := setNode w.nodes obj fun n => { n with name } } S := by
  obtain ⟨kids, hkids⟩ := h.bodies.threaded
  exact ⟨⟨h.bodies.pool, h.bodies.free, h.bodies.body, kids, hkids.rename obj name⟩, h.file, h.refs⟩

/-- A new File object, or none. -/
theorem returns_newFileObject (h : w.Files S) (path : ObjName) :
    Returns (newFileObject caller path) (fun obj w' => obj = 0 ∧ w'.Files S ∨
      obj ≠ 0 ∧ ¬ S obj ∧ w'.Files fun a => S a ∨ a = obj) w := by
  rw [newFileObject, returns_bind]
  refine (allocated_objAlloc h.zero_notMem .file).mono fun obj w1 hcase => ?_
  simp only [objNameSet, returns_rules]
  rcases hcase with ⟨rfl, hquiet⟩ | ⟨rfl, body, w2, htakes, hlive, -, hdestroys⟩ |
    ⟨hne, htakes, htype⟩
  · exact .inl ⟨rfl, h.quiet hquiet⟩
  · exact .inl ⟨rfl, h.takes_destroys htakes hlive hdestroys⟩
  · rw [if_neg hne]
    exact .inr ⟨hne, h.notMem_takes htakes, (h.takes htakes htype).rename obj _⟩

theorem World.Files.returns_objDeref (h : w.Files S) (hS : S obj) :
    Returns (objDeref obj) (fun _ w' => w'.Files fun a => S a ∧ a ≠ obj) w := by
  obtain ⟨kids, hkids⟩ := h.bodies.threaded
  have hlive := ((h.file obj).mp hS).1
  refine (destroys_objDeref hkids (fun a ha => (h.bodies.body a ha).1.2) (h.bodies.ne_zero hlive)
    (h.refs obj hS)).mono fun _ w' hdestroys => h.destroys hS hdestroys

end Files

/-! ## The calls -/

section Calls

variable {s s' : VfsState} {v dst : Nat} {S : Nat → Prop}

theorem returns_onFds {α : Type} {x : FdM α} {Q : α → VfsState → Prop} :
    Returns (onFds x) Q s ↔ Yields x (fun a fds => Q a { s with fds }) s.fds := by
  simp only [onFds, Yields, returns_rules]
  rcases x.run s.fds with ⟨a, fds⟩
  simp only [returns_rules]

theorem returns_onWorld {α : Type} {x : ObjM α} {Q : α → VfsState → Prop}
    (h : Returns x (fun a world => Q a { s with world }) s.world) : Returns (onWorld x) Q s := by
  obtain ⟨a, world, hrun, hQ⟩ := h
  simp only [onWorld, returns_lift, returns_rules]
  exact ⟨_, hrun, hQ⟩

theorem notOpen_of_firstFree {table : Nat → Vfd} (h : firstFree table = some v) :
    v < vfsMaxFds ∧ (table v).isOpen = false := by
  have hfound := find?_some h
  simp only [Bool.and_eq_true, Bool.not_eq_true'] at hfound
  exact ⟨mem_range.mp (mem_of_find?_eq_some h), hfound.2⟩

theorem returns_vfsAllocFd :
    Returns vfsAllocFd (fun r s' => r = none ∧ s' = s ∨
      ∃ v, r = some v ∧ s.freeVfd = some v ∧ s' = s.setVfd v { s.vfdTable v with obj := 0 }) s := by
  simp only [vfsAllocFd, returns_rules]
  cases hfree : s.freeVfd with
  | none => exact returns_pure.mpr (.inl ⟨rfl, rfl⟩)
  | some v =>
    simp only [returns_rules]
    exact .inr ⟨v, rfl, rfl, rfl⟩

/-- An open fills one descriptor and one entry. -/
theorem returns_vfsHbfsOpen (s : VfsState) (dir : List PathStep) (base : Name) (flags : Nat) :
    Returns (vfsHbfsOpen dir base flags) (fun r s' => s'.world = s.world ∧
      (r = none ∧ s'.vfdTable = s.vfdTable ∧ s.fds.Keeps s'.fds ∨
        ∃ v fd e, r = some v ∧ s.freeVfd = some v ∧ s.fds.findFd = some fd ∧ e.flags = flags ∧
          s'.fds.entry = update s.fds.entry fd e ∧
          s'.vfdTable = update s.vfdTable v
            { s.vfdTable v with isOpen := true, pos := 0, realFd := fd, obj := 0 })) s := by
  rw [vfsHbfsOpen, returns_bind, returns_onFds]
  refine (entry_fdOpen s.fds dir base flags).mono ?_
  rintro r fds (⟨rfl, hentry⟩ | ⟨fd, e, rfl, hfd, hflags, hentry⟩)
  · exact returns_pure.mpr ⟨rfl, .inl ⟨rfl, rfl, .of_eq hentry⟩⟩
  rw [returns_bind]
  refine returns_vfsAllocFd.mono ?_
  rintro r s1 (⟨rfl, rfl⟩ | ⟨v, rfl, hfree, rfl⟩)
  · -- The entry that was filled is closed again.
    rw [returns_bind, returns_onFds]
    refine (entry_fdClose fds fd).mono fun _ fds' hclose =>
      returns_pure.mpr ⟨rfl, .inl ⟨rfl, rfl, ?_⟩⟩
    obtain ⟨hlt, hclosed⟩ := FdState.closed_of_findFd hfd
    rw [if_pos hlt, hentry, update_idem, update_self] at hclose
    exact keeps_update hclose hclosed.symm fun hopen => absurd hclosed hopen
  · simp only [returns_rules]
    refine ⟨rfl, .inr ⟨v, fd, e, rfl, hfree, hfd, hflags, hentry, ?_⟩⟩
    simp only [VfsState.setVfd, update_idem, update_self]

/-- And `vfs_open` gives it a File object if there is one to be had. -/
theorem returns_vfsOpen (hfiles : s.world.Files S) (caller : Option Nat) (path : ObjName)
    (dir : List PathStep) (base : Name) (flags : Nat) :
    Returns (vfsOpen caller path dir base flags) (fun r s' =>
      r = none ∧ s'.world = s.world ∧ s'.vfdTable = s.vfdTable ∧ s.fds.Keeps s'.fds ∨
      ∃ v fd e new, r = some v ∧ s.freeVfd = some v ∧ s.fds.findFd = some fd ∧ e.flags = flags ∧
        s'.fds.entry = update s.fds.entry fd e ∧
        s'.vfdTable = update s.vfdTable v new ∧ new.isOpen ∧ new.realFd = fd ∧
        (new.obj = 0 ∧ s'.world.Files S ∨
          new.obj ≠ 0 ∧ ¬ S new.obj ∧ s'.world.Files fun a => S a ∨ a = new.obj)) s := by
  rw [vfsOpen, returns_bind]
  refine (returns_vfsHbfsOpen s dir base flags).mono ?_
  rintro r s1 ⟨hworld, ⟨rfl, htable, hkeeps⟩ | ⟨v, fd, e, rfl, hfree, hfd, hflags, hentry, htable⟩⟩
  · exact returns_pure.mpr (.inl ⟨rfl, hworld, htable, hkeeps⟩)
  simp only [returns_rules]
  rw [← hworld] at hfiles
  refine returns_onWorld ((returns_newFileObject hfiles path).mono ?_)
  rintro obj w (⟨rfl, hw⟩ | ⟨hne, hnew, hw⟩)
  · rw [if_neg (by simp), returns_pure]
    refine .inr ⟨v, fd, e, { isOpen := true, realFd := fd, rights := openRights flags }, rfl,
      hfree, hfd, hflags,
      hentry, ?_, rfl, rfl, .inl ⟨rfl, hw⟩⟩
    show update s1.vfdTable v _ = _
    rw [htable, update_idem, update_self]
  · simp only [if_pos hne, returns_rules]
    refine .inr ⟨v, fd, e, { isOpen := true, realFd := fd, rights := openRights flags, obj },
      rfl, hfree, hfd,
      hflags, hentry, ?_, rfl, rfl, .inr ⟨hne, hnew, hw⟩⟩
    simp only [VfsState.setVfd, htable, update_idem, update_self]

/-- A copy fills one descriptor. -/
theorem returns_vfsDup (s : VfsState) (src : Nat) :
    Returns (vfsDup src) (fun r s' => r = none ∧ s' = s ∨
      ∃ v, r = some v ∧ (s.vfdTable src).isOpen ∧ s.freeVfd = some v ∧
        s' = s.setVfd v { s.vfdTable src with obj := 0 }) s := by
  simp only [vfsDup, returns_rules]
  by_cases hopen : (s.vfdTable src).isOpen
  · rw [if_neg (by simpa using hopen), returns_bind]
    refine returns_vfsAllocFd.mono ?_
    rintro r s1 (⟨rfl, rfl⟩ | ⟨v, rfl, hfree, rfl⟩)
    · exact returns_pure.mpr (.inl ⟨rfl, rfl⟩)
    simp only [returns_rules]
    have hne : src ≠ v := by
      rintro rfl
      exact Bool.false_ne_true ((notOpen_of_firstFree hfree).2.symm.trans hopen)
    refine .inr ⟨v, rfl, hopen, hfree, ?_⟩
    simp only [VfsState.setVfd, update_idem, update_of_ne hne]
  · rw [if_pos (by simpa using hopen), returns_pure]
    exact .inl ⟨rfl, rfl⟩

/-- A call of `vfs_dup2` that makes no copy: it is refused, or gives back the descriptor it was
asked about. -/
theorem returns_vfsDup2 (s : VfsState) {src dst : Nat}
    (h : src ≠ dst → vfsMaxFds ≤ dst ∨ dst < vfsFdFirst ∨ (s.vfdTable src).isOpen = false) :
    Returns (vfsDup2 src dst) (fun r s' => r = (if src = dst then some dst else none) ∧
      s' = s) s := by
  rw [vfsDup2]
  by_cases hsame : src = dst
  · rw [if_pos hsame, if_pos hsame, returns_pure]
    exact ⟨rfl, rfl⟩
  rw [if_neg hsame, if_neg hsame]
  by_cases hmax : vfsMaxFds ≤ dst
  · rw [if_pos hmax, returns_pure]
    exact ⟨rfl, rfl⟩
  rw [if_neg hmax]
  by_cases hfirst : dst < vfsFdFirst
  · rw [if_pos hfirst, returns_pure]
    exact ⟨rfl, rfl⟩
  have hclosed : (s.vfdTable src).isOpen = false :=
    ((h hsame).resolve_left hmax).resolve_left hfirst
  rw [if_neg hfirst, returns_bind, returns_get, if_pos (by simp [hclosed]), returns_pure]
  exact ⟨rfl, rfl⟩

theorem returns_vfsRead (s : VfsState) (v len : Nat) :
    Returns (vfsRead v len) (fun _ s' => s'.world = s.world ∧ s'.vfdTable = s.vfdTable ∧
      s.fds.Keeps s'.fds) s := by
  have hkeeps : s.fds.Keeps s.fds := .of_eq rfl
  rw [vfsRead, returns_ite, returns_pure]
  split
  · exact ⟨rfl, rfl, hkeeps⟩
  rw [returns_bind, returns_get, returns_ite, returns_pure]
  split
  · exact ⟨rfl, rfl, hkeeps⟩
  rw [returns_ite, returns_pure]
  split
  · exact ⟨rfl, rfl, hkeeps⟩
  · exact returns_onFds.mpr ((keeps_fdRead s.fds _ len).mono fun _ fds h => ⟨rfl, rfl, h⟩)

theorem returns_vfsHbfsClose (s : VfsState) (v : Nat) :
    Returns (vfsHbfsClose v) (fun _ s' => s'.world = s.world ∧
      s'.vfdTable = update s.vfdTable v { s.vfdTable v with isOpen := false } ∧
      s'.fds.entry = if (s.vfdTable v).realFd < fdMax then update s.fds.entry (s.vfdTable v).realFd
        { s.under v with flags := fdFlagClosed } else s.fds.entry) s := by
  rw [vfsHbfsClose, returns_bind, returns_get, returns_bind, returns_onFds]
  refine (entry_fdClose s.fds _).mono fun _ fds hentry => ?_
  exact returns_modify.mpr ⟨rfl, rfl, hentry⟩

/-- A close empties one descriptor. -/
theorem returns_vfsClose (hfiles : s.world.Files S) (hv : v < vfsMaxFds)
    (hobj : s.IsOpen v → (s.vfdTable v).obj ≠ 0 → S (s.vfdTable v).obj) :
    Returns (vfsClose v) (fun failed s' => failed = true ∧ s' = s ∨ failed = false ∧ s.IsOpen v ∧
      s'.vfdTable = update s.vfdTable v { s.vfdTable v with isOpen := false, obj := 0 } ∧
      s'.fds.entry = (if (s.vfdTable v).realFd < fdMax then update s.fds.entry (s.vfdTable v).realFd
        { s.under v with flags := fdFlagClosed } else s.fds.entry) ∧
      s'.world.Files fun a => S a ∧ a ≠ (s.vfdTable v).obj) s := by
  rw [vfsClose, if_neg (Nat.not_le.mpr hv)]
  simp only [returns_rules]
  by_cases hopen : (s.vfdTable v).isOpen
  · rw [if_neg (by simpa using hopen)]
    by_cases hzero : (s.vfdTable v).obj = 0
    · rw [if_neg (by simpa using hzero), returns_bind]
      refine (returns_vfsHbfsClose s v).mono ?_
      rintro - s1 ⟨hworld, htable, hentry⟩
      refine returns_pure.mpr (.inr ⟨rfl, ⟨hv, hopen⟩, ?_, hentry, ?_⟩)
      · rw [htable, ← hzero]
      · rw [hworld, hzero]
        exact hfiles.congr fun a => and_iff_left_of_imp hfiles.ne_zero
    · simp only [if_pos hzero, returns_bind, returns_modify]
      refine returns_onWorld ((hfiles.returns_objDeref (hobj ⟨hv, hopen⟩ hzero)).mono
        fun _ w hw => ?_)
      refine (returns_vfsHbfsClose _ v).mono ?_
      rintro - s1 ⟨hworld, htable, hentry⟩
      simp only [VfsState.under, VfsState.setVfd, update_self, update_idem] at htable hentry
      refine returns_pure.mpr (.inr ⟨rfl, ⟨hv, hopen⟩, htable, hentry, ?_⟩)
      rw [hworld]
      exact hw
  · rw [if_pos (by simpa using hopen), returns_pure]
    exact .inl ⟨rfl, rfl⟩

end Calls

/-! ## Runs -/

section Runs

variable {r : VfsRun} {s s' : VfsState} {v : Nat}

/-- An open descriptor owns the object. -/
def VfsState.Owns (s : VfsState) (obj : Nat) : Prop :=
  obj ≠ 0 ∧ ∃ v, s.IsOpen v ∧ (s.vfdTable v).obj = obj

/-- The invariant of the descriptors: who owns an object, and which opens share an entry. -/
structure VfsRun.Inv (r : VfsRun) : Prop where
  files : r.vfs.world.Files r.vfs.Owns
  owner : ∀ v w, r.vfs.IsOpen v → r.vfs.IsOpen w → (r.vfs.vfdTable v).obj ≠ 0 →
    (r.vfs.vfdTable v).obj = (r.vfs.vfdTable w).obj → v = w
  copies : ∀ v, (r.origin v).copied → r.vfs.IsOpen v ∧ (r.vfs.under v).flags ≠ fdFlagClosed
  same : ∀ v, r.vfs.IsOpen v → (r.vfs.under v).flags ≠ fdFlagClosed →
    (r.vfs.under v).SameFile (r.origin v).entry
  apart : ∀ v w, r.vfs.IsOpen v → r.vfs.IsOpen w → (r.vfs.vfdTable v).realFd =
    (r.vfs.vfdTable w).realFd →
    (r.origin v).serial = (r.origin w).serial
  named : ∀ fd < fdMax, (r.vfs.fds.entry fd).flags ≠ fdFlagClosed → ∃ v, r.vfs.IsOpen v ∧
    (r.vfs.vfdTable v).realFd = fd

attribute [local grind cases] VfsRun.Inv

theorem VfsRun.Inv.sound (h : r.Inv) : r.Sound := by
  refine ⟨fun v hcopied => ?_, h.apart, fun hnone => ⟨fun fd hfd => ?_, fun obj hlive htype => ?_⟩⟩
  · obtain ⟨hv, hopen⟩ := h.copies v hcopied
    exact ⟨hv, hopen, h.same v hv hopen⟩
  · grind
  · obtain ⟨-, v, hv, -⟩ := (h.files.file obj).mpr ⟨hlive, htype⟩
    exact hnone v hv

/-- The invariant holds before the first call. -/
theorem VfsState.Fresh.inv (h : s.Fresh) : VfsRun.Inv { vfs := s } := by
  have hnone : ∀ v, ¬ s.IsOpen v := by
    rintro v ⟨hv, hopen⟩
    rw [h.free v hv] at hopen
    cases hopen
  have howns : ∀ a, ¬ s.Owns a := fun a ⟨_, v, hv, _⟩ => hnone v hv
  refine ⟨⟨h.bodies, fun a => ?_, fun a ha => absurd ha (howns a)⟩,
    fun v _ hv => absurd hv (hnone v),
    by simp, fun v hv => absurd hv (hnone v), fun v _ hv => absurd hv (hnone v),
    fun fd hfd hopen => absurd (h.closed fd hfd) hopen⟩
  exact ⟨fun ha => absurd ha (howns a), fun ha => absurd ha.2 (h.noFiles a ha.1)⟩

theorem FdEntry.SameFile.trans {e' e'' : FdEntry} (h : e.SameFile e') (h' : e'.SameFile e'') :
    e.SameFile e'' :=
  Eq.trans h h'

attribute [local grind =] VfsState.IsOpen VfsState.Owns VfsState.under update_apply

/-- A read keeps the invariant. -/
theorem VfsRun.Inv.keeps (h : r.Inv) (hworld : s'.world = r.vfs.world)
    (htable : s'.vfdTable = r.vfs.vfdTable)
    (hkeeps : r.vfs.fds.Keeps s'.fds) : VfsRun.Inv { r with vfs := s' } := by
  have hopen : ∀ v, s'.IsOpen v ↔ r.vfs.IsOpen v :=
    fun v => by rw [VfsState.IsOpen, VfsState.IsOpen, htable]
  have hunder : ∀ v, (s'.under v).flags = (r.vfs.under v).flags ∧
      ((r.vfs.under v).flags ≠ fdFlagClosed → (s'.under v).SameFile (r.vfs.under v)) := by
    intro v
    rw [VfsState.under, VfsState.under, htable]
    exact hkeeps _
  refine ⟨?_, ?_, ?_, ?_, ?_, ?_⟩
  · rw [hworld]
    refine h.files.congr fun a => ?_
    simp only [VfsState.Owns, hopen, htable]
  · simpa only [hopen, htable] using h.owner
  · simpa only [hopen, hunder] using h.copies
  · intro v hv hne
    have hne : (r.vfs.under v).flags ≠ fdFlagClosed := (hunder v).1 ▸ hne
    exact ((hunder v).2 hne).trans (h.same v ((hopen v).mp hv) hne)
  · simpa only [hopen, htable] using h.apart
  · intro fd hfd hne
    simpa only [hopen, htable] using h.named fd hfd ((hkeeps fd).1 ▸ hne)

/-- A copy shares the entry. -/
theorem VfsRun.Inv.copy {src dst : Nat} (h : r.Inv) (hsrc : r.vfs.IsOpen src)
    (hentry : (r.vfs.under src).flags ≠ fdFlagClosed) (hlt : dst < vfsMaxFds)
    (hdst : (r.vfs.vfdTable dst).isOpen = false) :
    VfsRun.Inv (VfsRun.copy { r with vfs := r.vfs.setVfd dst { r.vfs.vfdTable src with obj := 0 } }
      src dst) := by
  obtain ⟨hfiles, howner, hcopies, hsame, hapart, hnamed⟩ := h
  generalize hs' : r.vfs.setVfd dst { r.vfs.vfdTable src with obj := 0 } = s'
  have htable : ∀ w, s'.vfdTable w = if w = dst then { r.vfs.vfdTable src with obj := 0 } else
    r.vfs.vfdTable w := by
    intro w
    rw [← hs']
    exact update_apply ..
  have hfds : s'.fds = r.vfs.fds := by rw [← hs', VfsState.setVfd]
  have hworld : s'.world = r.vfs.world := by rw [← hs', VfsState.setVfd]
  rw [← hworld] at hfiles
  simp only [VfsRun.copy]
  have howns : ∀ a, a ≠ 0 → ((∃ w, s'.IsOpen w ∧ (s'.vfdTable w).obj = a) ↔
      ∃ w, r.vfs.IsOpen w ∧ (r.vfs.vfdTable w).obj = a) := by
    grind
  exact
    { files := hfiles.congr fun a => and_congr_right (howns a)
      owner := by grind
      copies := by grind
      same := by grind
      apart := by grind
      named := by grind }

/-- A new open has an entry of its own. -/
theorem VfsRun.Inv.opened {fd : Nat} {new : Vfd} (h : r.Inv) (hv : r.vfs.freeVfd = some v)
    (hentry : s'.fds.entry = update r.vfs.fds.entry fd e)
    (htable : s'.vfdTable = update r.vfs.vfdTable v new) (hopen : new.isOpen)
    (hreal : new.realFd = fd) (hfiles : new.obj = 0 ∧ s'.world.Files r.vfs.Owns ∨
      new.obj ≠ 0 ∧ ¬ r.vfs.Owns new.obj ∧ s'.world.Files fun a => r.vfs.Owns a ∨ a = new.obj)
    (hfresh : ∀ w, r.vfs.IsOpen w → (r.vfs.vfdTable w).realFd ≠ fd) :
    VfsRun.Inv (VfsRun.opened { r with vfs := s' } v) := by
  obtain ⟨hlt, hfree⟩ := notOpen_of_firstFree hv
  obtain ⟨-, howner, hcopies, hsame, hapart, hnamed⟩ := h
  have htable : ∀ w, s'.vfdTable w = if w = v then new else r.vfs.vfdTable w := by
    intro w
    rw [htable, update_apply]
  have hentry : ∀ i, s'.fds.entry i = if i = fd then e else r.vfs.fds.entry i := by
    intro i
    rw [hentry, update_apply]
  have howns : ∀ a, s'.Owns a ↔ r.vfs.Owns a ∨ a ≠ 0 ∧ a = new.obj := by
    grind
  simp only [VfsRun.opened]
  have hworld : s'.world.Files s'.Owns := by
    rcases hfiles with ⟨hzero, hw⟩ | ⟨hne, -, hw⟩
    · exact hw.congr (by grind)
    · exact hw.congr (by grind)
  exact
    { files := hworld
      owner := by grind
      copies := by grind
      same := by grind [FdEntry.SameFile]
      apart := by grind
      named := by grind }

theorem VfsRun.Inv.copySelf (h : r.Inv) (hv : r.vfs.IsOpen v)
    (hentry : (r.vfs.under v).flags ≠ fdFlagClosed) :
    VfsRun.Inv (VfsRun.copy r v v) := by
  obtain ⟨hfiles, howner, hcopies, hsame, hapart, hnamed⟩ := h
  simp only [VfsRun.copy]
  exact
    { files := hfiles
      owner := howner
      copies := by grind
      same := by grind
      apart := by grind
      named := hnamed }

/-- A close keeps the others. -/
theorem VfsRun.Inv.closed (h : r.Inv) (hv : r.vfs.IsOpen v)
    (htable :
      s'.vfdTable = update r.vfs.vfdTable v { r.vfs.vfdTable v with isOpen := false, obj := 0 })
    (hentry : s'.fds.entry = if (r.vfs.vfdTable v).realFd < fdMax then
      update r.vfs.fds.entry (r.vfs.vfdTable v).realFd { r.vfs.under v with flags := fdFlagClosed }
      else r.vfs.fds.entry)
    (hfiles : s'.world.Files fun a => r.vfs.Owns a ∧ a ≠ (r.vfs.vfdTable v).obj)
    (hcopy : ∀ w, w ≠ v → r.vfs.IsOpen w → (r.origin w).copied →
      (r.vfs.vfdTable w).realFd ≠ (r.vfs.vfdTable v).realFd) :
    VfsRun.Inv (VfsRun.closed { r with vfs := s' } v) := by
  obtain ⟨-, howner, hcopies, hsame, hapart, hnamed⟩ := h
  simp only [VfsRun.closed]
  have htable : ∀ w, s'.vfdTable w =
      if w = v then { r.vfs.vfdTable v with isOpen := false, obj := 0 } else r.vfs.vfdTable w := by
    intro w
    rw [htable, update_apply]
  -- An entry is what it was unless it is the one that is closed.
  have hother : ∀ fd, if fd = (r.vfs.vfdTable v).realFd ∧
    fd < fdMax then (s'.fds.entry fd).flags = fdFlagClosed
      else s'.fds.entry fd = r.vfs.fds.entry fd := by
    intro fd
    rw [hentry]
    split
    · grind
    · grind
  exact
    { files := hfiles.congr (by grind)
      owner := by grind
      copies := by grind
      same := by grind
      apart := by grind
      named := by grind }

/-- Every guarded call keeps the invariant. -/
theorem VfsRun.Inv.step (h : r.Inv) {c : VfsCall} (hc : c.Guarded r) :
    ∃ r', c.step r = some r' ∧ r'.Inv := by
  cases c with
  | «open» caller path dir base flags =>
    obtain ⟨a, s', hrun, hcase⟩ := returns_vfsOpen h.files caller path dir base flags
    rcases hcase with ⟨rfl, hworld, htable, hkeeps⟩ |
      ⟨v, fd, e, new, rfl, hfree, hfd, -, hentry, htable, hopen, hreal, hfiles⟩
    · exact ⟨_, by rw [VfsCall.step, hrun]; rfl, h.keeps hworld htable hkeeps⟩
    · exact ⟨_, by rw [VfsCall.step, hrun]; rfl,
        h.opened hfree hentry htable hopen hreal hfiles (hc fd hfd)⟩
  | dup src =>
    obtain ⟨a, s', hrun, hcase⟩ := returns_vfsDup r.vfs src
    rcases hcase with ⟨rfl, rfl⟩ | ⟨v, rfl, hopen, hfree, rfl⟩
    · exact ⟨_, by rw [VfsCall.step, hrun]; rfl, h⟩
    · obtain ⟨hsrc, hentry⟩ := hc hopen
      obtain ⟨hlt, hdst⟩ := notOpen_of_firstFree hfree
      exact ⟨_, by rw [VfsCall.step, hrun]; rfl, h.copy ⟨hsrc, hopen⟩ hentry hlt hdst⟩
  | dup2 src dst =>
    have hrefused : src ≠ dst → vfsMaxFds ≤ dst ∨ dst < vfsFdFirst ∨
      (r.vfs.vfdTable src).isOpen = false := by
      intro hne
      rwa [VfsCall.Guarded, if_neg hne] at hc
    obtain ⟨a, s', hrun, rfl, rfl⟩ := returns_vfsDup2 r.vfs hrefused
    by_cases hsame : src = dst
    · subst hsame
      rw [VfsCall.Guarded, if_pos rfl] at hc
      rw [if_pos rfl] at hrun
      exact ⟨_, by rw [VfsCall.step, hrun]; rfl, h.copySelf hc.1 hc.2⟩
    · rw [if_neg hsame] at hrun
      exact ⟨_, by rw [VfsCall.step, hrun]; rfl, h⟩
  | read v len =>
    obtain ⟨a, s', hrun, hworld, htable, hkeeps⟩ := returns_vfsRead r.vfs v len
    exact ⟨_, by rw [VfsCall.step, hrun]; rfl, h.keeps hworld htable hkeeps⟩
  | close v =>
    obtain ⟨a, s', hrun, hcase⟩ := returns_vfsClose h.files hc.1 fun hv hne => ⟨hne, v, hv, rfl⟩
    rcases hcase with ⟨rfl, rfl⟩ | ⟨rfl, hv, htable, hentry, hfiles⟩
    · exact ⟨_, by rw [VfsCall.step, hrun]; rfl, h⟩
    · exact ⟨_, by rw [VfsCall.step, hrun]; rfl, h.closed hv htable hentry hfiles (hc.2 hv)⟩

/-- In every run whose calls all meet their condition, the copies read their files, different opens
have different entries, and nothing is left when the last descriptor is closed. -/
theorem vfsRun_sound {calls : List VfsCall} (hfresh : s.Fresh)
    (hcalls : AlongAll VfsCall.step VfsCall.Guarded calls { vfs := s }) :
    ∃ r', afterAll VfsCall.step { vfs := s } calls = some r' ∧ r'.Sound := by
  obtain ⟨r', hrun, hinv⟩ := hcalls.invariant (fun c t ht hc => VfsRun.Inv.step ht hc) hfresh.inv
  exact ⟨r', hrun, hinv.sound⟩

/-- The volume with one file, and the namespace with one directory. -/
def freshVfs : VfsState where
  fds := oneFileMounted
  world := rootWorld

theorem freshVfs_fresh : freshVfs.Fresh := by
  have hstarted := rootWorld_started.inv
  refine ⟨{ hstarted with }, fun _ _ => rfl, fun _ _ => rfl, fun obj hlive => ?_⟩
  obtain rfl : obj = 0x1000000 := of_decide_eq_true hlive
  decide

theorem guarded_close (hv : v < vfsMaxFds)
    (h : ∀ w < vfsMaxFds, w ≠ v → (r.vfs.vfdTable w).isOpen → (r.origin w).copied = false) :
    VfsCall.Guarded (.close v) r := by
  refine ⟨hv, fun _ w hne hw hcopied => ?_⟩
  rw [h w hw.1 hne hw.2] at hcopied
  cases hcopied

/-- The file is opened as descriptor 3 and duplicated as 4, and the copy is closed first. -/
theorem vfsRun_sound_copyFirst :
    ∃ r', afterAll VfsCall.step { vfs := freshVfs }
      [.open none [] [] [97] fdFlagRead, .dup 3, .close 4, .close 3] = some r' ∧ r'.Sound := by
  have hopened : ((VfsCall.step (.open none [] [] [97] fdFlagRead) { vfs := freshVfs }).map fun r =>
      (r.vfs.under 3).flags) = some fdFlagRead := by decide +kernel
  have hcopied : (((VfsCall.step (.open none [] [] [97] fdFlagRead) { vfs := freshVfs }).bind
      (VfsCall.step (.dup 3))).map fun r =>
        decide (∀ w < vfsMaxFds, w ≠ 4 → (r.vfs.vfdTable w).isOpen →
        (r.origin w).copied = false)) = some true := by decide +kernel
  have hclosed : ((((VfsCall.step (.open none [] [] [97] fdFlagRead) { vfs := freshVfs }).bind
      (VfsCall.step (.dup 3))).bind (VfsCall.step (.close 4))).map fun r =>
        decide (∀ w < vfsMaxFds, w ≠ 3 →
        (r.vfs.vfdTable w).isOpen → (r.origin w).copied = false)) = some true := by decide +kernel
  refine vfsRun_sound freshVfs_fresh ⟨fun _ _ v hv => absurd hv.2 Bool.false_ne_true, fun r1 h1 =>
    ⟨fun _ => ⟨by decide, ?_⟩, fun r2 h2 => ⟨guarded_close (by decide) ?_, fun r3 h3 =>
      ⟨guarded_close (by decide) ?_, fun _ _ => trivial⟩⟩⟩⟩
  · rw [h1] at hopened
    have hflags : (r1.vfs.under 3).flags = fdFlagRead := Option.some.inj hopened
    rw [hflags]
    decide
  · grind
  · grind

/-- When the first descriptor is closed before the copy, the entry under the copy is closed. And the
descriptor that `dup2` gives is one of no entry. -/
theorem closedUnderCopy_not_sound :
    freshVfs.Fresh ∧ (∃ r', afterAll VfsCall.step { vfs := freshVfs }
        [.open none [] [] [97] fdFlagRead, .dup 3, .close 3] = some r' ∧ ¬ r'.Sound) ∧
      ∃ r', afterAll VfsCall.step { vfs := freshVfs } [.open none [] [] [97] fdFlagRead,
        .dup2 3 4] = some r' ∧
        ¬ r'.Sound := by
  have hclosed : ((afterAll VfsCall.step { vfs := freshVfs }
      [.open none [] [] [97] fdFlagRead, .dup 3, .close 3]).map fun r =>
        ((r.origin 4).copied, (r.vfs.under 4).flags)) = some (true, fdFlagClosed) := by
    decide +kernel
  have hdup2 : ((afterAll VfsCall.step { vfs := freshVfs }
      [.open none [] [] [97] fdFlagRead, .dup2 3 4]).map fun r =>
        ((r.origin 128).copied, decide (r.vfs.IsOpen 128))) = some (true, false) := by
    decide +kernel
  obtain ⟨r, hr, hfacts⟩ := Option.map_eq_some_iff.mp hclosed
  obtain ⟨r', hr', hfacts'⟩ := Option.map_eq_some_iff.mp hdup2
  simp only [Prod.mk.injEq, decide_eq_false_iff_not] at hfacts hfacts'
  exact ⟨freshVfs_fresh, ⟨r, hr, fun hsound => (hsound.copies 4 hfacts.1).2.1 hfacts.2⟩,
    r', hr', fun hsound => hfacts'.2 (hsound.copies 128 hfacts'.1).1⟩

end Runs

end Mellivora
