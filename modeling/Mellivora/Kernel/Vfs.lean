import Mellivora.Kernel.FileDescriptors
import Mellivora.Kernel.ObjectRuns

/-!
# Virtual file descriptors

`vfs_open`, `vfs_dup`, `vfs_dup2`, `vfs_read` and `vfs_close` of `vfs.inc` for files of HBFS. An
open file is three things: an entry of `vfs_fd_table`, the entry of `fd_table` that it names by its
number, and a File object that the first of the two may own. Duplicating copies the entry, number
and all, without the object.

`none` is a machine that stops, in the underflow check of `obj_deref`, or that has left the code:
for a number past the table `vfs_close` takes two words too many off the stack and returns to what
it finds there.
-/

namespace Mellivora

/-- `VFS_MAX_FDS`. -/
def vfsMaxFds : Nat := 64
/-- `VFS_FD_FIRST`: the first descriptor that is handed out. -/
def vfsFdFirst : Nat := 3
/-- `VFD_SIZE`: the bytes of a descriptor. -/
def vfdSize : Nat := 32
/-- `RIGHT_READ`. -/
def rightRead : Nat := 1
/-- `RIGHT_WRITE`. -/
def rightWrite : Nat := 2
/-- `RIGHT_ALL`. -/
def rightAll : Nat := rightRead ||| rightWrite

/-- A descriptor of the VFS. -/
structure Vfd where
  /-- `VFD_STATE` -/
  isOpen : Bool := false
  realFd : Nat := 0
  pos : Nat := 0
  rights : Nat := 0
  /-- the File object it owns, 0 for none -/
  obj : Nat := 0

/-- The VFS over the descriptors of the file system and the objects. -/
structure VfsState where
  fds : FdState
  /-- `vfs_fd_table`, and the memory behind it -/
  vfdTable : Nat → Vfd := fun _ => {}
  world : World

/-- A function of the VFS; `none` is an access behind the table, or a walk without end. -/
abbrev VfsM := StateT VfsState Option

/-- A function of the file system's descriptors. -/
def onFds {α : Type} (x : FdM α) : VfsM α := do
  let s ← get
  let (a, fds) := x.run s.fds
  set { s with fds }
  return a

/-- A function of the object manager. -/
def onWorld {α : Type} (x : ObjM α) : VfsM α := do
  let s ← get
  let (a, world) ← StateT.lift (x.run s.world)
  set { s with world }
  return a

/-- Stores a descriptor. -/
def VfsState.setVfd (s : VfsState) (v : Nat) (e : Vfd) : VfsState :=
  { s with vfdTable := Function.update s.vfdTable v e }

/-! ## Opening -/

/-- The first free entry past the console's. -/
def firstFree (vfdTable : Nat → Vfd) : Option Nat :=
  (List.range vfsMaxFds).find? fun v => vfsFdFirst ≤ v && !(vfdTable v).isOpen

/-- The first free descriptor. -/
def VfsState.freeVfd (s : VfsState) : Option Nat := firstFree s.vfdTable

/-- `vfs_alloc_fd`. -/
def vfsAllocFd : VfsM (Option Nat) := do
  let s ← get
  match s.freeVfd with
  | none => return none
  | some v =>
    set (s.setVfd v { s.vfdTable v with obj := 0 })
    return some v

/-- `vfs_hbfs_open`. -/
def vfsHbfsOpen (dir : List PathStep) (base : Name) (flags : Nat) : VfsM (Option Nat) := do
  match ← onFds (fdOpen dir base flags) with
  | none => return none
  | some fd =>
    match ← vfsAllocFd with
    | none =>
      onFds (fdClose fd)
      return none
    | some v =>
      modify fun s => s.setVfd v { s.vfdTable v with isOpen := true, pos := 0, realFd := fd }
      return some v

/-- The rights of a handle that was opened with `flags`. -/
def openRights (flags : Nat) : Nat :=
  if flags &&& rightAll = 0 then rightRead else flags &&& rightAll

/-- `obj_name_set`. -/
def objNameSet (obj : Nat) (name : ObjName) : ObjM Unit :=
  modify fun w =>
    if obj = 0 then w
    else { w with nodes := setNode w.nodes obj fun n => { n with name := name.take objNameMax } }

/-- The File object of a new handle, 0 if there is none to be had. -/
def newFileObject (caller : Option Nat) (path : ObjName) : ObjM Nat := do
  let obj ← objAlloc caller .file
  objNameSet obj path
  return obj

/-- `vfs_open` of a path that `vfs_route` gives to HBFS -/
def vfsOpen (caller : Option Nat) (path : ObjName) (dir : List PathStep) (base : Name)
    (flags : Nat) :
    VfsM (Option Nat) := do
  match ← vfsHbfsOpen dir base flags with
  | none => return none
  | some v =>
    modify fun s => s.setVfd v { s.vfdTable v with rights := openRights flags }
    let obj ← onWorld (newFileObject caller path)
    if obj ≠ 0 then modify fun s => s.setVfd v { s.vfdTable v with obj }
    return some v

/-! ## Duplicating -/

/-- `vfs_dup`: the copy owns no object. -/
def vfsDup (src : Nat) : VfsM (Option Nat) := do
  let e := (← get).vfdTable src
  if !e.isOpen then return none
  match ← vfsAllocFd with
  | none => return none
  | some v =>
    modify fun s => s.setVfd v { s.vfdTable src with obj := 0 }
    return some v

/-- `vfs_dup2`. The offset of the entry in the table is left in EAX, and so it is what the caller
gets as the descriptor. -/
def vfsDup2 (src dst : Nat) : VfsM (Option Nat) := do
  if src = dst then return some dst
  if vfsMaxFds ≤ dst then return none
  if dst < vfsFdFirst then return none
  let e := (← get).vfdTable src
  if !e.isOpen then return none
  modify fun s => s.setVfd dst { e with obj := 0 }
  return some (vfdSize * dst)

/-! ## Reading and closing -/

/-- `vfs_read`: nothing for -1 -/
def vfsRead (v len : Nat) : VfsM (Option (List UInt8)) := do
  if vfsMaxFds ≤ v then return none
  let e := (← get).vfdTable v
  if !e.isOpen then return none
  if e.rights &&& rightRead = 0 then return none
  onFds (fdRead e.realFd len)

/-- `vfs_hbfs_close`. -/
def vfsHbfsClose (v : Nat) : VfsM Unit := do
  onFds (fdClose ((← get).vfdTable v).realFd)
  modify fun s => s.setVfd v { s.vfdTable v with isOpen := false }

/-- `vfs_close`, true for -1 -/
def vfsClose (v : Nat) : VfsM Bool := do
  if vfsMaxFds ≤ v then StateT.lift none
  let e := (← get).vfdTable v
  if !e.isOpen then return true
  if e.obj ≠ 0 then
    modify fun s => s.setVfd v { e with obj := 0 }
    onWorld (objDeref e.obj)
  vfsHbfsClose v
  return false

/-! ## Runs -/

/-- Where a descriptor comes from: the open, counted from the first one, the entry of `fd_table` as
the open left it, and whether the descriptor is a copy that has not been closed. -/
structure Origin where
  serial : Nat := 0
  entry : FdEntry := {}
  copied : Bool := false

/-- The descriptors and where they come from. -/
structure VfsRun where
  vfs : VfsState
  opens : Nat := 0
  origin : Nat → Origin := fun _ => {}

/-- A call on the descriptors. -/
inductive VfsCall
  | open (caller : Option Nat) (path : ObjName) (dir : List PathStep) (base : Name) (flags : Nat)
  | dup (src : Nat)
  | dup2 (src dst : Nat)
  | read (v len : Nat)
  | close (v : Nat)

/-- The descriptor `dst` has been got as a copy of `src`. -/
def VfsRun.copy (r : VfsRun) (src dst : Nat) : VfsRun :=
  { r with origin := Function.update r.origin dst { r.origin src with copied := true } }

/-- The descriptor `v` has been got from an open. -/
def VfsRun.opened (r : VfsRun) (v : Nat) : VfsRun :=
  { r with
    opens := r.opens + 1
    origin := Function.update r.origin v
      { serial := r.opens, entry := r.vfs.fds.entry (r.vfs.vfdTable v).realFd, copied := false } }

/-- The descriptor is no longer held. -/
def VfsRun.closed (r : VfsRun) (v : Nat) : VfsRun :=
  { r with origin := Function.update r.origin v { r.origin v with copied := false } }

/-- The run after a call, if the machine goes on. -/
def VfsCall.step (c : VfsCall) (r : VfsRun) : Option VfsRun :=
  match c with
  | .open caller path dir base flags =>
    ((vfsOpen caller path dir base flags).run r.vfs).map fun (v, vfs) =>
      match v with
      | none => { r with vfs }
      | some v => VfsRun.opened { r with vfs } v
  | .dup src =>
    ((vfsDup src).run r.vfs).map fun (v, vfs) =>
      match v with
      | none => { r with vfs }
      | some v => VfsRun.copy { r with vfs } src v
  | .dup2 src dst =>
    ((vfsDup2 src dst).run r.vfs).map fun (v, vfs) =>
      match v with
      | none => { r with vfs }
      | some v => VfsRun.copy { r with vfs } src v
  | .read v len => ((vfsRead v len).run r.vfs).map fun (_, vfs) => { r with vfs }
  | .close v =>
    ((vfsClose v).run r.vfs).map fun (failed, vfs) =>
      if failed then { r with vfs } else VfsRun.closed { r with vfs } v

/-! ## What is claimed of every state -/

/-- The descriptor is open. -/
def VfsState.IsOpen (s : VfsState) (v : Nat) : Prop := v < vfsMaxFds ∧ (s.vfdTable v).isOpen

instance (s : VfsState) (v : Nat) : Decidable (s.IsOpen v) := inferInstanceAs (Decidable (_ ∧ _))

/-- The entry of the file system under a descriptor. -/
def VfsState.under (s : VfsState) (v : Nat) : FdEntry := s.fds.entry (s.vfdTable v).realFd

/-- The file of an open entry of `fd_table`: everything but how far it has been read. -/
def FdEntry.SameFile (e e' : FdEntry) : Prop := { e with position := 0 } = { e' with position := 0 }

/-- An open entry with the file that the open has left there. -/
def VfsRun.Reads (r : VfsRun) (v : Nat) : Prop :=
  (r.vfs.under v).flags ≠ fdFlagClosed ∧ (r.vfs.under v).SameFile (r.origin v).entry

/-- What holds of the descriptors after any calls. -/
structure VfsRun.Sound (r : VfsRun) : Prop where
  /-- A copy is open and reads the file it was made for until it is closed. -/
  copies : ∀ v, (r.origin v).copied → r.vfs.IsOpen v ∧ r.Reads v
  /-- Descriptors of different opens have entries of their own. -/
  apart : ∀ v w, r.vfs.IsOpen v → r.vfs.IsOpen w → (r.vfs.vfdTable v).realFd =
    (r.vfs.vfdTable w).realFd →
    (r.origin v).serial = (r.origin w).serial
  /-- Without descriptors nothing is open and there is no File object. -/
  clean : (∀ v, ¬ r.vfs.IsOpen v) → (∀ fd < fdMax, (r.vfs.fds.entry fd).flags = fdFlagClosed) ∧
    ∀ obj, r.vfs.world.live obj → (r.vfs.world.objs obj).type ≠ .file

/-- Nothing is open. -/
structure VfsState.Fresh (s : VfsState) : Prop where
  bodies : s.world.Bodies
  free : ∀ v < vfsMaxFds, (s.vfdTable v).isOpen = false
  closed : ∀ fd < fdMax, (s.fds.entry fd).flags = fdFlagClosed
  noFiles : ∀ obj, s.world.live obj → (s.world.objs obj).type ≠ .file

/-! ## When it holds -/

/-- An open gets an entry that no open descriptor names. A copy is made of a descriptor whose entry
is open, and none is made by `dup2`, which is refused or asked for the same descriptor. No other
copy names the entry that is closed. -/
def VfsCall.Guarded (c : VfsCall) (r : VfsRun) : Prop :=
  match c with
  | .open _ _ _ _ _ => ∀ fd, r.vfs.fds.findFd = some fd → ∀ v, r.vfs.IsOpen v →
      (r.vfs.vfdTable v).realFd ≠ fd
  | .dup src => (r.vfs.vfdTable src).isOpen → src < vfsMaxFds ∧
      (r.vfs.under src).flags ≠ fdFlagClosed
  | .dup2 src dst =>
    if src = dst then r.vfs.IsOpen src ∧ (r.vfs.under src).flags ≠ fdFlagClosed
    else vfsMaxFds ≤ dst ∨ dst < vfsFdFirst ∨ (r.vfs.vfdTable src).isOpen = false
  | .read _ _ => True
  | .close v => v < vfsMaxFds ∧
      (r.vfs.IsOpen v → ∀ w, w ≠ v → r.vfs.IsOpen w → (r.origin w).copied →
      (r.vfs.vfdTable w).realFd ≠ (r.vfs.vfdTable v).realFd)

end Mellivora
