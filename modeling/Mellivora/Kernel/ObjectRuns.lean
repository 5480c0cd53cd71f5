import Mellivora.Kernel.Objects
import Mellivora.Lib.Counting
import Mathlib.Data.Finset.Prod

/-!
# Runs of the object calls

The calls that tasks make one after the other, and what is said of the states they come to:
reference counts that cover the open handles, a namespace that is a tree, and sessions that are kept
apart.
-/

namespace Mellivora

/-- A call of a task or of the kernel. A task may also become another one. -/
inductive ObjectCall
  | create (caller : Option Nat) (name : Option ObjName) (type rights disposition : Nat)
  | opens (caller : Option Nat) (name : Option ObjName) (rights : Nat)
  | dup (caller : Option Nat) (handle rights : Nat)
  | closes (caller : Option Nat) (handle : Nat)
  | closeAll (caller : Option Nat)
  | newNamed (type : ObjType) (name : ObjName) (parent integ : Nat)
  | becomes (task pid euid sess : Nat)

/-- What the call does. -/
def ObjectCall.run : ObjectCall → ObjM Unit
  | create caller name type rights disposition =>
      discard (sysObjectCreate caller name type rights disposition)
  | opens caller name rights => discard (sysObjectOpen caller name rights)
  | dup caller handle rights => discard (sysObjectDup caller handle rights)
  | closes caller handle => discard (sysObjectClose caller handle)
  | closeAll caller => htCloseAll caller
  | newNamed type name parent integ => discard (objNewNamed type name parent integ)
  | becomes task pid euid sess => modify fun w => w.setTask task fun t => { t with pid, euid, sess }

/-- The world after the call. -/
def ObjectCall.step (c : ObjectCall) (w : World) : Option World := (c.run.run w).map Prod.snd

/-- A live object that is the root or has a place in the namespace. -/
def World.Placed (w : World) (obj : Nat) : Prop := w.live obj ∧ (obj = w.root ∨ (w.nodes obj).inNs)

/-- The callers are tasks, and the kernel makes objects in the namespace. -/
def ObjectCall.Legal : ObjectCall → World → Prop
  | create caller _ _ _ _, _ | opens caller _ _, _ | dup caller _ _, _ | closes caller _, _
  | closeAll caller, _ => ∀ i, caller = some i → i < maxTasks
  | newNamed _ _ parent _, w => w.Placed parent
  | becomes task _ _ _, _ => task < maxTasks

/-! ## Reference counts -/

/-- The entries of a number of tables of one size. -/
@[irreducible] def tableSlots (tables size : Nat) : Finset (Nat × Nat) :=
  Finset.range tables ×ˢ Finset.range size

/-- Every entry of every task's table. -/
def handleSlots : Finset (Nat × Nat) := tableSlots maxTasks handleMaxCap

/-- The object an entry names. -/
def World.entry (w : World) (p : Nat × Nat) : Nat := (w.tasks p.1).table.entryObj p.2

/-- How many handles name the object. -/
def World.openHandles (w : World) (obj : Nat) : Nat := Counting.count handleSlots w.entry obj

/-- Counts that cover the open handles, and open handles that lead to objects. -/
structure World.CountsSound (w : World) : Prop where
  refs : ∀ obj, w.live obj → w.openHandles obj ≤ (w.objs obj).refs
  handles : ∀ p ∈ handleSlots, w.entry p ≠ 0 → w.live (w.entry p)

/-- The sibling lists: `kids` are the children of each body, which are handed out, named and lead
back. -/
structure Threaded (nodes : Nat → NsNode) (live : Nat → Bool) (kids : Nat → List Nat) : Prop where
  chain : ∀ dir, Linked.Chain (fun a => (nodes a).next) 0 (nodes dir).child (kids dir)
  nodup : ∀ dir, (kids dir).Nodup
  zero : kids 0 = []
  kid : ∀ dir, ∀ a ∈ kids dir, live a ∧ (nodes a).inNs ∧ (nodes a).parent = dir

/-- Bodies handed out are referenced, those in the pool are not handed out, and the lists are in
order. -/
structure World.Bodies (w : World) : Prop where
  pool : w.pool.Nodup
  free : ∀ body ∈ w.pool, w.live body = false ∧ ObjectPointer body
  body : ∀ obj, w.live obj → ObjectPointer obj ∧ 0 < (w.objs obj).refs ∧
    (w.objs obj).deleting = false
  threaded : ∃ kids, Threaded w.nodes w.live kids

/-- Bodies and tasks in every run: no task has a token or a process object, which nothing sets. -/
structure ObjInv (w : World) : Prop extends World.Bodies w where
  tasks : ∀ i, (w.tasks i).token = 0 ∧ (w.tasks i).procObj = 0

/-- No task has a table yet. -/
def World.NoHandles (w : World) : Prop :=
  ∀ i, (w.tasks i).table.handles = 0 ∧ (w.tasks i).table.hcap = 0 ∧
    TablePages (w.tasks i).table.pages

/-- Any namespace below a permanent root, before the first handle. -/
structure World.Started (w : World) : Prop where
  inv : ObjInv w
  noHandles : w.NoHandles
  root : w.live w.root ∧ (w.objs w.root).permanent

/-- The caller's table has room. -/
def World.Spacious (w : World) (caller : Option Nat) : Prop :=
  ∀ i, caller = some i → (w.tasks i).table.Spacious

/-- There is a reference to an object that is neither that of a handle nor what keeps it
permanent. -/
def World.Spare (w : World) (obj : Nat) : Prop :=
  w.openHandles obj + (if (w.objs obj).permanent then 1 else 0) < (w.objs obj).refs

/-- A handle is opened only where there is room for it, and `sys_object_create` opens an object that
exists only if it can lose a reference. -/
def ObjectCall.Counts : ObjectCall → World → Prop
  | create caller name _ _ disposition, w =>
    w.Spacious caller ∧ ∀ place w', (createPlace caller name).run w = some (.ok place, w') →
      place.existing ≠ 0 → Disposition.ofIndex disposition ≠ some .create → w.Spare place.existing
  | opens caller _ _, w | dup caller _ _, w => w.Spacious caller
  | _, _ => True

/-! ## The tree -/

/-- The namespace is a tree of directories. -/
def World.WellFormed (w : World) : Prop :=
  ∃ kids : Nat → List Nat,
    (∀ dir, w.live dir →
      Linked.Chain (fun a => (w.nodes a).next) 0 (w.nodes dir).child (kids dir)) ∧
    (∀ obj, (w.live obj ∧ (w.nodes obj).inNs ∨ ∃ dir, w.live dir ∧ obj ∈ kids dir) →
      w.live obj ∧ w.live (w.nodes obj).parent ∧ (w.objs (w.nodes obj).parent).type = .directory ∧
      (kids (w.nodes obj).parent).count obj = 1 ∧
      ∃ steps ≤ objMaxDepth, (fun a => (w.nodes a).parent)^[steps] obj = w.root) ∧
    ∀ dir, w.live dir → (kids dir).Pairwise fun a b => ¬ sameName (w.nodes a).name (w.nodes b).name

/-- An object whose handle may be closed: it has not been destroyed, and if that destroys it, it has
no children. -/
def World.MayDrop (w : World) (obj : Nat) : Prop :=
  w.live obj ∧ ((w.objs obj).refs = 1 → (w.nodes obj).child = 0)

/-- Handles are opened where there is room, objects are made in directories, and the handles that
are used or closed are of objects that have not been destroyed, and not the last of one with
children. -/
def ObjectCall.Orderly : ObjectCall → World → Prop
  | create caller name _ _ _, w =>
    w.Spacious caller ∧ ∀ place w', (createPlace caller name).run w = some (.ok place, w') →
      place.existing = 0 → (w.objs place.parent).type = .directory
  | opens caller _ _, w => w.Spacious caller
  | dup caller handle _, w =>
    w.Spacious caller ∧ ∀ i slot, caller = some i → htEntry (w.tasks i).table handle = some slot →
      w.live ((w.tasks i).table.mem.dword (slot + heObj))
  | closes caller handle, w =>
    ∀ i slot, caller = some i → htEntry (w.tasks i).table handle = some slot →
      w.MayDrop ((w.tasks i).table.mem.dword (slot + heObj))
  | closeAll caller, w =>
    ∀ i n w', caller = some i → n < (w.tasks i).table.hcap → (htCloseSlots i n).run w =
      some ((), w') →
      w'.entry (i, n) ≠ 0 → w'.MayDrop (w'.entry (i, n))
  | newNamed _ _ parent _, w => (w.objs parent).type = .directory
  | becomes _ _ _ _, _ => True

/-- Before `obj_init`: nothing is handed out. -/
structure World.Blank (w : World) : Prop where
  pool : w.pool.Nodup
  free : ∀ body ∈ w.pool, ObjectPointer body
  live : ∀ body, w.live body = false
  nodes : ∀ body, (w.nodes body).child = 0
  tasks : ∀ i, (w.tasks i).token = 0 ∧ (w.tasks i).procObj = 0
  noHandles : w.NoHandles

/-! ## Sessions -/

/-- The number of a session directory, if a name is one. -/
def sessionNumber (name : ObjName) : Option Nat :=
  if name ≠ [] ∧ name.all isDigit then some (decimal name) else none

/-- `a` is among the children of `dir`. -/
def World.Child (w : World) (dir a : Nat) : Prop :=
  ∃ kids, Linked.Chain (fun a => (w.nodes a).next) 0 (w.nodes dir).child kids ∧ a ∈ kids

/-- At or below a child of the directory of session `n`. -/
def World.InSession (w : World) (n obj : Nat) : Prop :=
  ∃ sessions dir a, w.Child w.root sessions ∧ sameName nameSessions (w.nodes sessions).name ∧
    w.Child sessions dir ∧ sessionNumber (w.nodes dir).name = some n ∧
    w.Child dir a ∧ Relation.ReflTransGen w.Child a obj

/-- The session that a text leads into, past its directory. -/
def sessionNamed (text : ObjName) : Option Nat :=
  match segments text with
  | first :: second :: _ :: _ => if sameName nameSessions first then sessionNumber second else none
  | _ => none

/-- A namespace: sibling lists that lead back to their directories, below a root that is in none of
them. -/
structure World.Namespace (w : World) : Prop where
  threaded : ∃ kids, Threaded w.nodes w.live kids
  address : ∀ a, w.live a → a < 2 ^ 32
  root : w.root ≠ 0 ∧ (w.nodes w.root).inNs = false

/-- No walk of a task along a path ends at an object of another session. -/
def World.Isolated (w : World) (i : Nat) (path : ObjName) : Prop :=
  ∀ obj text links, w.walk (some i) path = some (.ok obj, text, links) →
    ¬ ∃ n, n ≠ (w.tasks i).sess ∧ w.InSession n obj

/-- A segment names the child `a` of a directory that the caller may pass. -/
structure World.Enters (w : World) (caller : Option Nat) (depth cur : Nat)
    (seg : ObjName) (a : Nat) :
    Prop where
  short : seg.length ≤ objNameMax
  room : depth < objMaxDepth
  access : objAccess w caller cur rightExecute
  child : nsFindChild w.nodes cur seg = some a
  there : a ≠ 0

/-- Segments lead from `cur` down the tree, all the way to an object or as far as the first
symlink. -/
inductive World.Descends (w : World) (caller : Option Nat) :
    (depth cur : Nat) → List ObjName → WalkEnd → Prop
  | found {depth cur} : Descends w caller depth cur [] (.found cur)
  | link {depth cur seg segs a} : w.Enters caller depth cur seg a → (w.nodes a).symlink →
      Descends w caller depth cur (seg :: segs) (.link (w.nodes a).target)
  | down {depth cur seg segs a e} : w.Enters caller depth cur seg a → (w.nodes a).symlink = false →
      Descends w caller (depth + 1) a segs e → Descends w caller depth cur (seg :: segs) e

/-- A text leads over `n` symlinks, each time to the absolute target, and the last of these texts,
the text itself if there is no symlink, leads to an object. -/
inductive World.Arrives (w : World) (caller : Option Nat) : ObjName → Nat → ObjName → Prop
  | here {text obj} : w.Descends caller 0 w.root (segments text) (.found obj) →
      Arrives w caller text 0 text
  | link {text target n last} : w.Descends caller 0 w.root (segments text) (.link target) →
      target.head? = some separator → Arrives w caller target n last →
      Arrives w caller text (n + 1) last

/-- The count of symlinks that earlier lookups have left allows `n` more. -/
def linksLeft (links n : Nat) : Prop := n = 0 ∨ (links + 1) % 2 ^ 32 + n ≤ symlinkMax + 1

/-- A path gets past the session test and into another session: the test sees no session in it but
the task's own, and the last of the texts that it leads over, itself or the target of a symlink,
names another one. -/
def World.Slips (w : World) (i : Nat) (path : ObjName) : Prop :=
  (∀ m, sessionSeen (stripSeparator path) = some m → m = (w.tasks i).sess) ∧
    ∃ n last m, w.Arrives (some i) (stripSeparator path) n last ∧ linksLeft w.onwLinks n ∧
      sessionNamed last = some m ∧ m ≠ (w.tasks i).sess

/-! ## Lookups -/

/-- Along a text a lookup meets `n` symlinks, one after the other, and ends with `r`. -/
inductive World.Leads (w : World) (caller : Option Nat) : ObjName → Nat → Except MvStatus Nat → Prop
  | found {text obj} : nsWalkSegs w caller (segments text) 0 w.root = some (.found obj) →
    Leads w caller text 0 (.ok obj)
  | refused {text status} : nsWalkSegs w caller (segments text) 0 w.root = some (.refused status) →
      Leads w caller text 0 (.error status)
  | relative {text target} : nsWalkSegs w caller (segments text) 0 w.root = some (.link target) →
      target.head? ≠ some separator → Leads w caller text 1 (.error .invalidParameter)
  | link {text target n r} : nsWalkSegs w caller (segments text) 0 w.root = some (.link target) →
      target.head? = some separator → Leads w caller target n r → Leads w caller text (n + 1) r

/-- The result of a lookup as the namespace, the path and the caller determine it. -/
def World.LooksUp (w : World) (caller : Option Nat) (path : ObjName)
    (r : Except MvStatus Nat) : Prop :=
  if w.sessionRefused caller (stripSeparator path) then r = .error .accessDenied
  else (∃ n ≤ symlinkMax, w.Leads caller (stripSeparator path) n r) ∨
    r = .error .invalidParameter ∧
    ∀ n ≤ symlinkMax, ∀ r', ¬ w.Leads caller (stripSeparator path) n r'

/-- The symlinks that a lookup meets, if it may meet so many, and those that earlier lookups have
left in the count are not too many together, or it would be refused at its end just the same. -/
def World.LinksFit (w : World) (caller : Option Nat) (path : ObjName) : Prop :=
  w.sessionRefused caller (stripSeparator path) ∨
    ∀ n ≤ symlinkMax, ∀ r, w.Leads caller (stripSeparator path) n r →
    n = 0 ∨ w.onwLinks + n ≤ symlinkMax ∨ r = .error .invalidParameter

end Mellivora
