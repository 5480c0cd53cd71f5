import Mellivora.Kernel.Handles

/-!
# Objects

`object.inc`, the object manager: bodies with a reference count, their security descriptors, the
handles that tasks have on them, and the namespace, a tree of intrusive sibling lists that starts at
`obj_root`.

A body is known by its address and 0 is no body. The memory of a body that has been given back stays
as it was, since `obj_ns_unlink` may still look at the links of a parent that is gone; `live` says
which bodies are handed out. The header and the namespace links of a body are two maps, because no
function writes both. `none` is a machine that stops, in the underflow check of `obj_deref`, or a
loop that does not end.
-/

namespace Mellivora

open Function

/-- The types of kernel objects. -/
inductive ObjType
  | directory
  | event
  | mutant
  | semaphore
  | timer
  | token
  | process
  | symlink
  | file
deriving DecidableEq, Repr

/-- The type a caller names by its number. -/
def ObjType.ofIndex : Nat → Option ObjType
  | 0 => some directory
  | 1 => some event
  | 2 => some mutant
  | 3 => some semaphore
  | 4 => some timer
  | 5 => some token
  | 6 => some process
  | 7 => some symlink
  | 8 => some file
  | _ => none

/-- `RIGHT_QUERY_STATE`. -/
def rightQueryState : Nat := 0x0001
/-- `RIGHT_SET_STATE`. -/
def rightSetState : Nat := 0x0002
/-- `RIGHT_READ_DATA`. -/
def rightReadData : Nat := 0x0004
/-- `RIGHT_WRITE_DATA`. -/
def rightWriteData : Nat := 0x0008
/-- `RIGHT_EXECUTE`. -/
def rightExecute : Nat := 0x0010
/-- `RIGHT_DELETE`. -/
def rightDelete : Nat := 0x0020
/-- `RIGHT_READ_ATTR`. -/
def rightReadAttr : Nat := 0x0040
/-- `RIGHT_WRITE_ATTR`. -/
def rightWriteAttr : Nat := 0x0080
/-- `RIGHT_SYNCHRONIZE`. -/
def rightSynchronize : Nat := 0x0100

/-- `TT_ALL`: the rights that a type defines -/
def ObjType.all : ObjType → Nat
  | directory => rightQueryState ||| rightSetState ||| rightReadData ||| rightWriteData |||
      rightExecute |||
      rightDelete ||| rightReadAttr ||| rightWriteAttr
  | event | mutant | semaphore | timer =>
    rightQueryState ||| rightSetState ||| rightDelete ||| rightReadAttr ||| rightWriteAttr |||
      rightSynchronize
  | token => rightQueryState ||| rightReadAttr ||| rightWriteAttr ||| rightSynchronize
  | process =>
      rightQueryState ||| rightSetState ||| rightDelete ||| rightReadAttr ||| rightWriteAttr |||
      rightSynchronize ||| rightExecute
  | symlink | file =>
    rightQueryState ||| rightReadData ||| rightWriteData ||| rightDelete ||| rightReadAttr |||
      rightWriteAttr

/-- A text, the bytes in front of its NUL. -/
abbrev ObjName := List UInt8

/-- `OBJ_NAME_MAX`: the longest path. -/
def objNameMax : Nat := 255
/-- `OBJ_MAX_DEPTH`: the most segments of a path. -/
def objMaxDepth : Nat := 32
/-- `SYMLINK_MAX`: the most links a walk follows. -/
def symlinkMax : Nat := 32
/-- `MAX_TASKS`. -/
def maxTasks : Nat := 128
/-- `OBJ_QUOTA_PER_PROCESS`: the most objects a process may have made. -/
def objQuotaPerProcess : Nat := 256

/-- `INTEGRITY_MEDIUM`. -/
def integrityMedium : Nat := 2
/-- `INTEGRITY_SYSTEM`. -/
def integritySystem : Nat := 4

/-- An entry of an access list. -/
structure Ace where
  deny : Bool := false
  sid : Nat
  mask : Nat

/-- A security descriptor, as far as the access check reads it. -/
structure Security where
  integ : Nat
  aces : List Ace

/-- The body of an object. -/
structure Obj where
  type : ObjType := .directory
  permanent : Bool := false
  deleting : Bool := false
  refs : Nat := 0
  handles : Nat := 0
  security : Option Security := none
  ownerPid : Nat := 0

/-- The part of a body that the namespace uses. -/
structure NsNode where
  name : ObjName := []
  next : Nat := 0
  child : Nat := 0
  parent : Nat := 0
  inNs : Bool := false
  symlink : Bool := false
  /-- `SL_TARGET` -/
  target : ObjName := []

/-- What the object manager reads of a task. -/
structure Task where
  table : HandleTable
  pid : Nat
  euid : Nat
  sess : Nat
  token : Nat := 0
  procObj : Nat := 0

/-- The object manager's state. -/
structure World where
  objs : Nat → Obj
  nodes : Nat → NsNode
  /-- the bodies that are handed out -/
  live : Nat → Bool
  /-- the free list of `cache_object` -/
  pool : List Nat
  /-- whether there is memory, for each coming `kmem_alloc` -/
  grants : List Bool
  tasks : Nat → Task
  ownerLive : Nat → Nat
  root : Nat
  onwLinks : Nat

/-- A function of the object manager; `none` is a walk of a list that does not end. -/
abbrev ObjM := StateT World Option

/-- Changes one object. -/
def World.setObj (w : World) (obj : Nat) (f : Obj → Obj) : World :=
  { w with objs := update w.objs obj (f (w.objs obj)) }

/-- Changes one task. -/
def World.setTask (w : World) (i : Nat) (f : Task → Task) : World :=
  { w with tasks := update w.tasks i (f (w.tasks i)) }

/-- Changes one node. -/
def setNode (nodes : Nat → NsNode) (a : Nat) (f : NsNode → NsNode) : Nat → NsNode :=
  update nodes a (f (nodes a))

/-! ## Bodies -/

/-- Whether the next `kmem_alloc` finds memory. -/
def granted : ObjM Bool := do
  let w ← get
  set { w with grants := w.grants.tail }
  return w.grants.headD false

/-- The memory after a zeroed body has been handed out. -/
def World.take (w : World) (body : Nat) : World :=
  { w with
    objs := update w.objs body {}
    nodes := update w.nodes body {}
    live := update w.live body true }

/-- `kmem_alloc` from `cache_object`; 0 is no memory. -/
def kmemAlloc : ObjM Nat := do
  if ← granted then
    match (← get).pool with
    | [] => return 0
    | body :: pool =>
      modify fun w => { w.take body with pool }
      return body
  else return 0

/-- `kmem_free` to `cache_object`. -/
def kmemFree (body : Nat) : ObjM Unit :=
  modify fun w => { w with pool := body :: w.pool, live := update w.live body false }

/-- `obj_alloc`. The caller is a task, or the kernel. -/
def objAlloc (caller : Option Nat) (type : ObjType) : ObjM Nat := do
  let body ← kmemAlloc
  if body = 0 then return 0
  modify fun w => w.setObj body fun o => { o with type, refs := 1 }
  match caller with
  | none => return body
  | some i =>
    let pid := ((← get).tasks i).pid
    modify fun w => w.setObj body fun o => { o with ownerPid := pid }
    if maxTasks ≤ pid then return body
    if (← get).ownerLive pid < objQuotaPerProcess then
      modify fun w => { w with ownerLive := update w.ownerLive pid (w.ownerLive pid + 1) }
      return body
    else
      kmemFree body
      return 0

/-! ## Identity and access -/

/-- Who a caller is to the access check. -/
structure Identity where
  uid : Nat
  sess : Nat
  integrity : Nat
  system : Bool

/-- The kernel and user 0 are the system. -/
def World.identity (w : World) (caller : Option Nat) : Identity :=
  let system : Identity := { uid := 0, sess := 0, integrity := integritySystem, system := true }
  match caller with
  | none => system
  | some i =>
    let t := w.tasks i
    if t.euid = 0 then system
    else { uid := t.euid, sess := t.sess, integrity := integrityMedium, system := false }

/-- `obj_has_priv`, the same for every privilege -/
def World.hasPriv (w : World) (caller : Option Nat) : Bool := (w.identity caller).system

/-- `ACE_WORLD`: the entry is for everybody. -/
def aceWorld : Nat := 0xFF
/-- `SD_ACE_MAX`. -/
def sdAceMax : Nat := 6

/-- The descriptor that `obj_security_alloc` makes. -/
def defaultSecurity (uid : Nat) (type : ObjType) : Security where
  integ := integrityMedium
  aces :=
    let other := rightQueryState ||| rightReadAttr ||| rightSynchronize
    [{ sid := uid % 256, mask := type.all },
     { sid := aceWorld, mask := if type = .directory then other ||| rightExecute else other }]

/-- `obj_security_alloc`: gives the object its default descriptor. -/
def objSecurityAlloc (caller : Option Nat) (obj : Nat) : ObjM Bool := do
  if ← granted then
    modify fun w => w.setObj obj fun o =>
      { o with security := some (defaultSecurity (w.identity caller).uid o.type) }
    return true
  else return false

/-- The rights that the entries of one kind give or take. -/
def Security.mask (sd : Security) (uid : Nat) (deny : Bool) : Nat :=
  (((sd.aces.take sdAceMax).filter fun a => (a.sid = aceWorld || a.sid = uid) && a.deny = deny).map
    Ace.mask).foldl (· ||| ·) 0

/-- The rights that need the integrity of the object. -/
def mandatoryRights : Nat := rightWriteData ||| rightSetState ||| rightDelete ||| rightWriteAttr

/-- `obj_access`, CF clear when the rights are granted -/
def objAccess (w : World) (caller : Option Nat) (obj rights : Nat) : Bool :=
  match (w.objs obj).security with
  | none => true
  | some sd =>
    let desired := handleRights rights (w.objs obj).type.all
    let who := w.identity caller
    if desired &&& mandatoryRights ≠ 0 ∧ who.integrity < sd.integ ∧
        w.hasPriv caller = false then false
    else
      let granted := sd.mask who.uid false &&& (sd.mask who.uid true ^^^ 0xFFFFFFFF)
      granted &&& desired = desired || w.hasPriv caller

/-! ## The namespace -/

/-- The backslash. -/
def separator : UInt8 := 0x5C

/-- `obj_ns_lower`: folds an ASCII letter. -/
def objNsLower (c : UInt8) : UInt8 := if 0x41 ≤ c ∧ c ≤ 0x5A then c + 0x20 else c

/-- Two names that are equal up to the case of ASCII letters. -/
def sameName (a b : ObjName) : Prop := a.map objNsLower = b.map objNsLower

instance (a b : ObjName) : Decidable (sameName a b) := inferInstanceAs (Decidable (_ = _))

/-- `obj_ns_seg_match`; no byte of a segment is 0 -/
def segMatch (seg : ObjName) (node : NsNode) : Bool :=
  seg.length ≤ objNameMax && sameName seg node.name

/-- The turns that a walk over a list of different bodies can take. -/
def siblingTurns : Nat := 2 ^ 32 + 1

/-- `obj_ns_find_child`: the child, or 0 -/
def nsFindChild (nodes : Nat → NsNode) (dir : Nat) (seg : ObjName) : Option Nat :=
  if dir = 0 then some 0
  else (Linked.walk (fun a => (nodes a).next) 0 (fun a => !segMatch seg (nodes a)) siblingTurns none
    (nodes dir).child).map Prod.snd

/-- `obj_ns_unlink`: takes an object out of its directory's list. -/
def nsUnlink (nodes : Nat → NsNode) (obj : Nat) : Option (Nat → NsNode) :=
  let node := nodes obj
  if node.inNs = false then some nodes
  else
    let nodes := setNode nodes obj fun n => { n with inNs := false, parent := 0 }
    if node.parent = 0 then some nodes
    else if (nodes node.parent).child = obj then
      let nodes := setNode nodes node.parent fun n => { n with child := node.next }
      some (setNode nodes obj fun n => { n with next := 0 })
    else do
      let (_, before) ← Linked.walk (fun a => (nodes a).next) 0
        (fun a => (nodes a).next ≠ obj) siblingTurns
        none (nodes node.parent).child
      let nodes := if before = 0 then nodes else setNode nodes before fun n =>
        { n with next := node.next }
      some (setNode nodes obj fun n => { n with next := 0 })

/-- `.onl_depth`: going up from `a` comes to an end within `left` directories. -/
def depthOk (nodes : Nat → NsNode) : (left a : Nat) → Bool
  | 0, a => a = 0
  | left + 1, a => a = 0 || depthOk nodes left (nodes a).parent

/-- The links after an object has been put in front of the children of a directory. -/
def linkNodes (nodes : Nat → NsNode) (obj : Nat) (name : ObjName) (parent : Nat) : Nat → NsNode :=
  let nodes := setNode nodes obj fun n => { n with name, next := (nodes parent).child }
  let nodes := setNode nodes parent fun n => { n with child := obj }
  setNode nodes obj fun n => { n with parent, inNs := true }

/-- `obj_ns_link`: nothing, or why the name was refused -/
def objNsLink (caller : Option Nat) (obj : Nat) (name : ObjName) (parent : Nat) :
    ObjM (Option MvStatus) := do
  let w ← get
  if objNameMax < name.length ∨ name = [] then return some .invalidParameter
  if depthOk w.nodes objMaxDepth parent = false then return some .invalidParameter
  if objAccess w caller parent rightWriteData = false then return some .accessDenied
  let found ← StateT.lift (nsFindChild w.nodes parent name)
  if found ≠ 0 then return some .invalidParameter
  set { w with nodes := linkNodes w.nodes obj name parent }
  return none

/-- The segments of a text behind `seg`, the part of a segment that has been read. Empty segments
are stepped over. -/
def segmentsFrom (seg : ObjName) : ObjName → List ObjName
  | [] => if seg = [] then [] else [seg]
  | c :: text =>
    if c = separator then
      if seg = [] then segmentsFrom [] text else seg :: segmentsFrom [] text
    else segmentsFrom (seg ++ [c]) text

/-- The segments of a path. -/
def segments (text : ObjName) : List ObjName := segmentsFrom [] text

/-- How the walk along a text ends: at an object, at a symlink, or refused. -/
inductive WalkEnd
  | found (obj : Nat)
  | link (target : ObjName)
  | refused (status : MvStatus)

/-- `.onw_seg`: the walk from `cur` along the segments that are left. -/
def nsWalkSegs (w : World) (caller : Option Nat) :
    (segs : List ObjName) → (depth cur : Nat) → Option WalkEnd
  | [], _, cur => some (.found cur)
  | seg :: segs, depth, cur =>
    if objNameMax < seg.length then some (.refused .invalidParameter)
    else if objMaxDepth < depth + 1 then some (.refused .invalidParameter)
    else if objAccess w caller cur rightExecute = false then some (.refused .accessDenied)
    else do
      let child ← nsFindChild w.nodes cur seg
      if child = 0 then some (.refused .invalidParameter)
      else if (w.nodes child).symlink then some (.link (w.nodes child).target)
      else nsWalkSegs w caller segs (depth + 1) child

/-- `.onw_start`: the walk from the root along a text, over again for the target of a symlink. The
result comes with the text that the walk ended on and the count of symlinks. -/
def nsWalkFrom (w : World) (caller : Option Nat) : (turns links : Nat) → (text : ObjName) →
    Option (Except MvStatus Nat × ObjName × Nat)
  | 0, _, _ => none
  | turns + 1, links, text => do
    match ← nsWalkSegs w caller (segments text) 0 w.root with
    | .found obj => some (.ok obj, text, links)
    | .refused status => some (.error status, text, links)
    | .link target =>
      let links := (links + 1) % 2 ^ 32
      if symlinkMax < links then some (.error .invalidParameter, text, links)
      else if target.head? ≠ some separator then some (.error .invalidParameter, text, links)
      else nsWalkFrom w caller turns links target

/-- A walk follows at most this many symlinks, plus one. -/
def linkTurns : Nat := 35

/-- `obj_str_sessions`: "Sessions" and a separator -/
def objStrSessions : ObjName := [0x53, 0x65, 0x73, 0x73, 0x69, 0x6F, 0x6E, 0x73, separator]

/-- `obj_str_prefix_i`: a prefix, without regard to case. -/
def objStrPrefixI (pre text : ObjName) : Bool := sameName pre (text.take pre.length)

/-- A decimal digit. -/
def isDigit (c : UInt8) : Bool := 0x30 ≤ c && c ≤ 0x39

/-- The number that digits write. -/
def decimal (digits : ObjName) : Nat := digits.foldl (fun n c => 10 * n + (c.toNat - 0x30)) 0

/-- The session that a text is seen to enter: `Sessions\`, one to six digits and a separator. -/
def sessionSeen (text : ObjName) : Option Nat :=
  let rest := text.drop objStrSessions.length
  let digits := (rest.take 6).takeWhile isDigit
  if objStrPrefixI objStrSessions text = false then none
  else if digits = [] then none
  else if (rest.drop digits.length).head? = some separator then some (decimal digits)
  else none

/-- The path without a leading separator. -/
def stripSeparator (path : ObjName) : ObjName :=
  if path.head? = some separator then path.tail else path

/-- The session test of `obj_ns_walk`. -/
def World.sessionRefused (w : World) (caller : Option Nat) (text : ObjName) : Bool :=
  match sessionSeen text with
  | none => false
  | some n => n ≠ (w.identity caller).sess && !w.hasPriv caller

/-- `obj_ns_walk` on the tree, with the rest of the path and the count of links. -/
def World.walk (w : World) (caller : Option Nat) (path : ObjName) :
    Option (Except MvStatus Nat × ObjName × Nat) :=
  let text := stripSeparator path
  if w.sessionRefused caller text then some (.error .accessDenied, text, w.onwLinks)
  else nsWalkFrom w caller linkTurns w.onwLinks text

/-- `obj_ns_walk`. -/
def objNsWalk (caller : Option Nat) (path : ObjName) : ObjM (Except MvStatus Nat) := do
  let w ← get
  let (result, _, links) ← StateT.lift (w.walk caller path)
  set { w with onwLinks := links }
  return result

/-! ## References and handles -/

/-- `obj_ref`: an object that is going away takes no more references. -/
def objRef (obj : Nat) : ObjM Unit :=
  modify fun w =>
    if obj = 0 ∨ (w.objs obj).deleting then w else w.setObj obj fun o =>
      { o with refs := o.refs + 1 }

/-- `obj_destroy`. -/
def objDestroy (obj : Nat) : ObjM Unit := do
  modify fun w => w.setObj obj fun o => { o with permanent := false, deleting := true }
  let w ← get
  let nodes ← StateT.lift (nsUnlink w.nodes obj)
  set { w with nodes }
  modify fun w => w.setObj obj fun o => { o with security := none }
  let pid := ((← get).objs obj).ownerPid
  if pid < maxTasks then
    modify fun w => { w with ownerLive := update w.ownerLive pid (w.ownerLive pid - 1) }
  kmemFree obj

/-- `obj_deref`; the underflow stops the machine -/
def objDeref (obj : Nat) : ObjM Unit := do
  if obj = 0 then return
  let refs := ((← get).objs obj).refs
  if refs = 0 then StateT.lift none
  modify fun w => w.setObj obj fun o => { o with refs := refs - 1 }
  if refs = 1 then objDestroy obj

/-- A function of a task's handle table. -/
def onTable {α : Type} (i : Nat) (x : HandleM α) : ObjM α := do
  let w ← get
  let (a, table) ← StateT.lift (x.run (w.tasks i).table)
  set (w.setTask i fun t => { t with table })
  return a

/-- `ht_open` with its effect on the object. -/
def htOpenObject (caller : Option Nat) (obj rights : Nat) : ObjM (Except MvStatus Nat) := do
  match caller with
  | none => return .error .accessDenied
  | some i =>
    let all := ((← get).objs obj).type.all
    match ← onTable i (htOpen obj rights all) with
    | .error status => return .error status
    | .ok handle =>
      objRef obj
      modify fun w => w.setObj obj fun o => { o with handles := o.handles + 1 }
      return .ok handle

/-- `ht_close` with its effect on the object. -/
def htCloseObject (caller : Option Nat) (handle : Nat) : ObjM (Except MvStatus Unit) := do
  match caller with
  | none => return .error .invalidHandle
  | some i =>
    match ← onTable i (htClose handle) with
    | none => return .error .invalidHandle
    | some obj =>
      modify fun w => w.setObj obj fun o => { o with handles := o.handles - 1 }
      objDeref obj
      return .ok ()

/-- The object an entry names, 0 outside the table. -/
def HandleTable.entryObj (t : HandleTable) (index : Nat) : Nat :=
  if index < t.hcap then t.mem.dword (htSlot index t.handles + heObj) else 0

/-- A table with an entry cleared, by the two stores of a close. -/
def HandleTable.clearEntry (t : HandleTable) (index : Nat) : HandleTable :=
  let slot := htSlot index t.handles
  { t with mem := (t.mem.setDword (slot + heObj) 0).setDword (slot + heRights) 0 }

/-- One turn of `.hca_loop` -/
def htCloseSlot (i index : Nat) : ObjM Unit := do
  let obj := ((← get).tasks i).table.entryObj index
  if obj = 0 then return
  modify fun w => w.setTask i fun t => { t with table := t.table.clearEntry index }
  modify fun w => w.setObj obj fun o => { o with handles := o.handles - 1 }
  objDeref obj

/-- The first `n` turns of `.hca_loop` -/
def htCloseSlots (i : Nat) : (n : Nat) → ObjM Unit
  | 0 => return
  | n + 1 => do
    htCloseSlots i n
    htCloseSlot i n

/-- The table after its task has lost it. -/
def HandleTable.dropped (t : HandleTable) : HandleTable :=
  { t with hcount := 0, handles := 0, hcap := 0 }

/-- `ht_close_all`: what a task that ends gives up. -/
def htCloseAll (caller : Option Nat) : ObjM Unit := do
  match caller with
  | none => return
  | some i =>
    let table := ((← get).tasks i).table
    if table.handles ≠ 0 then htCloseSlots i table.hcap
    modify fun w => w.setTask i fun t => { t with table := t.table.dropped }
    let token := ((← get).tasks i).token
    modify fun w => w.setTask i fun t => { t with token := 0 }
    objDeref token
    let procObj := ((← get).tasks i).procObj
    modify fun w => w.setTask i fun t => { t with procObj := 0 }
    objDeref procObj

/-! ## The calls -/

/-- `obj_copy_name` of what a pointer leads to, nothing if the caller may not read it -/
def objCopyName (name : Option ObjName) : Option ObjName :=
  name.filter fun n => n.length ≤ objNameMax

/-- `obj_split_name`: the path of the directory and the leaf -/
def objSplitName (name : ObjName) : Option (ObjName × ObjName) :=
  let leaf := (name.reverse.takeWhile (· ≠ separator)).reverse
  let parent := name.take (name.length - leaf.length - 1)
  if name = [] then none
  else if separator ∉ name then some ([separator], name)
  else some (if parent = [] then [separator] else parent, leaf)

/-- What `SYS_OBJECT_CREATE` does with an object that exists. -/
inductive Disposition
  | opens
  | create
  | openIf
  | supersede
  | overwriteIf
deriving DecidableEq, Repr

/-- The disposition a caller names by its number. -/
def Disposition.ofIndex : Nat → Option Disposition
  | 1 => some opens
  | 2 => some create
  | 3 => some openIf
  | 4 => some supersede
  | 5 => some overwriteIf
  | _ => none

/-- Where a name leads: its directory, its leaf, and the object that has the name, or 0. -/
structure Place where
  parent : Nat
  leaf : ObjName
  existing : Nat

/-- The first half of `sys_object_create` -/
def createPlace (caller : Option Nat) (name : Option ObjName) : ObjM (Except MvStatus Place) := do
  match (objCopyName name).bind objSplitName with
  | none => return .error .invalidParameter
  | some (path, leaf) =>
    match ← objNsWalk caller path with
    | .error status => return .error status
    | .ok parent =>
      let existing ← StateT.lift (nsFindChild (← get).nodes parent leaf)
      return .ok { parent, leaf, existing }

/-- `.soc_make_handle`: the handle takes its reference and one reference is let go. -/
def makeHandle (caller : Option Nat) (obj rights : Nat) : ObjM (Except MvStatus Nat) := do
  match ← htOpenObject caller obj rights with
  | .error status => return .error status
  | .ok handle =>
    objDeref obj
    return .ok handle

/-- Makes the object, links it and opens it; what fails on the way is taken back. -/
def createNew (caller : Option Nat) (type : ObjType) (place : Place) (rights : Nat) :
    ObjM (Except MvStatus Nat) := do
  let obj ← objAlloc caller type
  if obj = 0 then return .error .noMemory
  if (← objSecurityAlloc caller obj) = false then return .error .noMemory
  match ← objNsLink caller obj place.leaf place.parent with
  | some status =>
    objDeref obj
    return .error status
  | none =>
    if objAccess (← get) caller obj rights then makeHandle caller obj rights
    else
      objDeref obj
      return .error .accessDenied

/-- Opens the object that has the name already. -/
def openExisting (caller : Option Nat) (obj rights : Nat) : ObjM (Except MvStatus Nat) := do
  if objAccess (← get) caller obj rights then makeHandle caller obj rights
  else return .error .accessDenied

/-- `SYS_OBJECT_CREATE`. -/
def sysObjectCreate (caller : Option Nat) (name : Option ObjName) (type rights disposition : Nat) :
    ObjM (Except MvStatus Nat) := do
  match ObjType.ofIndex type, Disposition.ofIndex disposition with
  | none, _ => return .error .invalidParameter
  | some _, none => return .error .invalidParameter
  | some type, some disposition =>
    if disposition = .supersede ∨ disposition = .overwriteIf then return .error .notSupported
    match ← createPlace caller name with
    | .error status => return .error status
    | .ok place =>
      if place.existing ≠ 0 then
        if disposition = .create then return .error .invalidParameter
        openExisting caller place.existing rights
      else
        if disposition = .opens then return .error .invalidParameter
        createNew caller type place rights

/-- `SYS_OBJECT_OPEN`. -/
def sysObjectOpen (caller : Option Nat) (name : Option ObjName) (rights : Nat) :
    ObjM (Except MvStatus Nat) := do
  match objCopyName name with
  | none => return .error .invalidParameter
  | some path =>
    match ← objNsWalk caller path with
    | .error status => return .error status
    | .ok obj =>
      if objAccess (← get) caller obj rights then
        match ← htOpenObject caller obj rights with
        | .error _ => return .error .invalidParameter
        | .ok handle => return .ok handle
      else return .error .accessDenied

/-- `SYS_OBJECT_CLOSE`. -/
def sysObjectClose (caller : Option Nat) (handle : Nat) : ObjM (Except MvStatus Unit) :=
  htCloseObject caller handle

/-- `SYS_OBJECT_DUP`: a handle carries no right the old one lacks. -/
def sysObjectDup (caller : Option Nat) (handle rights : Nat) : ObjM (Except MvStatus Nat) := do
  let w ← get
  match caller.bind fun i => (htEntry (w.tasks i).table handle).map fun slot =>
    ((w.tasks i).table, slot) with
  | none => return .error .invalidHandle
  | some (table, slot) =>
    let obj := table.mem.dword (slot + heObj)
    let rights := handleRights rights (w.objs obj).type.all
    if table.mem.word (slot + heRights) &&& rights ≠ rights then return .error .accessDenied
    match ← htOpenObject caller obj rights with
    | .error _ => return .error .invalidHandle
    | .ok handle => return .ok handle

/-- `obj_new_named`, which runs as the kernel: the object, or 0 -/
def objNewNamed (type : ObjType) (name : ObjName) (parent integ : Nat) : ObjM Nat := do
  let obj ← objAlloc none type
  if obj = 0 then return 0
  if (← objSecurityAlloc none obj) = false then return 0
  modify fun w => w.setObj obj fun o =>
    { o with security := o.security.map fun sd => { sd with integ } }
  match ← objNsLink none obj name parent with
  | some _ => return 0
  | none =>
    modify fun w => w.setObj obj fun o => { o with permanent := true }
    return obj

/-- `obj_make_world_all`: everybody gets every right. -/
def objMakeWorldAll (obj : Nat) : ObjM Unit :=
  modify fun w => w.setObj obj fun o =>
    { o with security := o.security.map fun sd =>
        { sd with aces := sd.aces.set 1 { sid := aceWorld, mask := o.type.all } } }

/-- `KernelObjects`. -/
def nameKernelObjects : ObjName :=
  [0x4B, 0x65, 0x72, 0x6E, 0x65, 0x6C, 0x4F, 0x62, 0x6A, 0x65, 0x63, 0x74, 0x73]
/-- `RpcControl`. -/
def nameRpcControl : ObjName := [0x52, 0x70, 0x63, 0x43, 0x6F, 0x6E, 0x74, 0x72, 0x6F, 0x6C]
/-- `Devices`. -/
def nameDevices : ObjName := [0x44, 0x65, 0x76, 0x69, 0x63, 0x65, 0x73]
/-- `Sessions`. -/
def nameSessions : ObjName := [0x53, 0x65, 0x73, 0x73, 0x69, 0x6F, 0x6E, 0x73]
/-- `BaseNamedObjects`. -/
def nameBaseNamedObjects : ObjName :=
  [0x42, 0x61, 0x73, 0x65, 0x4E, 0x61, 0x6D, 0x65, 0x64, 0x4F, 0x62, 0x6A, 0x65, 0x63, 0x74, 0x73]
/-- `Lobby`. -/
def nameLobby : ObjName := [0x4C, 0x6F, 0x62, 0x62, 0x79]

/-- The directories that `obj_init` makes below the root, each with its name, the directory it is
made in, counted from the root, and its integrity. -/
def initDirs : List (ObjName × Nat × Nat) :=
  [(nameKernelObjects, 0, integritySystem), (nameRpcControl, 0, integritySystem),
   (nameDevices, 0, integritySystem), (nameSessions, 0, integritySystem),
   ([0x30], 4, integritySystem), (nameBaseNamedObjects, 5, integrityMedium),
   ([0x31], 4, integritySystem), (nameBaseNamedObjects, 7, integrityMedium),
   (nameLobby, 1, integritySystem)]

/-- Make directories one after the other, `made` being those there are; nothing if one cannot be
made. -/
def makeDirs (made : List Nat) : List (ObjName × Nat × Nat) → ObjM (Option (List Nat))
  | [] => return some made
  | (name, parent, integ) :: dirs => do
    let obj ← objNewNamed .directory name (made.getD parent 0) integ
    if obj = 0 then return none
    makeDirs (made ++ [obj]) dirs

/-- `obj_init`: makes the root and the directories every system has. -/
def objInit : ObjM Bool := do
  let root ← objAlloc none .directory
  if root = 0 then return false
  modify fun w => { w with root }
  if (← objSecurityAlloc none root) = false then return false
  modify fun w => w.setObj root fun o =>
    { o with permanent := true, security := o.security.map fun sd => { sd with
      integ := integritySystem } }
  match ← makeDirs [root] initDirs with
  | none => return false
  | some made =>
    objMakeWorldAll (made.getLastD 0)
    return true

end Mellivora
