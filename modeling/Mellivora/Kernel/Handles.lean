import Mellivora.Disk.Buffer
import Mellivora.Kernel.Pmm
import Mellivora.Lib.Runs

/-!
# Handle tables

`object.inc`, the handle tables: a task has a run of pages with an entry of 8 bytes per handle, the
object pointer in its first double word, then the rights and the generation in a word each. The
entries are packed bytes of memory here, because the code reads and writes some of them with double
words.

A handle is the generation above the index of the entry, above two zero bits. The state is what
`ht_open`, `ht_entry` and `ht_close` read of one task, and `pages` is what the physical memory
manager will give out.
-/

namespace Mellivora

/-- `HE_OBJ`: an entry's object, 0 when it is free. -/
def heObj : Nat := 0
/-- `HE_RIGHTS`: the rights the handle carries. -/
def heRights : Nat := 4
/-- `HE_GEN`: the generation of the entry. -/
def heGen : Nat := 6
/-- `HE_ENTRY`: the bytes of an entry. -/
def heEntry : Nat := 8
/-- `HANDLE_INDEX_SHIFT`. -/
def handleIndexShift : Nat := 2
/-- `HANDLE_GEN_SHIFT`. -/
def handleGenShift : Nat := 18
/-- `HANDLE_INDEX_MASK`. -/
def handleIndexMask : Nat := 0x0000FFFF
/-- `HANDLE_GEN_MASK`. -/
def handleGenMask : Nat := 0x00003FFF
/-- `HANDLE_DEFAULT_CAP`: the entries a table starts with. -/
def handleDefaultCap : Nat := 4096
/-- `HANDLE_MAX_CAP`: the most it can have. -/
def handleMaxCap : Nat := 65536
/-- `HANDLE_PAGE_ENTRIES`: what it grows by. -/
def handlePageEntries : Nat := 4096
/-- `MV_RIGHTS_ALL`: asks for every right the object's type has. -/
def mvRightsAll : Nat := 0x00010000

/-- The status codes of the object calls. -/
inductive MvStatus
  | invalidHandle
  | invalidParameter
  | accessDenied
  | noMemory
  | notSupported
deriving DecidableEq, Repr

/-- The memory of the machine, the handle fields of a task, and the runs of pages that
`pmm_alloc_pages` will return to it, 0 for a refusal. Each task is given its own copy of the memory:
a table is only read and written through the handle fields of its own task, and the routines touch
no page but those of the table. -/
structure HandleTable where
  mem : Buffer
  /-- `TCB_HANDLES`, 0 while there is no table -/
  handles : Nat := 0
  /-- `TCB_HCAP` -/
  hcap : Nat := 0
  /-- `TCB_HCOUNT` -/
  hcount : Nat := 0
  pages : List Nat

/-- A function of the handle table; `none` is a growth loop that does not end. -/
abbrev HandleM := StateT HandleTable Option

/-- The address of an entry. -/
def htSlot (index base : Nat) : Nat := index * heEntry + base

/-- `pmm_alloc_pages` -/
def takePages : HandleM Nat := do
  let t ← get
  set { t with pages := t.pages.tail }
  return t.pages.headD 0

/-- `rep movsb` between places that do not overlap. -/
def Buffer.copy (buf : Buffer) (dst src len : Nat) : Buffer := fun i =>
  if dst ≤ i ∧ i < dst + len then buf (src + (i - dst)) else buf i

/-- The entries after the table has grown. -/
def HandleTable.grownCap (t : HandleTable) : Nat :=
  let add := if handleDefaultCap ≤ t.hcap then handlePageEntries else handleDefaultCap
  min (t.hcap + add) handleMaxCap

/-- Memory after the table has moved to `new`. -/
def HandleTable.grownMem (t : HandleTable) (new : Nat) : Buffer :=
  let pages := (t.grownCap * heEntry + 4095) / 4096
  let cleared := t.mem.clear new (pages * 4096)
  -- EAX, which clearing the pages has left at 0, becomes the destination of the copy.
  if t.handles = 0 then cleared else cleared.copy 0 t.handles (t.hcap * heEntry)

/-- `ht_grow`, CF set when there is no room -/
def htGrow : HandleM Bool := do
  let t ← get
  if handleMaxCap ≤ t.hcap then return true
  let new ← takePages
  if new = 0 then return true
  modify fun t' => { t' with mem := t.grownMem new, handles := new, hcap := t.grownCap }
  return false

/-- `.ho_scan`: the first free entry from `index` on. -/
def htScan (mem : Buffer) (base : Nat) : (left index : Nat) → Option Nat
  | 0, _ => none
  | left + 1, index =>
    if mem.dword (htSlot index base + heObj) =
      0 then some index else htScan mem base left (index + 1)

/-- The first free entry. -/
def HandleTable.freeSlot (t : HandleTable) : Option Nat :=
  if t.handles = 0 then none else htScan t.mem t.handles t.hcap 0

/-- `.ho_find`: the table grows until it has a free entry. -/
def htFind : (turns : Nat) → HandleM (Option Nat)
  | 0 => StateT.lift none
  | turns + 1 => do
    match (← get).freeSlot with
    | some index => return some index
    | none => if ← htGrow then return none else htFind turns

/-- More than the growths that lead to `HANDLE_MAX_CAP`. -/
def growthTurns : Nat := 17

/-- The stores of `.ho_take`. The generation is read and written as a double word. -/
def storeEntry (mem : Buffer) (slot obj rights : Nat) : Buffer × Nat :=
  let mem := mem.setDword (slot + heObj) obj
  let next := (mem.dword (slot + heGen) + 1) % 2 ^ 32 &&& handleGenMask
  let gen := if next = 0 then 1 else next
  let mem := mem.setDword (slot + heGen) gen
  (mem.setWord (slot + heRights) rights, gen)

/-- The handle of an entry. -/
def mkHandle (index gen : Nat) : Nat := index <<< handleIndexShift ||| gen <<< handleGenShift

/-- The rights of a handle: `MV_RIGHTS_ALL` asks for `all`, which is what the type of the object
defines. -/
def handleRights (rights all : Nat) : Nat := if rights &&& mvRightsAll = 0 then rights else all

/-- `ht_open` in a task, without the counts of the object -/
def htOpen (obj rights all : Nat) : HandleM (Except MvStatus Nat) := do
  let rights := handleRights rights all
  match ← htFind growthTurns with
  | none => return .error .noMemory
  | some index =>
    let t ← get
    if handleMaxCap ≤ t.hcount then return .error .noMemory
    let (mem, gen) := storeEntry t.mem (htSlot index t.handles) obj rights
    set { t with mem, hcount := t.hcount + 1 }
    return .ok (mkHandle index gen)

/-- The entry a handle names. -/
def handleIndex (handle : Nat) : Nat := handle >>> handleIndexShift &&& handleIndexMask
/-- The generation a handle names. -/
def handleGen (handle : Nat) : Nat := handle >>> handleGenShift &&& handleGenMask

/-- `ht_entry`: the address of the entry -/
def htEntry (t : HandleTable) (handle : Nat) : Option Nat :=
  if t.handles = 0 then none
  else if handleGen handle = 0 then none
  else if t.hcap ≤ handleIndex handle then none
  else
    let slot := htSlot (handleIndex handle) t.handles
    if t.mem.dword (slot + heObj) = 0 then none
    else if t.mem.word (slot + heGen) ≠ handleGen handle then none
    else some slot

/-- `ht_use`: the object, if the handle has the rights -/
def htUse (t : HandleTable) (handle rights : Nat) : Except MvStatus Nat :=
  match htEntry t handle with
  | none => .error .invalidHandle
  | some slot =>
    if t.mem.word (slot + heRights) &&& rights ≠ rights then .error .accessDenied
    else .ok (t.mem.dword (slot + heObj))

/-- `ht_close`: the object whose reference is to be dropped. Both stores are of double words. -/
def htClose (handle : Nat) : HandleM (Option Nat) := do
  let t ← get
  match htEntry t handle with
  | none => return none
  | some slot =>
    let mem := (t.mem.setDword (slot + heObj) 0).setDword (slot + heRights) 0
    set { t with mem, hcount := t.hcount - 1 }
    return some (t.mem.dword (slot + heObj))

/-! ## Runs of a task -/

/-- A table with the handles that are open, as a caller knows them. -/
structure HandleRun where
  table : HandleTable
  opened : List (Nat × Nat × Nat) := []

/-- A call on the table. -/
inductive HandleCall
  | opens (obj rights all : Nat)
  | closes (handle : Nat)

/-- The state after the call. -/
def HandleCall.step : HandleCall → HandleRun → Option HandleRun
  | opens obj rights all, r => do
    let (result, table) ← (htOpen obj rights all).run r.table
    match result with
    | .ok handle => return { table, opened := (handle, obj, handleRights rights all) :: r.opened }
    | .error _ => return { r with table }
  | closes handle, r => do
    let (result, table) ← (htClose handle).run r.table
    match result with
    | some _ =>
        return { table, opened := r.opened.filter fun a => handleIndex a.1 ≠ handleIndex handle }
    | none => return { r with table }

/-- A pointer to an object: objects are in pages that the physical memory manager gives out. -/
def ObjectPointer (obj : Nat) : Prop := kernelReservedEnd ≤ obj ∧ obj < 2 ^ 32

/-- What is opened is an object. -/
def HandleCall.Legal : HandleCall → HandleRun → Prop
  | opens obj _ _, _ => ObjectPointer obj
  | closes _, _ => True

/-- What the physical memory manager returns for a table: pages above the kernel, or 0. -/
def TablePages (pages : List Nat) : Prop :=
  ∀ page ∈ pages, page = 0 ∨ kernelReservedEnd ≤ page ∧ page + handleMaxCap * heEntry < 2 ^ 32

/-- A task starts without a table. -/
def HandleRun.initial (mem : Buffer) (pages : List Nat) : HandleRun := { table := { mem, pages } }

/-- There is no table yet, or its first free entry has another one behind it that has no object, or
one whose pointer ends in a word of 0. -/
def HandleTable.Spacious (t : HandleTable) : Prop :=
  t.handles ≠ 0 → ∃ index, t.freeSlot = some index ∧ index + 1 < t.hcap ∧
    t.mem.word (htSlot (index + 1) t.handles + heObj) = 0

/-- Handles are opened only then, for rights of 16 bits. -/
def HandleCall.Spacious : HandleCall → HandleRun → Prop
  | opens _ rights all, r => r.table.Spacious ∧ handleRights rights all < 2 ^ 16
  | closes _, _ => True

/-- The byte at `a` belongs to the table. All other memory is that of other tasks and of the
kernel. -/
def HandleTable.Owns (t : HandleTable) (a : Nat) : Prop :=
  t.handles ≤ a ∧ a < t.handles + t.hcap * heEntry

/-- The handle names `obj` with exactly `rights`. -/
def HandleTable.Resolves (t : HandleTable) (handle obj rights : Nat) : Prop :=
  (∃ slot, htEntry t handle = some slot ∧ t.mem.dword (slot + heObj) = obj ∧
    t.mem.word (slot + heRights) = rights) ∧
  ∀ need, htUse t handle need = if rights &&& need = need then .ok obj else .error .accessDenied

end Mellivora
