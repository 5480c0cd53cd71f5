import Mellivora.Kernel.Vfs

/-!
# Files in memory

The tmpfs part of `vfs.inc`: a table of 64 entries, each with a name and one page of memory from the
page allocator, and the virtual descriptors that keep the number of an entry. A name is what follows
`/tmp/` in a path, up to the terminator.

Beside the state stands what the kernel does not record: how often each entry has been filled, which
filling a descriptor was opened on, what has been written to each of them, and the pages of the
entries that were unlinked.
-/

namespace Mellivora

open Function

/-- `TMPFS_MAX_FILES`. -/
def tmpfsMaxFiles : Nat := 64
/-- `TMPFS_FILE_MAX`: the bytes of a file, one page. -/
def tmpfsFileMax : Nat := 4096
/-- `TMPFS_NAME_LEN`: the bytes of a name's field. -/
def tmpfsNameLen : Nat := 64

/-- An entry of `tmpfs_table`. -/
structure TmpFile where
  /-- `TMPF_STATE` -/
  live : Bool := false
  size : Nat := 0
  ptr : Nat := 0
  name : Name := []

/-- The state of `/tmp`, with the allocator it takes pages from. -/
structure TmpState where
  pmm : Pmm
  /-- physical memory, but for the links in the allocator's free pages -/
  mem : Buffer := fun _ => 0
  tmpfsTable : Nat → TmpFile := fun _ => {}
  vfdTable : Nat → Vfd := fun _ => {}

/-- A function of `/tmp`; `none` is an access behind the descriptor table. -/
abbrev TmpM := StateT TmpState Option

/-- A function of the allocator. -/
def onPmm {α : Type} (x : PmmM α) : TmpM α := do
  let s ← get
  let (a, pmm) ← StateT.lift (x.run s.pmm)
  set { s with pmm }
  return a

/-- Stores an entry. -/
def TmpState.setFile (s : TmpState) (i : Nat) (f : TmpFile) : TmpState :=
  { s with tmpfsTable := update s.tmpfsTable i f }

/-- Store bytes in memory. The first four bytes of a page are also the allocator's link. -/
def TmpState.store (s : TmpState) (addr : Nat) (bytes : List UInt8) : TmpState :=
  let mem := s.mem.write addr bytes
  { s with
    mem
    pmm :=
      { s.pmm with
        link := fun page =>
          if addr < 4096 * page + 4 ∧ 4096 * page < addr + bytes.length then mem.dword (4096 * page)
          else s.pmm.link page } }

/-! ## Opening -/

/-- `tmpfs_find`. -/
def TmpState.tmpfsFind (s : TmpState) (name : Name) : Option Nat :=
  (List.range tmpfsMaxFiles).find? fun i => (s.tmpfsTable i).live && (s.tmpfsTable i).name == name

/-- `.tfc_loop`: the first entry that is free or has the name. -/
def TmpState.freeOrNamed (s : TmpState) (name : Name) : Option Nat :=
  (List.range tmpfsMaxFiles).find? fun i => !(s.tmpfsTable i).live || (s.tmpfsTable i).name == name

/-- `tmpfs_find_or_create`: a new entry gets a page. -/
def tmpfsFindOrCreate (name : Name) : TmpM (Option Nat) := do
  let s ← get
  match s.freeOrNamed name with
  | none => return none
  | some i =>
    if (s.tmpfsTable i).live then return some i
    let ptr ← onPmm pmmAllocPage
    if ptr = 0 then return none
    -- Of a longer name the terminator replaces the byte at the end of the field and what follows.
    modify fun s =>
      s.setFile i { live := true, size := 0, ptr, name := name.take (tmpfsNameLen - 1) }
    return some i

/-- `.tmpo_looked`: a descriptor for an entry. -/
def openEntry (entry : Option Nat) : TmpM (Option Nat) := do
  match entry with
  | none => return none
  | some i =>
    let s ← get
    match firstFree s.vfdTable with
    | none => return none
    | some v =>
      let e := { s.vfdTable v with isOpen := true, realFd := i, pos := 0, obj := 0 }
      set { s with vfdTable := update s.vfdTable v e }
      return some v

/-- `vfs_tmp_open`. -/
def vfsTmpOpen (name : Name) (flags : Nat) : TmpM (Option Nat) := do
  if flags &&& fdFlagWrite = 0 then openEntry ((← get).tmpfsFind name)
  else openEntry (← tmpfsFindOrCreate name)

/-! ## Reading and writing -/

/-- `len` bytes from `addr` on. -/
def Buffer.bytes (mem : Buffer) (addr len : Nat) : List UInt8 :=
  (List.range len).map fun i => mem (addr + i)

/-- `vfs_tmp_read` of at most `len` bytes, once `vfs_read` has checked the number: nothing for -1 -/
def vfsTmpRead (v len : Nat) : TmpM (Option (List UInt8)) := do
  if vfsMaxFds ≤ v then return none
  let s ← get
  let e := s.vfdTable v
  if !e.isOpen then return none
  let f := s.tmpfsTable e.realFd
  if f.size ≤ e.pos then return some []
  let n := min (f.size - e.pos) len
  set { s with vfdTable := update s.vfdTable v { e with pos := e.pos + n } }
  return some (s.mem.bytes (f.ptr + e.pos) n)

/-- `vfs_tmp_write` of the bytes `src`, once `vfs_write` has checked the number: at the end of the
file, wherever the descriptor stands -/
def vfsTmpWrite (v : Nat) (src : List UInt8) : TmpM (Option Nat) := do
  if vfsMaxFds ≤ v then return none
  let s ← get
  let e := s.vfdTable v
  if !e.isOpen then return none
  let f := s.tmpfsTable e.realFd
  let n := min src.length (tmpfsFileMax - f.size)
  if n ≠ 0 then
    set ((s.store (f.ptr + f.size) (src.take n)).setFile e.realFd { f with size := f.size + n })
  return some n

/-! ## Closing and unlinking -/

/-- `vfs_close` of a descriptor without a File object, true for -1. For a number past the table it
takes two words too many off the stack. -/
def vfsTmpClose (v : Nat) : TmpM Bool := do
  if vfsMaxFds ≤ v then StateT.lift none
  let s ← get
  let e := s.vfdTable v
  if !e.isOpen then return true
  set { s with vfdTable := update s.vfdTable v { e with isOpen := false } }
  return false

/-- `str_cmp_esi_edi`: 0 for equal strings, else 1 -/
def strCmp (a b : Name) : Nat := if a = b then 0 else 1

/-- `vfs_tmp_unlink`, true for -1. It has the page in EBX and the result of the comparison still in
EAX, which is where `pmm_free_page` takes its address from. -/
def vfsTmpUnlink (name : Name) : TmpM Bool := do
  let s ← get
  match s.tmpfsFind name with
  | none => return true
  | some i =>
    onPmm (pmmFreePage (strCmp name (s.tmpfsTable i).name))
    modify fun s => s.setFile i {}
    return false

/-! ## Runs -/

/-- A file by its entry and the number of times that entry has been filled. -/
abbrev TmpFileId := Nat × Nat

/-- A run of `/tmp`, with what was written to each file. -/
structure TmpRun where
  tmp : TmpState
  filled : Nat → Nat := fun _ => 0
  /-- the file a descriptor was opened on -/
  opened : Nat → TmpFileId := fun _ => (0, 0)
  contents : TmpFileId → List UInt8 := fun _ => []
  /-- the pages of the entries that were unlinked, each with the number of pages it is -/
  unlinked : List (Nat × Nat) := []

/-- A call on `/tmp`. -/
inductive TmpCall
  | open (name : Name) (flags : Nat)
  | read (v len : Nat)
  | write (v : Nat) (src : List UInt8)
  | close (v : Nat)
  | unlink (name : Name)

/-- The page of an entry, as an allocation of one page. -/
def TmpFile.page (f : TmpFile) : Nat × Nat := (f.ptr / 4096, 1)

/-- A call has opened `v`, or nothing, and may have filled an entry. -/
def TmpRun.afterOpen (r : TmpRun) (v : Option Nat) (tmp : TmpState) : TmpRun :=
  let filled := fun i =>
    if !(r.tmp.tmpfsTable i).live && (tmp.tmpfsTable i).live then r.filled i + 1 else r.filled i
  { r with
    tmp
    filled
    opened := match v with
      | none => r.opened
      | some v => update r.opened v ((tmp.vfdTable v).realFd, filled (tmp.vfdTable v).realFd) }

/-- Notes the bytes that a write has appended. -/
def TmpRun.afterWrite (r : TmpRun) (v : Nat) (src : List UInt8) (n : Option Nat) (tmp : TmpState) :
    TmpRun :=
  { r with
    tmp
    contents := match n with
      | none => r.contents
      | some n => update r.contents (r.opened v) (r.contents (r.opened v) ++ src.take n) }

/-- Notes the page that an unlink gives up. -/
def TmpRun.afterUnlink (r : TmpRun) (name : Name) (tmp : TmpState) : TmpRun :=
  { r with
    tmp
    unlinked := match r.tmp.tmpfsFind name with
      | none => r.unlinked
      | some i => (r.tmp.tmpfsTable i).page :: r.unlinked }

/-- The run after the call. -/
def TmpCall.step (c : TmpCall) (r : TmpRun) : Option TmpRun :=
  match c with
  | .open name flags => ((vfsTmpOpen name flags).run r.tmp).map fun (v, tmp) => r.afterOpen v tmp
  | read v len => ((vfsTmpRead v len).run r.tmp).map fun (_, tmp) => { r with tmp }
  | write v src => ((vfsTmpWrite v src).run r.tmp).map fun (n, tmp) => r.afterWrite v src n tmp
  | close v => ((vfsTmpClose v).run r.tmp).map fun (_, tmp) => { r with tmp }
  | unlink name => ((vfsTmpUnlink name).run r.tmp).map fun (_, tmp) => r.afterUnlink name tmp

/-! ## What is claimed -/

/-- The entries in use. -/
def TmpState.entries (s : TmpState) : List Nat :=
  (List.range tmpfsMaxFiles).filter fun i => (s.tmpfsTable i).live

/-- Their pages. -/
def TmpState.pages (s : TmpState) : List (Nat × Nat) := s.entries.map fun i => (s.tmpfsTable i).page

/-- The descriptor is open. -/
def TmpState.IsOpen (s : TmpState) (v : Nat) : Prop := v < vfsMaxFds ∧ (s.vfdTable v).isOpen

/-- Of the pages `X`, those of the entries in use and those that others hold are taken and the rest
is free. -/
def TmpRun.PagesOwned (X : Set Nat) (others : List (Nat × Nat)) (r : TmpRun) : Prop :=
  PmmRun.Sound X { pmm := r.tmp.pmm, live := r.tmp.pages ++ others }

/-- Names are unique, a descriptor is on the file it was opened on, and a file has what was written
to it. -/
structure TmpRun.Sound (r : TmpRun) : Prop where
  names : ∀ i ∈ r.tmp.entries, ∀ j ∈ r.tmp.entries, (r.tmp.tmpfsTable i).name =
    (r.tmp.tmpfsTable j).name → i = j
  same : ∀ v, r.tmp.IsOpen v → let i := (r.tmp.vfdTable v).realFd
    i ∈ r.tmp.entries → r.opened v = (i, r.filled i)
  contents : ∀ i ∈ r.tmp.entries, let f := r.tmp.tmpfsTable i
    r.tmp.mem.bytes f.ptr f.size = r.contents (i, r.filled i)

/-- An open for writing finds the entry of the name, and a read returns what was written to the file
that the descriptor was opened on. -/
def TmpCall.Right (c : TmpCall) (r : TmpRun) : Prop :=
  match c with
  | .open name flags => flags &&& fdFlagWrite ≠ 0 →
      ∀ i ∈ r.tmp.entries, (r.tmp.tmpfsTable i).name = name →
      ∀ v tmp, (vfsTmpOpen name flags).run r.tmp = some (some v, tmp) → (tmp.vfdTable v).realFd = i
  | read v len => ∀ bytes tmp, (vfsTmpRead v len).run r.tmp = some (some bytes, tmp) →
      bytes = ((r.contents (r.opened v)).drop (r.tmp.vfdTable v).pos).take len
  | _ => True

/-- Before the first file: the allocator has been seeded with the pages `X`, of which others hold
some. -/
structure TmpState.Fresh (X : Set Nat) (others : List (Nat × Nat)) (s : TmpState) : Prop where
  pmm : ∃ blank regions seeded calls, blank.Blank ∧ SeedRegions blank.pmmMemTop regions ∧
    (pmmSeed regions).run blank = some ((), seeded) ∧ X = seededPages regions ∧
    Runs.AlongAll PmmCall.step PmmCall.Legal calls { pmm := seeded } ∧
    Runs.afterAll PmmCall.step { pmm := seeded } calls = some { pmm := s.pmm, live := others }
  empty : ∀ i < tmpfsMaxFiles, (s.tmpfsTable i).live = false
  closed : ∀ v < vfsMaxFds, (s.vfdTable v).isOpen = false

/-! ## When it holds -/

/-- A name that is opened for writing fits into its field, and there is no free entry before the one
that has it. A file is unlinked while no descriptor is open on it. -/
def TmpCall.Guarded (c : TmpCall) (r : TmpRun) : Prop :=
  match c with
  | .open name flags => flags &&& fdFlagWrite ≠ 0 → name.length < tmpfsNameLen ∧
      ∀ i ∈ r.tmp.entries, (r.tmp.tmpfsTable i).name = name → ∀ j < i, j ∈ r.tmp.entries
  | read _ _ | write _ _ => True
  | close v => v < vfsMaxFds
  | unlink name => ∀ i, r.tmp.tmpfsFind name = some i → ∀ v, r.tmp.IsOpen v →
      (r.tmp.vfdTable v).realFd ≠ i

end Mellivora
