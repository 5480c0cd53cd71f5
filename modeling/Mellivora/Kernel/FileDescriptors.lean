import Mellivora.Lib.Runs
import Mellivora.Kernel.Pmm
import Mellivora.Kernel.WorkingDirectory

/-!
# File descriptors

`fd_open`, `fd_read`, `fd_write`, `fd_seek` and `fd_close` of `util.inc`. A descriptor keeps the
numbers of the directory entry it was opened on: where the data starts, how many blocks it has and
how long it is. It does not keep the entry. `fd_close` looks for one with the same start block when
the file has grown.

Every task has a table of its own, swapped with the task. Beside the tables stands what the kernel
does not record: the directory entry each descriptor was opened on, as long as the file in it has
not been deleted or replaced.
-/

namespace Mellivora

open Function

/-- `FD_MAX`: the descriptors of a task. -/
def fdMax : Nat := 8
/-- `FD_FLAG_CLOSED`. -/
def fdFlagClosed : Nat := 0
/-- `FD_FLAG_READ`. -/
def fdFlagRead : Nat := 1
/-- `FD_FLAG_WRITE`. -/
def fdFlagWrite : Nat := 2
/-- `FD_FLAG_DIRTY`: the entry's size has to be stored on close. -/
def fdFlagDirty : Nat := 0x80000000

/-- A descriptor. -/
structure FdEntry where
  flags : Nat := fdFlagClosed
  size : Nat := 0
  startBlock : Nat := 0
  position : Nat := 0
  blockCount : Nat := 0
  /-- the directory the file was found in -/
  dirLba : Nat := 0
  dirSects : Nat := 0
  /-- the extent block, 0 for a file in one run -/
  extentBlock : Nat := 0

/-- A directory entry by its place: the directory's first sector and size, and the slot in it. -/
structure FileId where
  dirLba : Nat
  dirSects : Nat
  slot : Nat
  deriving DecidableEq

/-- The kernel with every task's descriptors. -/
structure FdState where
  kernel : Kernel
  task : Nat := 0
  fdTable : Nat → Nat → FdEntry := fun _ _ => {}
  /-- The entry a descriptor was opened on, unless its file has been deleted or replaced since. -/
  opened : Nat → Nat → Option FileId := fun _ _ => none

/-- A function of the descriptor layer. -/
abbrev FdM := StateM FdState

/-- A descriptor of the running task. -/
def FdState.entry (s : FdState) (fd : Nat) : FdEntry := s.fdTable s.task fd

/-- A function of the file system, with the descriptors left alone. -/
def onKernel {α : Type} (x : KernelM α) : FdM α := do
  let s ← get
  let (a, kernel) := x.run s.kernel
  set { s with kernel }
  return a

/-- Stores a descriptor of the running task. -/
def FdState.setEntry (s : FdState) (fd : Nat) (e : FdEntry) : FdState :=
  { s with fdTable := update s.fdTable s.task (update (s.fdTable s.task) fd e) }

/-- Notes what a descriptor of the running task is opened on. -/
def FdState.setOpened (s : FdState) (fd : Nat) (file : Option FileId) : FdState :=
  { s with opened := update s.opened s.task (update (s.opened s.task) fd file) }

/-! ## Opening -/

/-- The first closed descriptor. -/
def FdState.findFd (s : FdState) : Option Nat :=
  (List.range fdMax).find? fun fd => (s.entry fd).flags == fdFlagClosed

/-- What `fd_open` stores about the directory entry at `slot`. -/
def Kernel.fdEntry (k : Kernel) (slot mode : Nat) : FdEntry :=
  { flags := mode
    size := k.dirBuf.entryDword slot deSize
    startBlock := k.dirBuf.entryDword slot deBlock
    position := 0
    blockCount := k.dirBuf.entryDword slot deBlkcnt
    dirLba := k.currentDirLba
    dirSects := k.currentDirSects
    extentBlock := if k.dirBuf.entryWord slot deFlags &&& hbfs4DeExtents = 0 then 0
      else k.dirBuf.entryDword slot deBlock }

/-- The access an open mode asks for. -/
def openAccess (mode : Nat) : Nat :=
  if mode &&& fdFlagWrite = 0 then hbfsAccRead else hbfsAccRead ||| hbfsAccWrite

/-- `fd_open` in the directory it has entered: search, check and fill the descriptor. The search is
in the directory buffer as it is. -/
def fdOpenIn (fd : Nat) (base : Name) (mode : Nat) : FdM (Option Nat) := do
  let s ← get
  let k := s.kernel
  match hbfsFindFile k base with
  | none => return none
  | some slot =>
    if hbfsCheckAccess k k.dirBuf slot (openAccess mode) then return none
    set ((s.setEntry fd (k.fdEntry slot mode)).setOpened fd
      (some ⟨k.currentDirLba, k.currentDirSects, slot⟩))
    return some fd

/-- `fd_open`: takes a descriptor, enters the directory and comes back from it. -/
def fdOpen (dir : List PathStep) (base : Name) (mode : Nat) : FdM (Option Nat) := do
  match (← get).findFd with
  | none => return none
  | some fd =>
    if base.isEmpty then return none
    let saved := (← get).kernel
    if ← onKernel (pathEnter dir) then return none
    let found ← fdOpenIn fd base mode
    onKernel (pathRestoreCwd saved)
    return found

/-! ## Reading -/

/-- `.hmw_walk`: the physical block of the logical block `want`, `cnt` runs from the `i`-th on. -/
def mapWalk (buf : Buffer) : (cnt i want : Nat) → Option Nat
  | 0, _, _ => none
  | cnt + 1, i, want =>
    let (start, len) := buf.run i
    if len = 0 then none
    else if want < len then some ((start + want) % 2 ^ 32)
    else mapWalk buf cnt (i + 1) (want - len)

/-- `hbfs_map_extent`: the block of the volume that is block `want` of the file. -/
def hbfsMapExtent (block want : Nat) : KernelM (Option Nat) := do
  if (← get).extentLba ≠ block then
    let (cf, data) ← blkCacheRead (blockLba block) hbfsSectorsPerBlk
    modify fun k => { k with extentBuf := k.extentBuf.load data }
    if cf then return none
    if !(← get).extentBuf.verifyRun hbfsBlockSize then return none
    modify fun k => { k with extentLba := block }
  let buf := (← get).extentBuf
  if buf.dword 0 ≠ hbfs4ExtentMagic then return none
  if buf.dword 4 = 0 ∨ hbfs4ExtentMax < buf.dword 4 then return none
  return mapWalk buf (buf.dword 4) 0 want

/-- The block of the volume under the position. -/
def FdEntry.readBlock (e : FdEntry) : KernelM (Option Nat) :=
  let index := e.position / hbfsBlockSize
  if e.extentBlock = 0 then return some ((e.startBlock + index) % 2 ^ 32)
  else hbfsMapExtent e.extentBlock index

/-- The smaller of two words by the signed comparison of `jle`. -/
def signedMin (a b : Nat) : Nat := if signed a ≤ signed b then a else b

/-- `len` bytes of a block from `off` on. -/
def blockBytes (data : List Sector) (off len : Nat) : List UInt8 :=
  (List.range len).map fun i => Buffer.load (fun _ => 0) data (off + i)

/-- `fd_read` of at most `len` bytes: nothing for -1. What it returns ends with the block. -/
def fdRead (fd len : Nat) : FdM (Option (List UInt8)) := do
  if fdMax ≤ fd then return none
  let e := (← get).entry fd
  if e.flags = fdFlagClosed then return none
  let left := (e.size + 2 ^ 32 - e.position) % 2 ^ 32
  if signed e.size ≤ signed e.position then return some []
  match ← onKernel e.readBlock with
  | none => return none
  | some block =>
    let (cf, data) ← onKernel (blkCacheRead (blockLba block) hbfsSectorsPerBlk)
    if cf then return none
    let off := e.position % hbfsBlockSize
    let n := signedMin (signedMin len left) (hbfsBlockSize - off)
    modify fun s => s.setEntry fd { e with position := (e.position + n) % 2 ^ 32 }
    return some (blockBytes data off n)

/-! ## Writing -/

/-- The write goes on: the descriptor is open for writing and its position inside the blocks it
knows. -/
def FdEntry.writes (e : FdEntry) : Bool :=
  e.flags &&& fdFlagWrite != 0 && e.position / hbfsBlockSize < signedTurns e.blockCount

/-- The block that holds the position, counted from the start block. -/
def FdEntry.writeBlock (e : FdEntry) : Nat := (e.startBlock + e.position / hbfsBlockSize) % 2 ^ 32

/-- The position after `n` bytes, with the size when it has grown. -/
def FdEntry.advance (e : FdEntry) (n : Nat) : FdEntry :=
  let position := (e.position + n) % 2 ^ 32
  if signed position ≤ signed e.size then { e with position }
  else { e with position, size := position, flags := e.flags ||| fdFlagDirty }

/-- The rest of `fd_write`: read the block, put the bytes in and write it back. -/
def fdWriteBlock (fd : Nat) (e : FdEntry) (src : List UInt8) : FdM Nat := do
  let lba := blockLba e.writeBlock
  let (cf, data) ← onKernel (ataReadSectors lba hbfsSectorsPerBlk)
  if cf then return 0
  let off := e.position % hbfsBlockSize
  let n := signedMin src.length (hbfsBlockSize - off)
  let buf := (Buffer.load (fun _ => 0) data).write off (src.take n)
  if ← onKernel (blkCacheWrite lba (buf.sectors hbfsSectorsPerBlk)) then return 0
  modify fun s => s.setEntry fd (e.advance n)
  return n

/-- `fd_write` of the bytes `src`: nothing for -1, and 0 when the position is past the blocks or the
device fails. -/
def fdWrite (fd : Nat) (src : List UInt8) : FdM (Option Nat) := do
  if fdMax ≤ fd then return none
  let e := (← get).entry fd
  if e.flags &&& fdFlagWrite = 0 then return none
  if e.writes then return some (← fdWriteBlock fd e src)
  return some 0

/-! ## Seeking and closing -/

/-- `fd_seek`: the new position, or nothing for -1. -/
def fdSeek (fd off whence : Nat) : FdM (Option Nat) := do
  if fdMax ≤ fd then return none
  let e := (← get).entry fd
  if e.flags = fdFlagClosed then return none
  let moved := fun position => do
    modify fun s => s.setEntry fd { e with position }
    return some position
  match whence with
  | 0 => moved off
  | 1 => moved ((e.position + off) % 2 ^ 32)
  | 2 => moved ((e.size + off) % 2 ^ 32)
  | _ => return none

/-- `.fcl_scan`: the first live entry of a directory of `sects` sectors whose data starts at
`block`. -/
def findByBlock (dir : Buffer) (sects block : Nat) : Option Nat :=
  (List.range (maxEntries sects)).find? fun slot =>
    dir.entryType slot != ftypeFree && dir.entryDword slot deBlock == block

/-- A directory entry with a new size and time. -/
def Buffer.resizeEntry (buf : Buffer) (slot size now : Nat) : Buffer :=
  (buf.setEntryDword slot deSize size).setEntryDword slot deMtime now

/-- `fd_close` in the directory the descriptor remembers: whatever the load and the save report. -/
def storeSize (e : FdEntry) : KernelM Unit := do
  let _ ← hbfsLoadRootDir
  let k ← get
  match findByBlock k.dirBuf k.currentDirSects e.startBlock with
  | none => return
  | some slot =>
    set { k with dirBuf := k.dirBuf.resizeEntry slot e.size k.clock }
    let _ ← hbfsSaveRootDir

/-- `fd_close` of a descriptor that has grown its file: go to the directory and come back. -/
def closeDirty (e : FdEntry) : KernelM Unit := do
  let saved ← get
  set { saved with currentDirLba := e.dirLba, currentDirSects := e.dirSects }
  storeSize e
  modify fun k =>
    { k with currentDirLba := saved.currentDirLba, currentDirSects := saved.currentDirSects }

/-- `fd_close`: stores a changed size in the file's entry. -/
def fdClose (fd : Nat) : FdM Unit := do
  if fdMax ≤ fd then return
  let e := (← get).entry fd
  if e.flags &&& fdFlagDirty ≠ 0 then onKernel (closeDirty e)
  modify fun s => (s.setEntry fd { s.entry fd with flags := fdFlagClosed }).setOpened fd none

/-! ## Runs -/

/-- The file at `slot` of the current directory is gone: no descriptor is open on it any more. -/
def FdState.forget (s : FdState) (dirLba slot : Nat) : FdState :=
  { s with
    opened := fun task fd => (s.opened task fd).filter fun file =>
      !(file.dirLba == dirLba && file.slot == slot) }

/-- `hbfs_delete_file_entry`; what was opened on the entry is forgotten. -/
def deleteFile (slot : Nat) : FdM DeleteExit := do
  let exit ← onKernel (hbfsDeleteFileEntry slot)
  if exit = .deleted then modify fun s => s.forget s.kernel.currentDirLba slot
  return exit

/-- `vfs_hbfs_unlink` of `base` in the directory that `dir` leads to, true for -1 -/
def vfsHbfsUnlink (dir : List PathStep) (base : Name) : FdM Bool := do
  if base.isEmpty then return true
  let saved := (← get).kernel
  if ← onKernel (pathEnter dir) then return true
  let k := (← get).kernel
  let failed ← match hbfsFindFile k base with
    | none => pure true
    | some slot =>
      if hbfsCheckAccess k k.dirBuf slot hbfsAccWrite then pure true
      else do
        let _ ← deleteFile slot
        pure false
  onKernel (pathRestoreCwd saved)
  return failed

/-- The entry that `hbfs_create_file` deletes first: the one of that name, once the directory is
loaded. -/
def replacedSlot (name : Name) (k : Kernel) : Option Nat :=
  let load : KernelM Unit := do
    let _ ← hbfsCwdAccessCurrent
    hbfsJournalBegin
    let _ ← hbfsLoadRootDir
  hbfsFindFile (load.run k).2 name

/-- `hbfs_create_file`; what was opened on a file it replaces is forgotten. -/
def createFile (name : Name) (size : Nat) (data : Buffer) (type : UInt8) : FdM CreateExit := do
  let old := replacedSlot name (← get).kernel
  let exit ← onKernel (hbfsCreateFile name size data type)
  match old with
  | some slot => if exit = .created then modify fun s => s.forget s.kernel.currentDirLba slot
  | none => pure ()
  return exit

/-- A call that uses the descriptors or changes the directories under them. -/
inductive FdCall
  | open (dir : List PathStep) (base : Name) (mode : Nat)
  | read (fd len : Nat)
  | write (fd : Nat) (src : List UInt8)
  | seek (fd off whence : Nat)
  | close (fd : Nat)
  | create (name : Name) (size : Nat) (data : Buffer) (type : UInt8)
  | deleteEntry (slot : Nat)
  | unlink (dir : List PathStep) (base : Name)
  | mkdir (name : Name)
  | rename (old new : Name)
  | cd (path : List PathStep)
  /-- another task runs, for its own user -/
  | switch (task euid egid : Nat)

/-- What the call does. -/
def FdCall.run : FdCall → FdM Unit
  | .open dir base mode => discard <| fdOpen dir base mode
  | read fd len => discard <| fdRead fd len
  | write fd src => discard <| fdWrite fd src
  | seek fd off whence => discard <| fdSeek fd off whence
  | close fd => fdClose fd
  | create name size data type => discard <| createFile name size data type
  | deleteEntry slot => discard <| deleteFile slot
  | unlink dir base => discard <| vfsHbfsUnlink dir base
  | mkdir name => discard <| onKernel (hbfsMkdir name)
  | rename old new => discard <| onKernel (hbfsRenameEntry old new)
  | cd path => discard <| onKernel (cmdCdInternal path)
  | switch task euid egid => modify fun s => { s with task, kernel := { s.kernel with euid, egid } }

/-- The state after the call. -/
def FdCall.step (c : FdCall) (s : FdState) : FdState := (c.run.run s).2

/-! ## What a call through a descriptor may change -/

/-- The data blocks of the entry at `slot` of a directory on the disk `d`: its one run, or the runs
its extent block names. -/
def EntryBlock (d : Disk) (dir : Buffer) (slot block : Nat) : Prop :=
  if dir.entryWord slot deFlags &&& hbfs4DeExtents = 0 then
    ∃ i < dir.entryDword slot deBlkcnt, block = (dir.entryDword slot deBlock + i) % 2 ^ 32
  else
    let runs := Buffer.ofDisk d (blockLba (dir.entryDword slot deBlock))
    ∃ i < runs.dword 4, ∃ j < (runs.run i).2, block = ((runs.run i).1 + j) % 2 ^ 32

/-- A sector of the data of a file that is there. -/
def FileId.Data (file : FileId) (d : Disk) (lba : Nat) : Prop :=
  let dir := Buffer.ofDisk d file.dirLba
  dir.entryType file.slot ≠ ftypeFree ∧
    ∃ block, EntryBlock d dir file.slot block ∧ ∃ j < hbfsSectorsPerBlk, lba = blockLba block + j

/-- A byte of the entry of a file, or of the checksum of the directory the entry is in. -/
def FileId.EntryByte (file : FileId) (lba : Nat) (j : Fin 512) : Prop :=
  ∃ i, lba = file.dirLba + i ∧
    ((entryOff file.slot 0 ≤ 512 * i + j.val ∧
      512 * i + j.val < entryOff file.slot hbfsDirEntrySize) ∨
      (512 * file.dirSects ≤ 512 * i + j.val + hbfs4RunChecksumBytes ∧ i < file.dirSects))

/-- From the disk `d` to `d'` nothing changes but the data and the entry of `file`, if there is one;
the journal and the superblock apart. -/
def ChangesOnly (file : Option FileId) (d d' : Disk) : Prop :=
  ∀ lba, ¬ InLog lba → lba ≠ hbfsSuperblockLba → ∀ j, (d' lba).bytes j ≠ (d lba).bytes j →
    ∃ f, file = some f ∧ (f.Data d lba ∨ f.EntryByte lba j)

/-- A write or a close through a descriptor changes only the file it was opened on. -/
def FdCall.Isolated (c : FdCall) (s : FdState) : Prop :=
  match c with
  | write fd _ | close fd => ChangesOnly (s.opened s.task fd) s.kernel.disk (c.step s).kernel.disk
  | _ => True

/-! ## When it does -/

/-- The entry a descriptor was opened on still names the blocks the descriptor knows, as one run. -/
structure FdEntry.Current (e : FdEntry) (d : Disk) (file : FileId) : Prop where
  live : (Buffer.ofDisk d file.dirLba).entryType file.slot ≠ ftypeFree
  inline : (Buffer.ofDisk d file.dirLba).entryWord file.slot deFlags &&& hbfs4DeExtents = 0
  start : (Buffer.ofDisk d file.dirLba).entryDword file.slot deBlock = e.startBlock
  blocks : e.blockCount ≤ (Buffer.ofDisk d file.dirLba).entryDword file.slot deBlkcnt

/-- The directory buffer holds what is on the disk, if it holds the directory. -/
def Kernel.BufferCurrent (k : Kernel) (lba sects : Nat) : Prop :=
  lba = k.dirCacheLba → sects = k.dirCacheSects → ∀ i < 512 * sects, k.dirBuf i =
    Buffer.ofDisk k.disk lba i

/-- Where a descriptor that has grown its file is closed: the device works, no transaction is open,
the directory is a plain one and its first entry with the start block is the one that was opened. -/
structure FdEntry.ComesBack (e : FdEntry) (k : Kernel) (file : Option FileId) : Prop where
  faults : k.faults = []
  bounds : hbfsJournalLba + hbfsJournalSects ≤ k.ataTotalSectors
  depth : k.journalDepth = 0
  fits : e.dirSects ≤ hbfsRootDirSects
  place : e.dirLba + e.dirSects ≤ 2 ^ 32
  apart : ∀ i < e.dirSects, ¬ InLog (e.dirLba + i)
  current : k.BufferCurrent e.dirLba e.dirSects
  first : ∀ slot, findByBlock (Buffer.ofDisk k.disk e.dirLba) e.dirSects e.startBlock = some slot →
    file = some ⟨e.dirLba, e.dirSects, slot⟩

/-- The condition on a call through a descriptor. -/
def FdCall.Sound (c : FdCall) (s : FdState) : Prop :=
  match c with
  | write fd _ => fd < fdMax → (s.entry fd).writes = true →
      ∃ file, s.opened s.task fd = some file ∧ (s.entry fd).Current s.kernel.disk file
  | close fd => fd < fdMax → (s.entry fd).flags &&& fdFlagDirty ≠ 0 →
      (s.entry fd).ComesBack s.kernel (s.opened s.task fd)
  | _ => True

/-- The bytes of the entry of `file` are not those that a change of `other` may reach. -/
def FileId.Apart (file : FileId) (other : Option FileId) (d : Disk) : Prop :=
  ∀ lba (j : Fin 512), (∃ i, lba = file.dirLba + i ∧ entryOff file.slot 0 ≤ 512 * i + j.val ∧
      512 * i + j.val < entryOff file.slot hbfsDirEntrySize) →
    ¬ InLog lba ∧ lba ≠ hbfsSuperblockLba ∧ ∀ f, other = some f → ¬ f.Data d lba ∧
    ¬ f.EntryByte lba j

/-- A call through a descriptor that is sound and, if it writes, leaves the entry of `file`
alone. -/
def FdCall.Spares (file : FileId) (c : FdCall) (s : FdState) : Prop :=
  match c with
  | write fd _ | close fd => c.Sound s ∧ file.Apart (s.opened s.task fd) s.kernel.disk
  | read .. | seek .. | switch .. => True
  | _ => False

end Mellivora
