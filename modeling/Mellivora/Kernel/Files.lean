import Mellivora.Kernel.Extents
import Mellivora.Kernel.Quota

/-!
# Files

Creating, deleting and renaming entries of the current directory, in `hbfs.inc`. Every routine
returns the way it was left; `failed` is its carry flag. A routine that runs inside another one's
transaction only counts it up and down, so what a failure leaves behind depends on the exit that was
taken.
-/

namespace Mellivora

/-! ## Deleting -/

/-- How `hbfs_delete_file_entry` ends. -/
inductive DeleteExit
  | deleted
  /-- `.hdfe_refuse`: the volume may not be written -/
  | refused
  /-- `.hdfe_undone` after `hbfs_free_extent` has refused the run list -/
  | damaged
  /-- `.hdfe_undone` after a free or the directory's write has rolled the transaction back -/
  | undone
  deriving DecidableEq, Repr

/-- Carry on return. -/
def DeleteExit.failed (e : DeleteExit) : Bool := e != .deleted

/-- Frees the data of an entry: its run list, or its one run. -/
def freeEntryData (slot : Nat) : KernelM ExtentExit := do
  let buf := (← get).dirBuf
  let start := buf.entryDword slot deBlock
  let count := buf.entryDword slot deBlkcnt
  if buf.entryWord slot deFlags &&& hbfs4DeExtents ≠ 0 then hbfsFreeExtent start
  else if signedTurns count = 0 then return .freed
  else return if ← hbfsFreeBlocks start count then .undone else .freed

/-- Clears the entry and writes the directory. -/
def clearEntry (slot : Nat) : KernelM DeleteExit := do
  modify fun k => { k with dirBuf := k.dirBuf.clear (entryOff slot 0) hbfsDirEntrySize }
  if ← hbfsSaveRootDir then return .undone
  hbfsJournalCommit
  return .deleted

/-- Frees the block of extended attributes, if there is one. -/
def freeEntryXattr (slot : Nat) : KernelM Bool := do
  let xattr := (← get).dirBuf.entryDword slot deXattrLba
  if xattr = 0 then return false
  hbfsFreeBlocks xattr 1

/-- The transaction of `hbfs_delete_file_entry`. -/
def deleteEntryAt (slot : Nat) : KernelM DeleteExit := do
  hbfsJournalBegin
  match ← freeEntryData slot with
  | .damaged => return .damaged
  | .undone => return .undone
  | .freed =>
    if ← freeEntryXattr slot then return .undone
    clearEntry slot

/-- Give the blocks of an entry back to its owner's account. -/
def releaseEntry (slot : Nat) : KernelM Unit := do
  let buf := (← get).dirBuf
  let count := buf.entryDword slot deBlkcnt
  if count ≠ 0 then quotaRelease (buf.entryWord slot deUid) count

/-- `hbfs_delete_file_entry` of the entry at `slot` -/
def hbfsDeleteFileEntry (slot : Nat) : KernelM DeleteExit := do
  if ← hbfsRequireWritable then return .refused
  releaseEntry slot
  deleteEntryAt slot

/-! ## Creating -/

/-- How `hbfs_create_file` ends. -/
inductive CreateExit
  | created
  /-- `.hcf_denied` before a transaction is opened -/
  | denied
  /-- `.hcf_denied` when the entry of that name could not be deleted -/
  | kept (why : DeleteExit)
  /-- no free entry -/
  | full
  | quotaDenied
  | allocFail
  | writeFail
  deriving DecidableEq, Repr

/-- Carry on return. -/
def CreateExit.failed (e : CreateExit) : Bool := e != .created

/-- Where a new file's data is put. -/
inductive Placement
  /-- one run from this block on -/
  | inline (start : Nat)
  /-- the runs named by this extent block -/
  | extents (block : Nat) (runs : List (Nat × Nat))

/-- The block that the entry names. -/
def Placement.start : Placement → Nat
  | inline start => start
  | extents block _ => block

/-- The flags of the entry. -/
def Placement.flags : Placement → Nat
  | inline _ => 0
  | extents _ _ => hbfs4DeExtents

/-- One run if there is one that is long enough, else, in version 4, a run list. -/
def placeFile (blocks : Nat) : KernelM (Option Placement) := do
  match ← hbfsAllocBlocks blocks with
  | some start => return some (.inline start)
  | none =>
    if !(← get).isV4 then return none
    match ← hbfsExtentAlloc blocks with
    | none => return none
    | some (block, runs) => return some (.extents block runs)

/-- An entry with its name and type. -/
def Buffer.nameEntry (buf : Buffer) (slot : Nat) (name : Name) (type : UInt8) : Buffer :=
  ((buf.write (entryOff slot 0) (storedName name)).setEntryType slot type).setEntryWord
    slot deFlags 0

/-- The other fields of the new entry: it is root's, and everybody's to use. -/
def Buffer.fillEntry (buf : Buffer) (slot size blocks now : Nat) (place : Placement) : Buffer :=
  let buf := buf.setEntryWord slot deFlags place.flags
  let buf := buf.setEntryDword slot deBlock place.start
  let buf := buf.setEntryDword slot deSize size
  let buf := buf.setEntryDword slot deBlkcnt blocks
  let buf := (buf.setEntryDword slot deCtime now).setEntryDword slot deMtime now
  (buf.setEntryWord slot deMode 0x1FF).setEntryWord slot deUid 0

/-- Writes the data of a new file. -/
def writeFileData (place : Placement) (blocks : Nat) (data : Buffer) : KernelM Bool :=
  match place with
  | .inline start => blkCacheWrite (blockLba start) (data.sectors (blocks * hbfsSectorsPerBlk))
  | .extents _ runs => hbfsExtentWrite data runs 0

/-- `hbfs_create_file` from `.found_slot` on -/
def createAt (slot : Nat) (name : Name) (size : Nat) (data : Buffer) (type : UInt8) :
    KernelM CreateExit := do
  modify fun k => { k with dirBuf := k.dirBuf.nameEntry slot name type }
  let blocks := blocksFor size
  let euid := (← get).euid
  if ← quotaAllow euid blocks then
    hbfsJournalAbort
    return .quotaDenied
  match ← placeFile blocks with
  | none =>
    hbfsJournalAbort
    hbfsJournalAbort
    return .allocFail
  | some place =>
    quotaCharge euid blocks
    modify fun k => { k with dirBuf := k.dirBuf.fillEntry slot size blocks k.clock place }
    let _ ← hbfsSaveRootDir
    if ← writeFileData place blocks data then
      hbfsJournalAbort
      return .writeFail
    hbfsJournalCommit
    return .created

/-- Deletes the file of that name, if there is one. -/
def deleteOld (name : Name) : KernelM DeleteExit := do
  match hbfsFindFile (← get) name with
  | none => return .deleted
  | some slot => hbfsDeleteFileEntry slot

/-- `.not_exists`: make the new entry in the first free one. -/
def createInFree (name : Name) (size : Nat) (data : Buffer) (type : UInt8) : KernelM CreateExit :=
  do
  let _ ← hbfsLoadRootDir
  match findFree (← get) with
  | none => return .full
  | some slot => createAt slot name size data type

/-- `hbfs_create_file`: replaces a file of that name in the same transaction. -/
def hbfsCreateFile (name : Name) (size : Nat) (data : Buffer) (type : UInt8) : KernelM CreateExit :=
  do
  if ← hbfsRequireWritable then return .denied
  if ← hbfsCwdAccessCurrent then return .denied
  hbfsJournalBegin
  let _ ← hbfsLoadRootDir
  let old ← deleteOld name
  if old.failed then return .kept old
  createInFree name size data type

/-! ## Directories -/

/-- How `hbfs_mkdir` ends. -/
inductive MkdirExit
  | made
  | denied
  /-- `.hm_fail`: the name is taken, there is no room, or no free entry -/
  | failed
  deriving DecidableEq, Repr

/-- Block `i` of a new directory: zero, but for the checksum at the end of a v4 one. -/
def emptyDirBlock (v4 last : Bool) : Buffer :=
  if v4 && last then
    Buffer.setDword (fun _ => 0) (hbfsBlockSize - hbfs4RunChecksumBytes) hbfs4EmptyDirCrc
  else fun _ => 0

/-- `.hm_zero`: clear `left` blocks from `block` on, whatever the device says. -/
def zeroDirBlocks : (left block : Nat) → KernelM Unit
  | 0, _ => return
  | left + 1, block => do
    let data := emptyDirBlock (← get).isV4 (left == 0)
    let _ ← blkCacheWrite (blockLba block) (data.sectors hbfsSectorsPerBlk)
    zeroDirBlocks left (block + 1)

/-- The entry of a new directory. Its name is copied up to the terminator, however long it is. -/
def Buffer.dirEntry (buf : Buffer) (slot block now : Nat) (name : Name) : Buffer :=
  let buf := (buf.write (entryOff slot 0) (name ++ [0])).setEntryType slot ftypeDir
  let buf := (buf.setEntryDword slot deBlock block).setEntryDword slot deSize 0
  let buf := buf.setEntryDword slot deBlkcnt hbfsSubdirBlocks
  let buf := (buf.setEntryDword slot deCtime now).setEntryDword slot deMtime now
  (buf.setEntryWord slot deMode hbfsModeDirDef).setEntryWord slot deUid 0

/-- `.hm_fail`: rolls the transaction back. -/
def mkdirFail : KernelM MkdirExit := do
  hbfsJournalAbort
  return .failed

/-- `hbfs_mkdir`. -/
def hbfsMkdir (name : Name) : KernelM MkdirExit := do
  if ← hbfsRequireWritable then return .denied
  if ← hbfsCwdAccessCurrent then return .denied
  hbfsJournalBegin
  let _ ← hbfsLoadRootDir
  if (hbfsFindFile (← get) name).isSome then return ← mkdirFail
  match ← hbfsAllocBlocks hbfsSubdirBlocks with
  | none => mkdirFail
  | some block =>
    zeroDirBlocks hbfsSubdirBlocks block
    let _ ← hbfsLoadRootDir
    match findFree (← get) with
    | none => mkdirFail
    | some slot =>
      modify fun k => { k with dirBuf := k.dirBuf.dirEntry slot block k.clock name }
      let _ ← hbfsSaveRootDir
      hbfsJournalCommit
      return .made

/-! ## Renaming -/

/-- How `hbfs_rename_entry` ends. -/
inductive RenameExit
  | renamed
  | missing
  | taken
  | denied
  | failed
  deriving DecidableEq, Repr

/-- An entry with a new name and time. -/
def Buffer.renameEntry (buf : Buffer) (slot now : Nat) (new : Name) : Buffer :=
  (buf.write (entryOff slot 0) (storedName new)).setEntryDword slot deMtime now

/-- `hbfs_rename_entry`, inside one directory. -/
def hbfsRenameEntry (old new : Name) : KernelM RenameExit := do
  if ← hbfsRequireWritable then return .failed
  if ← hbfsCwdAccessCurrent then return .denied
  if ← hbfsLoadRootDir then return .denied
  match hbfsFindFile (← get) old with
  | none => return .missing
  | some slot =>
    if (hbfsFindFile (← get) new).isSome then return .taken
    hbfsJournalBegin
    modify fun k => { k with dirBuf := k.dirBuf.renameEntry slot k.clock new }
    if ← hbfsSaveRootDir then return .failed
    hbfsJournalCommit
    return .renamed

end Mellivora
