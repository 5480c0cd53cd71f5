import Mellivora.Kernel.BlkCache
import Mellivora.Kernel.Journal

/-!
# Directories

The directory buffer of `hbfs.inc`: loading the current directory, saving the sectors that differ
from the shadow of what is on the disk, finding an entry by its name, and the permission checks. A
directory is an array of entries of 288 bytes; an entry whose type is 0 is free.
-/

namespace Mellivora

/-- A NUL-terminated name, without its terminator. -/
abbrev Name := List UInt8

/-- What `.hlrd_err` leaves in `dir_cache_lba`. -/
def dirCacheInvalid : Nat := 2 ^ 32 - 2

/-- `hbfs_load_root_dir`: reads the working directory unless it is in memory. -/
def hbfsLoadRootDir : KernelM Bool := do
  let k ← get
  if !k.mounted then return true
  if k.currentDirLba = k.dirCacheLba ∧ k.currentDirSects = k.dirCacheSects then return false
  modify fun k => { k with dirBuf := k.dirBuf.clear 0 hbfsRootDirSize }
  let (cf, data) ← ataReadSectors k.currentDirLba k.currentDirSects
  modify fun k => { k with dirBuf := k.dirBuf.load data }
  if cf then
    modify fun k => { k with dirCacheLba := dirCacheInvalid }
    return true
  if k.isV4 && !(← get).dirBuf.verifyRun (512 * k.currentDirSects) then
    modify fun k =>
      { k with dirBuf := k.dirBuf.clear 0 hbfsRootDirSize, dirCacheLba := dirCacheInvalid }
    return true
  modify fun k =>
    { k with
      dirShadow := fun i => if i < hbfsRootDirSize then k.dirBuf i else k.dirShadow i
      dirCacheLba := k.currentDirLba
      dirCacheSects := k.currentDirSects }
  return false

/-- `.hsrd_loop`: write the sectors that differ from the shadow, `cnt` of them from the `i`-th
on. -/
def saveLoop (lba : Nat) : (cnt i : Nat) → KernelM Bool
  | 0, _ => return false
  | cnt + 1, i => do
    let k ← get
    if k.dirBuf.sector i = k.dirShadow.sector i then saveLoop lba cnt (i + 1)
    else
      if ← hbfsJournalLogSector (lba + i) then return true
      if ← ataWriteSectors (lba + i) [(← get).dirBuf.sector i] then return true
      modify fun k => { k with dirShadow := k.dirShadow.putSector i (k.dirBuf.sector i) }
      saveLoop lba cnt (i + 1)

/-- `hbfs_save_root_dir`: writes it back in a transaction. -/
def hbfsSaveRootDir : KernelM Bool := do
  if ← hbfsRequireWritable then return true
  hbfsJournalBegin
  modify fun k =>
    { k with dirBuf := if k.isV4 then k.dirBuf.stampRun (512 * k.currentDirSects) else k.dirBuf }
  let k ← get
  if ← saveLoop k.currentDirLba k.currentDirSects 0 then
    hbfsJournalAbort
    return true
  hbfsJournalCommit
  return false

/-! ## Entries -/

/-- Where a field of an entry is. -/
def entryOff (slot field : Nat) : Nat := hbfsDirEntrySize * slot + field

/-- The type byte of an entry. -/
def Buffer.entryType (buf : Buffer) (slot : Nat) : UInt8 := buf (entryOff slot deType)

/-- A 32-bit field of an entry. -/
def Buffer.entryDword (buf : Buffer) (slot field : Nat) : Nat := buf.dword (entryOff slot field)

/-- A 16-bit field of an entry. -/
def Buffer.entryWord (buf : Buffer) (slot field : Nat) : Nat := buf.word (entryOff slot field)

/-- How many entries fit a directory of `sects` sectors. -/
def maxEntries (sects : Nat) : Nat := 512 * sects / hbfsDirEntrySize

/-- A byte of a name, 0 behind its end. -/
def nameByte (name : Name) (i : Nat) : UInt8 := name.getD i 0

/-- `.cmp_loop`: the name at `off` is `name`, with at most `left` bytes compared from the `i`-th
on. -/
def cmpLoop (buf : Buffer) (off : Nat) (name : Name) : (left i : Nat) → Bool
  | 0, _ => false
  | left + 1, i =>
    if nameByte name i ≠ buf (off + i) then false
    else if nameByte name i = 0 then true
    else cmpLoop buf off name left (i + 1)

/-- A live entry that `hbfs_find_file` takes for `name`. -/
def Buffer.holdsName (buf : Buffer) (name : Name) (slot : Nat) : Bool :=
  buf.entryType slot != ftypeFree && cmpLoop buf (entryOff slot 0) name 252 0

/-- `hbfs_find_file`: the first entry of that name. -/
def hbfsFindFile (k : Kernel) (name : Name) : Option Nat :=
  (List.range (maxEntries k.currentDirSects)).find? (k.dirBuf.holdsName name)

/-- `.find_free`: the first free entry. -/
def findFree (k : Kernel) : Option Nat :=
  (List.range (maxEntries k.currentDirSects)).find? (k.dirBuf.entryType · == ftypeFree)

/-- A name as `.copy_name` stores it: the first `hbfsMaxFilename` bytes and a terminator. -/
def storedName (name : Name) : List UInt8 := name.take hbfsMaxFilename ++ [0]

/-- Stores a 32-bit field of an entry. -/
def Buffer.setEntryDword (buf : Buffer) (slot field v : Nat) : Buffer :=
  buf.setDword (entryOff slot field) v

/-- Stores a 16-bit field of an entry. -/
def Buffer.setEntryWord (buf : Buffer) (slot field v : Nat) : Buffer :=
  buf.setWord (entryOff slot field) v

/-- Stores the type byte of an entry. -/
def Buffer.setEntryType (buf : Buffer) (slot : Nat) (type : UInt8) : Buffer :=
  buf.write (entryOff slot deType) [type]

/-- The first sector of the data block `block`, in 32-bit arithmetic. -/
@[irreducible] def blockLba (block : Nat) :
    Nat := (block * hbfsSectorsPerBlk + hbfsDataStart) % 2 ^ 32

/-! ## Permissions -/

/-- `HBFS_ACC_READ`. -/
def hbfsAccRead : Nat := 4
/-- `HBFS_ACC_WRITE`. -/
def hbfsAccWrite : Nat := 2
/-- `HBFS_ACC_EXEC`. -/
def hbfsAccExec : Nat := 1

/-- `hbfs_check_access`: true when the caller is denied `access` to the entry at `slot`. -/
def hbfsCheckAccess (k : Kernel) (buf : Buffer) (slot access : Nat) : Bool :=
  let mode := buf.entryWord slot deMode
  if k.euid = 0 then false
  else match k.aclPerm ((List.range hbfsDirEntrySize).map fun i => buf (entryOff slot i)) with
    | some perms => perms &&& 7 &&& access != access
    | none =>
      if mode = 0 then access &&& (hbfsAccWrite ||| hbfsAccExec) != 0
      else
        let perms :=
          if k.euid = buf.entryWord slot deUid then mode >>> 6
          else if k.egid = buf.entryWord slot deGid then mode >>> 3
          else mode
        perms &&& 7 &&& access != access

/-- The entry the root directory's rights are taken from, as it has none of its own. -/
def rootDirModeEntry : Buffer := Buffer.setWord (fun _ => 0) deMode hbfsModeDirDef

/-- `hbfs_cwd_access_current`: true when the caller may not add entries to the current directory.
The parent's entries are read into the directory buffer to find the one that governs it. -/
def hbfsCwdAccessCurrent : KernelM Bool := do
  let k ← get
  if k.currentDirLba = dirCacheNone then return false
  if k.dirDepth = 0 then return hbfsCheckAccess k rootDirModeEntry 0 hbfsAccWrite
  let (lba, sects, _) := k.dirStack (k.dirDepth - 1)
  if lba = 0 then return true
  modify fun k => { k with dirCacheLba := dirCacheNone }
  let (cf, data) ← blkCacheRead lba sects
  modify fun k => { k with dirBuf := k.dirBuf.load data }
  if cf then return true
  let buf := (← get).dirBuf
  let governs := fun slot => buf.entryType slot != ftypeFree &&
    blockLba (buf.entryDword slot deBlock) == k.currentDirLba
  match (List.range (maxEntries sects)).find? governs with
  | none => return true
  | some slot => return hbfsCheckAccess k buf slot hbfsAccWrite

end Mellivora
