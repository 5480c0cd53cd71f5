import Mellivora.Kernel.Files

/-!
# Removing a directory

`sys_rmdir` removes a directory when its scan finds no entry in use. The entries of a directory are
consecutive records over all of its blocks; the scan takes the blocks one at a time and counts the
records of each from the block's own start.
-/

namespace Mellivora

open Outcome

/-! ## `sys_rmdir` -/

/-- `.srd_scan`: an entry of the block, counted from the block's own start, is in use. -/
def blockInUse (block : Buffer) : Bool :=
  (List.range (hbfsBlockSize / hbfsDirEntrySize)).any fun i => block.entryType i != ftypeFree

/-- `.srd_scan_block`: a block of the directory cannot be read or is in use. -/
def rmdirScan : (left block : Nat) → KernelM Bool
  | 0, _ => return false
  | left + 1, block => do
    let (cf, data) ← blkCacheRead (blockLba block) hbfsSectorsPerBlk
    if cf || blockInUse (Buffer.load (fun _ => 0) data) then return true
    rmdirScan left (block + 1)

/-- `sys_rmdir`, CF set for -1 -/
def sysRmdir (name : Name) : KernelM Bool := do
  if ← hbfsRequireWritable then return true
  let _ ← hbfsLoadRootDir
  let k ← get
  match hbfsFindFile k name with
  | none => return true
  | some slot =>
    let start := k.dirBuf.entryDword slot deBlock
    let count := k.dirBuf.entryDword slot deBlkcnt
    if k.dirBuf.entryType slot ≠ ftypeDir then return true
    if hbfsCheckAccess k k.dirBuf slot hbfsAccWrite then return true
    if signedTurns count = 0 then return true
    if ← rmdirScan count start then return true
    let _ ← hbfsFreeBlocks start count
    let _ ← hbfsLoadRootDir
    modify fun k => { k with dirBuf := k.dirBuf.clear (entryOff slot 0) hbfsDirEntrySize }
    let _ ← hbfsSaveRootDir
    return false

/-! ## What it should do -/

/-- The bytes of the directory whose blocks start at `start`. -/
def dirBytes (d : Disk) (start : Nat) : Buffer := fun i =>
  Buffer.ofDisk d (blockLba (start + i / hbfsBlockSize)) (i % hbfsBlockSize)

/-- Every entry of the directory is free. -/
def Buffer.DirEmpty (dir : Buffer) : Prop :=
  ∀ slot < maxEntries (hbfsSubdirBlocks * hbfsSectorsPerBlk), dir.entryType slot = ftypeFree

/-- The scan comes upon a byte that is not zero where it looks for a type. -/
def Buffer.ScanFinds (dir : Buffer) : Prop :=
  ∃ block < hbfsSubdirBlocks, ∃ i < hbfsBlockSize / hbfsDirEntrySize,
    dir (hbfsBlockSize * block + entryOff i deType) ≠ ftypeFree

/-- The kernel after the working directory has been loaded. -/
def Kernel.dirLoaded (k : Kernel) : Kernel := (hbfsLoadRootDir.run k).2

/-- `P` holds of the first block of the directory of this name, if it has the size of a
subdirectory. -/
def Kernel.Asked (k : Kernel) (name : Name) (P : Nat → Prop) : Prop :=
  ∀ slot, hbfsFindFile k.dirLoaded name = some slot →
    k.dirLoaded.dirBuf.entryDword slot deBlkcnt = hbfsSubdirBlocks →
    P (k.dirLoaded.dirBuf.entryDword slot deBlock)

/-- If `sys_rmdir` returns 0, the directory is empty. -/
def RmdirSound (name : Name) (k : Kernel) : Prop :=
  k.Asked name fun start =>
    Yields (sysRmdir name) (fun cf _ => cf = false → (dirBytes k.disk start).DirEmpty) k

/-- Nothing but the scan stands against the removal: the name is that of a subdirectory the caller
may write, and its blocks can be read. -/
structure Kernel.Removable (k : Kernel) (name : Name) : Prop extends Usable k where
  faults : k.faults = []
  entry : ∃ slot, hbfsFindFile k.dirLoaded name = some slot ∧
    k.dirLoaded.dirBuf.entryType slot = ftypeDir ∧
    hbfsCheckAccess k.dirLoaded k.dirLoaded.dirBuf slot hbfsAccWrite = false ∧
    k.dirLoaded.dirBuf.entryDword slot deBlkcnt = hbfsSubdirBlocks ∧ ∀ b < hbfsSubdirBlocks,
      blockLba (k.dirLoaded.dirBuf.entryDword slot deBlock + b) + hbfsSectorsPerBlk ≤
      k.ataTotalSectors

end Mellivora
