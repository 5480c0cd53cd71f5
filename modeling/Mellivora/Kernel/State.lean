import Mellivora.Disk.JournalFormat
import Mellivora.Disk.Buffer

/-!
# The state of the kernel's file system

The device behind `ata.inc` and the variables of `data.inc` that the block cache and HBFS keep, in
groups that the routines change together. The device carries two things the kernel does not see:
`faults`, the errors its next commands will report, and `trace`, the sector writes that have reached
it.

A routine is a program over this state. One that returns its verdict in the carry flag returns a
`Bool`, true for CF set.
-/

namespace Mellivora

/-- The disk and the controller in front of it. -/
structure Device where
  disk : Disk := fun _ => Sector.zero
  ataTotalSectors : Nat := 0
  /-- What the coming commands do, one entry for each: `some n` reports an error at sector `n` of
  the transfer. A command past the end of the list succeeds. -/
  faults : List (Option Nat) := []
  /-- The sector writes made so far, oldest first. -/
  trace : List (Nat × Sector) := []

/-- The cache of blocks. -/
structure BlkCache where
  /-- `blk_cache_tags`: block number plus one, 0 for an empty entry -/
  blkCacheTags : Nat → Nat := fun _ => 0
  /-- `blk_cache_data`: entry and sector within the block -/
  blkCacheData : Nat → Nat → Sector := fun _ _ => Sector.zero
  blkCacheHand : Nat := 0

/-- What the mount has found. -/
structure Volume where
  mounted : Bool := false
  readOnly : Bool := false
  totalBlocks : Nat := 0
  superBuf : Sector := Sector.zero

/-- The journal's variables. -/
structure JournalState where
  /-- The header half of `hbfs_jrnl_buf`. -/
  jrnlBuf : Sector := Sector.zero
  journalPtr : Nat := 0
  journalDirty : Bool := false
  journalDepth : Nat := 0
  journalFailed : Bool := false
  journalEpoch : Nat := 0
  /-- `hbfs_journal_logged`, its first `hbfs_journal_n_logged` entries -/
  journalLogged : List Nat := []

/-- The bitmap in memory. -/
structure BitmapState where
  bitmapBuf : Buffer := fun _ => 0
  bitmapValid : Bool := false

/-- The current directory and the buffer that holds it. -/
structure DirState where
  dirBuf : Buffer := fun _ => 0
  dirShadow : Buffer := fun _ => 0
  currentDirLba : Nat := hbfsRootDirStart
  currentDirSects : Nat := hbfsRootDirSects
  dirCacheLba : Nat := 0
  dirCacheSects : Nat := 0

/-- The extent block in memory. -/
structure ExtentState where
  extentBuf : Buffer := fun _ => 0
  /-- `hbfs_extent_lba`: the block cached in `extentBuf`, 0 for none -/
  extentLba : Nat := 0

/-- Where a caller is: the current directory by its first sector, size and name, and the directories
on the way to it. -/
@[ext] structure Cwd where
  lba : Nat
  sects : Nat
  name : List UInt8
  depth : Nat
  stack : Nat → Nat × Nat × List UInt8

/-- The way to the current directory, and what the deletions of trees keep. -/
structure CwdState where
  dirDepth : Nat := 0
  /-- `dir_stack`: the directories passed on the way, each by its first sector, size and name -/
  dirStack : Nat → Nat × Nat × List UInt8 := fun _ => (0, 0, [])
  /-- `current_dir_name` -/
  dirName : List UInt8 := [47]
  /-- `prev_dir_*`, if `prev_dir_valid` -/
  prevDir : Option Cwd := none
  /-- `hbfs_dt_atomic`: a tree is deleted in one transaction -/
  dtAtomic : Bool := true
  /-- `hbfs_dt_files` and `hbfs_dt_blocks`: what the deletions of trees have removed -/
  dtFiles : Nat := 0
  dtBlocks : Nat := 0

/-- The block ledger, one slot for each user it knows. -/
structure QuotaState where
  quotaUid : Nat → Nat := fun _ => 2 ^ 32 - 1
  quotaUsed : Nat → Nat := fun _ => 0
  quotaLimit : Nat → Nat := fun _ => 0
  quotaDefault : Nat := 4096

/-- Who calls, and when. -/
structure CallerState where
  /-- effective user and group of the running task, 0 for the shell and the kernel -/
  euid : Nat := 0
  egid : Nat := 0
  /-- `acl_perm`: the permissions an access control list grants on an entry, if it has one -/
  aclPerm : List UInt8 → Option Nat := fun _ => none
  /-- `rtc_get_timestamp` and `tick_count` -/
  clock : Nat := 0

/-- The file system's state. -/
structure Kernel extends Device, BlkCache, Volume, JournalState, BitmapState, DirState, ExtentState,
  CwdState, QuotaState, CallerState

/-- A function of the file system. Carry is a `Bool` that is true for failure. -/
abbrev KernelM := StateM Kernel

end Mellivora
