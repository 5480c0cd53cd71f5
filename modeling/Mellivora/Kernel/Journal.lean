import Mellivora.Kernel.Ata

/-!
# The kernel's undo journal

`hbfs_journal_*` and `hbfs_meta_write` of `hbfs.inc`. A transaction marks the resident superblock
and flushes it, saves the old contents of every metadata sector before it is overwritten, and ends
by writing a commit record and clearing the marker. Nested transactions only count: the outermost
one owns the log.
-/

namespace Mellivora

/-- The `dir_cache_lba` of no directory. -/
def dirCacheNone : Nat := 2 ^ 32 - 1

/-- `hbfs_require_writable`, CF set unless the mounted volume may be written -/
def hbfsRequireWritable : KernelM Bool := do
  let k ← get
  return !k.mounted || k.readOnly

/-- The volume is mounted and may be written. -/
structure Usable (k : Kernel) : Prop where
  mounted : k.mounted = true
  writable : k.readOnly = false

/-- The volume has a journal. -/
def Kernel.journalled (k : Kernel) : Bool := hbfsVersionV2 ≤ k.superBuf.dword sbVersion

/-- The volume is one of version 4. -/
def Kernel.isV4 (k : Kernel) : Bool := k.superBuf.dword 0 == hbfs4Magic

/-- `hbfs_write_superblock`: with its checksum. -/
def hbfsWriteSuperblock : KernelM Bool := do
  modify fun k => { k with superBuf := restampSuperblock k.superBuf }
  ataWriteSectors hbfsSuperblockLba [(← get).superBuf]

/-- `hbfs_journal_begin`: the outermost call starts an epoch with an empty log. -/
def hbfsJournalBegin : KernelM Unit := do
  if ← hbfsRequireWritable then return
  if !(← get).journalled then return
  modify fun k => { k with journalDepth := k.journalDepth + 1 }
  if (← get).journalDepth ≠ 1 then return
  modify fun k =>
    let epoch := (k.journalEpoch + 1) % 2 ^ 32
    { k with
      journalEpoch := epoch
      journalPtr := 0
      journalDirty := true
      journalFailed := false
      journalLogged := []
      superBuf := (k.superBuf.setDword hbfsSbJrnlEpoch epoch).setDword hbfsSbJrnlState 1 }
  let _ ← hbfsWriteSuperblock

/-- `.hjls_full` and `.hjls_iofail`: the transaction can only be rolled back. -/
def journalFail : KernelM Bool := do
  modify fun k => { k with journalFailed := true }
  return true

/-- `hbfs_journal_log_sector`: keeps the old content of a sector, once. -/
def hbfsJournalLogSector (lba : Nat) : KernelM Bool := do
  let k ← get
  if !k.journalled then return false
  if !k.journalDirty then return false
  if k.journalFailed then return true
  if lba ∈ k.journalLogged then return false
  if k.journalPtr + 2 ≥ hbfsJournalSects - 1 then return ← journalFail
  match ← ataReadSector lba with
  | none => journalFail
  | some pre =>
    if ← ataWriteSectors (hbfsJournalLba + k.journalPtr + 1) [pre] then return ← journalFail
    let header := preHeader lba k.journalEpoch pre
    modify fun k => { k with jrnlBuf := header }
    if ← ataWriteSectors (hbfsJournalLba + k.journalPtr) [header] then return ← journalFail
    modify fun k =>
      { k with
        journalLogged :=
          if k.journalLogged.length ≥ 16 then k.journalLogged else k.journalLogged ++ [lba]
        journalPtr := k.journalPtr + 2
        superBuf := k.superBuf.setDword hbfsSbJrnlPtr (k.journalPtr + 2) }
    return false

/-- The commit marker, written over whatever header is left in `hbfs_jrnl_buf`. -/
def commitMarker (buf : Sector) (epoch : Nat) : Sector :=
  (((buf.setDword recMagic hbfsJrnlMagic).setDword recType hbfsJrnlTCommit).setDword
    recTarget 0).setDword recEpoch epoch

/-- The marker at the write pointer that both `hbfs_journal_commit` and `hbfs_journal_abort` leave,
if there is room for it. -/
def writeCommitMarker : KernelM Unit := do
  let k ← get
  if k.journalPtr < hbfsJournalSects then
    let marker := commitMarker k.jrnlBuf k.journalEpoch
    modify fun k => { k with jrnlBuf := marker }
    let _ ← ataWriteSectors (hbfsJournalLba + k.journalPtr) [marker]

/-- The loop of `hbfs_journal_recover` from journal sector `index` on. Every turn moves on by a
sector at least, so `hbfsJournalSects` turns are enough. -/
def recoverScan : (turns index : Nat) → KernelM Unit
  | 0, _ => return
  | turns + 1, index => do
    if index ≥ hbfsJournalSects then return
    match ← ataReadSector (hbfsJournalLba + index) with
    | none => return
    | some header =>
      modify fun k => { k with jrnlBuf := header }
      if header.dword recMagic ≠ hbfsJrnlMagic then return
      if header.dword recEpoch ≠ (← get).journalEpoch then return
      if header.dword recType = hbfsJrnlTCommit then return
      if header.dword recType ≠ hbfsJrnlTPre then
        recoverScan turns (index + 1)
      else
        match ← ataReadSector (hbfsJournalLba + index + 1) with
        | none => recoverScan turns (index + 2)
        | some pre =>
          let crc := header.dword preOffCrc
          -- A torn record ends the scan; a zero checksum predates checksums.
          if crc ≠ 0 ∧ crc32c pre.toList ≠ crc then return
          let _ ← ataWriteSectors (header.dword recTarget) [pre]
          recoverScan turns (index + 2)

/-- `hbfs_journal_recover`: puts back what the log keeps, and empties it. -/
def hbfsJournalRecover : KernelM Unit := do
  recoverScan hbfsJournalSects 0
  modify fun k =>
    { k with
      superBuf := (k.superBuf.setDword hbfsSbJrnlState 0).setDword hbfsSbJrnlPtr 0
      journalDirty := false
      journalDepth := 0
      journalFailed := false
      journalPtr := 0
      dirCacheLba := dirCacheNone }
  let _ ← hbfsWriteSuperblock

/-- `hbfs_journal_abort`: rolls back, and drops what memory holds of the volume. -/
def hbfsJournalAbort : KernelM Unit := do
  if !(← get).journalled then return
  modify fun k => { k with journalDepth := 0 }
  writeCommitMarker
  hbfsJournalRecover
  modify fun k => { k with bitmapValid := false }
  match ← ataReadSector hbfsSuperblockLba with
  | none => pure ()
  | some sb =>
    modify fun k => { k with superBuf := sb, journalEpoch := sb.dword hbfsSbJrnlEpoch }
  modify fun k =>
    { k with
      journalDirty := false
      journalFailed := false
      journalPtr := 0
      journalLogged := []
      superBuf := (k.superBuf.setDword hbfsSbJrnlState 0).setDword hbfsSbJrnlPtr 0 }
  let _ ← hbfsWriteSuperblock
  modify fun k => { k with dirCacheLba := dirCacheNone }

/-- `hbfs_journal_commit`: the outermost call ends the transaction. -/
def hbfsJournalCommit : KernelM Unit := do
  if !(← get).journalled then return
  if !(← get).journalDirty then return
  modify fun k => { k with journalDepth := k.journalDepth - 1 }
  if (← get).journalDepth > 0 then return
  if (← get).journalFailed then
    hbfsJournalAbort
  else
    writeCommitMarker
    modify fun k =>
      { k with
        journalDirty := false
        journalPtr := 0
        journalLogged := []
        superBuf := (k.superBuf.setDword hbfsSbJrnlState 0).setDword hbfsSbJrnlPtr 0 }
    let _ ← hbfsWriteSuperblock

/-! ## Recovery at mount -/

/-- Where `hbfs_init` takes the journal's state from a v2 or v3 superblock. -/
def hbfsInitJournal : KernelM Unit := do
  let sb := (← get).superBuf
  modify fun k =>
    { k with
      journalPtr := sb.dword hbfsSbJrnlPtr
      journalEpoch := sb.dword hbfsSbJrnlEpoch }
  if sb.dword hbfsSbJrnlState = 1 then hbfsJournalRecover
  modify fun k => { k with journalDirty := false }

/-- The journal's part of a mount: read the superblock, and recover when it says so. -/
def mountJournal : KernelM Bool := do
  match ← ataReadSector hbfsSuperblockLba with
  | none => return true
  | some sb =>
    modify fun k => { k with superBuf := sb }
    hbfsInitJournal
    return false

/-- The disk after a freshly booted kernel has mounted it, on a device of `total` sectors. -/
def mountedDisk (total : Nat) (d : Disk) : Disk :=
  (mountJournal.run { disk := d, ataTotalSectors := total }).2.disk

/-! ## Writing metadata -/

/-- Where the sectors of a metadata write come from. The resident buffers are read when a sector is
written, not when the write is asked for. -/
inductive MetaSrc
  /-- `hbfs_super_buf`, one sector -/
  | superBuf
  /-- `hbfs_bitmap_buf` from sector `sect` on -/
  | bitmapBuf (sect : Nat)
  /-- `hbfs_extent_buf` -/
  | extentBuf
  /-- a buffer the journal does not touch -/
  | memory (buf : Buffer)

/-- A sector of the buffer that is written from. -/
def Kernel.metaSector (k : Kernel) : MetaSrc → Nat → Sector
  | .superBuf, _ => k.superBuf
  | .bitmapBuf sect, i => k.bitmapBuf.sector (sect + i)
  | .extentBuf, i => k.extentBuf.sector i
  | .memory buf, i => buf.sector i

/-- Logs a sector and then writes it. -/
def logAndWrite (lba : Nat) (src : MetaSrc) (i : Nat) : KernelM Bool := do
  if ← hbfsJournalLogSector lba then return true
  ataWriteSectors lba [(← get).metaSector src i]

/-- The loop of `hbfs_meta_write` over `cnt` sectors, `i` of them done. -/
def metaWriteLoop (lba : Nat) (src : MetaSrc) : (cnt i : Nat) → KernelM Bool
  | 0, _ => return false
  | cnt + 1, i => do
    if ← logAndWrite (lba + i) src i then return true
    metaWriteLoop lba src cnt (i + 1)

/-- The stamps `hbfs_meta_write` refreshes before it writes to a v4 volume; true when the sector
with the bitmap's checksum is outside the range and has to be written after it. -/
def stampForWrite (lba cnt : Nat) : KernelM Bool := do
  let k ← get
  if !k.isV4 then return false
  if lba = hbfsSuperblockLba then
    set { k with superBuf := stampSuperblock k.superBuf }
    return false
  if hbfsBitmapStart ≤ lba ∧ lba < hbfsBitmapStart + hbfsBitmapSects then
    set { k with bitmapBuf := k.bitmapBuf.stampRun hbfsBitmapSize }
    return lba + cnt < hbfsBitmapStart + hbfsBitmapSects
  return false

/-- The writes of `hbfs_meta_write`, CF set at the first that fails. -/
def hbfsMetaTry (lba : Nat) (src : MetaSrc) (cnt : Nat) : KernelM Bool := do
  let extra ← stampForWrite lba cnt
  if ← metaWriteLoop lba src cnt 0 then return true
  if extra then
    logAndWrite (hbfsBitmapStart + hbfsBitmapSects - 1) (.bitmapBuf (hbfsBitmapSects - 1)) 0
  else return false

/-- `hbfs_meta_write`: a failure has already rolled the transaction back. -/
def hbfsMetaWrite (lba : Nat) (src : MetaSrc) (cnt : Nat) : KernelM Bool := do
  if ← hbfsRequireWritable then return true
  if ← hbfsMetaTry lba src cnt then
    hbfsJournalAbort
    return true
  return false

/-! ## A small volume -/

/-- The superblock of a small volume of version 3. -/
def smallSuper (free : Nat) : Sector :=
  (((Sector.zero.setDword 0 hbfsMagic).setDword sbVersion hbfsVersionV3).setDword
    sbTotalBlocks 1000).setDword sbFreeBlocks free

/-- A small empty volume. -/
def smallVolume : Kernel :=
  { disk := Function.update (fun _ => Sector.zero) hbfsSuperblockLba (smallSuper 1000)
    ataTotalSectors := 20000
    mounted := true
    totalBlocks := 1000
    superBuf := smallSuper 1000 }

end Mellivora
