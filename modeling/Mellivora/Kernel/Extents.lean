import Mellivora.Kernel.Bitmap
import Mellivora.Kernel.Directory

/-!
# Run lists

On a v4 volume a file may be a list of runs, kept in a checksummed block of its own.
`hbfs_extent_alloc` takes the longest run it can get again and again; `hbfs_free_extent` checks the
list before it frees anything and `hbfs_truncate_extent` shortens it.
-/

namespace Mellivora

/-- `.hea_try_more`: the longest run of at most `try_` blocks. -/
def extentTry : (try_ : Nat) → KernelM (Option (Nat × Nat))
  | 0 => return none
  | try_ + 1 => do
    match ← hbfsAllocBlocks (try_ + 1) with
    | some start => return some (start, try_ + 1)
    | none => extentTry try_

/-- `.hea_more`: runs for `remain` more blocks. Every turn takes a block at least. -/
def extentRuns :
    (turns remain : Nat) → (runs : List (Nat × Nat)) → KernelM (Option (List (Nat × Nat)))
  | 0, _, runs => return some runs
  | turns + 1, remain, runs => do
    if remain = 0 then return some runs
    match ← extentTry remain with
    | none => return none
    | some (start, len) => extentRuns turns (remain - len) (runs ++ [(start, len)])

/-- The records of a run list, behind the header of an extent block. -/
def putRuns (buf : Buffer) (runs : List (Nat × Nat)) : Buffer :=
  runs.zipIdx.foldl (fun buf ((start, len), i) =>
    (buf.setDword (hbfs4ExtentHdr + hbfs4ExtentRecord * i) start).setDword
      (hbfs4ExtentHdr + hbfs4ExtentRecord * i + 4) len) buf

/-- The extent block that `hbfs_extent_alloc` builds for `runs`. -/
def extentBlock (buf : Buffer) (runs : List (Nat × Nat)) : Buffer :=
  let buf := ((buf.clear 0 hbfsBlockSize).setDword 0 hbfs4ExtentMagic).setDword 4 runs.length
  (putRuns buf runs).stampRun hbfsBlockSize

/-- `hbfs_extent_alloc`: the extent block and the runs it names. -/
def hbfsExtentAlloc (blocks : Nat) : KernelM (Option (Nat × List (Nat × Nat))) := do
  if hbfs4ExtentMax < blocks then return none
  match ← extentRuns blocks blocks [] with
  | none => return none
  | some runs =>
    match ← hbfsAllocBlocks 1 with
    | none => return none
    | some block =>
      modify fun k => { k with extentBuf := extentBlock k.extentBuf runs }
      if ← hbfsMetaWrite (blockLba block) .extentBuf hbfsSectorsPerBlk then return none
      modify fun k => { k with extentLba := block }
      return some (block, runs)

/-- `hbfs_extent_write`: the data run by run, `done` sectors of it written. -/
def hbfsExtentWrite (data : Buffer) : (runs : List (Nat × Nat)) → (done : Nat) → KernelM Bool
  | [], _ => return false
  | (start, len) :: runs, done => do
    let sects := len * hbfsSectorsPerBlk
    if ← blkCacheWrite (blockLba start)
      ((List.range sects).map fun i => data.sector (done + i)) then
      return true
    hbfsExtentWrite data runs (done + sects)

/-- Read the extent block `block`, CF set unless it is a run list with a valid checksum. -/
def readExtentBlock (block : Nat) : KernelM Bool := do
  let (cf, data) ← blkCacheRead (blockLba block) hbfsSectorsPerBlk
  modify fun k => { k with extentBuf := k.extentBuf.load data }
  if cf then return true
  if !(← get).extentBuf.verifyRun hbfsBlockSize then return true
  modify fun k => { k with extentLba := block }
  let buf := (← get).extentBuf
  if buf.dword 0 ≠ hbfs4ExtentMagic then return true
  return buf.dword 4 = 0 || hbfs4ExtentMax < buf.dword 4

/-- The `i`-th record of an extent block: first block and count. -/
def Buffer.run (buf : Buffer) (i : Nat) : Nat × Nat :=
  (buf.dword (hbfs4ExtentHdr + hbfs4ExtentRecord * i),
    buf.dword (hbfs4ExtentHdr + hbfs4ExtentRecord * i + 4))

/-- How the free of a run list ends. -/
inductive ExtentExit
  | freed
  /-- the list cannot be read or verified, or names an empty run -/
  | damaged
  /-- a run could not be freed, and the transaction is rolled back -/
  | undone
  deriving DecidableEq, Repr

/-- `.hfe_run`: free `cnt` runs from the `i`-th on. -/
def freeRuns : (cnt i : Nat) → KernelM ExtentExit
  | 0, _ => return .freed
  | cnt + 1, i => do
    let (start, len) := (← get).extentBuf.run i
    if len = 0 then return .damaged
    if ← hbfsFreeBlocks start len then return .undone
    freeRuns cnt (i + 1)

/-- `hbfs_free_extent`: frees the runs, and then the extent block itself. -/
def hbfsFreeExtent (block : Nat) : KernelM ExtentExit := do
  let exit ← do
    if ← readExtentBlock block then pure ExtentExit.damaged
    else
      match ← freeRuns ((← get).extentBuf.dword 4) 0 with
      | .freed => if ← hbfsFreeBlocks block 1 then pure .undone else pure .freed
      | exit => pure exit
  modify fun k => { k with extentLba := 0 }
  return exit

/-- `.hte_free_loop`: free the runs past the ones kept, CF set when one is empty. -/
def truncateFree : (cnt i : Nat) → KernelM Bool
  | 0, _ => return false
  | cnt + 1, i => do
    let (start, len) := (← get).extentBuf.run i
    if len = 0 then return true
    let _ ← hbfsFreeBlocks start len
    truncateFree cnt (i + 1)

/-- Write a run back as the `i`-th of the list in `hbfs_extent_buf`. -/
def putRun (i start len : Nat) : KernelM Unit :=
  modify fun k =>
    { k with
      extentBuf := (k.extentBuf.setDword (hbfs4ExtentHdr + hbfs4ExtentRecord * i) start).setDword
        (hbfs4ExtentHdr + hbfs4ExtentRecord * i + 4) len }

/-- `.hte_walk`: keep the runs that hold the first `remain` blocks, `kept` of them written back. -/
def truncateWalk : (cnt i remain kept : Nat) → KernelM (Option Nat)
  | 0, _, _, kept => return some kept
  | cnt + 1, i, remain, kept => do
    let (start, len) := (← get).extentBuf.run i
    if len = 0 then return none
    if len ≤ remain then
      putRun kept start len
      truncateWalk cnt (i + 1) (remain - len) (kept + 1)
    else if remain = 0 then
      -- This run is passed over: only the ones behind it are freed.
      return if ← truncateFree cnt (i + 1) then none else some kept
    else
      let _ ← hbfsFreeBlocks (start + remain) (len - remain)
      putRun kept start remain
      return if ← truncateFree cnt (i + 1) then none else some (kept + 1)

/-- The blocks a file of `size` bytes has, at least one. -/
def blocksFor (size : Nat) : Nat := max 1 ((size + (hbfsBlockSize - 1)) % 2 ^ 32 / hbfsBlockSize)

/-- `hbfs_truncate_extent`: cuts a run list to `size` bytes. -/
def hbfsTruncateExtent (block size : Nat) : KernelM Bool := do
  if ← readExtentBlock block then return true
  match ← truncateWalk ((← get).extentBuf.dword 4) 0 (blocksFor size) 0 with
  | none | some 0 => return true
  | some kept =>
    modify fun k => { k with extentBuf := (k.extentBuf.setDword 4 kept).stampRun hbfsBlockSize }
    if ← hbfsMetaWrite (blockLba block) .extentBuf hbfsSectorsPerBlk then return true
    modify fun k => { k with extentLba := block }
    return false

end Mellivora
