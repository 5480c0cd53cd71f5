import Mellivora.Kernel.Files

/-!
# The working directory

Entering the directory a path names: `cmd_cd_internal` and `path_enter` of `util.inc`. A path is
given as the steps it is split into.
-/

namespace Mellivora

/-- A step of `cmd_cd_internal`. -/
inductive PathStep
  /-- a leading slash -/
  | root
  /-- `-`: the directory before this one -/
  | previous
  /-- an empty component or `.` -/
  | here
  /-- `..` -/
  | up
  /-- any other component -/
  | enter (name : Name)

/-- `DIR_STACK_MAX`: how deep `cd` can go. -/
def dirStackMax : Nat := 16

/-- Where the kernel is. -/
def Kernel.cwd (k : Kernel) : Cwd where
  lba := k.currentDirLba
  sects := k.currentDirSects
  name := k.dirName
  depth := k.dirDepth
  stack := k.dirStack

/-- The kernel moved to another place. -/
def Kernel.setCwd (k : Kernel) (c : Cwd) : Kernel :=
  { k with
    currentDirLba := c.lba
    currentDirSects := c.sects
    dirName := c.name
    dirDepth := c.depth
    dirStack := c.stack }

/-- `.cd_pop_stack`: one directory up, which leaves the entry of the stack where it is. -/
def Cwd.pop (c : Cwd) : Cwd :=
  if c.depth = 0 then c
  else
    let (lba, sects, name) := c.stack (c.depth - 1)
    { c with lba, sects, name, depth := c.depth - 1 }

/-- `.cd_reset_to_root` -/
def Cwd.root (c : Cwd) : Cwd :=
  { c with lba := hbfsRootDirStart, sects := hbfsRootDirSects, name := [47], depth := 0 }

/-- The current directory goes on the stack and another one takes its place. -/
def Cwd.push (c : Cwd) (lba sects : Nat) (name : Name) : Cwd where
  lba := lba
  sects := sects
  name := name
  depth := c.depth + 1
  stack := Function.update c.stack c.depth (c.lba, c.sects, c.name)

/-- The virtual directories `proc`, `dev` and `tmp` below the root. -/
def virtualDirs : List Name := [[112, 114, 111, 99], [100, 101, 118], [116, 109, 112]]

/-- The name of an entry. -/
def Buffer.entryText (buf : Buffer) (slot : Nat) : Name :=
  ((List.range hbfsDirEntrySize).map fun i => buf (entryOff slot i)).takeWhile (· ≠ 0)

/-- The directory that an entry stands for, below the current one. -/
def Cwd.below (c : Cwd) (buf : Buffer) (slot : Nat) : Cwd :=
  c.push (blockLba (buf.entryDword slot deBlock))
    (buf.entryDword slot deBlkcnt * hbfsSectorsPerBlk % 2 ^ 32)
    (buf.entryText slot)

local instance : LawfulBEq Name := inferInstanceAs (LawfulBEq (List UInt8))

/-- `.cd_enter_subdir`, CF set when there is no such directory. The first load is not asked how it
went. -/
def cdEnterSubdir (name : Name) : KernelM Bool := do
  if (← get).currentDirLba = dirCacheNone then return true
  let _ ← hbfsLoadRootDir
  let k ← get
  match hbfsFindFile k name with
  | none =>
    if k.dirDepth ≠ 0 ∨ name ∉ virtualDirs then return true
    set (k.setCwd (k.cwd.push dirCacheNone 0 name))
    return false
  | some slot =>
    if k.dirBuf.entryType slot ≠ ftypeDir then return true
    if k.dirDepth = dirStackMax then return true
    set (k.setCwd (k.cwd.below k.dirBuf slot))
    hbfsLoadRootDir

/-- `cmd_cd_internal`, true for -1 -/
def cmdCdInternal : List PathStep → KernelM Bool
  | [] => return false
  | .root :: steps => do
    modify fun k => k.setCwd k.cwd.root
    cmdCdInternal steps
  | .previous :: steps => do
    modify fun k => k.setCwd (k.prevDir.getD k.cwd)
    cmdCdInternal steps
  | .here :: steps => cmdCdInternal steps
  | .up :: steps => do
    modify fun k => k.setCwd k.cwd.pop
    cmdCdInternal steps
  | .enter name :: steps => do
    if ← cdEnterSubdir name then return true
    cmdCdInternal steps

/-- `path_restore_cwd` to where `saved` was -/
def pathRestoreCwd (saved : Kernel) : KernelM Unit := modify fun k => k.setCwd saved.cwd

/-- `path_enter`, true for -1 and -2: a path that cannot be entered, or leads to a virtual
directory, is left again. Without a directory part there is nothing to enter. -/
def pathEnter (dir : List PathStep) : KernelM Bool := do
  let saved ← get
  if dir.isEmpty then return false
  if (← cmdCdInternal dir) || (← get).currentDirLba == dirCacheNone then
    pathRestoreCwd saved
    return true
  return false

end Mellivora
