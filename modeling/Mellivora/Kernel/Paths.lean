import Mellivora.Kernel.WorkingDirectory
import Mellivora.Kernel.Sett

/-!
# Creating and emptying files by path

`hbfs_create_path` and `hbfs_truncate_path` of `util.inc` split a path, enter its directory the way
`cd` does and work on the last component there. `path_enter` keeps the caller's directory in one
slot, `path_save_*`, from which `path_leave` takes it back. What `cd` prints is left out.
-/

namespace Mellivora.Paths

open Outcome

/-- The file system and the slot. -/
structure PathState where
  kernel : Kernel
  saved : Cwd

/-- A function of the path layer. -/
abbrev PathM := StateM PathState

/-- Where the caller is. -/
def PathState.cwd (s : PathState) : Cwd := s.kernel.cwd

/-- A routine of the file system, which knows nothing of the slot. -/
def onKernel {α : Type} (x : KernelM α) : PathM α := fun s =>
  ((x.run s.kernel).1, { s with kernel := (x.run s.kernel).2 })

/-- `.cd_copy_component`: the next component, and what is behind it unless it is the last one. One
of the greatest length is cut off there, whatever follows. -/
def cdComponent (path : Text) : Text × Option Text :=
  let name := (path.takeWhile (· ≠ 47)).take hbfsMaxFilename
  if name.length = hbfsMaxFilename then (name, some (path.drop hbfsMaxFilename))
  else if name.length < path.length then (name, some (path.drop (name.length + 1)))
  else (name, none)

/-- What a component asks for. -/
def componentStep (name : Text) : PathStep :=
  if name = [] ∨ name = [46] then .here
  else if name = [46, 46] then .up
  else .enter name

/-- `.cd_resolve_path`, the steps it takes. Every turn consumes a character at least, so one more
than the path has are enough. -/
def resolveSteps : (turns : Nat) → Text → List PathStep
  | 0, _ => []
  | turns + 1, path =>
    let (name, rest) := cdComponent path
    componentStep name :: match rest with
      | none => []
      | some rest => resolveSteps turns rest

/-- The steps of `cmd_cd_internal` along the directory part of a path, none if there is no such
part. -/
def cdSteps : Text → List PathStep
  | [] => []
  | [45] => [.previous]
  | 47 :: rest => .root :: resolveSteps (rest.length + 1) rest
  | path => resolveSteps (path.length + 1) path

/-- `path_enter` with the slot, true for -1 and -2 -/
def pathEnter (dir : Text) : PathM Bool := do
  modify fun s => { s with saved := s.cwd }
  onKernel (Mellivora.pathEnter (cdSteps dir))

/-- The buffer shows the directory at a place as it is on the disk. -/
def ShowsDir (buf : Buffer) (d : Disk) (c : Cwd) : Prop :=
  ∀ i < 512 * c.sects, buf i = Buffer.ofDisk d c.lba i

/-- The directories on the disk that a name leads to from a place, and the virtual ones below the
root. -/
inductive Enters (d : Disk) (c : Cwd) (name : Name) : Cwd → Prop
  | entry {buf : Buffer} {slot : Nat} : ShowsDir buf d c →
      (List.range (maxEntries c.sects)).find? (buf.holdsName name) = some slot →
      buf.entryType slot = ftypeDir → Enters d c name (c.below buf slot)
  | virtual : c.depth = 0 → name ∈ virtualDirs → Enters d c name (c.push dirCacheNone 0 name)

/-- A place whose directory fits in the buffer and is not taken for what marks an invalid one. -/
def Fits (c : Cwd) : Prop := c.sects ≤ hbfsRootDirSects ∧ c.lba ≠ dirCacheInvalid

/-- Wherever steps lead from a place, along the directories of the disk, it is a place that has
`P`. -/
def Leads (d : Disk) (prev : Option Cwd) (P : Cwd → Prop) : Cwd → List PathStep → Prop
  | c, [] => P c
  | c, .root :: steps => Leads d prev P c.root steps
  | c, .previous :: steps => Leads d prev P (prev.getD c) steps
  | c, .here :: steps => Leads d prev P c steps
  | c, .up :: steps => Leads d prev P c.pop steps
  | c, .enter name :: steps => Fits c ∧ ∀ c', Enters d c name c' → Leads d prev P c' steps

/-- The device works, and the directory buffer shows the directory it is marked with. -/
structure DirsInStep (k : Kernel) : Prop where
  mounted : k.mounted
  faults : k.faults = []
  current : k.dirCacheLba ≠ dirCacheNone → k.dirCacheLba ≠ dirCacheInvalid →
    ∀ i < 512 * k.dirCacheSects, k.dirBuf i = Buffer.ofDisk k.disk k.dirCacheLba i

end Mellivora.Paths
