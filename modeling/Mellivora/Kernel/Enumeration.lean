import Mellivora.Kernel.Tmpfs

/-!
# Listing a directory

`vfs_readdir` of `vfs.inc` with the file systems behind it. `vfs_route` finds the entry of the mount
table with `mul`, which also writes EDX: the index that the caller has passed in EDX is 0 when the
file system gets it.
-/

namespace Mellivora

/-- The file systems behind the VFS. -/
inductive VfsFs
  | hbfs
  | proc
  | dev
  | tmp
deriving DecidableEq

/-- A name of the source as bytes. -/
def asciiName (s : String) : Name := s.toList.map fun c => UInt8.ofNat c.toNat

/-- The mounts from the second on, in the order in which they are tried, with their prefixes. -/
def vfsMounts : List (VfsFs × Name) :=
  [(.proc, asciiName "/proc"), (.dev, asciiName "/dev"), (.tmp, asciiName "/tmp")]

/-- `vfs_route`: the mount of a path, and what is in EDX afterwards -/
def vfsRoute (path : Name) : VfsFs × Nat :=
  ((vfsMounts.find? fun mount => mount.2.isPrefixOf path).elim .hbfs Prod.fst, 0)

/-- The directories, and the memory that the names are stored in. Behind `hbfs_dir_buf` lies the
shadow. -/
structure VfsDirs where
  dirBuf : Buffer
  tmpfsTable : Nat → TmpFile

/-- The entry with the index `index` among those in use. -/
def readdirScan (live : Nat → Bool) (index : Nat) : (left slot count : Nat) → Option Nat
  | 0, _, _ => none
  | left + 1, slot, count =>
    if !live slot then readdirScan live index left (slot + 1) count
    else if count = index then some slot
    else readdirScan live index left (slot + 1) (count + 1)

/-- The name in an entry, up to its terminator. -/
def Buffer.entryName (buf : Buffer) (slot : Nat) : Name :=
  (buf.bytes (entryOff slot 0) hbfsMaxFilename).takeWhile (· ≠ 0)

/-- The loop goes on while the entry begins in front of the end of the buffer: the last one is not
all inside it. -/
def readdirSlots : Nat := (hbfsRootDirSize + hbfsDirEntrySize - 1) / hbfsDirEntrySize

/-- The entry is in use. -/
def VfsDirs.hbfsLive (d : VfsDirs) (slot : Nat) : Bool := d.dirBuf.entryType slot != ftypeFree

/-- `vfs_hbfs_readdir` once the directory is loaded: the type of the entry, none for -1 -/
def vfsHbfsReaddir (d : VfsDirs) (mem : Buffer) (buf index : Nat) : Option Nat × Buffer :=
  match readdirScan d.hbfsLive index readdirSlots 0 0 with
  | none => (none, mem)
  | some slot =>
      (some (d.dirBuf.entryType slot).toNat, mem.write buf (d.dirBuf.entryName slot ++ [0]))

/-- The names `/dev` lists. -/
def devDirentNames : List Name := ["null", "zero", "random", "urandom", "tty", "full"].map asciiName

/-- `vfs_dev_readdir`; the comparison is signed, but an index from 2^31 on does not get here. -/
def vfsDevReaddir (mem : Buffer) (buf index : Nat) : Option Nat × Buffer :=
  match devDirentNames[index]? with
  | none => (none, mem)
  | some name => (some 1, mem.write buf (name ++ [0]))

/-- `vfs_tmp_readdir`: ECX counts the entries, and its value is taken for the address of the
buffer. -/
def vfsTmpReaddir (d : VfsDirs) (mem : Buffer) (index : Nat) : Option Nat × Buffer :=
  match readdirScan (fun slot => (d.tmpfsTable slot).live) index tmpfsMaxFiles 0 0 with
  | none => (none, mem)
  | some slot => (some 1, mem.write slot ((d.tmpfsTable slot).name ++ [0]))

/-- `vfs_readdir`, with what `vfs_proc_readdir` does; EDX does not reach the file system. -/
def vfsReaddir (d : VfsDirs) (proc : Buffer → Nat → Nat → Option Nat × Buffer) (path : Name)
    (buf : Nat) (mem : Buffer) (_index : Nat) : Option Nat × Buffer :=
  match vfsRoute path with
  | (.hbfs, edx) => vfsHbfsReaddir d mem buf edx
  | (.proc, edx) => proc mem buf edx
  | (.dev, edx) => vfsDevReaddir mem buf edx
  | (.tmp, edx) => vfsTmpReaddir d mem edx

/-! ## What is claimed -/

/-- The names a listing of the file system should have, in order. -/
def VfsDirs.liveNames (d : VfsDirs) : VfsFs → List Name
  | .hbfs => ((List.range (hbfsRootDirSize / hbfsDirEntrySize)).filter d.hbfsLive).map
      d.dirBuf.entryName
  | .dev => devDirentNames
  | .tmp => ((List.range tmpfsMaxFiles).filter fun slot => (d.tmpfsTable slot).live).map fun slot =>
      (d.tmpfsTable slot).name
  | .proc => []

/-- The caller's memory after `n` calls of `readdir`. -/
def memAfter (readdir : Buffer → Nat → Option Nat × Buffer) (mem : Buffer) : Nat → Buffer
  | 0 => mem
  | n + 1 => (readdir (memAfter readdir mem n) n).2

/-- The calls with 0, 1, 2, ... store each of the names once in the buffer and then return -1. -/
def Enumerates (readdir : Buffer → Nat → Option Nat × Buffer) (mem : Buffer) (buf : Nat)
    (names : List Name) : Prop :=
  ∃ seen : List Name, seen.Perm names ∧
    (∀ i name, seen[i]? = some name → (readdir (memAfter readdir mem i) i).1 ≠ none ∧
      (memAfter readdir mem (i + 1)).bytes buf (name.length + 1) = name ++ [0]) ∧
    (readdir (memAfter readdir mem seen.length) seen.length).1 = none

/-- No entry is in use, and neither is what `vfs_hbfs_readdir` reads behind the buffer. -/
def VfsDirs.Vacant (d : VfsDirs) : VfsFs → Prop
  | .hbfs => ∀ slot < readdirSlots, d.hbfsLive slot = false
  | .tmp => ∀ slot < tmpfsMaxFiles, (d.tmpfsTable slot).live = false
  | _ => False

end Mellivora
