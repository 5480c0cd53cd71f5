import Mellivora.Disk.Layout
import Mellivora.Kernel.Pmm
import Mellivora.Lib.Outcome
import Mellivora.Lib.Runs
import Mellivora.Lib.Spans

/-!
# Memory areas

`vm.inc`: the table of a process's mappings. Addresses and lengths are added in 32 bits. What the
calls do to the page tables is left out: the table of areas does not depend on it.

`vm_gap` takes its first candidate from `vm_next + 28 * TGID`, though the bumps are four bytes each:
from process 19 on the dword lies behind the table, in buffers that others write. It is the field
`next`, and a run has a step for those writes.
-/

namespace Mellivora

/-- `VM_AREAS_PER_TASK`. -/
def vmAreasPerTask : Nat := 32
/-- `VM_MAX_PAGES`: the most pages of one mapping. -/
def vmMaxPages : Nat := 4096
/-- The bytes of a page. -/
def vmPage : Nat := 4096
/-- `USER_PTR_MAX`. -/
def userPtrMax : Nat := 0x20000000
/-- `USER_DEMAND_MIN`. -/
def userDemandMin : Nat := 0x08000000
/-- `USER_DEMAND_MAX`: the end of the room for mappings. -/
def userDemandMax : Nat := 0x40000000

/-- `PROT_READ`. -/
def protRead : UInt32 := 1
/-- `PROT_WRITE`. -/
def protWrite : UInt32 := 2
/-- `PROT_EXEC`. -/
def protExec : UInt32 := 4
/-- The bits that are a protection. -/
def protMask : UInt32 := protRead ||| protWrite ||| protExec
/-- `VM_MAP_JIT`. -/
def vmMapJit : UInt32 := 0x40
/-- `VM_MAP_SHARED`. -/
def vmMapShared : UInt32 := 0x10

/-- A record of the table; `start = 0` for an unused one. Whether it was mapped with `VM_MAP_JIT` is
not recorded by the code. -/
structure VmArea where
  start : Nat := 0
  pages : Nat := 0
  prot : UInt32 := 0
  sector : Nat := 0
  vend : Nat := 0
  blocks : Nat := 0
  flags : UInt32 := 0
  jit : Bool := false

/-- The mappings of a task. -/
structure Vm where
  areas : Nat → VmArea := fun _ => {}
  next : Nat := 0
  rng : Nat := 0
  demandBase : Nat

/-- `user_demand_base`, as `paging_init` computes it -/
def userDemandBase (pmmMemTop : UInt32) : Nat :=
  let top := pmmMemTop.toNat + 0x3FFFFF
  if 2 ^ 32 ≤ top then userDemandBaseMax
  else min (max (top / 0x400000 * 0x400000) userDemandMin) userDemandBaseMax

/-- The start of the page. -/
def pageDown (n : Nat) : Nat := n / vmPage * vmPage

namespace Vm

/-- The entry holds a mapping. -/
def Live (s : Vm) (i : Nat) : Prop := i < vmAreasPerTask ∧ (s.areas i).start ≠ 0

/-- Stores an entry. -/
def setArea (s : Vm) (i : Nat) (a : VmArea) : Vm := { s with areas := Function.update s.areas i a }

/-- `vm_find_area`: the mapping that holds an address. -/
def vmFindArea (s : Vm) (addr : Nat) : Option Nat :=
  (List.range vmAreasPerTask).find? fun i =>
    (s.areas i).start ≠ 0 ∧ (s.areas i).start ≤ addr ∧ addr < (s.areas i).vend

/-- `vm_free_slot`. -/
def vmFreeSlot (s : Vm) : Option Nat :=
  (List.range vmAreasPerTask).find? fun i => (s.areas i).start = 0

/-- `vm_overlaps`: some mapping meets the range. -/
def vmOverlaps (s : Vm) (start len : Nat) : Bool :=
  (List.range vmAreasPerTask).any fun i =>
    (s.areas i).start ≠ 0 ∧ (s.areas i).start < (start + len) % 2 ^ 32 ∧ start < (s.areas i).vend

/-- `.vg_try`: the range that is taken, or nothing at the top of the zone -/
def vgTry (s : Vm) (bytes : Nat) : (fuel cand : Nat) → Option (Option Nat)
  | 0, _ => none
  | fuel + 1, cand =>
    if userDemandMax ≤ (cand + bytes) % 2 ^ 32 then some none
    else if s.vmOverlaps cand bytes = false then some (some cand)
    else match s.vmFindArea cand with
      | some i => s.vgTry bytes fuel (pageDown (((s.areas i).vend + 0xFFF) % 2 ^ 32))
      | none => s.vgTry bytes fuel ((cand + 0x1000) % 2 ^ 32)

/-- One turn for every page of the zone is enough. -/
def vgFuel : Nat := userDemandMax / vmPage + 1

/-- `vm_rand`: the next value of the generator, and the number made from it -/
def vmRand (rng : Nat) : Nat × Nat :=
  let rng := (rng * 1103515245 + 12345) % 2 ^ 32
  (rng, rng / 2 ^ 4)

/-- The first candidate; `and eax, 0x00FFE000` keeps the bits 13 to 23. -/
def vgCand (s : Vm) : Nat :=
  if s.next ≠ 0 then s.next
  else ((vmRand s.rng).2 / 2 ^ 13 % 2 ^ 11 * 2 ^ 13 + s.demandBase) % 2 ^ 32

/-- Without a bump the candidate costs a random number. -/
def vgSeed (s : Vm) : Vm := if s.next ≠ 0 then s else { s with rng := (vmRand s.rng).1 }

/-- `vm_gap`: an address, 0 if there is no room -/
def vmGap (s : Vm) (pages : Nat) : Option (Nat × Vm) :=
  let bytes := pages * vmPage % 2 ^ 32
  (s.vgSeed.vgTry bytes vgFuel s.vgCand).map fun
    | none => (0, s.vgSeed)
    | some cand => (cand, { s.vgSeed with next := (cand + bytes) % 2 ^ 32 })

/-! ## Mapping -/

end Vm

/-- The mask of a call has no other bits, and asks for writing and executing only with the JIT
flag. -/
def protOk (extra prot : UInt32) : Prop :=
  prot &&& ~~~(protMask ||| vmMapJit ||| extra) = 0 ∧
    (prot &&& (protWrite ||| protExec) = protWrite ||| protExec → prot &&& vmMapJit ≠ 0)

instance (extra prot : UInt32) : Decidable (protOk extra prot) :=
  inferInstanceAs (Decidable (_ ∧ _))

/-- The number of pages of a length, if it is one that can be mapped. -/
def pagesOf (len : Nat) : Option Nat :=
  if userPtrMax < len ∨ len = 0 ∨ 2 ^ 32 ≤ len + 0xFFF then none
  else
    let pages := (len + 0xFFF) / vmPage
    if pages = 0 ∨ vmMaxPages < pages then none else some pages

namespace Vm

/-- `vm_record_anon`, and the end of `sys_mmap_file`: the address, or nothing when the table is
full -/
def record (s : Vm) (a : VmArea) : Option Nat × Vm :=
  match s.vmFreeSlot with
  | none => (none, s)
  | some i => (some a.start, s.setArea i a)

/-- The place the caller asks for can be given. -/
def HintOk (s : Vm) (hint pages : Nat) : Prop :=
  hint ≠ 0 ∧ hint % vmPage = 0 ∧ s.demandBase ≤ hint ∧
    (hint + pages * vmPage) % 2 ^ 32 ≤ userDemandMax ∧
    s.vmOverlaps hint (pages * vmPage) = false

instance (s : Vm) (hint pages : Nat) : Decidable (s.HintOk hint pages) :=
  inferInstanceAs (Decidable (_ ∧ _))

/-- The mapping `sys_mmap` makes. -/
def anonArea (pages : Nat) (prot : UInt32) (start : Nat) : VmArea :=
  { start, pages
    prot := prot &&& protMask
    vend := (start + pages * vmPage) % 2 ^ 32
    jit := prot &&& vmMapJit ≠ 0 }

/-- The mapping `sys_mmap_file` makes. -/
def fileArea (pages : Nat) (prot : UInt32) (sector blocks start : Nat) : VmArea :=
  { anonArea pages prot start with sector, blocks, flags := prot &&& vmMapShared }

/-- `sys_mmap`: the address, or nothing for -1; no result if it does not come back -/
def sysMmap (s : Vm) (hint len prot : UInt32) : Option (Option Nat × Vm) :=
  if ¬ protOk 0 prot then some (none, s)
  else match pagesOf len.toNat with
    | none => some (none, s)
    | some pages =>
      if s.HintOk hint.toNat pages then some (s.record (anonArea pages prot hint.toNat))
      else (s.vmGap pages).map fun (start, s) =>
        if start = 0 then (none, s) else s.record (anonArea pages prot start)

/-- `sys_mmap_file`; `file` is the number of blocks of the file and its first block, nothing if it
cannot be opened -/
def sysMmapFile (s : Vm) (len prot off : UInt32) (file : Option (UInt32 × UInt32)) :
    Option (Option Nat × Vm) :=
  if ¬ protOk vmMapShared prot ∨ off.toNat % vmPage ≠ 0 then some (none, s)
  else match file, pagesOf len.toNat with
    | some (blocks, first), some pages =>
      let skip := off.toNat / vmPage
      if blocks.toNat ≤ skip then some (none, s)
      else
        let sector := ((first.toNat + skip) * hbfsSectorsPerBlk + hbfsDataStart + 1) % 2 ^ 32
        (s.vmGap pages).map fun (start, s) =>
          if start = 0 then (none, s)
          else s.record (fileArea pages prot sector (min (blocks.toNat - skip) pages) start)
    | _, _ => some (none, s)

/-! ## Splitting -/

end Vm

/-- The piece of an area from an address on: a file mapping keeps its position in the file. -/
def VmArea.right (a : VmArea) (addr : Nat) : VmArea :=
  let moved := (addr - a.start) / vmPage
  { a with
    start := addr
    pages := (a.vend - addr) / vmPage
    sector := if a.sector = 0 then 0 else (a.sector + moved * hbfsSectorsPerBlk) % 2 ^ 32
    blocks := if a.sector = 0 then 0 else a.blocks - moved }

/-- The part of a mapping below `addr`. -/
def VmArea.left (a : VmArea) (addr : Nat) : VmArea :=
  let moved := (addr - a.start) / vmPage
  { a with
    pages := moved, vend := addr, blocks := if a.sector = 0 then a.blocks else min a.blocks moved }

namespace Vm

/-- `vm_split_at`: the area that begins at the address -/
def vmSplitAt (s : Vm) (addr : Nat) : Option Nat × Vm :=
  match s.vmFindArea addr with
  | none => (none, s)
  | some i =>
    let a := s.areas i
    if addr = a.start then (some i, s)
    else match s.vmFreeSlot with
      | none => (none, s)
      | some j => (some j, (s.setArea j (a.right addr)).setArea i (a.left addr))

/-- `vm_isolate`: splits so that the range is a mapping of its own. -/
def vmIsolate (s : Vm) (start len : Nat) : Option Nat × Vm :=
  match s.vmFindArea start with
  | none => (none, s)
  | some i =>
    if 2 ^ 32 ≤ start + len ∨ (s.areas i).vend < start + len then (none, s)
    else match s.vmSplitAt start with
      | (none, s) => (none, s)
      | (some j, s) =>
        if (s.areas j).vend ≤ start + len then (some j, s)
        else match s.vmSplitAt (start + len) with
          | (none, s) => (none, s)
          | (some _, s) => (some j, s)

/-- The pages that a range touches: where they begin and how long they are. -/
def rangeOf (addr len : Nat) : Option (Nat × Nat) :=
  if addr = 0 ∨ len = 0 ∨ 2 ^ 32 ≤ addr + len + 0xFFF then none
  else some (pageDown addr, pageDown (addr + len + 0xFFF) - pageDown addr)

/-- `sys_munmap`, true for 0 -/
def sysMunmap (s : Vm) (addr len : UInt32) : Bool × Vm :=
  match rangeOf addr.toNat len.toNat with
  | none => (false, s)
  | some (start, len) =>
    match s.vmIsolate start len with
    | (none, s) => (false, s)
    | (some i, s) => (true, s.setArea i {})

/-- `sys_mprotect`, true for 0; `copied` if there is memory for all the pages that have to be
copied -/
def sysMprotect (s : Vm) (addr len prot : UInt32) (copied : Bool) : Bool × Vm :=
  if prot &&& ~~~protMask ≠ 0 ∨ prot &&& (protWrite ||| protExec) =
    protWrite ||| protExec then (false, s)
  else match rangeOf addr.toNat len.toNat with
    | none => (false, s)
    | some (start, len) =>
      match s.vmIsolate start len with
      | (none, s) => (false, s)
      | (some i, s) => (copied, s.setArea i { s.areas i with prot })

end Vm

/-! ## Runs -/

/-- A call that changes the mappings. -/
inductive VmCall
  | mmap (hint len prot : UInt32)
  | mmapFile (len prot off : UInt32) (file : Option (UInt32 × UInt32))
  | munmap (addr len : UInt32)
  | mprotect (addr len prot : UInt32) (copied : Bool)
  /-- somebody else writes to the dword that `vm_gap` uses -/
  | bump (next : UInt32)

/-- The mappings after the call. -/
def VmCall.step (c : VmCall) (s : Vm) : Option Vm :=
  match c with
  | mmap hint len prot => (s.sysMmap hint len prot).map Prod.snd
  | mmapFile len prot off file => (s.sysMmapFile len prot off file).map Prod.snd
  | munmap addr len => some (s.sysMunmap addr len).2
  | mprotect addr len prot copied => some (s.sysMprotect addr len prot copied).2
  | bump next => some { s with next := next.toNat }

/-! ## What is claimed -/

/-- The addresses of a mapping. -/
def VmArea.span (a : VmArea) : Span := ⟨a.start, a.vend⟩

/-- An area in use is made of pages, inside the zone, and not both writable and executable without
the flag. -/
structure VmArea.Ok (a : VmArea) (base : Nat) : Prop where
  aligned : a.start % vmPage = 0
  base : base ≤ a.start
  top : a.vend ≤ userDemandMax
  size : a.vend = a.start + vmPage * a.pages
  pages : 0 < a.pages
  wx : a.prot &&& (protWrite ||| protExec) = protWrite ||| protExec → a.jit

/-- The mappings are in the room for them and do not overlap. -/
structure Vm.WellFormed (s : Vm) : Prop where
  areas : ∀ i, s.Live i → (s.areas i).Ok s.demandBase
  apart : ∀ i j, s.Live i → s.Live j → i ≠ j → (s.areas i).span.Apart (s.areas j).span

/-! ## What an address sees -/

/-- What the table says of an address; `backing` is the sector of the file that its page shows, none
for a page of zeros. -/
structure VmView where
  prot : UInt32
  flags : UInt32
  backing : Option Nat
deriving DecidableEq

/-- `vm_fault_file_page`: the records keep the sector plus 1. -/
def VmArea.backing (a : VmArea) (addr : Nat) : Option Nat :=
  let page := (addr - a.start) / vmPage
  if a.sector = 0 ∨ a.blocks ≤ page then none
  else some ((a.sector + 2 ^ 32 - 1 + page * hbfsSectorsPerBlk) % 2 ^ 32)

/-- What a program finds at an address of the mapping. -/
def VmArea.view (a : VmArea) (addr : Nat) : VmView := ⟨a.prot, a.flags, a.backing addr⟩

/-- What a program finds at an address. -/
def Vm.view (s : Vm) (addr : Nat) : Option VmView :=
  (s.vmFindArea addr).map fun i => (s.areas i).view addr

/-- The mapping of a file begins at a block of the data area. -/
def VmArea.AtBlock (a : VmArea) : Prop :=
  a.sector = 0 ∨ a.sector % hbfsSectorsPerBlk = (hbfsDataStart + 1) % hbfsSectorsPerBlk

/-- The table of a process, as the calls build it. -/
structure Vm.Sound (s : Vm) : Prop extends Vm.WellFormed s where
  sectors : ∀ i, (s.areas i).AtBlock

/-- What the mapping shows of a file lies in the first `total` blocks of the data area. A piece
behind the end of the file shows nothing of it. -/
def VmArea.Shows (total : Nat) (a : VmArea) : Prop :=
  a.sector ≠ 0 → a.blocks ≠ 0 →
    ∃ first, a.sector = hbfsDataStart + hbfsSectorsPerBlk * first + 1 ∧ first + a.blocks ≤ total

/-- A file that is mapped lies in the first `total` blocks. -/
def VmCall.Reads (total : Nat) : VmCall → Prop
  | mmapFile _ _ _ (some (blocks, first)) => first.toNat + blocks.toNat ≤ total
  | _ => True

/-! ## The search for room -/

/-- `VM_AREA_SIZE`: the bytes of an entry. -/
def vmAreaSize : Nat := 28

/-- `vm_gap` of the group `tgid`, with all the dwords from `vm_next` on. The offset is the size of
an area for each group, not of a dword. -/
def Vm.vmGapOf (s : Vm) (vmNext : Nat → Nat) (tgid pages : Nat) : Option (Nat × (Nat → Nat)) :=
  let entry := vmAreaSize * tgid / 4
  (Vm.vmGap { s with next := vmNext entry } pages).map fun (start, s') =>
    (start, Function.update vmNext entry s'.next)

/-- Pages of the zone that no area has. -/
structure Vm.FreeRun (s : Vm) (start pages : Nat) : Prop where
  aligned : start % vmPage = 0
  base : s.demandBase ≤ start
  top : start + pages * vmPage ≤ userDemandMax
  apart : ∀ i, s.Live i → Span.Apart ⟨start, start + pages * vmPage⟩ (s.areas i).span

/-- The call comes back, with a run if there is one, and changes no entry but that of the group. -/
def Vm.GapExact (s : Vm) (vmNext : Nat → Nat) (tgid pages : Nat) : Prop :=
  ∃ start vmNext', s.vmGapOf vmNext tgid pages = some (start, vmNext') ∧
    ((∃ run, s.FreeRun run pages) → s.FreeRun start pages) ∧ ∀ i ≠ tgid, vmNext' i = vmNext i

/-- There is a run above the bump that ends before the top of the zone. -/
def Vm.RunAbove (s : Vm) (pages : Nat) : Prop :=
  ∃ run, s.FreeRun run pages ∧ s.vgCand ≤ run ∧ run + pages * vmPage < userDemandMax

/-! ## When it holds -/

/-- A value that `vm_gap` itself could have left. -/
def NextOk (base next : Nat) : Prop :=
  next = 0 ∨ next % vmPage = 0 ∧ base ≤ next ∧ next ≤ userDemandMax

/-- The zone begins at a page, the bump is one that `vm_gap` leaves, and areas end at pages up to
the top of the zone. They may overlap, and begin anywhere: one that a hint has put at the end of the
address space ends at 0 or behind it. -/
structure Vm.Ranged (s : Vm) : Prop where
  base : s.demandBase % vmPage = 0 ∧ userDemandMin ≤ s.demandBase ∧ s.demandBase ≤ userDemandBaseMax
  next : NextOk s.demandBase s.next
  ends : ∀ i, s.Live i → (s.areas i).vend % vmPage = 0 ∧ (s.areas i).vend ≤ userDemandMax

/-- The range that begins at a page-aligned hint does not reach the end of the address space, and
what others write to the dword is a value that `vm_gap` could have left. -/
def VmCall.Orderly (c : VmCall) (s : Vm) : Prop :=
  match c with
  | mmap hint len _ =>
    hint.toNat % vmPage = 0 → ∀ pages, pagesOf len.toNat = some pages →
      hint.toNat + pages * vmPage < 2 ^ 32
  | bump next => NextOk s.demandBase next.toNat
  | _ => True

end Mellivora
