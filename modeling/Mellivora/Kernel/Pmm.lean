import Mellivora.Lib.Buddy
import Mellivora.Lib.LinkedList

/-!
# The physical memory manager

`pmm.inc`: a buddy allocator for page frames. Each order from 0 to 11 has a singly linked list of
free blocks, and a free block keeps the link to the next one in its own first four bytes, so memory
is part of the state. The bitmap has a bit for each page, set while the page is in use.

A page stands for its physical address: `shl` and `shr` by 12 go between the two. The lock around
every entry point is left out, and so is `total_free_pages`, which only counts. A loop that does not
end is `none`.
-/

namespace Mellivora

open Function

/-- `BUDDY_ORDERS`. -/
def buddyOrders : Nat := 12
/-- `PMM_FREE_LIST_NIL`: the end of a free list. -/
def pmmFreeListNil : Nat := 0xFFFFFFFF
/-- `KERNEL_RESERVED_END`: memory below it is never given out. -/
def kernelReservedEnd : Nat := 0x00800000
/-- `USER_DEMAND_BASE_MAX`: memory above it is never given out. -/
def userDemandBaseMax : Nat := 0x20000000

/-- The physical allocator's state. -/
structure Pmm where
  /-- `PMM_BITMAP`, true for a page in use -/
  bitmap : Nat → Bool := fun _ => true
  buddyFreeList : Nat → Nat := fun _ => pmmFreeListNil
  /-- the first four bytes of each page -/
  link : Nat → Nat := fun _ => 0
  pmmMemTop : Nat := 0
  pmmBadFrees : Nat := 0
  /-- allocations that fault injection still has to refuse -/
  fiAllocLeft : Nat := 0

/-- A function of the allocator; `none` is a walk or a loop that does not end. -/
abbrev PmmM := StateT Pmm Option

/-- A 32-bit number read as a signed one. -/
def signed (n : Nat) : Int := if n < 2 ^ 31 then n else n - 2 ^ 32

/-- The address of a page. -/
def pageAddr (page : Nat) : Nat := page * 4096 % 2 ^ 32

/-- The loops over the bitmap bits of `cnt` pages. -/
def markPages (used : Bool) : (page cnt : Nat) → (Nat → Bool) → Nat → Bool
  | _, 0, bitmap => bitmap
  | page, cnt + 1, bitmap => markPages used (page + 1) cnt (update bitmap page used)

/-- Puts a block at the front of its order's list. -/
def linkBlock (page order : Nat) (s : Pmm) : Pmm :=
  { s with
    link := update s.link page (s.buddyFreeList order)
    buddyFreeList := update s.buddyFreeList order page }

/-- `pmm_push_free_block`: marks the pages free and links the block. -/
def pmmPushFreeBlock (page order : Nat) : PmmM Unit :=
  modify fun s =>
    linkBlock page order { s with bitmap := markPages false page (2 ^ order) s.bitmap }

/-! ## Allocation -/

/-- `fi_alloc_gate`, CF set when the allocation is to fail -/
def fiAllocGate : PmmM Bool := do
  let s ← get
  if s.fiAllocLeft = 0 then return false
  set { s with fiAllocLeft := s.fiAllocLeft - 1 }
  return true

/-- `.abo_search`: the lowest order from `order` on that has a free block. -/
def findOrder (buddyFreeList : Nat → Nat) : (left order : Nat) → Option Nat
  | 0, _ => none
  | left + 1, order =>
    if buddyFreeList order ≠ pmmFreeListNil then some order
    else findOrder buddyFreeList left (order + 1)

/-- `.abo_split`: from `levels` orders above it down to the requested order, the upper half goes
back. -/
def splitBlock (page order : Nat) : (levels : Nat) → PmmM Unit
  | 0 => return
  | levels + 1 => do
    pmmPushFreeBlock (page + 2 ^ (order + levels)) (order + levels)
    splitBlock page order levels

/-- `.abo_found`: take the first block of a free list. -/
def popBlock (order : Nat) : PmmM Nat := do
  let page := (← get).buddyFreeList order
  modify fun s =>
    { s with
      buddyFreeList := update s.buddyFreeList order (s.link page)
      bitmap := markPages true page (2 ^ order) s.bitmap }
  return page

/-- `pmm_alloc_buddy_order`: the address of a block, or 0 -/
def pmmAllocBuddyOrder (order : Nat) : PmmM Nat := do
  if ← fiAllocGate then return 0
  match findOrder (← get).buddyFreeList (buddyOrders - order) order with
  | none => return 0
  | some found =>
    let page ← popBlock found
    splitBlock page order (found - order)
    return pageAddr page

/-- `pmm_alloc_page`; 0 is no memory. -/
def pmmAllocPage : PmmM Nat := pmmAllocBuddyOrder 0

/-- `.ap_order` and `.fp_order`: the smallest order with room for `count` pages, compared as signed
numbers, if `left` more orders are enough. -/
def orderFor (count : Nat) : (left order : Nat) → Option Nat
  | left, order =>
    if signed count ≤ 2 ^ order then some order
    else match left with
      | 0 => none
      | left + 1 => orderFor count left (order + 1)

/-- `pmm_alloc_pages`: a block of the least order that holds `count` pages. -/
def pmmAllocPages (count : Nat) : PmmM Nat :=
  match orderFor count (buddyOrders - 1) 0 with
  | none => return 0
  | some order => pmmAllocBuddyOrder order

/-! ## Freeing -/

/-- `.pfc_scan`: walk a free list from `page` on, coming from `prev`, until the buddy or the end. -/
def pfcScan (link : Nat → Nat) (buddy : Nat) : (turns : Nat) → (prev : Option Nat) → (page : Nat) →
    Option (Bool × Option Nat)
  | 0, _, _ => none
  | turns + 1, prev, page =>
    if page = pmmFreeListNil then some (false, prev)
    else if page = buddy then some (true, prev)
    else pfcScan link buddy turns (some page) (link page)

/-- The turns that a walk over a list of different pages can take. -/
def maxTurns : Nat := 2 ^ 20 + 1

/-- Stores through the link that led to a block: the list's head, or the page before. -/
def storeLink (order : Nat) (prev : Option Nat) (next : Nat) (s : Pmm) : Pmm :=
  match prev with
  | none => { s with buddyFreeList := update s.buddyFreeList order next }
  | some page => { s with link := update s.link page next }

/-- `.pfc_coalesce_loop` with `left` orders above -/
def pfcCoalesceLoop : (left order page : Nat) → PmmM Unit
  | 0, order, page => modify (linkBlock page order)
  | left + 1, order, page => do
    let s ← get
    let buddy := page ^^^ 2 ^ order
    let (found, prev) ← StateT.lift (pfcScan s.link buddy maxTurns none (s.buddyFreeList order))
    if found then
      modify (storeLink order prev (s.link buddy))
      pfcCoalesceLoop left (order + 1) (min page buddy)
    else modify (linkBlock page order)

/-- `pmm_free_coalesce`: merges the block with its buddies as far as they are free. -/
def pmmFreeCoalesce (page order : Nat) : PmmM Unit := do
  modify fun s => { s with bitmap := markPages false page (2 ^ order) s.bitmap }
  pfcCoalesceLoop (buddyOrders - 1 - order) order page

/-- `pmm_check_free`, CF set when the address is refused -/
def pmmCheckFree (s : Pmm) (addr : Nat) : Bool :=
  addr % 4096 ≠ 0 || addr < kernelReservedEnd || s.pmmMemTop ≤ addr

/-- Counts a free that is refused. -/
def refuseFree : PmmM Unit :=
  modify fun s => { s with pmmBadFrees := (s.pmmBadFrees + 1) % 2 ^ 32 }

/-- `pmm_free_page`. -/
def pmmFreePage (addr : Nat) : PmmM Unit := do
  if pmmCheckFree (← get) addr then refuseFree
  else pmmFreeCoalesce (addr / 4096) 0

/-- `pmm_free_pages`. -/
def pmmFreePages (addr count : Nat) : PmmM Unit := do
  if pmmCheckFree (← get) addr || count = 0 then refuseFree
  else
    -- A count too large for every order is freed as the largest block.
    let order := (orderFor count (buddyOrders - 1) 0).getD (buddyOrders - 1)
    pmmFreeCoalesce (addr / 4096) order

/-! ## Seeding -/

/-- `bsf`: the lowest bit that is set in a number other than 0 -/
def bsf (n : Nat) : Nat := ((List.range 32).find? fun i => n.testBit i).getD 0

/-- The largest order that a page is aligned to; page 0 counts as order 0. -/
def alignOrder (page : Nat) : Nat := if page = 0 then 0 else min (bsf page) (buddyOrders - 1)

/-- `.pfr_fit`: the largest order up to `order` whose bytes fit, compared as signed numbers, or
0. -/
def fitOrder (len : Nat) : (order : Nat) → Nat
  | 0 => 0
  | order + 1 => if 2 ^ (order + 1) * 4096 ≤ signed len then order + 1 else fitOrder len order

/-- The loop of `pmm_free_region`: each time the largest block that is aligned and fits. -/
def pfrLoop : (turns base len : Nat) → PmmM Unit
  | 0, _, _ => StateT.lift none
  | turns + 1, base, len => do
    if len = 0 then return
    let page := base / 4096
    let order := fitOrder len (alignOrder page)
    pmmPushFreeBlock page order
    pfrLoop turns ((base + 2 ^ order * 4096) % 2 ^ 32) (len - 2 ^ order * 4096)

/-- `pmm_free_region`: every turn takes a page at least. -/
def pmmFreeRegion (base len : Nat) : PmmM Unit :=
  let base := (base + 0xFFF) % 2 ^ 32 / 4096 * 4096
  let len := len / 4096 * 4096
  pfrLoop (len / 4096 + 1) base len

/-- An entry of the memory map: base and length of 64 bits, type of 32. -/
structure E820Entry where
  base : Nat
  length : Nat
  type : Nat

/-- `.e820_free`: the part of a region below the ceiling, if there is any. -/
def e820Clamp (base len : Nat) : Option (Nat × Nat) :=
  if userDemandBaseMax ≤ base then none
  else if min len (userDemandBaseMax - base) = 0 then none
  else some (base, min len (userDemandBaseMax - base))

/-- What `.e820_loop` makes of an entry: base and length of the region it frees, if it frees one.
Only the low halves of base and length are read, and the first two comparisons are signed. -/
def e820Region (e : E820Entry) : Option (Nat × Nat) :=
  let base := e.base % 2 ^ 32
  let len := e.length % 2 ^ 32
  let below := (kernelReservedEnd + 2 ^ 32 - base) % 2 ^ 32
  if e.type ≠ 1 then none
  else if signed kernelReservedEnd ≤ signed base then e820Clamp base len
  else if signed len ≤ signed below then none
  else e820Clamp kernelReservedEnd ((len + 2 ^ 32 - below) % 2 ^ 32)

/-- One entry of the firmware's map. -/
def e820Step (e : E820Entry) : PmmM Unit :=
  match e820Region e with
  | none => return
  | some (base, len) => do
    let top := (base + len + 0xFFF) % 2 ^ 32 / 4096 * 4096
    modify fun s => { s with pmmMemTop := max s.pmmMemTop top }
    pmmFreeRegion base len

/-- The loop over the firmware's map. -/
def e820Loop : List E820Entry → PmmM Unit
  | [] => return
  | e :: table => do
    e820Step e
    e820Loop table

/-- `pmm_init`: what the firmware's map calls usable is freed. -/
def pmmInit (table : List E820Entry) : PmmM Unit := do
  modify fun s =>
    { s with bitmap := fun _ => true, buddyFreeList := fun _ => pmmFreeListNil }
  e820Loop table

/-! ## Callers -/

/-- The allocator and the allocations its callers hold, each by its first page and the number of
pages that were asked for. -/
structure PmmRun where
  pmm : Pmm
  live : List (Nat × Nat) := []

/-- What the callers do. In between they write to the pages they hold. -/
inductive PmmCall
  | allocPage
  | allocPages (count : Nat)
  | freePage (addr : Nat)
  | freePages (addr count : Nat)
  | write (page value : Nat)

/-- The block behind an allocation of `a.2` pages at page `a.1`. -/
def liveBlock (a : Nat × Nat) : Buddy.Block :=
  ⟨a.1, (orderFor a.2 (buddyOrders - 1) 0).getD (buddyOrders - 1)⟩

/-- The blocks that are given out. -/
def PmmRun.liveBlocks (r : PmmRun) : List Buddy.Block := r.live.map liveBlock

/-- The caller has got `addr` for `count` pages, or nothing. -/
def PmmRun.got (live : List (Nat × Nat)) (count addr : Nat) : List (Nat × Nat) :=
  if addr = 0 then live else (addr / 4096, count) :: live

/-- The state after the call. -/
def PmmCall.step : PmmCall → PmmRun → Option PmmRun
  | allocPage, r => do
    let (addr, pmm) ← pmmAllocPage.run r.pmm
    return { pmm, live := PmmRun.got r.live 1 addr }
  | allocPages count, r => do
    let (addr, pmm) ← (pmmAllocPages count).run r.pmm
    return { pmm, live := PmmRun.got r.live count addr }
  | freePage addr, r => do
    let (_, pmm) ← (pmmFreePage addr).run r.pmm
    return { pmm, live := r.live.erase (addr / 4096, 1) }
  | freePages addr count, r => do
    let (_, pmm) ← (pmmFreePages addr count).run r.pmm
    return { pmm, live := r.live.erase (addr / 4096, count) }
  | write page value, r =>
    some { r with pmm := { r.pmm with link := update r.pmm.link page value } }

/-- An allocation is of 1 to 2048 pages; a free gives back an allocation with its count; a write is
to a page of an allocation. -/
def PmmCall.Legal : PmmCall → PmmRun → Prop
  | allocPage, _ => True
  | allocPages count, _ => 1 ≤ count ∧ count ≤ 2048
  | freePage addr, r => ∃ page, (page, 1) ∈ r.live ∧ addr = pageAddr page
  | freePages addr count, r => ∃ page, (page, count) ∈ r.live ∧ addr = pageAddr page
  | write page _, r => ∃ a ∈ r.live, page ∈ (liveBlock a).pages

/-- Frees the regions of a list. -/
def pmmSeed : List (Nat × Nat) → PmmM Unit
  | [] => return
  | (base, len) :: regions => do
    pmmFreeRegion base len
    pmmSeed regions

/-- The whole pages of a region. -/
def regionPages (region : Nat × Nat) : Set Nat :=
  { page | region.1 ≤ 4096 * page ∧ 4096 * page + 4096 ≤ region.1 + region.2 }

/-- The whole pages of the regions. -/
def seededPages (regions : List (Nat × Nat)) : Set Nat :=
  { page | ∃ region ∈ regions, page ∈ regionPages region }

/-- Page-aligned regions of the memory that the allocator takes back, below `top` and apart from
each other. -/
structure SeedRegions (top : Nat) (regions : List (Nat × Nat)) : Prop where
  aligned : ∀ region ∈ regions, 4096 ∣ region.1 ∧ 4096 ∣ region.2
  inside : ∀ region ∈ regions, kernelReservedEnd ≤ region.1 ∧ region.1 + region.2 ≤ top
  disjoint : regions.Pairwise fun r r' => Disjoint (regionPages r) (regionPages r')

/-- The allocator before anything is seeded: no page is free. -/
structure Pmm.Blank (s : Pmm) : Prop where
  bitmap : ∀ page, s.bitmap page = true
  buddyFreeList : ∀ k < buddyOrders, s.buddyFreeList k = pmmFreeListNil
  pmmMemTop : s.pmmMemTop < 2 ^ 32

/-- The pages that `pmm_free_region` frees: the base is rounded up and the length down. -/
def freedPages (region : Nat × Nat) : Set Nat :=
  Set.Ico ((region.1 + 0xFFF) / 4096) ((region.1 + 0xFFF) / 4096 + region.2 / 4096)

/-- The block is on the list of its order. -/
def Pmm.OnFreeList (s : Pmm) (b : Buddy.Block) : Prop :=
  b.order < buddyOrders ∧ ∃ l, Linked.Chain s.link pmmFreeListNil (s.buddyFreeList b.order) l ∧
    b.page ∈ l

/-- The pages `X` are accounted for: every free list ends, free blocks and allocations are aligned,
disjoint and make up `X`, and the bitmap shows the free ones. -/
structure PmmRun.Sound (X : Set Nat) (r : PmmRun) : Prop where
  ends : ∀ k < buddyOrders, ∃ l, Linked.Chain r.pmm.link pmmFreeListNil (r.pmm.buddyFreeList k) l ∧
    l.Nodup
  aligned : ∀ b, r.pmm.OnFreeList b → b.Aligned
  freeDisjoint : ∀ b c, r.pmm.OnFreeList b → r.pmm.OnFreeList c → b ≠ c → Disjoint b.pages c.pages
  liveDisjoint : r.liveBlocks.Pairwise fun b c => Disjoint b.pages c.pages
  apart : ∀ b, r.pmm.OnFreeList b → ∀ c ∈ r.liveBlocks, Disjoint b.pages c.pages
  cover : ∀ x, x ∈ X ↔ (∃ b, r.pmm.OnFreeList b ∧ x ∈ b.pages) ∨ ∃ c ∈ r.liveBlocks, x ∈ c.pages
  bitmap : ∀ x, r.pmm.bitmap x = false ↔ ∃ b, r.pmm.OnFreeList b ∧ x ∈ b.pages

/-! ## The memory map -/

/-- The whole pages of an entry. -/
def E820Entry.pages (e : E820Entry) : Set Nat := regionPages (e.base, e.length)

/-- The pages that `pmm_init` frees for an entry. -/
def E820Entry.freed (e : E820Entry) : Set Nat :=
  { x | ∃ region, e820Region e = some region ∧ x ∈ freedPages region }

/-- No page is freed for two entries. -/
def FreedApart (table : List E820Entry) : Prop :=
  table.Pairwise fun e e' => Disjoint e.freed e'.freed

/-- Every page that is freed is a page of usable memory. -/
def FreedReal (table : List E820Entry) : Prop :=
  ∀ e ∈ table, ∀ x ∈ e.freed, ∃ e' ∈ table, e'.type = 1 ∧ x ∈ e'.pages

/-- An entry of usable memory that `pmm_init` reads right. A base below the kernel's reserve is cut
off at a page, one above the ceiling is left alone. In between, the base is a multiple of the page
size, or the two roundings together stay inside, because the length makes up for what the base
loses, or the entry is shorter than a page, or it reaches the ceiling. From 2 GB on the base is read
as another number, so nothing may be freed. -/
def E820Entry.Plain (e : E820Entry) : Prop :=
  e.type = 1 →
    if e.base < 2 ^ 31 then
      e.base < kernelReservedEnd ∨ userDemandBaseMax ≤ e.base ∨ 4096 ∣ e.base ∨
        4096 ≤ e.base % 4096 + e.length % 4096 ∨ e.length % 2 ^ 32 < 4096 ∨
        userDemandBaseMax ≤ e.base + e.length % 2 ^ 32 ∨ 2 ^ 32 ≤ e.length
    else ∀ base len, e820Region e = some (base, len) → len < 4096

/-- The usable ranges of the map have no page in common. -/
def UsableDisjoint (table : List E820Entry) : Prop :=
  (table.filter fun e => e.type = 1).Pairwise fun e e' => Disjoint e.pages e'.pages

/-- The page at position `n` of a free list that starts at `page`, following the links. -/
def freeAt (link : Nat → Nat) : (page n : Nat) → Option Nat
  | page, 0 => if page = pmmFreeListNil then none else some page
  | page, n + 1 => if page = pmmFreeListNil then none else freeAt link (link page) n

/-- The `n`-th page on a free list. -/
def Pmm.freeAt (s : Pmm) (order n : Nat) : Option Nat :=
  Mellivora.freeAt s.link (s.buddyFreeList order) n

/-- The pages on the free lists are real memory between the kernel's reserve and the ceiling, and if
the usable ranges are disjoint, no page is on the lists twice. -/
structure Pmm.SeededFrom (table : List E820Entry) (s : Pmm) : Prop where
  real : ∀ k < buddyOrders, ∀ n page, s.freeAt k n = some page →
    ∀ x ∈ (⟨page, k⟩ : Buddy.Block).pages, (∃ e ∈ table, e.type = 1 ∧ x ∈ e.pages) ∧
      kernelReservedEnd ≤ 4096 * x ∧ 4096 * x + 4096 ≤ userDemandBaseMax
  once : UsableDisjoint table → ∀ k < buddyOrders, ∀ k' < buddyOrders, ∀ n n' page page' x,
    s.freeAt k n = some page → s.freeAt k' n' = some page' →
      x ∈ (⟨page, k⟩ : Buddy.Block).pages → x ∈ (⟨page', k'⟩ : Buddy.Block).pages → k = k' ∧ n = n'

end Mellivora
