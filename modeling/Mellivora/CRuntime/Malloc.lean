import Mellivora.Disk.Buffer
import Mellivora.Lib.LinkedList
import Mellivora.Lib.Runs
import Mellivora.Lib.Spans
import Mathlib.Control.Monad.Basic

/-!
# The heap of the C runtime

`malloc.c`: a first-fit heap over the program's break. Every block starts with a header of 16 bytes,
and the free blocks form a list sorted by address whose links are in those headers, so the program's
memory is part of the state. Pointers and `u32` numbers are natural numbers below `2 ^ 32`, and 0 is
`NULL`.

The kernel extends the break by what is asked for or refuses; which of the two it does at each call
is in `grants`. The bytes above the break may be anything. A loop that does not end is `none`.
-/

namespace Mellivora

/-- `BLK_USED`: the magic word of a block that is given out. -/
def blkUsed : Nat := 0x5A5A5A5A
/-- `BLK_FREE`: the magic word of a free block. -/
def blkFree : Nat := 0x00000000
/-- `HDR_SIZE`: the bytes of a block's header. -/
def hdrSize : Nat := 16
/-- `MIN_SPLIT`: what a rest must have to become a block of its own. -/
def minSplit : Nat := hdrSize + 8
/-- `GROW_MIN`: the least the heap grows by. -/
def growMin : Nat := 4096

/-- The program's memory and its break, the head of the free list, and the kernel's coming
answers. -/
structure CHeap where
  mem : Buffer
  freeList : Nat := 0
  brk : Nat
  grants : List Bool

/-- A function of the allocator; `none` is a walk of the free list that does not end. -/
abbrev HeapM := StateT CHeap Option

/-! ## The fields of a `blk_t` -/

/-- `block->size`: the bytes of the payload. -/
def blkSize (mem : Buffer) (block : Nat) : Nat := mem.dword block
/-- `block->magic`. -/
def blkMagic (mem : Buffer) (block : Nat) : Nat := mem.dword (block + 4)
/-- `block->next`. -/
def blkNext (mem : Buffer) (block : Nat) : Nat := mem.dword (block + 8)

/-- Stores a 32-bit word. -/
def CHeap.store (addr v : Nat) (s : CHeap) : CHeap := { s with mem := s.mem.setDword addr v }

/-- `block->size = v`. -/
def setBlkSize (block v : Nat) : HeapM Unit := modify (CHeap.store block v)
/-- `block->magic = v`. -/
def setBlkMagic (block v : Nat) : HeapM Unit := modify (CHeap.store (block + 4) v)
/-- `block->next = v`. -/
def setBlkNext (block v : Nat) : HeapM Unit := modify (CHeap.store (block + 8) v)
/-- `block->pad = v`. -/
def setBlkPad (block v : Nat) : HeapM Unit := modify (CHeap.store (block + 12) v)

/-- Stores through `link`: into `free_list`, or into the `next` field of the block before. -/
def CHeap.link (prev : Option Nat) (v : Nat) (s : CHeap) : CHeap :=
  match prev with
  | none => { s with freeList := v }
  | some block => s.store (block + 8) v

/-- `*link = v`. -/
def setLink (prev : Option Nat) (v : Nat) : HeapM Unit := modify (CHeap.link prev v)

/-! ## Growing and linking -/

/-- `(n + 7) & ~7` on 32 bits. -/
def align8 (n : Nat) : Nat := (n + 7) % 2 ^ 32 / 8 * 8

/-- `mv_sbrk`: the old break if the kernel extends it, -1 if it refuses -/
def mvSbrk (bytes : Nat) : HeapM Nat := do
  let s ← get
  let granted := s.grants.headD false && s.brk + bytes < 2 ^ 32
  set { s with brk := if granted then s.brk + bytes else s.brk, grants := s.grants.tail }
  return if granted then s.brk else 0xFFFFFFFF

/-- `grow_heap`: the result is compared as a signed number. -/
def growHeap (bytes : Nat) : HeapM Nat := do
  let old ← mvSbrk bytes
  return if 2 ^ 31 ≤ old then 0 else old

/-- More blocks than 32-bit memory holds, so a list that ends is walked to its end. -/
def walkTurns : Nat := 2 ^ 28 + 1

/-- The loop of `list_insert`: the block before the place of `block` and the one after it. -/
def findPlace (s : CHeap) (block : Nat) : Option (Option Nat × Nat) :=
  Linked.walk (blkNext s.mem) 0 (fun walk => walk < block) walkTurns none s.freeList

/-- `list_insert`: puts a block into the free list by its address. -/
def listInsert (block : Nat) : HeapM Unit := do
  setBlkMagic block blkFree
  let (prev, walk) ← StateT.lift (findPlace (← get) block)
  setBlkNext block walk
  setLink prev block

/-- Makes the block and the one behind it one. -/
def absorb (block next : Nat) : HeapM Unit := do
  let mem := (← get).mem
  setBlkSize block ((blkSize mem block + hdrSize + blkSize mem next) % 2 ^ 32)
  setBlkNext block (blkNext (← get).mem next)

/-- Merges a free block with the next one of the list if the two touch. -/
def mergeForward (block : Nat) : HeapM Unit := do
  let mem := (← get).mem
  let next := blkNext mem block
  if next ≠ 0 ∧ (block + hdrSize + blkSize mem block) % 2 ^ 32 = next then absorb block next

/-! ## `malloc` -/

/-- The first-fit search: the first block of at least `need` bytes, or 0, and the block before
it. -/
def findFit (s : CHeap) (need : Nat) : Option (Option Nat × Nat) :=
  Linked.walk (blkNext s.mem) 0 (fun block => blkSize s.mem block < need) walkTurns none s.freeList

/-- What `grow_heap` asks `sbrk` for. -/
def growSize (need : Nat) : Nat := align8 (max ((need + hdrSize) % 2 ^ 32) growMin)

/-- The loop of `malloc`: search, and grow while nothing fits. The block is 0 when the kernel
refuses. -/
def mallocLoop (need : Nat) : (turns : Nat) → HeapM (Option Nat × Nat)
  | 0 => StateT.lift none
  | turns + 1 => do
    let (prev, block) ← StateT.lift (findFit (← get) need)
    if block ≠ 0 then return (prev, block)
    let fresh ← growHeap (growSize need)
    if fresh = 0 then return (none, 0)
    setBlkSize fresh (growSize need - hdrSize)
    listInsert fresh
    mallocLoop need turns

/-- How often `malloc` may grow the heap before 32-bit memory is used up. -/
def growTurns : Nat := 2 ^ 20

/-- Cuts the block behind `need` bytes and puts the rest in its place in the list. -/
def mallocSplit (need : Nat) (prev : Option Nat) (block : Nat) : HeapM Unit := do
  let size := blkSize (← get).mem block
  let rest := (block + hdrSize + need) % 2 ^ 32
  -- `block->size - need - HDR_SIZE`, modulo `2 ^ 32`
  setBlkSize rest ((size + 2 ^ 33 - need - hdrSize) % 2 ^ 32)
  setBlkPad rest 0
  setBlkSize block need
  setLink prev rest
  setBlkNext rest (blkNext (← get).mem block)
  setBlkMagic rest blkFree
  mergeForward rest

/-- The rest of `malloc`: split the block, or take all of it. -/
def mallocTake (need : Nat) (prev : Option Nat) (block : Nat) : HeapM Nat := do
  if (need + minSplit) % 2 ^ 32 ≤ blkSize (← get).mem block then mallocSplit need prev block
  else setLink prev (blkNext (← get).mem block)
  setBlkNext block 0
  setBlkMagic block blkUsed
  return (block + hdrSize) % 2 ^ 32

/-- `malloc`: first fit, growing the heap until a block fits or `sbrk` refuses. -/
def malloc (size : Nat) : HeapM Nat := do
  let need := align8 (if size = 0 then 1 else size)
  let (prev, block) ← mallocLoop need growTurns
  if block = 0 then return 0
  mallocTake need prev block

/-! ## `free`, `calloc` and `realloc` -/

/-- The header of the block whose payload is at `ptr`. -/
def blockOf (ptr : Nat) : Nat := (ptr + 2 ^ 32 - hdrSize) % 2 ^ 32

/-- Walks the free list to `block` and answers the block before it. -/
def findPrev (s : CHeap) (block : Nat) : Option (Option Nat × Nat) :=
  Linked.walk (blkNext s.mem) 0 (fun walk => walk ≠ block) walkTurns none s.freeList

/-- The backward merge of `free`: the block that now holds `block`. -/
def mergeBackward (prev : Option Nat) (block : Nat) : HeapM Nat := do
  match prev with
  | none => return block
  | some prev =>
    if (prev + hdrSize + blkSize (← get).mem prev) % 2 ^ 32 = block then
      absorb prev block
      return prev
    else return block

/-- `free`: nothing for `NULL` or a block without the magic word of one given out. -/
def free (ptr : Nat) : HeapM Unit := do
  if ptr = 0 then return
  let block := blockOf ptr
  if blkMagic (← get).mem block ≠ blkUsed then return
  listInsert block
  let (prev, _) ← StateT.lift (findPrev (← get) block)
  let block ← mergeBackward prev block
  mergeForward block

/-- `memset`, byte by byte. -/
def memset (dst : Nat) (v : UInt8) : (n : Nat) → Buffer → Buffer
  | 0, mem => mem
  | n + 1, mem => memset ((dst + 1) % 2 ^ 32) v n (Function.update mem dst v)

/-- `memcpy`, byte by byte. -/
def memcpy (dst src : Nat) : (n : Nat) → Buffer → Buffer
  | 0, mem => mem
  | n + 1, mem =>
      memcpy ((dst + 1) % 2 ^ 32) ((src + 1) % 2 ^ 32) n (Function.update mem dst (mem src))

/-- `calloc`: refuses a product above 32 bits, and clears what it got. -/
def calloc (count size : Nat) : HeapM Nat := do
  if count ≠ 0 ∧ 0xFFFFFFFF / count < size then return 0
  let bytes := count * size
  let p ← malloc bytes
  if p ≠ 0 then modify fun s => { s with mem := memset p 0 bytes s.mem }
  return p

/-- `realloc`: in place where the block is large enough, else a new block and a copy. -/
def realloc (ptr size : Nat) : HeapM Nat := do
  if ptr = 0 then malloc size
  else if size = 0 then
    free ptr
    return 0
  else
    let block := blockOf ptr
    let mem := (← get).mem
    if blkMagic mem block ≠ blkUsed then return 0
    if align8 size ≤ blkSize mem block then return ptr
    let fresh ← malloc size
    if fresh = 0 then return 0
    modify fun s => { s with mem := memcpy fresh ptr (min (blkSize s.mem block) size) s.mem }
    free ptr
    return fresh

/-! ## Programs -/

/-- The heap and the payloads the program holds, each by its address and the number of bytes that
were asked for. -/
structure HeapRun where
  heap : CHeap
  live : List (Nat × Nat) := []

/-- A program starts with an empty heap. -/
def HeapRun.initial (mem : Buffer) (start : Nat) (grants : List Bool) : HeapRun :=
  { heap := { mem, brk := start, grants } }

/-- What the program does. In between it writes to the bytes it asked for. -/
inductive HeapCall
  | malloc (size : Nat)
  | calloc (count size : Nat)
  | realloc (ptr size : Nat)
  | free (ptr : Nat)
  | write (addr : Nat) (value : UInt8)

/-- The live payloads with a new one, unless the request was refused. -/
def HeapRun.got (live : List (Nat × Nat)) (ptr size : Nat) : List (Nat × Nat) :=
  if ptr = 0 then live else (ptr, size) :: live

/-- The live payloads without the one at `ptr`. -/
def HeapRun.gave (live : List (Nat × Nat)) (ptr : Nat) : List (Nat × Nat) :=
  live.filter fun a => a.1 ≠ ptr

/-- One call of the program. -/
def HeapCall.step : HeapCall → HeapRun → Option HeapRun
  | malloc size, r => do
    let (p, heap) ← (Mellivora.malloc size).run r.heap
    return { heap, live := HeapRun.got r.live p size }
  | calloc count size, r => do
    let (p, heap) ← (Mellivora.calloc count size).run r.heap
    return { heap, live := HeapRun.got r.live p (count * size) }
  | realloc ptr size, r => do
    let (p, heap) ← (Mellivora.realloc ptr size).run r.heap
    -- A request that is refused leaves the old payload alone, one for no bytes frees it.
    let live := if p = 0 ∧ size ≠ 0 then r.live else HeapRun.gave r.live ptr
    return { heap, live := HeapRun.got live p size }
  | free ptr, r => do
    let (_, heap) ← (Mellivora.free ptr).run r.heap
    return { heap, live := HeapRun.gave r.live ptr }
  | write addr value, r =>
    some { r with heap := { r.heap with mem := Function.update r.heap.mem addr value } }

/-- Sizes are 32-bit numbers; only live pointers or `NULL` are freed and reallocated; a write is to
a byte that was asked for. -/
def HeapCall.Legal : HeapCall → HeapRun → Prop
  | malloc size, _ => size < 2 ^ 32
  | calloc count size, _ => count < 2 ^ 32 ∧ size < 2 ^ 32
  | realloc ptr size, r => size < 2 ^ 32 ∧ (ptr = 0 ∨ ∃ n, (ptr, n) ∈ r.live)
  | free ptr, r => ptr = 0 ∨ ∃ n, (ptr, n) ∈ r.live
  | write addr _, r => ∃ a ∈ r.live, a.1 ≤ addr ∧ addr < a.1 + a.2

/-- The largest request that `align8` does not round up to 0. -/
def maxRequest : Nat := 0xFFFFFFF8

/-- The request is no larger than that; a `calloc` whose product is too large for 32 bits is
refused. -/
def HeapCall.Fits : HeapCall → HeapRun → Prop
  | malloc size, _ => size ≤ maxRequest
  | calloc count size, _ => count * size ≤ maxRequest ∨ 2 ^ 32 ≤ count * size
  | realloc _ size, _ => size ≤ maxRequest
  | free _, _ => True
  | write _ _, _ => True

/-- The header and the payload of a block. -/
def blkSpan (mem : Buffer) (block : Nat) : Span := ⟨block, block + hdrSize + blkSize mem block⟩

/-- The heap between `start` and the break: the free list ends and its addresses increase, free
blocks and live blocks are apart and inside, and a live payload is 8-aligned and has the bytes that
were asked for. -/
structure HeapRun.Sound (start : Nat) (r : HeapRun) (frees : List Nat) : Prop where
  list : Linked.Chain (blkNext r.heap.mem) 0 r.heap.freeList frees
  increasing : frees.Pairwise (· < ·)
  aligned : ∀ a ∈ r.live, 8 ∣ a.1
  enough : ∀ a ∈ r.live, hdrSize ≤ a.1 ∧ a.2 ≤ blkSize r.heap.mem (a.1 - hdrSize)
  apart : (frees ++ r.live.map fun a => a.1 - hdrSize).Pairwise fun b c =>
    (blkSpan r.heap.mem b).Apart (blkSpan r.heap.mem c)
  inside : ∀ b ∈ frees ++ r.live.map fun a => a.1 - hdrSize, (blkSpan r.heap.mem b).Within
    ⟨start, r.heap.brk⟩

end Mellivora
