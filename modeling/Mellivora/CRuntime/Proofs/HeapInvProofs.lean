import Mellivora.CRuntime.Proofs.HeapLayoutProofs
import Mellivora.Disk.Proofs.BufferProofs

/-!
# Proofs: the heap in memory

A state of the heap is described by the spans of its free blocks in the order of the list, of the
blocks that are being moved (`loose`), and of the blocks the program holds, each with the bytes it
asked for. `HeapInv` says that memory agrees: the list runs through the free blocks, and every
header has the size of its block. The lemmas are the moves of blocks between the three.
-/

namespace Mellivora

open List Buffer Prod

/-- The heap in memory. -/
structure HeapInv (start : Nat) (frees loose : List Span) (held : List (Span × Nat)) (s : CHeap) :
    Prop where
  layout : HeapLayout start s.brk frees (loose ++ held.map fst)
  startPos : 0 < start
  startLe : start ≤ s.brk
  brkAligned : 8 ∣ s.brk
  brkLt : s.brk < 2 ^ 32
  list : Linked.Chain (blkNext s.mem) 0 s.freeList (frees.map Span.lo)
  size : ∀ e ∈ frees ++ (loose ++ held.map fst), e.lo + 16 + blkSize s.mem e.lo = e.hi
  magic : ∀ x ∈ held, blkMagic s.mem x.1.lo = blkUsed
  enough : ∀ x ∈ held, x.1.lo + 16 + x.2 ≤ x.1.hi

attribute [local grind cases] HeapInv

variable {start v : Nat} {frees loose before after : List Span} {held : List (Span × Nat)}
  {s : CHeap} {e f g : Span} {mem mem' : Buffer}

@[simp] theorem CHeap.store_mem (off : Nat) : (s.store off v).mem = s.mem.setDword off v := rfl

@[simp] theorem CHeap.store_brk (off : Nat) : (s.store off v).brk = s.brk := rfl

/-! ## Stores -/

section Fields

variable {a off : Nat}

theorem blkSize_setDword (h : off + 4 ≤ a ∨ a + 4 ≤ off) :
    blkSize (mem.setDword off v) a = blkSize mem a :=
  dword_setDword_of_apart (by omega)

theorem blkMagic_setDword (h : off ≤ a ∨ a + 8 ≤ off) :
    blkMagic (mem.setDword off v) a = blkMagic mem a :=
  dword_setDword_of_apart (by omega)

theorem blkNext_setDword (h : off ≤ a + 4 ∨ a + 12 ≤ off) :
    blkNext (mem.setDword off v) a = blkNext mem a :=
  dword_setDword_of_apart (by omega)

theorem blkSize_setDword_self (hv : v < 2 ^ 32) :
    blkSize (mem.setDword a v) a = v := dword_setDword_self hv

theorem blkMagic_setDword_self (hv : v < 2 ^ 32) :
    blkMagic (mem.setDword (a + 4) v) a = v := dword_setDword_self hv

theorem blkNext_setDword_self (hv : v < 2 ^ 32) :
    blkNext (mem.setDword (a + 8) v) a = v := dword_setDword_self hv

end Fields

theorem HeapInv.lo_lt (h : HeapInv start frees loose held s)
    (he : e ∈ frees ++ (loose ++ held.map fst)) : e.lo < 2 ^ 32 ∧ 0 < e.lo := by
  have hb := h.layout.block he
  have hlt := h.brkLt
  have hpos := h.startPos
  have hwide := hb.wide
  have hlo := hb.lo
  have hhi := hb.hi
  constructor <;> omega

theorem HeapInv.hi_eq (h : HeapInv start frees loose held s)
    (he : e ∈ frees ++ (loose ++ held.map fst)) :
    (e.lo + hdrSize + blkSize s.mem e.lo) % 2 ^ 32 = e.hi := by
  have hlt : e.hi < 2 ^ 32 := lt_of_le_of_lt (h.layout.block he).hi h.brkLt
  rw [show e.lo + hdrSize + blkSize s.mem e.lo = e.hi from h.size e he, Nat.mod_eq_of_lt hlt]

/-- Bytes of a block that the invariant does not speak of: behind the size in a block that is being
moved, the payload in any block, the flag in a free one. -/
def Unread (frees loose : List Span) (g : Span) (lo hi : Nat) : Prop :=
  g ∈ loose ∧ g.lo + 4 ≤ lo ∨ g.lo + 12 ≤ lo ∨ g ∈ frees ∧ g.lo + 4 ≤ lo ∧ hi ≤ g.lo + 8

/-- A store to bytes that the allocator does not read keeps the invariant. -/
theorem HeapInv.write (h : HeapInv start frees loose held s)
    (hg : g ∈ frees ++ (loose ++ held.map fst))
    {lo hi : Nat} (hhi : hi ≤ g.hi) (hun : Unread frees loose g lo hi)
    (hsame : ∀ i, i < lo ∨ hi ≤ i → mem' i = s.mem i) :
    HeapInv start frees loose held { s with mem := mem' } := by
  have hlow : g.lo + 4 ≤ lo := by
    rcases hun with ⟨-, h⟩ | h | ⟨-, h, -⟩ <;> omega
  -- A double word in a block is the same when it is in another block or out of the stored bytes.
  have hword : ∀ e ∈ frees ++ (loose ++ held.map fst), ∀ off ≤ 8, (e = g → g.lo + off + 4 ≤ lo ∨
    hi ≤ g.lo + off) →
      mem'.dword (e.lo + off) = s.mem.dword (e.lo + off) := by
    intro e he off hoff hself
    refine dword_congr fun i hi1 hi2 => hsame i ?_
    by_cases heq : e = g
    · have := hself heq
      subst heq
      omega
    · have hw := (h.layout.block he).wide
      rcases h.layout.apart_of_ne he hg heq with hap | hap <;> omega
  have hnot : ∀ e ∈ frees ++ held.map fst, e = g → g ∉ loose := by
    rintro e he rfl hloose
    have hw := (h.layout.block hg).wide
    have hself : e.Apart e := by
      rcases mem_append.mp he with he | he
      · exact h.layout.apart e he e (mem_append_left _ hloose)
      · exact (pairwise_append.mp h.layout.takenApart).2.2 e hloose e he
    rcases hself with hself | hself <;> omega
  refine { h with list := ?_, size := ?_, magic := ?_ }
  · refine h.list.congr fun p hp => ?_
    obtain ⟨e, he, rfl⟩ := mem_map.mp hp
    refine hword e (mem_append_left _ he) 8 (le_refl _) fun heq => ?_
    rcases hun with ⟨hloose, -⟩ | hun | ⟨-, -, hun⟩
    · exact absurd hloose (hnot e (mem_append_left _ he) heq)
    · exact .inl (by omega)
    · exact .inr (by omega)
  · intro e he
    rw [← h.size e he]
    exact congrArg _ (hword e he 0 (by omega) fun _ => .inl (by omega))
  · intro x hx
    have hmem : x.1 ∈ held.map fst := mem_map_of_mem hx
    refine (hword x.1 (mem_append_right _ (mem_append_right _ hmem)) 4 (by omega)
      fun heq => ?_).trans (h.magic x hx)
    rcases hun with ⟨hloose, -⟩ | hun | ⟨hfree, -, -⟩
    · exact absurd hloose (hnot x.1 (mem_append_right _ hmem) heq)
    · exact .inl (by omega)
    · have hw := (h.layout.block hg).wide
      have hself := h.layout.apart g hfree g (heq ▸ mem_append_right _ hmem)
      rcases hself with hself | hself <;> omega

theorem HeapInv.store (h : HeapInv start frees loose held s)
    (hg : g ∈ frees ++ (loose ++ held.map fst))
    (off v : Nat) (hhi : off + 4 ≤ g.hi) (hun : Unread frees loose g off (off + 4)) :
    HeapInv start frees loose held (s.store off v) :=
  h.write hg hhi hun fun _ hi => setDword_apply_of_outside hi

/-! ## Moves -/

/-- A block that is given back is in no list yet. -/
theorem HeapInv.release (h : HeapInv start frees loose held s) {x : Span × Nat}
    {held' : List (Span × Nat)}
    (hp : held.Perm (x :: held')) : HeapInv start frees (x.1 :: loose) held' s := by
  have hperm : (loose ++ held.map fst).Perm (x.1 :: loose ++ held'.map fst) := by grind
  have hsub : ∀ y ∈ held', y ∈ held := fun y hy => hp.mem_iff.mpr (mem_cons_of_mem _ hy)
  refine { h with
    layout := h.layout.perm hperm
    size := ?_
    magic := fun y hy => h.magic y (hsub y hy)
    enough := fun y hy => h.enough y (hsub y hy) }
  intro e he
  exact h.size e ((hperm.append_left frees).mem_iff.mpr he)

/-- A loose block is given out. -/
theorem HeapInv.hold (h : HeapInv start frees (e :: loose) held s) {n : Nat}
    (hmagic : blkMagic s.mem e.lo = blkUsed)
    (hn : e.lo + 16 + n ≤ e.hi) : HeapInv start frees loose ((e, n) :: held) s := by
  have hperm : (e :: loose ++ held.map fst).Perm (loose ++ ((e, n) :: held).map fst) :=
    perm_middle.symm
  refine { h with layout := h.layout.perm hperm, size := ?_, magic := ?_, enough := ?_ }
  · intro f hf
    exact h.size f ((hperm.append_left frees).mem_iff.mpr hf)
  · grind
  · grind

theorem HeapInv.raise (h : HeapInv start frees loose held s) {bytes : Nat} (hbytes : 8 ∣ bytes)
    (hlt : s.brk + bytes < 2 ^ 32) (grants : List Bool) :
    HeapInv start frees loose held { s with brk := s.brk + bytes, grants } :=
  ⟨h.layout.raise bytes, h.startPos, h.startLe.trans (Nat.le_add_right ..),
    Nat.dvd_add h.brkAligned hbytes, hlt, h.list, h.size, h.magic, h.enough⟩

/-- `sbrk` adds a block behind the others. -/
theorem HeapInv.grow (h : HeapInv start frees loose held s) {bytes : Nat} (hbytes : 8 ∣ bytes)
    (hwide : 16 ≤ bytes) (hlt : s.brk + bytes < 2 ^ 32) (grants : List Bool) :
    HeapInv start frees (⟨s.brk, s.brk + bytes⟩ :: loose) held
      (CHeap.store s.brk (bytes - 16) { s with brk := s.brk + bytes, grants }) := by
  have hbelow : ∀ g ∈ frees ++ (loose ++ held.map fst), g.lo + 16 ≤ s.brk := by
    intro g hg
    have hb := h.layout.block hg
    exact hb.wide.trans hb.hi
  have hheld : ∀ x ∈ held, x.1 ∈ frees ++ (loose ++ held.map fst) := fun x hx =>
    mem_append_right _ (mem_append_right _ (mem_map_of_mem hx))
  refine ⟨h.layout.grow h.brkAligned hbytes hwide h.startLe, h.startPos,
    h.startLe.trans (Nat.le_add_right ..), Nat.dvd_add h.brkAligned hbytes, hlt, ?_, ?_,
    ?_, h.enough⟩
  · refine h.list.congr fun p hp => ?_
    obtain ⟨g, hg, rfl⟩ := mem_map.mp hp
    have hg' := hbelow g (mem_append_left _ hg)
    exact blkNext_setDword (.inr (by omega))
  · intro g hg
    have hcases : g = ⟨s.brk, s.brk + bytes⟩ ∨ g ∈ frees ++ (loose ++ held.map fst) := by grind
    rcases hcases with rfl | hg
    · simp only [CHeap.store_mem, blkSize_setDword_self (show bytes - 16 < 2 ^ 32 by omega)]
      omega
    · have hg' := hbelow g hg
      rw [← h.size g hg]
      exact congrArg _ (blkSize_setDword (.inr (by omega)))
  · intro x hx
    have hx' := hbelow x.1 (hheld x hx)
    exact (blkMagic_setDword (.inr (by omega))).trans (h.magic x hx)

/-! ## Links -/

theorem HeapInv.nodup (h : HeapInv start frees loose held s) : (frees.map Span.lo).Nodup := by
  refine pairwise_map.mpr (h.layout.sorted.imp_of_mem fun he _ hle heq => ?_)
  have hw := (h.layout.freeBlock _ he).wide
  omega

/-- The list behind a free block. -/
theorem HeapInv.next (h : HeapInv start (before ++ e :: after) loose held s) :
    Linked.Chain (blkNext s.mem) 0 (blkNext s.mem e.lo) (after.map Span.lo) := by
  have hlist :
    Linked.Chain (blkNext s.mem) 0 s.freeList
    ((before.map Span.lo ++ [e.lo]) ++ after.map Span.lo) := by
    simpa using h.list
  exact hlist.tail (by simp)

theorem link_lt {l : List Span} (hv : Linked.Chain (blkNext mem) 0 v (l.map Span.lo))
    (hl : ∀ g ∈ l, g.lo < 2 ^ 32) : v < 2 ^ 32 := by
  cases l with
  | nil => exact lt_of_eq_of_lt hv (by decide)
  | cons g l => exact hv.1 ▸ hl g (mem_cons_self ..)

/-- The free list after the blocks `before` becomes the list `l'` by one store, in the last of them
or in `free_list`. -/
theorem HeapInv.link {l l' : List Span} (loose' : List Span)
    (h : HeapInv start (before ++ l) loose held s)
    (hv : Linked.Chain (blkNext s.mem) 0 v (l'.map Span.lo))
    (hlayout : HeapLayout start s.brk (before ++ l') (loose' ++ held.map fst))
    (hsize : ∀ g ∈ l' ++ loose', g.lo + 16 + blkSize s.mem g.lo = g.hi) :
    HeapInv start (before ++ l') loose' held (s.link (before.getLast?.map Span.lo) v) := by
  have hbrkLt := h.brkLt
  have hmem : ∀ g ∈ (before ++ l') ++ (loose' ++ held.map fst), g.lo + 16 + blkSize s.mem g.lo =
    g.hi := by grind
  have hvlt : v < 2 ^ 32 := by
    refine link_lt hv fun g hg => ?_
    have hb := hlayout.freeBlock g (mem_append_right _ hg)
    have hw := hb.wide
    have hhi := hb.hi
    omega
  rcases eq_nil_or_concat before with rfl | ⟨init, q, rfl⟩
  · exact { h with layout := hlayout, list := hv, size := hmem }
  rw [concat_eq_append] at *
  have hlink : s.link ((init ++ [q]).getLast?.map Span.lo) v = s.store (q.lo + 8) v := by
    rw [getLast?_append, getLast?_singleton]
    rfl
  rw [hlink]
  have hq : q ∈ (init ++ [q]) ++ l' := by simp
  -- Blocks other than `q` are out of reach of the store.
  have hout : ∀ g ∈ (init ++ [q] ++ l') ++ (loose' ++ held.map fst), g ≠ q → g.lo + 16 ≤ q.lo ∨
    q.lo + 16 ≤ g.lo :=
    fun g hg hne => hlayout.header_apart hg (mem_append_left _ hq) hne
  refine { h with layout := hlayout, list := ?_, size := ?_, magic := ?_ }
  · have hlist := h.list
    rw [map_append] at hlist ⊢
    have hnodup := h.nodup
    rw [map_append] at hnodup
    have hsorted := hlayout.sorted
    rw [append_assoc, singleton_append] at hsorted
    refine hlist.splice (nodup_append.mp hnodup).1 (q := q.lo) (by simp) ?_ ?_
    · intro p hp hne
      obtain ⟨g, hg, rfl⟩ := mem_map.mp hp
      have hgq : g ≠ q := fun heq => hne (congrArg Span.lo heq)
      have hg' := hout g (mem_append_left _ (mem_append_left _ hg)) hgq
      exact blkNext_setDword (by omega)
    · rw [CHeap.store_mem, blkNext_setDword_self hvlt]
      refine hv.congr fun p hp => ?_
      obtain ⟨g, hg, rfl⟩ := mem_map.mp hp
      have hafter := (pairwise_cons.mp (pairwise_append.mp hsorted).2.1).1 g hg
      have hwq := (hlayout.freeBlock q hq).wide
      exact blkNext_setDword (.inl (by omega))
  · intro g hg
    rw [← hmem g hg]
    refine congrArg _ (blkSize_setDword ?_)
    by_cases hgq : g = q
    · subst hgq
      exact .inr (by omega)
    · have hg' := hout g hg hgq
      omega
  · intro x hx
    have hx' : x.1 ∈ loose' ++ held.map fst := mem_append_right _ (mem_map_of_mem hx)
    have hg' := hout x.1 (mem_append_right _ hx') (hlayout.ne_of_free hq hx')
    exact (blkMagic_setDword (by omega)).trans (h.magic x hx)

/-- The heap after `absorb`. -/
def absorbed (s : CHeap) (block next : Nat) : CHeap :=
  (s.store block (blkSize s.mem block + 16 + blkSize s.mem next)).store (block + 8)
    (blkNext s.mem next)

/-- The header of a free block is given another size, where that leaves the blocks apart. -/
theorem HeapInv.resize {loose' : List Span} (hi : Nat)
    (h : HeapInv start (before ++ e :: after) loose held s)
    (hlayout : HeapLayout start s.brk (before ++ ⟨e.lo, hi⟩ :: after) (loose' ++ held.map fst))
    (hsize : ∀ g ∈ loose', g.lo + 16 + blkSize s.mem g.lo = g.hi) :
    HeapInv start (before ++ ⟨e.lo, hi⟩ :: after) loose' held (s.store e.lo (hi - e.lo - 16)) := by
  have he : (⟨e.lo, hi⟩ : Span) ∈ before ++ ⟨e.lo, hi⟩ :: after := by simp
  have hwide : e.lo + 16 ≤ hi := (hlayout.freeBlock _ he).wide
  have hlt : hi < 2 ^ 32 := lt_of_le_of_lt (hlayout.freeBlock _ he).hi h.brkLt
  -- The store reaches no other header.
  have hout : ∀ g ∈ before ++ ⟨e.lo, hi⟩ :: after ++ (loose' ++ held.map fst), g ≠ ⟨e.lo, hi⟩ →
      g.lo + 16 ≤ e.lo ∨ e.lo + 16 ≤ g.lo :=
    fun g hg hne => hlayout.header_apart (f := ⟨e.lo, hi⟩) hg (mem_append_left _ he) hne
  refine { h with layout := hlayout, list := ?_, size := ?_, magic := ?_ }
  · have hlist :
      Linked.Chain (blkNext s.mem) 0 s.freeList ((before ++ ⟨e.lo, hi⟩ :: after).map Span.lo) := by
      simpa using h.list
    refine hlist.congr fun p hp => ?_
    obtain ⟨g, hg, rfl⟩ := mem_map.mp hp
    refine blkNext_setDword ?_
    by_cases hge : g = ⟨e.lo, hi⟩
    · subst hge
      exact .inl (Nat.le_add_right ..)
    · have hg' := hout g (mem_append_left _ hg) hge
      omega
  · intro g hg
    by_cases hge : g = ⟨e.lo, hi⟩
    · subst hge
      rw [CHeap.store_mem, blkSize_setDword_self (by omega)]
      dsimp only
      omega
    · have hg' := hout g hg hge
      rw [CHeap.store_mem, blkSize_setDword (by omega)]
      have hcases : g ∈ loose' ∨ g ∈ before ++ e :: after ++ (loose ++ held.map fst) := by grind
      exact hcases.elim (hsize g) (h.size g)
  · intro x hx
    have hx' : x.1 ∈ loose' ++ held.map fst := mem_append_right _ (mem_map_of_mem hx)
    have hg' := hout x.1 (mem_append_right _ hx') (hlayout.ne_of_free he hx')
    exact (blkMagic_setDword (by omega)).trans (h.magic x hx)

/-- Two free blocks that touch become one. -/
theorem HeapInv.join (h : HeapInv start (before ++ e :: f :: after) loose held s)
    (htouch : e.hi = f.lo) :
    HeapInv start (before ++ ⟨e.lo, f.hi⟩ :: after) loose held (absorbed s e.lo f.lo) := by
  have he : e ∈ before ++ e :: f :: after := by simp
  have hf : f ∈ before ++ e :: f :: after := by simp
  have hse := h.size e (mem_append_left _ he)
  have hsf := h.size f (mem_append_left _ hf)
  have hlayout := h.layout.join htouch
  obtain ⟨-, -, hnext⟩ := h.next
  rw [append_cons] at h
  have hlink := HeapInv.link (f :: loose) h hnext h.layout.remove (by grind)
  rw [getLast?_append, getLast?_singleton, append_assoc] at hlink
  have hjoin := HeapInv.resize f.hi hlink hlayout fun g hg =>
    hlink.size g (mem_append_right _ (mem_append_left _ (mem_cons_of_mem _ hg)))
  -- The stores are made in the other order.
  have hsum : f.hi - e.lo - 16 = blkSize s.mem e.lo + 16 + blkSize s.mem f.lo := by omega
  rw [hsum] at hjoin
  have hcomm : absorbed s e.lo f.lo = ((s.store (e.lo + 8) (blkNext s.mem f.lo)).store e.lo
      (blkSize s.mem e.lo + 16 + blkSize s.mem f.lo)) :=
    congrArg (fun mem => { s with mem }) (setDword_comm (.inr (by omega)))
  rw [hcomm]
  exact hjoin

/-- The upper part of a free block, whose header is written already, is cut off. -/
theorem HeapInv.cut (h : HeapInv start (before ++ e :: after) loose held s) {mid : Nat}
    (hmid : 8 ∣ mid)
    (hlo : e.lo + 16 ≤ mid) (hhi : mid + 16 ≤ e.hi) (hsize : mid + 16 + blkSize s.mem mid = e.hi) :
    HeapInv start (before ++ ⟨e.lo, mid⟩ :: after) (⟨mid, e.hi⟩ :: loose) held
      (s.store e.lo (mid - e.lo - 16)) := by
  obtain ⟨-, htail, hbefore⟩ := pairwise_append.mp h.layout.sorted
  have hafter := (pairwise_cons.mp htail).1
  refine HeapInv.resize mid h ((h.layout.remove.split hmid hlo hhi).insert ?_ ?_) ?_
  · grind
  · intro g hg
    have hle := hafter g hg
    simp only
    omega
  · rintro g (_ | ⟨_, hg⟩)
    · exact hsize
    · exact h.size g (mem_append_right _ (mem_append_left _ hg))

end Mellivora
