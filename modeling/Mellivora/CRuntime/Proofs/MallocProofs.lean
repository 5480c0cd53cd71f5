import Mellivora.CRuntime.Proofs.HeapInvProofs
import Mellivora.Lib.Outcome

/-!
# Proofs: the functions of the C heap

Every function of the allocator is a few moves of blocks between the free list, the blocks being
moved and those the program holds, and comes to an end.
-/

namespace Mellivora

open Outcome List Nat Prod

variable {n need : Nat} {x : Span × Nat} {start v : Nat} {frees loose before after : List Span}
  {held : List (Span × Nat)} {s : CHeap} {e f g : Span} {mem mem' : Buffer}

/-! ## The list and `free` -/

/-- The heap after a function that moves no block of the program: some free blocks, the same
break. -/
def Settled (start : Nat) (loose : List Span) (held : List (Span × Nat)) (brk : Nat)
    (s : CHeap) : Prop :=
  s.brk = brk ∧ ∃ frees, HeapInv start frees loose held s

/-- `absorb` joins two neighbours of the list. -/
theorem returns_absorb (h : HeapInv start (before ++ e :: f :: after) loose held s)
    (htouch : e.hi = f.lo) :
    Returns (absorb e.lo f.lo) (fun _ s' => s'.brk = s.brk ∧
      HeapInv start (before ++ ⟨e.lo, f.hi⟩ :: after) loose held s') s := by
  have he : e ∈ before ++ e :: f :: after := by simp
  have hf : f ∈ before ++ e :: f :: after := by simp
  have hse := h.size e (mem_append_left _ he)
  have hsf := h.size f (mem_append_left _ hf)
  have hflt : f.hi < 2 ^ 32 := lt_of_le_of_lt (h.layout.freeBlock f hf).hi h.brkLt
  have hwe := (h.layout.freeBlock e he).wide
  simp only [absorb, setBlkSize, setBlkNext, hdrSize, returns_rules]
  rw [mod_eq_of_lt (by omega), CHeap.store_mem, blkNext_setDword (.inl (by omega))]
  exact ⟨rfl, h.join htouch⟩

/-- `mergeForward` settles a block with its successor. -/
theorem returns_mergeForward (h : HeapInv start (before ++ e :: after) loose held s) :
    Returns (mergeForward e.lo) (fun _ s' => Settled start loose held s.brk s') s := by
  have he : e ∈ before ++ e :: after := by simp
  have hend := h.hi_eq (mem_append_left _ he)
  have hnext := h.next
  simp only [mergeForward, returns_rules]
  by_cases hcond : blkNext s.mem e.lo ≠ 0 ∧ (e.lo + hdrSize + blkSize s.mem e.lo) % 2 ^ 32 =
    blkNext s.mem e.lo
  · rw [if_pos hcond]
    obtain ⟨hne, htouch⟩ := hcond
    rw [hend] at htouch
    cases after with
    | nil => exact absurd hnext hne
    | cons f after =>
      obtain ⟨hf, -, -⟩ := hnext
      rw [hf] at htouch ⊢
      exact (returns_absorb h htouch).mono fun _ s' hs' => ⟨hs'.1, _, hs'.2⟩
  · rw [if_neg hcond]
    exact returns_pure.mpr ⟨rfl, _, h⟩

/-- The walk over the free list, with the blocks that the addresses stand for. -/
theorem HeapInv.walk (h : HeapInv start frees loose held s) (go : Nat → Bool) :
    ∃ before after p, frees = before ++ after ∧
      Linked.walk (blkNext s.mem) 0 go walkTurns none s.freeList =
      some (before.getLast?.map Span.lo, p) ∧
      Linked.Chain (blkNext s.mem) 0 p (after.map Span.lo) ∧
      (∀ f ∈ before, go f.lo) ∧ ∀ f, after.head? = some f → ¬ go f.lo := by
  have hlen : (frees.map Span.lo).length < walkTurns := by
    simpa using h.layout.length_lt h.brkLt h.startLe
  obtain ⟨l1, l2, p, hl, hwalk, hp, hpass, hstop⟩ := h.list.walk_eq go [] hlen
  obtain ⟨before, after, rfl, rfl, rfl⟩ := map_eq_append_iff.mp hl
  refine ⟨before, after, p, rfl, ?_, hp, ?_, ?_⟩
  · simpa [getLast?_map] using hwalk
  · intro f hf
    exact hpass f.lo (mem_map_of_mem hf)
  · intro f hf
    exact hstop f.lo (by rw [head?_map, hf]; rfl)

/-- The walk for an insertion ends at the block's place by address. -/
theorem HeapInv.findPlace (h : HeapInv start frees (e :: loose) held s) :
    ∃ before after p, frees = before ++ after ∧
      findPlace s e.lo = some (before.getLast?.map Span.lo, p) ∧
      Linked.Chain (blkNext s.mem) 0 p (after.map Span.lo) ∧
      (∀ f ∈ before, f.lo < e.lo) ∧ ∀ f ∈ after, e.lo ≤ f.lo := by
  obtain ⟨before, after, p, rfl, hwalk, hp, hpass, hstop⟩ := h.walk fun walk => walk < e.lo
  refine ⟨before, after, p, rfl, hwalk, hp, fun f hf => by simpa using hpass f hf, ?_⟩
  intro f hf
  cases after with
  | nil => cases hf
  | cons g after =>
  have hg : e.lo ≤ g.lo := by simpa using hstop g rfl
  rcases mem_cons.mp hf with rfl | hf
  · exact hg
  · have hmem : g ∈ before ++ g :: after := by simp
    have hwide := (h.layout.freeBlock g hmem).wide
    obtain ⟨-, hsorted, -⟩ := pairwise_append.mp h.layout.sorted
    have hle := (pairwise_cons.mp hsorted).1 f hf
    omega

@[simp] theorem CHeap.link_brk (prev : Option Nat) : (s.link prev v).brk = s.brk := by
  cases prev <;> rfl

/-- `list_insert` keeps the list sorted. -/
theorem returns_listInsert (h : HeapInv start frees (e :: loose) held s) :
    Returns (listInsert e.lo) (fun _ s' => s'.brk = s.brk ∧
      ∃ before after, HeapInv start (before ++ e :: after) loose held s') s := by
  have he : e ∈ frees ++ (e :: loose ++ held.map fst) := by simp
  have hwide := (h.layout.block he).wide
  have hpos := (h.lo_lt he).2
  simp only [listInsert, setBlkMagic, setBlkNext, setLink, returns_lift, returns_rules]
  have h1 := h.store he (e.lo + 4) blkFree (by omega) (.inl ⟨mem_cons_self .., le_refl _⟩)
  obtain ⟨before, after, p, rfl, hfind, hp, hbefore, hafter⟩ := h1.findPlace
  refine ⟨_, hfind, CHeap.link_brk _, before, after, ?_⟩
  have h2 := h1.store he (e.lo + 8) p (by omega) (.inl ⟨mem_cons_self .., by omega⟩)
  refine HeapInv.link _ h2 (l := after) ⟨rfl, by omega, ?_⟩ (h2.layout.insert hbefore hafter) ?_
  · have hplt : p < 2 ^ 32 := link_lt hp fun g hg =>
      (h.lo_lt (mem_append_left _ (mem_append_right _ hg))).1
    rw [CHeap.store_mem, blkNext_setDword_self hplt]
    refine hp.congr fun a ha => ?_
    obtain ⟨g, hg, rfl⟩ := mem_map.mp ha
    have hg' : g ∈ before ++ after := mem_append_right _ hg
    have hwg := (h.layout.freeBlock g hg').wide
    refine blkNext_setDword ?_
    rcases h.layout.apart g hg' e (mem_cons_self ..) with hap | hap <;> omega
  · intro g hg
    refine h2.size g ?_
    simp only [mem_append, mem_cons] at hg ⊢
    tauto

/-- The walk for the block before finds it. -/
theorem HeapInv.findPrev (h : HeapInv start frees loose held s) (he : e ∈ frees) :
    ∃ before after p, frees = before ++ e :: after ∧
    findPrev s e.lo = some (before.getLast?.map Span.lo, p) := by
  obtain ⟨before, after, p, rfl, hwalk, -, hpass, hstop⟩ := h.walk fun walk => walk ≠ e.lo
  have hin : e ∈ after := by grind
  cases after with
  | nil => cases hin
  | cons g after =>
  have hlo : g.lo = e.lo := by simpa using hstop g rfl
  have hge : g = e := by
    by_contra hne
    have hg : g ∈ before ++ g :: after := by simp
    have hwg := (h.layout.freeBlock g hg).wide
    have hwe := (h.layout.freeBlock e he).wide
    rcases h.layout.apart_of_ne (mem_append_left _ hg) (mem_append_left _ he) hne with
      hap | hap <;> omega
  exact ⟨before, after, p, by rw [hge], hwalk⟩

/-- The block before takes the block in if the two touch. -/
theorem returns_mergeBackward (h : HeapInv start (before ++ e :: after) loose held s) :
    Returns (mergeBackward (before.getLast?.map Span.lo) e.lo) (fun block s' => s'.brk = s.brk ∧
      ∃ before' g, block = g.lo ∧ HeapInv start (before' ++ g :: after) loose held s') s := by
  rcases eq_nil_or_concat before with rfl | ⟨init, q, rfl⟩
  · exact returns_pure.mpr ⟨rfl, [], e, rfl, h⟩
  rw [concat_eq_append] at *
  have hq : q ∈ init ++ [q] ++ e :: after := by simp
  have hend := h.hi_eq (mem_append_left _ hq)
  rw [getLast?_append, getLast?_singleton]
  simp only [Option.some_or, Option.map_some, mergeBackward, returns_rules]
  by_cases htouch : (q.lo + hdrSize + blkSize s.mem q.lo) % 2 ^ 32 = e.lo
  · rw [if_pos htouch, returns_bind]
    rw [hend] at htouch
    rw [append_assoc, singleton_append] at h
    exact (returns_absorb h htouch).mono fun _ s' hs' =>
      returns_pure.mpr ⟨hs'.1, init, ⟨q.lo, e.hi⟩, rfl, hs'.2⟩
  · rw [if_neg htouch]
    exact returns_pure.mpr ⟨rfl, _, e, rfl, h⟩

theorem blockOf_eq {lo : Nat} (h : lo < 2 ^ 32) : blockOf (lo + 16) = lo := by
  unfold blockOf hdrSize
  omega

/-- `free` of a block that is given out settles it in the list. -/
theorem returns_free (h : HeapInv start frees loose held s) {held' : List (Span × Nat)}
    (hp : held.Perm (x :: held')) :
    Returns (free (x.1.lo + 16)) (fun _ s' => Settled start loose held' s.brk s') s := by
  have hx : x ∈ held := hp.mem_iff.mpr (mem_cons_self ..)
  have hx' : x.1 ∈ frees ++ (loose ++ held.map fst) :=
    mem_append_right _ (mem_append_right _ (mem_map_of_mem hx))
  rw [free, if_neg (succ_ne_zero _)]
  simp only [blockOf_eq (h.lo_lt hx').1, returns_rules]
  rw [if_neg (not_not.mpr (h.magic x hx))]
  simp only [returns_lift, returns_rules]
  refine (returns_listInsert (h.release hp)).mono ?_
  rintro _ s1 ⟨hbrk1, before, after, h1⟩
  obtain ⟨before', after', p, heq, hfind⟩ := h1.findPrev (mem_append_right _ (mem_cons_self ..))
  refine ⟨_, hfind, ?_⟩
  rw [heq] at h1
  refine (returns_mergeBackward h1).mono ?_
  rintro _ s2 ⟨hbrk2, before2, g, rfl, h2⟩
  refine (returns_mergeForward h2).mono fun _ s3 hs3 => ?_
  rwa [hbrk2, hbrk1] at hs3

/-! ## `malloc` -/

theorem dvd_align8 (n : Nat) : 8 ∣ align8 n := ⟨(n + 7) % 2 ^ 32 / 8, mul_comm ..⟩

theorem align8_lt (n : Nat) : align8 n < 2 ^ 32 := by
  unfold align8
  omega

theorem le_align8 (h : n ≤ maxRequest) : n ≤ align8 n := by
  unfold maxRequest at h
  unfold align8
  omega

theorem growSize_bounds (h : 8 ∣ need) :
    8 ∣ growSize need ∧ 4096 ≤ growSize need ∧ growSize need < 2 ^ 32 := by
  refine ⟨dvd_align8 _, ?_, align8_lt _⟩
  have hmax : max ((need + hdrSize) % 2 ^ 32) growMin ≤ maxRequest := by
    unfold maxRequest growMin hdrSize
    omega
  exact (le_max_right ..).trans (le_align8 hmax)

/-- The stores of `malloc` that put the cut-off part in the place of the block, in the order in
which they could also be done. -/
theorem CHeap.link_setNext {prev : Option Nat} {block rest : Nat}
    (hblock : ∀ q, prev = some q → q + 4 ≤ block ∨ block + 4 ≤ q)
    (hrest : ∀ q, prev = some q → q + 4 ≤ rest ∨ rest + 4 ≤ q) :
    (s.link prev v).store (rest + 8) (blkNext (s.link prev v).mem block) =
      (s.store (rest + 8) (blkNext s.mem block)).link prev v := by
  cases prev with
  | none => rfl
  | some q =>
    have hb := hblock q rfl
    have hr := hrest q rfl
    simp only [CHeap.link, CHeap.store]
    rw [blkNext_setDword (by omega), Buffer.setDword_comm (by omega)]

theorem HeapInv.last_apart (h : HeapInv start (before ++ frees) loose held s)
    (he : e ∈ frees ++ (loose ++ held.map fst)) {q : Nat}
    (hq : before.getLast?.map Span.lo = some q) :
    q + 16 ≤ e.lo ∨ e.hi ≤ q := by
  obtain ⟨g, hlast, rfl⟩ := Option.map_eq_some_iff.mp hq
  have hg : g ∈ before := mem_of_getLast? hlast
  have hwg := (h.layout.freeBlock g (mem_append_left _ hg)).wide
  have hap : g.Apart e := by
    rcases mem_append.mp he with he | he
    · exact .inl ((pairwise_append.mp h.layout.sorted).2.2 g hg e he)
    · exact h.layout.apart g (mem_append_left _ hg) e he
  rcases hap with hap | hap
  · exact .inl (by omega)
  · exact .inr (by omega)

/-- The rest of a split goes to the block's place in the list. -/
theorem returns_mallocSplit (h : HeapInv start (before ++ e :: after) [] held s)
    (hneed : 8 ∣ need) (hroom : e.lo + 16 + need + 24 ≤ e.hi) :
    Returns (mallocSplit need (before.getLast?.map Span.lo) e.lo)
      (fun _ s' => Settled start [⟨e.lo, e.lo + 16 + need⟩] held s.brk s') s := by
  have he : e ∈ (before ++ e :: after) ++ ([] ++ held.map fst) := by simp
  have hb := h.layout.block he
  have hlt : e.hi < 2 ^ 32 := lt_of_le_of_lt hb.hi h.brkLt
  have hsize := h.size e he
  have hrestSize : (blkSize s.mem e.lo + 2 ^ 33 - need - 16) % 2 ^ 32 =
    e.hi - (e.lo + 16 + need) - 16 := by
    omega
  have hmid : (e.lo + 16 + need) % 2 ^ 32 = e.lo + 16 + need := mod_eq_of_lt (by omega)
  simp only [mallocSplit, setBlkSize, setBlkPad, setBlkNext, setBlkMagic, setLink, hdrSize, hmid,
    hrestSize, returns_rules]
  generalize hm : e.lo + 16 + need = mid at *
  have hmid8 : 8 ∣ mid := by
    have := hb.loAligned
    omega
  have h1 := h.store he mid (e.hi - mid - 16) (by omega) (.inr (.inl (by omega)))
  have h2 := h1.store he (mid + 12) 0 (by omega) (.inr (.inl (by omega)))
  have h3 := h2.cut hmid8 (by omega) (by omega) (by
    rw [CHeap.store_mem, CHeap.store_mem, blkSize_setDword (by omega),
      blkSize_setDword_self (by omega)]
    omega)
  have hneedEq : mid - e.lo - 16 = need := by omega
  rw [hneedEq] at h3
  have hrest : (⟨mid, e.hi⟩ : Span) ∈
      (before ++ ⟨e.lo, mid⟩ :: after) ++ ([⟨mid, e.hi⟩] ++ held.map fst) := by
    simp
  have hblock : (⟨e.lo, mid⟩ : Span) ∈ (⟨e.lo, mid⟩ :: after) ++
    ([⟨mid, e.hi⟩] ++ held.map fst) := by
    simp
  have hbrk3 : (((s.store mid (e.hi - mid - 16)).store (mid + 12) 0).store e.lo need).brk = s.brk :=
    rfl
  generalize ((s.store mid (e.hi - mid - 16)).store (mid + 12) 0).store e.lo need = s3 at h3 hbrk3 ⊢
  rw [CHeap.link_setNext]
  · have h4 := h3.store hrest (mid + 8) (blkNext s3.mem e.lo) (by simp only; omega)
      (.inl ⟨mem_singleton_self _, by simp only; omega⟩)
    have hlayout : HeapLayout start s3.brk (before ++ ⟨mid, e.hi⟩ :: after)
      ([⟨e.lo, mid⟩] ++ held.map fst) := by
      obtain ⟨-, htail, hbefore⟩ := pairwise_append.mp h.layout.sorted
      refine (h3.layout.remove.perm (List.Perm.swap ..)).insert ?_ ?_
      · intro g hg
        have hw := (h.layout.freeBlock g (mem_append_left _ hg)).wide
        have hle := hbefore g hg e (mem_cons_self ..)
        simp only
        omega
      · intro g hg
        have hle := (pairwise_cons.mp htail).1 g hg
        simp only
        omega
    have hlist : Linked.Chain (blkNext (s3.store (mid + 8) (blkNext s3.mem e.lo)).mem) 0 mid
        ((⟨mid, e.hi⟩ :: after : List Span).map Span.lo) := by
      refine ⟨rfl, by simp only; omega, ?_⟩
      have htail : Linked.Chain _ 0 (blkNext _ e.lo) _ := h4.next
      rw [CHeap.store_mem] at htail ⊢
      rw [blkNext_setDword (by omega)] at htail
      have hself : blkNext (s3.mem.setDword (mid + 8) (blkNext s3.mem e.lo)) mid =
        blkNext s3.mem e.lo :=
        blkNext_setDword_self (Buffer.dword_lt ..)
      show Linked.Chain _ 0 (blkNext _ mid) _
      rwa [hself]
    have h5 := HeapInv.link _ h4 hlist hlayout fun g hg => h4.size g (by
      simp only [mem_append, mem_cons] at hg ⊢
      tauto)
    have h6 := h5.store (g := ⟨mid, e.hi⟩) (by simp) (mid + 4) blkFree (by simp only; omega)
      (.inr (.inr ⟨by simp, le_refl _, by simp only; omega⟩))
    refine (returns_mergeForward h6).mono fun _ s' hs' => ?_
    rwa [CHeap.store_brk, CHeap.link_brk, CHeap.store_brk, hbrk3] at hs'
  · intro q hq
    have := h3.last_apart hblock hq
    simp only at this
    omega
  · intro q hq
    have := h3.last_apart (mem_append_right _ (mem_cons_self ..)) hq
    simp only at this
    omega

/-- A block with room for `need` bytes is taken from the free list for `n` of them. -/
theorem returns_mallocTake (h : HeapInv start (before ++ e :: after) [] held s)
    (hneed : 8 ∣ need) (hn : n ≤ need) (hfit : need ≤ blkSize s.mem e.lo) :
    Returns (mallocTake need (before.getLast?.map Span.lo) e.lo) (fun p s' => p = e.lo + 16 ∧
      s'.brk = s.brk ∧ ∃ frees hi, HeapInv start frees [] ((⟨e.lo, hi⟩, n) :: held) s') s := by
  have he : e ∈ (before ++ e :: after) ++ ([] ++ held.map fst) := by simp
  have hb := h.layout.block he
  have hlt : e.hi < 2 ^ 32 := lt_of_le_of_lt hb.hi h.brkLt
  have hsize := h.size e he
  have hpos := (h.lo_lt he).2
  -- What is left to do once the block is out of the list.
  have hfinish : ∀ hi s1, e.lo + 16 + need ≤ hi → Settled start [⟨e.lo, hi⟩] held s.brk s1 →
      Returns (do setBlkNext e.lo 0; setBlkMagic e.lo blkUsed; return (e.lo + hdrSize) % 2 ^ 32)
        (fun p s' => p = e.lo + 16 ∧ s'.brk = s.brk ∧
          ∃ frees hi, HeapInv start frees [] ((⟨e.lo, hi⟩, n) :: held) s') s1 := by
    rintro hi s1 hhi ⟨hbrk, frees, h1⟩
    have hin : (⟨e.lo, hi⟩ : Span) ∈ frees ++ ([⟨e.lo, hi⟩] ++ held.map fst) := by simp
    simp only [setBlkNext, setBlkMagic, returns_rules]
    refine ⟨mod_eq_of_lt (by unfold hdrSize; omega), hbrk, frees, hi, ?_⟩
    have h2 :=
      h1.store hin (e.lo + 8) 0 (by simp only; omega)
      (.inl ⟨mem_singleton_self _, by simp only; omega⟩)
    have h3 :=
      h2.store hin (e.lo + 4) blkUsed (by simp only; omega) (.inl ⟨mem_singleton_self _, le_refl _⟩)
    refine h3.hold ?_ (by simp only; omega)
    exact blkMagic_setDword_self (by decide)
  rw [mallocTake, returns_bind, returns_get]
  by_cases hsplit : (need + minSplit) % 2 ^ 32 ≤ blkSize s.mem e.lo
  · rw [if_pos hsplit, returns_bind]
    -- `need + MIN_SPLIT` cannot wrap: no block is that large.
    have hroom : e.lo + 16 + need + 24 ≤ e.hi := by
      have hlo8 := hb.loAligned
      unfold minSplit hdrSize at hsplit
      omega
    exact (returns_mallocSplit h hneed hroom).mono fun _ s1 hs1 => hfinish _ s1 (le_refl _) hs1
  · rw [if_neg hsplit, returns_bind, returns_get, returns_bind, setLink, returns_modify]
    refine hfinish e.hi _ (by omega) ⟨CHeap.link_brk _, before ++ after, ?_⟩
    refine HeapInv.link _ h h.next h.layout.remove fun g hg => h.size g ?_
    simp only [mem_append, mem_cons] at hg ⊢
    tauto

/-- The first-fit search finds a block of the list that is large enough, or none. -/
theorem HeapInv.findFit (h : HeapInv start frees loose held s) (need : Nat) :
    ∃ before after p, frees = before ++ after ∧
      findFit s need = some (before.getLast?.map Span.lo, p) ∧
      (after = [] ∧ p = 0 ∨ ∃ e after', after = e :: after' ∧ p = e.lo ∧
        need ≤ blkSize s.mem e.lo) := by
  obtain ⟨before, after, p, rfl, hwalk, hp, -, hstop⟩ :=
    h.walk fun block => blkSize s.mem block < need
  refine ⟨before, after, p, rfl, hwalk, ?_⟩
  cases after with
  | nil => exact .inl ⟨rfl, hp⟩
  | cons e after => exact .inr ⟨e, after, rfl, hp.1, by simpa using hstop e rfl⟩

/-- What a request ends in: a refusal, or a new block of at least `n` bytes that is held. -/
def Given (start : Nat) (held : List (Span × Nat)) (n p : Nat) (s : CHeap) : Prop :=
  (p = 0 ∧ ∃ frees, HeapInv start frees [] held s) ∨
    ∃ e frees, p = e.lo + 16 ∧ HeapInv start frees [] ((e, n) :: held) s

/-- The heap grows by a free block, or `sbrk` refuses. -/
theorem returns_growHeap (h : HeapInv start frees loose held s) {bytes : Nat} (hbytes : 8 ∣ bytes) :
    Returns (growHeap bytes) (fun p s' => (p = 0 ∧ HeapInv start frees loose held s') ∨
      p = s.brk ∧ p ≠ 0 ∧ s.brk + bytes < 2 ^ 32 ∧
        s' = { s with brk := s.brk + bytes, grants := s.grants.tail }) s := by
  have hpos := h.startPos
  have hle := h.startLe
  simp only [growHeap, mvSbrk, returns_rules]
  by_cases hgrant : (s.grants.headD false && decide (s.brk + bytes < 2 ^ 32)) = true
  · have hlt : s.brk + bytes < 2 ^ 32 := of_decide_eq_true (Bool.and_eq_true_iff.mp hgrant).2
    simp only [hgrant, if_true]
    by_cases hneg : 2 ^ 31 ≤ s.brk
    · rw [if_pos hneg]
      exact .inl ⟨rfl, h.raise hbytes hlt _⟩
    · rw [if_neg hneg]
      exact .inr ⟨rfl, by omega, hlt, trivial⟩
  · simp only [hgrant, Bool.false_eq_true, if_false]
    exact .inl ⟨by decide, { h with }⟩

/-- The loop of `malloc` ends, and a block that it ends with is large enough. -/
theorem returns_mallocLoop (hneed : 8 ∣ need) {turns : Nat}
    (h : HeapInv start frees [] held s) (hturns : 2 ^ 32 ≤ s.brk + 4096 * turns) :
    Returns (mallocLoop need turns) (fun r s' =>
      (r.2 = 0 ∧ ∃ frees, HeapInv start frees [] held s') ∨
      ∃ before e after, r = (before.getLast?.map Span.lo, e.lo) ∧ need ≤ blkSize s'.mem e.lo ∧
        HeapInv start (before ++ e :: after) [] held s') s := by
  induction turns generalizing frees s with
  | zero =>
    have := h.brkLt
    omega
  | succ turns ih =>
  obtain ⟨before, after, p, rfl, hfind, hfit⟩ := h.findFit need
  obtain ⟨hgrow8, hgrowMin, hgrowLt⟩ := growSize_bounds hneed
  simp only [mallocLoop, returns_lift, returns_rules]
  refine ⟨_, hfind, ?_⟩
  rcases hfit with ⟨rfl, rfl⟩ | ⟨e, after, rfl, rfl, hfit⟩
  · rw [if_neg (not_not.mpr rfl)]
    rw [returns_bind]
    refine (returns_growHeap h hgrow8).mono ?_
    rintro fresh s1 (⟨rfl, h1⟩ | ⟨rfl, hne, hlt, rfl⟩)
    · rw [if_pos rfl, returns_pure]
      exact .inl ⟨rfl, _, h1⟩
    rw [if_neg hne]
    simp only [setBlkSize, returns_rules]
    have hfresh := h.grow hgrow8 (by omega) hlt s.grants.tail
    refine (returns_listInsert hfresh).mono ?_
    rintro _ s2 ⟨hbrk, before', after', h2⟩
    refine ih h2 ?_
    rw [hbrk, CHeap.store_brk]
    simp only
    omega
  · have hpos := (h.lo_lt (e := e) (by simp)).2
    rw [if_pos (by omega), returns_pure]
    exact .inr ⟨before, e, after, rfl, hfit, h⟩

/-- `malloc` always returns: a block of the size asked for, or 0. -/
theorem returns_malloc (h : HeapInv start frees [] held s) (hn : n ≤ maxRequest) :
    Returns (malloc n) (fun p s' => Given start held n p s') s := by
  have hturns : 2 ^ 32 ≤ s.brk + 4096 * growTurns := by
    unfold growTurns
    omega
  have hneed : n ≤ align8 (if n = 0 then 1 else n) := by
    by_cases hzero : n = 0
    · omega
    · rw [if_neg hzero]
      exact le_align8 hn
  rw [malloc, returns_bind]
  refine (returns_mallocLoop (dvd_align8 _) h hturns).mono ?_
  rintro ⟨prev, block⟩ s1 (⟨rfl, frees1, h1⟩ | ⟨before, e, after, heq, hfit, h1⟩)
  · simp only [if_true, returns_pure]
    exact .inl ⟨rfl, frees1, h1⟩
  obtain ⟨rfl, rfl⟩ := mk.inj heq
  have hpos := (h1.lo_lt (e := e) (by simp)).2
  simp only
  rw [if_neg (by omega)]
  refine (returns_mallocTake h1 (dvd_align8 _) hneed hfit).mono ?_
  rintro p s2 ⟨rfl, -, frees2, hi, h2⟩
  exact .inr ⟨⟨e.lo, hi⟩, frees2, rfl, h2⟩

/-! ## `calloc` and `realloc` -/

theorem memset_apply_of_outside {dst i : Nat} {v : UInt8} (hlt : dst + n ≤ 2 ^ 32)
    (hi : i < dst ∨ dst + n ≤ i) : memset dst v n mem i = mem i := by
  induction n generalizing dst mem with
  | zero => rfl
  | succ n ih =>
    rw [memset]
    cases n with
    | zero => exact Function.update_of_ne (by omega) _ _
    | succ n => grind

theorem memcpy_apply_of_outside {dst src i : Nat} (hlt : dst + n ≤ 2 ^ 32)
    (hi : i < dst ∨ dst + n ≤ i) : memcpy dst src n mem i = mem i := by
  induction n generalizing dst src mem with
  | zero => rfl
  | succ n ih =>
    rw [memcpy]
    cases n with
    | zero => exact Function.update_of_ne (by omega) _ _
    | succ n => grind

theorem HeapInv.writeHeld (h : HeapInv start frees loose held s) (hx : x ∈ held) {lo hi : Nat}
    (hlo : x.1.lo + 16 ≤ lo)
    (hhi : hi ≤ x.1.lo + 16 + x.2) (hsame : ∀ i, i < lo ∨ hi ≤ i → mem' i = s.mem i) :
    HeapInv start frees loose held { s with mem := mem' } :=
  h.write (mem_append_right _ (mem_append_right _ (mem_map_of_mem hx)))
    (hhi.trans (h.enough x hx)) (.inr (.inl (by omega))) hsame

theorem HeapInv.hi_lt (h : HeapInv start frees loose held s) (hx : x ∈ held) :
    x.1.lo + 16 + x.2 < 2 ^ 32 := by
  have henough := h.enough x hx
  have hhi := (h.layout.takenBlock x.1 (mem_append_right _ (mem_map_of_mem hx))).hi
  have hlt := h.brkLt
  omega

/-- `calloc` always returns: a block of the product's size, or 0. -/
theorem returns_calloc (h : HeapInv start frees [] held s) {count size : Nat}
    (hfits : count * size ≤ maxRequest ∨ 2 ^ 32 ≤ count * size) :
    Returns (calloc count size) (fun p s' => Given start held (count * size) p s') s := by
  rw [calloc]
  by_cases hover : count ≠ 0 ∧ 0xFFFFFFFF / count < size
  · rw [if_pos hover, returns_pure]
    exact .inl ⟨rfl, frees, h⟩
  rw [if_neg hover]
  have hle : count * size ≤ maxRequest := by
    rcases hfits with hfits | hfits
    · exact hfits
    · exfalso
      refine hover ⟨by rintro rfl; omega, ?_⟩
      rw [div_lt_iff_lt_mul (pos_of_ne_zero (by rintro rfl; omega))]
      rw [mul_comm]
      omega
  simp only [returns_bind]
  refine (returns_malloc h hle).mono ?_
  rintro p s1 (⟨rfl, hs1⟩ | ⟨e, frees1, rfl, h1⟩)
  · rw [if_neg (not_not.mpr rfl)]
    exact returns_pure.mpr (.inl ⟨rfl, hs1⟩)
  · rw [if_pos (succ_ne_zero _), returns_bind, returns_modify, returns_pure]
    have hlt := h1.hi_lt (mem_cons_self ..)
    refine .inr ⟨e, frees1, rfl, h1.writeHeld (mem_cons_self ..) (le_refl _) (le_refl _) ?_⟩
    intro i hi
    exact memset_apply_of_outside (by simp only at hlt; omega) hi

/-- `realloc` of a block that the program holds: it is freed, nothing happens, or it is
exchanged. -/
theorem returns_realloc (h : HeapInv start frees [] held s) {held' : List (Span × Nat)}
    (hp : held.Perm (x :: held')) (hn : n ≤ maxRequest) :
    Returns (realloc (x.1.lo + 16) n) (fun p s' =>
      if p = 0 ∧ n ≠ 0 then ∃ frees, HeapInv start frees [] held s' else Given start held' n p s')
        s := by
  have hx : x ∈ held := hp.mem_iff.mpr (mem_cons_self ..)
  have hx' : x.1 ∈ frees ++ ([] ++ held.map fst) :=
    mem_append_right _ (mem_append_right _ (mem_map_of_mem hx))
  have hblock := blockOf_eq (h.lo_lt hx').1
  rw [realloc, if_neg (succ_ne_zero _)]
  by_cases hzero : n = 0
  · rw [if_pos hzero, returns_bind]
    refine (returns_free h hp).mono fun _ s1 hs1 => returns_pure.mpr ?_
    rw [if_neg (by omega)]
    exact .inl ⟨rfl, hs1.2⟩
  rw [if_neg hzero]
  simp only [hblock, returns_rules]
  rw [if_neg (not_not.mpr (h.magic x hx))]
  by_cases hfit : align8 n ≤ blkSize s.mem x.1.lo
  · rw [if_pos hfit, returns_pure, if_neg (fun hc => succ_ne_zero _ hc.1)]
    have hroom := (le_align8 hn).trans hfit
    have hsize := h.size x.1 hx'
    exact .inr ⟨x.1, frees, rfl, (h.release hp).hold (h.magic x hx) (by omega)⟩
  rw [if_neg hfit, returns_bind]
  refine (returns_malloc h hn).mono ?_
  rintro p s1 (⟨rfl, hs1⟩ | ⟨e, frees1, rfl, h1⟩)
  · rw [if_pos rfl, returns_pure, if_pos ⟨rfl, hzero⟩]
    exact hs1
  rw [if_neg (succ_ne_zero _)]
  simp only [returns_bind, returns_modify]
  have hlt := h1.hi_lt (mem_cons_self ..)
  set len := min (blkSize s1.mem x.1.lo) n with hlen
  have hsame : ∀ i, i < e.lo + 16 ∨ e.lo + 16 + len ≤ i →
    memcpy (e.lo + 16) (x.1.lo + 16) len s1.mem i = s1.mem i :=
    fun i hi => memcpy_apply_of_outside (by simp only at hlt; omega) hi
  have h2 := h1.writeHeld (mem_cons_self ..) (le_refl _) (by simp only; omega) hsame
  have hperm : ((e, n) :: held).Perm (x :: (e, n) :: held') :=
    (hp.cons (e, n)).trans (List.Perm.swap ..)
  refine (returns_free h2 hperm).mono ?_
  rintro _ s3 ⟨-, frees3, h3⟩
  rw [returns_pure, if_neg (fun hc => succ_ne_zero _ hc.1)]
  exact .inr ⟨e, frees3, rfl, h3⟩

end Mellivora
