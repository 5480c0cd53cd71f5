import Mellivora.Lib.Outcome
import Mellivora.Lib.Runs
import Mellivora.Kernel.Pmm
import Mathlib.Data.Finset.Card
import Mathlib.Tactic.IntervalCases
import Mathlib.Tactic.Linarith

/-!
# The free lists tile the memory

The free lists, the block that is just being moved and the blocks that callers hold tile the seeded
pages at every point of every routine. Splitting, joining, linking and unlinking are steps from one
such state to the next, and each routine is a sequence of these.
-/

namespace Mellivora

open Outcome Linked Buddy Function List Nat

variable {l : List Nat} {count left order page x : Nat}

/-! ## The lists as blocks -/

/-- The blocks on the lists of the first `n` orders. -/
def freeBlocks (lists : Nat → List Nat) : (n : Nat) → List Block
  | 0 => []
  | n + 1 => freeBlocks lists n ++ (lists n).map fun page => ⟨page, n⟩

variable {lists : Nat → List Nat} {b : Block} {n k : Nat}

/-- The free blocks are those of the lists. -/
theorem mem_freeBlocks : b ∈ freeBlocks lists n ↔ b.order < n ∧ b.page ∈ lists b.order := by
  induction n with
  | zero => simp [freeBlocks]
  | succ n ih =>
  rw [freeBlocks, mem_append, ih, mem_map]
  constructor
  · grind
  · rintro ⟨hlt, hmem⟩
    rcases eq_or_lt_of_le (le_of_lt_succ hlt) with rfl | hlt
    · exact .inr ⟨b.page, hmem, rfl⟩
    · exact .inl ⟨hlt, hmem⟩

theorem freeBlocks_update_of_le (hk : n ≤ k) (l : List Nat) :
    freeBlocks (update lists k l) n = freeBlocks lists n := by
  induction n with
  | zero => rfl
  | succ n ih => rw [freeBlocks, freeBlocks, ih (by omega), update_of_ne (by omega)]

theorem freeBlocks_perm (lists : Nat → List Nat) (hk : k < n) {l' : List Nat}
    (hl : l.Perm (page :: l')) :
    (freeBlocks (update lists k l) n).Perm
      (⟨page, k⟩ :: freeBlocks (update lists k l') n) := by
  induction n with
  | zero => omega
  | succ n ih =>
  rcases eq_or_lt_of_le (le_of_lt_succ hk) with rfl | hlt
  · rw [freeBlocks, freeBlocks, freeBlocks_update_of_le le_rfl, freeBlocks_update_of_le le_rfl,
      update_self, update_self]
    refine ((hl.map _).append_left _).trans ?_
    exact perm_middle
  · rw [freeBlocks, freeBlocks, update_of_ne (by omega), update_of_ne (by omega)]
    exact (ih hlt).append_right _

theorem nodup_of_freeBlocks (h : (freeBlocks lists n).Nodup) (hk : k < n) : (lists k).Nodup := by
  induction n with
  | zero => omega
  | succ n ih =>
    obtain ⟨hlow, hlast, -⟩ := nodup_append.mp h
    rcases eq_or_lt_of_le (le_of_lt_succ hk) with rfl | hlt
    · exact List.Nodup.of_map _ hlast
    · exact ih hlow hlt

attribute [irreducible] freeBlocks

/-! ## The state in the middle of a routine -/

/-- The blocks on the lists, blocks that are marked free and on no list, and the blocks in use tile
`X`. If `C` is asked for, no buddies are on the lists together. -/
structure Buddies (C : Prop) (top : Nat) (X : Set Nat) (lists : Nat → List Nat)
    (loose held : List Block) (s : Pmm) : Prop where
  chain : ∀ k < buddyOrders, Chain s.link pmmFreeListNil (s.buddyFreeList k) (lists k)
  tiles : Tiles (freeBlocks lists buddyOrders ++ (loose ++ held)) X
  bitmap : ∀ x, s.bitmap x = false ↔ ∃ b ∈ freeBlocks lists buddyOrders ++ loose, x ∈ b.pages
  memTop : s.pmmMemTop = top
  canon : C → NoBuddies (buddyOrders - 1) (freeBlocks lists buddyOrders)

variable {C : Prop} {top : Nat} {X : Set Nat} {loose held : List Block} {s : Pmm}

theorem Buddies.notMem (h : Buddies C top X lists loose held s) (hb : b ∈ loose ++ held)
    (hx : x ∈ b.pages) (hk : k < buddyOrders) : x ∉ lists k := by
  intro hmem
  have hdisj := (pairwise_append.mp h.tiles.disjoint).2.2 ⟨x, k⟩
    (mem_freeBlocks.mpr ⟨hk, hmem⟩) b hb
  exact Set.disjoint_left.mp hdisj (Block.page_mem_pages ⟨x, k⟩) hx

theorem Buddies.mem_set (h : Buddies C top X lists loose held s)
    (hb : b ∈ freeBlocks lists buddyOrders ++ (loose ++ held)) (hx : x ∈ b.pages) : x ∈ X :=
  (h.tiles.cover x).mpr ⟨b, hb, hx⟩

/-- Exactly the pages of the range are marked. -/
theorem markPages_apply (used : Bool) (page cnt : Nat) (bitmap : Nat → Bool) (x : Nat) :
    markPages used page cnt bitmap x = if page ≤ x ∧ x < page + cnt then used else bitmap x := by
  induction cnt generalizing page bitmap with
  | zero =>
    rw [if_neg (by omega)]
    rfl
  | succ cnt ih =>
    rw [markPages, ih]
    by_cases hx : x = page
    · grind
    · rw [update_of_ne hx]
      exact if_congr (by omega) rfl rfl

theorem markPages_block (used : Bool) (b : Block) (bitmap : Nat → Bool) (x : Nat)
    [Decidable (x ∈ b.pages)] :
    markPages used b.page (2 ^ b.order) bitmap x = if x ∈ b.pages then used else bitmap x := by
  rw [markPages_apply]
  exact if_congr Iff.rfl rfl rfl

/-! ## The steps -/

/-- A block that is freed is in no list yet. -/
theorem Buddies.release (h : Buddies C top X lists loose (b :: held) s) :
    Buddies C top X lists (b :: loose) held
      { s with bitmap := markPages false b.page (2 ^ b.order) s.bitmap } := by
  classical
  refine { h with tiles := h.tiles.perm ?_, bitmap := fun x => ?_ }
  · exact List.Perm.append_left _ perm_middle
  simp only [markPages_block]
  split
  · next hx =>
    simp only [true_iff]
    exact ⟨b, by simp, hx⟩
  · next hx =>
    rw [h.bitmap x]
    constructor
    · grind
    · grind

/-- The lists with the block `b` in front of those of its order. -/
def pushed (lists : Nat → List Nat) (b : Block) : Nat → List Nat :=
  update lists b.order (b.page :: lists b.order)

theorem freeBlocks_pushed (lists : Nat → List Nat) (hb : b.order < buddyOrders) :
    (freeBlocks (pushed lists b) buddyOrders).Perm (b :: freeBlocks lists buddyOrders) := by
  have hperm := freeBlocks_perm lists hb (List.Perm.refl (b.page :: lists b.order))
  rwa [update_eq_self] at hperm

theorem pagesLt_ne_nil (hX : ∀ x ∈ X, x < 2 ^ 20) (hx : x ∈ X) : x ≠ pmmFreeListNil := by
  have := hX x hx
  unfold pmmFreeListNil
  omega

/-- A block goes to its list. -/
theorem Buddies.link (h : Buddies C top X lists (b :: loose) held s) (hX : ∀ x ∈ X, x < 2 ^ 20)
    (hb : b.order < buddyOrders) (hbuddy : C → b.order < buddyOrders - 1 →
      b.buddy ∉ freeBlocks lists buddyOrders) :
    Buddies C top X (pushed lists b) loose held (linkBlock b.page b.order s) := by
  have hperm := freeBlocks_pushed lists hb
  have hnil : b.page ≠ pmmFreeListNil :=
    pagesLt_ne_nil hX (h.mem_set (b := b) (by simp) b.page_mem_pages)
  refine ⟨fun k hk => ?_, h.tiles.perm ?_, fun x => ?_, h.memTop, fun hC => ?_⟩
  · have hnot : b.page ∉ lists k := h.notMem (b := b) (by simp) b.page_mem_pages hk
    unfold linkBlock pushed
    dsimp only
    by_cases heq : k = b.order
    · subst heq
      rw [update_self, update_self]
      exact (h.chain _ hk).push hnot hnil
    · rw [update_of_ne heq, update_of_ne heq]
      exact (h.chain k hk).update hnot _
  · grind
  · have hall : (freeBlocks lists buddyOrders ++ b :: loose).Perm
        (freeBlocks (pushed lists b) buddyOrders ++ loose) :=
      perm_middle.trans (hperm.symm.append_right _)
    have hbits := h.bitmap x
    simp only [hall.mem_iff] at hbits
    exact hbits
  · have hal : b.Aligned := h.tiles.aligned b (by simp)
    exact ((h.canon hC).cons hal (hbuddy hC)).mono fun c hc => hperm.mem_iff.mp hc

theorem freeBlocks_popped (hk : k < buddyOrders)
    (hl : (lists k).Perm (page :: l)) : (freeBlocks lists buddyOrders).Perm
      (⟨page, k⟩ :: freeBlocks (update lists k l) buddyOrders) := by
  have hperm := freeBlocks_perm lists hk hl
  rwa [update_eq_self] at hperm

/-- The first block of a list is given out. -/
theorem Buddies.pop (h : Buddies C top X lists [] held s) (hk : k < buddyOrders)
    (hl : lists k = page :: l) :
    Buddies C top X (update lists k l) [] (⟨page, k⟩ :: held)
      { s with
        buddyFreeList := update s.buddyFreeList k (s.link page)
        bitmap := markPages true page (2 ^ k) s.bitmap } := by
  classical
  have hperm := freeBlocks_popped hk (List.Perm.of_eq hl)
  have htiles : Tiles (⟨page, k⟩ :: (freeBlocks (update lists k l) buddyOrders ++ held)) X :=
    h.tiles.perm (hperm.append_right _)
  refine ⟨fun j hj => ?_, htiles.perm perm_middle.symm, fun x => ?_, h.memTop, fun hC => ?_⟩
  · have hchain := h.chain j hj
    by_cases heq : j = k
    · subst heq
      rw [hl] at hchain
      dsimp only
      rw [update_self, update_self]
      exact hchain.2.2
    · dsimp only
      rwa [update_of_ne heq, update_of_ne heq]
  · have hbits := h.bitmap x
    simp only [append_nil, hperm.mem_iff, mem_cons, exists_eq_or_imp] at hbits
    dsimp only
    rw [markPages_block true ⟨page, k⟩, append_nil]
    split
    · next hx =>
      simp only [Bool.true_eq_false, false_iff, not_exists, not_and]
      intro c hc hxc
      exact Set.disjoint_left.mp (htiles.disjoint_head c (mem_append_left _ hc)) hx hxc
    · next hx =>
      rw [hbits]
      exact or_iff_right hx
  · exact (h.canon hC).mono fun c hc => hperm.mem_iff.mpr (mem_cons_of_mem _ hc)

/-- A block given out is two halves. -/
theorem Buddies.split (h : Buddies C top X lists loose (⟨page, order + 1⟩ :: held) s) :
    Buddies C top X lists loose (⟨page + 2 ^ order, order⟩ :: ⟨page, order⟩ :: held) s := by
  have hdvd : 2 ^ (order + 1) ∣ page := h.tiles.aligned ⟨page, order + 1⟩ (by simp)
  have hlow : Block.Aligned ⟨page, order⟩ := (pow_dvd_pow 2 (le_succ _)).trans hdvd
  obtain ⟨hbuddy, hparent⟩ := Block.buddy_of_dvd hdvd
  have hfront : ∀ l : List Block, (freeBlocks lists buddyOrders ++ (loose ++ l)).Perm
      (l ++ (freeBlocks lists buddyOrders ++ loose)) := fun l => by
    rw [← append_assoc]
    exact perm_append_comm
  have htiles := h.tiles.perm (hfront _)
  rw [cons_append, ← hparent, ← tiles_buddy_iff hlow, hbuddy] at htiles
  refine { h with tiles := ?_ }
  exact htiles.perm ((List.Perm.swap ..).trans
    (hfront (⟨page + 2 ^ order, order⟩ :: ⟨page, order⟩ :: held)).symm)

/-- A block and its free buddy are one. -/
theorem Buddies.join {rest : List Nat} (h : Buddies C top X lists (b :: loose) held s)
    (hb : b.order < buddyOrders) (hrest : (lists b.order).Perm (b.buddy.page :: rest)) {t : Pmm}
    (hchain : ∀ k < buddyOrders, Chain t.link pmmFreeListNil (t.buddyFreeList k)
      (update lists b.order rest k))
    (hbitmap : t.bitmap = s.bitmap) (htop : t.pmmMemTop = s.pmmMemTop) :
    Buddies C top X (update lists b.order rest) (b.parent :: loose) held t := by
  have hperm := freeBlocks_popped hb hrest
  have hal : b.Aligned := h.tiles.aligned b (by simp)
  have hbuddy : (⟨b.buddy.page, b.order⟩ : Block) = b.buddy := rfl
  rw [hbuddy] at hperm
  set free := freeBlocks (update lists b.order rest) buddyOrders with hfree
  have hblocks : (freeBlocks lists buddyOrders ++ (b :: loose ++ held)).Perm
      (b :: b.buddy :: (free ++ (loose ++ held))) :=
    (perm_middle).trans ((hperm.append_right _).cons _)
  refine ⟨hchain, ?_, fun x => ?_, htop.trans h.memTop, fun hC => ?_⟩
  · have htiles := (tiles_buddy_iff hal).mp (h.tiles.perm hblocks)
    exact htiles.perm perm_middle.symm
  · have hbits := h.bitmap x
    have hmem : ∀ c, c ∈ freeBlocks lists buddyOrders ++ b :: loose ↔
        c = b ∨ c = b.buddy ∨ c ∈ free ++ loose := by grind
    have hmem' : ∀ c, c ∈ free ++ b.parent :: loose ↔ c = b.parent ∨ c ∈ free ++ loose := by
      intro c
      rw [perm_middle.mem_iff, mem_cons]
    simp only [hmem, or_and_right, exists_or, exists_eq_left] at hbits
    rw [← hfree]
    simp only [hmem', or_and_right, exists_or, exists_eq_left, hal.mem_parent, hbitmap,
      hbits, or_assoc]
  · exact (h.canon hC).mono fun c hc => hperm.mem_iff.mpr (mem_cons_of_mem _ hc)

/-! ## Allocation -/

theorem Buddies.push (h : Buddies C top X lists [] (b :: held) s) (hX : ∀ x ∈ X, x < 2 ^ 20)
    (hb : b.order < buddyOrders)
    (hbuddy : C → b.order < buddyOrders - 1 → b.buddy ∉ freeBlocks lists buddyOrders) :
    Returns (pmmPushFreeBlock b.page b.order)
    (fun _ s' => Buddies C top X (pushed lists b) [] held s') s := by
  rw [pmmPushFreeBlock, returns_modify]
  exact h.release.link hX hb hbuddy

/-- The halves that are not needed go to their lists. -/
theorem Buddies.returns_splitBlock {levels : Nat}
    (h : Buddies C top X lists [] (⟨page, order + levels⟩ :: held) s) (hX : ∀ x ∈ X, x < 2 ^ 20)
    (hlt : order + levels < buddyOrders) :
    Returns (splitBlock page order levels)
      (fun _ s' => ∃ lists', Buddies C top X lists' [] (⟨page, order⟩ :: held) s') s := by
  induction levels generalizing lists s with
  | zero => exact returns_pure.mpr ⟨lists, h⟩
  | succ levels ih =>
  have hsplit : Buddies C top X lists []
      (⟨page + 2 ^ (order + levels), order + levels⟩ :: ⟨page, order + levels⟩ :: held) s := h.split
  -- The other half is still in use, so it is not the buddy that would be missed on the list.
  have hbuddy : (⟨page + 2 ^ (order + levels), order + levels⟩ : Block).buddy ∉
      freeBlocks lists buddyOrders := by
    intro hmem
    have hdvd : 2 ^ (order + levels + 1) ∣ page :=
      h.tiles.aligned ⟨page, order + (levels + 1)⟩ (by simp)
    rw [← (Block.buddy_of_dvd hdvd).1, Block.buddy_buddy, mem_freeBlocks] at hmem
    exact hsplit.notMem (b := ⟨page, order + levels⟩) (by simp) (Block.page_mem_pages _)
      hmem.1 hmem.2
  rw [splitBlock, returns_bind]
  refine (hsplit.push hX (lt_of_succ_lt hlt) fun _ _ => hbuddy).mono fun _ s1 h1 => ?_
  exact ih h1 (lt_of_succ_lt hlt)

/-- The first order with a block. -/
theorem findOrder_some {heads : Nat → Nat} {found : Nat}
    (h : findOrder heads left order = some found) :
    order ≤ found ∧ found < order + left ∧ heads found ≠ pmmFreeListNil := by
  induction left generalizing order with
  | zero => simp [findOrder] at h
  | succ left ih =>
    rw [findOrder] at h
    split at h
    · grind
    · grind

/-- What an allocation does: nothing, or a block of the order asked for is in use. -/
def Allocated (C : Prop) (top : Nat) (X : Set Nat) (held : List Block) (order addr : Nat)
    (s : Pmm) : Prop :=
  (addr = 0 ∧ ∃ lists, Buddies C top X lists [] held s) ∨
    ∃ page lists, addr = pageAddr page ∧ Buddies C top X lists [] (⟨page, order⟩ :: held) s

/-- An allocation: a block of the order, or 0. -/
theorem Buddies.returns_alloc (h : Buddies C top X lists [] held s) (hX : ∀ x ∈ X, x < 2 ^ 20)
    (order : Nat) (horder : order < buddyOrders) :
    Returns (pmmAllocBuddyOrder order) (Allocated C top X held order) s := by
  have hgate : ∀ n, Buddies C top X lists [] held { s with fiAllocLeft := n } := fun n => { h with }
  simp only [pmmAllocBuddyOrder, fiAllocGate, returns_rules]
  by_cases hleft : s.fiAllocLeft = 0
  · rw [if_pos hleft, returns_pure, if_neg Bool.false_ne_true, returns_bind, returns_get]
    cases hfind : findOrder s.buddyFreeList (buddyOrders - order) order with
    | none => exact returns_pure.mpr (.inl ⟨rfl, lists, h⟩)
    | some found =>
    obtain ⟨hle, hlt, hne⟩ := findOrder_some hfind
    have hfound : found < buddyOrders := by omega
    have hchain := h.chain found hfound
    cases hl : lists found with
    | nil =>
      rw [hl] at hchain
      exact absurd hchain hne
    | cons page l =>
    rw [hl] at hchain
    obtain ⟨hhead, -, -⟩ := hchain
    have hpop := h.pop hfound hl
    simp only [popBlock, hhead, returns_rules]
    obtain ⟨levels, rfl⟩ := Nat.exists_eq_add_of_le hle
    rw [Nat.add_sub_cancel_left]
    refine (hpop.returns_splitBlock hX hfound).mono fun _ s1 ⟨lists1, h1⟩ => ?_
    exact .inr ⟨page, lists1, rfl, h1⟩
  · rw [if_neg hleft, returns_bind, returns_set, returns_pure, if_pos rfl, returns_pure]
    exact .inl ⟨rfl, lists, hgate _⟩

/-! ## Freeing -/

/-- The walk over a free list ends: at the buddy with the page before it, or at the end. -/
theorem pfcScan_eq {link : Nat → Nat} {cur turns : Nat} {rest : List Nat} (buddy : Nat)
    (done : List Nat) (hchain : Chain link pmmFreeListNil cur rest) (hturns : rest.length < turns) :
    (buddy ∉ rest ∧ ∃ prev, pfcScan link buddy turns done.getLast? cur = some (false, prev)) ∨
      ∃ before after, rest = before ++ buddy :: after ∧
        pfcScan link buddy turns done.getLast? cur = some (true, (done ++ before).getLast?) := by
  induction rest generalizing cur turns done with
  | nil =>
    obtain ⟨turns, rfl⟩ : ∃ n, turns = n + 1 := exists_eq_succ_of_ne_zero (by omega)
    left
    refine ⟨by simp, done.getLast?, ?_⟩
    rw [pfcScan, if_pos (chain_nil.mp hchain)]
  | cons page rest ih =>
  obtain ⟨turns, rfl⟩ : ∃ n, turns = n + 1 := exists_eq_succ_of_ne_zero (by omega)
  obtain ⟨rfl, hnil, hrest⟩ := hchain
  rw [pfcScan, if_neg hnil]
  by_cases hbuddy : cur = buddy
  · subst hbuddy
    right
    refine ⟨[], rest, rfl, ?_⟩
    rw [if_pos rfl, append_nil]
  · rw [if_neg hbuddy]
    have hlast : some cur = (done ++ [cur]).getLast? := by simp
    rw [hlast]
    rcases ih (done ++ [cur]) hrest (by simpa using hturns) with ⟨hnot, hscan⟩ | hfound
    · grind
    · grind

theorem Buddies.list_nodup (h : Buddies C top X lists loose held s) (hk : k < buddyOrders) :
    (lists k).Nodup :=
  nodup_of_freeBlocks (nodup_append.mp h.tiles.nodup).1 hk

theorem Buddies.list_eq (h : Buddies C top X lists loose held s) {j : Nat} (hk : k < buddyOrders)
    (hj : j < buddyOrders) (hpk : page ∈ lists k) (hpj : page ∈ lists j) : k = j := by
  have hmemk : (⟨page, k⟩ : Block) ∈ freeBlocks lists buddyOrders := mem_freeBlocks.mpr ⟨hk, hpk⟩
  have hmemj : (⟨page, j⟩ : Block) ∈ freeBlocks lists buddyOrders := mem_freeBlocks.mpr ⟨hj, hpj⟩
  have heq := h.tiles.eq_of_mem (mem_append_left _ hmemk) (mem_append_left _ hmemj)
    (Block.page_mem_pages ⟨page, k⟩) (Block.page_mem_pages ⟨page, j⟩)
  exact congrArg Block.order heq

theorem Buddies.list_length (h : Buddies C top X lists loose held s) (hX : ∀ x ∈ X, x < 2 ^ 20)
    (hk : k < buddyOrders) : (lists k).length < maxTurns := by
  have hsub : (lists k).toFinset ⊆ Finset.range (2 ^ 20) := by
    intro x hx
    rw [Finset.mem_range]
    have hmem : (⟨x, k⟩ : Block) ∈ freeBlocks lists buddyOrders :=
      mem_freeBlocks.mpr ⟨hk, mem_toFinset.mp hx⟩
    exact hX x (h.mem_set (mem_append_left _ hmem) (Block.page_mem_pages ⟨x, k⟩))
  have hcard := Finset.card_le_card hsub
  rw [toFinset_card_of_nodup (h.list_nodup hk), Finset.card_range] at hcard
  unfold maxTurns
  omega

/-- The buddy leaves its list. -/
theorem Buddies.unlink (h : Buddies C top X lists (b :: loose) held s) (hb : b.order < buddyOrders)
    {before after : List Nat} (hl : lists b.order = before ++ b.buddy.page :: after) :
    Buddies C top X (update lists b.order (before ++ after)) (b.parent :: loose) held
      (storeLink b.order before.getLast? (s.link b.buddy.page) s) := by
  have hperm : (lists b.order).Perm (b.buddy.page :: (before ++ after)) := by
    rw [hl]
    exact perm_middle
  have hchain := h.chain _ hb
  have hnodup := h.list_nodup hb
  rw [hl] at hchain hnodup
  cases hlast : before.getLast? with
  | none =>
    obtain rfl : before = [] := getLast?_eq_none_iff.mp hlast
    refine h.join hb hperm (fun k hk => ?_) rfl rfl
    by_cases heq : k = b.order
    · subst heq
      simp only [storeLink, update_self]
      exact hchain.2.2
    · simp only [storeLink, update_of_ne heq]
      exact h.chain k hk
  | some q =>
  refine h.join hb hperm (fun k hk => ?_) rfl rfl
  by_cases heq : k = b.order
  · subst heq
    simp only [storeLink, update_self]
    exact hchain.unlink hnodup hlast
  · have hq : q ∈ lists b.order := by
      rw [hl]
      exact mem_append_left _ (mem_of_getLast? hlast)
    simp only [storeLink, update_of_ne heq]
    exact (h.chain k hk).update (fun hmem => heq (h.list_eq hk hb hmem hq)) _

/-- Merging goes up until a buddy is missing or the block is the largest. -/
theorem Buddies.returns_coalesce (h : Buddies C top X lists [b] held s)
    (hX : ∀ x ∈ X, x < 2 ^ 20) (hleft : b.order + left = buddyOrders - 1) :
    Returns (pfcCoalesceLoop left b.order b.page)
    (fun _ s' => ∃ lists', Buddies C top X lists' [] held s') s := by
  have hlast : buddyOrders - 1 < buddyOrders := by decide
  induction left generalizing lists b s with
  | zero =>
    rw [pfcCoalesceLoop, returns_modify]
    exact ⟨_, h.link hX (by omega) fun _ hlt => by omega⟩
  | succ left ih =>
  have hb : b.order < buddyOrders := by omega
  simp only [pfcCoalesceLoop, returns_lift, returns_ite, returns_rules]
  have hbuddy : b.page ^^^ 2 ^ b.order = b.buddy.page := rfl
  rw [hbuddy]
  rcases pfcScan_eq b.buddy.page [] (h.chain _ hb) (h.list_length hX hb) with
    ⟨hnot, prev, hscan⟩ | ⟨before, after, hl, hscan⟩
  · refine ⟨_, hscan, ?_⟩
    rw [if_neg Bool.false_ne_true]
    refine ⟨_, h.link hX hb fun _ _ hmem => hnot ?_⟩
    exact (mem_freeBlocks.mp hmem).2
  · refine ⟨_, hscan, ?_⟩
    rw [if_pos rfl]
    exact ih (h.unlink hb hl) (by show b.order + 1 + left = _; omega)

theorem Buddies.perm_held {held' : List Block} (h : Buddies C top X lists loose held s)
    (hperm : held.Perm held') : Buddies C top X lists loose held' s :=
  { h with tiles := h.tiles.perm ((hperm.append_left _).append_left _) }

theorem Buddies.returns_freeCoalesce (h : Buddies C top X lists [] (b :: held) s)
    (hX : ∀ x ∈ X, x < 2 ^ 20) (hb : b.order < buddyOrders) :
    Returns (pmmFreeCoalesce b.page b.order)
    (fun _ s' => ∃ lists', Buddies C top X lists' [] held s') s := by
  rw [pmmFreeCoalesce, returns_bind, returns_modify]
  exact h.release.returns_coalesce hX (by omega)

/-! ## Calls -/

/-- The pages are ones that `pmm_check_free` takes back. -/
structure Arena (top : Nat) (X : Set Nat) : Prop where
  low : ∀ x ∈ X, kernelReservedEnd ≤ 4096 * x
  high : ∀ x ∈ X, 4096 * x + 4096 ≤ top
  top_lt : top < 2 ^ 32

theorem Arena.lt (h : Arena top X) : ∀ x ∈ X, x < 2 ^ 20 := by
  intro x hx
  have hhigh := h.high x hx
  have htop := h.top_lt
  omega

theorem Arena.pageAddr (h : Arena top X) (hx : x ∈ X) :
    pageAddr x = 4096 * x ∧ pageAddr x ≠ 0 ∧ pageAddr x / 4096 = x := by
  have hlt := h.lt x hx
  have hlow := h.low x hx
  unfold Mellivora.pageAddr
  unfold kernelReservedEnd at hlow
  omega

theorem Arena.checkFree (h : Arena top X) (hx : x ∈ X) (htop : s.pmmMemTop = top) :
    pmmCheckFree s (Mellivora.pageAddr x) = false := by
  have hlow := h.low x hx
  have hhigh := h.high x hx
  rw [(h.pageAddr hx).1]
  simp only [pmmCheckFree, htop, Bool.or_eq_false_iff, decide_eq_false_iff_not, not_not]
  omega

/-- The state between calls. -/
structure Kept (C : Prop) (top : Nat) (X : Set Nat) (r : PmmRun) : Prop where
  buddies : ∃ lists, Buddies C top X lists [] r.liveBlocks r.pmm
  counts : ∀ a ∈ r.live, 1 ≤ a.2

variable {r : PmmRun}

theorem orderFor_le (h : orderFor count left order = some n) : n ≤ order + left := by
  induction left generalizing order with
  | zero =>
    rw [orderFor] at h
    split at h
    · simp_all
    · simp at h
  | succ left ih =>
  rw [orderFor] at h
  split at h
  · obtain rfl : order = n := by simpa using h
    omega
  · have := ih h
    omega

theorem liveBlock_lt (a : Nat × Nat) : (liveBlock a).order < buddyOrders := by
  unfold liveBlock
  cases h : orderFor a.2 (buddyOrders - 1) 0 with
  | none => exact (by decide : buddyOrders - 1 < buddyOrders)
  | some order =>
    have hle := orderFor_le h
    have hpos : 0 < buddyOrders := by decide
    simp only [Option.getD_some]
    omega

/-- An allocation keeps the books. -/
theorem Allocated.kept {addr : Nat} {t : Pmm} (ha : Arena top X)
    (h : Allocated C top X r.liveBlocks order addr t)
    (hcounts : ∀ a ∈ r.live, 1 ≤ a.2) (hcount : 1 ≤ count)
    (horder : ∀ page, liveBlock (page, count) = ⟨page, order⟩) :
    Kept C top X { pmm := t, live := PmmRun.got r.live count addr } := by
  rcases h with ⟨rfl, lists, hb⟩ | ⟨page, lists, rfl, hb⟩
  · exact ⟨⟨lists, hb⟩, hcounts⟩
  have hmem : page ∈ X := hb.mem_set (b := ⟨page, order⟩) (by simp) (Block.page_mem_pages _)
  obtain ⟨-, hne, hdiv⟩ := ha.pageAddr hmem
  have hgot : PmmRun.got r.live count (pageAddr page) = (page, count) :: r.live := by
    rw [PmmRun.got, if_neg hne, hdiv]
  rw [hgot]
  refine ⟨⟨lists, ?_⟩, ?_⟩
  · show Buddies C top X lists [] (liveBlock (page, count) :: r.liveBlocks) t
    rw [horder]
    exact hb
  · grind

/-- A free of what is live is accepted and keeps the books. -/
theorem Kept.free (h : Kept C top X r) (ha : Arena top X) (hlive : (page, count) ∈ r.live) :
    pmmCheckFree r.pmm (pageAddr page) = false ∧ pageAddr page / 4096 = page ∧
      Returns (pmmFreeCoalesce page (liveBlock (page, count)).order)
        (fun _ t => Kept C top X { pmm := t, live := r.live.erase (page, count) }) r.pmm := by
  obtain ⟨lists, hb⟩ := h.buddies
  have hblock : liveBlock (page, count) ∈ r.liveBlocks := mem_map_of_mem hlive
  have hmem : page ∈ X := hb.mem_set (mem_append_right _ hblock) (Block.page_mem_pages _)
  refine ⟨ha.checkFree hmem hb.memTop, (ha.pageAddr hmem).2.2, ?_⟩
  have hperm : r.liveBlocks.Perm
      (liveBlock (page, count) :: (r.live.erase (page, count)).map liveBlock) :=
    (perm_cons_erase hlive).map liveBlock
  refine ((hb.perm_held hperm).returns_freeCoalesce ha.lt (liveBlock_lt _)).mono fun _ t hb' => ?_
  exact ⟨hb', fun a hmem => h.counts a (mem_of_mem_erase hmem)⟩

theorem Kept.perm {live : List (Nat × Nat)} (h : Kept C top X r) (hperm : r.live.Perm live) :
    Kept C top X { r with live } := by
  obtain ⟨lists, hb⟩ := h.buddies
  exact ⟨⟨lists, hb.perm_held (hperm.map liveBlock)⟩, fun a ha => h.counts a (hperm.mem_iff.mpr ha)⟩

theorem Kept.relink {link : Nat → Nat} (h : Kept C top X r)
    (hlink : ∀ page, (∀ a ∈ r.live, page ∉ (liveBlock a).pages) → link page = r.pmm.link page) :
    Kept C top X { r with pmm := { r.pmm with link } } := by
  obtain ⟨lists, hb⟩ := h.buddies
  refine ⟨⟨lists, fun k hk => ?_, hb.tiles, hb.bitmap, hb.memTop, hb.canon⟩, h.counts⟩
  refine (hb.chain k hk).congr fun page hpage => hlink page fun a ha hmem => ?_
  have hblock : liveBlock a ∈ [] ++ r.liveBlocks := mem_map_of_mem ha
  exact hb.notMem hblock hmem hk hpage

theorem Kept.head_disjoint {a : Nat × Nat} {live : List (Nat × Nat)} {pmm : Pmm}
    (h : Kept C top X { pmm, live := a :: live }) {b : Nat × Nat} (hb : b ∈ live) :
    Disjoint (liveBlock a).pages (liveBlock b).pages := by
  obtain ⟨lists, hbuddies⟩ := h.buddies
  have hdisj := (pairwise_append.mp hbuddies.tiles.disjoint).2.1
  exact (pairwise_cons.mp hdisj).1 _ (mem_map_of_mem hb)

theorem Kept.mem_set (h : Kept C top X r) {a : Nat × Nat} (ha : a ∈ r.live) : a.1 ∈ X := by
  obtain ⟨lists, hb⟩ := h.buddies
  exact hb.mem_set (mem_append_right _ (mem_map_of_mem ha)) (Block.page_mem_pages (liveBlock a))

theorem Kept.returns_allocPage (h : Kept C top X r) (ha : Arena top X) :
    Returns pmmAllocPage (fun addr t => addr = 0 ∧ Kept C top X { r with pmm := t } ∨
      addr ≠ 0 ∧ addr % 4096 = 0 ∧ Kept C top X { pmm := t, live := (addr / 4096, 1) :: r.live })
      r.pmm := by
  obtain ⟨lists, hb⟩ := h.buddies
  refine (hb.returns_alloc ha.lt 0 (by decide)).mono fun addr t halloc => ?_
  have hkept := halloc.kept ha h.counts le_rfl fun _ => rfl
  by_cases hzero : addr = 0
  · rw [PmmRun.got, if_pos hzero] at hkept
    exact .inl ⟨hzero, hkept⟩
  rw [PmmRun.got, if_neg hzero] at hkept
  refine .inr ⟨hzero, ?_, hkept⟩
  rcases halloc with ⟨rfl, -⟩ | ⟨page, lists', rfl, hb'⟩
  · exact absurd rfl hzero
  · have hmem : page ∈ X := hb'.mem_set (b := ⟨page, 0⟩) (by simp) (Block.page_mem_pages _)
    rw [(ha.pageAddr hmem).1]
    omega

/-- Every call comes to an end and keeps the pages accounted for. -/
theorem Kept.step (h : Kept C top X r) (ha : Arena top X) {c : PmmCall} (hlegal : c.Legal r) :
    ∃ r', c.step r = some r' ∧ Kept C top X r' := by
  obtain ⟨lists, hb⟩ := h.buddies
  cases c with
  | allocPage =>
    obtain ⟨addr, t, hrun, halloc⟩ := hb.returns_alloc ha.lt 0 (by decide)
    refine ⟨_, ?_, halloc.kept ha h.counts le_rfl fun _ => rfl⟩
    simp [PmmCall.step, pmmAllocPage, hrun]
  | allocPages count =>
    obtain ⟨hcount, -⟩ := hlegal
    cases horder : orderFor count (buddyOrders - 1) 0 with
    | none =>
      refine ⟨_, ?_, h⟩
      simp [PmmCall.step, pmmAllocPages, horder, PmmRun.got]
    | some order =>
    have hle := orderFor_le horder
    have hpos : 0 < buddyOrders := by decide
    obtain ⟨addr, t, hrun, halloc⟩ := hb.returns_alloc ha.lt order (by omega)
    refine ⟨_, ?_, halloc.kept ha h.counts hcount fun page => ?_⟩
    · simp [PmmCall.step, pmmAllocPages, horder, hrun]
    · simp [liveBlock, horder]
  | freePage addr =>
    obtain ⟨page, hlive, rfl⟩ := hlegal
    obtain ⟨hcheck, hdiv, _, t, hrun, hkept⟩ := h.free ha hlive
    refine ⟨_, ?_, hkept⟩
    have hzero : (liveBlock (page, 1)).order = 0 := rfl
    rw [hzero] at hrun
    simp [PmmCall.step, pmmFreePage, hcheck, hdiv, hrun]
  | freePages addr count =>
    obtain ⟨page, hlive, rfl⟩ := hlegal
    obtain ⟨hcheck, hdiv, _, t, hrun, hkept⟩ := h.free ha hlive
    refine ⟨_, ?_, hkept⟩
    have hcount : count ≠ 0 := one_le_iff_ne_zero.mp (h.counts _ hlive)
    have horder : (liveBlock (page, count)).order = (orderFor count (buddyOrders - 1) 0).getD
      (buddyOrders - 1) := rfl
    rw [horder] at hrun
    simp [PmmCall.step, pmmFreePages, hcheck, hdiv, hcount, hrun]
  | write page value =>
    obtain ⟨a, hlive, hpage⟩ := hlegal
    refine ⟨_, rfl, h.relink fun x hx => update_of_ne ?_ _ _⟩
    rintro rfl
    exact hx a hlive hpage

/-! ## What the state says -/

/-- The lists in memory are the lists of the books. -/
theorem Buddies.onFreeList_iff (h : Buddies C top X lists loose held s) :
    s.OnFreeList b ↔ b ∈ freeBlocks lists buddyOrders := by
  rw [mem_freeBlocks]
  constructor
  · rintro ⟨hlt, l, hchain, hmem⟩
    rw [(h.chain _ hlt).unique hchain]
    exact ⟨hlt, hmem⟩
  · rintro ⟨hlt, hmem⟩
    exact ⟨hlt, lists b.order, h.chain _ hlt, hmem⟩

/-- What the books say to the callers. -/
theorem Kept.sound (h : Kept C top X r) : r.Sound X := by
  obtain ⟨lists, hb⟩ := h.buddies
  have hfree : ∀ b, r.pmm.OnFreeList b ↔ b ∈ freeBlocks lists buddyOrders :=
    fun b => hb.onFreeList_iff
  have htiles := hb.tiles
  rw [nil_append] at htiles
  obtain ⟨-, hlive, hapart⟩ := pairwise_append.mp htiles.disjoint
  refine ⟨fun k hk => ⟨lists k, hb.chain k hk, hb.list_nodup hk⟩, ?_, ?_, hlive, ?_,
    fun x => ?_, fun x => ?_⟩
  · intro b hmem
    exact htiles.aligned b (mem_append_left _ ((hfree b).mp hmem))
  · intro b c hmem hmem' hne
    by_contra hmeet
    obtain ⟨x, hx, hx'⟩ := Set.not_disjoint_iff.mp hmeet
    exact hne
      (htiles.eq_of_mem (mem_append_left _ ((hfree b).mp hmem))
      (mem_append_left _ ((hfree c).mp hmem')) hx hx')
  · intro b hmem c hc
    exact hapart b ((hfree b).mp hmem) c hc
  · rw [htiles.cover x]
    simp only [hfree, mem_append, or_and_right, exists_or]
  · rw [hb.bitmap x, append_nil]
    simp only [hfree]

end Mellivora
