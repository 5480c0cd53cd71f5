import Mellivora.Kernel.Proofs.PmmProofs

/-!
# Seeding the free lists

`pmm_free_region` cuts a region into the largest aligned blocks that fit, from its start on.
-/

namespace Mellivora

open Outcome Linked Buddy List Nat

variable {regions : List (Nat × Nat)} {a base len n : Nat}

/-! ## The order of a block -/

theorem two_pow_dvd_of_testBit {k : Nat} (h : ∀ j < k, n.testBit j = false) : 2 ^ k ∣ n := by
  refine dvd_of_mod_eq_zero (eq_of_testBit_eq fun j => ?_)
  rw [testBit_mod_two_pow, zero_testBit]
  by_cases hj : j < k
  · simp [h j hj]
  · simp [hj]

theorem not_two_pow_dvd_of_testBit {k : Nat} (h : n.testBit k = true) : ¬ 2 ^ (k + 1) ∣ n := by
  rintro ⟨c, rfl⟩
  rw [testBit_two_pow_mul] at h
  simp at h

/-- `bsf` finds the largest power of two that divides. -/
theorem bsf_spec (hpos : n ≠ 0) (hlt : n < 2 ^ 32) : 2 ^ bsf n ∣ n ∧ ¬ 2 ^ (bsf n + 1) ∣ n := by
  unfold bsf
  cases hfind : (range 32).find? fun i => n.testBit i with
  | none =>
    exfalso
    refine hpos (eq_of_testBit_eq fun i => ?_)
    rw [zero_testBit]
    by_cases hi : i < 32
    · grind
    · exact Nat.testBit_lt_two_pow (hlt.trans_le (Nat.pow_le_pow_right (by norm_num) (by omega)))
  | some k =>
    obtain ⟨hk, -, hlow⟩ := find?_range_eq_some.mp hfind
    refine ⟨two_pow_dvd_of_testBit fun j hj => ?_, not_two_pow_dvd_of_testBit hk⟩
    simpa using hlow j hj

/-- The largest order a page is aligned to. -/
theorem alignOrder_spec {page : Nat} (hlt : page < 2 ^ 32) :
    2 ^ alignOrder page ∣ page ∧ alignOrder page ≤ buddyOrders - 1 ∧
      (page ≠ 0 → alignOrder page < buddyOrders - 1 → ¬ 2 ^ (alignOrder page + 1) ∣ page) := by
  unfold alignOrder
  by_cases hzero : page = 0
  · rw [if_pos hzero]
    exact ⟨by simp, zero_le _, fun hne => absurd hzero hne⟩
  · obtain ⟨hdvd, hnot⟩ := bsf_spec hzero hlt
    rw [if_neg hzero]
    refine ⟨(pow_dvd_pow 2 (min_le_left _ _)).trans hdvd, min_le_right _ _, fun _ hlt' => ?_⟩
    rw [min_eq_left (by omega)]
    exact hnot

theorem signed_le (n : Nat) : signed n ≤ n := by
  unfold signed
  split <;> omega

theorem signed_of_lt (h : n < 2 ^ 31) : signed n = n := if_pos h

/-- The largest order that fits the length. -/
theorem fitOrder_spec (len order : Nat) :
    fitOrder len order ≤ order ∧
      (fitOrder len order = 0 ∨ (2 ^ fitOrder len order * 4096 : Int) ≤ signed len) ∧
      (fitOrder len order < order →
        ¬ (2 ^ (fitOrder len order + 1) * 4096 : Int) ≤ signed len) := by
  induction order with
  | zero => exact ⟨le_rfl, .inl rfl, fun hlt => absurd hlt (lt_irrefl _)⟩
  | succ order ih =>
    rw [fitOrder]
    split
    · grind
    · grind

/-- A block of the cut of the pages from `a` up to `e`: it lies inside, and the next larger block at
its place does not. -/
structure Greedy (a e : Nat) (b : Block) : Prop where
  start : a ≤ b.page
  finish : b.page + 2 ^ b.order ≤ e
  largest : 0 < a → (e - a) * 4096 < 2 ^ 31 → b.order < buddyOrders - 1 →
    2 ^ (b.order + 1) ∣ b.page → e < b.page + 2 ^ (b.order + 1)

attribute [local grind cases] Greedy

/-- The block `pmm_free_region` cuts off the pages from `a` up to `a + n`. -/
def cutBlock (a n : Nat) : Block := ⟨a, fitOrder (4096 * n) (alignOrder a)⟩

/-- The block cut off is aligned and as large as can be. -/
theorem cutBlock_spec (hlt : a < 2 ^ 32) (hn : 0 < n) :
    (cutBlock a n).Aligned ∧ (cutBlock a n).order < buddyOrders ∧
    Greedy a (a + n) (cutBlock a n) := by
  obtain ⟨hdvd, hmax, hnot⟩ := alignOrder_spec hlt
  obtain ⟨hle, hfits, hnext⟩ := fitOrder_spec (4096 * n) (alignOrder a)
  have horders : buddyOrders = 12 := rfl
  set k := fitOrder (4096 * n) (alignOrder a) with hk
  have hfit : 2 ^ k ≤ n := by
    rcases hfits with hzero | hfits
    · rw [hzero]
      exact hn
    · have hsigned := signed_le (4096 * n)
      have hcast : ((2 ^ k : Nat) : Int) * 4096 ≤ 4096 * n := by
        push_cast at hsigned ⊢
        omega
      omega
  refine ⟨(pow_dvd_pow 2 hle).trans hdvd, ?_, le_rfl, ?_, ?_⟩
  · show k < buddyOrders
    omega
  · show a + 2 ^ k ≤ a + n
    omega
  intro hpos hlen (hk' : k < buddyOrders - 1) (hdvd' : 2 ^ (k + 1) ∣ a)
  rw [Nat.add_sub_cancel_left] at hlen
  show a + n < a + 2 ^ (k + 1)
  rcases eq_or_lt_of_le hle with heq | hlt'
  · rw [heq] at hk' hdvd'
    exact absurd hdvd' (hnot (by omega) hk')
  have hno := hnext hlt'
  rw [signed_of_lt (by omega)] at hno
  have hcast : ¬ ((2 ^ (k + 1) : Nat) : Int) * 4096 ≤ 4096 * n := by
    push_cast at hno ⊢
    exact hno
  omega

/-! ## One region -/

variable {top : Nat} {X : Set Nat} {lists : Nat → List Nat} {s : Pmm} {C : Prop}

/-- A block of new pages goes to its list. -/
theorem Buddies.seed {b : Block} (h : Buddies False top X lists [] [] s) (hX : ∀ x ∈ X, x < 2 ^ 20)
    (hal : b.Aligned) (hb : b.order < buddyOrders) (hend : b.page + 2 ^ b.order ≤ 2 ^ 20)
    (hdisj : Disjoint b.pages X) :
    Returns (pmmPushFreeBlock b.page b.order)
      (fun _ s' => Buddies False top (X ∪ b.pages) (pushed lists b) [] [] s') s := by
  have hheld : Buddies False top (X ∪ b.pages) lists [] [b] s := by
    refine { h with tiles := ?_, canon := False.elim }
    have htiles := h.tiles.cons hal hdisj
    rw [nil_append, append_nil] at htiles
    exact htiles.perm (perm_append_singleton b _).symm
  refine hheld.push ?_ hb fun hC => hC.elim
  rintro x (hx | hx)
  · exact hX x hx
  · exact hx.2.trans_le hend

/-- The pages from `a` up to `a + n` are seeded, in blocks that are as large as they can be. -/
theorem Buddies.returns_pfrLoop {turns : Nat} (h : Buddies False top X lists [] [] s)
    (hX : ∀ x ∈ X, x < 2 ^ 20) (hend : a + n < 2 ^ 20) (hdisj : Disjoint (Set.Ico a (a + n)) X)
    (hturns : n < turns) :
    Returns (pfrLoop turns (4096 * a) (4096 * n)) (fun _ s' => ∃ lists',
      Buddies False top (X ∪ Set.Ico a (a + n)) lists' [] [] s' ∧
        ∀ b ∈ freeBlocks lists' buddyOrders, b ∈ freeBlocks lists buddyOrders ∨
        Greedy a (a + n) b) s := by
  induction turns generalizing a n X lists s with
  | zero => omega
  | succ turns ih =>
  rw [pfrLoop, returns_ite]
  by_cases hn : n = 0
  · subst hn
    rw [if_pos rfl, returns_pure]
    refine ⟨lists, ?_, fun b hb => .inl hb⟩
    rwa [add_zero, Set.Ico_self, Set.union_empty]
  have hpos : 0 < n := pos_of_ne_zero hn
  obtain ⟨hal, horder, hgreedy⟩ := cutBlock_spec (a := a) (by omega) hpos
  have hpage : 4096 * a / 4096 = a := Nat.mul_div_cancel_left _ (by norm_num)
  set k := fitOrder (4096 * n) (alignOrder a) with hk
  have hfit : 2 ^ k ≤ n := by
    have : a + 2 ^ k ≤ a + n := hgreedy.finish
    omega
  have hpow : 0 < 2 ^ k := Nat.two_pow_pos k
  have hsub : (cutBlock a n).pages ⊆ Set.Ico a (a + n) := Set.Ico_subset_Ico le_rfl hgreedy.finish
  rw [if_neg (by omega), returns_bind, hpage, ← hk]
  have hroom : a + 2 ^ k ≤ 2 ^ 20 := by omega
  have hseed := h.seed hX hal horder hroom (hdisj.mono_left hsub)
  refine hseed.mono fun _ s1 h1 => ?_
  have hX1 : ∀ x ∈ X ∪ (cutBlock a n).pages, x < 2 ^ 20 := by grind
  have hdisj1 : Disjoint (Set.Ico (a + 2 ^ k) (a + 2 ^ k + (n - 2 ^ k)))
    (X ∪ (cutBlock a n).pages) := by
    rw [Set.disjoint_union_right]
    constructor
    · exact hdisj.mono_left (Set.Ico_subset_Ico (by omega) (by omega))
    · rw [Set.disjoint_left]
      intro x hx hx'
      have hlt : x < a + 2 ^ k := hx'.2
      have hle := hx.1
      omega
  have hbase : (4096 * a + 2 ^ k * 4096) % 2 ^ 32 = 4096 * (a + 2 ^ k) := by omega
  have hlen : 4096 * n - 2 ^ k * 4096 = 4096 * (n - 2 ^ k) := by omega
  rw [hbase, hlen]
  refine (ih h1 hX1 (by omega) hdisj1 (by omega)).mono fun _ s2 ⟨lists2, h2, hblocks⟩ => ?_
  have hend' : a + 2 ^ k + (n - 2 ^ k) = a + n := by omega
  rw [hend'] at h2 hblocks
  have hset : X ∪ (cutBlock a n).pages ∪ Set.Ico (a + 2 ^ k) (a + n) = X ∪ Set.Ico a (a + n) := by
    rw [Set.union_assoc]
    congr 1
    exact Set.Ico_union_Ico_eq_Ico (le_add_right a _) hgreedy.finish
  rw [hset] at h2
  refine ⟨lists2, h2, fun b hb => ?_⟩
  rcases hblocks b hb with hold | hnew
  · rcases mem_cons.mp ((freeBlocks_pushed lists horder).mem_iff.mp hold) with rfl | hold
    · exact .inr hgreedy
    · exact .inl hold
  · refine .inr ⟨(le_add_right _ _).trans hnew.start, hnew.finish, fun hpos hlt => ?_⟩
    have hpos1 : 0 < a + 2 ^ k := by omega
    have hle : a + n - (a + 2 ^ k) ≤ a + n - a := by omega
    have hlt1 := (mul_le_mul_right 4096 hle).trans_lt hlt
    exact hnew.largest hpos1 hlt1

/-- `pmm_free_region` adds the pages of the region. -/
theorem Buddies.returns_freeRegion (h : Buddies False top X lists [] [] s)
    (hX : ∀ x ∈ X, x < 2 ^ 20) (hbase : base + 0xFFF < 2 ^ 32)
    (hend : (base + 0xFFF) / 4096 + len / 4096 < 2 ^ 20)
    (hdisj : Disjoint (freedPages (base, len)) X) :
    Returns (pmmFreeRegion base len) (fun _ s' => ∃ lists',
      Buddies False top (X ∪ freedPages (base, len)) lists' [] [] s' ∧
        ∀ b ∈ freeBlocks lists' buddyOrders, b ∈ freeBlocks lists buddyOrders ∨
          Greedy ((base + 0xFFF) / 4096) ((base + 0xFFF) / 4096 + len / 4096) b) s := by
  have hmod : (base + 0xFFF) % 2 ^ 32 = base + 0xFFF := mod_eq_of_lt hbase
  have hpages : len / 4096 * 4096 / 4096 = len / 4096 := Nat.mul_div_cancel _ (by norm_num)
  rw [pmmFreeRegion, hmod, hpages, mul_comm _ 4096, mul_comm _ 4096]
  exact h.returns_pfrLoop hX hend hdisj (lt_succ_self _)

theorem freedPages_eq (hbase : 4096 ∣ base) (hlen : 4096 ∣ len) :
    freedPages (base, len) = regionPages (base, len) := by
  obtain ⟨a, rfl⟩ := hbase
  obtain ⟨n, rfl⟩ := hlen
  ext x
  simp only [regionPages, freedPages, Set.mem_ofPred_eq, Set.mem_Ico]
  omega

theorem Buddies.returns_freeRegion_aligned (h : Buddies False top X lists [] [] s)
    (hX : ∀ x ∈ X, x < 2 ^ 20) (hbase : 4096 ∣ base) (hlen : 4096 ∣ len)
    (hend : base + len < 2 ^ 32) (hdisj : Disjoint (regionPages (base, len)) X) :
    Returns (pmmFreeRegion base len) (fun _ s' => ∃ lists',
      Buddies False top (X ∪ regionPages (base, len)) lists' [] [] s' ∧
        ∀ b ∈ freeBlocks lists' buddyOrders, b ∈ freeBlocks lists buddyOrders ∨
          Greedy (base / 4096) (base / 4096 + len / 4096) b) s := by
  rw [← freedPages_eq hbase hlen] at hdisj ⊢
  obtain ⟨a, rfl⟩ := hbase
  obtain ⟨n, rfl⟩ := hlen
  have hdiv : (4096 * a + 0xFFF) / 4096 = 4096 * a / 4096 := by omega
  have hreturns := h.returns_freeRegion hX (by omega) (by omega) hdisj
  rwa [hdiv] at hreturns

/-! ## Several regions -/

/-- `pmmSeed` adds the pages of every region. -/
theorem Buddies.returns_seed (h : Buddies False top X lists [] [] s)
    (hX : ∀ x ∈ X, x < 2 ^ 20) (htop : top < 2 ^ 32) (hregions : SeedRegions top regions)
    (hdisj : ∀ region ∈ regions, Disjoint (regionPages region) X) :
    Returns (pmmSeed regions) (fun _ s' => ∃ lists',
      Buddies False top (X ∪ seededPages regions) lists' [] [] s') s := by
  induction regions generalizing X lists s with
  | nil =>
    rw [pmmSeed, returns_pure]
    have hnone : seededPages [] = ∅ := by simp [seededPages]
    exact ⟨lists, by rwa [hnone, Set.union_empty]⟩
  | cons region regions ih =>
  obtain ⟨base, len⟩ := region
  obtain ⟨hhead, htail⟩ := pairwise_cons.mp hregions.disjoint
  have hmem : (base, len) ∈ (base, len) :: regions := mem_cons_self ..
  obtain ⟨hbase, hlen⟩ := hregions.aligned _ hmem
  have hin := (hregions.inside _ hmem).2
  rw [pmmSeed, returns_bind]
  have hend : base + len < 2 ^ 32 := hin.trans_lt htop
  refine (h.returns_freeRegion_aligned hX hbase hlen hend (hdisj _ hmem)).mono
    fun _ s1 ⟨lists1, h1, _⟩ => ?_
  have hrest : SeedRegions top regions := ⟨fun r hr => hregions.aligned r (mem_cons_of_mem _ hr),
    fun r hr => hregions.inside r (mem_cons_of_mem _ hr), htail⟩
  have hX1 : ∀ x ∈ X ∪ regionPages (base, len), x < 2 ^ 20 := by
    rintro x (hx | ⟨-, hx⟩)
    · exact hX x hx
    · omega
  have hdisj1 : ∀ r ∈ regions, Disjoint (regionPages r) (X ∪ regionPages (base, len)) := by grind
  refine (ih h1 hX1 hrest hdisj1).mono fun _ s2 ⟨lists2, h2⟩ => ⟨lists2, ?_⟩
  have hset : X ∪ regionPages (base, len) ∪ seededPages regions =
    X ∪ seededPages ((base, len) :: regions) := by
    ext x
    simp only [seededPages, Set.mem_union, Set.mem_ofPred_eq, mem_cons, exists_eq_or_imp, or_assoc]
  rwa [← hset]

/-- With nothing free the books are right. -/
theorem buddies_empty (hbitmap : ∀ page, s.bitmap page = true)
    (hlists : ∀ k < buddyOrders, s.buddyFreeList k = pmmFreeListNil) :
    Buddies C s.pmmMemTop ∅ (fun _ => []) [] [] s := by
  have hnone : ∀ n, freeBlocks (fun _ => []) n = [] := by
    intro n
    rw [eq_nil_iff_forall_not_mem]
    intro b hb
    rw [mem_freeBlocks] at hb
    exact absurd hb.2 (by simp)
  refine ⟨hlists, ?_, fun x => ?_, rfl, fun _ => ?_⟩
  · rw [hnone]
    exact tiles_nil
  · simp [hnone, hbitmap x]
  · rw [hnone]
    intro b hb
    simp at hb

theorem SeedRegions.arena (h : SeedRegions top regions) (htop : top < 2 ^ 32) :
    Arena top (seededPages regions) := by
  refine ⟨?_, ?_, htop⟩
  · rintro x ⟨region, hmem, hlow, -⟩
    exact (h.inside region hmem).1.trans hlow
  · rintro x ⟨region, hmem, -, hhigh⟩
    exact hhigh.trans (h.inside region hmem).2

theorem returns_seed_blank {blank : Pmm} (hblank : blank.Blank)
    (hregions : SeedRegions blank.pmmMemTop regions) :
    ∃ seeded, (pmmSeed regions).run blank = some ((), seeded) ∧
      Kept False blank.pmmMemTop (seededPages regions) { pmm := seeded } := by
  have hstart : Buddies False blank.pmmMemTop ∅ (fun _ => []) [] [] blank :=
    buddies_empty hblank.bitmap hblank.buddyFreeList
  obtain ⟨_, seeded, hrun, lists, hseeded⟩ :=
    hstart.returns_seed (by simp) hblank.pmmMemTop hregions
    (by simp)
  rw [Set.empty_union] at hseeded
  exact ⟨seeded, hrun, ⟨lists, hseeded⟩, by simp⟩

/-- From regions of the memory that `pmm_check_free` takes back, the pages stay accounted for
whatever the callers do: free blocks are aligned, free blocks and allocations are disjoint and make
up the regions, and the bitmap shows the free pages. -/
theorem pmmRun_sound (s : Pmm) (hblank : s.Blank) (regions : List (Nat × Nat))
    (hregions : SeedRegions s.pmmMemTop regions) :
    ∃ seeded, (pmmSeed regions).run s = some ((), seeded) ∧
      ∀ calls, Runs.AlongAll PmmCall.step PmmCall.Legal calls { pmm := seeded } →
        ∃ r, Runs.afterAll PmmCall.step { pmm := seeded } calls = some r ∧
        r.Sound (seededPages regions) := by
  obtain ⟨seeded, hrun, hkept⟩ := returns_seed_blank hblank hregions
  have harena := hregions.arena hblank.pmmMemTop
  refine ⟨seeded, hrun, fun calls hcalls => ?_⟩
  obtain ⟨r, hafter, hr⟩ := hcalls.invariant (fun c r hr hc => hr.step harena hc) hkept
  exact ⟨r, hafter, hr.sound⟩

/-- The books are right after any run from the start. -/
theorem kept_seeded {blank seeded : Pmm} {calls : List PmmCall} {r : PmmRun}
    (hblank : blank.Blank) (hregions : SeedRegions blank.pmmMemTop regions)
    (hseed : (pmmSeed regions).run blank = some ((), seeded))
    (hcalls : Runs.AlongAll PmmCall.step PmmCall.Legal calls { pmm := seeded })
    (hrun : Runs.afterAll PmmCall.step { pmm := seeded } calls = some r) :
    Kept False blank.pmmMemTop (seededPages regions) r := by
  obtain ⟨t, ht, hkept⟩ := returns_seed_blank hblank hregions
  cases hseed.symm.trans ht
  have harena := hregions.arena hblank.pmmMemTop
  obtain ⟨r', hafter, hr⟩ := hcalls.invariant (fun c r hr hc => hr.step harena hc) hkept
  obtain rfl : r' = r := Option.some.inj (hafter.symm.trans hrun)
  exact hr

/-- A page that is page 0 is lost: its address is the answer for no memory. -/
theorem pageZero_not_sound : ∃ seeded r,
    (pmmSeed [(0, 4096)]).run { pmmMemTop := 4096 } = some ((), seeded) ∧
      Runs.AlongAll PmmCall.step PmmCall.Legal [.allocPage] { pmm := seeded } ∧
      Runs.afterAll PmmCall.step { pmm := seeded } [.allocPage] = some r ∧
      ¬ r.Sound (seededPages [(0, 4096)]) := by
  refine ⟨_, _, rfl, ⟨trivial, fun _ _ => trivial⟩, rfl, fun hsound => ?_⟩
  have hseeded : 0 ∈ seededPages [(0, 4096)] := ⟨(0, 4096), mem_singleton_self _, by simp, by simp⟩
  rcases (hsound.cover 0).mp hseeded with hfree | ⟨c, hc, -⟩
  · have hbit := (hsound.bitmap 0).mpr hfree
    exact absurd hbit (by decide)
  · have hnone : c ∈ ([] : List Block) := hc
    exact absurd hnone not_mem_nil

/-- Two regions of memory. -/
theorem pmmRun_sound_twoRegions : ∃ seeded,
    (pmmSeed [(0x800000, 0x3000), (0x900000, 0x10000)]).run { pmmMemTop := 0x1000000 } =
      some ((), seeded) ∧
      ∀ calls, Runs.AlongAll PmmCall.step PmmCall.Legal calls { pmm := seeded } →
        ∃ r, Runs.afterAll PmmCall.step { pmm := seeded } calls = some r ∧
          r.Sound (seededPages [(0x800000, 0x3000), (0x900000, 0x10000)]) := by
  refine pmmRun_sound { pmmMemTop := 0x1000000 } ⟨fun _ => rfl, fun _ _ => rfl, by norm_num⟩
    _ ⟨?_, ?_, ?_⟩
  · decide
  · decide
  · simp only [pairwise_cons, mem_singleton, forall_eq, not_mem_nil, false_implies,
      implies_true, List.Pairwise.nil, and_true, Set.disjoint_left]
    rintro x ⟨-, hx⟩ ⟨hx', -⟩
    simp only at hx hx'
    omega

/-! ## Coalescing -/

/-- No two blocks of one region's cut are buddies. -/
theorem noBuddies_of_greedy {l : List Block} (hal : ∀ b ∈ l, b.Aligned)
    (hl : ∀ b ∈ l, Greedy a (a + n) b)
    (hpos : 0 < a) (hn : n * 4096 < 2 ^ 31) : NoBuddies (buddyOrders - 1) l := by
  have hlen : (a + n - a) * 4096 < 2 ^ 31 := by rwa [Nat.add_sub_cancel_left]
  intro b hb hlt hbuddy
  have hb' := hl b hb
  have hbuddy' := hl _ hbuddy
  have hfinish := hb'.finish
  have hfinish' : b.buddy.page + 2 ^ b.order ≤ a + n := hbuddy'.finish
  rcases (hal b hb).buddy_page with ⟨hdvd, hpage⟩ | ⟨hdvd, hpage⟩
  · grind
  · have hlarge : a + n < b.buddy.page + 2 ^ (b.order + 1) := hbuddy'.largest hpos hlen hlt hdvd
    rw [pow_succ] at hlarge
    omega

/-- When everything has been given back, the free lists hold the blocks that one region was seeded
with. -/
theorem pmmRun_restores (s : Pmm) (hblank : s.Blank) (base len : Nat) (hbase : 4096 ∣ base)
    (hlen : 4096 ∣ len) (hlow : kernelReservedEnd ≤ base) (hhigh : base + len ≤ s.pmmMemTop)
    (hsigned : len < 2 ^ 31) :
    ∃ seeded, (pmmFreeRegion base len).run s = some ((), seeded) ∧
      ∀ calls, Runs.AlongAll PmmCall.step PmmCall.Legal calls { pmm := seeded } →
        ∃ r, Runs.afterAll PmmCall.step { pmm := seeded } calls = some r ∧
          (r.live = [] → ∀ b, r.pmm.OnFreeList b ↔ seeded.OnFreeList b) := by
  have hstart : Buddies False s.pmmMemTop ∅ (fun _ => []) [] [] s :=
    buddies_empty hblank.bitmap hblank.buddyFreeList
  have htop := hblank.pmmMemTop
  obtain ⟨_, seeded, hrun, lists, hseeded, hgreedy⟩ :=
    hstart.returns_freeRegion_aligned (by simp) hbase
    hlen (by omega) (by simp)
  rw [Set.empty_union] at hseeded
  have hcut : ∀ b ∈ freeBlocks lists buddyOrders, Greedy (base / 4096)
    (base / 4096 + len / 4096) b := by
    intro b hb
    rcases hgreedy b hb with hold | hnew
    · exact absurd (mem_freeBlocks.mp hold).2 (by simp)
    · exact hnew
  have hreserved : kernelReservedEnd = 8388608 := rfl
  have hcanon : NoBuddies (buddyOrders - 1) (freeBlocks lists buddyOrders) :=
    noBuddies_of_greedy (fun b hb => hseeded.tiles.aligned b (mem_append_left _ hb)) hcut
      (by omega) (by omega)
  have hcanonical : Buddies True s.pmmMemTop (regionPages (base, len)) lists [] [] seeded :=
    { hseeded with canon := fun _ => hcanon }
  have harena : Arena s.pmmMemTop (regionPages (base, len)) :=
    ⟨fun x hx => hlow.trans hx.1, fun x hx => hx.2.trans hhigh, htop⟩
  have hkept : Kept True s.pmmMemTop (regionPages (base, len)) { pmm := seeded } :=
    ⟨⟨lists, hcanonical⟩, by simp⟩
  refine ⟨seeded, hrun, fun calls hcalls => ?_⟩
  obtain ⟨r, hafter, hr⟩ := hcalls.invariant (fun c r hr hc => hr.step harena hc) hkept
  refine ⟨r, hafter, fun hlive b => ?_⟩
  obtain ⟨lists', hb'⟩ := hr.buddies
  have horders : ∀ (l : Nat → List Nat), ∀ b ∈ freeBlocks l buddyOrders, b.order ≤
    buddyOrders - 1 :=
    fun l b hb => le_sub_one_of_lt (mem_freeBlocks.mp hb).1
  -- Nothing is in use any more, so both sides tile the whole region.
  have htiles' : Tiles (freeBlocks lists' buddyOrders) (regionPages (base, len)) := by
    have htiles := hb'.tiles
    rwa [PmmRun.liveBlocks, hlive, map_nil, append_nil, append_nil] at htiles
  have htiles : Tiles (freeBlocks lists buddyOrders) (regionPages (base, len)) := by
    have htiles := hseeded.tiles
    rwa [append_nil, append_nil] at htiles
  rw [hb'.onFreeList_iff, hseeded.onFreeList_iff]
  exact htiles'.mem_iff htiles (hb'.canon trivial) hcanon (horders _) (horders _)

/-- A page below the kernel's reserve is not taken back. -/
theorem lowPage_not_restored : ∃ seeded r,
    (pmmFreeRegion 0x1000 0x1000).run { pmmMemTop := 0x2000 } = some ((), seeded) ∧
      Runs.AlongAll PmmCall.step PmmCall.Legal [.allocPage, .freePage 0x1000] { pmm := seeded } ∧
      Runs.afterAll PmmCall.step { pmm := seeded } [.allocPage, .freePage 0x1000] = some r ∧
      r.live = [] ∧ ¬ ∀ b, r.pmm.OnFreeList b ↔ seeded.OnFreeList b := by
  refine ⟨_, _, rfl, ⟨trivial, fun r hr => ⟨⟨1, ?_, by decide⟩, fun _ _ => trivial⟩⟩, rfl, ?_,
    fun hsame => ?_⟩
  · cases hr
    decide +kernel
  · decide +kernel
  · have hseeded := (hsame ⟨1, 0⟩).mpr ⟨by decide, [1], ⟨rfl, by decide, rfl⟩, by simp⟩
    obtain ⟨-, l, hchain, hmem⟩ := hseeded
    have hnil : l = [] := hchain.unique (chain_nil.mpr rfl)
    rw [hnil] at hmem
    exact absurd hmem not_mem_nil

/-- One region of memory. -/
theorem pmmRun_restores_oneRegion : ∃ seeded,
    (pmmFreeRegion 0x800000 0x13000).run { pmmMemTop := 0x1000000 } = some ((), seeded) ∧
      ∀ calls, Runs.AlongAll PmmCall.step PmmCall.Legal calls { pmm := seeded } →
        ∃ r, Runs.afterAll PmmCall.step { pmm := seeded } calls = some r ∧
          (r.live = [] → ∀ b, r.pmm.OnFreeList b ↔ seeded.OnFreeList b) :=
  pmmRun_restores { pmmMemTop := 0x1000000 } ⟨fun _ => rfl, fun _ _ => rfl, by norm_num⟩
    0x800000 0x13000
    (by norm_num) (by norm_num) (by decide) (by decide) (by norm_num)

end Mellivora
