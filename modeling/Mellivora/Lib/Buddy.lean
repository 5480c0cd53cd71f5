import Mathlib.Order.CompletePartialOrder
import Mathlib.Data.Set.BooleanAlgebra
import Mathlib.Data.List.Pairwise
import Mathlib.Data.Nat.Bitwise
import Mathlib.Tactic.Ring

/-!
# Buddy blocks

A block of order `k` is `2 ^ k` pages long and starts at a multiple of its length; its buddy is the
block beside it with which it makes up one of the next order. A list of blocks tiles a set of pages
when they are disjoint and cover it. Splitting a block into buddies and joining buddies keep a
tiling. A tiling that has no two buddies below the largest order is the only one of its set.
-/

namespace Buddy

/-- `2 ^ order` pages from `page` on. -/
structure Block where
  page : Nat
  order : Nat
deriving DecidableEq, Repr

namespace Block

variable {a b c : Block} {x : Nat}

/-- The pages of a block. -/
def pages (b : Block) : Set Nat := Set.Ico b.page (b.page + 2 ^ b.order)

/-- The block starts at a multiple of its length. -/
def Aligned (b : Block) : Prop := 2 ^ b.order ∣ b.page

/-- The block that makes up the next larger one with `b`. -/
def buddy (b : Block) : Block := ⟨b.page ^^^ 2 ^ b.order, b.order⟩

theorem mem_pages : x ∈ b.pages ↔ b.page ≤ x ∧ x < b.page + 2 ^ b.order := Iff.rfl

theorem page_mem_pages (b : Block) :
    b.page ∈ b.pages := ⟨le_rfl, Nat.lt_add_of_pos_right (Nat.two_pow_pos _)⟩

/-- The pages of an aligned block share their upper bits. -/
theorem Aligned.mem_pages_iff (hb : b.Aligned) :
    x ∈ b.pages ↔ x / 2 ^ b.order = b.page / 2 ^ b.order := by
  have hpos : 0 < 2 ^ b.order := Nat.two_pow_pos _
  obtain ⟨u, hu⟩ := hb
  rw [mem_pages, hu, Nat.mul_div_cancel_left _ hpos, Nat.div_eq_iff hpos]
  constructor
  · rintro ⟨h1, h2⟩
    rw [mul_comm] at h1 h2
    omega
  · rintro ⟨h1, h2⟩
    rw [mul_comm]
    omega

/-- Aligned blocks that meet are nested. -/
theorem Aligned.subset (ha : a.Aligned) (hb : b.Aligned) (hle : a.order ≤ b.order)
    (hxa : x ∈ a.pages) (hxb : x ∈ b.pages) : a.pages ⊆ b.pages := by
  intro y hy
  rw [hb.mem_pages_iff] at hxb ⊢
  rw [ha.mem_pages_iff] at hxa hy
  have hpow : 2 ^ b.order = 2 ^ a.order * 2 ^ (b.order - a.order) := by
    rw [← pow_add, Nat.add_sub_cancel' hle]
  rw [hpow, ← Nat.div_div_eq_div_mul] at hxb ⊢
  rw [hy, ← hxa]
  exact hxb

/-- Aligned blocks of one order that meet are the same. -/
theorem Aligned.eq (ha : a.Aligned) (hb : b.Aligned) (horder : a.order = b.order)
    (hxa : x ∈ a.pages) (hxb : x ∈ b.pages) : a = b := by
  have hab := ha.subset hb horder.le hxa hxb a.page_mem_pages
  have hba := hb.subset ha horder.ge hxb hxa b.page_mem_pages
  have hpage : a.page = b.page := le_antisymm hba.1 hab.1
  cases a
  cases b
  simp_all

/-! ## Buddies -/

/-- Which of the two buddies is the lower one. -/
theorem Aligned.buddy_page (hb : b.Aligned) :
    (2 ^ (b.order + 1) ∣ b.page ∧ b.buddy.page = b.page + 2 ^ b.order) ∨
      (2 ^ (b.order + 1) ∣ b.buddy.page ∧ b.page = b.buddy.page + 2 ^ b.order) := by
  obtain ⟨u, hu⟩ := hb
  have hxor : b.buddy.page = 2 ^ b.order * (u ^^^ 1) := by
    have hshift : b.page ^^^ 2 ^ b.order = (u ^^^ 1) <<< b.order := by
      rw [Nat.shiftLeft_xor_distrib, Nat.shiftLeft_eq, Nat.shiftLeft_eq, one_mul, hu, Nat.mul_comm]
    rw [show b.buddy.page = b.page ^^^ 2 ^ b.order from rfl, hshift, Nat.shiftLeft_eq, Nat.mul_comm]
  rcases Nat.even_or_odd u with heven | hodd
  · left
    obtain ⟨v, hv⟩ := heven
    refine ⟨⟨v, ?_⟩, ?_⟩
    · rw [hu, hv, pow_succ]
      ring
    · rw [hxor, Nat.xor_one_of_even ⟨v, hv⟩, hu]
      ring
  · right
    obtain ⟨v, hv⟩ := hodd
    have heq : u ^^^ 1 = 2 * v := by
      rw [Nat.xor_one_of_odd ⟨v, hv⟩, hv]
      rfl
    refine ⟨⟨v, ?_⟩, ?_⟩
    · rw [hxor, heq, pow_succ]
      ring
    · rw [hxor, heq, hu, hv]
      ring

theorem Aligned.buddy (hb : b.Aligned) : b.buddy.Aligned := by
  have hpow : 2 ^ b.order ∣ 2 ^ (b.order + 1) := pow_dvd_pow 2 (Nat.le_succ _)
  rcases hb.buddy_page with ⟨-, hpage⟩ | ⟨hdvd, -⟩
  · show 2 ^ b.order ∣ b.buddy.page
    rw [hpage]
    exact Nat.dvd_add hb (dvd_refl _)
  · exact hpow.trans hdvd

theorem buddy_buddy (b : Block) : b.buddy.buddy = b := by
  show (⟨(b.page ^^^ 2 ^ b.order) ^^^ 2 ^ b.order, b.order⟩ : Block) = b
  rw [Nat.xor_xor_cancel_right]

theorem Aligned.buddy_ne (hb : b.Aligned) : b.buddy ≠ b := by
  intro heq
  have hpos : 0 < 2 ^ b.order := Nat.two_pow_pos _
  rcases hb.buddy_page with ⟨-, hpage⟩ | ⟨-, hpage⟩ <;>
  · rw [heq] at hpage
    omega

/-- The block that `b` and its buddy make up. -/
def parent (b : Block) : Block := ⟨min b.page b.buddy.page, b.order + 1⟩

theorem Aligned.parent (hb : b.Aligned) : b.parent.Aligned := by
  show 2 ^ (b.order + 1) ∣ min b.page b.buddy.page
  rcases hb.buddy_page with ⟨hdvd, hpage⟩ | ⟨hdvd, hpage⟩
  · rwa [hpage, Nat.min_eq_left (Nat.le_add_right _ _)]
  · rwa [hpage, Nat.min_eq_right (Nat.le_add_right _ _)]

/-- The lower half of a block and the upper one. -/
theorem buddy_of_dvd {page order : Nat} (h : 2 ^ (order + 1) ∣ page) :
    (⟨page, order⟩ : Block).buddy = ⟨page + 2 ^ order, order⟩ ∧ (⟨page, order⟩ : Block).parent =
    ⟨page, order + 1⟩ := by
  set b : Block := ⟨page, order⟩
  have hal : b.Aligned := (pow_dvd_pow 2 (Nat.le_succ _)).trans h
  have hpage : b.buddy.page = page + 2 ^ order := by
    rcases hal.buddy_page with ⟨-, hpage⟩ | ⟨hdvd, hpage⟩
    · exact hpage
    have hhalf : 2 ^ (order + 1) ∣ 2 ^ order := by
      have heq : page = b.buddy.page + 2 ^ order := hpage
      rw [heq] at h
      exact (Nat.dvd_add_right hdvd).mp h
    have hle := Nat.le_of_dvd (Nat.two_pow_pos _) hhalf
    have hlt : 2 ^ order < 2 ^ (order + 1) :=
      Nat.pow_lt_pow_right (by norm_num) (Nat.lt_succ_self _)
    omega
  have hbuddy : b.buddy = ⟨page + 2 ^ order, order⟩ := by
    rw [← hpage]
    rfl
  refine ⟨hbuddy, ?_⟩
  show (⟨min page b.buddy.page, order + 1⟩ : Block) = _
  rw [hpage, Nat.min_eq_left (Nat.le_add_right _ _)]

theorem Aligned.mem_parent (hb : b.Aligned) :
    x ∈ b.parent.pages ↔ x ∈ b.pages ∨ x ∈ b.buddy.pages := by
  have hmem : x ∈ b.parent.pages ↔
      min b.page b.buddy.page ≤ x ∧ x < min b.page b.buddy.page + 2 ^ (b.order + 1) := Iff.rfl
  have hbuddy : x ∈ b.buddy.pages ↔ b.buddy.page ≤ x ∧ x < b.buddy.page + 2 ^ b.order := Iff.rfl
  rw [hmem, hbuddy, mem_pages, pow_succ]
  rcases hb.buddy_page with ⟨-, hpage⟩ | ⟨-, hpage⟩ <;> omega

theorem Aligned.disjoint_buddy (hb : b.Aligned) : Disjoint b.pages b.buddy.pages := by
  rw [Set.disjoint_left]
  intro x hx hx'
  have hbuddy : b.buddy.page ≤ x ∧ x < b.buddy.page + 2 ^ b.order := hx'
  have hb' := mem_pages.mp hx
  rcases hb.buddy_page with ⟨-, hpage⟩ | ⟨-, hpage⟩ <;> omega

end Block

open Block Nat

variable {l l' : List Block} {X : Set Nat} {b c : Block} {m : Nat}

/-! ## Tilings -/

/-- The blocks are disjoint and make up `X`. -/
structure Tiles (l : List Block) (X : Set Nat) : Prop where
  aligned : ∀ b ∈ l, b.Aligned
  disjoint : l.Pairwise fun a b => Disjoint a.pages b.pages
  cover : ∀ x, x ∈ X ↔ ∃ b ∈ l, x ∈ b.pages

theorem tiles_nil : Tiles [] ∅ := ⟨by simp, List.Pairwise.nil, by simp⟩

theorem Tiles.perm (h : Tiles l X) (hl : l.Perm l') : Tiles l' X := by
  refine ⟨fun b hb => h.aligned b (hl.mem_iff.mpr hb), ?_, fun x => ?_⟩
  · exact hl.pairwise h.disjoint fun hd => hd.symm
  rw [h.cover x]
  constructor
  · rintro ⟨b, hb, hx⟩
    exact ⟨b, hl.mem_iff.mp hb, hx⟩
  · rintro ⟨b, hb, hx⟩
    exact ⟨b, hl.mem_iff.mpr hb, hx⟩

/-- A tiling with one block more. -/
theorem Tiles.cons (h : Tiles l X) (hb : b.Aligned) (hdisj : Disjoint b.pages X) :
    Tiles (b :: l) (X ∪ b.pages) := by
  refine ⟨?_, ?_, fun x => ?_⟩
  · intro c hc
    rcases List.mem_cons.mp hc with rfl | hc
    · exact hb
    · exact h.aligned c hc
  · refine List.pairwise_cons.mpr ⟨fun c hc => ?_, h.disjoint⟩
    refine hdisj.mono_right fun x hx => ?_
    exact (h.cover x).mpr ⟨c, hc, hx⟩
  · rw [Set.mem_union, h.cover x]
    simp only [List.mem_cons, exists_eq_or_imp]
    exact or_comm

theorem Tiles.disjoint_head (h : Tiles (b :: l) X) : ∀ c ∈ l, Disjoint b.pages c.pages :=
  (List.pairwise_cons.mp h.disjoint).1

/-- Two blocks of the tiling that meet are the same. -/
theorem Tiles.eq_of_mem (h : Tiles l X) {x : Nat} (hb : b ∈ l) (hc : c ∈ l) (hxb : x ∈ b.pages)
    (hxc : x ∈ c.pages) : b = c := by
  by_contra hne
  have hdisj := h.disjoint.forall hb hc hne
  exact Set.disjoint_left.mp hdisj hxb hxc

theorem Tiles.nodup (h : Tiles l X) : l.Nodup := by
  refine h.disjoint.imp fun {a b} hd => ?_
  rintro rfl
  exact Set.disjoint_left.mp hd a.page_mem_pages a.page_mem_pages

/-- Buddies may be joined, and a block split into buddies. -/
theorem tiles_buddy_iff (hb : b.Aligned) :
    Tiles (b :: b.buddy :: l) X ↔ Tiles (b.parent :: l) X := by
  have hsplit : ∀ c : Block, Disjoint b.parent.pages c.pages ↔
      Disjoint b.pages c.pages ∧ Disjoint b.buddy.pages c.pages := by
    intro c
    have hunion : b.parent.pages = b.pages ∪ b.buddy.pages := Set.ext fun x => hb.mem_parent
    rw [hunion, Set.disjoint_union_left]
  constructor
  · intro h
    obtain ⟨hhead, htail⟩ := List.pairwise_cons.mp h.disjoint
    obtain ⟨hbuddy, hrest⟩ := List.pairwise_cons.mp htail
    refine ⟨?_, ?_, fun x => ?_⟩
    · intro c hc
      rcases List.mem_cons.mp hc with rfl | hc
      · exact hb.parent
      · exact h.aligned c (List.mem_cons_of_mem _ (List.mem_cons_of_mem _ hc))
    · refine List.pairwise_cons.mpr ⟨fun c hc => ?_, hrest⟩
      exact (hsplit c).mpr ⟨hhead c (List.mem_cons_of_mem _ hc), hbuddy c hc⟩
    · rw [h.cover x]
      simp only [List.mem_cons, exists_eq_or_imp, hb.mem_parent, or_assoc]
  · intro h
    obtain ⟨hhead, hrest⟩ := List.pairwise_cons.mp h.disjoint
    refine ⟨?_, ?_, fun x => ?_⟩
    · intro c hc
      rcases List.mem_cons.mp hc with rfl | hc
      · exact hb
      rcases List.mem_cons.mp hc with rfl | hc
      · exact hb.buddy
      · exact h.aligned c (List.mem_cons_of_mem _ hc)
    · refine List.pairwise_cons.mpr ⟨?_, List.pairwise_cons.mpr ⟨?_, hrest⟩⟩
      · intro c hc
        rcases List.mem_cons.mp hc with rfl | hc
        · exact hb.disjoint_buddy
        · exact ((hsplit c).mp (hhead c hc)).1
      · intro c hc
        exact ((hsplit c).mp (hhead c hc)).2
    · rw [h.cover x]
      simp only [List.mem_cons, exists_eq_or_imp, hb.mem_parent, or_assoc]

/-! ## Tilings without buddies -/

/-- No block of order below `m` has its buddy beside it in the list. -/
def NoBuddies (m : Nat) (l : List Block) : Prop := ∀ b ∈ l, b.order < m → b.buddy ∉ l

theorem NoBuddies.mono (h : NoBuddies m l) (hsub : ∀ b ∈ l', b ∈ l) : NoBuddies m l' :=
  fun b hb hlt hbuddy => h b (hsub b hb) hlt (hsub _ hbuddy)

/-- A block whose buddy is not free. -/
theorem NoBuddies.cons (h : NoBuddies m l) (hb : b.Aligned) (hbuddy : b.order < m → b.buddy ∉ l) :
    NoBuddies m (b :: l) := by
  intro c hc hlt hmem
  rcases List.mem_cons.mp hc with rfl | hc
  · rcases List.mem_cons.mp hmem with heq | hmem
    · exact hb.buddy_ne heq
    · exact hbuddy hlt hmem
  rcases List.mem_cons.mp hmem with heq | hmem
  · refine hbuddy ?_ ?_
    · rw [← heq]
      exact hlt
    · rw [← heq, c.buddy_buddy]
      exact hc
  · exact h c hc hlt hmem

/-- In a tiling without buddies no block is a proper part of one that the set contains. -/
theorem Tiles.not_lt (h : Tiles l X) (hn : NoBuddies m l) (hc : c.Aligned) (hcm : c.order ≤ m)
    (hcX : c.pages ⊆ X) (hb : b ∈ l) (hbc : b.pages ⊆ c.pages) : ¬ b.order < c.order := by
  -- The buddy of a smallest part would have to be made up of smaller parts still.
  induction hk : b.order using Nat.strong_induction_on generalizing b with
  | h k ih =>
    subst hk
    intro hlt
    have hal := h.aligned b hb
    have hparent : b.parent.pages ⊆ c.pages :=
      hal.parent.subset hc hlt (hal.mem_parent.mpr (.inl b.page_mem_pages)) (hbc b.page_mem_pages)
    have hbuddy : b.buddy.page ∈ c.pages :=
      hparent (hal.mem_parent.mpr (.inr b.buddy.page_mem_pages))
    obtain ⟨e, he, hpage⟩ := (h.cover _).mp (hcX hbuddy)
    have hale := h.aligned e he
    rcases lt_trichotomy e.order b.order with hlt' | heq | hgt
    · have hsub : e.pages ⊆ b.buddy.pages :=
        hale.subset hal.buddy hlt'.le hpage b.buddy.page_mem_pages
      refine ih e.order hlt' he (fun x hx => ?_) rfl (hlt'.trans hlt)
      exact hparent (hal.mem_parent.mpr (.inr (hsub hx)))
    · have hsame : e = b.buddy := hale.eq hal.buddy heq hpage b.buddy.page_mem_pages
      exact hn b hb (hlt.trans_le hcm) (hsame ▸ he)
    · have hsub : b.parent.pages ⊆ e.pages := hal.parent.subset hale hgt
        (hal.mem_parent.mpr (.inr b.buddy.page_mem_pages)) hpage
      have hin : b.page ∈ e.pages := hsub (hal.mem_parent.mpr (.inl b.page_mem_pages))
      have hsame := h.eq_of_mem he hb hin b.page_mem_pages
      rw [hsame] at hgt
      exact lt_irrefl _ hgt

/-- A tiling without buddies is the only one of its set. -/
theorem Tiles.mem_iff (h : Tiles l X) (h' : Tiles l' X) (hn : NoBuddies m l) (hn' : NoBuddies m l')
    (hm : ∀ b ∈ l, b.order ≤ m) (hm' : ∀ b ∈ l', b.order ≤ m) : b ∈ l ↔ b ∈ l' := by
  have hone : ∀ {l l' : List Block}, Tiles l X → Tiles l' X → NoBuddies m l → NoBuddies m l' →
      (∀ b ∈ l, b.order ≤ m) → (∀ b ∈ l', b.order ≤ m) → b ∈ l → b ∈ l' := by
    intro l l' h h' hn hn' hm hm' hb
    have hX : ∀ {l : List Block} {c : Block}, Tiles l X → c ∈ l → c.pages ⊆ X :=
      fun h hc x hx => (h.cover x).mpr ⟨_, hc, hx⟩
    obtain ⟨c, hc, hpage⟩ := (h'.cover _).mp (hX h hb b.page_mem_pages)
    have halb := h.aligned b hb
    have halc := h'.aligned c hc
    rcases lt_trichotomy b.order c.order with hlt | heq | hgt
    · have hsub := halb.subset halc hlt.le b.page_mem_pages hpage
      exact absurd hlt (h.not_lt hn halc (hm' c hc) (hX h' hc) hb hsub)
    · rwa [halb.eq halc heq b.page_mem_pages hpage]
    · have hsub := halc.subset halb hgt.le hpage b.page_mem_pages
      exact absurd hgt (h'.not_lt hn' halb (hm b hb) (hX h hb) hc hsub)
  exact ⟨hone h h' hn hn' hm hm', hone h' h hn' hn hm' hm⟩

end Buddy
