import Mellivora.CRuntime.Malloc

/-!
# Proofs: how blocks lie in the heap

The spans of the free blocks and of the others between the start of the heap and the break, without
what memory says about them. Each lemma is one move of the allocator.
-/

namespace Mellivora

open List

/-- A span that can be a block: aligned, with room for its header, and inside the heap. -/
structure IsBlock (start brk : Nat) (e : Span) : Prop where
  loAligned : 8 ∣ e.lo
  hiAligned : 8 ∣ e.hi
  wide : e.lo + 16 ≤ e.hi
  lo : start ≤ e.lo
  hi : e.hi ≤ brk

/-- Free blocks sorted by address, and other blocks, all of them apart. -/
structure HeapLayout (start brk : Nat) (frees taken : List Span) : Prop where
  freeBlock : ∀ e ∈ frees, IsBlock start brk e
  takenBlock : ∀ e ∈ taken, IsBlock start brk e
  sorted : Span.Sorted frees
  takenApart : taken.Pairwise Span.Apart
  apart : ∀ e ∈ frees, ∀ t ∈ taken, e.Apart t

attribute [local grind cases] HeapLayout

section Layout

variable {start brk : Nat} {frees before after taken : List Span} {e f : Span}

theorem heapLayout_iff :
    HeapLayout start brk frees taken ↔ (∀ e ∈ frees ++ taken, IsBlock start brk e) ∧
    Span.Sorted frees ∧ (frees ++ taken).Pairwise Span.Apart := by
  constructor
  · rintro ⟨hfree, htaken, hsorted, hpair, hapart⟩
    exact ⟨forall_mem_append.mpr ⟨hfree, htaken⟩, hsorted,
      pairwise_append.mpr ⟨hsorted.imp .inl, hpair, hapart⟩⟩
  · rintro ⟨hblock, hsorted, hall⟩
    obtain ⟨hfree, htaken⟩ := forall_mem_append.mp hblock
    obtain ⟨-, hpair, hapart⟩ := pairwise_append.mp hall
    exact ⟨hfree, htaken, hsorted, hpair, hapart⟩

/-- Blocks that change lists stay where they are. -/
theorem HeapLayout.move {frees' taken' : List Span} (h : HeapLayout start brk frees taken)
    (hp : (frees ++ taken).Perm (frees' ++ taken')) (hsorted : Span.Sorted frees') :
    HeapLayout start brk frees' taken' := by
  obtain ⟨hblock, -, hall⟩ := heapLayout_iff.mp h
  exact heapLayout_iff.mpr ⟨fun e he => hblock e (hp.mem_iff.mpr he), hsorted,
    hall.perm hp Span.Apart.symm⟩

theorem HeapLayout.perm {taken' : List Span} (h : HeapLayout start brk frees taken)
    (hp : taken.Perm taken') : HeapLayout start brk frees taken' :=
    h.move (hp.append_left frees) h.sorted

theorem free_perm_taken : (before ++ e :: after ++ taken).Perm (before ++ after ++ e :: taken) :=
  (perm_middle.append_right taken).trans perm_middle.symm

/-- A block goes to its place among the free ones. -/
theorem HeapLayout.insert (h : HeapLayout start brk (before ++ after) (e :: taken))
    (hbefore : ∀ f ∈ before, f.lo < e.lo) (hafter : ∀ f ∈ after, e.lo ≤ f.lo) :
    HeapLayout start brk (before ++ e :: after) taken := by
  have he := (h.takenBlock e (mem_cons_self ..)).wide
  refine h.move free_perm_taken.symm
    (h.sorted.insert (fun f hf => h.apart f hf e (mem_cons_self ..)) ?_ (by omega) hbefore hafter)
  intro f hf
  have hw := (h.freeBlock f hf).wide
  omega

theorem HeapLayout.remove (h : HeapLayout start brk (before ++ e :: after) taken) :
    HeapLayout start brk (before ++ after) (e :: taken) := h.move free_perm_taken h.sorted.remove

/-- The layout with two neighbours made one. -/
theorem HeapLayout.join (h : HeapLayout start brk (before ++ e :: f :: after) taken)
    (htouch : e.hi = f.lo) : HeapLayout start brk (before ++ ⟨e.lo, f.hi⟩ :: after) taken := by
  have he : e ∈ before ++ e :: f :: after := by simp
  have hf : f ∈ before ++ e :: f :: after := by simp
  have hcases : ∀ g ∈ before ++ ⟨e.lo, f.hi⟩ :: after, g = ⟨e.lo, f.hi⟩ ∨
    g ∈ before ++ e :: f :: after := by grind
  refine ⟨?_, h.takenBlock, h.sorted.join, h.takenApart, ?_⟩
  · intro g hg
    rcases hcases g hg with rfl | hg
    · have hle := (h.freeBlock e he).wide
      have hlf := (h.freeBlock f hf).wide
      exact ⟨(h.freeBlock e he).loAligned, (h.freeBlock f hf).hiAligned, by simp only; omega,
        (h.freeBlock e he).lo, (h.freeBlock f hf).hi⟩
    · exact h.freeBlock g hg
  · intro g hg t ht
    rcases hcases g hg with rfl | hg
    · have hpos := (h.takenBlock t ht).wide
      exact (h.apart e he t ht).join (h.apart f hf t ht) htouch (by omega)
    · exact h.apart g hg t ht

/-- The layout with a block cut in two. -/
theorem HeapLayout.split (h : HeapLayout start brk frees (e :: taken)) {mid : Nat} (hmid : 8 ∣ mid)
    (hlo : e.lo + 16 ≤ mid) (hhi : mid + 16 ≤ e.hi) :
    HeapLayout start brk frees (⟨e.lo, mid⟩ :: ⟨mid, e.hi⟩ :: taken) := by
  have he := h.takenBlock e (mem_cons_self ..)
  obtain ⟨hpair, hrest⟩ := pairwise_cons.mp h.takenApart
  have hleft : Span.Within ⟨e.lo, mid⟩ e := ⟨le_refl _, by simp only; omega⟩
  have hright : Span.Within ⟨mid, e.hi⟩ e := ⟨by simp only; omega, le_refl _⟩
  refine ⟨h.freeBlock, ?_, h.sorted, ?_, ?_⟩
  · intro g hg
    rcases mem_cons.mp hg with rfl | hg
    · exact ⟨he.loAligned, hmid, hlo, he.lo, hleft.2.trans he.hi⟩
    rcases mem_cons.mp hg with rfl | hg
    · exact ⟨hmid, he.hiAligned, hhi, he.lo.trans hright.1, he.hi⟩
    · exact h.takenBlock g (mem_cons_of_mem _ hg)
  · refine pairwise_cons.mpr ⟨?_, pairwise_cons.mpr ⟨?_, hrest⟩⟩
    · intro t ht
      rcases mem_cons.mp ht with rfl | ht
      · exact .inl (le_refl _)
      · exact (hpair t ht).within hleft
    · intro t ht
      exact (hpair t ht).within hright
  · intro g hg t ht
    have hge := h.apart g hg e (mem_cons_self ..)
    rcases mem_cons.mp ht with rfl | ht
    · exact (hge.symm.within hleft).symm
    rcases mem_cons.mp ht with rfl | ht
    · exact (hge.symm.within hright).symm
    · exact h.apart g hg t (mem_cons_of_mem _ ht)

/-- The layout with a block more at the end. -/
theorem HeapLayout.grow (h : HeapLayout start brk frees taken) {bytes : Nat} (hbrk : 8 ∣ brk)
    (hbytes : 8 ∣ bytes) (hwide : 16 ≤ bytes) (hstart : start ≤ brk) :
    HeapLayout start (brk + bytes) frees (⟨brk, brk + bytes⟩ :: taken) := by
  have hup : ∀ g, IsBlock start brk g → IsBlock start (brk + bytes) g := by
    intro g hg
    exact { hg with hi := hg.hi.trans (Nat.le_add_right ..) }
  refine ⟨fun g hg => hup g (h.freeBlock g hg), ?_, h.sorted, ?_, ?_⟩
  · intro g hg
    rcases mem_cons.mp hg with rfl | hg
    · exact ⟨hbrk, Nat.dvd_add hbrk hbytes, Nat.add_le_add_left hwide _, hstart, le_refl _⟩
    · exact hup g (h.takenBlock g hg)
  · refine pairwise_cons.mpr ⟨fun t ht => .inr (h.takenBlock t ht).hi, h.takenApart⟩
  · intro g hg t ht
    rcases mem_cons.mp ht with rfl | ht
    · exact .inl (h.freeBlock g hg).hi
    · exact h.apart g hg t ht

theorem HeapLayout.raise (h : HeapLayout start brk frees taken) (bytes : Nat) :
    HeapLayout start (brk + bytes) frees taken := by
  have hup : ∀ g, IsBlock start brk g → IsBlock start (brk + bytes) g := by
    intro g hg
    exact { hg with hi := hg.hi.trans (Nat.le_add_right ..) }
  exact { h with
    freeBlock := fun g hg => hup g (h.freeBlock g hg)
    takenBlock := fun g hg => hup g (h.takenBlock g hg) }

theorem HeapLayout.apart_of_ne (h : HeapLayout start brk frees taken) (he : e ∈ frees ++ taken)
    (hf : f ∈ frees ++ taken) (hne : e ≠ f) : e.Apart f :=
    (heapLayout_iff.mp h).2.2.forall he hf hne

theorem HeapLayout.block (h : HeapLayout start brk frees taken) (he : e ∈ frees ++ taken) :
    IsBlock start brk e := (heapLayout_iff.mp h).1 e he

theorem HeapLayout.header_apart (h : HeapLayout start brk frees taken) (he : e ∈ frees ++ taken)
    (hf : f ∈ frees ++ taken) (hne : e ≠ f) : e.lo + 16 ≤ f.lo ∨ f.lo + 16 ≤ e.lo := by
  have hwe := (h.block he).wide
  have hwf := (h.block hf).wide
  rcases h.apart_of_ne he hf hne with hap | hap
  · exact .inl (by omega)
  · exact .inr (by omega)

theorem HeapLayout.ne_of_free (h : HeapLayout start brk frees taken) (he : e ∈ frees)
    (hf : f ∈ taken) : f ≠ e := by
  rintro rfl
  have hw := (h.freeBlock f he).wide
  rcases h.apart f he f hf with hap | hap <;> omega

theorem HeapLayout.length_lt (h : HeapLayout start brk frees taken) (hbrk : brk < 2 ^ 32)
    (hstart : start ≤ brk) : frees.length < walkTurns := by
  have hroom := h.sorted.length_le (fun e he => (h.freeBlock e he).wide) hstart
    (fun e he => (h.freeBlock e he).lo) fun e he => (h.freeBlock e he).hi
  unfold walkTurns
  omega

end Layout

end Mellivora
