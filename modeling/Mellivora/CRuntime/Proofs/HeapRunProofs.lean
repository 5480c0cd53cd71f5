import Mellivora.CRuntime.Proofs.MallocProofs

/-!
# Proofs: programs that use the C heap

The invariant of the heap holds along every run of a program whose requests are not rounded up to 0,
so its heap is sound. A request that is gets a block that is too small.
-/

namespace Mellivora

open List

variable {start : Nat} {frees loose : List Span} {held : List (Span × Nat)} {s : CHeap}
  {mem : Buffer}

/-- The payload of a block that is given out, with the size that was asked for. -/
def payload (x : Span × Nat) : Nat × Nat := (x.1.lo + 16, x.2)

/-- The invariant of a program's run: the live payloads are those of the blocks given out. -/
def HeapRun.Inv (start : Nat) (r : HeapRun) : Prop :=
  ∃ frees held, HeapInv start frees [] held r.heap ∧ r.live = held.map payload

variable {r : HeapRun}

/-- The blocks given out, without the one whose payload is at `ptr`. -/
def heldBut (held : List (Span × Nat)) (ptr : Nat) : List (Span × Nat) :=
  held.filter fun x => x.1.lo + 16 ≠ ptr

theorem gave_map_payload (ptr : Nat) :
    HeapRun.gave (held.map payload) ptr = (heldBut held ptr).map payload := by
  rw [HeapRun.gave, heldBut, filter_map]
  rfl

theorem heldBut_zero : heldBut held 0 = held := by
  refine filter_eq_self.mpr fun x _ => ?_
  simp

theorem HeapInv.perm_heldBut (h : HeapInv start frees loose held s) {x : Span × Nat}
    (hx : x ∈ held) :
    held.Perm (x :: heldBut held (x.1.lo + 16)) := by
  have hne : held.Pairwise fun y z => y.1.lo ≠ z.1.lo := by
    have hap := (pairwise_append.mp h.layout.takenApart).2.1
    refine (pairwise_map.mp hap).imp_of_mem fun {y z} hy hz hyz heq => ?_
    have hwy := (h.layout.takenBlock y.1 (mem_append_right _ (mem_map_of_mem hy))).wide
    have hwz := (h.layout.takenBlock z.1 (mem_append_right _ (mem_map_of_mem hz))).wide
    rcases hyz with hyz | hyz <;> omega
  clear h
  induction held with
  | nil => cases hx
  | cons y held ih =>
  obtain ⟨hy, hrest⟩ := pairwise_cons.mp hne
  by_cases heq : y.1.lo = x.1.lo
  · have hxy : x = y := by
      rcases mem_cons.mp hx with hx | hx
      · exact hx
      · exact absurd heq (hy x hx)
    subst hxy
    have hall : heldBut (x :: held) (x.1.lo + 16) = held := by
      rw [heldBut, filter_cons_of_neg (by simp)]
      refine filter_eq_self.mpr fun z hz => ?_
      have hz' := hy z hz
      simp only [ne_eq, decide_not, Bool.not_eq_eq_eq_not, Bool.not_true, decide_eq_false_iff_not]
      omega
    rw [hall]
  · have hx' : x ∈ held := by
      rcases mem_cons.mp hx with hx | hx
      · exact absurd (congrArg (fun z : Span × Nat => z.1.lo) hx).symm heq
      · exact hx
    have hcons : heldBut (y :: held) (x.1.lo + 16) = y :: heldBut held (x.1.lo + 16) := by
      rw [heldBut, filter_cons_of_pos (by simpa using heq)]
      rfl
    rw [hcons]
    exact ((ih hx' hrest).cons y).trans (List.Perm.swap ..)

theorem exists_held {ptr n : Nat} (h : (ptr, n) ∈ held.map payload) :
    ∃ x ∈ held, ptr = x.1.lo + 16 := by
  obtain ⟨x, hx, heq⟩ := mem_map.mp h
  exact ⟨x, hx, (congrArg Prod.fst heq).symm⟩

theorem Given.inv {p n : Nat} (h : Given start held n p s) :
    HeapRun.Inv start { heap := s, live := HeapRun.got (held.map payload) p n } := by
  rcases h with ⟨rfl, frees, h⟩ | ⟨e, frees, rfl, h⟩
  · exact ⟨frees, held, h, by rw [HeapRun.got, if_pos rfl]⟩
  · exact ⟨frees, (e, n) :: held, h, by rw [HeapRun.got, if_neg (Nat.succ_ne_zero _)]; rfl⟩

/-- Every legal call returns and keeps the invariant. -/
theorem HeapRun.Inv.step (h : r.Inv start) (c : HeapCall) (hlegal : c.Legal r) (hfits : c.Fits r) :
    ∃ r', c.step r = some r' ∧ r'.Inv start := by
  obtain ⟨heap, live⟩ := r
  obtain ⟨frees, held, hinv, rfl⟩ := h
  cases c with
  | malloc size =>
    obtain ⟨p, s', hrun, hgiven⟩ := returns_malloc hinv hfits
    exact ⟨_, by rw [HeapCall.step, hrun]; rfl, hgiven.inv⟩
  | calloc count size =>
    obtain ⟨p, s', hrun, hgiven⟩ := returns_calloc hinv hfits
    exact ⟨_, by rw [HeapCall.step, hrun]; rfl, hgiven.inv⟩
  | realloc ptr size =>
    rcases hlegal.2 with rfl | ⟨n, hmem⟩
    · obtain ⟨p, s', hrun, hgiven⟩ := returns_malloc hinv hfits
      have hrun' : (Mellivora.realloc 0 size).run heap =
        some (p, s') := by rw [realloc, if_pos rfl, hrun]
      refine ⟨_, by rw [HeapCall.step, hrun']; rfl, ?_⟩
      simp only [gave_map_payload, heldBut_zero, ite_self]
      exact hgiven.inv
    obtain ⟨x, hx, rfl⟩ := exists_held hmem
    obtain ⟨p, s', hrun, hpost⟩ := returns_realloc hinv (hinv.perm_heldBut hx) hfits
    refine ⟨_, by rw [HeapCall.step, hrun]; rfl, ?_⟩
    by_cases hnull : p = 0 ∧ size ≠ 0
    · rw [if_pos hnull] at hpost
      obtain ⟨frees', h'⟩ := hpost
      simp only [if_pos hnull]
      rw [hnull.1, HeapRun.got, if_pos rfl]
      exact ⟨frees', held, h', rfl⟩
    · rw [if_neg hnull] at hpost
      simp only [if_neg hnull, gave_map_payload]
      exact hpost.inv
  | free ptr =>
    rcases hlegal with rfl | ⟨n, hmem⟩
    · refine ⟨_, by rw [HeapCall.step, free, if_pos rfl]; rfl, ?_⟩
      rw [gave_map_payload, heldBut_zero]
      exact ⟨frees, held, hinv, rfl⟩
    · obtain ⟨x, hx, rfl⟩ := exists_held hmem
      obtain ⟨_, s', hrun, -, frees', h'⟩ := returns_free hinv (hinv.perm_heldBut hx)
      refine ⟨_, by rw [HeapCall.step, hrun]; rfl, ?_⟩
      rw [gave_map_payload]
      exact ⟨frees', _, h', rfl⟩
  | write addr value =>
    obtain ⟨a, ha, hlo, hhi⟩ := hlegal
    obtain ⟨x, hx, rfl⟩ := mem_map.mp ha
    refine ⟨_, rfl, frees, held, ?_, rfl⟩
    refine hinv.writeHeld hx hlo (Nat.succ_le_of_lt hhi) fun i hi => Function.update_of_ne ?_ _ _
    omega

/-- What the invariant says to a program. -/
theorem HeapRun.Inv.sound (h : r.Inv start) : ∃ frees, r.Sound start frees := by
  obtain ⟨heap, live⟩ := r
  obtain ⟨frees, held, hinv, rfl⟩ := h
  have hheld : ∀ x ∈ held, x.1 ∈ frees ++ ([] ++ held.map Prod.fst) := fun x hx =>
    mem_append_right _ (mem_append_right _ (mem_map_of_mem hx))
  have hlos : (held.map payload).map (fun a => a.1 - hdrSize) =
    (held.map Prod.fst).map Span.lo := by
    rw [map_map, map_map]
    exact map_congr_left fun x _ => Nat.add_sub_cancel ..
  have hspan : ∀ e ∈ frees ++ held.map Prod.fst, blkSpan heap.mem e.lo = e := fun e he => by
    have hsize := hinv.size e he
    cases e
    simpa [blkSpan, hdrSize] using hsize
  have hall : (frees ++ held.map Prod.fst).Pairwise Span.Apart :=
    pairwise_append.mpr
      ⟨hinv.layout.sorted.imp Or.inl, hinv.layout.takenApart, hinv.layout.apart⟩
  refine ⟨frees.map Span.lo, hinv.list, ?_, ?_, ?_, ?_, ?_⟩
  · refine pairwise_map.mpr (hinv.layout.sorted.imp_of_mem fun he _ hle => ?_)
    have hw := (hinv.layout.freeBlock _ he).wide
    omega
  · intro a ha
    obtain ⟨x, hx, rfl⟩ := mem_map.mp ha
    exact Nat.dvd_add (hinv.layout.block (hheld x hx)).loAligned (by decide)
  · intro a ha
    obtain ⟨x, hx, rfl⟩ := mem_map.mp ha
    have hsize : x.1.lo + 16 + blkSize heap.mem x.1.lo = x.1.hi := hinv.size x.1 (hheld x hx)
    have henough := hinv.enough x hx
    refine ⟨Nat.le_add_left .., ?_⟩
    show x.2 ≤ blkSize heap.mem (x.1.lo + 16 - 16)
    rw [Nat.add_sub_cancel]
    omega
  · rw [hlos, ← map_append]
    refine pairwise_map.mpr (hall.imp_of_mem fun he hf hap => ?_)
    rwa [hspan _ he, hspan _ hf]
  · intro b hb
    rw [hlos, ← map_append] at hb
    obtain ⟨e, he, rfl⟩ := mem_map.mp hb
    rw [hspan e he]
    exact ⟨(hinv.layout.block he).lo, (hinv.layout.block he).hi⟩

theorem HeapRun.Inv.initial {grants : List Bool} (h8 : 8 ∣ start) (hpos : 0 < start)
    (hlt : start < 2 ^ 32) :
    (HeapRun.initial mem start grants).Inv start := by
  refine ⟨[], [], ⟨⟨?_, ?_, ?_, ?_, ?_⟩, hpos, le_refl _, h8, hlt, rfl, ?_, ?_, ?_⟩, rfl⟩ <;>
    simp [Span.Sorted]

/-- Whatever a program does, as long as it asks for no more than `maxRequest` bytes at a time, every
call ends and the heap is sound after every one. -/
theorem heapRun_sound (mem : Buffer) (start : Nat) (grants : List Bool) (h8 : 8 ∣ start)
    (hpos : 0 < start) (hlt : start < 2 ^ 32) (calls : List HeapCall)
    (hlegal : Runs.AlongAll HeapCall.step HeapCall.Legal calls (HeapRun.initial mem start grants))
    (hfits : Runs.AlongAll HeapCall.step HeapCall.Fits calls (HeapRun.initial mem start grants)) :
    ∃ r, Runs.afterAll HeapCall.step (HeapRun.initial mem start grants) calls = some r ∧
      ∃ frees, r.Sound start frees := by
  have hinit : (HeapRun.initial mem start grants).Inv start := HeapRun.Inv.initial h8 hpos hlt
  obtain ⟨r, hrun, hr⟩ := (hlegal.and hfits).invariant
    (fun c r hr hc => hr.step c hc.1 hc.2) hinit
  exact ⟨r, hrun, hr.sound⟩

/-- A program that makes a payload larger and frees it. -/
theorem heapRun_sound_onePayload :
    ∃ r, Runs.afterAll HeapCall.step (HeapRun.initial (fun _ => 0) 0x501000 [true])
        [.malloc 8, .realloc 0x501010 100, .free 0x501028] = some r ∧
      ∃ frees, r.Sound 0x501000 frees := by
  have hmalloc : (HeapCall.step (.malloc 8) (HeapRun.initial (fun _ => 0) 0x501000 [true])).map
    HeapRun.live =
      some [(0x501010, 8)] := by decide +kernel
  have hrealloc : ((HeapCall.step (.malloc 8) (HeapRun.initial (fun _ => 0) 0x501000 [true])).bind
      (HeapCall.step (.realloc 0x501010 100))).map HeapRun.live =
      some [(0x501028, 100)] := by decide +kernel
  refine heapRun_sound _ _ _ (by decide) (by decide) (by decide) _
    ⟨?_, fun r1 h1 => ⟨?_, fun r2 h2 => ⟨?_, ?_⟩⟩⟩
    ⟨?_, fun _ _ => ⟨?_, fun _ _ => ⟨trivial, fun _ _ => trivial⟩⟩⟩
  · show (8 : Nat) < 2 ^ 32
    decide
  · rw [h1] at hmalloc
    exact ⟨by decide, Or.inr ⟨8, by rw [Option.some.inj hmalloc]; simp⟩⟩
  · rw [h1, Option.bind_some, h2] at hrealloc
    exact Or.inr ⟨100, by rw [Option.some.inj hrealloc]; simp⟩
  · exact fun _ _ => trivial
  · show (8 : Nat) ≤ maxRequest
    decide
  · show (100 : Nat) ≤ maxRequest
    decide

/-- A request for 4 GB less a byte is rounded up to 0 and gets a payload of 0 bytes. -/
theorem hugeRequest_not_sound :
    Runs.AlongAll HeapCall.step HeapCall.Legal [.malloc 0xFFFFFFFF]
      (HeapRun.initial (fun _ => 0) 0x501000 [true]) ∧
      ∃ r, Runs.afterAll HeapCall.step (HeapRun.initial (fun _ => 0) 0x501000 [true])
          [.malloc 0xFFFFFFFF] = some r ∧ ¬ ∃ frees, r.Sound 0x501000 frees := by
  have hrun : (Runs.afterAll HeapCall.step (HeapRun.initial (fun _ => 0) 0x501000 [true])
      [.malloc 0xFFFFFFFF]).map (fun r => (r.live, blkSize r.heap.mem 0x501000)) =
        some ([(0x501010, 0xFFFFFFFF)], 0) := by
    decide +kernel
  obtain ⟨r, hr, hlive⟩ := Option.map_eq_some_iff.mp hrun
  refine ⟨⟨show 0xFFFFFFFF < 2 ^ 32 by decide, fun _ _ => trivial⟩, r, hr, ?_⟩
  rintro ⟨frees, hsound⟩
  obtain ⟨hlive, hsize⟩ := Prod.mk.inj hlive
  have henough := (hsound.enough (0x501010, 0xFFFFFFFF) (by rw [hlive]; simp)).2
  have haddr : 0x501010 - hdrSize = 0x501000 := rfl
  simp only [haddr, hsize] at henough
  omega

end Mellivora
