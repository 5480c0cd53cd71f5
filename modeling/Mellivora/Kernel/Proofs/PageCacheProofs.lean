import Mellivora.Kernel.PageCache
import Mathlib.Data.List.Nodup

/-!
# Proofs: the page cache

As long as no count is full when it should grow, the count of an entry is the number of references
to its frame, so that what is evicted or invalidated is not in use.
-/

namespace Mellivora

open Runs Function List

variable {s s' : PageCache} {held : Nat → Nat} {i j frame block : Nat}

namespace PageCache

/-- The cache's invariant: an entry's count is that of the mappings that hold its frame. -/
structure Inv (s : PageCache) (held : Nat → Nat) : Prop where
  empty : ∀ i < pcEntries, s.tags i = 0 → s.frames i = 0 ∧ s.refs i = 0
  live : ∀ i < pcEntries, s.tags i ≠ 0 → s.frames i ≠ 0 ∧ s.refs i = held (s.frames i) ∧
    s.frames i ∉ s.pool
  tags : s.Unique
  frames : ∀ i < pcEntries, ∀ j < pcEntries, s.frames i = s.frames j → s.frames i ≠ 0 → i = j
  others : ∀ frame, held frame ≠ 0 → ∃ i < pcEntries, s.tags i ≠ 0 ∧ s.frames i = frame
  pool : s.pool.Nodup ∧ 0 ∉ s.pool

attribute [local grind cases] Inv
attribute [local grind =] Unique

theorem Inv.tag_ne_zero (h : s.Inv held) (hi : i < pcEntries) (hframe : s.frames i ≠ 0) :
    s.tags i ≠ 0 :=
  fun hempty => hframe (h.empty i hi hempty).1

theorem Inv.held_of_pool (h : s.Inv held) (hframe : frame ∈ s.pool) : held frame = 0 := by
  by_contra hheld
  obtain ⟨i, hi, htag, rfl⟩ := h.others frame hheld
  exact (h.live i hi htag).2.2 hframe

theorem Inv.congr (h : s.Inv held) (htags : s'.tags = s.tags) (hframes : s'.frames = s.frames)
    (hrefs : s'.refs = s.refs) (hpool : s'.pool = s.pool) : s'.Inv held := by
  refine ⟨?_, ?_, ?_, ?_, ?_, ?_⟩
  · rw [htags, hframes, hrefs]
    exact h.empty
  · rw [htags, hframes, hrefs, hpool]
    exact h.live
  · unfold Unique
    rw [htags]
    exact h.tags
  · rw [hframes]
    exact h.frames
  · rw [htags, hframes]
    exact h.others
  · rw [hpool]
    exact h.pool

/-! ## Entries -/

@[grind =] theorem tags_setEntry (s : PageCache) (i tag frame j : Nat) :
    (s.setEntry i tag frame).tags j = if j = i then tag else s.tags j := update_apply ..

@[grind =] theorem frames_setEntry (s : PageCache) (i tag frame j : Nat) :
    (s.setEntry i tag frame).frames j = if j = i then frame else s.frames j := update_apply ..

theorem tags_setEntry_self (s : PageCache) (i tag frame : Nat) :
    (s.setEntry i tag frame).tags i = tag := update_self ..

/-- An unused entry is emptied. -/
theorem Inv.dropEntry (h : s.Inv held) (hi : i < pcEntries) (htag : s.tags i ≠ 0)
    (hrefs : s.refs i = 0) :
    (s.dropEntry i).Inv held := by
  have htags : ∀ j, (s.dropEntry i).tags j = if j = i then 0 else s.tags j := tags_setEntry s i 0 0
  have hframes : ∀ j, (s.dropEntry i).frames j = if j = i then 0 else s.frames j :=
    frames_setEntry s i 0 0
  have hrefs' : (s.dropEntry i).refs = s.refs := rfl
  have hpool : (s.dropEntry i).pool = s.frames i :: s.pool := rfl
  constructor <;> grind

/-- A free frame takes a block. -/
theorem Inv.load (h : s.Inv held) (hi : i < pcEntries) (htag : s.tags i = 0)
    (hframe : frame ∈ s.pool) {tag : Nat} (hnew : ∀ j < pcEntries, s.tags j ≠ tag) (hnz : tag ≠ 0) :
    ({ s with pool := s.pool.erase frame }.setEntry i tag frame).Inv held := by
  generalize hs' : { s with pool := s.pool.erase frame }.setEntry i tag frame = s'
  have htags : ∀ j, s'.tags j = if j = i then tag else s.tags j := by grind
  have hframes : ∀ j, s'.frames j = if j = i then frame else s.frames j := by grind
  have hrefs : s'.refs = s.refs := by rw [← hs']; rfl
  have hpool : s'.pool = s.pool.erase frame := by rw [← hs']; rfl
  constructor <;> grind

/-- An entry's count changes with those that hold it. -/
theorem Inv.setRefs (h : s.Inv held) (hi : i < pcEntries) (htag : s.tags i ≠ 0) (n : Nat) :
    (s.setRefs i n).Inv (update held (s.frames i) n) := by
  obtain ⟨hframe, -, -⟩ := h.live i hi htag
  have hrefs : ∀ j, j ≠ i → (s.setRefs i n).refs j = s.refs j := fun j hj => update_of_ne hj ..
  have hrefs' : (s.setRefs i n).refs i = n := update_self ..
  have hne : ∀ j < pcEntries, j ≠ i → s.frames j ≠ s.frames i := fun j hj hji hsame =>
    hji (h.frames i hi j hj hsame.symm hframe).symm
  refine ⟨fun j hj hempty => ?_, fun j hj hlive => ?_, h.tags, h.frames,
    fun frame hused => ?_, h.pool⟩
  · have hji : j ≠ i := by
      rintro rfl
      exact htag hempty
    rw [hrefs j hji]
    exact h.empty j hj hempty
  · obtain ⟨hnz, hcount, hout⟩ := h.live j hj hlive
    refine ⟨hnz, ?_, hout⟩
    show (s.setRefs i n).refs j = update held (s.frames i) n (s.frames j)
    by_cases hji : j = i
    · rw [hji, hrefs', update_self]
    · rw [hrefs j hji, update_of_ne (hne j hj hji)]
      exact hcount
  · by_cases hself : frame = s.frames i
    · exact ⟨i, hi, htag, hself.symm⟩
    · rw [update_of_ne hself] at hused
      exact h.others frame hused

/-! ## Looking for entries -/

theorem mem_entries_of_find {p : Nat → Bool} (h : (List.range pcEntries).find? p = some i) :
    i < pcEntries ∧ p i = true :=
  ⟨mem_range.mp (mem_of_find?_eq_some h), find?_some h⟩

theorem pcLookup_some (h : s.pcLookup block = some i) :
    i < pcEntries ∧ s.tags i = (block + 1) % 2 ^ 32 := by
  obtain ⟨hi, htag⟩ := mem_entries_of_find h
  exact ⟨hi, of_decide_eq_true htag⟩

theorem pcLookup_none (h : s.pcLookup block = none) (hi : i < pcEntries) :
    s.tags i ≠ (block + 1) % 2 ^ 32 := by
  have hnone := find?_eq_none.mp h i (mem_range.mpr hi)
  simpa using hnone

theorem pcEntryOfFrame_some (h : s.pcEntryOfFrame frame = some i) :
    i < pcEntries ∧ s.frames i = frame := by
  obtain ⟨hi, hframe⟩ := mem_entries_of_find h
  exact ⟨hi, of_decide_eq_true hframe⟩

/-- What `pc_slot` leaves: an empty entry, and every other entry as it was. -/
theorem pcSlot_spec (h : s.Inv held) (hslot : s.pcSlot = some (i, s')) (hfreed : s.freed = []) :
    i < pcEntries ∧ s'.Inv held ∧ s'.tags i = 0 ∧ (∀ j, s'.tags j = s.tags j ∨ s'.tags j = 0) ∧
      ∀ frame ∈ s'.freed, held frame = 0 := by
  unfold pcSlot at hslot
  cases hempty : (range pcEntries).find? fun i => s.tags i = 0 with
  | some k =>
    rw [hempty] at hslot
    cases hslot
    obtain ⟨hk, htag⟩ := mem_entries_of_find hempty
    refine ⟨hk, h.congr rfl rfl rfl rfl, of_decide_eq_true htag, fun j => .inl rfl,
      fun frame hmem => ?_⟩
    change frame ∈ s.freed at hmem
    rw [hfreed] at hmem
    cases hmem
  | none =>
  rw [hempty] at hslot
  cases hevict : s.fromHand.find? fun i => s.refs i = 0 with
  | none =>
    rw [hevict] at hslot
    cases hslot
  | some k =>
  rw [hevict] at hslot
  cases hslot
  have hk : i < pcEntries := by
    obtain ⟨n, -, rfl⟩ := mem_map.mp (mem_of_find?_eq_some hevict)
    exact Nat.mod_lt _ (by decide)
  have hrefs : s.refs i = 0 := by simpa using find?_some hevict
  have htag : s.tags i ≠ 0 := by simpa using find?_eq_none.mp hempty i (mem_range.mpr hk)
  refine ⟨hk, Inv.dropEntry (h.congr rfl rfl rfl rfl) hk htag hrefs,
    tags_setEntry_self _ i 0 0, fun j => ?_,
    fun frame hmem => ?_⟩
  · by_cases hji : j = i
    · rw [hji]
      exact .inr (tags_setEntry_self _ i 0 0)
    · exact .inl ((tags_setEntry _ i 0 0 j).trans (if_neg hji))
  · change frame ∈ s.frames i :: s.freed at hmem
    rw [hfreed, mem_singleton] at hmem
    rw [hmem, ← (h.live i hk htag).2.1, hrefs]

/-! ## References -/

/-- What a call for a reference does: it takes one to the frame that it returns, or none. -/
structure Taken (held : Nat → Nat) (frame : Nat) (s : PageCache) : Prop where
  inv : if frame = 0 then s.Inv held else s.Inv (update held frame (held frame + 1))
  freed : ∀ f ∈ s.freed, held f = 0

theorem Inv.takeRef (h : s.Inv held) (hi : i < pcEntries) (htag : s.tags i ≠ 0)
    (hroom : s.refs i < pcMaxRefs) :
    (s.takeRef i).Inv (update held (s.frames i) (held (s.frames i) + 1)) ∧
    (s.takeRef i).freed = s.freed := by
  unfold PageCache.takeRef
  rw [if_neg (Nat.not_le.mpr hroom), ← (h.live i hi htag).2.1]
  exact ⟨h.setRefs hi htag _, rfl⟩

theorem Inv.taken (h : s.Inv held) (hfreed : ∀ f ∈ s.freed, held f = 0) : Taken held 0 s := by
  refine ⟨?_, hfreed⟩
  rw [if_pos rfl]
  exact h

theorem Inv.taken_frame (h : s.Inv held) (hfreed : ∀ f ∈ s.freed, held f = 0) (hi : i < pcEntries)
    (htag : s.tags i ≠ 0) (hroom : s.refs i < pcMaxRefs) :
    Taken held (s.frames i) (s.takeRef i) := by
  obtain ⟨hinv, hsame⟩ := h.takeRef hi htag hroom
  refine ⟨?_, by rwa [hsame]⟩
  rw [if_neg (h.live i hi htag).1]
  exact hinv

/-- `pc_get` hands out the frame of the block and counts it. -/
theorem pcGet_spec (h : s.Inv held) (hfreed : s.freed = []) (hblock : block + 1 < 2 ^ 32)
    (hroom : ∀ i < pcEntries, s.tags i = block + 1 → s.refs i < pcMaxRefs) (pick : Nat)
    (readOk : Bool) :
    Taken held (s.pcGet block pick readOk).1 (s.pcGet block pick readOk).2 := by
  have hnone : ∀ f ∈ s.freed, held f = 0 := by
    rw [hfreed]
    nofun
  have hmod : (block + 1) % 2 ^ 32 = block + 1 := Nat.mod_eq_of_lt hblock
  unfold PageCache.pcGet
  cases hlookup : s.pcLookup block with
  | some i =>
    obtain ⟨hi, htag⟩ := pcLookup_some hlookup
    rw [hmod] at htag
    exact h.taken_frame hnone hi (by omega) (hroom i hi htag)
  | none =>
  dsimp only
  cases hslot : s.pcSlot with
  | none => exact h.taken hnone
  | some slot =>
  obtain ⟨i, s1⟩ := slot
  obtain ⟨hi, hinv, hempty, htags, hfrees⟩ := pcSlot_spec h hslot hfreed
  dsimp only
  cases hpick : s1.pool[pick]? with
  | none => exact hinv.taken hfrees
  | some frame =>
  have hframe : frame ∈ s1.pool := mem_of_getElem? hpick
  dsimp only
  cases readOk with
  | true =>
    rw [if_pos rfl, hmod]
    have hnew : ∀ j < pcEntries, s1.tags j ≠ block + 1 := by
      intro j hj hsame
      rcases htags j with hold | hzero
      · exact pcLookup_none hlookup hj (by rw [hmod, ← hold, hsame])
      · omega
    have hloaded := hinv.load hi hempty hframe hnew (by omega)
    refine hloaded.taken_frame hfrees hi ?_ ?_
    · rw [tags_setEntry_self]
      omega
    · show s1.refs i < pcMaxRefs
      rw [(hinv.empty i hi hempty).2]
      decide
  | false =>
  rw [if_neg (by decide)]
  have hrest : PageCache.Inv (pmmFreePage { s1 with pool := s1.pool.erase frame } frame) held := by
    have hmem : ∀ f, f ∈ frame :: s1.pool.erase frame ↔ f ∈ s1.pool := fun f =>
      (perm_cons_erase hframe).symm.mem_iff
    refine { hinv with live := fun j hj hlive => ?_, pool := ?_ }
    · obtain ⟨hnz, hcount, hout⟩ := hinv.live j hj hlive
      exact ⟨hnz, hcount, fun hin => hout ((hmem _).mp hin)⟩
    · exact ⟨(perm_cons_erase hframe).nodup hinv.pool.1, fun hin => hinv.pool.2 ((hmem 0).mp hin)⟩
  refine hrest.taken fun f hf => ?_
  rcases mem_cons.mp hf with rfl | hf
  · exact hinv.held_of_pool hframe
  · exact hfrees f hf

/-- `pc_ref` counts one more. -/
theorem pcRef_spec (h : s.Inv held) (hfreed : s.freed = []) (hframe : frame ≠ 0)
    (hroom : ∀ i < pcEntries, s.frames i = frame → s.refs i < pcMaxRefs) :
    Taken held (if (s.pcRef frame).1 then frame else 0) (s.pcRef frame).2 := by
  have hnone : ∀ f ∈ s.freed, held f = 0 := by
    rw [hfreed]
    nofun
  unfold PageCache.pcRef
  cases hentry : s.pcEntryOfFrame frame with
  | none => exact h.taken hnone
  | some i =>
    obtain ⟨hi, rfl⟩ := pcEntryOfFrame_some hentry
    exact h.taken_frame hnone hi (h.tag_ne_zero hi hframe) (hroom i hi rfl)

/-- `pc_unref` counts one less. -/
theorem pcUnref_spec (h : s.Inv held) (hheld : held frame ≠ 0) :
    (s.pcUnref frame).2.Inv (update held frame (held frame - 1)) ∧ (s.pcUnref frame).2.freed =
    s.freed := by
  obtain ⟨k, hk, hlive, rfl⟩ := h.others frame hheld
  unfold PageCache.pcUnref
  cases hentry : s.pcEntryOfFrame (s.frames k) with
  | none =>
    have hno := find?_eq_none.mp hentry k (mem_range.mpr hk)
    exact absurd (decide_eq_true rfl) hno
  | some i =>
  obtain ⟨hi, hframe⟩ := pcEntryOfFrame_some hentry
  obtain rfl : i = k := h.frames i hi k hk hframe (hframe ▸ (h.live k hk hlive).1)
  have hcount := (h.live i hi hlive).2.1
  dsimp only
  rw [if_neg (by rwa [hcount]), ← hcount]
  exact ⟨h.setRefs hi hlive _, rfl⟩

/-! ## Writes to the disk -/

/-- What some turns of the loop leave: entries are only emptied, and those of the blocks passed are
in use. -/
structure Passed (held : Nat → Nat) (P : Nat → Prop) (s : PageCache) : Prop where
  inv : s.Inv held
  freed : ∀ f ∈ s.freed, held f = 0
  used : ∀ b, P b → ∀ i < pcEntries, s.tags i = b + 1 → s.refs i ≠ 0

/-- One block is passed. -/
theorem piTurn_spec {P : Nat → Prop} (h : Passed held P s) (hblock : block + 1 < 2 ^ 32) :
    Passed held (fun b => P b ∨ b = block) (s.piTurn block) := by
  have hmod : (block + 1) % 2 ^ 32 = block + 1 := Nat.mod_eq_of_lt hblock
  unfold PageCache.piTurn
  cases hlookup : s.pcLookup block with
  | none =>
    refine ⟨h.inv, h.freed, fun b hb i hi htag => ?_⟩
    rcases hb with hb | rfl
    · exact h.used b hb i hi htag
    · exact absurd (htag.trans hmod.symm) (pcLookup_none hlookup hi)
  | some i =>
  obtain ⟨hi, htag⟩ := pcLookup_some hlookup
  rw [hmod] at htag
  have hnz : s.tags i ≠ 0 := by omega
  dsimp only
  by_cases hrefs : s.refs i ≠ 0
  · rw [if_pos hrefs]
    refine ⟨h.inv, h.freed, fun b hb j hj htag' => ?_⟩
    rcases hb with hb | rfl
    · exact h.used b hb j hj htag'
    · obtain rfl : i = j := h.inv.tags i hi j hj (htag.trans htag'.symm) hnz
      exact hrefs
  rw [if_neg hrefs]
  have hzero : s.refs i = 0 := not_not.mp hrefs
  refine ⟨h.inv.dropEntry hi hnz hzero, fun f hf => ?_, fun b hb j hj htag' => ?_⟩
  · rcases mem_cons.mp hf with rfl | hf
    · rw [← (h.inv.live i hi hnz).2.1, hzero]
    · exact h.freed f hf
  change (s.setEntry i 0 0).tags j = b + 1 at htag'
  have hji : j ≠ i := by grind
  rw [tags_setEntry, if_neg hji] at htag'
  rcases hb with hb | rfl
  · exact h.used b hb j hj htag'
  · exact absurd (h.inv.tags i hi j hj (htag.trans htag'.symm) hnz).symm hji

/-- After the loop no unused entry of the blocks is left. -/
theorem piLoop_spec {P : Nat → Prop} (blocks : Nat) (h : Passed held P s)
    (hlast : block + blocks < 2 ^ 32) :
    Passed held (fun b => P b ∨ block ≤ b ∧ b < block + blocks) (piLoop blocks block s) := by
  induction blocks generalizing s block P with
  | zero =>
    refine ⟨h.inv, h.freed, fun b hb => h.used b ?_⟩
    rcases hb with hb | hb
    · exact hb
    · omega
  | succ blocks ih =>
  have hturn : Passed held (fun b => P b ∨ b = block) (s.piTurn block) := piTurn_spec h (by omega)
  have hrest := ih hturn (show block + 1 + blocks < 2 ^ 32 by omega)
  refine ⟨hrest.inv, hrest.freed, fun b hb => hrest.used b ?_⟩
  rcases hb with hb | hb
  · exact .inl (.inl hb)
  · grind

/-- `pc_invalidate` frees no frame that is held. -/
theorem pcInvalidate_spec (h : s.Inv held) (hfreed : s.freed = []) (lba count : UInt32) :
    Passed held (fun b => hbfsDataStart ≤ lba.toNat ∧
      (lba.toNat - hbfsDataStart) / hbfsSectorsPerBlk ≤ b ∧
      b < (lba.toNat - hbfsDataStart) / hbfsSectorsPerBlk +
        (count.toNat + (hbfsSectorsPerBlk - 1)) % 2 ^ 32 / hbfsSectorsPerBlk)
        (s.pcInvalidate lba count) := by
  have hnone : ∀ f ∈ s.freed, held f = 0 := by
    rw [hfreed]
    nofun
  unfold PageCache.pcInvalidate
  by_cases hbelow : lba.toNat < hbfsDataStart
  · rw [if_pos hbelow]
    exact ⟨h, hnone, fun b hb => absurd hb.1 (Nat.not_le.mpr hbelow)⟩
  rw [if_neg hbelow]
  have hlba := lba.toNat_lt
  have hloop := piLoop_spec (P := fun _ => False)
    ((count.toNat + (hbfsSectorsPerBlk - 1)) % 2 ^ 32 / hbfsSectorsPerBlk)
    ⟨h, hnone, fun _ hb => hb.elim⟩
    (show (lba.toNat - hbfsDataStart) / hbfsSectorsPerBlk +
      (count.toNat + (hbfsSectorsPerBlk - 1)) % 2 ^ 32 / hbfsSectorsPerBlk < 2 ^ 32 by
        simp only [hbfsSectorsPerBlk, hbfsDataStart]
        omega)
  exact ⟨hloop.inv, hloop.freed, fun b hb => hloop.used b (.inr hb.2)⟩

end PageCache

/-! ## Runs -/

section Runs

variable {r : PcRun}

theorem faultBlock_lt (sector page : UInt32) : faultBlock sector page + 1 < 2 ^ 32 := by
  simp only [faultBlock, hbfsSectorsPerBlk, hbfsDataStart]
  omega

theorem covered_of_fits {lba count : UInt32} (hfits : (PcCall.write lba count).Fits r) {b : Nat}
    (hoverlap : Overlaps lba count b) :
    hbfsDataStart ≤ lba.toNat ∧ (lba.toNat - hbfsDataStart) / hbfsSectorsPerBlk ≤ b ∧
      b < (lba.toNat - hbfsDataStart) / hbfsSectorsPerBlk +
        (count.toNat + (hbfsSectorsPerBlk - 1)) % 2 ^ 32 / hbfsSectorsPerBlk := by
  obtain ⟨hbelow, habove⟩ := hoverlap
  simp only [PcCall.Fits, hbfsSectorsPerBlk, hbfsDataStart] at *
  rcases hfits with hend | ⟨hstart, hcount, hblocks⟩
  · omega
  · rw [Nat.mod_eq_of_lt hcount]
    omega

theorem PageCache.Taken.step {cache : PageCache} (h : PageCache.Taken r.held frame cache) :
    (if frame = 0 then PcRun.mk cache r.held else (PcRun.mk cache r.held).hold frame).cache.Inv
      (if frame = 0 then PcRun.mk cache r.held else (PcRun.mk cache r.held).hold frame).held ∧
    (if frame = 0 then PcRun.mk cache r.held else (PcRun.mk cache r.held).hold frame).cache.freed =
    cache.freed := by
  have hinv := h.inv
  by_cases hzero : frame = 0
  · rw [if_pos hzero] at hinv
    rw [if_pos hzero]
    exact ⟨hinv, rfl⟩
  · rw [if_neg hzero] at hinv
    rw [if_neg hzero]
    exact ⟨hinv, rfl⟩

/-- Every call keeps the invariant and frees no held frame. -/
theorem PageCache.Inv.step (h : r.cache.Inv r.held) {c : PcCall} (hfits : c.Fits r) :
    (c.step r).cache.Inv (c.step r).held ∧ c.Safe r := by
  by_cases hmade : c.Made r
  swap
  · have hsame : c.step r = r := if_neg hmade
    rw [PcCall.Safe, hsame]
    refine ⟨h, fun hm => absurd hm hmade, ?_⟩
    rintro lba count rfl
    exact absurd trivial hmade
  have hfresh : PageCache.Inv { r.cache with freed := [] } r.held := h.congr rfl rfl rfl rfl
  cases c with
  | fault sector page pick readOk =>
    have htaken := PageCache.pcGet_spec hfresh rfl (faultBlock_lt sector page) hfits pick readOk
    obtain ⟨hinv, hfreed⟩ := htaken.step
    refine ⟨hinv, fun _ frame hframe => htaken.freed frame ?_, nofun⟩
    exact hfreed ▸ hframe
  | ref frame =>
    have htaken := PageCache.pcRef_spec hfresh rfl hmade hfits
    obtain ⟨hinv, hfreed⟩ := htaken.step
    rw [PcCall.Safe, PcCall.step, if_pos hmade]
    refine ⟨hinv, fun _ frame hframe => htaken.freed frame ?_, nofun⟩
    exact hfreed ▸ hframe
  | unref frame =>
    obtain ⟨hinv, hfreed⟩ := PageCache.pcUnref_spec hfresh hmade
    rw [PcCall.Safe, PcCall.step, if_pos hmade]
    refine ⟨hinv, fun _ f hf => ?_, nofun⟩
    change f ∈ (PageCache.pcUnref { r.cache with freed := [] } frame).2.freed at hf
    rw [hfreed] at hf
    cases hf
  | write lba count =>
  have hpassed := PageCache.pcInvalidate_spec hfresh rfl lba count
  refine ⟨hpassed.inv, fun _ => hpassed.freed, fun lba' count' hc b hoverlap i hi htag => ?_⟩
  cases hc
  have hused := hpassed.used b (covered_of_fits hfits hoverlap) i hi htag
  have hlive := hpassed.inv.live i hi fun hzero => Nat.succ_ne_zero b (htag.symm.trans hzero)
  rw [hlive.2.1] at hused
  exact hused

theorem inv_blank {pool : List Nat} (hpool : pool.Nodup ∧ 0 ∉ pool) :
    PageCache.Inv { pool } fun _ => 0 :=
  ⟨fun _ _ _ => ⟨rfl, rfl⟩, fun _ _ hlive => absurd rfl hlive,
    fun _ _ _ _ _ hlive => absurd rfl hlive,
    fun _ _ _ _ _ hlive => absurd rfl hlive, fun _ hused => absurd rfl hused, hpool⟩

/-- In a run whose calls all fit, no frame is freed that is in use, a block has one entry, and a
write leaves no entry behind that nobody uses. -/
theorem pcRun_safe {pool : List Nat} (hpool : pool.Nodup ∧ 0 ∉ pool) (calls : List PcCall)
    (hfits : Along PcCall.step PcCall.Fits calls { cache := { pool } }) :
    Along PcCall.step PcCall.Safe calls { cache := { pool } } ∧
      (after PcCall.step { cache := { pool } } calls).cache.Unique := by
  have hstep : ∀ (c : PcCall) (r : PcRun), r.cache.Inv r.held → c.Fits r →
    (c.step r).cache.Inv (c.step r).held :=
    fun c r h hc => (h.step hc).1
  refine ⟨Along.guarantee hstep (fun c r h hc => (h.step hc).2) (inv_blank hpool) hfits, ?_⟩
  have hinv :=
    Along.invariant (I := fun r : PcRun => r.cache.Inv r.held) hstep (inv_blank hpool) hfits
  exact hinv.tags

/-- A block is mapped, inherited, given up twice and written. -/
theorem pcRun_safe_shared :
    Along PcCall.step PcCall.Safe
        [.fault 8867 0 0 true, .ref 4096, .unref 4096, .unref 4096, .write 8866 8]
        { cache := { pool := [4096] } } ∧
      (after PcCall.step { cache := { pool := [4096] } }
        [.fault 8867 0 0 true, .ref 4096, .unref 4096, .unref 4096,
          .write 8866 8]).cache.Unique := by
  refine pcRun_safe ⟨by decide, by decide⟩ _ ⟨fun i hi htag => ?_, ?_, trivial,
    trivial, ?_, trivial⟩
  · cases htag
  · show ∀ i < pcEntries,
      (PcCall.step (.fault 8867 0 0 true) { cache := { pool := [4096] } }).cache.frames i = 4096 →
      (PcCall.step (.fault 8867 0 0 true) { cache := { pool := [4096] } }).cache.refs i < pcMaxRefs
    decide +kernel
  · exact .inr (by decide)

/-- Sectors 7 and 8 of the data area are written while block 1 is in the cache without references:
it stays. And a block that is mapped 255 times is freed when 254 of the references are gone, because
the count has stopped at 254. -/
theorem writtenAcrossBlocks_not_safe :
    ¬ Along PcCall.step PcCall.Safe [.fault 8867 1 0 true, .unref 4096, .write 8873 2]
      { cache := { pool := [4096] } } ∧
      4096 ∈ (after PcCall.step { cache := { pool := [4096] } }
        (List.replicate 255 (.fault 8867 0 0 true) ++
        List.replicate 254 (.unref 4096) ++ [.write 8866 8])).cache.freed ∧
      (after PcCall.step { cache := { pool := [4096] } }
        (List.replicate 255 (.fault 8867 0 0 true) ++
        List.replicate 254 (.unref 4096) ++ [.write 8866 8])).held 4096 = 1 := by
  refine ⟨?_, by decide +kernel, by decide +kernel⟩
  rintro ⟨-, -, hsafe, -⟩
  have hkept := hsafe.2 8873 2 rfl 1 ⟨by decide, by decide⟩ 0 (by decide) (by decide +kernel)
  exact hkept (by decide +kernel)

end Runs

end Mellivora
