import Mellivora.Kernel.Proofs.PmmSeedProofs

/-!
# Seeding from the memory map

`pmm_init` frees what it makes of each usable entry of the map. Entries that it reads right give
pages of their own ranges, and pages of disjoint ranges are different pages.
-/

namespace Mellivora

open Outcome Linked Buddy Nat

variable {x : Nat}

/-! ## One entry -/

variable {e : E820Entry} {base len : Nat}

theorem reserve_eq :
    kernelReservedEnd = 4096 * 2048 ∧ userDemandBaseMax = 4096 * 131072 := by decide

theorem e820Clamp_eq_some {b l : Nat} (h : e820Clamp b l = some (base, len)) :
    base = b ∧ b < userDemandBaseMax ∧ len = min l (userDemandBaseMax - b) ∧ len ≠ 0 := by
  unfold e820Clamp at h
  split at h
  · simp at h
  split at h
  · simp at h
  next hlt hne =>
  obtain ⟨rfl, rfl⟩ := Prod.mk.inj (Option.some.inj h)
  exact ⟨rfl, by omega, rfl, hne⟩

/-- What an entry frees is RAM between the two limits. -/
theorem e820Region_bounds (h : e820Region e = some (base, len)) :
    e.type = 1 ∧ kernelReservedEnd ≤ base ∧ base + len ≤ userDemandBaseMax := by
  have hk := reserve_eq
  unfold e820Region at h
  dsimp only at h
  split at h
  · simp at h
  next htype =>
  refine ⟨by simpa using htype, ?_⟩
  split at h
  · next hge =>
    obtain ⟨rfl, hlt, rfl, -⟩ := e820Clamp_eq_some h
    unfold signed at hge
    split at hge <;> split at hge <;> omega
  split at h
  · simp at h
  · obtain ⟨rfl, hlt, rfl, -⟩ := e820Clamp_eq_some h
    omega

theorem mem_freedPages :
    x ∈ freedPages (base, len) ↔ (base + 0xFFF) / 4096 ≤ x ∧
    x < (base + 0xFFF) / 4096 + len / 4096 := Iff.rfl

theorem freedPages_le (hx : x ∈ freedPages (base, len)) :
    base ≤ 4096 * x ∧ 4096 * x + 4096 + len % 4096 ≤ base + len + (4096 - base % 4096) % 4096 := by
  obtain ⟨hle, hlt⟩ := mem_freedPages.mp hx
  omega

theorem mem_pages_entry :
    x ∈ e.pages ↔ e.base ≤ 4096 * x ∧ 4096 * x + 4096 ≤ e.base + e.length := Iff.rfl

theorem freed_bounds (hx : x ∈ e.freed) :
    kernelReservedEnd ≤ 4096 * x ∧ 4096 * x + 4096 ≤ userDemandBaseMax := by
  have hk := reserve_eq
  obtain ⟨⟨base, len⟩, hregion, hx⟩ := hx
  obtain ⟨-, hlow, hhigh⟩ := e820Region_bounds hregion
  obtain ⟨hle, hlt⟩ := mem_freedPages.mp hx
  omega

theorem e820Region_of_ge (htype : e.type = 1) (hlow : kernelReservedEnd ≤ e.base)
    (hhigh : e.base < 2 ^ 31) :
    e820Region e = e820Clamp e.base (e.length % 2 ^ 32) := by
  have hk := reserve_eq
  have hmod : e.base % 2 ^ 32 = e.base := mod_eq_of_lt (by omega)
  unfold e820Region
  dsimp only
  rw [if_neg (by simp [htype]), hmod, if_pos]
  rw [signed_of_lt (by omega), signed_of_lt hhigh]
  exact_mod_cast hlow

theorem wrap_sub {l d : Nat} (hl : l < 2 ^ 32) (hd : d < l) :
    (l + 2 ^ 32 - d) % 2 ^ 32 = l - d := by omega

/-- An entry cut at the kernel frees only its own pages. -/
theorem freed_subset_of_lt (hlt : e.base < kernelReservedEnd) : e.freed ⊆ e.pages := by
  have hk := reserve_eq
  have hmod : e.base % 2 ^ 32 = e.base := mod_eq_of_lt (by omega)
  have hlen : e.length % 2 ^ 32 ≤ e.length := mod_le _ _
  rintro x ⟨⟨base, len⟩, hregion, hx⟩
  unfold e820Region at hregion
  dsimp only at hregion
  rw [hmod] at hregion
  split at hregion
  · simp at hregion
  split at hregion
  · next hge =>
    unfold signed at hge
    split at hge <;> split at hge <;> omega
  split at hregion
  · simp at hregion
  next hlong =>
  obtain ⟨rfl, -, hlen', -⟩ := e820Clamp_eq_some hregion
  obtain ⟨hle, hend⟩ := freedPages_le hx
  generalize kernelReservedEnd = reserve at *
  obtain ⟨rfl, -⟩ := hk
  have hbelow : (4096 * 2048 + 2 ^ 32 - e.base) % 2 ^ 32 = 4096 * 2048 - e.base := by omega
  rw [hbelow] at hlong hlen'
  have hpos : 4096 * 2048 - e.base < e.length % 2 ^ 32 := by
    unfold signed at hlong
    split at hlong <;> split at hlong <;> omega
  rw [wrap_sub (mod_lt _ (by norm_num)) hpos] at hlen'
  have hlen'' : len ≤ e.length % 2 ^ 32 - (4096 * 2048 - e.base) := hlen' ▸ min_le_left _ _
  clear hlen' hregion hbelow
  exact mem_pages_entry.mpr ⟨by omega, by omega⟩

/-- The entries that `pmm_init` reads right are those whose pages it stays inside of. -/
theorem plain_iff : e.Plain ↔ e.freed ⊆ e.pages := by
  have hk := reserve_eq
  unfold E820Entry.Plain
  by_cases htype : e.type = 1
  swap
  · refine ⟨fun _ => ?_, fun _ h => absurd h htype⟩
    rintro x ⟨⟨base, len⟩, hregion, -⟩
    exact absurd (e820Region_bounds hregion).1 htype
  simp only [htype, forall_const]
  by_cases hbase : e.base < 2 ^ 31
  swap
  · rw [if_neg hbase]
    constructor
    · rintro hshort x ⟨⟨base, len⟩, hregion, hx⟩
      have := hshort base len hregion
      obtain ⟨hle, hlt⟩ := mem_freedPages.mp hx
      omega
    · intro hsub base len hregion
      by_contra hlong
      have hx : (base + 0xFFF) / 4096 ∈ e.freed :=
        ⟨(base, len), hregion, mem_freedPages.mpr ⟨le_rfl, by omega⟩⟩
      have hhigh := (freed_bounds hx).2
      have hin := (mem_pages_entry.mp (hsub hx)).1
      omega
  rw [if_pos hbase]
  by_cases hlow : e.base < kernelReservedEnd
  · exact ⟨fun _ => freed_subset_of_lt hlow, fun _ => Or.inl hlow⟩
  have hregion := e820Region_of_ge htype (by omega) hbase
  by_cases hhigh : userDemandBaseMax ≤ e.base
  · refine ⟨fun _ => ?_, fun _ => Or.inr (Or.inl hhigh)⟩
    rintro x ⟨⟨base, len⟩, hsome, -⟩
    rw [hregion] at hsome
    obtain ⟨rfl, hlt, -⟩ := e820Clamp_eq_some hsome
    omega
  have hmod : e.length % 2 ^ 32 % 4096 = e.length % 4096 := mod_mod_of_dvd _ (by norm_num)
  have hle : e.length % 2 ^ 32 ≤ e.length := mod_le _ _
  have heq : e.length < 2 ^ 32 → e.length % 2 ^ 32 = e.length := mod_eq_of_lt
  rw [← hmod]
  generalize e.length % 2 ^ 32 = low at *
  constructor
  · rintro hcases x ⟨⟨base, len⟩, hsome, hx⟩
    have hceiling : 4096 * x + 4096 ≤ userDemandBaseMax := (freed_bounds ⟨_, hsome, hx⟩).2
    rw [hregion] at hsome
    obtain ⟨rfl, -, hlen, -⟩ := e820Clamp_eq_some hsome
    obtain ⟨hstart, hend⟩ := freedPages_le hx
    have hshort : 4096 ≤ len := by
      obtain ⟨h1, h2⟩ := mem_freedPages.mp hx
      omega
    refine mem_pages_entry.mpr ⟨hstart, ?_⟩
    rcases hcases with h | h | h | h | h | h | h <;> omega
  · intro hsub
    by_contra hnot
    simp only [not_or, not_lt, not_le] at hnot
    obtain ⟨-, -, hunaligned, hrounds, hpage, hceiling, hhalf⟩ := hnot
    have hlong : e820Clamp e.base low = some (e.base, low) := by
      unfold e820Clamp
      rw [if_neg hhigh, min_eq_left (by omega), if_neg (by omega)]
    have hx : (e.base + 0xFFF) / 4096 + low / 4096 - 1 ∈ e.freed :=
      ⟨(e.base, low), hregion.trans hlong, mem_freedPages.mpr ⟨by omega, by omega⟩⟩
    have hin := (mem_pages_entry.mp (hsub hx)).2
    have hlength := heq hhalf
    omega

/-! ## The table -/

/-- The pages freed for a table. -/
def freedBy (table : List E820Entry) : Set Nat := { x | ∃ e ∈ table, x ∈ e.freed }

variable {top : Nat} {X : Set Nat} {lists : Nat → List Nat} {s : Pmm} {table : List E820Entry}

theorem Buddies.setTop (h : Buddies False top X lists [] [] s) (top' : Nat) :
    Buddies False top' X lists [] [] { s with pmmMemTop := top' } :=
  { h with memTop := rfl }

/-- One entry adds its pages. -/
theorem Buddies.returns_e820Step (h : Buddies False top X lists [] [] s) (hX : ∀ x ∈ X, x < 2 ^ 20)
    (hdisj : Disjoint e.freed X) :
    Returns (e820Step e)
    (fun _ s' => ∃ top' lists', Buddies False top' (X ∪ e.freed) lists' [] [] s') s := by
  have hk := reserve_eq
  unfold e820Step
  cases hregion : e820Region e with
  | none =>
    have hnone : e.freed = ∅ := by
      ext x
      simp [E820Entry.freed, hregion]
    simp only [returns_pure, hnone, Set.union_empty]
    exact ⟨top, lists, h⟩
  | some region =>
  obtain ⟨base, len⟩ := region
  have hfreed : e.freed = freedPages (base, len) := by
    ext x
    simp [E820Entry.freed, hregion]
  obtain ⟨-, hlow, hhigh⟩ := e820Region_bounds hregion
  rw [hfreed] at hdisj ⊢
  simp only [returns_rules]
  refine ((h.setTop _).returns_freeRegion hX (by omega) (by omega) hdisj).mono ?_
  rintro _ s1 ⟨lists1, h1, _⟩
  exact ⟨_, lists1, h1⟩

/-- The map adds the pages of its entries. -/
theorem Buddies.returns_e820Loop (h : Buddies False top X lists [] [] s) (hX : ∀ x ∈ X, x < 2 ^ 20)
    (htable : FreedApart table) (hdisj : ∀ e ∈ table, Disjoint e.freed X) :
    Returns (e820Loop table)
    (fun _ s' => ∃ top' lists', Buddies False top' (X ∪ freedBy table) lists' [] [] s') s := by
  have hk := reserve_eq
  induction table generalizing top X lists s with
  | nil =>
    have hnone : freedBy [] = ∅ := by simp [freedBy]
    rw [e820Loop, returns_pure, hnone, Set.union_empty]
    exact ⟨top, lists, h⟩
  | cons e table ih =>
  obtain ⟨hhead, htail⟩ := List.pairwise_cons.mp htable
  rw [e820Loop, returns_bind]
  refine (h.returns_e820Step hX (hdisj e (List.mem_cons_self ..))).mono
    fun _ s1 ⟨top1, lists1, h1⟩ => ?_
  have hX1 : ∀ x ∈ X ∪ e.freed, x < 2 ^ 20 := by
    rintro x (hx | hx)
    · exact hX x hx
    · have := (freed_bounds hx).2
      omega
  have hdisj1 : ∀ e' ∈ table, Disjoint e'.freed (X ∪ e.freed) := by grind
  have hset : X ∪ e.freed ∪ freedBy table = X ∪ freedBy (e :: table) := by
    ext x
    simp only [freedBy, Set.mem_union, Set.mem_ofPred_eq, List.mem_cons, exists_eq_or_imp, or_assoc]
  have hrest := ih h1 hX1 htail hdisj1
  rwa [hset] at hrest

/-- The lists after `pmm_init`, when no page is freed twice. -/
theorem returns_pmmInit (s : Pmm) (table : List E820Entry) (htable : FreedApart table) :
    Returns (pmmInit table)
    (fun _ s' => ∃ top lists, Buddies False top (freedBy table) lists [] [] s') s := by
  set blank : Pmm := { s with bitmap := fun _ => true, buddyFreeList := fun _ => pmmFreeListNil }
  have hblank : Buddies False blank.pmmMemTop ∅ (fun _ => []) [] [] blank :=
    buddies_empty (fun _ => rfl) fun _ _ => rfl
  rw [pmmInit, returns_bind, returns_modify]
  have hloop := hblank.returns_e820Loop (by simp) htable (by simp)
  rwa [Set.empty_union] at hloop

/-! ## What is on the lists -/

/-- The walk along a free list. -/
theorem freeAt_eq {link : Nat → Nat} {h n : Nat} {l : List Nat}
    (hl : Chain link pmmFreeListNil h l) :
    freeAt link h n = l[n]? := by
  induction n generalizing h l with
  | zero =>
    cases l with
    | nil => exact if_pos hl
    | cons p l =>
      obtain ⟨rfl, hne, -⟩ := hl
      exact if_neg hne
  | succ n ih =>
    cases l with
    | nil => exact if_pos hl
    | cons p l =>
      obtain ⟨rfl, hne, hrest⟩ := hl
      rw [freeAt, if_neg hne, ih hrest, List.getElem?_cons_succ]

theorem Buddies.freeAt_eq (h : Buddies False top X lists [] [] s) {k : Nat}
    (hk : k < buddyOrders) (n : Nat) :
    s.freeAt k n = (lists k)[n]? := Mellivora.freeAt_eq (h.chain k hk)

theorem Buddies.mem_of_freeAt (h : Buddies False top X lists [] [] s) {k n page : Nat}
    (hk : k < buddyOrders)
    (hat : s.freeAt k n = some page) : (⟨page, k⟩ : Block) ∈ freeBlocks lists buddyOrders ++
    ([] ++ []) := by
  rw [h.freeAt_eq hk] at hat
  exact List.mem_append_left _ (mem_freeBlocks.mpr ⟨hk, List.mem_of_getElem? hat⟩)

theorem usable_of_freed (h : x ∈ e.freed) : e.type = 1 := by
  obtain ⟨⟨base, len⟩, hregion, -⟩ := h
  exact (e820Region_bounds hregion).1

/-- Lists that tile the freed pages are as they should be exactly when those pages are real
memory. -/
theorem Buddies.seededFrom_iff (h : Buddies False top (freedBy table) lists [] [] s) :
    s.SeededFrom table ↔ FreedReal table := by
  constructor
  · intro hseeded e he x hx
    obtain ⟨b, hmem, hxb⟩ := (h.tiles.cover x).mp ⟨e, he, hx⟩
    rw [List.append_nil, List.append_nil, mem_freeBlocks] at hmem
    obtain ⟨n, hn⟩ := List.mem_iff_getElem?.mp hmem.2
    exact (hseeded.real b.order hmem.1 n b.page ((h.freeAt_eq hmem.1 n).trans hn) x hxb).1
  · intro hreal
    refine ⟨fun k hk n page hat x hx => ?_,
      fun _ k hk k' hk' n n' page page' x hat hat' hx hx' => ?_⟩
    · obtain ⟨e, he, hfreed⟩ := h.mem_set (h.mem_of_freeAt hk hat) hx
      exact ⟨hreal e he x hfreed, freed_bounds hfreed⟩
    -- The blocks tile the freed pages, so a page is in one block of one list.
    have heq := h.tiles.eq_of_mem (h.mem_of_freeAt hk hat) (h.mem_of_freeAt hk' hat') hx hx'
    obtain ⟨rfl, rfl⟩ := Block.mk.inj heq
    refine ⟨rfl, ?_⟩
    rw [h.freeAt_eq hk] at hat hat'
    obtain ⟨hn, -⟩ := List.getElem?_eq_some_iff.mp hat
    exact (List.getElem?_inj hn (h.list_nodup hk)).mp (hat.trans hat'.symm)

/-- When the map's pages are what is free. -/
theorem seeded_iff (s : Pmm) (htable : FreedApart table) :
    Returns (pmmInit table) (fun _ s' => s'.SeededFrom table) s ↔ FreedReal table := by
  have hinit := returns_pmmInit s table htable
  constructor
  · rintro ⟨_, s', hrun, hseeded⟩
    obtain ⟨_, t, hrun', top, lists, hb⟩ := hinit
    obtain rfl : s' = t := by grind
    exact hb.seededFrom_iff.mp hseeded
  · intro hreal
    exact hinit.mono fun _ s' ⟨top, lists, hb⟩ => hb.seededFrom_iff.mpr hreal

theorem freedReal_of_plain (h : ∀ e ∈ table, e.Plain) : FreedReal table := fun e he _ hx =>
  ⟨e, he, usable_of_freed hx, plain_iff.mp (h e he) hx⟩

theorem freedReal_singleton : FreedReal [e] ↔ e.Plain := by
  refine ⟨fun h => plain_iff.mpr fun x hx => ?_, fun h => freedReal_of_plain (by simpa using h)⟩
  obtain ⟨e', he', -, hpage⟩ := h e (List.mem_singleton_self e) x hx
  rwa [List.mem_singleton.mp he'] at hpage

/-- From a map for which no page is freed twice, `pmm_init` puts real memory on the free lists, and
no page twice, exactly when what it frees is usable memory. Entries that are read right are enough
for that, and a map of one entry needs to be one of them. -/
theorem pmmInit_sound (s : Pmm) (table : List E820Entry) (htable : FreedApart table) :
    (Returns (pmmInit table) (fun _ s' => s'.SeededFrom table) s ↔ FreedReal table) ∧
      ((∀ e ∈ table, e.Plain) → FreedReal table) ∧ ∀ e, FreedReal [e] ↔ e.Plain :=
  ⟨seeded_iff s htable, freedReal_of_plain, fun _ => freedReal_singleton⟩

/-- A gigabyte above 4 GB is taken for memory from the kernel's reserve on. -/
theorem highMemory_not_seededFrom :
    ¬ Returns (pmmInit [⟨0x100000000, 0x40000000, 1⟩])
      (fun _ s' => s'.SeededFrom [⟨0x100000000, 0x40000000, 1⟩]) {} := by
  rw [seeded_iff {} (List.pairwise_singleton _ _), freedReal_singleton]
  intro hplain
  have hshort := hplain rfl
  rw [if_neg (by norm_num)] at hshort
  exact absurd (hshort 0x800000 0x1F800000 rfl) (by norm_num)

/-- The conventional memory is listed twice, but nothing of it is freed. -/
theorem pmmInit_sound_smallMap :
    Returns
      (pmmInit [⟨0, 0x9FC00, 1⟩, ⟨0, 0x9FC00, 1⟩, ⟨0x100000, 0x7EE0000, 1⟩,
      ⟨0xFFFC0000, 0x40000, 2⟩])
      (fun _ s' => s'.SeededFrom
        [⟨0, 0x9FC00, 1⟩, ⟨0, 0x9FC00, 1⟩, ⟨0x100000, 0x7EE0000, 1⟩, ⟨0xFFFC0000, 0x40000, 2⟩])
        {} := by
  have hnone : ∀ e ∈ [(⟨0, 0x9FC00, 1⟩ : E820Entry), ⟨0, 0x9FC00, 1⟩, ⟨0xFFFC0000, 0x40000, 2⟩],
    e.freed = ∅ := by
    intro e he
    have hregion : e820Region e = none := by
      simp only [List.mem_cons, List.not_mem_nil, or_false] at he
      rcases he with rfl | rfl | rfl <;> rfl
    ext x
    simp [E820Entry.freed, hregion]
  have hapart : FreedApart
      [⟨0, 0x9FC00, 1⟩, ⟨0, 0x9FC00, 1⟩, ⟨0x100000, 0x7EE0000, 1⟩, ⟨0xFFFC0000, 0x40000, 2⟩] := by
    simp [FreedApart, hnone]
  have hsound := pmmInit_sound {} _ hapart
  refine hsound.1.mpr (hsound.2.1 ?_)
  simp [E820Entry.Plain, kernelReservedEnd]

end Mellivora
