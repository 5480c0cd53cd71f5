import Mellivora.Kernel.SettAccess
import Mellivora.Kernel.Proofs.SettProofs

/-!
# Access to the Sett by path

A canonical path is its own normal form, so the key that is looked for is the key that is made.
-/

namespace Mellivora

open List Option

variable {key : Nat} {s s' : Sett} {p q path name : Text} {type : Nat} {data : List UInt8}

/-! ## Canonical paths are kept as they are -/

theorem Spaced.tail {c : UInt8} (h : Spaced (c :: p)) : Spaced p := fun i hi => h (i + 1) hi

/-- Behind a separator the next character is taken with it; elsewhere the characters are taken one
by one. -/
theorem normFrom_spaced {room : Nat} (h : Spaced p) :
    (p.length < room → normFrom room false p = some p) ∧
      (p ≠ [] → p.head? ≠ some settSep → p.length + 1 < room →
        normFrom room true p = some (settSep :: p)) := by
  induction p generalizing room with
  | nil => exact ⟨fun _ => rfl, fun hne => absurd rfl hne⟩
  | cons c p ih =>
  have hnext := h.tail
  refine ⟨fun hroom => ?_, fun _ hhead hroom => ?_⟩
  · rw [length_cons] at hroom
    by_cases hc : c = settSep
    · subst hc
      obtain ⟨d, hd, hne⟩ := h 0 rfl
      rw [normFrom, if_pos rfl]
      refine (ih hnext).2 ?_ ?_ hroom
      · rintro rfl
        simp at hd
      · rw [head?_eq_getElem?]
        intro hsep
        have : some d = some settSep := hd.symm.trans hsep
        exact hne (some.inj this)
    · rw [normFrom, if_neg hc, if_neg (by decide), if_neg (by omega), (ih hnext).1 (by omega)]
      rfl
  · rw [length_cons] at hroom
    have hc : c ≠ settSep := by simpa using hhead
    rw [normFrom, if_neg hc, if_pos rfl, if_neg (by omega), (ih hnext).1 (by omega)]
    rfl

/-- A canonical path is its own normal form. -/
theorem settPathNorm_of_canonical (h : Canonical p) : settPathNorm p = some p := by
  obtain ⟨hlength, hroot | ⟨hhead, hspaced⟩⟩ := h
  · rw [hroot]
    rfl
  obtain ⟨rest, rfl⟩ : ∃ rest, p = settSep :: rest := by
    cases p with
    | nil => simp at hhead
    | cons c rest => exact ⟨rest, by rw [some.inj hhead]⟩
  obtain ⟨c, hc, hne⟩ := hspaced 0 rfl
  have hdrop : (settSep :: rest).dropWhile (· == settSep) = rest := by
    cases rest with
    | nil => simp at hc
    | cons d rest =>
      obtain rfl : d = c := by simpa using hc
      simp [hne]
  have hrest : Spaced rest := Spaced.tail hspaced
  unfold settPathNorm
  rw [hdrop, (normFrom_spaced hrest).1]
  · rfl
  · rw [length_cons] at hlength
    omega

namespace Sett

/-! ## Looking up -/

theorem lookup_eq_kvLookup :
    s.lookup path name = (s.kvLookup path name).map fun v => (v.type, s.bytes v) := by
  unfold lookup kvLookup
  cases s.keyFind path with
  | none => rfl
  | some key =>
    simp only [bind_some]
    unfold value? valueFind
    rw [find?_eq_bind_findIdx?_getElem?]

theorem lookup_congr (h : folded p = folded q) : s.lookup p name = s.lookup q name := by
  unfold lookup
  rw [keyFind_congr h]

theorem kvLookup_eq_none (h : s.lookup path name = none) : s.kvLookup path name = none := by
  rw [lookup_eq_kvLookup] at h
  exact map_eq_none_iff.mp h

theorem kvGetU32_eq_none (h : s.lookup path name = none) : s.kvGetU32 path name = none := by
  unfold kvGetU32
  rw [kvLookup_eq_none h]
  rfl

theorem dwordBytes_getElem (x : Nat) {i : Nat} (hi : i < 4) :
    (dwordBytes x)[i]? = some (UInt8.ofNat (x / 2 ^ (8 * i))) := by
  unfold dwordBytes
  rw [getElem?_map, getElem?_range hi]
  rfl

@[simp] theorem length_dwordBytes (x : Nat) : (dwordBytes x).length = 4 := by simp [dwordBytes]

/-- A number that was stored is read back. -/
theorem kvGetU32_of_lookup {x : Nat} (hx : x < 2 ^ 32)
    (h : s.lookup path name = some (settTypeU32, dwordBytes x)) :
    s.kvGetU32 path name = some x := by
  rw [lookup_eq_kvLookup] at h
  obtain ⟨v, hv, heq⟩ := map_eq_some_iff.mp h
  obtain ⟨htype, hbytes⟩ := Prod.mk.inj heq
  unfold kvGetU32
  rw [hv, bind_some, if_pos htype]
  have hat : ∀ i < 4, s.arena (v.off + i) = UInt8.ofNat (x / 2 ^ (8 * i)) := by
    intro i hi
    have hget := dwordBytes_getElem x hi
    rw [← hbytes, bytes, getElem?_map] at hget
    obtain ⟨j, hj, hval⟩ := map_eq_some_iff.mp hget
    have hlt := (List.getElem?_eq_some_iff.mp hj).1
    rw [length_range] at hlt
    rw [getElem?_range hlt] at hj
    rw [← hval, ← some.inj hj]
  have h0 := hat 0 (by decide)
  rw [Nat.add_zero] at h0
  unfold Buffer.dword
  rw [h0, hat 1 (by decide), hat 2 (by decide), hat 3 (by decide)]
  simp only [UInt8.toNat_ofNat']
  congr 1
  omega

/-! ## Making the key of a path -/

/-- Keys without values do not change what is looked up. -/
theorem Grown.lookup (hgrown : Grown s s') (h : s.Tree) (h' : s'.Tree) :
    s'.lookup p name = s.lookup p name := by
  have hvalue : ∀ key, s'.value? key name = s.value? key name := by
    intro key
    unfold value? bytes
    rw [hgrown.vals, hgrown.arena]
  unfold Sett.lookup
  cases hfind : s.keyFind p with
  | some i =>
    obtain ⟨k, hk, hfold⟩ := keyFind_spec hfind
    rw [keyFind_of_getElem? h'.distinct (hgrown.getElem? hk) hfold, bind_some, bind_some, hvalue]
  | none =>
  cases hfind' : s'.keyFind p with
  | none => rfl
  | some i =>
  rw [bind_some, hvalue, bind_none]
  -- The key is a new one.
  obtain ⟨k, hk, hfold⟩ := keyFind_spec hfind'
  have hnew : s.keys.length ≤ i := by
    by_contra hlt
    have hk' := getElem?_eq_getElem (Nat.lt_of_not_le hlt)
    obtain rfl : s.keys[i] = k := some.inj ((hgrown.getElem? hk').symm.trans hk)
    exact keyFind_eq_none.mp hfind _ (getElem_mem _) hfold
  unfold value?
  rw [map_eq_none_iff, find?_eq_none]
  intro v hv hmatch
  have hkey := (matches_iff.mp hmatch).1
  have := h.owners v hv
  omega

/-- The path is `whole` up to the end of one of its components. -/
def CutOf (whole p : Text) : Prop :=
  ∃ rest, whole = p ++ rest ∧ (rest.head? = none ∨ rest.head? = some settSep)

theorem component_keys {parent : Option Nat} (hs : s.component p parent = some (key, s')) :
    ∀ k ∈ s'.keys, k ∈ s.keys ∨ k.path = p := by
  intro k hk
  unfold Sett.component at hs
  cases hfind : s.keyFind p with
  | some i => grind
  | none =>
  rw [hfind] at hs
  obtain ⟨s'', hcreate, heq⟩ := map_eq_some_iff.mp hs
  obtain ⟨-, rfl⟩ : s.keys.length = key ∧ s'' = s' := by simpa using heq
  obtain ⟨-, rfl⟩ := keyCreate_spec hcreate
  rcases mem_append.mp hk with hk | hk
  · exact .inl hk
  · exact .inr (by rw [mem_singleton.mp hk])

/-- Only keys on the path are made. -/
theorem ensureFrom_keys (s : Sett) (parent : Option Nat) (done rest : Text) :
    ∀ k ∈ (s.ensureFrom parent done rest).2.keys, k ∈ s.keys ∨ CutOf (done ++ rest) k.path := by
  induction rest generalizing s parent done with
  | nil =>
    intro k hk
    unfold Sett.ensureFrom at hk
    cases hcomp : s.component done parent with
    | none =>
      rw [hcomp] at hk
      exact .inl hk
    | some r =>
      rw [hcomp] at hk
      rcases component_keys hcomp k hk with hk | hpath
      · exact .inl hk
      · exact .inr ⟨[], by rw [hpath], .inl rfl⟩
  | cons c rest ih =>
  intro k hk
  have hwhole : done ++ c :: rest = done ++ [c] ++ rest := by simp
  unfold Sett.ensureFrom at hk
  split at hk
  · next hsep =>
    cases hcomp : s.component done parent with
    | none =>
      rw [hcomp] at hk
      exact .inl hk
    | some r =>
    rw [hcomp] at hk
    rcases ih _ _ _ k hk with hk | hcut
    · rcases component_keys hcomp k hk with hk | hpath
      · exact .inl hk
      · exact .inr ⟨c :: rest, by rw [hpath], .inr (by rw [head?_cons, hsep])⟩
    · exact .inr (hwhole ▸ hcut)
  · rcases ih _ _ _ k hk with hk | hcut
    · exact .inl hk
    · exact .inr (hwhole ▸ hcut)

/-! ## Room for the keys -/

theorem missingFrom_congr {done : Text}
    (h : ∀ p, done.length ≤ p.length → (s'.keyFind p).isNone = (s.keyFind p).isNone)
    (rest : Text) : s'.missingFrom done rest = s.missingFrom done rest := by
  induction rest generalizing done with
  | nil =>
    unfold missingFrom
    rw [h done le_rfl]
  | cons c rest ih =>
    unfold missingFrom
    rw [h done le_rfl, ih]
    intro p hp
    rw [length_append] at hp
    exact h p (by omega)

/-- With room the key is there. -/
theorem component_room (parent : Option Nat) (hlength : p.length < settKeyPath - 1)
    (hroom : s.keys.length + (if (s.keyFind p).isNone then 1 else 0) ≤ settMaxKeys) :
    ∃ key s', s.component p parent = some (key, s') ∧
      s'.keys.length = s.keys.length + (if (s.keyFind p).isNone then 1 else 0) ∧
      ∀ q, q.length ≠ p.length → (s'.keyFind q).isNone = (s.keyFind q).isNone := by
  unfold Sett.component
  cases hfind : s.keyFind p with
  | some key => exact ⟨key, s, rfl, rfl, fun _ _ => rfl⟩
  | none =>
  rw [hfind] at hroom
  have hfree : s.keys.length < settMaxKeys := hroom
  have hcreate : s.keyCreate p parent =
    some { s with keys := s.keys ++ [{ parent, path := p }] } := by
    unfold Sett.keyCreate
    rw [if_neg (by omega), if_neg (by omega)]
  refine ⟨s.keys.length, _, by rw [hcreate]; rfl, by simp, fun q hq => ?_⟩
  rw [Bool.eq_iff_iff, isNone_iff_eq_none, isNone_iff_eq_none, keyFind_eq_none, keyFind_eq_none]
  constructor
  · intro h k hk
    exact h k (mem_append_left _ hk)
  intro h k hk
  rcases mem_append.mp hk with hk | hk
  · exact h k hk
  · rw [mem_singleton.mp hk]
    intro hfold
    have := congrArg length hfold
    rw [length_folded, length_folded] at this
    exact hq this

/-- With room every key of the path is there. -/
theorem ensureFrom_room (parent : Option Nat) {done rest : Text}
    (hcanonical : Canonical (done ++ rest)) (hdone : done ≠ [])
    (hroom : s.keys.length + s.missingFrom done rest ≤ settMaxKeys) :
    ∃ key, (s.ensureFrom parent done rest).1 = some key := by
  induction rest generalizing s parent done with
  | nil =>
    rw [append_nil] at hcanonical
    obtain ⟨key, s', hcomp, -⟩ := component_room parent hcanonical.1 hroom
    unfold Sett.ensureFrom
    rw [hcomp]
    exact ⟨key, rfl⟩
  | cons c rest ih =>
  have hnext : Canonical (done ++ [c] ++ rest) := by simpa using hcanonical
  unfold missingFrom at hroom
  unfold Sett.ensureFrom
  split
  · next hsep =>
    have hcut : Canonical done := hcanonical.take_component hdone (.inr (by rw [head?_cons, hsep]))
    simp only [hsep, true_and] at hroom
    have hone : s.keys.length + (if (s.keyFind done).isNone then 1 else 0) ≤ settMaxKeys := by omega
    obtain ⟨key, s', hcomp, hlength, hothers⟩ := component_room parent hcut.1 hone
    rw [hcomp]
    refine ih (some key) hnext (by simp) ?_
    rw [hlength, hsep, missingFrom_congr (s := s) fun q hq => hothers q ?_]
    · omega
    · rw [length_append, length_singleton] at hq
      omega
  · next hsep =>
    simp only [hsep, false_and, if_false, Nat.zero_add] at hroom
    exact ih parent hnext (by simp) hroom

/-- With room for all the keys that are missing, there is a key for the path. -/
theorem Tree.ensurePath_room (h : s.Tree) (hcanonical : Canonical path)
    (hroom : s.keys.length + s.missingFrom [settSep] path.tail ≤ settMaxKeys) :
    ∃ key s', s.ensurePath path = (some key, s') ∧ s'.Tree ∧ Grown s s' ∧
      s'.keyFind path = some key ∧
      ∀ k ∈ s'.keys, k ∈ s.keys ∨ CutOf path k.path := by
  have hnorm := settPathNorm_of_canonical hcanonical
  have hhead := hcanonical.head
  obtain ⟨rest, rfl⟩ : ∃ rest, path = settSep :: rest := by
    cases path with
    | nil => simp at hhead
    | cons c rest => exact ⟨rest, by rw [some.inj hhead]⟩
  obtain ⟨htree, hgrown, hfound⟩ := h.ensurePath (settSep :: rest)
  have hkeys : ∀ k ∈ (s.ensurePath (settSep :: rest)).2.keys, k ∈ s.keys ∨
    CutOf (settSep :: rest) k.path := by
    intro k hk
    unfold Sett.ensurePath at hk
    rw [hnorm] at hk
    dsimp only at hk
    cases hfind : s.keyFind (settSep :: rest) with
    | some i =>
      rw [hfind] at hk
      exact .inl hk
    | none =>
      rw [hfind] at hk
      exact ensureFrom_keys s none [settSep] rest k hk
  obtain ⟨key, hkey⟩ : ∃ key, (s.ensurePath (settSep :: rest)).1 = some key := by
    unfold Sett.ensurePath
    rw [hnorm]
    dsimp only
    cases hfind : s.keyFind (settSep :: rest) with
    | some i => exact ⟨i, rfl⟩
    | none =>
      exact ensureFrom_room none (show Canonical ([settSep] ++ rest) from hcanonical)
        (by simp) hroom
  obtain ⟨norm, hn, hfind⟩ := hfound key hkey
  obtain rfl : settSep :: rest = norm := some.inj (hnorm.symm.trans hn)
  exact ⟨key, _, Prod.ext hkey rfl, htree, hgrown, hfind, hkeys⟩

/-! ## Storing a new value -/

theorem valueFind_eq_none_of_value? (h : s.value? key name = none) :
    s.valueFind key name = none := by
  unfold value? at h
  rw [map_eq_none_iff, find?_eq_bind_findIdx?_getElem?] at h
  cases hfind : s.valueFind key name with
  | none => rfl
  | some slot =>
    have hslot : s.vals.findIdx? (fun v => v.key == key && settCiEqual name v.name) =
      some slot := hfind
    obtain ⟨hlt, -⟩ := findIdx?_eq_some_iff_getElem.mp hslot
    rw [hslot, bind_some, getElem?_eq_getElem hlt] at h
    exact absurd h (by simp)

/-- With room a new value is stored. -/
theorem valueSet_room (type : Nat) (hnone : s.valueFind key name = none)
    (hname : name.length < settValName - 1)
    (hvals : s.vals.length < settMaxValues) (harena : s.arenaUsed + data.length ≤ settArena) :
    ∃ s', s.valueSet key name type data = some s' ∧ s'.vals.length = s.vals.length + 1 ∧
      s'.arenaUsed = s.arenaUsed + data.length := by
  unfold Sett.valueSet
  rw [hnone]
  dsimp only
  rw [if_neg (by omega), if_neg (by omega), if_neg (by omega)]
  exact ⟨_, rfl, by simp, rfl⟩

/-- A value has been stored under a path and a name that had none. -/
structure Stored (path name : Text) (type : Nat) (data : List UInt8) (s s' : Sett) : Prop where
  tree : s'.Tree
  lookup : ∀ p n, s'.lookup p n =
    if folded p = folded path ∧ folded n = folded name then some (type, data) else s.lookup p n
  keys : ∀ k ∈ s'.keys, k ∈ s.keys ∨ CutOf path k.path
  found : (s'.keyFind path).isSome
  vals : s'.vals.length = s.vals.length + 1
  used : s'.arenaUsed = s.arenaUsed + data.length

attribute [local grind cases] Stored

/-- A new value is found again. -/
theorem Tree.stored_of_valueSet (h : s.Tree) (type : Nat) (data : List UInt8)
    (hfind : s.keyFind path = some key) (hnone : s.lookup path name = none)
    (hname : name.length < settValName - 1) (hvals : s.vals.length < settMaxValues)
    (harena : s.arenaUsed + data.length ≤ settArena) :
    ∃ s', s.valueSet key name type data = some s' ∧ Stored path name type data s s' := by
  have hvalue : s.value? key name = none := by
    rw [Sett.lookup, hfind] at hnone
    exact hnone
  obtain ⟨s', hset, hlength, hused⟩ :=
    valueSet_room type (valueFind_eq_none_of_value? hvalue) hname hvals harena
  obtain ⟨⟨htree, hkeys⟩, hlaw⟩ := h.valueSet (lt_of_keyFind hfind) hset
  have hfindAll : ∀ p, s'.keyFind p = s.keyFind p := by
    intro p
    unfold keyFind
    rw [hkeys]
  refine ⟨s', hset, htree, fun p n => ?_,
    fun k hk => .inl (hkeys ▸ hk), by rw [hfindAll, hfind]; rfl, hlength, hused⟩
  unfold Sett.lookup
  rw [hfindAll]
  cases hp : s.keyFind p with
  | none =>
    rw [if_neg]
    · rfl
    · rintro ⟨hfold, -⟩
      rw [keyFind_congr hfold, hfind] at hp
      exact absurd hp (by simp)
  | some i =>
  rw [bind_some, bind_some, hlaw]
  have hsame : i = key ↔ folded p = folded path := by
    obtain ⟨k, hk, hfold⟩ := keyFind_spec hp
    constructor
    · rintro rfl
      obtain ⟨k', hk', hfold'⟩ := keyFind_spec hfind
      rw [hfold, hfold', some.inj (hk.symm.trans hk')]
    · intro hfold
      rw [keyFind_congr hfold, hfind] at hp
      exact (some.inj hp).symm
  simp only [hsame]

/-- With room a value is stored. -/
theorem Tree.kvSet_room (h : s.Tree) (type : Nat) (data : List UInt8) (hcanonical : Canonical path)
    (hnone : s.lookup path name = none) (hname : name.length < settValName - 1)
    (hkeys : (s.keyFind path).isSome ∨
      s.keys.length + s.missingFrom [settSep] path.tail ≤ settMaxKeys)
    (hvals : s.vals.length < settMaxValues) (harena : s.arenaUsed + data.length ≤ settArena) :
    ∃ s', s.kvSet path name type data = (true, s') ∧ Stored path name type data s s' := by
  unfold Sett.kvSet
  cases hfind : s.keyFind path with
  | some key =>
    obtain ⟨s', hset, hstored⟩ := h.stored_of_valueSet type data hfind hnone hname hvals harena
    exact ⟨s', by simp only [bind_some, hset], hstored⟩
  | none =>
  rw [hfind] at hkeys
  have hroom : s.keys.length + s.missingFrom [settSep] path.tail ≤ settMaxKeys :=
    hkeys.resolve_left (by simp)
  obtain ⟨key, s1, hensure, htree, hgrown, hfound, hcuts⟩ := h.ensurePath_room hcanonical hroom
  have hlookup : ∀ p n, s1.lookup p n = s.lookup p n := fun p n => hgrown.lookup h htree
  obtain ⟨s', hset, hstored⟩ := htree.stored_of_valueSet type data hfound
    (by rw [hlookup]; exact hnone) hname (by rw [hgrown.vals]; exact hvals)
    (by rw [hgrown.arenaUsed]; exact harena)
  refine ⟨s', by simp only [hensure, bind_some, hset], hstored.tree, fun p n => ?_, fun k hk => ?_,
    hstored.found,
    ?_, ?_⟩
  · rw [hstored.lookup, hlookup]
  · grind
  · rw [hstored.vals, hgrown.vals]
  · rw [hstored.used, hgrown.arenaUsed]

/-- A key is deleted with what is below it. -/
theorem Tree.kvDelKey (h : s.Tree) (hcanonical : Canonical path) :
    (s.keyFind path = none → s.kvDelKey path = none) ∧
      ((s.keyFind path).isSome → ∃ s', s.kvDelKey path = some s' ∧ s'.Tree ∧
      (∀ p n, s'.lookup p n = if under path p then none else s.lookup p n) ∧
      ∀ k' ∈ s'.keys, ∃ k ∈ s.keys, k.path = k'.path ∧ under path k.path = false) := by
  unfold Sett.kvDelKey Sett.keyDelete
  rw [settPathNorm_of_canonical hcanonical]
  dsimp only
  refine ⟨fun hnone => by rw [hnone]; rfl, fun hsome => ?_⟩
  obtain ⟨key, hkey⟩ := isSome_iff_exists.mp hsome
  refine ⟨s.prune path, by rw [hkey]; rfl, h.prune path, fun p n => h.lookup_prune path p,
    fun k' hk' => ?_⟩
  rw [prune_keys] at hk'
  obtain ⟨k, hk, rfl⟩ := mem_map.mp hk'
  obtain ⟨hmem, hstays⟩ := mem_filter.mp hk
  exact ⟨k, hmem, rfl, by simpa [Stays] using hstays⟩

end Sett

end Mellivora
