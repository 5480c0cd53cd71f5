import Mellivora.Kernel.Proofs.SettKeyProofs
import Mellivora.Lib.Runs

/-!
# The Sett is a tree, and its values a map

A set puts one entry in the place of the one it is for, a delete takes one out, and the bytes of all
the others stay where they are. Compaction moves all of them and changes none.
-/

namespace Mellivora

open Runs List

variable {others : List SettValue} {i off : Nat}

/-- An entry without the place of its bytes. -/
def SettValue.shape (v : SettValue) : SettValue := { v with off := 0 }

namespace Sett

variable {s s' : Sett} {key : Nat} {name : Text} {type : Nat} {data : List UInt8} {v w : SettValue}

/-! ## Bytes in the arena -/

theorem bytes_congr (h : ∀ i, v.off ≤ i → i < v.off + v.len → s'.arena i = s.arena i) :
    s'.bytes v = s.bytes v := by
  refine map_congr_left fun i hi => ?_
  have hi := mem_range.mp hi
  exact h _ (by omega) (by omega)

theorem write_of_apart (arena : Buffer) (h : i < off ∨ off + data.length ≤ i) :
    arena.write off data i = arena i := by
  unfold Buffer.write
  split
  · rw [getElem?_eq_none (by omega)]
    rfl
  · rfl

theorem write_at (arena : Buffer) (h : i < data.length) :
    arena.write off data (off + i) = data[i] := by
  unfold Buffer.write
  rw [if_pos (by omega), Nat.add_sub_cancel_left, getElem?_eq_getElem h]
  rfl

theorem map_write (arena : Buffer) (off : Nat) (data : List UInt8) :
    ((List.range data.length).map fun i => arena.write off data (off + i)) = data := by
  refine ext_getElem (by simp) fun i h1 h2 => ?_
  rw [getElem_map, getElem_range]
  exact write_at arena h2

/-- A write beside a value leaves its bytes. -/
theorem bytes_write_of_apart (harena : s'.arena = s.arena.write off data)
    (h : v.span.Apart ⟨off, off + data.length⟩) : s'.bytes v = s.bytes v := by
  refine bytes_congr fun i h1 h2 => ?_
  rw [harena]
  refine write_of_apart _ ?_
  rcases h with h | h
  · left
    change v.off + v.len ≤ off at h
    omega
  · right
    change off + data.length ≤ v.off at h
    omega

/-! ## Finding a value -/

/-- The entry is the one for `name` of `key`. -/
def Addressed (key : Nat) (name : Text) (v : SettValue) : Prop :=
  v.key = key ∧ folded name = folded v.name

theorem matches_iff : (v.key == key && settCiEqual name v.name) = true ↔ Addressed key name v := by
  rw [Bool.and_eq_true, beq_iff_eq, settCiEqual_iff]
  rfl

/-- No two entries have the same key and name. -/
def NamesApart (a b : SettValue) : Prop := ¬ (a.key = b.key ∧ folded a.name = folded b.name)

theorem NamesApart.symm {a b : SettValue} (h : NamesApart a b) :
    NamesApart b a := fun ⟨h1, h2⟩ => h ⟨h1.symm, h2.symm⟩

instance namesApart_symm : Std.Symm NamesApart := ⟨fun _ _ => NamesApart.symm⟩

theorem Addressed.not_of_apart (h : Addressed key name v) (hne : NamesApart v w) :
    ¬ Addressed key name w :=
  fun h' => hne ⟨h.1.trans h'.1.symm, h.2.symm.trans h'.2⟩

/-- A value is found by its key and name. -/
theorem value?_eq_some (hnames : s.vals.Pairwise NamesApart) {x : Nat × List UInt8} :
    s.value? key name = some x ↔ ∃ v ∈ s.vals, Addressed key name v ∧ x = (v.type, s.bytes v) := by
  unfold value?
  rw [Option.map_eq_some_iff]
  constructor
  · rintro ⟨v, hfind, rfl⟩
    have hmatch := find?_some hfind
    exact ⟨v, mem_of_find?_eq_some hfind, matches_iff.mp hmatch, rfl⟩
  rintro ⟨v, hv, haddressed, rfl⟩
  cases hfind : s.vals.find? fun v => v.key == key && settCiEqual name v.name with
  | none => exact absurd (matches_iff.mpr haddressed) (find?_eq_none.mp hfind v hv)
  | some u =>
  have hmatch := find?_some hfind
  have hu : Addressed key name u := matches_iff.mp hmatch
  obtain rfl : u = v := by
    by_contra hne
    exact haddressed.not_of_apart (hnames.forall hv (mem_of_find?_eq_some hfind) (Ne.symm hne)) hu
  exact ⟨u, rfl, rfl⟩

/-- No value has the name. -/
theorem valueFind_eq_none : s.valueFind key name = none ↔ ∀ v ∈ s.vals, ¬ Addressed key name v := by
  unfold valueFind
  rw [findIdx?_eq_none_iff]
  constructor
  · intro h v hv haddressed
    exact absurd (matches_iff.mpr haddressed) (by simp [h v hv])
  · intro h v hv
    rw [Bool.eq_false_iff]
    exact fun hm => h v hv (matches_iff.mp hm)

/-- Where the value's record is. -/
theorem valueFind_spec {slot : Nat} (hnames : s.vals.Pairwise NamesApart)
    (h : s.valueFind key name = some slot) :
    ∃ before v behind, s.vals = before ++ v :: behind ∧ slot = before.length ∧
      Addressed key name v ∧
      ∀ u ∈ before ++ behind, ¬ Addressed key name u := by
  obtain ⟨hlt, hmatch, -⟩ := findIdx?_eq_some_iff_getElem.mp h
  have hsplit : s.vals = s.vals.take slot ++ s.vals[slot] :: s.vals.drop (slot + 1) := by
    rw [getElem_cons_drop, take_append_drop]
  have haddressed := matches_iff.mp hmatch
  refine ⟨_, _, _, hsplit, ?_, haddressed, fun u hu => ?_⟩
  · rw [length_take]
    omega
  · rw [hsplit, pairwise_append] at hnames
    obtain ⟨-, hbehind, hbefore⟩ := hnames
    rcases mem_append.mp hu with hu | hu
    · exact haddressed.not_of_apart (hbefore u hu _ (mem_cons_self ..)).symm
    · exact haddressed.not_of_apart ((pairwise_cons.mp hbehind).1 u hu)

/-! ## One entry in the place of another -/

/-- The entries that are not for `name` of `key` stay with their bytes. -/
structure Others (key : Nat) (name : Text) (others : List SettValue) (s s' : Sett) : Prop where
  sub : others.Sublist s.vals
  rest : ∀ v ∈ s.vals, Addressed key name v ∨ v ∈ others
  not : ∀ v ∈ others, ¬ Addressed key name v
  keys : s'.keys = s.keys
  bytes : ∀ v ∈ others, s'.bytes v = s.bytes v

attribute [local grind cases] Others

theorem Tree.names' (h : s.Tree) : s.vals.Pairwise NamesApart := h.names

theorem Tree.of_perm {l : List SettValue} (h : s.Tree) (hkeys : s'.keys = s.keys)
    (hperm : s'.vals.Perm l)
    (hfit : l.length ≤ settMaxValues) (howners : ∀ v ∈ l, v.key < s.keys.length)
    (hnames : l.Pairwise NamesApart)
    (harena : s'.arenaUsed ≤ settArena) (hinside : ∀ v ∈ l, v.off + v.len ≤ s'.arenaUsed)
    (hapart : l.Pairwise fun a b => a.span.Apart b.span) : s'.Tree := by
  refine ⟨hkeys ▸ h.keysFit, hperm.length_eq ▸ hfit, hkeys ▸ h.canonical, hkeys ▸ h.distinct, ?_,
    ?_, ?_, harena, ?_, ?_⟩
  · intro i k hk
    rw [hkeys] at hk
    have hparent := h.parents i k hk
    unfold ParentOk at hparent ⊢
    rwa [hkeys]
  · intro v hv
    rw [hkeys]
    exact howners v (hperm.mem_iff.mp hv)
  · exact (hperm.pairwise_iff fun hab => NamesApart.symm hab).mpr hnames
  · exact fun v hv => hinside v (hperm.mem_iff.mp hv)
  · exact (hperm.pairwise_iff fun hab => Span.Apart.symm hab).mpr hapart

/-- What is found when the entry for `name` of `key` is `w`, or there is none. -/
theorem Others.value?_eq {w : Option SettValue} (ho : Others key name others s s') (h : s.Tree)
    (h' : s'.Tree)
    (hperm : s'.vals.Perm (w.toList ++ others)) (hw : ∀ v ∈ w, Addressed key name v) (key' : Nat)
    (name' : Text) :
    s'.value? key' name' = if key' = key ∧ folded name' = folded name then w.map fun v =>
      (v.type, s'.bytes v)
      else s.value? key' name' := by
  have hmem : ∀ v, v ∈ s'.vals ↔ v ∈ w ∨ v ∈ others := fun v => by
    rw [hperm.mem_iff, mem_append, Option.mem_toList]
    rfl
  apply Option.ext
  intro x
  rw [value?_eq_some h'.names']
  split
  · next hsame =>
    obtain ⟨rfl, hname⟩ := hsame
    rw [Option.map_eq_some_iff]
    constructor
    · rintro ⟨v, hv, haddressed, rfl⟩
      rcases (hmem v).mp hv with hv | hv
      · exact ⟨v, hv, rfl⟩
      · exact absurd ⟨haddressed.1, hname.symm.trans haddressed.2⟩ (ho.not v hv)
    · rintro ⟨v, hv, rfl⟩
      exact ⟨v, (hmem v).mpr (.inl hv), ⟨(hw v hv).1, hname.trans (hw v hv).2⟩, rfl⟩
  · next hother =>
    rw [value?_eq_some h.names']
    constructor
    · rintro ⟨v, hv, haddressed, rfl⟩
      rcases (hmem v).mp hv with hv | hv
      · exact absurd ⟨haddressed.1.symm.trans (hw v hv).1,
          haddressed.2.trans (hw v hv).2.symm⟩ hother
      · exact ⟨v, ho.sub.subset hv, haddressed, by rw [ho.bytes v hv]⟩
    · rintro ⟨v, hv, haddressed, rfl⟩
      rcases ho.rest v hv with hthis | hv
      · exact absurd ⟨haddressed.1.symm.trans hthis.1, haddressed.2.trans hthis.2.symm⟩ hother
      · exact ⟨v, (hmem v).mpr (.inr hv), haddressed, by rw [ho.bytes v hv]⟩

/-- An entry is put in, for the one with its key and name if there is one. -/
theorem Tree.put (h : s.Tree) (ho : Others key name others s s')
    (hperm : s'.vals.Perm (w :: others))
    (hw : Addressed key name w) (hkey : key < s.keys.length) (hfit : others.length < settMaxValues)
    (harena : s'.arenaUsed ≤ settArena) (hused : s.arenaUsed ≤ s'.arenaUsed)
    (hinside : w.off + w.len ≤ s'.arenaUsed) (hapart : ∀ v ∈ others, w.span.Apart v.span) :
    s'.Tree ∧ ∀ key' name', s'.value? key' name' =
      if key' = key ∧ folded name' = folded name then some (w.type, s'.bytes w) else s.value?
        key' name' := by
  have hnames : (w :: others).Pairwise NamesApart := by
    refine pairwise_cons.mpr ⟨fun v hv hsame => ?_, h.names'.sublist ho.sub⟩
    exact ho.not v hv ⟨hsame.1.symm.trans hw.1, hw.2.trans hsame.2⟩
  have htree : s'.Tree := by
    refine h.of_perm ho.keys hperm (by rw [length_cons]; omega) ?_ hnames harena ?_ ?_
    · intro v hv
      rcases mem_cons.mp hv with rfl | hv
      · rw [hw.1]
        exact hkey
      · exact h.owners v (ho.sub.subset hv)
    · intro v hv
      rcases mem_cons.mp hv with rfl | hv
      · exact hinside
      · exact (h.inside v (ho.sub.subset hv)).trans hused
    · exact pairwise_cons.mpr ⟨hapart, h.apart.sublist ho.sub⟩
  exact ⟨htree, ho.value?_eq (w := some w) h htree hperm (by simpa using hw)⟩

/-- The entry for `name` of `key` is taken out. -/
theorem Tree.drop (h : s.Tree) (ho : Others key name others s s') (hperm : s'.vals.Perm others)
    (hused : s'.arenaUsed = s.arenaUsed) :
    s'.Tree ∧ ∀ key' name', s'.value? key' name' =
      if key' = key ∧ folded name' = folded name then none else s.value? key' name' := by
  have htree : s'.Tree := by
    refine h.of_perm ho.keys hperm (ho.sub.length_le.trans h.valsFit) ?_
      (h.names'.sublist ho.sub) ?_ ?_
      (h.apart.sublist ho.sub)
    · exact fun v hv => h.owners v (ho.sub.subset hv)
    · rw [hused]
      exact h.arenaFits
    · intro v hv
      rw [hused]
      exact h.inside v (ho.sub.subset hv)
  exact ⟨htree, ho.value?_eq (w := none) h htree hperm nofun⟩

/-! ## Setting and deleting a value -/

/-- The bytes of `w` are written, and `w` is the entry for `name` of `key`. -/
structure Written (key : Nat) (name : Text) (type : Nat) (data : List UInt8)
    (others : List SettValue) (w : SettValue) (s s' : Sett) : Prop where
  entry : w.key = key ∧ folded name = folded w.name ∧ w.type = type ∧ w.len = data.length
  perm : s'.vals.Perm (w :: others)
  keys : s'.keys = s.keys
  arena : s'.arena = s.arena.write w.off data
  used : s.arenaUsed ≤ s'.arenaUsed ∧ s'.arenaUsed ≤ settArena
  inside : w.off + w.len ≤ s'.arenaUsed
  apart : ∀ v ∈ others, w.span.Apart v.span

/-- What a write of a value does to all values. -/
theorem Written.spec (hw : Written key name type data others w s s') (h : s.Tree)
    (hkey : key < s.keys.length) (hfit : others.length < settMaxValues)
    (hsub : others.Sublist s.vals) (hrest : ∀ v ∈ s.vals, Addressed key name v ∨ v ∈ others)
    (hnot : ∀ v ∈ others, ¬ Addressed key name v) :
    (s'.Tree ∧ s'.keys = s.keys) ∧ ∀ key' name', s'.value? key' name' =
      if key' = key ∧
        folded name' = folded name then some (type, data) else s.value? key' name' := by
  obtain ⟨hwkey, hwname, hwtype, hwlen⟩ := hw.entry
  have hspan : w.span = ⟨w.off, w.off + data.length⟩ := by rw [SettValue.span, hwlen]
  have ho : Others key name others s s' := by
    refine ⟨hsub, hrest, hnot, hw.keys, fun v hv => bytes_write_of_apart hw.arena ?_⟩
    rw [← hspan]
    exact (hw.apart v hv).symm
  obtain ⟨htree, hvalue⟩ :=
    h.put ho hw.perm ⟨hwkey, hwname⟩ hkey hfit hw.used.2 hw.used.1 hw.inside hw.apart
  refine ⟨⟨htree, hw.keys⟩, fun key' name' => ?_⟩
  have hbytes : s'.bytes w = data := by
    unfold Sett.bytes
    rw [hwlen, hw.arena]
    exact map_write s.arena w.off data
  rw [hvalue, hwtype, hbytes]

/-- A set that succeeds changes what is stored under this name of this key, and nothing else. -/
theorem Tree.valueSet (h : s.Tree) (hkey : key < s.keys.length)
    (hs : s.valueSet key name type data = some s') :
    (s'.Tree ∧ s'.keys = s.keys) ∧ ∀ key' name', s'.value? key' name' =
      if key' = key ∧
        folded name' = folded name then some (type, data) else s.value? key' name' := by
  unfold Sett.valueSet at hs
  cases hfind : s.valueFind key name with
  | none =>
    rw [hfind] at hs
    dsimp only at hs
    split at hs
    · exact absurd hs (by simp)
    next hroom =>
    split at hs
    · exact absurd hs (by simp)
    split at hs
    · exact absurd hs (by simp)
    next harena =>
    have hw :
      Written key name type data s.vals
      { key, type, off := s.arenaUsed, len := data.length, name } s s' := by
      rw [← Option.some.inj hs]
      exact ⟨⟨rfl, rfl, rfl, rfl⟩, perm_append_singleton _ _, rfl, rfl,
        ⟨Nat.le_add_right _ _, by dsimp only; omega⟩,
        le_rfl, fun v hv => .inr (h.inside v hv)⟩
    exact hw.spec h hkey (by omega) (List.Sublist.refl _) (fun v hv => .inr hv)
      (valueFind_eq_none.mp hfind)
  | some slot =>
  obtain ⟨before, v, behind, hvals, rfl, hv, hothers⟩ := valueFind_spec h.names' hfind
  have hget : s.vals[before.length]? = some v := by rw [hvals]; simp
  have hset : ∀ w : SettValue, (s.vals.set before.length w).Perm
    (w :: (before ++ behind)) := by grind
  have hsub : (before ++ behind).Sublist s.vals := by grind
  have hrest : ∀ u ∈ s.vals, Addressed key name u ∨ u ∈ before ++ behind := by grind
  have hfit : (before ++ behind).length < settMaxValues := by
    have := h.valsFit
    rw [hvals] at this
    simp only [length_append, length_cons] at this ⊢
    omega
  have hvapart : ∀ u ∈ before ++ behind, v.span.Apart u.span := by
    have hpair := h.apart
    rw [hvals] at hpair
    have hperm := (perm_middle.pairwise_iff fun hab => Span.Apart.symm hab).mp hpair
    exact (pairwise_cons.mp hperm).1
  have hvin := h.inside v (by rw [hvals]; simp)
  rw [hfind] at hs
  dsimp only at hs
  rw [hget] at hs
  dsimp only [Option.bind_some] at hs
  split at hs
  · -- The new bytes go where the old ones were.
    next hlen =>
    have hpart : Span.Within ⟨v.off, v.off + data.length⟩ v.span :=
      ⟨le_rfl, show v.off + data.length ≤ v.off + v.len by omega⟩
    have hw : Written key name type data (before ++ behind)
      { v with type, len := data.length } s s' := by
      rw [← Option.some.inj hs]
      exact ⟨⟨hv.1, hv.2, rfl, rfl⟩, hset _, rfl, rfl, ⟨le_rfl, h.arenaFits⟩,
        show v.off + data.length ≤ s.arenaUsed by omega, fun u hu => (hvapart u hu).within hpart⟩
    exact hw.spec h hkey hfit hsub hrest hothers
  next hlen =>
  split at hs
  · exact absurd hs (by simp)
  next harena =>
  have hw : Written key name type data (before ++ behind)
    { v with type, off := s.arenaUsed, len := data.length } s s' := by
    rw [← Option.some.inj hs]
    exact ⟨⟨hv.1, hv.2, rfl, rfl⟩, hset _, rfl, rfl,
      ⟨Nat.le_add_right _ _, by dsimp only; omega⟩, le_rfl,
      fun u hu => .inr (h.inside u (hsub.subset hu))⟩
  exact hw.spec h hkey hfit hsub hrest hothers

theorem set_last_dropLast {l : List SettValue} {before behind : List SettValue} {last : SettValue}
    (hl : l = before ++ v :: behind) (hlast : l.getLast? = some last) :
    ((l.set before.length last).dropLast).Perm (before ++ behind) := by
  subst hl
  rcases eq_nil_or_concat behind with rfl | ⟨front, z, rfl⟩
  · simp
  · grind

/-- A delete that succeeds takes out what is stored under this name of this key, and nothing
else. -/
theorem Tree.valueDel (h : s.Tree) (hs : s.valueDel key name = some s') :
    (s'.Tree ∧ s'.keys = s.keys) ∧ ∀ key' name', s'.value? key' name' =
      if key' = key ∧ folded name' = folded name then none else s.value? key' name' := by
  unfold Sett.valueDel at hs
  obtain ⟨slot, hfind, rfl⟩ := Option.map_eq_some_iff.mp hs
  obtain ⟨before, v, behind, hvals, rfl, hv, hothers⟩ := valueFind_spec h.names' hfind
  obtain ⟨last, hlast⟩ : ∃ last, s.vals.getLast? = some last := by grind
  simp only [hlast]
  have ho :
    Others key name (before ++ behind) s
    { s with vals := (s.vals.set before.length last).dropLast } := by
    refine ⟨?_, fun u hu => ?_, hothers, rfl, fun _ _ => rfl⟩
    · grind
    · grind
  obtain ⟨htree, hvalue⟩ := h.drop ho (set_last_dropLast hvals hlast) rfl
  exact ⟨⟨htree, trivial⟩, hvalue⟩

/-! ## Deleting a key -/

theorem value?_eq_some_prune (h : s.Tree) (t : Text) {k : SettKey} (hk : s.keys[i]? = some k)
    (hstays : Stays t k = true) : (s.prune t).value? (s.remap t i) name = s.value? i name := by
  apply Option.ext
  intro x
  rw [value?_eq_some (h.prune t).names', value?_eq_some h.names']
  constructor
  · rintro ⟨v', hv', ⟨hkey, hname⟩, rfl⟩
    obtain ⟨v, hv, rfl⟩ := mem_map.mp hv'
    obtain ⟨hmem, hkeeps⟩ := mem_filter.mp hv
    obtain ⟨kv, hkv, hsv⟩ := (keeps_iff t).mp hkeeps
    exact ⟨v, hmem, ⟨Renumber.rank_inj hkv hsv hk hstays hkey, hname⟩, rfl⟩
  · rintro ⟨v, hv, ⟨rfl, hname⟩, rfl⟩
    have hmem : v ∈ s.vals.filter fun v => s.keeps t v.key :=
      mem_filter.mpr ⟨hv, (keeps_iff t).mpr ⟨k, hk, hstays⟩⟩
    exact ⟨_, mem_map.mpr ⟨v, hmem, rfl⟩, ⟨rfl, hname⟩, rfl⟩

/-- What is stored under a path of the subtree is gone, and all the rest is as before. -/
theorem Tree.lookup_prune (h : s.Tree) (t p : Text) :
    (s.prune t).lookup p name = if under t p then none else s.lookup p name := by
  unfold lookup
  rw [h.keyFind_prune t p]
  split
  · rfl
  next hunder =>
  cases hfind : s.keyFind p with
  | none => rfl
  | some i =>
  obtain ⟨k, hk, hfold⟩ := keyFind_spec hfind
  have hstays : Stays t k = true := by
    unfold Stays
    rw [← under_congr hfold, Bool.not_eq_true', Bool.eq_false_iff]
    exact hunder
  exact value?_eq_some_prune h t hk hstays

/-- A delete that succeeds takes out the keys of the subtree with their values, and nothing else. -/
theorem Tree.keyDelete {path : Text} (h : s.Tree) (hs : s.keyDelete path = some s') :
    s'.Tree ∧ ∃ target, settPathNorm path = some target ∧
      (∀ p, (s'.keyFind p).isSome = ((s.keyFind p).isSome && !under target p)) ∧
      ∀ p name, s'.lookup p name = if under target p then none else s.lookup p name := by
  unfold Sett.keyDelete at hs
  cases hnorm : settPathNorm path with
  | none =>
    simp [hnorm] at hs
  | some target =>
  rw [hnorm] at hs
  obtain ⟨_, -, rfl⟩ := Option.map_eq_some_iff.mp hs
  refine ⟨h.prune target, target, rfl, fun p => ?_, fun p name => h.lookup_prune target p⟩
  rw [h.keyFind_prune target p]
  split
  · next hunder => simp [hunder]
  · next hunder => simp [hunder]

/-! ## Compaction -/

/-- The values with their bytes. -/
def records (arena : Buffer) (vals : List SettValue) : List (SettValue × List UInt8) :=
  vals.map fun v => (v.shape, (List.range v.len).map fun i => arena (v.off + i))

theorem value?_congr (h : records s'.arena s'.vals = records s.arena s.vals) :
    s'.value? key name = s.value? key name := by
  have hrecords : ∀ s : Sett, s.value? key name = ((records s.arena s.vals).find? fun r =>
      r.1.key == key && settCiEqual name r.1.name).map fun r => (r.1.type, r.2) := by
    intro s
    unfold value? records
    rw [find?_map, Option.map_map]
    rfl
  rw [hrecords s', hrecords s, h]

theorem records_congr {arena arena' : Buffer} {vals : List SettValue} {used : Nat}
    (hin : ∀ v ∈ vals, v.off + v.len ≤ used) (h : ∀ i < used, arena' i = arena i) :
    records arena' vals = records arena vals := by
  refine map_congr_left fun v hv => ?_
  have hle := hin v hv
  have hbytes : ((range v.len).map fun i => arena' (v.off + i)) = (range v.len).map fun i =>
    arena (v.off + i) := by
    refine map_congr_left fun i hi => h _ ?_
    have := mem_range.mp hi
    omega
  rw [hbytes]

/-- What the copying of the values from `pos` on leaves in the scratch buffer. -/
structure Packed (s : Sett) (vs : List SettValue) (pos : Nat) (scratch : Buffer)
    (out : List SettValue × Nat × Buffer) :
    Prop where
  used : out.2.1 = pos + (vs.map (·.len)).sum
  below : ∀ i < pos, out.2.2 i = scratch i
  records : records out.2.2 out.1 = records s.arena vs
  inside : ∀ w ∈ out.1, pos ≤ w.off ∧ w.off + w.len ≤ out.2.1
  order : out.1.Pairwise fun a b => a.span.Apart b.span

attribute [local grind cases] Packed

/-- Compaction moves every value down. -/
theorem packFrom_packed (s : Sett) (vs : List SettValue) (pos : Nat) (scratch : Buffer) :
    Packed s vs pos scratch (s.packFrom vs pos scratch) := by
  induction vs generalizing pos scratch with
  | nil => exact ⟨rfl, fun _ _ => rfl, rfl, by simp [packFrom], List.Pairwise.nil⟩
  | cons v vs ih =>
  have hlen : (s.bytes v).length = v.len := by simp [bytes]
  obtain ⟨out, hout⟩ : ∃ out, s.packFrom vs (pos + v.len) (scratch.write pos (s.bytes v)) = out :=
    ⟨_, rfl⟩
  have hcons : s.packFrom (v :: vs) pos scratch =
    ({ v with off := pos } :: out.1, out.2.1, out.2.2) := by
    rw [packFrom, hout]
  have hih := ih (pos + v.len) (scratch.write pos (s.bytes v))
  rw [hout] at hih
  rw [hcons]
  refine ⟨?_, fun i hi => ?_, ?_, ?_, ?_⟩
  · grind
  · change out.2.2 i = _
    rw [hih.below i (by omega), write_of_apart _ (.inl hi)]
  · -- The bytes of this entry are not touched by the ones that follow.
    have hbytes : ((range v.len).map fun i => out.2.2 (pos + i)) = s.bytes v := by
      refine Eq.trans ?_ (map_write scratch pos (s.bytes v))
      rw [hlen]
      refine map_congr_left fun i hi => ?_
      have := mem_range.mp hi
      exact hih.below _ (by omega)
    change (v.shape, (range v.len).map fun i => out.2.2 (pos + i)) :: records out.2.2 out.1 = _
    rw [hih.records, hbytes]
    rfl
  · grind
  · refine pairwise_cons.mpr ⟨fun w hw => .inl ?_, hih.order⟩
    exact (hih.inside w hw).1

theorem packed_compact (s : Sett) :
    Packed s s.vals 0 (fun _ => 0) (s.packFrom s.vals 0 fun _ => 0) :=
  packFrom_packed s s.vals 0 _

/-- Compaction keeps the values and their bytes. -/
theorem records_compact (s : Sett) :
    records s.compact.arena s.compact.vals = records s.arena s.vals := by
  have hpacked := packed_compact s
  have hin : ∀ w ∈ s.compact.vals, w.off + w.len ≤ s.compact.arenaUsed :=
    fun w hw => (hpacked.inside w hw).2
  rw [← hpacked.records]
  refine records_congr hin fun i hi => ?_
  exact if_pos hi

theorem lookup_compact (s : Sett) (path name : Text) :
    s.compact.lookup path name = s.lookup path name := by
  have hkeys : s.compact.keyFind path = s.keyFind path := rfl
  unfold lookup
  rw [hkeys]
  refine congrArg _ (funext fun key => ?_)
  exact value?_congr (records_compact s)

/-- Compaction keeps the tree. -/
theorem Tree.compact (h : s.Tree) : s.compact.Tree := by
  have hpacked := packed_compact s
  have hshapes : s.compact.vals.map SettValue.shape = s.vals.map SettValue.shape := by
    have hfst : ∀ arena vals, (records arena vals).map Prod.fst = vals.map SettValue.shape := by
      intro arena vals
      rw [records, map_map]
      rfl
    rw [← hfst, ← hfst, records_compact]
  have hlength : s.compact.vals.length = s.vals.length := by
    simpa using congrArg length hshapes
  have hused : s.compact.arenaUsed ≤ s.arenaUsed := by
    have hends : ∀ e ∈ s.vals.map SettValue.span, e.hi ≤ s.arenaUsed := by
      intro e he
      obtain ⟨v, hv, rfl⟩ := mem_map.mp he
      exact h.inside v hv
    have hsum := Span.sum_length_le (pairwise_map.mpr h.apart) hends
    change (s.packFrom s.vals 0 fun _ => 0).2.1 ≤ _
    rw [hpacked.used, Nat.zero_add]
    simpa [SettValue.span, Function.comp_def] using hsum
  have hnames : s.compact.vals.Pairwise NamesApart := by
    have hmap := (pairwise_map (f := SettValue.shape) (R := NamesApart)).mpr h.names
    rw [← hshapes] at hmap
    exact (pairwise_map (f := SettValue.shape)).mp hmap
  refine ⟨h.keysFit, hlength ▸ h.valsFit, h.canonical, h.distinct, h.parents, ?_, hnames,
    hused.trans h.arenaFits,
    fun w hw => (hpacked.inside w hw).2, hpacked.order⟩
  intro w hw
  have hshape : w.shape ∈ s.vals.map SettValue.shape := hshapes ▸ mem_map_of_mem hw
  obtain ⟨v, hv, hvw⟩ := mem_map.mp hshape
  have hkey : v.shape.key = w.shape.key := by rw [hvw]
  exact lt_of_eq_of_lt hkey.symm (h.owners v hv)

end Sett

/-! ## Runs -/

theorem Sett.tree_empty : Sett.Tree {} :=
  ⟨by decide, by decide, by simp, List.Pairwise.nil, by simp, by simp,
    List.Pairwise.nil, by decide, by simp,
    List.Pairwise.nil⟩

end Mellivora
