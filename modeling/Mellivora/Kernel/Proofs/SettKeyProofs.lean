import Mellivora.Kernel.Sett

/-!
# Keys of the Sett

Paths are compared by their folded form. A canonical path is built component by component: each one
is a child of the one before, so the keys stay a tree.
-/

namespace Mellivora

open List Bool

variable {parent : Option Nat} {done : Text} {c : UInt8} {s s' : Sett} {p q t path : Text} {i : Nat}
  {k : SettKey}

/-! ## Strings -/

@[simp] theorem settUpper_eq_sep : settUpper c = settSep ↔ c = settSep := by
  have h : ∀ n : Fin 256, settUpper ⟨⟨n⟩⟩ = settSep ↔ (⟨⟨n⟩⟩ : UInt8) = settSep := by decide +kernel
  exact h c.toBitVec.toFin

@[simp] theorem settUpper_sep : settUpper settSep = settSep := by decide

@[simp] theorem folded_nil : folded [] = [] := rfl

@[simp] theorem folded_cons (c : UInt8) (p : Text) :
    folded (c :: p) = settUpper c :: folded p := rfl

@[simp] theorem folded_append (p q : Text) : folded (p ++ q) = folded p ++ folded q := map_append

@[simp] theorem length_folded (p : Text) : (folded p).length = p.length := length_map _

theorem folded_eq_nil : folded p = [] ↔ p = [] := map_eq_nil_iff

theorem sep_mem_folded : settSep ∈ folded p ↔ settSep ∈ p := by
  unfold folded
  rw [mem_map]
  constructor
  · rintro ⟨c, hc, hsep⟩
    rwa [settUpper_eq_sep.mp hsep] at hc
  · intro h
    exact ⟨settSep, h, settUpper_sep⟩

theorem settCiEqual_iff : settCiEqual p q = true ↔ folded p = folded q := by
  induction p generalizing q with
  | nil => cases q <;> simp [settCiEqual]
  | cons c p ih =>
    cases q with
    | nil => simp [settCiEqual]
    | cons d q => simp [settCiEqual, ih]

theorem settPrefix_iff : settPrefix p t = true ↔ folded t <+: folded p := by
  induction p generalizing t with
  | nil => cases t <;> simp [settPrefix]
  | cons c p ih =>
  cases t with
  | nil => simp [settPrefix]
  | cons d t =>
  simp only [settPrefix, and_eq_true, beq_iff_eq, ih, folded_cons, cons_prefix_cons]
  constructor
  · rintro ⟨h1, h2⟩
    exact ⟨h1.symm, h2⟩
  · rintro ⟨h1, h2⟩
    exact ⟨h1.symm, h2⟩

/-! ## Canonical paths -/

/-- Every separator has a component behind it. -/
def Spaced (p : Text) : Prop := ∀ i, p[i]? = some settSep → ∃ c, p[i + 1]? = some c ∧ c ≠ settSep

theorem Spaced.cons (h : Spaced p) (hc : c ≠ settSep) : Spaced (c :: p) := by
  intro i hi
  cases i with
  | zero => exact absurd (by simpa using hi) hc
  | succ i => exact h i hi

theorem Spaced.sep_cons (h : Spaced (c :: p)) (hc : c ≠ settSep) : Spaced (settSep :: c :: p) := by
  intro i hi
  cases i with
  | zero => exact ⟨c, rfl, hc⟩
  | succ i => exact h i hi

/-- What the normal form of a path looks like. -/
theorem normFrom_spec {room : Nat} {pending : Bool} {out : Text} (hroom : 0 < room)
    (h : normFrom room pending p = some out) :
    Spaced out ∧ out.length < room ∧
    (pending = false → p.head? ≠ some settSep → out.head? ≠ some settSep) := by
  induction p generalizing room pending out with
  | nil =>
    obtain rfl : [] = out := by simpa [normFrom] using h
    refine ⟨fun i hi => by simp at hi, hroom, fun _ _ => by simp⟩
  | cons c rest ih =>
  rw [normFrom] at h
  split at h
  · grind
  next hsep =>
  split at h
  · split at h
    · exact absurd h (by simp)
    next hleft =>
    obtain ⟨out', hout', rfl⟩ := Option.map_eq_some_iff.mp h
    obtain ⟨h1, h2, -⟩ := ih (by omega) hout'
    refine ⟨(h1.cons hsep).sep_cons hsep, ?_, fun hpending => ?_⟩
    · simp only [length_cons]
      omega
    · next hpend => exact absurd hpend (by simp [hpending])
  · split at h
    · exact absurd h (by simp)
    next hleft =>
    obtain ⟨out', hout', rfl⟩ := Option.map_eq_some_iff.mp h
    obtain ⟨h1, h2, -⟩ := ih (by omega) hout'
    refine ⟨h1.cons hsep, ?_, fun _ _ => ?_⟩
    · simp only [length_cons]
      omega
    · simpa using hsep

theorem head?_dropWhile_sep (p : Text) : (p.dropWhile (· == settSep)).head? ≠ some settSep := by
  induction p with
  | nil => simp
  | cons c p ih =>
    by_cases hc : c = settSep
    · simpa [dropWhile_cons, hc] using ih
    · simp [hc]

/-- The normal form is canonical. -/
theorem settPathNorm_canonical {norm : Text} (h : settPathNorm p = some norm) : Canonical norm := by
  obtain ⟨out, hout, rfl⟩ := Option.map_eq_some_iff.mp h
  obtain ⟨hspaced, hlength, hhead⟩ := normFrom_spec (by decide) hout
  have hhead := hhead rfl (head?_dropWhile_sep p)
  refine ⟨?_, ?_⟩
  · have hpath : settKeyPath = 128 := rfl
    rw [length_cons]
    omega
  cases out with
  | nil => exact .inl rfl
  | cons c out => exact .inr ⟨rfl, hspaced.sep_cons (by simpa using hhead)⟩

theorem Canonical.ne_nil (h : Canonical p) : p ≠ [] := by
  rcases h.2 with rfl | ⟨hhead, -⟩
  · simp
  · rintro rfl
    simp at hhead

theorem Canonical.head (h : Canonical p) : p.head? = some settSep := by
  rcases h.2 with rfl | ⟨hhead, -⟩
  · rfl
  · exact hhead

/-- A canonical path up to the end of one of its components. -/
theorem Canonical.take_component {rest : Text} (h : Canonical (p ++ rest)) (hp : p ≠ [])
    (hrest : rest.head? = none ∨ rest.head? = some settSep) : Canonical p := by
  refine ⟨?_, ?_⟩
  · have := h.1
    rw [length_append] at this
    omega
  rcases h.2 with hroot | ⟨hhead, hspaced⟩
  · left
    rcases append_eq_singleton_iff.mp hroot with ⟨hnil, -⟩ | ⟨hsep, -⟩
    · exact absurd hnil hp
    · exact hsep
  right
  refine ⟨?_, fun i hi => ?_⟩
  · rwa [head?_append_of_ne_nil _ hp] at hhead
  have hlt : i < p.length := by grind
  obtain ⟨c, hc, hne⟩ := hspaced i (by rw [getElem?_append_left hlt]; exact hi)
  rcases Nat.lt_or_ge (i + 1) p.length with hlt' | hge
  · rw [getElem?_append_left hlt'] at hc
    exact ⟨c, hc, hne⟩
  -- The character behind the separator would be the first of the rest.
  rw [getElem?_append_right hge, show i + 1 - p.length = 0 by omega, ← head?_eq_getElem?] at hc
  rcases hrest with hnone | hsep
  · simp [hnone] at hc
  · rw [hsep] at hc
    exact absurd (by simpa using hc.symm) hne

/-! ## Finding a key -/

namespace Sett

theorem keyFind_congr (h : folded p = folded q) : s.keyFind p = s.keyFind q := by
  unfold keyFind
  congr 1
  funext k
  rw [Bool.eq_iff_iff, settCiEqual_iff, settCiEqual_iff, h]

/-- No key has the path. -/
theorem keyFind_eq_none : s.keyFind p = none ↔ ∀ k ∈ s.keys, folded p ≠ folded k.path := by
  unfold keyFind
  rw [findIdx?_eq_none_iff]
  constructor
  · intro h k hk heq
    exact absurd (settCiEqual_iff.mpr heq) (by simp [h k hk])
  · intro h k hk
    rw [eq_false_iff]
    intro heq
    exact h k hk (settCiEqual_iff.mp heq)

theorem keyFind_spec (h : s.keyFind p = some i) :
    ∃ k, s.keys[i]? = some k ∧ folded p = folded k.path := by
  obtain ⟨hlt, hk, -⟩ := findIdx?_eq_some_iff_getElem.mp h
  exact ⟨s.keys[i], getElem?_eq_getElem hlt, settCiEqual_iff.mp hk⟩

theorem lt_of_keyFind (h : s.keyFind p = some i) : i < s.keys.length := by
  obtain ⟨hlt, -⟩ := findIdx?_eq_some_iff_getElem.mp h
  exact hlt

theorem keyFind_of_getElem? (hdistinct : s.keys.Pairwise fun a b => folded a.path ≠ folded b.path)
    (hk : s.keys[i]? = some k) (hp : folded p = folded k.path) : s.keyFind p = some i := by
  obtain ⟨hlt, rfl⟩ := List.getElem?_eq_some_iff.mp hk
  refine findIdx?_eq_some_iff_getElem.mpr ⟨hlt, settCiEqual_iff.mpr hp, fun j hj heq => ?_⟩
  have hne := pairwise_iff_getElem.mp hdistinct j i (by omega) hlt hj
  exact hne ((settCiEqual_iff.mp heq).symm.trans hp)

/-! ## Making keys -/

/-- Keys have been added, and nothing else has changed. -/
structure Grown (s s' : Sett) : Prop where
  keys : s.keys <+: s'.keys
  vals : s'.vals = s.vals
  arena : s'.arena = s.arena
  arenaUsed : s'.arenaUsed = s.arenaUsed

theorem Grown.refl (s : Sett) : Grown s s := ⟨prefix_refl _, rfl, rfl, rfl⟩

theorem Grown.trans {s1 s2 : Sett} (h : Grown s s1) (h' : Grown s1 s2) : Grown s s2 :=
  ⟨h.keys.trans h'.keys, h'.vals.trans h.vals, h'.arena.trans h.arena,
    h'.arenaUsed.trans h.arenaUsed⟩

theorem Grown.getElem? (h : Grown s s') (hk : s.keys[i]? = some k) : s'.keys[i]? = some k := by
  obtain ⟨extra, heq⟩ := h.keys
  rw [← heq, List.getElem?_append_left (List.getElem?_eq_some_iff.mp hk).1]
  exact hk

theorem ParentOk.grown (h : s.ParentOk i k) (hgrown : Grown s s') : s'.ParentOk i k := by
  unfold ParentOk at h ⊢
  cases hparent : k.parent with
  | none =>
    rw [hparent] at h
    exact h
  | some p =>
    rw [hparent] at h
    obtain ⟨hlt, q, hq, hchild⟩ := h
    exact ⟨hlt, q, hgrown.getElem? hq, hchild⟩

/-- A key is appended. -/
theorem keyCreate_spec (h : s.keyCreate path parent = some s') :
    s.keys.length < settMaxKeys ∧ s' = { s with keys := s.keys ++ [{ parent, path }] } := by
  unfold keyCreate at h
  split at h
  · exact absurd h (by simp)
  next hroom =>
  split at h
  · exact absurd h (by simp)
  · exact ⟨by omega, by simpa using h.symm⟩

theorem keyCreate_grown (h : s.keyCreate path parent = some s') : Grown s s' := by
  obtain ⟨-, rfl⟩ := keyCreate_spec h
  exact ⟨prefix_append .., rfl, rfl, rfl⟩

/-- A new key keeps the tree. -/
theorem Tree.keyCreate (h : s.Tree) (hcanonical : Canonical path) (hnone : s.keyFind path = none)
    (hparent : s.ParentOk s.keys.length { parent, path }) (hs : s.keyCreate path parent = some s') :
    s'.Tree := by
  have hgrown := keyCreate_grown hs
  obtain ⟨hroom, rfl⟩ := keyCreate_spec hs
  refine ⟨?_, h.valsFit, ?_, ?_, ?_, ?_, h.names, h.arenaFits, h.inside, h.apart⟩
  · rw [length_append]
    exact hroom
  · intro k hk
    rcases mem_append.mp hk with hk | hk
    · exact h.canonical k hk
    · rw [mem_singleton.mp hk]
      exact hcanonical
  · refine pairwise_append.mpr ⟨h.distinct, pairwise_singleton .., ?_⟩
    intro a ha b hb
    rw [mem_singleton.mp hb]
    exact (keyFind_eq_none.mp hnone a ha).symm
  · intro i k hk
    rcases Nat.lt_or_ge i s.keys.length with hlt | hge
    · rw [getElem?_append_left hlt] at hk
      exact (h.parents i k hk).grown hgrown
    have hi : i = s.keys.length := by
      have := (List.getElem?_eq_some_iff.mp hk).1
      rw [length_append, length_singleton] at this
      omega
    subst hi
    obtain rfl : { parent, path } = k := by simpa using hk
    exact hparent.grown hgrown
  · intro v hv
    have := h.owners v hv
    simp only [length_append]
    omega

/-- The scan of a path stands behind `done`, in a component below the key `parent`. -/
def Scanned (s : Sett) (parent : Option Nat) (done : Text) : Prop :=
  ∃ base comp, done = base ++ settSep :: comp ∧ settSep ∉ comp ∧ match parent with
    | none => base = []
    | some p => ∃ q, s.keys[p]? = some q ∧ folded q.path = folded base

theorem Scanned.snoc (h : s.Scanned parent done) (hc : c ≠ settSep) :
    s.Scanned parent (done ++ [c]) := by
  obtain ⟨base, comp, rfl, hcomp, hparent⟩ := h
  refine ⟨base, comp ++ [c], by simp, ?_, hparent⟩
  rw [mem_append, mem_singleton]
  rintro (h | h)
  · exact hcomp h
  · exact hc h.symm

/-- The key scanned last is the parent. -/
theorem Scanned.parentOk (h : s.Scanned parent done) (htree : s.Tree)
    (hcanonical : Canonical done) : s.ParentOk s.keys.length { parent, path := done } := by
  obtain ⟨base, comp, rfl, hcomp, hparent⟩ := h
  cases parent with
  | none =>
    obtain rfl : base = [] := hparent
    exact hcomp
  | some p =>
  obtain ⟨q, hq, hfold⟩ := hparent
  refine ⟨(List.getElem?_eq_some_iff.mp hq).1, q, hq, comp, ?_, hcomp, ?_⟩
  · -- An empty component would make the path the root's, and its key above the empty path.
    rintro rfl
    rcases hcanonical.2 with hroot | ⟨-, hspaced⟩
    · have hbase : base = [] := by
        cases base with
        | nil => rfl
        | cons c base => simp at hroot
      rw [hbase, folded_nil, folded_eq_nil] at hfold
      exact (htree.canonical q (mem_of_getElem? hq)).ne_nil hfold
    · obtain ⟨c, hc, -⟩ := hspaced base.length (by simp)
      simp at hc
  · show folded (base ++ settSep :: comp) = folded q.path ++ settSep :: folded comp
    rw [hfold, folded_append, folded_cons, settUpper_sep]

/-- The key of a component, found or made. -/
theorem Tree.component {key : Nat} (h : s.Tree) (hcanonical : Canonical done)
    (hscanned : s.Scanned parent done) (hs : s.component done parent = some (key, s')) :
    s'.Tree ∧ Grown s s' ∧ ∃ q, s'.keys[key]? = some q ∧ folded q.path = folded done := by
  unfold Sett.component at hs
  cases hfind : s.keyFind done with
  | some i =>
    rw [hfind] at hs
    obtain ⟨rfl, rfl⟩ : i = key ∧ s = s' := by simpa using hs
    obtain ⟨k, hk, hfold⟩ := keyFind_spec hfind
    exact ⟨h, Grown.refl s, k, hk, hfold.symm⟩
  | none =>
  rw [hfind] at hs
  obtain ⟨s'', hcreate, heq⟩ := Option.map_eq_some_iff.mp hs
  obtain ⟨rfl, rfl⟩ : s.keys.length = key ∧ s'' = s' := by simpa using heq
  refine ⟨h.keyCreate hcanonical hfind (hscanned.parentOk h hcanonical) hcreate,
    keyCreate_grown hcreate, ?_⟩
  obtain ⟨-, rfl⟩ := keyCreate_spec hcreate
  exact ⟨{ parent, path := done }, by simp, rfl⟩

/-- The rest of a path: whether it succeeds or not the keys stay a tree, and on success the last one
is the path's. -/
theorem Tree.ensureFrom {rest : Text} (h : s.Tree) (hcanonical : Canonical (done ++ rest))
    (hscanned : s.Scanned parent done) :
    (s.ensureFrom parent done rest).2.Tree ∧ Grown s (s.ensureFrom parent done rest).2 ∧
      ∀ key, (s.ensureFrom parent done rest).1 = some key →
        ∃ q, (s.ensureFrom parent done rest).2.keys[key]? = some q ∧
        folded q.path = folded (done ++ rest) := by
  have hdone : done ≠ [] := by
    obtain ⟨base, comp, rfl, -⟩ := hscanned
    simp
  induction rest generalizing s parent done with
  | nil =>
    rw [append_nil] at hcanonical
    unfold Sett.ensureFrom
    cases hcomp : s.component done parent with
    | none => exact ⟨h, Grown.refl s, fun key hkey => absurd hkey (by simp)⟩
    | some r =>
      obtain ⟨key, s'⟩ := r
      obtain ⟨htree, hgrown, q, hq, hfold⟩ := h.component hcanonical hscanned hcomp
      refine ⟨htree, hgrown, fun key' hkey => ?_⟩
      obtain rfl : key = key' := by simpa using hkey
      exact ⟨q, hq, by rw [append_nil]; exact hfold⟩
  | cons c rest ih =>
  have hnext : Canonical (done ++ [c] ++ rest) := by simpa using hcanonical
  rw [show done ++ c :: rest = done ++ [c] ++ rest by simp]
  unfold Sett.ensureFrom
  split
  · next hsep =>
    subst hsep
    cases hcomp : s.component done parent with
    | none => exact ⟨h, Grown.refl s, fun key hkey => absurd hkey (by simp)⟩
    | some r =>
    obtain ⟨key, s'⟩ := r
    have hcut : Canonical done := hcanonical.take_component hdone (.inr rfl)
    obtain ⟨htree, hgrown, q, hq, hfold⟩ := h.component hcut hscanned hcomp
    have hscanned' : s'.Scanned (some key) (done ++ [settSep]) :=
      ⟨done, [], rfl, by simp, q, hq, hfold⟩
    obtain ⟨h1, h2, h3⟩ := ih htree hnext hscanned' (by simp)
    exact ⟨h1, hgrown.trans h2, h3⟩
  · next hsep => exact ih h hnext (hscanned.snoc hsep) (by simp)

/-- What `sett_ensure_path` does: the tree stays one, and on success the key is there. -/
theorem Tree.ensurePath (h : s.Tree) (path : Text) :
    (s.ensurePath path).2.Tree ∧ Grown s (s.ensurePath path).2 ∧
      ∀ key, (s.ensurePath path).1 = some key → ∃ norm, settPathNorm path = some norm ∧
        (s.ensurePath path).2.keyFind norm = some key := by
  unfold Sett.ensurePath
  cases hnorm : settPathNorm path with
  | none => exact ⟨h, Grown.refl s, fun key hkey => absurd hkey (by simp)⟩
  | some norm =>
  have hcanonical := settPathNorm_canonical hnorm
  dsimp only
  cases hfind : s.keyFind norm with
  | some i =>
    refine ⟨h, Grown.refl s, fun key hkey => ⟨norm, rfl, ?_⟩⟩
    rw [← hkey]
    exact hfind
  | none =>
  have hhead := hcanonical.head
  obtain ⟨rest, rfl⟩ : ∃ rest, norm = settSep :: rest := by
    cases norm with
    | nil => simp at hhead
    | cons c rest => exact ⟨rest, by rw [Option.some.inj hhead]⟩
  have hscanned : s.Scanned none [settSep] := ⟨[], [], rfl, by simp, rfl⟩
  have hwhole : Canonical ([settSep] ++ rest) := hcanonical
  obtain ⟨h1, h2, h3⟩ := h.ensureFrom hwhole hscanned
  refine ⟨h1, h2, fun key hkey => ⟨_, rfl, ?_⟩⟩
  obtain ⟨q, hq, hfold⟩ := h3 key hkey
  exact keyFind_of_getElem? h1.distinct hq hfold.symm

/-! ## Taking out a subtree -/

/-- Below, in terms of the folded paths. -/
theorem under_iff : under t p = true ↔
    ∃ rest, folded p = folded t ++ rest ∧ (rest.head? = none ∨ rest.head? = some settSep) := by
  have hat : ∀ rest, folded p = folded t ++ rest → (p[t.length]?.map settUpper) = rest.head? := by
    intro rest hrest
    have hget : (folded p)[t.length]? = rest.head? := by
      rw [hrest, getElem?_append_right (by simp), length_folded, Nat.sub_self, head?_eq_getElem?]
    rw [← hget, folded, getElem?_map]
  unfold under
  rw [and_eq_true, settPrefix_iff]
  constructor
  · rintro ⟨⟨rest, hrest⟩, hall⟩
    refine ⟨rest, hrest.symm, ?_⟩
    rw [← hat rest hrest.symm]
    cases hc : p[t.length]? with
    | none => exact .inl rfl
    | some c =>
      rw [hc] at hall
      have hsep : c = settSep := by simpa using hall
      right
      simp [hsep]
  · rintro ⟨rest, hrest, hhead⟩
    refine ⟨⟨rest, hrest.symm⟩, ?_⟩
    rw [← hat rest hrest] at hhead
    cases hc : p[t.length]? with
    | none => rfl
    | some c =>
      rw [hc] at hhead
      have hsep : settUpper c = settSep := by simpa using hhead
      simp [settUpper_eq_sep.mp hsep]

theorem under_congr (h : folded p = folded q) : under t p = under t q := by
  rw [Bool.eq_iff_iff, under_iff, under_iff, h]

theorem under_self (t : Text) : under t t = true := under_iff.mpr ⟨[], by simp, .inl rfl⟩

/-- What is below a key that goes, goes. -/
theorem under_of_childOf (hchild : ChildOf p q) (h : under t q = true) : under t p = true := by
  obtain ⟨comp, -, -, hfold⟩ := hchild
  obtain ⟨rest, hrest, hhead⟩ := under_iff.mp h
  refine under_iff.mpr ⟨rest ++ settSep :: folded comp, ?_, ?_⟩
  · rw [hfold, hrest, append_assoc]
  · grind

section Prune

variable (h : s.Tree) (t : Text)

/-- The key stays. -/
def Stays (t : Text) (k : SettKey) : Bool := !under t k.path

theorem prune_keys : (s.prune t).keys = (s.keys.filter (Stays t)).map fun k =>
    { k with parent := k.parent.map (s.remap t) } := rfl

theorem keeps_iff {i : Nat} : s.keeps t i = true ↔ ∃ k, s.keys[i]? = some k ∧ Stays t k = true := by
  unfold keeps
  cases s.keys[i]? with
  | none => simp
  | some k => simp [Stays]

theorem getElem?_prune (hk : s.keys[i]? = some k) (hstays : Stays t k = true) :
    (s.prune t).keys[s.remap t i]? = some { k with parent := k.parent.map (s.remap t) } := by
  rw [prune_keys, getElem?_map, show s.remap t i = Renumber.rank (Stays t) s.keys i from rfl,
    Renumber.getElem?_rank hk hstays]
  rfl

theorem exists_of_getElem?_prune {j : Nat} {k' : SettKey} (hk : (s.prune t).keys[j]? = some k') :
    ∃ i k, s.keys[i]? = some k ∧ Stays t k = true ∧ s.remap t i = j ∧
      k' = { k with parent := k.parent.map (s.remap t) } := by
  rw [prune_keys, getElem?_map] at hk
  obtain ⟨k, hfilter, rfl⟩ := Option.map_eq_some_iff.mp hk
  obtain ⟨i, hi, hstays, hrank⟩ := Renumber.exists_of_getElem?_filter hfilter
  exact ⟨i, k, hi, hstays, hrank, rfl⟩

include h

theorem Tree.prune_parents {j : Nat} {k' : SettKey} (hk : (s.prune t).keys[j]? = some k') :
    (s.prune t).ParentOk j k' := by
  obtain ⟨i, k, hi, hstays, rfl, rfl⟩ := exists_of_getElem?_prune t hk
  have hparent := h.parents i k hi
  unfold ParentOk at hparent ⊢
  cases hp : k.parent with
  | none =>
    rw [hp] at hparent
    exact hparent
  | some p =>
  rw [hp] at hparent
  obtain ⟨hlt, q, hq, hchild⟩ := hparent
  -- A key that stays has a parent that stays.
  have hqstays : Stays t q = true := by
    unfold Stays at hstays ⊢
    rw [not_eq_true'] at hstays ⊢
    rw [eq_false_iff] at hstays ⊢
    exact fun hunder => hstays (under_of_childOf hchild hunder)
  exact ⟨Renumber.rank_lt hlt hq hqstays, _, getElem?_prune t hq hqstays, hchild⟩

/-- The tree without what is below `t`. -/
theorem Tree.prune : (s.prune t).Tree := by
  refine ⟨?_, ?_, ?_, ?_, fun j k' hk => h.prune_parents t hk, ?_, ?_, h.arenaFits, ?_, ?_⟩
  · rw [prune_keys, length_map]
    exact (length_filter_le ..).trans h.keysFit
  · show ((s.vals.filter _).map _).length ≤ _
    rw [length_map]
    exact (length_filter_le ..).trans h.valsFit
  · intro k' hk'
    rw [prune_keys] at hk'
    obtain ⟨k, hk, rfl⟩ := mem_map.mp hk'
    exact h.canonical k (mem_filter.mp hk).1
  · rw [prune_keys, pairwise_map]
    exact h.distinct.filter _
  · intro v' hv'
    obtain ⟨v, hv, rfl⟩ := mem_map.mp hv'
    obtain ⟨k, hk, hstays⟩ := (keeps_iff t).mp (mem_filter.mp hv).2
    exact (List.getElem?_eq_some_iff.mp (getElem?_prune t hk hstays)).1
  · show ((s.vals.filter _).map _).Pairwise _
    rw [pairwise_map, pairwise_filter]
    refine h.names.imp ?_
    rintro a b hne ha hb ⟨hkey, hname⟩
    obtain ⟨ka, hka, hsa⟩ := (keeps_iff t).mp ha
    obtain ⟨kb, hkb, hsb⟩ := (keeps_iff t).mp hb
    exact hne ⟨Renumber.rank_inj hka hsa hkb hsb hkey, hname⟩
  · intro v' hv'
    obtain ⟨v, hv, rfl⟩ := mem_map.mp hv'
    exact h.inside v (mem_filter.mp hv).1
  · show ((s.vals.filter _).map _).Pairwise _
    rw [pairwise_map]
    exact h.apart.filter _

/-- Every other key is found as before. -/
theorem Tree.keyFind_prune (p : Text) :
    (s.prune t).keyFind p = if under t p then none else (s.keyFind p).map (s.remap t) := by
  split
  · next hunder =>
    rw [keyFind_eq_none]
    intro k' hk' hfold
    rw [prune_keys] at hk'
    obtain ⟨k, hk, rfl⟩ := mem_map.mp hk'
    have hstays := (mem_filter.mp hk).2
    unfold Stays at hstays
    rw [← under_congr hfold, hunder] at hstays
    exact absurd hstays (by decide)
  · next hunder =>
    cases hfind : s.keyFind p with
    | none =>
      rw [Option.map_none, keyFind_eq_none]
      intro k' hk'
      rw [prune_keys] at hk'
      obtain ⟨k, hk, rfl⟩ := mem_map.mp hk'
      exact keyFind_eq_none.mp hfind k (mem_filter.mp hk).1
    | some i =>
    obtain ⟨k, hk, hfold⟩ := keyFind_spec hfind
    have hstays : Stays t k = true := by
      unfold Stays
      rw [← under_congr hfold, not_eq_true', eq_false_iff]
      exact hunder
    exact keyFind_of_getElem? (h.prune t).distinct (getElem?_prune t hk hstays) hfold

end Prune

end Sett

end Mellivora
