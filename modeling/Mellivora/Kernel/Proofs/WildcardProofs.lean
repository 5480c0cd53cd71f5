import Mathlib.Data.Prod.Lex
import Mathlib.Order.WellFounded
import Mellivora.Kernel.Wildcard

/-!
# Proofs: the wildcard matcher

A state of the loop stands for the attempts that are left: the one under way, and those that let the
last star stand for more. A turn keeps what they find together; it gives up the attempts of an
earlier star only where the next star has been reached, which finds what they would.
-/

namespace Mellivora

open Glob List

variable {p t : Text} {c : UInt8} {s : WildcardState}

namespace WildcardState

/-- One of the attempts that are left finds a match. -/
def Finds (s : WildcardState) : Prop :=
  GlobMatches s.pat s.txt ∨ ∃ p b t, s.star = some (p, b :: t) ∧
    Matches (.many :: p.map globToken) t

/-- Since the last star pattern and candidate have moved over equally many characters, none a
star. -/
def Aligned (s : WildcardState) : Prop :=
  ∀ p t, s.star = some (p, t) → ∃ w, p = w ++ s.pat ∧ s.txt = t.drop w.length ∧
    ∀ c ∈ w, (globToken c).Single

/-- What decreases: the pattern behind the last star, then the letters that star has not taken, then
the rest of the pattern. -/
def rank (s : WildcardState) : ℕ ×ₗ ℕ ×ₗ ℕ :=
  match s.star with
  | none => toLex (s.pat.length + 1, toLex (0, s.pat.length))
  | some (p, t) => toLex (p.length, toLex (t.length, s.pat.length))

end WildcardState

/-- A turn does what it should: it answers for the attempts that are left, or leaves fewer of them
that find the same. -/
def WildcardTurn.Right (s : WildcardState) : WildcardTurn → Prop
  | .loop s' => s'.Aligned ∧ (s'.Finds ↔ s.Finds) ∧ s'.rank < s.rank
  | .done cf => cf = true ↔ s.Finds

theorem globToken_star : globToken 42 = .many := rfl

theorem globToken_single (hc : c ≠ 42) : (globToken c).Single := by
  rw [globToken, if_neg hc]
  split <;> trivial

theorem globMatches_cons {b : UInt8} (hc : c ≠ 42) :
    GlobMatches (c :: p) (b :: t) ↔ (c = 63 ∨ c = b) ∧ GlobMatches p t := by
  rw [GlobMatches, map_cons, globToken, if_neg hc]
  by_cases hq : c = 63
  · rw [if_pos hq, matches_one_cons]
    exact ⟨fun h => ⟨.inl hq, h⟩, fun h => h.2⟩
  rw [if_neg hq, matches_lit_cons]
  constructor
  · rintro ⟨rfl, h⟩
    exact ⟨.inr rfl, h⟩
  · rintro ⟨rfl | rfl, h⟩
    · exact absurd rfl hq
    · exact ⟨rfl, h⟩

/-- Where the attempt under way fails, the next one takes over. -/
theorem wmBacktrack_right (hs : s.Aligned) (hno : ¬ GlobMatches s.pat s.txt) :
    (wmBacktrack s).Right s := by
  obtain ⟨pat, txt, star⟩ := s
  match star with
  | none =>
    simp only [wmBacktrack, WildcardTurn.Right, WildcardState.Finds]
    constructor
    · nofun
    · grind
  | some (p, []) =>
    simp only [wmBacktrack, WildcardTurn.Right, WildcardState.Finds]
    constructor
    · nofun
    · grind
  | some (p, b :: t) =>
    refine ⟨?_, ?_, ?_⟩
    · rintro p' t' ⟨⟩
      exact ⟨[], rfl, rfl, by simp⟩
    · constructor
      · rintro (h | ⟨p', b', t', h, hm⟩)
        · exact .inr ⟨p, b, t, rfl, matches_many.mpr (.inl h)⟩
        · cases h
          exact .inr ⟨p, b, b' :: t', rfl, matches_many.mpr (.inr ⟨b', t', rfl, hm⟩)⟩
      · rintro (h | ⟨p', b', t', h, hm⟩)
        · exact absurd h hno
        · cases h
          rcases matches_many.mp hm with hnow | ⟨b', t', rfl, hlater⟩
          · exact .inl hnow
          · exact .inr ⟨p, b', t', rfl, hlater⟩
    · simp [WildcardState.rank, Prod.Lex.toLex_lt_toLex]

/-- A star ends the attempts of the star before it: what they would find, it finds. -/
theorem wmLoop_star {star : Option (Text × Text)} (hs : WildcardState.Aligned ⟨42 :: p, t, star⟩) :
    (WildcardTurn.loop ⟨p, t, some (p, t)⟩).Right ⟨42 :: p, t, star⟩ := by
  refine ⟨?_, ?_, ?_⟩
  · rintro p' t' ⟨⟩
    exact ⟨[], rfl, rfl, by simp⟩
  · constructor
    · rintro (h | ⟨p', b', t', h, hm⟩)
      · exact .inl (matches_many.mpr (.inl h))
      · cases h
        exact .inl (matches_many.mpr (.inr ⟨b', t', rfl, hm⟩))
    have hfrom : GlobMatches (42 :: p) t → WildcardState.Finds ⟨p, t, some (p, t)⟩ := by
      intro h
      rcases matches_many.mp h with hnow | ⟨b, t', rfl, hlater⟩
      · exact .inl hnow
      · exact .inr ⟨p, b, t', rfl, hlater⟩
    rintro (h | ⟨p', b', t', h, hm⟩)
    · exact hfrom h
    obtain ⟨w, rfl, ht, hw⟩ := hs p' (b' :: t') h
    refine hfrom (Matches.later_star (w := w.map globToken) ?_ (s := t') ?_ ?_)
    · grind
    · simpa [globToken_star] using hm
    obtain rfl : t = (b' :: t').drop w.length := ht
    rw [length_map]
    cases hlen : w.length with
    | zero => exact suffix_cons b' t'
    | succ n =>
      rw [drop_succ_cons, ← drop_drop]
      exact drop_suffix 1 (t'.drop n)
  · match star, hs with
    | none, _ =>
      simp only [WildcardState.rank, Prod.Lex.toLex_lt_toLex, length_cons]
      left
      omega
    | some (p', t'), hs =>
      obtain ⟨w, hp', -, -⟩ := hs p' t' rfl
      simp only [WildcardState.rank, Prod.Lex.toLex_lt_toLex, hp', length_append, length_cons]
      left
      omega

theorem wmLoop_consume {b : UInt8} {star : Option (Text × Text)} (hc : c ≠ 42)
    (hfit : c = 63 ∨ c = b) (hs : WildcardState.Aligned ⟨c :: p, b :: t, star⟩) :
    (WildcardTurn.loop ⟨p, t, star⟩).Right ⟨c :: p, b :: t, star⟩ := by
  refine ⟨?_, ?_, ?_⟩
  · intro p' t' h
    obtain ⟨w, rfl, ht, hw⟩ := hs p' t' h
    refine ⟨w ++ [c], by simp, ?_, ?_⟩
    · have htail := congrArg tail ht
      simpa using htail
    · intro x hx
      rcases mem_append.mp hx with hx | hx
      · exact hw x hx
      · obtain rfl := mem_singleton.mp hx
        exact globToken_single hc
  · exact or_congr ((globMatches_cons hc).trans (and_iff_right hfit)).symm Iff.rfl
  · cases star with
    | none => simp [WildcardState.rank, Prod.Lex.toLex_lt_toLex]
    | some st => simp [WildcardState.rank, Prod.Lex.toLex_lt_toLex]

/-- A turn keeps what there is to find, and makes it smaller. -/
theorem wmLoop_right (hs : s.Aligned) : (wmLoop s).Right s := by
  obtain ⟨pat, txt, star⟩ := s
  match pat, txt with
  | [], [] => exact iff_of_true rfl (.inl rfl)
  | [], b :: t => exact wmBacktrack_right hs (by simp [GlobMatches])
  | c :: p, txt =>
    by_cases hc : c = 42
    · subst hc
      exact wmLoop_star hs
    match txt with
    | [] =>
      simp only [wmLoop, if_neg hc]
      exact wmBacktrack_right hs ((globToken_single hc).not_matches_nil _)
    | b :: t =>
      by_cases hfit : c = 63 ∨ c = b
      · have hturn : wmLoop ⟨c :: p, b :: t, star⟩ = .loop ⟨p, t, star⟩ := by
          rcases hfit with rfl | rfl
          · simp [wmLoop]
          · simp [wmLoop, hc]
        rw [hturn]
        exact wmLoop_consume hc hfit hs
      · have hturn : wmLoop ⟨c :: p, b :: t, star⟩ = wmBacktrack ⟨c :: p, b :: t, star⟩ := by
          simp [wmLoop, hc, not_or.mp hfit]
        rw [hturn]
        refine wmBacktrack_right hs fun h => hfit ?_
        exact ((globMatches_cons hc).mp h).1

/-- More turns give the same answer. -/
theorem wmRun_mono {n : Nat} {cf : Bool} (h : wmRun n s = some cf) :
    ∀ m, n ≤ m → wmRun m s = some cf := by
  induction n generalizing s with
  | zero => cases h
  | succ n ih =>
  intro m hm
  obtain ⟨m, rfl⟩ : ∃ k, m = k + 1 := ⟨m - 1, by omega⟩
  rw [wmRun] at h ⊢
  cases hturn : wmLoop s with
  | loop s' =>
    rw [hturn] at h
    exact ih h m (by omega)
  | done cf' =>
    rw [hturn] at h
    exact h

/-- Every run comes to an end, and answers whether one of the attempts finds a match. -/
theorem wmRun_answers (s : WildcardState) (hs : s.Aligned) :
    ∃ n cf, wmRun n s = some cf ∧ (cf = true ↔ s.Finds) := by
  induction hr : s.rank using WellFoundedLT.induction generalizing s with
  | ind r ih =>
  subst hr
  have hturn := wmLoop_right hs
  cases hl : wmLoop s with
  | loop s' =>
    rw [hl] at hturn
    obtain ⟨hs', hfinds, hlt⟩ := hturn
    obtain ⟨n, cf, hrun, hcf⟩ := ih s'.rank hlt s' hs' rfl
    exact ⟨n + 1, cf, by rw [wmRun, hl]; exact hrun, hcf.trans hfinds⟩
  | done cf =>
    rw [hl] at hturn
    exact ⟨1, cf, by rw [wmRun, hl], hturn⟩

/-- **The matcher ends and is right**: `wildcard_match` returns, with the carry flag set exactly
when the candidate is one of the strings the pattern describes. -/
theorem wildcardMatch_correct (pattern candidate : Text) :
    ∃ turns cf, (∀ n, turns ≤ n → wildcardMatch n pattern candidate = some cf) ∧
      (cf = true ↔ GlobMatches pattern candidate) := by
  have hstart : WildcardState.Aligned ⟨pattern, candidate, none⟩ := by
    rintro p t ⟨⟩
  obtain ⟨n, cf, hrun, hcf⟩ := wmRun_answers ⟨pattern, candidate, none⟩ hstart
  refine ⟨n, cf, wmRun_mono hrun, hcf.trans ?_⟩
  constructor
  · rintro (h | ⟨p, b, t, h, -⟩)
    · exact h
    · cases h
  · intro h
    exact .inl h

-- `a*b*c` against `aXbYbZc`: the second star has to give back its first `b`.
example :
    wildcardMatch 30 [97, 42, 98, 42, 99] [97, 88, 98, 89, 98, 90, 99] = some true := by decide

end Mellivora
