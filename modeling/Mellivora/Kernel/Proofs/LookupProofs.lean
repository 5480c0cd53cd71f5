import Mellivora.Kernel.Proofs.SessionProofs

/-!
# Proofs: lookups in the namespace

`.onw_links` counts the symlinks of all lookups since the start, so a lookup may follow those that
earlier ones have left.
-/

namespace Mellivora

variable {w : World} {caller : Option Nat} {text text' : ObjName} {r r' : Except MvStatus Nat}
  {n m links links' : Nat}

theorem World.Leads.of_link {target : ObjName} (h : w.Leads caller text n r)
    (hend : nsWalkSegs w caller (segments text) 0 w.root = some (.link target)) :
    ∃ m, n = m + 1 ∧ (target.head? = some separator → w.Leads caller target m r) := by
  cases h <;> grind

/-- A path leads to one end. -/
theorem World.Leads.unique (h : w.Leads caller text n r) (h' : w.Leads caller text m r') :
    n = m ∧ r = r' := by
  induction h generalizing m with
  | found hend => cases h' <;> grind
  | refused hend => cases h' <;> grind
  | relative hend hrel => cases h' <;> grind
  | link hend hroot _ ih =>
    obtain ⟨m, rfl, hrest⟩ := h'.of_link hend
    obtain ⟨rfl, rfl⟩ := ih (hrest hroot)
    exact ⟨rfl, rfl⟩

/-- What a lookup does that starts with a count of `links`. -/
theorem nsWalkFrom_leads {turns : Nat} (hlinks : links + 1 < 2 ^ 32)
    (h : nsWalkFrom w caller turns links text = some (r, text', links')) :
    (∃ n, w.Leads caller text n r ∧ (n = 0 ∨ links + n ≤ symlinkMax)) ∨
      r = .error .invalidParameter ∧ ∀ n r', w.Leads caller text n r' → n ≠ 0 ∧
      symlinkMax < links + n := by
  induction turns generalizing links text with
  | zero => cases h
  | succ turns ih =>
  rw [nsWalkFrom, Nat.mod_eq_of_lt hlinks] at h
  obtain ⟨e, hend, h⟩ := Option.bind_eq_some_iff.mp h
  cases e with
  | found obj =>
    cases h
    exact .inl ⟨0, .found hend, .inl rfl⟩
  | refused status =>
    cases h
    exact .inl ⟨0, .refused hend, .inl rfl⟩
  | link target =>
  dsimp only at h
  split at h
  · next hmax =>
    cases h
    refine .inr ⟨rfl, fun n r' hr => ?_⟩
    obtain ⟨m, rfl, -⟩ := hr.of_link hend
    exact ⟨Nat.succ_ne_zero m, by omega⟩
  split at h
  · next hmax hrel =>
    cases h
    exact .inl ⟨1, .relative hend hrel, .inr (not_lt.mp hmax)⟩
  next hmax hroot =>
  rw [not_not] at hroot
  rcases ih (by unfold symlinkMax at hmax; omega) h with ⟨n, hrest, hfits⟩ | ⟨hr, hrest⟩
  · exact .inl ⟨n + 1, .link hend hroot hrest, .inr (by omega)⟩
  · refine .inr ⟨hr, fun n r' hr' => ?_⟩
    obtain ⟨m, rfl, hchain⟩ := hr'.of_link hend
    obtain ⟨-, hlt⟩ := hrest m r' (hchain hroot)
    exact ⟨Nat.succ_ne_zero m, by omega⟩

/-- **Lookups**: every lookup ends, and its result is the one that the namespace, the path and the
caller determine if and only if its symlinks and those of the earlier lookups together are not too
many. -/
theorem objNsWalk_looksUp_iff (w : World) (hns : w.Namespace) (hlinks : w.onwLinks + 1 < 2 ^ 32)
    (caller : Option Nat) (path : ObjName) :
    ∃ r text links, w.walk caller path = some (r, text, links) ∧
    (w.LooksUp caller path r ↔ w.LinksFit caller path) := by
  obtain ⟨kids, h⟩ := hns.threaded
  obtain ⟨r, text, links, hwalk, -⟩ := walk_spec caller h hns.address hns.root.1 path
  refine ⟨r, text, links, hwalk, ?_⟩
  unfold World.walk at hwalk
  unfold World.LooksUp World.LinksFit
  dsimp only at hwalk
  split at hwalk
  · next hrefused =>
    cases hwalk
    simp [hrefused]
  next hpassed =>
  rw [if_neg hpassed]
  have hleads := nsWalkFrom_leads hlinks hwalk
  constructor
  · intro hr
    refine .inr fun n hn r' hr' => ?_
    rcases hr with ⟨m, -, hm⟩ | ⟨-, hnone⟩
    · obtain ⟨rfl, rfl⟩ := hm.unique hr'
      rcases hleads with ⟨m', hm', hfits⟩ | ⟨hr, -⟩
      · obtain ⟨rfl, -⟩ := hm'.unique hr'
        exact hfits.imp_right .inl
      · exact .inr (.inr hr)
    · exact absurd hr' (hnone n hn r')
  · rintro (hrefused | hfit)
    · exact absurd hrefused hpassed
    rcases hleads with ⟨n, hn, hfits⟩ | ⟨hr, hmany⟩
    · exact .inl ⟨n, by omega, hn⟩
    by_cases hsome : ∃ n ≤ symlinkMax, ∃ r', w.Leads caller (stripSeparator path) n r'
    · obtain ⟨n, hn, r', hr'⟩ := hsome
      obtain ⟨hne, hlt⟩ := hmany n r' hr'
      rcases hfit n hn r' hr' with hzero | hle | herror
      · exact absurd hzero hne
      · omega
      · exact .inl ⟨n, hn, hr.trans herror.symm ▸ hr'⟩
    · exact .inr ⟨hr, fun n hn r' hr' => hsome ⟨n, hn, r', hr'⟩⟩

/-- A root with a symlink `L` to itself, and the count that 32 lookups of it leave. -/
def linkWorld (links : Nat) : World :=
  { sessionWorld with
    nodes := fun a =>
      if a = 1 then { child := 2 }
      else if a =
        2 then { name := [0x4C], parent := 1, inNs := true, symlink := true, target := [separator] }
      else {}
    onwLinks := links }

theorem linkWorld_namespace (links : Nat) : (linkWorld links).Namespace := by
  refine ⟨⟨fun d => if d = 1 then [2] else [], ?_⟩, sessionWorld_namespace.address,
    one_ne_zero, rfl⟩
  refine ⟨fun d => ?_, fun d => ?_, rfl, fun d a ha => ?_⟩
  · by_cases h1 : d = 1
    · subst h1
      exact ⟨rfl, by decide, rfl⟩
    by_cases h2 : d = 2
    · subst h2
      rfl
    · simp [linkWorld, h1, h2]
  · split <;> simp
  · split at ha
    · next hd =>
      subst hd
      obtain rfl : a = 2 := by simpa using ha
      exact ⟨rfl, rfl, rfl⟩
    · simp at ha

/-- The last symlink that may be followed. -/
theorem objNsWalk_looksUp_lastLink :
    ∃ r text links, (linkWorld 31).walk none [0x4C] = some (r, text, links) ∧
    ((linkWorld 31).LooksUp none [0x4C] r ↔ (linkWorld 31).LinksFit none [0x4C]) :=
  objNsWalk_looksUp_iff (linkWorld 31) (linkWorld_namespace 31) (by decide) none [0x4C]

/-- The symlink is followed 32 times. -/
theorem objNsWalk_symlink_worn_out :
    ((linkWorld 0).walk none [0x4C]).map (fun r => r.1.toOption) = some (some 1) ∧
      ((linkWorld 31).walk none [0x4C]).map (fun r => (r.1.toOption, r.2.2)) = some (some 1, 32) ∧
        ((linkWorld 32).walk none [0x4C]).map (fun r => r.1.toOption) = some none := by
  decide +kernel

end Mellivora
