import Mathlib.Logic.Basic

/-!
# Weakest preconditions of stateful programs

A program in `EStateM` that raises an exception leaves its state as it was at that point. `Ends x Q
C` is the weakest precondition of `x` for two postconditions at once: `Q` of the result and the
state when `x` returns, `C` of the state an exception leaves behind. `Yields x Q` is the same for a
program in `StateM`, which always returns. `Returns x Q` is for a program in `StateT σ Option`,
where `none` stands for a loop that never ends: it says that `x` does return, and with `Q`. The
lemmas turn a program into the conditions under which its postcondition is met, statement by
statement.
-/

namespace Outcome

variable {ε σ α β : Type}

/-- Run from `s`, `x` returns with `Q`, or stops with `C`. -/
def Ends (x : EStateM ε σ α) (Q : α → σ → Prop) (C : σ → Prop) (s : σ) : Prop :=
  match x s with
  | .ok a s' => Q a s'
  | .error _ s' => C s'

variable {Q : α → σ → Prop} {C : σ → Prop} {s : σ}

@[simp] theorem ends_pure {a : α} : Ends (pure a : EStateM ε σ α) Q C s ↔ Q a s := Iff.rfl

@[simp] theorem ends_bind {x : EStateM ε σ β} {f : β → EStateM ε σ α} :
    Ends (x >>= f) Q C s ↔ Ends x (fun b s' => Ends (f b) Q C s') C s := by
  show (match EStateM.bind x f s with | .ok a s' => Q a s' | .error _ s' => C s') ↔ _
  unfold EStateM.bind Ends
  cases x s <;> rfl

@[simp] theorem ends_get {Q : σ → σ → Prop} : Ends (get : EStateM ε σ σ) Q C s ↔ Q s s := Iff.rfl

@[simp] theorem ends_set {Q : PUnit → σ → Prop} {t : σ} :
    Ends (set t : EStateM ε σ PUnit) Q C s ↔ Q ⟨⟩ t := Iff.rfl

@[simp] theorem ends_modify {Q : PUnit → σ → Prop} {f : σ → σ} :
    Ends (modify f : EStateM ε σ PUnit) Q C s ↔ Q ⟨⟩ (f s) := Iff.rfl

@[simp] theorem ends_throw {e : ε} : Ends (throw e : EStateM ε σ α) Q C s ↔ C s := Iff.rfl

theorem ends_ite {c : Prop} [Decidable c] {x y : EStateM ε σ α} :
    Ends (if c then x else y) Q C s ↔ if c then Ends x Q C s else Ends y Q C s := by
  split <;> rfl

theorem Ends.mono {x : EStateM ε σ α} {Q' : α → σ → Prop} {C' : σ → Prop} (h : Ends x Q C s)
    (hQ : ∀ a s', Q a s' → Q' a s') (hC : ∀ s', C s' → C' s') : Ends x Q' C' s := by
  unfold Ends at h ⊢
  cases hx : x s with
  | ok a s' => rw [hx] at h; exact hQ a s' h
  | error e s' => rw [hx] at h; exact hC s' h

/-- A loop over a list keeps an invariant indexed by the elements it has done. -/
theorem ends_forM {f : β → EStateM ε σ PUnit} {C : σ → Prop} (I : List β → σ → Prop) {l : List β}
    (done : List β)
    (hstep : ∀ done b, b ∈ l → ∀ s, I done s → Ends (f b) (fun _ s' => I (done ++ [b]) s') C s)
    (h : I done s) :
    Ends (l.forM f) (fun _ s' => I (done ++ l) s') C s := by
  induction l generalizing done s with
  | nil => simpa using h
  | cons b l ih =>
    refine ends_bind.mpr ?_
    refine (hstep done b (List.mem_cons_self ..) s h).mono (fun _ s' hs' => ?_) fun _ hc => hc
    have hrest := ih (done ++ [b]) (fun done b hb => hstep done b (List.mem_cons_of_mem _ hb)) hs'
    rwa [List.append_assoc, List.singleton_append] at hrest

/-! ## Programs that always return -/

/-- Run from `s`, `x` returns with `Q`. -/
def Yields (x : StateM σ α) (Q : α → σ → Prop) (s : σ) : Prop := Q (x.run s).1 (x.run s).2

section StateM

variable {x : StateM σ α} {Q Q' : α → σ → Prop} {s : σ}

@[simp] theorem yields_pure {a : α} : Yields (pure a : StateM σ α) Q s ↔ Q a s := Iff.rfl

@[simp] theorem yields_bind {x : StateM σ β} {f : β → StateM σ α} :
    Yields (x >>= f) Q s ↔ Yields x (fun b s' => Yields (f b) Q s') s := Iff.rfl

@[simp] theorem yields_get {Q : σ → σ → Prop} : Yields (get : StateM σ σ) Q s ↔ Q s s := Iff.rfl

@[simp] theorem yields_set {Q : PUnit → σ → Prop} {t : σ} :
    Yields (set t : StateM σ PUnit) Q s ↔ Q ⟨⟩ t := Iff.rfl

@[simp] theorem yields_modify {Q : PUnit → σ → Prop} {f : σ → σ} :
    Yields (modify f : StateM σ PUnit) Q s ↔ Q ⟨⟩ (f s) := Iff.rfl

@[simp] theorem yields_discard {x : StateM σ β} {Q : PUnit → σ → Prop} :
    Yields (discard x) Q s ↔ Yields x (fun _ s' => Q ⟨⟩ s') s := Iff.rfl

theorem yields_ite {c : Prop} [Decidable c] {x y : StateM σ α} :
    Yields (if c then x else y) Q s ↔ if c then Yields x Q s else Yields y Q s := by
  split <;> rfl

/-- These rules as one list for `simp`. -/
theorem yields_rules :
    (∀ {α : Type} {a : α} {Q : α → σ → Prop} {s : σ}, Yields (pure a : StateM σ α) Q s ↔ Q a s) ∧
    (∀ {α β : Type} {x : StateM σ β} {f : β → StateM σ α} {Q : α → σ → Prop} {s : σ},
      Yields (x >>= f) Q s ↔ Yields x (fun b s' => Yields (f b) Q s') s) ∧
    (∀ {Q : σ → σ → Prop} {s : σ}, Yields (get : StateM σ σ) Q s ↔ Q s s) ∧
    (∀ {Q : PUnit → σ → Prop} {s t : σ}, Yields (set t : StateM σ PUnit) Q s ↔ Q ⟨⟩ t) ∧
    (∀ {Q : PUnit → σ → Prop} {s : σ} {f : σ → σ}, Yields (modify f : StateM σ PUnit) Q s ↔
      Q ⟨⟩ (f s)) ∧
    (∀ {α : Type} {c : Prop} [Decidable c] {x y : StateM σ α} {Q : α → σ → Prop} {s : σ},
      Yields (if c then x else y) Q s ↔ if c then Yields x Q s else Yields y Q s) :=
  ⟨yields_pure, yields_bind, yields_get, yields_set, yields_modify, yields_ite⟩

theorem yields_of_forall (h : ∀ a s', Q a s') : Yields x Q s := h _ _

theorem Yields.mono (h : Yields x Q s) (hQ : ∀ a s', Q a s' → Q' a s') : Yields x Q' s := hQ _ _ h

/-- A question about the end that what is known of the end decides. -/
theorem Yields.decided {P : Prop} (h : Yields x Q s)
    (hQ : ∀ a s', Q a s' → (Q' a s' ↔ P)) : Yields x Q' s ↔ P := hQ _ _ h

/-- A step that reports failure: what follows where it has failed and where it has not. -/
theorem Yields.check {x : StateM σ Bool} {P : Bool → σ → Prop} {A B : σ → Prop} (h : Yields x P s)
    (hfail : ∀ s', P true s' → A s') (hgo : ∀ s', P false s' → B s') :
    Yields x (fun cf s' => if cf = true then A s' else B s') s := by
  refine h.mono fun cf s' h' => ?_
  cases cf with
  | true => exact hfail s' h'
  | false => exact hgo s' h'

theorem Yields.and (h : Yields x Q s) (h' : Yields x Q' s) :
    Yields x (fun a s' => Q a s' ∧ Q' a s') s := ⟨h, h'⟩

/-! ### Invariants -/

/-- `x` keeps the invariant `I`, whatever it returns. -/
def Maintains (I : σ → Prop) (x : StateM σ α) : Prop := ∀ s, I s → Yields x (fun _ s' => I s') s

variable {I : σ → Prop}

theorem maintains_pure (a : α) : Maintains I (pure a : StateM σ α) := fun _ hs => hs

theorem maintains_get : Maintains I (get : StateM σ σ) := fun _ hs => hs

theorem maintains_modify {f : σ → σ} (h : ∀ s, I s → I (f s)) :
    Maintains I (modify f : StateM σ PUnit) := h

theorem Maintains.bind {x : StateM σ β} {f : β → StateM σ α} (hx : Maintains I x)
    (hf : ∀ b, Maintains I (f b)) :
    Maintains I (x >>= f) := fun s hs => hf _ _ (hx s hs)

theorem maintains_modify_bind {f : σ → σ} {x : PUnit → StateM σ α} (h : ∀ s, I s → I (f s))
    (hx : ∀ u, Maintains I (x u)) :
    Maintains I (modify f >>= x) := fun s hs => hx _ _ (h s hs)

theorem Maintains.ite {c : Prop} [Decidable c] {x y : StateM σ α} (hx : Maintains I x)
    (hy : Maintains I y) :
    Maintains I (if c then x else y) := by
  split
  · exact hx
  · exact hy

/-- An early return. -/
theorem Maintains.early {c : Prop} [Decidable c] {a : α} {y : StateM σ α} (hy : Maintains I y) :
    Maintains I (if c then pure a else y) := .ite (maintains_pure a) hy

end StateM

/-! ## Programs that may run forever -/

/-- Run from `s`, `x` comes to an end, with `Q`. -/
def Returns (x : StateT σ Option α) (Q : α → σ → Prop) (s : σ) : Prop :=
  ∃ a s', x.run s = some (a, s') ∧ Q a s'

section Partial

variable {Q Q' : α → σ → Prop} {s : σ}

@[simp] theorem returns_pure {a : α} : Returns (pure a : StateT σ Option α) Q s ↔ Q a s := by
  constructor
  · rintro ⟨b, s', hrun, hQ⟩
    cases hrun
    exact hQ
  · intro hQ
    exact ⟨a, s, rfl, hQ⟩

@[simp] theorem returns_bind {x : StateT σ Option β} {f : β → StateT σ Option α} :
    Returns (x >>= f) Q s ↔ Returns x (fun b s' => Returns (f b) Q s') s := by
  constructor
  · rintro ⟨a, s', hrun, hQ⟩
    rw [StateT.run_bind] at hrun
    obtain ⟨⟨b, t⟩, hx, hf⟩ := Option.bind_eq_some_iff.mp hrun
    exact ⟨b, t, hx, a, s', hf, hQ⟩
  · rintro ⟨b, t, hx, a, s', hf, hQ⟩
    refine ⟨a, s', ?_, hQ⟩
    rw [StateT.run_bind, hx]
    exact hf

@[simp] theorem returns_get {Q : σ → σ → Prop} :
    Returns (get : StateT σ Option σ) Q s ↔ Q s s := returns_pure (a := s)

@[simp] theorem returns_set {Q : PUnit → σ → Prop} {t : σ} :
    Returns (set t : StateT σ Option PUnit) Q s ↔ Q ⟨⟩ t :=
  returns_pure (s := t)

@[simp] theorem returns_modify {Q : PUnit → σ → Prop} {f : σ → σ} :
    Returns (modify f : StateT σ Option PUnit) Q s ↔ Q ⟨⟩ (f s) :=
  returns_pure (s := f s)

@[simp] theorem returns_lift {x : Option α} :
    Returns (StateT.lift x : StateT σ Option α) Q s ↔ ∃ a, x = some a ∧ Q a s := by
  cases x with
  | none =>
    constructor
    · rintro ⟨a, s', hrun, -⟩
      cases hrun
    · rintro ⟨a, ha, -⟩
      cases ha
  | some a =>
    constructor
    · rintro ⟨b, s', hrun, hQ⟩
      cases hrun
      exact ⟨a, rfl, hQ⟩
    · rintro ⟨b, hb, hQ⟩
      cases hb
      exact ⟨a, s, rfl, hQ⟩

/-- The rules without `if` as one list for `simp`. -/
theorem returns_rules :
    (∀ {α : Type} {a : α} {Q : α → σ → Prop} {s : σ}, Returns (pure a : StateT σ Option α) Q s ↔
      Q a s) ∧
    (∀ {α β : Type} {x : StateT σ Option β} {f : β → StateT σ Option α} {Q : α → σ → Prop} {s : σ},
      Returns (x >>= f) Q s ↔ Returns x (fun b s' => Returns (f b) Q s') s) ∧
    (∀ {Q : σ → σ → Prop} {s : σ}, Returns (get : StateT σ Option σ) Q s ↔ Q s s) ∧
    (∀ {Q : PUnit → σ → Prop} {s t : σ}, Returns (set t : StateT σ Option PUnit) Q s ↔ Q ⟨⟩ t) ∧
    (∀ {Q : PUnit → σ → Prop} {s : σ} {f : σ → σ}, Returns (modify f : StateT σ Option PUnit) Q s ↔
      Q ⟨⟩ (f s)) :=
  ⟨returns_pure, returns_bind, returns_get, returns_set, returns_modify⟩

theorem returns_ite {c : Prop} [Decidable c] {x y : StateT σ Option α} :
    Returns (if c then x else y) Q s ↔ if c then Returns x Q s else Returns y Q s := by
  split <;> rfl

theorem Returns.mono {x : StateT σ Option α} (h : Returns x Q s) (hQ : ∀ a s', Q a s' → Q' a s') :
    Returns x Q' s := by
  obtain ⟨a, s', hrun, h⟩ := h
  exact ⟨a, s', hrun, hQ a s' h⟩

/-! ### Without the promise to return -/

/-- If `x` returns from `s`, then with `Q`. -/
def Allows (x : StateT σ Option α) (Q : α → σ → Prop) (s : σ) : Prop :=
  ∀ a s', x.run s = some (a, s') → Q a s'

@[simp] theorem allows_pure {a : α} : Allows (pure a : StateT σ Option α) Q s ↔ Q a s := by
  constructor
  · intro h
    exact h a s rfl
  · rintro hQ b s' ⟨⟩
    exact hQ

@[simp] theorem allows_bind {x : StateT σ Option β} {f : β → StateT σ Option α} :
    Allows (x >>= f) Q s ↔ Allows x (fun b s' => Allows (f b) Q s') s := by
  constructor
  · intro h b t hx a s' hf
    refine h a s' ?_
    rw [StateT.run_bind, hx]
    exact hf
  · intro h a s' hrun
    rw [StateT.run_bind] at hrun
    obtain ⟨⟨b, t⟩, hx, hf⟩ := Option.bind_eq_some_iff.mp hrun
    exact h b t hx a s' hf

@[simp] theorem allows_get {Q : σ → σ → Prop} :
    Allows (get : StateT σ Option σ) Q s ↔ Q s s := allows_pure (a := s)

@[simp] theorem allows_set {Q : PUnit → σ → Prop} {t : σ} :
    Allows (set t : StateT σ Option PUnit) Q s ↔ Q ⟨⟩ t :=
  allows_pure (s := t)

@[simp] theorem allows_modify {Q : PUnit → σ → Prop} {f : σ → σ} :
    Allows (modify f : StateT σ Option PUnit) Q s ↔ Q ⟨⟩ (f s) :=
  allows_pure (s := f s)

theorem allows_none : Allows (StateT.lift none : StateT σ Option α) Q s := by
  intro a s' hrun
  cases hrun

theorem Allows.mono {x : StateT σ Option α} (h : Allows x Q s) (hQ : ∀ a s', Q a s' → Q' a s') :
    Allows x Q' s :=
  fun a s' hrun => hQ a s' (h a s' hrun)

end Partial

end Outcome
