import Mellivora.Kernel.Pipes

/-!
# Proofs: pipes

A step accepts a byte, hands one out, or leaves the rings alone. The ring and the two streams of a
pipe change together, so the ring always holds what has been accepted and not handed out.
-/

namespace Mellivora

open Runs Function List

variable {c : PipeCall} {r : PipeRun} {w : PipeWorld} {t id id' : Nat}

theorem pipe_setPipe_of_ne {p : Pipe} (h : id' ≠ id) :
    (w.setPipe id p).pipes id' = w.pipes id' := update_of_ne h ..

/-- How many bytes a call says it has moved. -/
def PipeCall.done : PipeCall → Nat
  | write _ _ _ written => written
  | wait .. => 0
  | read _ _ _ done => done

/-- What was accepted is what was handed on and what the ring still holds. -/
structure PipeRun.Inv (r : PipeRun) : Prop where
  rings : ∀ id, (r.world.pipes id).WF ipcPipeSize
  streams : ∀ id, r.accepted id = r.handed id ++ (r.world.pipes id).contents ipcPipeSize
  moved : ∀ t, r.moved t = ((r.world.calls t).map PipeCall.done).getD 0
  results : ∀ x ∈ r.results, x.1 = x.2

theorem PipeRun.Inv.fifo (h : r.Inv) (id : Nat) : r.Fifo id := ⟨h.streams id, (h.rings id).count⟩

theorem inv_init : PipeRun.init.Inv :=
  ⟨fun _ => ⟨Nat.zero_le _, (by decide : 0 < ipcPipeSize), rfl⟩, fun _ => rfl, fun _ => rfl, nofun⟩

/-! ## What a step changes -/

theorem PipeRun.Inv.setCall (h : r.Inv) (t : Nat) {c : Option PipeCall}
    (hdone : (c.map PipeCall.done).getD 0 = ((r.world.calls t).map PipeCall.done).getD 0) :
    PipeRun.Inv { r with world := r.world.setCall t c } := by
  refine { h with moved := fun t' => ?_ }
  show r.moved t' = ((update r.world.calls t c t').map PipeCall.done).getD 0
  by_cases ht : t' = t
  · rw [ht, update_self, hdone]
    exact h.moved t
  · rw [update_of_ne ht]
    exact h.moved t'

/-- A call returns the count it has moved. -/
theorem PipeRun.Inv.finish (h : r.Inv) (t : Nat) {value : Nat}
    (hvalue : value = ((r.world.calls t).map PipeCall.done).getD 0) :
    (PipeRun.finish { r with world := r.world.setCall t none } (some t) value).Inv := by
  refine ⟨h.rings, h.streams, fun t' => ?_, fun x hx => ?_⟩
  · show update r.moved t 0 t' = ((update r.world.calls t none t').map PipeCall.done).getD 0
    by_cases ht : t' = t
    · rw [ht, update_self, update_self]
      rfl
    · rw [update_of_ne ht, update_of_ne ht]
      exact h.moved t'
  · rcases mem_cons.mp hx with rfl | hx
    · exact hvalue.trans (h.moved t).symm
    · exact h.results x hx

/-- One ring and its two streams change together. -/
theorem PipeRun.Inv.change (h : r.Inv) {r' : PipeRun} {p : Pipe}
    (hpipes : r'.world.pipes = update r.world.pipes id p)
    (hother : ∀ id', id' ≠ id → r'.accepted id' = r.accepted id' ∧ r'.handed id' = r.handed id')
    (hring : p.WF ipcPipeSize) (hstream : r'.accepted id = r'.handed id ++ p.contents ipcPipeSize)
    (hmoved : ∀ t, r'.moved t = ((r'.world.calls t).map PipeCall.done).getD 0)
    (hresults : r'.results = r.results) : r'.Inv := by
  refine ⟨fun id' => ?_, fun id' => ?_, hmoved, hresults ▸ h.results⟩
  all_goals
    rw [hpipes]
    by_cases hid : id' = id
  · rw [hid, update_self]
    exact hring
  · rw [update_of_ne hid]
    exact h.rings id'
  · rw [hid, update_self]
    exact hstream
  · rw [update_of_ne hid, (hother id' hid).1, (hother id' hid).2]
    exact h.streams id'

/-- A call says that it has moved one byte more. -/
theorem PipeRun.Inv.counted (h : r.Inv)
    (hdone : c.done = ((r.world.calls t).map PipeCall.done).getD 0 + 1) (t' : Nat) :
    update r.moved t (r.moved t + 1) t' =
    ((update r.world.calls t (some c) t').map PipeCall.done).getD 0 := by
  by_cases ht : t' = t
  · rw [ht, update_self, update_self, h.moved t]
    exact hdone.symm
  · rw [update_of_ne ht, update_of_ne ht]
    exact h.moved t'

/-- A new pipe is empty. -/
theorem PipeRun.Inv.create (h : r.Inv) (id : Nat) :
    PipeRun.Inv { r with
      world := r.world.setPipe id { toRingBuffer := (r.world.pipes id).clear, active := true }
      accepted := update r.accepted id []
      handed := update r.handed id [] } := by
  refine h.change rfl (fun id' hid => ⟨update_of_ne hid .., update_of_ne hid ..⟩)
    (RingBuffer.wf_clear (by decide) _) ?_ h.moved rfl
  show update r.accepted id [] id = update r.handed id [] id ++ []
  rw [update_self, update_self]
  rfl

theorem PipeRun.Inv.close (h : r.Inv) (id : Nat) :
    PipeRun.Inv { r with world := r.world.setPipe id { r.world.pipes id with active := false } } :=
  h.change rfl (fun _ _ => ⟨rfl, rfl⟩) (h.rings id) (h.streams id) h.moved rfl

/-- A byte goes into the ring. -/
theorem PipeRun.Inv.accept (h : r.Inv) (t : Nat) (b : UInt8)
    (hdone : c.done = ((r.world.calls t).map PipeCall.done).getD 0 + 1)
    (hroom : (r.world.pipes id).count < ipcPipeSize) :
    (PipeRun.count { r with
      world := (r.world.setPipe id { r.world.pipes id with
        toRingBuffer := (r.world.pipes id).push ipcPipeSize b }).setCall t (some c)
      accepted := update r.accepted id (r.accepted id ++ [b]) } (some t)).Inv := by
  refine h.change rfl (fun id' hid => ⟨update_of_ne hid .., rfl⟩) ((h.rings id).push hroom b) ?_
    (h.counted hdone) rfl
  show update r.accepted id (r.accepted id ++ [b]) id = _
  rw [update_self, (h.rings id).contents_push hroom, h.streams id, append_assoc]
  rfl

/-- A byte goes to a reader. -/
theorem PipeRun.Inv.hand (h : r.Inv) (t addr : Nat)
    (hdone : c.done = ((r.world.calls t).map PipeCall.done).getD 0 + 1)
    (hsome : (r.world.pipes id).count ≠ 0) :
    (PipeRun.count { r with
      world := ((r.world.setPipe id { r.world.pipes id with
        toRingBuffer := (r.world.pipes id).pop ipcPipeSize }).store t addr
          (r.world.pipes id).front).setCall t (some c)
      handed := update r.handed id (r.handed id ++ [(r.world.pipes id).front]) } (some t)).Inv := by
  refine h.change rfl (fun id' hid => ⟨rfl, update_of_ne hid ..⟩) ((h.rings id).pop hsome) ?_
    (h.counted hdone) rfl
  show r.accepted id = update r.handed id (r.handed id ++ [(r.world.pipes id).front]) id ++ _
  rw [update_self, h.streams id, (h.rings id).contents_pop hsome, append_assoc, singleton_append]

/-! ## The steps -/

/-- A step of a call. -/
theorem PipeRun.Inv.go (h : r.Inv) (t : Nat) : ((PipeStep.go t).step r).Inv := by
  show (PipeRun.note { r with world := (r.world.go t).1 } (some t) (r.world.go t).2).Inv
  unfold PipeWorld.go
  cases hcall : r.world.calls t with
  | none => exact h
  | some c =>
  cases c with
  | write id src len written =>
    have hdone : written = ((r.world.calls t).map PipeCall.done).getD 0 := by
      rw [hcall]
      rfl
    dsimp only
    by_cases hlen : len ≤ written
    · rw [if_pos hlen]
      exact h.finish t hdone
    rw [if_neg hlen]
    by_cases hfull : ipcPipeSize ≤ (r.world.pipes id).count
    · rw [if_pos hfull]
      exact h.finish t hdone
    rw [if_neg hfull]
    exact h.accept t _ (congrArg (· + 1) hdone) (Nat.not_le.mp hfull)
  | wait id dst len retries =>
    have hdone : 0 = ((r.world.calls t).map PipeCall.done).getD 0 := by
      rw [hcall]
      rfl
    dsimp only
    by_cases hsome : (r.world.pipes id).count ≠ 0
    · rw [if_pos hsome]
      exact h.setCall t hdone
    rw [if_neg hsome]
    by_cases hlast : pipeReadRetries ≤ retries + 1
    · rw [if_pos hlast]
      exact h.finish t hdone
    · rw [if_neg hlast]
      exact h.setCall t hdone
  | read id dst len done =>
  have hdone : done = ((r.world.calls t).map PipeCall.done).getD 0 := by
    rw [hcall]
    rfl
  dsimp only
  by_cases hlen : len ≤ done
  · rw [if_pos hlen]
    exact h.finish t hdone
  rw [if_neg hlen]
  by_cases hempty : (r.world.pipes id).count = 0
  · rw [if_pos hempty]
    exact h.finish t hdone
  rw [if_neg hempty]
  exact h.hand t _ (congrArg (· + 1) hdone) hempty

/-- A call begins. -/
theorem PipeRun.Inv.enter (h : r.Inv) {t : Nat} (hfree : r.world.calls t = none)
    (hdone : c.done = 0) (rangeOk : Bool) :
    (PipeRun.note { r with world := (r.world.enter t c rangeOk).1 } (some t)
      (r.world.enter t c rangeOk).2).Inv := by
  unfold PipeWorld.enter
  by_cases hok : rangeOk ∧ c.id < ipcMaxPipes ∧ (r.world.pipes c.id).active
  · rw [if_pos hok]
    refine h.setCall t ?_
    rw [hfree]
    exact hdone
  · rw [if_neg hok]
    exact h

/-- Every step keeps the order of the bytes. -/
theorem PipeRun.Inv.step (h : r.Inv) (c : PipeStep) : (c.step r).Inv := by
  cases c with
  | create =>
    show (PipeRun.note { r with world := r.world.sysPipeCreate.1 } none r.world.sysPipeCreate.2).Inv
    unfold PipeWorld.sysPipeCreate
    split
    · exact h.create _
    · exact h
  | close id =>
    show (PipeRun.note { r with world := (r.world.sysPipeClose id).1 } none
      (r.world.sysPipeClose id).2).Inv
    unfold PipeWorld.sysPipeClose
    by_cases hid : ipcMaxPipes ≤ id
    · rw [if_pos hid]
      exact h
    · rw [if_neg hid]
      exact h.close id
  | write t id src len rangeOk =>
    unfold PipeStep.step PipeStep.run
    by_cases hbusy : (r.world.calls t).isSome
    · simp only [if_pos hbusy]
      exact h
    · simp only [if_neg hbusy]
      exact h.enter (Option.not_isSome_iff_eq_none.mp hbusy) rfl rangeOk
  | read t id dst len rangeOk =>
    unfold PipeStep.step PipeStep.run
    by_cases hbusy : (r.world.calls t).isSome
    · simp only [if_pos hbusy]
      exact h
    · simp only [if_neg hbusy]
      exact h.enter (Option.not_isSome_iff_eq_none.mp hbusy) rfl rangeOk
  | go t => exact h.go t
  | poke t addr b => exact { h with }

/-! ## Other pipes -/

theorem pipes_go (w : PipeWorld) (t : Nat) (hother : ∀ c, w.calls t = some c → c.id ≠ id) :
    (w.go t).1.pipes id = w.pipes id := by
  unfold PipeWorld.go
  cases hcall : w.calls t with
  | none => rfl
  | some c =>
  have hne : id ≠ c.id := (hother c hcall).symm
  cases c with
  | write id' src len written =>
    dsimp only
    split
    · rfl
    · split
      · rfl
      · exact pipe_setPipe_of_ne hne
  | wait id' dst len retries =>
    dsimp only
    split
    · rfl
    · split <;> rfl
  | read id' dst len done =>
  dsimp only
  split
  · rfl
  · split
    · rfl
    · exact pipe_setPipe_of_ne hne

theorem pipes_enter (w : PipeWorld) (t : Nat) (c : PipeCall) (rangeOk : Bool) :
    (w.enter t c rangeOk).1.pipes = w.pipes := by
  unfold PipeWorld.enter
  split <;> rfl

/-- A step leaves the pipes it is not on alone. -/
theorem pipes_run (c : PipeStep) (w : PipeWorld) (hother : ¬ c.On w id) :
    (c.run w).1.pipes id = w.pipes id := by
  cases c with
  | create =>
    simp only [PipeStep.On, PipeStep.run, PipeWorld.sysPipeCreate] at hother ⊢
    split at hother
    · refine pipe_setPipe_of_ne ?_
      rintro rfl
      exact hother rfl
    · rfl
  | close id' =>
    simp only [PipeStep.run, PipeWorld.sysPipeClose]
    split
    · rfl
    · exact pipe_setPipe_of_ne (Ne.symm hother)
  | write t id' src len rangeOk =>
    simp only [PipeStep.run]
    split
    · rfl
    · rw [PipeWorld.sysPipeWrite, pipes_enter]
  | read t id' dst len rangeOk =>
    simp only [PipeStep.run]
    split
    · rfl
    · rw [PipeWorld.sysPipeRead, pipes_enter]
  | go t => exact pipes_go w t fun c hc hid => hother ⟨c, hc, hid⟩
  | poke t addr b => rfl

theorem world_note (r : PipeRun) (t : Option Nat) (e : PipeEvent) :
    (r.note t e).world = r.world := by
  cases e with
  | nothing => rfl
  | refused => rfl
  | created id => rfl
  | accepted id b => cases t <;> rfl
  | handed id b => cases t <;> rfl
  | returned value => cases t <;> rfl

/-! ## The tasks' memory -/

theorem movesByte_go (w : PipeWorld) (t : Nat) : w.MovesByte (w.go t) := by
  unfold PipeWorld.go
  cases hcall : w.calls t with
  | none => trivial
  | some c =>
  cases c with
  | write id src len written =>
    dsimp only
    by_cases hlen : len ≤ written
    · rw [if_pos hlen]
      trivial
    rw [if_neg hlen]
    by_cases hfull : ipcPipeSize ≤ (w.pipes id).count
    · rw [if_pos hfull]
      trivial
    · rw [if_neg hfull]
      exact ⟨t, src, len, written, hcall, rfl⟩
  | wait id dst len retries =>
    dsimp only
    by_cases hsome : (w.pipes id).count ≠ 0
    · rw [if_pos hsome]
      trivial
    rw [if_neg hsome]
    by_cases hlast : pipeReadRetries ≤ retries + 1
    · rw [if_pos hlast]
      trivial
    · rw [if_neg hlast]
      trivial
  | read id dst len done =>
  dsimp only
  by_cases hlen : len ≤ done
  · rw [if_pos hlen]
    trivial
  rw [if_neg hlen]
  by_cases hempty : (w.pipes id).count = 0
  · rw [if_pos hempty]
    trivial
  rw [if_neg hempty]
  refine ⟨t, dst, len, done, hcall, ?_⟩
  show update w.mem t (update (w.mem t) (dst + done) _) t (dst + done) = _
  rw [update_self, update_self]

theorem movesByte_enter (w : PipeWorld) (t : Nat) (c : PipeCall) (rangeOk : Bool) :
    w.MovesByte (w.enter t c rangeOk) := by
  unfold PipeWorld.enter
  by_cases hok : rangeOk ∧ c.id < ipcMaxPipes ∧ (w.pipes c.id).active
  · rw [if_pos hok]
    trivial
  · rw [if_neg hok]
    trivial

/-- A step moves one byte at most. -/
theorem movesByte_run (c : PipeStep) (w : PipeWorld) : w.MovesByte (c.run w) := by
  cases c with
  | create =>
    simp only [PipeStep.run, PipeWorld.sysPipeCreate]
    cases (range ipcMaxPipes).find? fun id => !(w.pipes id).active with
    | none => trivial
    | some id => trivial
  | close id =>
    simp only [PipeStep.run, PipeWorld.sysPipeClose]
    by_cases hid : ipcMaxPipes ≤ id
    · rw [if_pos hid]
      trivial
    · rw [if_neg hid]
      trivial
  | write t id src len rangeOk =>
    simp only [PipeStep.run]
    by_cases hbusy : (w.calls t).isSome
    · rw [if_pos hbusy]
      trivial
    · rw [if_neg hbusy]
      exact movesByte_enter w t _ rangeOk
  | read t id dst len rangeOk =>
    simp only [PipeStep.run]
    by_cases hbusy : (w.calls t).isSome
    · rw [if_pos hbusy]
      trivial
    · rw [if_neg hbusy]
      exact movesByte_enter w t _ rangeOk
  | go t => exact movesByte_go w t
  | poke t addr b => trivial

/-- Whatever the tasks do, and in whatever order their steps come: each pipe hands out what it has
accepted, in that order, and the ring holds the rest; each call returns the number of bytes it has
moved; a step leaves all pipes alone but the one it is on; and the bytes it moves come from the
writer's memory and go to the reader's. -/
theorem pipeRun_fifo (steps : List PipeStep) :
    (∀ id, (after PipeStep.step .init steps).Fifo id) ∧
      (∀ x ∈ (after PipeStep.step .init steps).results, x.1 = x.2) ∧
      (∀ (c : PipeStep) (id : Nat), ¬ c.On (after PipeStep.step .init steps).world id →
        (c.step (after PipeStep.step .init steps)).world.pipes id =
          (after PipeStep.step .init steps).world.pipes id) ∧
      ∀ c : PipeStep, (after PipeStep.step .init steps).world.MovesByte
        (c.run (after PipeStep.step .init steps).world) := by
  have hinv : (after PipeStep.step .init steps).Inv :=
    after_invariant (I := PipeRun.Inv) (fun c _ h => h.step c) inv_init steps
  refine ⟨hinv.fifo, hinv.results, fun c id hother => ?_, fun c => movesByte_run c _⟩
  rw [PipeStep.step, world_note]
  exact pipes_run c _ hother

/-- Task 0 writes the byte at 8 to a pipe, and task 1 reads it to 16. -/
example :
    ((after PipeStep.step .init
    [.create, .poke 0 8 42, .write 0 0 8 1 true, .read 1 0 16 1 true, .go 0, .go 1,
    .go 1]).handed 0,
      (after PipeStep.step .init [.create, .poke 0 8 42, .write 0 0 8 1 true, .read 1 0 16 1 true,
      .go 0, .go 1, .go 1]).world.mem 1 16) = ([42], 42) := by
  decide

end Mellivora
