import Mellivora.Kernel.WaitPid

/-!
# Proofs: exit statuses

While nobody is handed a status at the moment of death, a status leaves the table only together with
the slot that has kept it, and so at most once.
-/

namespace Mellivora

open Runs List

variable {pid : Int} {p : Proc} {s s' : Procs} {t i : Nat}

/-- What holds of a task in the table. -/
structure Proc.Fits (p : Proc) (deaths : List (Nat × Nat)) : Prop where
  zombie : p.state = .zombie → (p.life, p.exitCode) ∈ deaths
  waits : ∀ w, p.wait = some w → p.state = .blocked ∧ p.waitPid = w.asked ∧
    (w.asked = 0 → w.named = none)

/-- The invariant of the processes: no life is in two slots, or collected and still there. -/
structure Procs.Inv (s : Procs) : Prop where
  lives : ∀ i, (s.tasks i).state ≠ .free → (s.tasks i).life < s.lives ∧ (s.tasks i).life ∉ s.sources
  unique : ∀ i j, (s.tasks i).state ≠ .free → (s.tasks j).state ≠ .free →
    (s.tasks i).life = (s.tasks j).life → i = j
  tasks : ∀ i, (s.tasks i).state ≠ .free → (s.tasks i).Fits s.deaths
  first : (s.tasks 0).state = .free
  sources : ∀ u ∈ s.sources, u < s.lives
  sound : s.Sound

attribute [local grind cases] Procs.Inv

theorem Proc.Fits.quiet (hstate : p.state ≠ .zombie) (hwait : p.wait = none)
    (deaths : List (Nat × Nat)) :
    p.Fits deaths := by
  refine ⟨fun hzombie => absurd hzombie hstate, fun w hw => ?_⟩
  cases hwait.symm.trans hw

theorem Answer.Right.mono {a : Answer} {deaths deaths' : List (Nat × Nat)} (h : a.Right deaths)
    (hmono : ∀ d ∈ deaths, d ∈ deaths') : a.Right deaths' :=
  { h with status := fun u hu => hmono _ (h.status u hu) }

/-! ## Changes of the table -/

/-- The lives in the table stay where they are or leave it; new answers return no status. -/
theorem Procs.Inv.change (h : s.Inv) (hlives : s'.lives = s.lives)
    (hsources : s'.sources = s.sources) (htasks : ∀ i, (s'.tasks i).state ≠ .free →
      (s.tasks i).state ≠ .free ∧ (s'.tasks i).life = (s.tasks i).life ∧
      (s'.tasks i).Fits s'.deaths)
    (hanswers : ∀ a ∈ s'.answers, a.Right s'.deaths) : s'.Inv := by
  refine ⟨fun i hi => ?_, fun i j hi hj hlife => ?_, fun i hi => (htasks i hi).2.2, ?_, ?_,
    ?_, hanswers⟩
  · grind
  · grind
  · by_contra hzero
    exact (htasks 0 hzero).1 h.first
  · rw [hsources, hlives]
    exact h.sources
  · rw [hsources]
    exact h.sound.once

theorem task_set_self (s : Procs) (i : Nat) (p : Proc) :
    (s.setTask i p).tasks i = p := Function.update_self ..

theorem task_set_of_ne {j : Nat} (h : j ≠ i) :
    (s.setTask i p).tasks j = s.tasks j := Function.update_of_ne h ..

theorem Procs.Inv.setTask (h : s.Inv) (hi : (s.tasks i).state ≠ .free)
    (hlife : p.life = (s.tasks i).life) (hfits : p.Fits s.deaths) : (s.setTask i p).Inv := by
  refine h.change rfl rfl (fun j hj => ?_) h.sound.right
  by_cases hji : j = i
  · subst hji
    rw [task_set_self]
    exact ⟨hi, hlife, hfits⟩
  · rw [task_set_of_ne hji] at hj ⊢
    exact ⟨hj, rfl, h.tasks j hj⟩

theorem Procs.Inv.setTask_free (h : s.Inv) (i : Nat) :
    (s.setTask i { s.tasks i with state := .free }).Inv := by
  refine h.change rfl rfl (fun j hj => ?_) h.sound.right
  by_cases hji : j = i
  · subst hji
    rw [task_set_self] at hj
    exact absurd rfl hj
  · rw [task_set_of_ne hji] at hj ⊢
    exact ⟨hj, rfl, h.tasks j hj⟩

/-- A new life is its own. -/
theorem Procs.Inv.begin (h : s.Inv) (hi : i ≠ 0) (hstate : p.state = .live)
    (hwait : p.wait = none) :
    (s.begin i p).Inv := by
  have hself : (s.begin i p).tasks i = { p with life := s.lives } := task_set_self _ i _
  have hother : ∀ j, j ≠ i → (s.begin i p).tasks j = s.tasks j := fun j hj => task_set_of_ne hj
  have hlt : ∀ j, j ≠ i → ((s.begin i p).tasks j).state ≠ .free →
    ((s.begin i p).tasks j).life < s.lives := by grind
  refine ⟨fun j hj => ?_, fun j k hj hk hlife => ?_, fun j hj => ?_, ?_, fun u hu => ?_,
    h.sound.once, h.sound.right⟩
  · by_cases hji : j = i
    · rw [hji, hself]
      exact ⟨Nat.lt_succ_self _, fun hmem => (h.sources _ hmem).false⟩
    · refine ⟨(hlt j hji hj).trans (Nat.lt_succ_self _), ?_⟩
      rw [hother j hji] at hj ⊢
      exact (h.lives j hj).2
  · by_cases hji : j = i
    · grind
    · grind
  · by_cases hji : j = i
    · rw [hji, hself]
      have hnot : ({ p with life := s.lives } : Proc).state ≠ .zombie := by
        show p.state ≠ .zombie
        rw [hstate]
        simp
      exact .quiet hnot hwait _
    · rw [hother j hji] at hj ⊢
      exact h.tasks j hj
  · rw [hother 0 hi.symm]
    exact h.first
  · exact (h.sources u hu).trans (Nat.lt_succ_self _)

theorem Procs.Inv.schedKillGroupMates (h : s.Inv) (t : Nat) : (s.schedKillGroupMates t).Inv := by
  refine h.change rfl rfl (fun i hi => ?_) h.sound.right
  have hsame : (s.schedKillGroupMates t).tasks i = s.tasks i := by
    by_cases hmate : i ≠ t ∧ (s.tasks i).tgid = (s.tasks t).tgid
    · exact absurd (congrArg Proc.state (if_pos hmate)) hi
    · exact if_neg hmate
  rw [hsame] at hi ⊢
  exact ⟨hi, rfl, h.tasks i hi⟩

theorem endTask_self (s : Procs) (t code : Nat) :
    (s.endTask t code).tasks t =
    { s.tasks t with state := .zombie, exitCode := code, wait := none } := task_set_self ..

/-- A life that ends leaves its status. -/
theorem Procs.Inv.endTask (h : s.Inv) (ht : (s.tasks t).state ≠ .free) (code : Nat) :
    (s.endTask t code).Inv := by
  have hmono : ∀ d ∈ s.deaths, d ∈ (s.endTask t code).deaths := fun d hd => mem_cons_of_mem _ hd
  refine h.change rfl rfl (fun i hi => ?_) fun a ha => (h.sound.right a ha).mono hmono
  by_cases hit : i = t
  · subst hit
    refine ⟨ht, ?_⟩
    rw [endTask_self]
    exact ⟨rfl, fun _ => mem_cons_self .., nofun⟩
  · have hsame : (s.endTask t code).tasks i = s.tasks i := task_set_of_ne hit
    rw [hsame] at hi ⊢
    have hfits := h.tasks i hi
    exact ⟨hi, rfl, fun hz => hmono _ (hfits.zombie hz), hfits.waits⟩

theorem wake_of_none (h : ∀ i < maxTasks, ¬ (s.tasks i).WaitsFor t) (freed : Bool) :
    s.wake t freed = s := by
  unfold Procs.wake
  have hnone : ((range maxTasks).filter fun i => (s.tasks i).WaitsFor t) = [] := by
    rw [filter_eq_nil_iff]
    intro i hi
    simpa using h i (mem_range.mp hi)
  rw [hnone]
  congr 1
  funext i
  rw [if_neg fun hfound => h i hfound.1 hfound.2]

theorem junk_source (p : Proc) (a : Answer) (ha : a ∈ p.junk) :
    a.source = none ∧ ∃ w, p.wait = some w ∧ a.wait = w := by
  unfold Proc.junk at ha
  cases hwait : p.wait with
  | none =>
    rw [hwait] at ha
    cases ha
  | some w => grind

theorem sources_append {answers : List Answer} (h : ∀ a ∈ answers, a.source = none) (s : Procs) :
    Procs.sources { s with answers := answers ++ s.answers } = s.sources := by
  unfold Procs.sources
  rw [filterMap_append, filterMap_eq_nil_iff.mpr h, nil_append]

/-- A parent that is blocked in another call goes on. -/
theorem Procs.Inv.spdChld (h : s.Inv) (parent : Nat) : (s.spdChld parent).Inv := by
  unfold Procs.spdChld
  dsimp only
  split
  · exact h
  split
  case isFalse => exact h
  case isTrue hblocked =>
    have hnonfree : (s.tasks parent).state ≠ .free := by
      rw [hblocked.1]
      simp
    have hfits := h.tasks parent hnonfree
    have hanswered : Procs.Inv { s with answers := (s.tasks parent).junk ++ s.answers } := by
      refine h.change rfl (sources_append (fun a ha => (junk_source _ a ha).1) s)
        (fun i hi => ⟨hi, rfl, h.tasks i hi⟩) fun a ha => ?_
      rcases mem_append.mp ha with hjunk | hold
      · obtain ⟨hsource, w, hw, hasked⟩ := junk_source _ a hjunk
        -- The parent has asked for task 0, which nobody is.
        obtain ⟨-, hpid, hzero⟩ := hfits.waits w hw
        have hasked0 : w.asked = 0 := hpid.symm.trans hblocked.2
        have hno : ∀ u, a.source ≠ some u := fun u => by
          rw [hsource]
          simp
        refine ⟨fun u hu => absurd hu (hno u), fun u hu => absurd hu (hno u), fun u hu => ?_,
          fun hany => ?_⟩
        · rw [hasked, hzero hasked0] at hu
          cases hu
        · rw [hasked, hasked0] at hany
          cases hany
      · exact h.sound.right a hold
    exact hanswered.setTask hnonfree rfl (.quiet (by simp) rfl _)

theorem endTask_waits (hnone : ∀ i < maxTasks, ¬ (s.tasks i).WaitsFor t) (code i : Nat)
    (hi : i < maxTasks) :
    ¬ ((s.endTask t code).tasks i).WaitsFor t := by
  by_cases hit : i = t
  · subst hit
    rw [endTask_self]
    exact fun hw => by cases hw.1
  · rw [show (s.endTask t code).tasks i = s.tasks i from task_set_of_ne hit]
    exact hnone i hi

/-- A death is published once. -/
theorem Procs.Inv.schedPublishDeath (h : s.Inv) (ht : (s.tasks t).state ≠ .free)
    (hnone : ∀ i < maxTasks, ¬ (s.tasks i).WaitsFor t) (code : Nat) :
    (s.schedPublishDeath t code).Inv := by
  have hended := h.endTask ht code
  simp only [Procs.schedPublishDeath, wake_of_none (endTask_waits hnone code)]
  split
  · exact hended
  · split
    · exact hended.setTask_free t
    · exact hended.spdChld _

/-- The end of a group. -/
theorem Procs.Inv.schedExitTask (h : s.Inv) (ht : (s.tasks t).state ≠ .free)
    (hnone : ∀ i < maxTasks, ¬ (s.tasks i).WaitsFor t) (code : Nat) :
    (s.schedExitTask t code).Inv := by
  have hself : (s.schedKillGroupMates t).tasks t = s.tasks t := if_neg fun hmate => hmate.1 rfl
  refine (h.schedKillGroupMates t).schedPublishDeath ?_ (fun i hi hw => ?_) code
  · rwa [hself]
  · by_cases hmate : i ≠ t ∧ (s.tasks i).tgid = (s.tasks t).tgid
    · rw [show (s.schedKillGroupMates t).tasks i =
        { s.tasks i with state := .free } from if_pos hmate] at hw
      cases hw.1
    · rw [show (s.schedKillGroupMates t).tasks i = s.tasks i from if_neg hmate] at hw
      exact hnone i hi hw

/-! ## The calls -/

theorem slot_ne_zero (h : s.freeSlot = some i) : i ≠ 0 := by
  have hfound := find?_some h
  simp only [ne_eq, decide_eq_true_eq] at hfound
  exact hfound.1

theorem Procs.Inv.sysThreadDetach (h : s.Inv) (t i : Nat) : (s.sysThreadDetach t i).Inv := by
  unfold Procs.sysThreadDetach
  split
  case isFalse => exact h
  case isTrue hthread =>
    have hstate : (s.tasks i).state ≠ .free := by grind
    have hfits := h.tasks i hstate
    exact h.setTask hstate rfl { hfits with }

/-- The exit of a thread. -/
theorem Procs.Inv.sysThreadExit (h : s.Inv) (ht : (s.tasks t).state ≠ .free)
    (hnone : ∀ i < maxTasks, ¬ (s.tasks i).WaitsFor t) (code : Nat) :
    (s.sysThreadExit t code).Inv := by
  unfold Procs.sysThreadExit
  split
  · rw [wake_of_none (endTask_waits hnone code)]
    exact h.endTask ht code
  · exact h.schedExitTask ht hnone code

/-- A signal. -/
theorem Procs.Inv.schedSignalTask (h : s.Inv) {sig : Nat} {action : SignalAction} {running : Bool}
    (horderly : (ProcCall.signal t sig action running).Orderly s) :
    (s.schedSignalTask t sig action running).Inv := by
  obtain ⟨hkill, hqueue⟩ := horderly
  unfold Procs.schedSignalTask
  dsimp only
  by_cases hgone : (s.tasks t).state = .zombie ∨ (s.tasks t).state = .free
  · rw [if_pos hgone]
    exact h
  rw [if_neg hgone]
  have ht : (s.tasks t).state ≠ .free := fun hfree => hgone (Or.inr hfree)
  have hfits := h.tasks t ht
  by_cases hrunning : (s.tasks t).state = .live ∧ running
  · rw [if_pos hrunning]
    split
    · exact h.setTask ht rfl { hfits with }
    · exact h
  rw [if_neg hrunning]
  cases action with
  | kill => exact h.schedExitTask ht (hkill rfl) _
  | ignore => exact h
  | queue =>
  dsimp only
  split
  case isFalse => exact h
  case isTrue hblocked =>
    have hjunk : (s.tasks t).junk = [] := by
      unfold Proc.junk
      rw [hqueue rfl]
    rw [hjunk]
    exact h.setTask ht rfl (.quiet (by simp) rfl _)

theorem Procs.Inv.schedDeliverSignals (h : s.Inv) (t : Nat) : (s.schedDeliverSignals t).Inv := by
  unfold Procs.schedDeliverSignals
  split
  · exact h.setTask_free t
  · exact h

theorem hasChild_wait : (s.wait t pid).hasChild = true ↔ s.HasChild t := by
  rw [Procs.wait, decide_eq_true_iff]

/-- -1 is right for who has no such child. -/
theorem Procs.Inv.swpFail (h : s.Inv) (hnamed : (s.wait t pid).named = none)
    (hany : pid = -1 → ¬ s.HasChild t) : (s.swpFail t pid).Inv := by
  refine h.change rfl rfl (fun i hi => ⟨hi, rfl, h.tasks i hi⟩) fun a ha => ?_
  rcases mem_cons.mp ha with rfl | hold
  · refine ⟨nofun, nofun, fun u hu => ?_, fun hasked hchild => ?_⟩
    · cases hnamed.symm.trans hu
    · exact absurd (hasChild_wait.mp hchild) (hany hasked)
  · exact h.sound.right a hold

/-- A status is collected once. -/
theorem Procs.Inv.swpReap (h : s.Inv) (hzombie : (s.tasks i).state = .zombie)
    (hnamed : (s.wait t pid).named = none) (hparent : (s.tasks i).parent = some (s.tasks t).life ∨
      (s.tasks i).parent = none ∧ (pid = -1 → ¬ s.HasChild t)) : (s.swpReap t pid i).Inv := by
  have hnonfree : (s.tasks i).state ≠ .free := by
    rw [hzombie]
    simp
  obtain ⟨hlife, hnew⟩ := h.lives i hnonfree
  have hself : ((s.swpReap t pid i).tasks i).state = .free := by
    rw [show (s.swpReap t pid i).tasks i = { s.tasks i with state := .free } from task_set_self ..]
  have hother : ∀ j, ((s.swpReap t pid i).tasks j).state ≠ .free →
      j ≠ i ∧ (s.tasks j).state ≠ .free ∧ (s.swpReap t pid i).tasks j = s.tasks j := by
    intro j hj
    have hji : j ≠ i := by
      rintro rfl
      exact hj hself
    have hsame : (s.swpReap t pid i).tasks j = s.tasks j := task_set_of_ne hji
    rw [hsame] at hj
    exact ⟨hji, hj, hsame⟩
  have hsources : (s.swpReap t pid i).sources = (s.tasks i).life :: s.sources := rfl
  refine ⟨fun j hj => ?_, fun j k hj hk hsame => ?_, fun j hj => ?_, ?_, ?_, ?_, fun a ha => ?_⟩
  · obtain ⟨hji, hold, hsame⟩ := hother j hj
    rw [hsame, hsources, mem_cons, not_or]
    exact ⟨(h.lives j hold).1, fun heq => hji (h.unique j i hold hnonfree heq), (h.lives j hold).2⟩
  · grind
  · obtain ⟨-, hold, hj'⟩ := hother j hj
    rw [hj']
    exact h.tasks j hold
  · by_contra hzero
    exact (hother 0 hzero).2.1 h.first
  · intro u hu
    rw [hsources] at hu
    rcases mem_cons.mp hu with rfl | hu
    · exact hlife
    · exact h.sources u hu
  · rw [hsources, nodup_cons]
    exact ⟨hnew, h.sound.once⟩
  · rcases mem_cons.mp ha with rfl | hold
    · refine ⟨fun u hu => ?_, fun u _ hchild => ?_, fun u hu => ?_, fun hasked hchild => ?_⟩
      · rw [← Option.some.inj hu]
        exact (h.tasks i hnonfree).zombie hzombie
      · grind
      · cases hnamed.symm.trans hu
      · rcases hparent with hmine | ⟨-, hno⟩
        · exact ⟨by simp, hmine⟩
        · exact absurd (hasChild_wait.mp hchild) (hno hasked)
    · exact h.sound.right a hold

theorem named_none_of_zombie (hzombie : (s.tasks pid.toNat).state = .zombie) :
    (s.wait t pid).named = none :=
  if_neg fun hlive => hlive.2.2.2 hzombie

theorem named_none_of_neg (hneg : pid < 0) : (s.wait t pid).named = none :=
  if_neg fun hlive => absurd hlive.1 (Int.not_le.mpr hneg)

/-- `sys_waitpid` answers right. -/
theorem Procs.Inv.sysWaitpid (h : s.Inv) (ht : (s.tasks t).state = .live)
    (horderly : (ProcCall.waitpid t pid).Orderly s) : (s.sysWaitpid t pid).Inv := by
  unfold Procs.sysWaitpid
  by_cases hbad : pid < -1
  · rw [if_pos hbad]
    exact h.swpFail (named_none_of_neg (by omega)) fun hany => by omega
  rw [if_neg hbad]
  cases hscan : s.swpScan pid with
  | some i =>
    have hallowed := horderly i hscan
    have hfound := find?_some hscan
    simp only [ne_eq, Bool.decide_and, Bool.decide_or, Bool.and_eq_true, Bool.or_eq_true,
      decide_eq_true_eq] at hfound
    obtain ⟨-, hpid, hstop⟩ := hfound
    dsimp only
    by_cases hdetached : (s.tasks i).detached
    · rw [if_pos hdetached] at hallowed
      rw [if_pos hdetached]
      exact h.swpFail hallowed.1 hallowed.2
    rw [if_neg hdetached] at hallowed
    rw [if_neg hdetached]
    have hzombie : (s.tasks i).state = .zombie := hstop.resolve_left hdetached
    refine h.swpReap hzombie ?_ hallowed
    rcases hpid with hany | hsame
    · exact named_none_of_neg (by omega)
    · refine named_none_of_zombie ?_
      rw [← hsame, Int.toNat_natCast]
      exact hzombie
  | none =>
  have hnonfree : (s.tasks t).state ≠ .free := by
    rw [ht]
    simp
  refine h.setTask hnonfree rfl ⟨nofun, fun w hw => ?_⟩
  cases hw
  refine ⟨rfl, rfl, fun hzero => ?_⟩
  change pid = 0 at hzero
  subst hzero
  exact if_neg fun hlive => hlive.2.2.1.1 h.first

/-! ## Runs -/

/-- Every orderly call keeps the invariant. -/
theorem Procs.Inv.step (h : s.Inv) {c : ProcCall} (horderly : c.Orderly s) : (c.step s).Inv := by
  unfold ProcCall.step
  by_cases hmade : c.Made s
  swap
  · rw [if_neg hmade]
    exact h
  rw [if_pos hmade]
  have hlive : ∀ t, c.caller = some t → (s.tasks t).state = .live := fun t ht => (hmade t ht).2
  have hnonfree : ∀ t, c.caller = some t → (s.tasks t).state ≠ .free := by
    intro t ht
    rw [hlive t ht]
    simp
  cases c with
  | create =>
    unfold ProcCall.run Procs.schedCreateTask
    cases hslot : s.createSlot with
    | none => exact h
    | some i =>
      have hfound := find?_some hslot
      simp only [ne_eq, decide_eq_true_eq] at hfound
      exact h.begin hfound.1 rfl rfl
  | fork t =>
    unfold ProcCall.run Procs.sysFork
    cases hslot : s.freeSlot with
    | none => exact h
    | some i => exact h.begin (slot_ne_zero hslot) rfl rfl
  | clone t =>
    unfold ProcCall.run Procs.sysClone
    cases hslot : s.freeSlot with
    | none => exact h
    | some i => exact h.begin (slot_ne_zero hslot) rfl rfl
  | detach t i => exact h.sysThreadDetach t i
  | exit t code => exact h.schedExitTask (hnonfree t rfl) horderly code
  | threadExit t code => exact h.sysThreadExit (hnonfree t rfl) horderly code
  | signal t sig action running => exact h.schedSignalTask horderly
  | deliver t => exact h.schedDeliverSignals t
  | waitpid t pid => exact h.sysWaitpid (hlive t rfl) horderly
  | block t =>
    have hfits := h.tasks t (hnonfree t rfl)
    refine h.setTask (hnonfree t rfl) rfl ⟨nofun, fun w hw => ?_⟩
    obtain ⟨hblocked, -⟩ := hfits.waits w hw
    rw [hlive t rfl] at hblocked
    cases hblocked
  | ignoreChild t ignores =>
    have hfits := h.tasks t (hnonfree t rfl)
    exact h.setTask (hnonfree t rfl) rfl { hfits with }
  | unblock t =>
  dsimp only [ProcCall.run]
  split
  case isFalse => exact h
  case isTrue hblocked =>
    have ht : (s.tasks t).state ≠ .free := by
      rw [hblocked.1]
      simp
    have hwait : ({ s.tasks t with state := .live } : Proc).wait = none :=
      Option.isNone_iff_eq_none.mp hblocked.2
    exact h.setTask ht rfl (.quiet (by simp) hwait _)

end Mellivora
