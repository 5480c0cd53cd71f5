import Mellivora.Kernel.Tasks

/-!
# Daily jobs

The record remembers the day of the month on which its job was last started. While the machine is up
no minute is passed over, so the clock is never a whole day past the next time at which the job is
due.
-/

namespace Mellivora

open Runs Function List

variable {c : Calendar} {i count minute : Nat} {j : Job} {t : Turn}

/-- The record knows whether its job has been started today. -/
structure Job.Punctual (c : Calendar) (minute : Nat) (j : Job) : Prop where
  type : j.record.type = some .daily
  value : j.record.value = minute ∧ minute < 1440
  past : ∀ s ∈ j.started, s ≤ j.clock
  onceADay : j.OnceADay minute
  last : j.record.lastDay = 0 ∧ j.started = [] ∨
    ∃ s ∈ j.started, j.record.lastDay = c.dayOfMonth (s / 1440) ∧
      (∀ s' ∈ j.started, s' / 1440 ≤ s / 1440) ∧
      j.clock < 1440 * (s / 1440 + 1) + minute

/-- The next reading is on the day of the last start, or earlier than the job is due on the day
after. -/
theorem Job.Punctual.same_day (h : j.Punctual c minute) (hle : j.clock ≤ t.time)
    (hnext : t.time ≤ j.clock + 1) (hday : c.dayOfMonth (t.time / 1440) = j.record.lastDay) :
    ∃ s ∈ j.started, j.record.lastDay = c.dayOfMonth (s / 1440) ∧
      (∀ s' ∈ j.started, s' / 1440 ≤ s / 1440) ∧
      t.time / 1440 = s / 1440 := by
  have hvalue := h.value.2
  rcases h.last with ⟨hzero, -⟩ | ⟨s, hs, hlast, hall, hclock⟩
  · have hpos := c.pos (t.time / 1440)
    omega
  have hpast := h.past s hs
  refine ⟨s, hs, hlast, hall, ?_⟩
  by_contra hne
  have hafter : t.time / 1440 = s / 1440 + 1 := by omega
  apply c.next (s / 1440)
  rw [← hafter, hday, hlast]

/-- The job waits on a day it has run, or before its minute. -/
theorem Job.Punctual.waits (h : j.Punctual c minute) (hle : j.clock ≤ t.time)
    (hnext : t.time ≤ j.clock + 1)
    (hwait : c.dayOfMonth (t.time / 1440) = j.record.lastDay ∨ t.time % 1440 < j.record.value) :
    Job.Punctual c minute { j with clock := t.time, looked := t.time :: j.looked } := by
  obtain ⟨hrecord, hvalue⟩ := h.value
  rw [hrecord] at hwait
  refine ⟨h.type, h.value, fun s hs => (h.past s hs).trans hle, ⟨h.onceADay.1, fun d hd => ?_⟩, ?_⟩
  · rcases mem_cons.mp hd with hd | hd
    · change 1440 * d + minute = t.time at hd
      have hday := hwait.resolve_right (by omega)
      obtain ⟨s, hs, -, -, hsame⟩ := h.same_day hle hnext hday
      refine mem_map.mpr ⟨s, hs, ?_⟩
      omega
    · exact h.onceADay.2 d hd
  · rcases h.last with hnone | ⟨s, hs, hlast, hall, hclock⟩
    · exact .inl hnone
    refine .inr ⟨s, hs, hlast, hall, ?_⟩
    show t.time < 1440 * (s / 1440 + 1) + minute
    rcases hwait with hday | hearly
    · obtain ⟨s', hs', -, -, hsame⟩ := h.same_day hle hnext hday
      have hle' := hall s' hs'
      omega
    · omega

/-- The job starts on a new day, from its minute on. -/
theorem Job.Punctual.starts (h : j.Punctual c minute) (hle : j.clock ≤ t.time)
    (hday : c.dayOfMonth (t.time / 1440) ≠ j.record.lastDay) (hdue : j.record.value ≤ t.time % 1440)
    {runs tick : Nat} :
    Job.Punctual c minute
      { record := { j.record with lastDay := c.dayOfMonth (t.time / 1440), runs, lastTick := tick }
        key := j.key
        clock := t.time
        started := t.time :: j.started
        looked := t.time :: j.looked } := by
  obtain ⟨hrecord, hvalue⟩ := h.value
  rw [hrecord] at hdue
  have hbefore : ∀ s ∈ j.started, s / 1440 < t.time / 1440 := by
    intro s hs
    have hpast := h.past s hs
    rcases h.last with ⟨-, hnone⟩ | ⟨s', hs', hlast, hall, -⟩
    · rw [hnone] at hs
      exact absurd hs not_mem_nil
    · have hlate := hall s hs
      have hpast' := h.past s' hs'
      have hne : t.time / 1440 ≠ s' / 1440 := fun heq => hday (by rw [heq, hlast])
      omega
  refine ⟨h.type, h.value, fun s hs => ?_, ⟨?_, fun d hd => ?_⟩,
    .inr ⟨t.time, mem_cons_self, rfl, ?_, ?_⟩⟩
  · rcases mem_cons.mp hs with rfl | hs
    · exact le_rfl
    · exact (h.past s hs).trans hle
  · refine nodup_cons.mpr ⟨fun hmem => ?_, h.onceADay.1⟩
    obtain ⟨s, hs, hsame⟩ := mem_map.mp hmem
    exact (hbefore s hs).ne hsame
  · rcases mem_cons.mp hd with hd | hd
    · change 1440 * d + minute = t.time at hd
      obtain rfl : d = t.time / 1440 := by omega
      exact mem_cons_self
    · exact mem_cons_of_mem _ (h.onceADay.2 d hd)
  · intro s hs
    rcases mem_cons.mp hs with rfl | hs
    · exact le_rfl
    · exact (hbefore s hs).le
  · show t.time < 1440 * (t.time / 1440 + 1) + minute
    omega

/-- A turn of the clock keeps the job punctual. -/
theorem Job.Punctual.turn (h : j.Punctual c minute) (hle : j.clock ≤ t.time)
    (hnext : t.time ≤ j.clock + 1)
    (hrun : j.record.policy = .run) (hstarts : t.starts) : (ttTurn c t j).Punctual c minute := by
  have hturn :
    ttTurn c t j = ttDaily c t { j with clock := t.time, looked := t.time :: j.looked } := by
    simp only [ttTurn, h.type]
  simp only [hturn, ttDaily]
  by_cases hwait : c.dayOfMonth (t.time / 1440) = j.record.lastDay ∨ t.time % 1440 < j.record.value
  · rw [if_pos hwait]
    exact h.waits hle hnext hwait
  · rw [if_neg hwait, if_pos hrun, taskqRun, if_pos hstarts]
    rw [not_or, not_lt] at hwait
    exact h.starts hle hwait.1 hwait.2

theorem taskqTick_apply (turns : Nat → Turn) (jobs : Nat → Job) :
    taskqTick c turns count jobs i = if i < count then ttTurn c (turns i) (jobs i) else jobs i := by
  induction count with
  | zero => rfl
  | succ n ih =>
    rw [taskqTick, update_apply]
    by_cases hin : i = n
    · subst hin
      rw [if_neg (Nat.lt_irrefl i)] at ih
      rw [if_pos rfl, if_pos (Nat.lt_succ_self i), ih]
    · rw [if_neg hin, ih]
      congr 1
      exact propext ⟨fun h => by omega, fun h => by omega⟩

/-- A daily job of policy `run` that can be started is started once a day, as long as the machine is
not booted. -/
theorem dailyJob_onceADay (c : Calendar) (count i minute : Nat) (hi : i < count) (jobs : Nat → Job)
    (hjob : ∃ record key clock, jobs i = { record, key, clock } ∧ record.type = some .daily ∧
      record.value = minute ∧ minute < 1440 ∧ record.lastDay = 0) (events : List TaskqEvent)
    (hevents : Along (TaskqEvent.step c count) (fun e jobs => e.InTime i jobs ∧ e.Kept i jobs)
      events jobs) :
    (after (TaskqEvent.step c count) jobs events i).OnceADay minute := by
  obtain ⟨record, key, clock, hjob, htype, hvalue, hlast⟩ := hjob
  have hinit : (jobs i).Punctual c minute := by
    rw [hjob]
    exact ⟨htype, ⟨hvalue, hlast.1⟩, by simp, by simp [Job.OnceADay, Job.days], .inl ⟨hlast.2, rfl⟩⟩
  refine (Along.invariant (I := fun jobs : Nat → Job => (jobs i).Punctual c minute)
    (fun e jobs h he => ?_) hinit
    hevents).onceADay
  obtain ⟨htime, hkept⟩ := he
  cases e with
  | tick turns =>
    rw [TaskqEvent.step, taskqTick_apply, if_pos hi]
    exact h.turn htime.1 htime.2 hkept.1 hkept.2
  | boot turns => exact hkept.elim
  | logon turns =>
    have hother : ¬ (jobs i).record.type = some .logon := by
      rw [h.type]
      decide
    show (taskqRunType .logon (turns i) (jobs i)).Punctual c minute
    rw [taskqRunType, if_neg hother]
    exact h

/-- The days of a February. -/
def february : Calendar where
  dayOfMonth d := d % 28 + 1
  pos := by omega
  next := by omega

/-- A job `job` with the trigger `daily:00:02`. -/
def earlyJob (policy : TaskqPolicy) : Job where
  record := { type := some .daily, value := 2, policy }
  key :=
    { name := [106, 111, 98]
      image := some [97]
      trigger := some [100, 97, 105, 108, 121, 58, 48, 48, 58, 48, 50]
      policy := some (if policy = .run then 1 else 0) }

/-- Ticks at these times, one after the other. -/
def ticksAt (times : List Nat) : List TaskqEvent := times.map fun time => .tick fun _ => { time }

/-- Three days of February. -/
theorem dailyJob_onceADay_first :
    (after (TaskqEvent.step february 1) (fun _ => earlyJob .run) (ticksAt [1, 2, 3]) 0).OnceADay
    2 := by
  refine dailyJob_onceADay february 1 0 2 (by decide) _ ⟨_, _, _, rfl, rfl, rfl, by decide, rfl⟩ _
    ⟨?_, ?_, ?_, trivial⟩
  all_goals exact ⟨⟨by decide +kernel, by decide +kernel⟩, by decide +kernel, by decide +kernel⟩

/-- A job of policy `skip` is not started at all. One of policy `run` is not started either once the
machine has been booted: the type of its record is then 0, that of a job for the boot. -/
theorem dailyJob_not_onceADay :
    ¬ (after (TaskqEvent.step february 1) (fun _ => earlyJob .skip) (ticksAt [1, 2, 3])
      0).OnceADay 2 ∧
      ¬ (after (TaskqEvent.step february 1) (fun _ => earlyJob .run)
        (.boot (fun _ => { time := 1, starts := false }) :: ticksAt [1, 2, 3]) 0).OnceADay 2 := by
  constructor
  · intro h
    exact absurd (h.2 0 (by decide +kernel)) (by decide +kernel)
  · intro h
    exact absurd (h.2 0 (by decide +kernel)) (by decide +kernel)

end Mellivora
