import Mellivora.Kernel.Directory
import Mellivora.Kernel.Objects

/-!
# Services

`service.inc`: a table of service records beside the scheduler's table of tasks. A record names its
task by the slot, a task names its record by the index, and the two are brought together when a
service is started, stopped, found dead or removed.

`svc_start` keeps its locals in memory and calls itself for a dependency, so what the inner call
leaves in them is what the outer one goes on with; they are part of the state. The Sett is outside:
the definitions it holds are given to the calls that read it. Whether an image can be launched, and
how long that takes, is given too. A call that does not come back is `none`.

A SIGKILL is sent by a near call of `sys_kill`, which ends with the `iretd` of a system call. The
signal is delivered, but control does not return to the caller, so a run of the services ends there:
the state is `stuck`.
-/

namespace Mellivora

open Function

/-- `SVC_MAX`: the records of the table. -/
def svcMax : Nat := 8
/-- `PIT_HZ`: the ticks of a second. -/
def pitHz : Nat := 100
/-- `KEY_NAME_LEN`: the bytes of a name that count. -/
def keyNameLen : Nat := 16

/-- The state of a record. -/
inductive SvcState
  | stopped | running | failed | retry | recover | stopping
  deriving DecidableEq

/-- When a service is started. -/
inductive StartType
  | boot | system | auto | manual | disabled
  deriving DecidableEq

/-- A recovery action; `bad` is a word that is none of the four. -/
inductive SvcAction
  | restart | run | reboot | nothing | bad
  deriving DecidableEq

/-- `SVC_F_PEND`: what the tick owes -/
inductive SvcPend
  | nothing | run | reboot
  deriving DecidableEq

/-- A service record, with the defaults of `svc_clear`. -/
structure SvcRecord where
  name : Name := []
  start : StartType := .manual
  state : SvcState := .stopped
  /-- the slot of the task, nothing for -1 -/
  pid : Option Nat := none
  dep : Name := []
  attempts : Nat := 3
  fails : Nat := 0
  nextTick : Nat := 0
  restarts : Nat := 0
  /-- the three actions -/
  acts : List SvcAction := [.restart, .restart, .restart]
  reset : Nat := 60
  timeout : Nat := 30
  lastFail : Nat := 0
  pend : SvcPend := .nothing
  stopDl : Nat := 0
  stopTo : Nat := 30

/-- The state of a task's slot. -/
inductive SlotState
  | free | live | zombie
  deriving DecidableEq

/-- A task slot. The slot is also the process number. -/
structure SvcTask where
  state : SlotState := .free
  /-- `TCB_SVC`, nothing for -1 -/
  svc : Option Nat := none
  /-- somebody may wait for it -/
  parented : Bool := false
  /-- `svc_start` launched it -/
  service : Bool := false

/-- A SIGKILL: the record it is for, and what the slot held that it went to. -/
structure Kill where
  ix : Nat
  target : SvcTask

/-- The service manager's state, with the tasks. -/
structure Scm where
  table : Nat → SvcRecord := fun _ => {}
  count : Nat := 0
  tasks : Nat → SvcTask := fun _ => {}
  tickCount : Nat := 0
  /-- the `Control` values in the Sett, true for a service that says it has stopped -/
  saysStopped : Name → Bool := fun _ => false
  /-- what the launches to come will do: fail, or take so many ticks -/
  launches : List (Option Nat) := []
  sstIx : Nat := 0
  sstRec : Nat := 0
  sstDep : Nat := 0
  kills : List Kill := []
  /-- a SIGKILL was sent, and its `iretd` has not led back -/
  stuck : Bool := false

/-- A function of the service manager; `none` is a call that does not come back. -/
abbrev ScmM := StateT Scm Option

/-- Changes one record. -/
def Scm.setRecord (s : Scm) (i : Nat) (f : SvcRecord → SvcRecord) : Scm :=
  { s with table := update s.table i (f (s.table i)) }

/-- Stores one task. -/
def Scm.setTask (s : Scm) (slot : Nat) (t : SvcTask) : Scm :=
  { s with tasks := update s.tasks slot t }

/-! ## Names and tasks -/

/-- `key_name_equal`: only so many characters are compared -/
def keyNameEqual (a b : Name) : Bool := a.take keyNameLen == b.take keyNameLen

/-- `svc_find`: the record of a name. -/
def Scm.svcFind (s : Scm) (name : Name) : Option Nat :=
  (List.range s.count).find? fun i => keyNameEqual name (s.table i).name

/-- `svc_task_pid`: the process number, if the slot holds a task, dead ones included -/
def Scm.svcTaskPid (s : Scm) (pid : Option Nat) : Option Nat :=
  pid.filter fun slot => slot < maxTasks && (s.tasks slot).state != .free

/-- The first free slot; slot 0 is never used. -/
def Scm.freeSlot (s : Scm) : Option Nat :=
  (List.range maxTasks).find? fun slot => slot != 0 && (s.tasks slot).state == .free

/-- `sched_publish_death`: a task that nobody waits for is gone at once -/
def SvcTask.dead (t : SvcTask) : SvcTask :=
  { t with state := if t.parented then .zombie else .free }

/-- `sys_kill` with SIGKILL on behalf of a record. It does not return: what its callers do next is
not done. -/
def svcKill (ix slot : Nat) : ScmM Unit :=
  modify fun s =>
    let t := s.tasks slot
    let s := { s with kills := ⟨ix, t⟩ :: s.kills, stuck := true }
    if t.state = .live then s.setTask slot t.dead else s

/-- `svc_launch_image`: the slot of a new task, if there is one -/
def svcLaunchImage (service : Bool) : ScmM (Option Nat) := do
  let s ← get
  let rest := { s with launches := s.launches.tail }
  match s.launches.head?.join, s.freeSlot with
  | some ticks, some slot =>
    set ({ rest with tickCount := (s.tickCount + ticks) % 2 ^ 32 }.setTask slot
      { state := .live, service })
    return some slot
  | _, _ =>
    set rest
    return none

/-! ## Failing and starting -/

/-- The action for a failure: the third one is also that of all later failures. -/
def SvcRecord.action (r : SvcRecord) : SvcAction :=
  (r.acts[min ((r.fails + 2 ^ 32 - 1) % 2 ^ 32) 2]?).getD .bad

/-- `.svf_wait`: the tick of the next attempt -/
def backoff (now fails : Nat) : Nat :=
  (now + (if fails = 1 then pitHz else if fails = 2 then 5 * pitHz else 30 * pitHz)) % 2 ^ 32

/-- What `svc_fail` makes of a record. -/
def SvcRecord.failed (r : SvcRecord) (now : Nat) : SvcRecord :=
  let r := { r with pid := none, fails := (r.fails + 1) % 2 ^ 32, lastFail := now }
  if r.attempts ≤ r.fails then { r with state := .failed }
  else match r.action with
    | .restart => { r with nextTick := backoff now r.fails, state := .retry }
    | .run => { r with pend := .run, state := .recover }
    | .reboot => { r with pend := .reboot, state := .recover }
    | .nothing | .bad => { r with state := .failed }

/-- `svc_fail`: counts a failure and decides what follows. -/
def svcFail (ix : Nat) : ScmM Unit :=
  modify fun s => if svcMax ≤ ix then s else s.setRecord ix fun r => r.failed s.tickCount

/-- A launch of so many ticks is over the record's timeout. -/
def SvcRecord.Slow (r : SvcRecord) (ticks : Nat) : Prop :=
  r.timeout * pitHz % 2 ^ 32 ≠ 0 ∧ r.timeout * pitHz % 2 ^ 32 < ticks

instance (r : SvcRecord) (ticks : Nat) : Decidable (r.Slow ticks) :=
  inferInstanceAs (Decidable (_ ∧ _))

/-- `.sst_up`: record and task are made to name each other. -/
def Scm.sstUp (s : Scm) (slot : Nat) : Scm :=
  (s.setRecord s.sstRec fun r =>
    { r with
      pid := some slot, state := .running, pend := .nothing, nextTick := s.tickCount }).setTask slot
    { s.tasks slot with svc := some s.sstIx }

/-- `.sst_launch`, true for CF -/
def sstLaunch : ScmM Bool := do
  let t0 := (← get).tickCount
  match ← svcLaunchImage true with
  | none =>
    svcFail (← get).sstIx
    return true
  | some slot =>
    let s ← get
    if (s.table s.sstRec).Slow ((s.tickCount + 2 ^ 32 - t0) % 2 ^ 32) then
      -- `.sst_slow`: the `svc_fail` behind the kill is not reached
      svcKill s.sstIx slot
      return true
    set (s.sstUp slot)
    return false

/-- `.sst_fail`: marks the record that the shared local names. -/
def sstFail : ScmM Bool := do
  modify fun s => s.setRecord s.sstRec fun r => { r with state := .failed }
  return true

/-- `svc_start`, true for CF -/
def svcStart : (fuel ix : Nat) → ScmM Bool
  | 0, _ => StateT.lift none
  | fuel + 1, ix => do
    modify fun s => { s with sstIx := ix, sstRec := ix }
    let s ← get
    let r := s.table ix
    if r.start = .disabled then sstFail
    else if r.state = .running then return false
    else if r.dep = [] then sstLaunch
    else match s.svcFind r.dep with
      | none => sstFail
      | some dep => do
        modify fun s => { s with sstDep := dep }
        let failed ← svcStart fuel dep
        let s ← get
        if s.stuck then return true
        else if failed then sstFail
        else
          if (s.table s.sstDep).state ≠ .running then sstFail
          -- The inner call has left its own record in `.sst_rec`.
          else sstLaunch

/-- A chain of dependencies that does not come back to itself is not longer than the table. -/
def startFuel : Nat := svcMax + 1

/-! ## Stopping, the tick and the end of a task -/

/-- `svc_stop_done`. -/
def svcStopDone (i : Nat) : ScmM Unit :=
  modify fun s =>
    let s :=
      s.setRecord i fun r => { r with state := .stopped, pid := none, fails := 0, stopDl := 0 }
    { s with saysStopped := update s.saysStopped (s.table i).name false }

/-- `svc_stop`, true for CF -/
def svcStop (i : Nat) : ScmM Bool := do
  let s ← get
  let r := s.table i
  if r.state ≠ .running then return true
  if s.svcTaskPid r.pid = none then
    set (s.setRecord i fun r => { r with state := .stopped, pid := none, fails := 0 })
    return false
  let stopDl := if r.stopTo = 0 then 0 else (r.stopTo * pitHz + s.tickCount) % 2 ^ 32
  let s := { s with saysStopped := update s.saysStopped r.name false }
  set (s.setRecord i fun r => { r with state := .stopping, stopDl })
  return false

/-- `.skt_stopping`: a service that is to stop and may have to be killed. -/
def sktStopping (i : Nat) : ScmM Unit := do
  let s ← get
  let r := s.table i
  match s.svcTaskPid r.pid with
  | none => svcStopDone i
  | some slot =>
    if s.saysStopped r.name then svcStopDone i
    else if r.stopDl = 0 then return
    else if s.tickCount < r.stopDl then return
    else do
      svcStopDone i
      svcKill i slot

/-- `.skt_recover`; a reboot does not come back -/
def sktRecover (i : Nat) : ScmM Unit := do
  let pend := ((← get).table i).pend
  modify fun s => s.setRecord i fun r => { r with pend := .nothing, state := .failed }
  match pend with
  | .reboot => StateT.lift none
  | .run =>
    let _ ← svcLaunchImage false
    return
  | .nothing => return

/-- One record of `svc_tick`. -/
def sktTurn (i : Nat) : ScmM Unit := do
  let s ← get
  let r := s.table i
  match r.state with
  | .recover => sktRecover i
  | .retry =>
    if s.tickCount < r.nextTick then return
    if ← svcStart startFuel i then return
    modify fun s => s.setRecord i fun r => { r with restarts := (r.restarts + 1) % 2 ^ 32 }
  | .stopping => sktStopping i
  | .running =>
    if r.fails ≠ 0 ∧ r.reset * pitHz % 2 ^ 32 ≤ (s.tickCount + 2 ^ 32 - r.lastFail) % 2 ^ 32 then
      set (s.setRecord i fun r => { r with fails := 0 })
  | .stopped | .failed => return

/-- `.skt_loop`, the first `n` turns; there is none after a kill -/
def sktLoop : (n : Nat) → ScmM Unit
  | 0 => return
  | n + 1 => do
    sktLoop n
    if (← get).stuck then return
    else sktTurn n

/-- `svc_tick`; no turn changes the number of records -/
def svcTick : ScmM Unit := do
  sktLoop (← get).count

/-- `svc_on_exit`: the service's task has ended. -/
def svcOnExit (ix code : Nat) : ScmM Unit := do
  if svcMax ≤ ix then return
  if ((← get).table ix).state ≠ .running then return
  modify fun s => s.setRecord ix fun r => { r with pid := none }
  if code = 0 then modify fun s => s.setRecord ix fun r => { r with state := .stopped, fails := 0 }
  else svcFail ix

/-- `sched_exit_task` of the task in a slot, as far as the services go -/
def taskExit (slot code : Nat) : ScmM Unit := do
  let t := (← get).tasks slot
  match t.svc with
  | none => pure ()
  | some ix => svcOnExit ix code
  modify fun s => s.setTask slot (s.tasks slot).dead

/-! ## Creating and deleting -/

/-- `.scc_follow`, true for a cycle -/
def Scm.followCycle (s : Scm) (self : Name) : (hops : Nat) → (want : Name) → Bool
  | 0, _ => true
  | hops + 1, want =>
    match s.svcFind want with
    | none => false
    | some i =>
      let dep := (s.table i).dep
      if dep = [] then false
      else if keyNameEqual dep self then true
      else s.followCycle self hops dep

/-- `svc_check_cycle`: the dependency would lead back. -/
def Scm.svcCheckCycle (s : Scm) (want self : Name) : Bool :=
  keyNameEqual want self || s.followCycle self svcMax want

/-- `.create`, up to the message: a record at the end of the table -/
def svcCreate (name : Name) (start : StartType) (dep : Name) : ScmM Unit := do
  let s ← get
  if (s.svcFind name).isSome then return
  if dep ≠ [] ∧ s.svcCheckCycle dep name then return
  if svcMax ≤ s.count then return
  set ({ s with count := s.count + 1 }.setRecord s.count fun _ => { name, start, dep })

/-- A definition in the Sett; what it leaves out is `none`. -/
structure SvcDef where
  name : Name
  start : Option StartType := none
  dep : Option Name := none
  attempts : Option Nat := none
  acts : List SvcAction := [.restart, .restart, .restart]
  reset : Option Nat := none
  timeout : Option Nat := none

/-- The values that are there replace those of the record. -/
def SvcDef.values (d : SvcDef) (r : SvcRecord) : SvcRecord :=
  { r with
    start := d.start.getD r.start
    dep := d.dep.getD r.dep
    attempts := (d.attempts.map fun n => if n = 0 then 3 else n).getD r.attempts
    acts := d.acts
    reset := d.reset.getD r.reset
    timeout := d.timeout.getD r.timeout }

/-- `svc_load_one`: the index, or nothing when the table is full -/
def svcLoadOne (d : SvcDef) : ScmM (Option Nat) := do
  let s ← get
  match s.svcFind d.name with
  | some i =>
    set (s.setRecord i d.values)
    return some i
  | none =>
    if svcMax ≤ s.count then return none
    set ({ s with count := s.count + 1 }.setRecord s.count fun _ => d.values { name := d.name })
    return some s.count

/-- `.sla_loop` from the child with number `n` on -/
def slaLoop (defs : List SvcDef) : (turns n : Nat) → ScmM Unit
  | 0, _ => StateT.lift none
  | turns + 1, n =>
    match defs[n]? with
    | none => return
    | some d => do
      match ← svcLoadOne d with
      | none => return
      | some i => slaLoop defs turns (i + 1)

/-- `svc_load_all`: a child whose name is found again leads back to its index, and so for ever -/
def svcLoadAll (defs : List SvcDef) : ScmM Unit := do
  modify fun s => { s with count := 0 }
  slaLoop defs (svcMax + 2) 0

/-- `.delete`; `defs` is what the Sett holds once the key is gone, nothing if it could not be
saved -/
def svcDelete (name : Name) (defs : Option (List SvcDef)) : ScmM Unit := do
  let s ← get
  match s.svcFind name with
  | none => return
  | some i =>
    if (s.table i).state = .running ∨ (s.table i).state = .stopping then return
    match defs with
    | none => return
    | some defs => svcLoadAll defs

/-! ## Runs -/

/-- What happens to the services. -/
inductive ScmCall
  | start (name : Name)
  | stop (name : Name)
  | tick
  | exit (slot code : Nat)
  /-- another task is created, with no service -/
  | spawn (parented : Bool)
  /-- `sys_fork`: the child has a copy of the parent's task block, `TCB_SVC` included -/
  | fork (parent : Nat)
  /-- a dead task is collected -/
  | reap (slot : Nat)
  | create (name : Name) (type : StartType) (dep : Name)
  | delete (name : Name) (defs : Option (List SvcDef))
  /-- a `Control` value is written -/
  | control (name : Name) (stopped : Bool)
  | time (ticks : Nat)

/-- What the call does. -/
def ScmCall.run : ScmCall → ScmM Unit
  | start name => do
    match (← get).svcFind name with
    | none => return
    | some i =>
      let _ ← svcStart startFuel i
      return
  | stop name => do
    match (← get).svcFind name with
    | none => return
    | some i =>
      let _ ← svcStop i
      return
  | tick => svcTick
  | exit slot code => do
    if slot < maxTasks ∧ ((← get).tasks slot).state = .live then taskExit slot code
  | spawn parented => modify fun s =>
      match s.freeSlot with
      | none => s
      | some slot => s.setTask slot { state := .live, parented }
  | fork parent => modify fun s =>
      match s.freeSlot with
      | none => s
      | some slot =>
        if (s.tasks parent).state = .live then
          s.setTask slot { state := .live, svc := (s.tasks parent).svc, parented := true }
        else s
  | reap slot => modify fun s =>
      if (s.tasks slot).state =
        .zombie then s.setTask slot { s.tasks slot with state := .free } else s
  | create name type dep => svcCreate name type dep
  | delete name defs => svcDelete name defs
  | control name stopped => modify fun s =>
      { s with saysStopped := update s.saysStopped name stopped }
  | time ticks => modify fun s => { s with tickCount := (s.tickCount + ticks) % 2 ^ 32 }

/-- One call; there is none once the state is stuck. -/
def ScmCall.step (c : ScmCall) (s : Scm) : Option Scm :=
  if s.stuck then none else (c.run.run s).map Prod.snd

/-! ## What is claimed of every state -/

/-- The record has a task. -/
def SvcRecord.Active (r : SvcRecord) : Prop := r.state = .running ∨ r.state = .stopping

instance (r : SvcRecord) : Decidable r.Active := inferInstanceAs (Decidable (_ ∨ _))

/-- The record with this index is active, and the task in the slot is its task. -/
structure Scm.Runs (s : Scm) (i slot : Nat) : Prop where
  lt : slot < maxTasks
  active : (s.table i).Active
  pid : (s.table i).pid = some slot
  live : (s.tasks slot).state = .live
  svc : (s.tasks slot).svc = some i

/-- No service runs. -/
structure Scm.Idle (s : Scm) : Prop where
  tickCount : s.tickCount < 2 ^ 32
  count : s.count ≤ svcMax
  records : ∀ i < s.count, ¬ (s.table i).Active
  services : ∀ slot < maxTasks, (s.tasks slot).state = .live →
    (s.tasks slot).service = false ∧ (s.tasks slot).svc = none
  kills : s.kills = []

/-! ## When it holds -/

/-- A record that may be started: it is not being stopped, it has no dependency or one that is not
there, and a disabled one is at rest. -/
def Scm.MayStart (s : Scm) (i : Nat) : Prop :=
  let r := s.table i
  if r.start = .disabled then ¬ r.Active
  else r.state = .running ∨ r.state ≠ .stopping ∧ (r.dep = [] ∨ s.svcFind r.dep = none)

/-- No launch to come is over a record's timeout. -/
def Scm.InTime (s : Scm) : Prop :=
  ∀ i < s.count, ∀ ticks, some ticks ∈ s.launches → ticks < 2 ^ 32 ∧ ¬ (s.table i).Slow ticks

/-- Starts are of records that may be started, and in time. A service that is being stopped neither
says that it has stopped nor exits before the tick has seen the end of it. The task of a service
does not fork. A record is deleted when no service is running. -/
def ScmCall.Orderly (c : ScmCall) (s : Scm) : Prop :=
  match c with
  | start name => ∀ i, s.svcFind name = some i → s.MayStart i ∧ s.InTime
  | tick => s.InTime ∧ ∀ i < s.count, ((s.table i).state = .retry → s.MayStart i) ∧
      ((s.table i).state = .stopping → s.saysStopped (s.table i).name = false)
  | exit slot _ => ∀ i, (s.tasks slot).state = .live → (s.tasks slot).svc = some i →
      (s.table i).state ≠ .stopping
  | fork parent => (s.tasks parent).state = .live → (s.tasks parent).svc = none
  | delete _ _ => ∀ i < s.count, ¬ (s.table i).Active
  | _ => True

end Mellivora
