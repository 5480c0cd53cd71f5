import Mellivora.Kernel.Objects

/-!
# Children and their exit statuses

`sched.inc`: the slot of a task is its process number. A task that ends is a zombie until somebody
asks for its status, and who is blocked in `sys_waitpid` for it is handed the status at once.

Beside the fields of the task table stand the lives of the tasks, numbers that are never used again
as slots are; the task that has forked each; what each call of `sys_waitpid` has asked; and the
answers.
-/

namespace Mellivora

/-- `TCB_STATE`; a task that is ready, running or stopped is live -/
inductive ProcState
  | free | live | blocked | zombie
  deriving DecidableEq

/-- What a call of `sys_waitpid` asks. -/
structure Wait where
  asked : Int
  /-- the life of the caller's child that has this number, if it has not ended -/
  named : Option Nat
  /-- the caller has a child -/
  hasChild : Bool

/-- A slot of the task table, as far as exits and waits use it. -/
structure Proc where
  state : ProcState := .free
  tgid : Nat := 0
  /-- `TCB_PPID`, nothing for -1 -/
  ppid : Option Nat := none
  exitCode : Nat := 0
  /-- `TCB_WAIT_PID`, 0 for a task that does not wait -/
  waitPid : Int := 0
  detached : Bool := false
  /-- SIGCHLD is ignored -/
  ignores : Bool := false
  /-- a signal is pending that ends the task -/
  pending : Bool := false
  life : Nat := 0
  /-- the life of the task that has forked this one; nothing for a thread and for a task of the
  shell -/
  parent : Option Nat := none
  /-- the call that the task is blocked in -/
  wait : Option Wait := none

/-- What a call of `waitpid` has returned. -/
structure Answer where
  waiter : Nat
  wait : Wait
  /-- the life of the task whose status is returned, nothing for any other value -/
  source : Option Nat
  /-- the task that has forked it -/
  parent : Option Nat
  /-- its slot is free after the call -/
  freed : Bool
  status : Nat

/-- The tasks, with the lives that have ended and the answers given. -/
structure Procs where
  tasks : Nat → Proc := fun _ => {}
  lives : Nat := 0
  /-- the lives that have ended, with their statuses -/
  deaths : List (Nat × Nat) := []
  answers : List Answer := []

namespace Procs

/-- Stores a slot. -/
def setTask (s : Procs) (i : Nat) (p : Proc) : Procs :=
  { s with tasks := Function.update s.tasks i p }

/-! ## Tasks that begin -/

/-- A new life in a slot. -/
def begin (s : Procs) (i : Nat) (p : Proc) : Procs :=
  { s with lives := s.lives + 1 }.setTask i { p with life := s.lives }

/-- `.fork_find_slot`, `.cl_find_slot` -/
def freeSlot (s : Procs) : Option Nat :=
  (List.range maxTasks).find? fun i => i ≠ 0 ∧ (s.tasks i).state = .free

/-- `.find_slot`: the slot of a detached thread that has ended will do -/
def createSlot (s : Procs) : Option Nat :=
  (List.range maxTasks).find? fun i => i ≠ 0 ∧
    ((s.tasks i).state = .free ∨ (s.tasks i).state = .zombie ∧ (s.tasks i).detached)

/-- `sched_create_task`: a task of the shell, with no parent. -/
def schedCreateTask (s : Procs) : Procs :=
  match s.createSlot with
  | none => s
  | some i => s.begin i { state := .live, tgid := i }

/-- `sys_fork`; the flags of the parent are copied -/
def sysFork (s : Procs) (t : Nat) : Procs :=
  match s.freeSlot with
  | none => s
  | some i => s.begin i { s.tasks t with
      state := .live, tgid := i, ppid := some t, ignores := false, pending := false, waitPid := 0
      parent := some (s.tasks t).life, wait := none }

/-- `sys_clone`: a thread of the caller's group. -/
def sysClone (s : Procs) (t : Nat) : Procs :=
  match s.freeSlot with
  | none => s
  | some i => s.begin i { s.tasks t with
      state := .live, detached := false, exitCode := 0, pending := false, waitPid := 0
      parent := none, wait := none }

/-- `sys_thread_detach`. -/
def sysThreadDetach (s : Procs) (t i : Nat) : Procs :=
  if ((s.tasks i).state = .live ∨ (s.tasks i).state = .blocked) ∧
      (s.tasks i).tgid = (s.tasks t).tgid ∧ i ≠ (s.tasks t).tgid then
    s.setTask i { s.tasks i with detached := true }
  else s

/-! ## Tasks that end -/

/-- `sched_kill_group_mates`. -/
def schedKillGroupMates (s : Procs) (t : Nat) : Procs :=
  { s with tasks := fun i =>
      if i ≠ t ∧ (s.tasks i).tgid = (s.tasks t).tgid then { s.tasks i with state := .free }
      else s.tasks i }

end Procs

/-- The scan of `sched_publish_death` finds this task. -/
def Proc.WaitsFor (p : Proc) (pid : Nat) : Prop :=
  p.state = .blocked ∧ (p.waitPid = pid ∨ p.waitPid = -1)

instance (p : Proc) (pid : Nat) : Decidable (p.WaitsFor pid) := inferInstanceAs (Decidable (_ ∧ _))

/-- The call that a task is in returns what is in the register. -/
def Proc.junk (p : Proc) : List Answer :=
  match p.wait with
  | none => []
  | some wait => [⟨p.life, wait, none, none, false, 0⟩]

namespace Procs

/-- `.spd_wake_scan` and `.set_wake`: everyone found gets the status of the task -/
def wake (s : Procs) (t : Nat) (freed : Bool) : Procs :=
  { s with
    tasks := fun i =>
      if i < maxTasks ∧ (s.tasks i).WaitsFor t then
        { s.tasks i with state := .live, waitPid := 0, wait := none }
      else s.tasks i
    answers := ((List.range maxTasks).filter fun i => (s.tasks i).WaitsFor t).filterMap (fun i =>
      (s.tasks i).wait.map fun wait =>
        ⟨(s.tasks i).life, wait, some (s.tasks t).life, (s.tasks t).parent, freed,
          (s.tasks t).exitCode⟩) ++
      s.answers }

/-- The task's life ends; its slot keeps the status. -/
def endTask (s : Procs) (t code : Nat) : Procs :=
  { s with deaths := ((s.tasks t).life, code) :: s.deaths }.setTask t
    { s.tasks t with state := .zombie, exitCode := code, wait := none }

/-- `.spd_chld_found`: a parent that is blocked, but not in a wait for a task, goes on -/
def spdChld (s : Procs) (parent : Nat) : Procs :=
  let p := s.tasks parent
  if p.ignores then s
  else if p.state = .blocked ∧ p.waitPid = 0 then
    { s with answers := p.junk ++ s.answers }.setTask parent { p with state := .live, wait := none }
  else s

/-- `sched_publish_death`: wakes who waits; without a parent the slot is free at once. -/
def schedPublishDeath (s : Procs) (t code : Nat) : Procs :=
  let p := s.tasks t
  let s := (s.endTask t code).wake t (p.tgid = t ∧ p.ppid = none)
  if p.tgid ≠ t then s
  else match p.ppid with
    | none => s.setTask t { s.tasks t with state := .free }
    | some parent => s.spdChld parent

/-- `sched_exit_task`: the whole group ends. -/
def schedExitTask (s : Procs) (t code : Nat) : Procs :=
  (s.schedKillGroupMates t).schedPublishDeath t code

/-- Another thread of the process of `t` has not ended. -/
def HasPeer (s : Procs) (t : Nat) : Prop :=
  ∃ i < maxTasks, i ≠ t ∧ (s.tasks i).state ≠ .free ∧ (s.tasks i).state ≠ .zombie ∧
    (s.tasks i).tgid = (s.tasks t).tgid

instance (s : Procs) (t : Nat) : Decidable (s.HasPeer t) :=
  inferInstanceAs (Decidable (∃ i < maxTasks, _))

/-- `sys_thread_exit`: the last thread ends the group. -/
def sysThreadExit (s : Procs) (t code : Nat) : Procs :=
  if (s.tasks t).tgid ≠ t ∧ s.HasPeer t then (s.endTask t code).wake t false
  else s.schedExitTask t code

end Procs

/-- What a signal does to its task. -/
inductive SignalAction
  /-- SIGKILL, or the default of most -/
  | kill
  /-- a handler is to be run -/
  | queue
  | ignore
  deriving DecidableEq

namespace Procs

/-- `sched_signal_task`; `running` if the target is the task that runs -/
def schedSignalTask (s : Procs) (t sig : Nat) (action : SignalAction) (running : Bool) : Procs :=
  let p := s.tasks t
  if p.state = .zombie ∨ p.state = .free then s
  else if p.state = .live ∧ running then
    if action = .kill then s.setTask t { p with pending := true } else s
  else match action with
    | .kill => s.schedExitTask t (2 ^ 31 + sig)
    | .ignore => s
    | .queue =>
      if p.state = .blocked then
        { s with answers := p.junk ++ s.answers }.setTask t { p with state := .live, wait := none }
      else s

/-- `sched_deliver_signals`: the default action ends the task, and nobody is told -/
def schedDeliverSignals (s : Procs) (t : Nat) : Procs :=
  if (s.tasks t).state = .live ∧ (s.tasks t).pending then
    s.setTask t { s.tasks t with state := .free }
  else s

/-! ## Waiting -/

/-- `.swp_scan`: the first slot at which the scan stops -/
def swpScan (s : Procs) (pid : Int) : Option Nat :=
  (List.range maxTasks).find? fun i => (s.tasks i).state ≠ .free ∧ (pid = -1 ∨ (i : Int) = pid) ∧
    ((s.tasks i).detached ∨ (s.tasks i).state = .zombie)

/-- The task in slot `i` was forked by the one in `t`. -/
def IsChild (s : Procs) (t i : Nat) : Prop :=
  (s.tasks i).state ≠ .free ∧ (s.tasks i).parent = some (s.tasks t).life

instance (s : Procs) (t i : Nat) : Decidable (s.IsChild t i) := inferInstanceAs (Decidable (_ ∧ _))

/-- The task has a child. -/
def HasChild (s : Procs) (t : Nat) : Prop := ∃ i < maxTasks, s.IsChild t i

instance (s : Procs) (t : Nat) : Decidable (s.HasChild t) :=
  inferInstanceAs (Decidable (∃ i < maxTasks, _))

/-- The call as it is made: what was asked for, and which child that is. -/
def wait (s : Procs) (t : Nat) (pid : Int) : Wait where
  asked := pid
  named :=
    if 0 ≤ pid ∧ pid < maxTasks ∧ s.IsChild t pid.toNat ∧ (s.tasks pid.toNat).state ≠ .zombie then
      some (s.tasks pid.toNat).life
    else none
  hasChild := s.HasChild t

/-- `.swp_fail`: the answer is -1. -/
def swpFail (s : Procs) (t : Nat) (pid : Int) : Procs :=
  { s with answers := ⟨(s.tasks t).life, s.wait t pid, none, none, false, 2 ^ 32 - 1⟩ :: s.answers }

/-- `.swp_reap`: the answer is the status, and the slot is free. -/
def swpReap (s : Procs) (t : Nat) (pid : Int) (i : Nat) : Procs :=
  { s with
    answers := ⟨(s.tasks t).life, s.wait t pid, some (s.tasks i).life, (s.tasks i).parent, true,
      (s.tasks i).exitCode⟩ :: s.answers }.setTask i { s.tasks i with state := .free }

/-- `sys_waitpid` of a task -/
def sysWaitpid (s : Procs) (t : Nat) (pid : Int) : Procs :=
  if pid < -1 then s.swpFail t pid
  else match s.swpScan pid with
    | some i => if (s.tasks i).detached then s.swpFail t pid else s.swpReap t pid i
    | none =>
      s.setTask t { s.tasks t with
        state := .blocked, waitPid := pid, wait := some (s.wait t pid) }

end Procs

/-! ## Runs -/

/-- What happens to the tasks. -/
inductive ProcCall
  | create
  | fork (t : Nat)
  | clone (t : Nat)
  | detach (t i : Nat)
  | exit (t code : Nat)
  | threadExit (t code : Nat)
  | signal (t sig : Nat) (action : SignalAction) (running : Bool)
  | deliver (t : Nat)
  | waitpid (t : Nat) (pid : Int)
  /-- the task is blocked in another call, or leaves it -/
  | block (t : Nat)
  | unblock (t : Nat)
  /-- the task takes SIGCHLD to be ignored, or no longer -/
  | ignoreChild (t : Nat) (ignores : Bool)

/-- The task that makes the call; it is live. -/
def ProcCall.caller : ProcCall → Option Nat
  | fork t | clone t | detach t _ | exit t _ | threadExit t _ | waitpid t _ | block t | ignoreChild
      t _ => some t
  | create | signal .. | deliver _ | unblock _ => none

/-- What the call does. -/
def ProcCall.run (c : ProcCall) (s : Procs) : Procs :=
  match c with
  | create => s.schedCreateTask
  | fork t => s.sysFork t
  | clone t => s.sysClone t
  | detach t i => s.sysThreadDetach t i
  | exit t code => s.schedExitTask t code
  | threadExit t code => s.sysThreadExit t code
  | signal t sig action running => s.schedSignalTask t sig action running
  | deliver t => s.schedDeliverSignals t
  | waitpid t pid => s.sysWaitpid t pid
  | block t => s.setTask t { s.tasks t with state := .blocked }
  | unblock t =>
    if (s.tasks t).state = .blocked ∧ (s.tasks t).wait.isNone then
      s.setTask t { s.tasks t with state := .live }
    else s
  | ignoreChild t ignores => s.setTask t { s.tasks t with ignores }

/-- Only a task that lives makes a call. -/
def ProcCall.Made (c : ProcCall) (s : Procs) : Prop :=
  ∀ t ∈ c.caller, t < maxTasks ∧ (s.tasks t).state = .live

instance ProcCall.decidableMade (c : ProcCall) (s : Procs) : Decidable (c.Made s) :=
  inferInstanceAs (Decidable (∀ t ∈ c.caller, _ ∧ _))

/-- The tasks after the call. -/
def ProcCall.step (c : ProcCall) (s : Procs) : Procs := if c.Made s then c.run s else s

/-! ## What is claimed -/

/-- The answer is the one the caller has asked for. -/
structure Answer.Right (a : Answer) (deaths : List (Nat × Nat)) : Prop where
  /-- the status is that of the task it comes from -/
  status : ∀ u, a.source = some u → (u, a.status) ∈ deaths
  /-- the status of a child goes to its parent, and its slot is free -/
  own : ∀ u, a.source = some u → a.parent ≠ none → a.parent = some a.waiter ∧ a.freed
  /-- who asks for a child gets the status of that child -/
  named : ∀ u, a.wait.named = some u → a.source = some u
  /-- who has a child and asks for any gets the status of a child -/
  any : a.wait.asked = -1 → a.wait.hasChild → a.source ≠ none ∧ a.parent = some a.waiter

/-- The lives whose status has been returned. -/
def Procs.sources (s : Procs) : List Nat := s.answers.filterMap Answer.source

/-- No status is returned twice, and each answer is right. -/
structure Procs.Sound (s : Procs) : Prop where
  once : s.sources.Nodup
  right : ∀ a ∈ s.answers, a.Right s.deaths

/-! ## When it holds -/

/-- Nobody waits for a task that ends, nor for any; no handler is run for a task that waits. A call
that stops at a slot stops at a child of the caller, at a thread if it has named it or the caller
has no child, and at a detached task only if it has not named it as its child and has not asked for
any child. -/
def ProcCall.Orderly (c : ProcCall) (s : Procs) : Prop :=
  match c with
  | exit t _ | threadExit t _ => ∀ i < maxTasks, ¬ (s.tasks i).WaitsFor t
  | signal t _ action _ =>
    (action = .kill → ∀ i < maxTasks, ¬ (s.tasks i).WaitsFor t) ∧
      (action = .queue → (s.tasks t).wait = none)
  | waitpid t pid => ∀ i, s.swpScan pid = some i →
      if (s.tasks i).detached then (s.wait t pid).named = none ∧ (pid = -1 → ¬ s.HasChild t)
      else (s.tasks i).parent = some (s.tasks t).life ∨ (s.tasks i).parent = none ∧
        (pid = -1 → ¬ s.HasChild t)
  | _ => True

end Mellivora
