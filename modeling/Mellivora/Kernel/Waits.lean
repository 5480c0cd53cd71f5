import Mellivora.Kernel.Objects

/-!
# Waiting for objects (`object.inc`)

A task waits for a set of objects. It is queued on each of them with one record per slot of its set,
and whoever signals an object completes the waits that this satisfies. A wait set belongs to one
task and is allocated once, so a task stands for its set, and a record is known by its set and its
slot.
-/

namespace Mellivora

open Function List

/-- `WAIT_MAX_HANDLES`. -/
def waitMaxHandles : Nat := 64
/-- `WAIT_FOREVER`: no timeout. -/
def waitForever : Nat := 0xFFFFFFFF

/-- `TF_WAITABLE` in `obj_type_table` -/
def ObjType.waitable : ObjType → Bool
  | event | mutant | semaphore | timer | process => true
  | directory | token | symlink | file => false

/-- `WAITK_ONE`, `WAITK_ANY`, `WAITK_ALL` -/
inductive WaitKind
  | one
  | any
  | all
deriving DecidableEq

/-- The state of a task. -/
inductive TaskState
  | free
  | ready
  | running
  | blocked
  | stopped
  | zombie
deriving DecidableEq

/-- What a wait returns: an index, `WAIT_TIMEOUT`, `WAIT_USER_APC` or `WAIT_FAILED`. -/
inductive WaitResult
  | index (i : Nat)
  | timeout
  | userApc
  | failed
deriving DecidableEq

/-- A waiter record: `WT_SET`, which is the set of a task, and `WT_INDEX`. -/
structure Waiter where
  task : Nat
  index : Nat
deriving DecidableEq

/-- What waiting depends on in an object. -/
structure WaitObj where
  type : ObjType
  /-- `OBJ_TD_SIGNAL` -/
  signal : Bool
  /-- `EV_MANUAL`, `MU_OWNER` or `SE_COUNT`, which are at one offset -/
  word0 : Nat
  /-- `EV_STATE`, `MU_RECURSE` or `SE_MAX` -/
  word1 : Nat
  /-- `OBJ_WAITERS`, the first to be offered a signal first -/
  waiters : List Waiter

/-- A task and its wait set. -/
structure WaitTask where
  state : TaskState
  /-- `WS_KIND` -/
  kind : WaitKind
  /-- `WS_COUNT` -/
  count : Nat
  /-- `WS_OBJS` -/
  objs : Nat → Nat
  /-- the slots of `WS_RECS` that hold a record -/
  recs : Nat → Bool
  /-- `TCB_WAITOBJ` is the wait set -/
  waiting : Bool
  /-- `TCB_WAITRES`, and the EAX that the task will see -/
  result : WaitResult
  /-- `TCB_WAKEUP` -/
  wakeup : Nat
  /-- `obj_signal_pending` -/
  pending : Bool

/-- The objects, the tasks and the clock. -/
structure WaitWorld where
  objs : Nat → WaitObj
  tasks : Nat → WaitTask
  /-- `tick_count` -/
  ticks : Nat

namespace WaitWorld

/-- Changes one object. -/
def setObj (w : WaitWorld) (obj : Nat) (f : WaitObj → WaitObj) : WaitWorld :=
  { w with objs := update w.objs obj (f (w.objs obj)) }

/-- Changes one task. -/
def setTask (w : WaitWorld) (t : Nat) (f : WaitTask → WaitTask) : WaitWorld :=
  { w with tasks := update w.tasks t (f (w.tasks t)) }

end WaitWorld

/-! ## Wait sets -/

/-- The slots of a set whose objects are signalled. -/
def WaitWorld.signalled (w : WaitWorld) (t : Nat) : List Nat :=
  (range (w.tasks t).count).filter fun i => (w.objs ((w.tasks t).objs i)).signal

/-- `obj_wait_eval`: the index that satisfies the set -/
def objWaitEval (w : WaitWorld) (t : Nat) : Option Nat :=
  match (w.tasks t).kind with
  | .all => if (w.signalled t).length < (w.tasks t).count then none else some
      ((w.signalled t).headD 0xFFFFFFFF)
  | .one | .any => (w.signalled t).head?

/-- `obj_consume_one`: what a wait that ends takes from the object. -/
def objConsumeOne (o : WaitObj) : WaitObj :=
  match o.type with
  | .event => if o.word0 ≠ 0 then o else { o with word1 := 0, signal := false }
  | .semaphore =>
    if o.word0 = 0 then o
    else if o.word0 - 1 ≠ 0 then { o with word0 := o.word0 - 1 }
    else { o with word0 := o.word0 - 1, signal := false }
  | .mutant => { o with word0 := 1, signal := false }
  | _ => o

/-- `obj_wait_consume`: from all the objects, or from the one that ended it. -/
def objWaitConsume (w : WaitWorld) (t index : Nat) : WaitWorld :=
  match (w.tasks t).kind with
  | .all =>
      (range (w.tasks t).count).foldl (fun w' i => w'.setObj ((w.tasks t).objs i) objConsumeOne) w
  | .one | .any => w.setObj ((w.tasks t).objs index) objConsumeOne

/-- A record is made and put at the end of the list of its object. -/
def WaitWorld.hook (w : WaitWorld) (t i : Nat) : WaitWorld :=
  let w := w.setTask t fun s => { s with recs := update s.recs i true }
  w.setObj ((w.tasks t).objs i) fun o =>
    { o with waiters := o.waiters ++ [{ task := t, index := i }] }

/-- `.owq_undo`: the records of the slots below `i` are given back, but not taken off the lists.
`WT_NEXT` is also the link of the free list, which was empty: a list goes on from the first of them
it holds to those given back before that one (and to `KMEM_FREE_END`, which is not the null pointer
at which a walk stops). -/
def WaitWorld.undo (w : WaitWorld) (t i : Nat) : WaitWorld :=
  let hooked := fun obj => (range i).filter ((w.tasks t).objs · = obj)
  { w.setTask t fun s => { s with recs := fun j => if j < i then false else s.recs j } with
    objs := fun obj =>
      let l := (w.objs obj).waiters
      { w.objs obj with waiters := l.take (l.length - (hooked obj).length) ++
          (hooked obj).head?.elim [] fun j => (range (j + 1)).reverse.map (Waiter.mk t) } }

/-- `obj_wait_enqueue` from a slot on, where `room` more records can be had -/
def objWaitEnqueue (w : WaitWorld) (t : Nat) : (slots : List Nat) → (room : Nat) → WaitWorld × Bool
  | [], _ => (w, true)
  | i :: _, 0 => (w.undo t i, false)
  | i :: slots, room + 1 => objWaitEnqueue (w.hook t i) t slots room

/-- The record of a slot is taken off the list of its object. -/
def WaitWorld.unhook (w : WaitWorld) (t i : Nat) : WaitWorld :=
  if (w.tasks t).recs i then
    if { task := t, index := i } ∈ (w.objs ((w.tasks t).objs i)).waiters then
      let w := w.setObj ((w.tasks t).objs i) fun o =>
        { o with waiters := o.waiters.erase { task := t, index := i } }
      w.setTask t fun s => { s with recs := update s.recs i false }
    else w
  else w

/-- `obj_wait_dequeue`: takes the task out of every list it waits in. -/
def objWaitDequeue (w : WaitWorld) (t : Nat) : WaitWorld :=
  (range (w.tasks t).count).foldl (fun w i => w.unhook t i) w

/-! ## Signals -/

/-- A wait is completed with an index. -/
def WaitWorld.complete (w : WaitWorld) (t index : Nat) : WaitWorld :=
  let w := objWaitConsume w t index
  let w := w.setTask t fun s => { s with result := .index index, wakeup := 0 }
  let w := objWaitDequeue w t
  w.setTask t fun s => { s with state := .ready }

/-- `.osw_walk`: the first record whose task is blocked on a set that is satisfied -/
def WaitWorld.firstSatisfied (w : WaitWorld) : List Waiter → Option (Nat × Nat)
  | [] => none
  | r :: rest =>
    if (w.tasks r.task).state ≠ .blocked ∨ (w.tasks r.task).waiting =
      false then w.firstSatisfied rest
    else
      match objWaitEval w r.task with
      | none => w.firstSatisfied rest
      | some index => some (r.task, index)

/-- `obj_satisfy_waiters`, and the tasks whose waits it completes, in order. The walk starts again
after each of them; nothing if it goes on for more than `turns`. -/
def objSatisfyWaiters (w : WaitWorld) (obj : Nat) : (turns : Nat) → Option (WaitWorld × List Nat)
  | 0 => none
  | turns + 1 =>
    match w.firstSatisfied (w.objs obj).waiters with
    | none => some (w, [])
    | some (t, index) =>
      (objSatisfyWaiters (w.complete t index) obj turns).map fun (w', done) => (w', t :: done)

/-- `obj_signal`. Each walk but the last takes a record off the list. -/
def objSignal (w : WaitWorld) (obj : Nat) : Option (WaitWorld × List Nat) :=
  if obj = 0 then some (w, [])
  else objSatisfyWaiters (w.setObj obj fun o => { o with signal := true }) obj
    ((w.objs obj).waiters.length + 1)

/-- `obj_reset`. -/
def objReset (w : WaitWorld) (obj : Nat) : WaitWorld :=
  if obj = 0 then w else w.setObj obj fun o => { o with signal := false, word1 := 0 }

/-- A wait whose deadline has passed is completed. -/
def WaitWorld.expire (w : WaitWorld) (t : Nat) : WaitWorld :=
  let s := w.tasks t
  if s.state ≠ .blocked ∨ s.waiting = false ∨ s.wakeup = 0 ∨ w.ticks < s.wakeup then w
  else
    let w := w.setTask t fun s => { s with wakeup := 0, result := .timeout }
    let w := objWaitDequeue w t
    w.setTask t fun s => { s with state := .ready }

/-- `obj_wait_timeouts`: ends the waits whose time is over. -/
def objWaitTimeouts (w : WaitWorld) : WaitWorld := (range maxTasks).foldl WaitWorld.expire w

/-! ## Waiting -/

/-- `.wd_resolve` from slot `i` on. A handle leads to an object, or `ht_use` refuses it. -/
def waitResolve (w : WaitWorld) (t : Nat) :
    (handles : List (Option Nat)) → (i : Nat) → WaitWorld × Bool
  | [], _ => (w, true)
  | none :: _, _ => (w, false)
  | some obj :: handles, i =>
    let w := w.setTask t fun s => { s with objs := update s.objs i obj }
    if (w.objs obj).type.waitable then waitResolve w t handles (i + 1) else (w, false)

/-- `.oyc_scan`: the first task behind `t` that is ready -/
def WaitWorld.nextReady (w : WaitWorld) (t : Nat) : Option Nat :=
  ((range maxTasks).map fun k => (t + 1 + k) % maxTasks).find? fun u => (w.tasks u).state = .ready

/-- `obj_yield_cpu`: another task runs, or the CPU is idle until one can. Nothing if there is no
other task. -/
def objYieldCpu (w : WaitWorld) (t : Nat) : Option WaitWorld :=
  match w.nextReady t with
  | some u => some (w.setTask u fun s => { s with state := .running })
  | none =>
    if ((range maxTasks).filter fun u => (w.tasks u).state ≠ .free).length ≤ 1 then none else some w

/-- The second half of `obj_wait_do`: the task is queued and blocks. -/
def waitBlock (w : WaitWorld) (t timeout room : Nat) : WaitWorld × Option WaitResult :=
  let (w, queued) := objWaitEnqueue w t (range (w.tasks t).count) room
  if queued = false then (w, some .failed)
  else
    let wakeup := if timeout = waitForever then timeout else (timeout + w.ticks) % 2 ^ 32
    let w :=
      w.setTask t fun s => { s with waiting := true, result := .failed, wakeup, state := .blocked }
    match objYieldCpu w t with
    | some w => (w, none)
    | none =>
      let w := w.setTask t fun s => { s with state := .running, wakeup := 0, waiting := false }
      (objWaitDequeue w t, some .timeout)

/-- `obj_wait_do`: the result, or none if the task blocks. There are no handles if their array
cannot be read or there is no memory for the wait set. -/
def objWaitDo (w : WaitWorld) (t : Nat) (kind : WaitKind) (handles : Option (List (Option Nat)))
    (timeout : Nat) (alertable : Bool) (room : Nat) : WaitWorld × Option WaitResult :=
  match handles with
  | none => (w, some .failed)
  | some handles =>
    if handles.length = 0 ∨ waitMaxHandles < handles.length then (w, some .failed)
    else if alertable ∧ (w.tasks t).pending then (w, some .userApc)
    else
      let w := w.setTask t fun s => { s with kind, count := handles.length }
      let (w, resolved) := waitResolve w t handles 0
      if resolved = false then (w, some .failed)
      else
        match objWaitEval w t with
        | some index => (objWaitConsume w t index, some (.index (if kind = .all then 0 else index)))
        | none => if timeout = 0 then (w, some .timeout) else waitBlock w t timeout room

/-! ## The system calls -/

/-- `sys_event_set`, where `ht_use` gives the object -/
def sysEventSet (w : WaitWorld) : Option Nat → Option (WaitWorld × List Nat)
  | none => some (w, [])
  | some obj => objSignal w obj

/-- `SYS_EVENT_RESET`; `none` is a handle that is refused. -/
def sysEventReset (w : WaitWorld) : Option Nat → WaitWorld
  | none => w
  | some obj => objReset w obj

/-- `SYS_MUTANT_RELEASE`. -/
def sysMutantRelease (w : WaitWorld) : Option Nat → Option (WaitWorld × List Nat)
  | none => some (w, [])
  | some obj => objSignal (w.setObj obj fun o => { o with word0 := 0, word1 := 0 }) obj

/-- `SYS_SEMAPHORE_RELEASE`: not beyond the maximum. -/
def sysSemaphoreRelease (w : WaitWorld) (n : Nat) : Option Nat → Option (WaitWorld × List Nat)
  | none => some (w, [])
  | some obj =>
    let count := ((w.objs obj).word0 + n) % 2 ^ 32
    if n = 0 ∨ (w.objs obj).word1 < count then some (w, [])
    else objSignal (w.setObj obj fun o => { o with word0 := count }) obj

/-! ## Runs -/

/-- A call of a task or of the timer. The scheduler may also let another task run. -/
inductive WaitCall
  | wait (task : Nat) (kind : WaitKind) (handles : Option (List (Option Nat))) (timeout : Nat)
    (alertable : Bool)
      (room : Nat)
  | eventSet (obj : Option Nat)
  | eventReset (obj : Option Nat)
  | mutantRelease (obj : Option Nat)
  | semaphoreRelease (obj : Option Nat) (n : Nat)
  | timeouts (ticks : Nat)
  | dispatch (task : Nat)

/-- A run, with the call at which each task was last queued and the tasks whose waits the last call
has completed with a signal. -/
structure WaitRun where
  world : WaitWorld
  calls : Nat
  queuedAt : Nat → Nat
  completed : List Nat

/-- The running task is ready again. -/
def WaitWorld.preempt (w : WaitWorld) : WaitWorld :=
  { w with tasks := fun u =>
      if (w.tasks u).state = .running then { w.tasks u with state := .ready } else w.tasks u }

/-- A task that is ready runs instead of the others. -/
def WaitWorld.dispatch (w : WaitWorld) (t : Nat) : WaitWorld :=
  if (w.preempt.tasks t).state = .ready then w.preempt.setTask t fun s =>
    { s with state := .running }
  else w.preempt

/-- The world after a call and the tasks it completes; nothing if it does not end. -/
def WaitCall.run (c : WaitCall) (w : WaitWorld) : Option (WaitWorld × List Nat) :=
  match c with
  | wait t kind handles timeout alertable room =>
      some ((objWaitDo w t kind handles timeout alertable room).1, [])
  | eventSet obj => sysEventSet w obj
  | eventReset obj => some (sysEventReset w obj, [])
  | mutantRelease obj => sysMutantRelease w obj
  | semaphoreRelease obj n => sysSemaphoreRelease w n obj
  | timeouts ticks => some (objWaitTimeouts { w with ticks }, [])
  | dispatch t => some (w.dispatch t, [])

/-- The task that a call has queued. -/
def WaitCall.queues (c : WaitCall) (w : WaitWorld) : Option Nat :=
  match c with
  | wait t kind handles timeout alertable room =>
    if (objWaitDo w t kind handles timeout alertable room).2 = none then some t else none
  | _ => none

/-- The run after the call. -/
def WaitCall.step (c : WaitCall) (r : WaitRun) : Option WaitRun :=
  (c.run r.world).map fun (world, completed) =>
    { world, completed, calls := r.calls + 1,
      queuedAt := fun t => if c.queues r.world = some t then r.calls else r.queuedAt t }

/-- Waits are called by the task that runs, there are waiter records, and handles lead to
objects. -/
def WaitCall.Legal : WaitCall → WaitRun → Prop
  | wait t _ handles _ _ room, r =>
    t < maxTasks ∧ (r.world.tasks t).state = .running ∧ ∀ hs, handles = some hs → hs.length ≤ room
  | eventSet obj, _ | eventReset obj, _ | mutantRelease obj, _ | semaphoreRelease obj _,
      _ => obj ≠ some 0
  | timeouts _, _ | dispatch _, _ => True

/-- A task is blocked on its wait set. -/
def WaitWorld.Waits (w : WaitWorld) (t : Nat) : Prop :=
  (w.tasks t).state = .blocked ∧ (w.tasks t).waiting

/-- Nobody waits. -/
structure WaitWorld.Quiescent (w : WaitWorld) : Prop where
  waiters : ∀ obj, (w.objs obj).waiters = []
  tasks : ∀ t, ¬ w.Waits t

/-- No task is left blocked on a set that is satisfied. -/
def WaitWorld.NoLostWakeup (w : WaitWorld) : Prop := ∀ t, w.Waits t → objWaitEval w t = none

/-- Every record is that of a slot in the set that a task is blocked on. -/
def WaitWorld.RecordsCurrent (w : WaitWorld) : Prop :=
  ∀ obj, ∀ r ∈ (w.objs obj).waiters, w.Waits r.task ∧ r.index < (w.tasks r.task).count ∧
    (w.tasks r.task).recs r.index ∧ (w.tasks r.task).objs r.index = obj

/-- A task waits for one object and no other. -/
def WaitWorld.AwaitsOnly (w : WaitWorld) (t obj : Nat) : Prop :=
  w.Waits t ∧ (w.tasks t).count = 1 ∧ (w.tasks t).objs 0 = obj

/-- Of two tasks that wait for one object, a call completes the one that was queued first before the
other. -/
def WaitRun.CompletesInOrder (r r' : WaitRun) : Prop :=
  ∀ obj t₁ t₂, r.world.AwaitsOnly t₁ obj → r.world.AwaitsOnly t₂ obj →
    r.queuedAt t₁ < r.queuedAt t₂ →
    t₂ ∈ r'.completed → [t₁, t₂].Sublist r'.completed

end Mellivora
