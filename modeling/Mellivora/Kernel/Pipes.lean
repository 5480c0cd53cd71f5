import Mellivora.Lib.RingBuffer
import Mellivora.Lib.Runs

/-!
# Pipes

`ipc.inc`: a table of pipes, each a ring of bytes. The kernel is not preempted, but a call that
moves bytes masks the interrupts for one byte at a time, and a reader that finds the pipe empty
yields. A call is therefore a state of its task, and `PipeWorld.go` is what the task does between
two such points.
-/

namespace Mellivora

open Function

/-- `IPC_MAX_PIPES`. -/
def ipcMaxPipes : Nat := 32
/-- `IPC_PIPE_SIZE`: the bytes of a pipe's ring. -/
def ipcPipeSize : Nat := 16384
/-- `PIPE_READ_RETRIES`: how often a reader yields to an empty pipe. -/
def pipeReadRetries : Nat := 200

/-- A pipe: its ring, and whether it is in use. -/
structure Pipe extends RingBuffer UInt8 where
  active : Bool := false

/-- A call that has passed its checks. A length is the signed value of its register. -/
inductive PipeCall
  /-- `.spw_loop` -/
  | write (id src : Nat) (len : Int) (written : Nat)
  /-- `.spr_wait` -/
  | wait (id dst : Nat) (len : Int) (retries : Nat)
  /-- `.spr_loop` -/
  | read (id dst : Nat) (len : Int) (done : Nat)

/-- The pipe a call is on. -/
def PipeCall.id : PipeCall → Nat
  | write id .. | wait id .. | read id .. => id

/-- The pipes, the tasks' memory and the call each task is in. -/
structure PipeWorld where
  pipes : Nat → Pipe
  /-- the memory that each task sees -/
  mem : Nat → Nat → UInt8
  calls : Nat → Option PipeCall

/-- What one step of a task does that the others can see. -/
inductive PipeEvent
  | nothing
  | created (id : Nat)
  /-- a byte is accepted from a writer -/
  | accepted (id : Nat) (b : UInt8)
  /-- a byte is handed to a reader -/
  | handed (id : Nat) (b : UInt8)
  /-- a call that has passed its checks returns -/
  | returned (value : Nat)
  | refused

namespace PipeWorld

/-- Stores a pipe. -/
def setPipe (w : PipeWorld) (id : Nat) (p : Pipe) : PipeWorld :=
  { w with pipes := update w.pipes id p }

/-- Stores the call a task is in. -/
def setCall (w : PipeWorld) (t : Nat) (c : Option PipeCall) : PipeWorld :=
  { w with calls := update w.calls t c }

/-- Stores a byte in a task's memory. -/
def store (w : PipeWorld) (t addr : Nat) (b : UInt8) : PipeWorld :=
  { w with mem := update w.mem t (update (w.mem t) addr b) }

/-- No pipe is in use. -/
def init : PipeWorld := ⟨fun _ => { cells := fun _ => 0 }, fun _ _ => 0, fun _ => none⟩

/-- `SYS_PIPE_CREATE`: the first pipe that is not in use. -/
def sysPipeCreate (w : PipeWorld) : PipeWorld × PipeEvent :=
  match (List.range ipcMaxPipes).find? fun id => !(w.pipes id).active with
  | some id => (w.setPipe id { toRingBuffer := (w.pipes id).clear, active := true }, .created id)
  | none => (w, .refused)

/-- `SYS_PIPE_CLOSE`. -/
def sysPipeClose (w : PipeWorld) (id : Nat) : PipeWorld × PipeEvent :=
  if ipcMaxPipes ≤ id then (w, .refused)
  else (w.setPipe id { w.pipes id with active := false }, .nothing)

/-- The checks that `sys_pipe_write` and `sys_pipe_read` begin with; `rangeOk` is the answer of
`user_range_ok`. -/
def enter (w : PipeWorld) (t : Nat) (c : PipeCall) (rangeOk : Bool) : PipeWorld × PipeEvent :=
  if rangeOk ∧ c.id < ipcMaxPipes ∧ (w.pipes c.id).active then (w.setCall t (some c), .nothing)
  else (w, .refused)

/-- `SYS_PIPE_WRITE`. -/
def sysPipeWrite (w : PipeWorld) (t id src : Nat) (len : Int) (rangeOk : Bool) :
    PipeWorld × PipeEvent :=
  w.enter t (.write id src len 0) rangeOk

/-- `SYS_PIPE_READ`. -/
def sysPipeRead (w : PipeWorld) (t id dst : Nat) (len : Int) (rangeOk : Bool) :
    PipeWorld × PipeEvent :=
  w.enter t (.wait id dst len 0) rangeOk

/-- The call of a task goes on: one byte, or one look at the count. -/
def go (w : PipeWorld) (t : Nat) : PipeWorld × PipeEvent :=
  match w.calls t with
  | none => (w, .nothing)
  | some (.write id src len written) =>
    let p := w.pipes id
    if len ≤ written then (w.setCall t none, .returned written)
    else if ipcPipeSize ≤ p.count then (w.setCall t none, .returned written)
    else
      let b := w.mem t (src + written)
      ((w.setPipe id { p with toRingBuffer := p.push ipcPipeSize b }).setCall t
        (some (.write id src len (written + 1))), .accepted id b)
  | some (.wait id dst len retries) =>
    if (w.pipes id).count ≠ 0 then (w.setCall t (some (.read id dst len 0)), .nothing)
    else if pipeReadRetries ≤ retries + 1 then (w.setCall t none, .returned 0)
    else (w.setCall t (some (.wait id dst len (retries + 1))), .nothing)
  | some (.read id dst len done) =>
    let p := w.pipes id
    if len ≤ done then (w.setCall t none, .returned done)
    else if p.count = 0 then (w.setCall t none, .returned done)
    else
      let b := p.front
      (((w.setPipe id { p with toRingBuffer := p.pop ipcPipeSize }).store t (dst + done) b).setCall
        t (some (.read id dst len (done + 1))), .handed id b)

end PipeWorld

/-! ## Interleavings -/

/-- One step of one task. -/
inductive PipeStep
  | create
  | close (id : Nat)
  | write (t id src : Nat) (len : Int) (rangeOk : Bool)
  | read (t id dst : Nat) (len : Int) (rangeOk : Bool)
  | go (t : Nat)
  /-- the program of a task writes to its memory -/
  | poke (t addr : Nat) (b : UInt8)

/-- A task that is in a call cannot begin another one. -/
def PipeStep.run (c : PipeStep) (w : PipeWorld) : PipeWorld × PipeEvent :=
  match c with
  | create => w.sysPipeCreate
  | close id => w.sysPipeClose id
  | write t id src len rangeOk =>
      if (w.calls t).isSome then (w, .nothing) else w.sysPipeWrite t id src len rangeOk
  | read t id dst len rangeOk =>
      if (w.calls t).isSome then (w, .nothing) else w.sysPipeRead t id dst len rangeOk
  | go t => w.go t
  | poke t addr b => (w.store t addr b, .nothing)

/-- The task whose call the step is part of. -/
def PipeStep.task : PipeStep → Option Nat
  | write t .. | read t .. | go t => some t
  | create | close _ | poke .. => none

/-- A run, with the bytes that went into each pipe and out of it since it was created, the bytes
that each task has moved in its call, and the values of the calls that have returned beside the
bytes they have moved. -/
structure PipeRun where
  world : PipeWorld
  accepted : Nat → List UInt8
  handed : Nat → List UInt8
  moved : Nat → Nat
  results : List (Nat × Nat)

/-- The start of a run. -/
def PipeRun.init : PipeRun := ⟨.init, fun _ => [], fun _ => [], fun _ => 0, []⟩

/-- One more byte of the task's call. -/
def PipeRun.count (r : PipeRun) (t : Option Nat) : PipeRun :=
  match t with
  | none => r
  | some t => { r with moved := update r.moved t (r.moved t + 1) }

/-- The task's call has returned. -/
def PipeRun.finish (r : PipeRun) (t : Option Nat) (value : Nat) : PipeRun :=
  match t with
  | none => r
  | some t => { r with moved := update r.moved t 0, results := (value, r.moved t) :: r.results }

/-- Notes what a step has done. -/
def PipeRun.note (r : PipeRun) (t : Option Nat) : PipeEvent → PipeRun
  | .nothing | .refused => r
  | .created id =>
    { r with accepted := update r.accepted id [], handed := update r.handed id [] }
  | .accepted id b => { r with accepted := update r.accepted id (r.accepted id ++ [b]) }.count t
  | .handed id b => { r with handed := update r.handed id (r.handed id ++ [b]) }.count t
  | .returned value => r.finish t value

/-- The run after the step. -/
def PipeStep.step (c : PipeStep) (r : PipeRun) : PipeRun :=
  { r with world := (c.run r.world).1 }.note c.task (c.run r.world).2

/-! ## What is claimed -/

/-- What was handed out comes first, the rest is in the ring. -/
structure PipeRun.Fifo (r : PipeRun) (id : Nat) : Prop where
  stream : r.accepted id = r.handed id ++ (r.world.pipes id).contents ipcPipeSize
  count : (r.world.pipes id).count ≤ ipcPipeSize

/-- The step is part of a call on this pipe, or creates or closes it. -/
def PipeStep.On (c : PipeStep) (w : PipeWorld) (id : Nat) : Prop :=
  match c with
  | create => w.sysPipeCreate.2 = .created id
  | close id' => id' = id
  | go t => ∃ call, w.calls t = some call ∧ call.id = id
  | write .. | read .. | poke .. => False

/-- The byte that a step moves is the one in the writer's memory, or is put into the reader's, at
the place that the call has come to. -/
def PipeWorld.MovesByte (w : PipeWorld) : PipeWorld × PipeEvent → Prop
  | (_, .accepted id b) => ∃ t src len n, w.calls t = some (.write id src len n) ∧
      w.mem t (src + n) = b
  | (w', .handed id b) => ∃ t dst len n, w.calls t = some (.read id dst len n) ∧
      w'.mem t (dst + n) = b
  | _ => True

end Mellivora
