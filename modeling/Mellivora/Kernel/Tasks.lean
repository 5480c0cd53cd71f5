import Mellivora.Kernel.Services
import Mellivora.Kernel.Sett

/-!
# Scheduled jobs (`tasks.inc`)

`taskq_tick` goes through the table and starts what is due. Time is counted in minutes; a reading of
the clock gives the minute of the day and the day of the month. `taskq_boot` fills the table from
the Sett, where the definitions of the jobs are kept; the `tasks` command is left out.
-/

namespace Mellivora

/-- `TQ_F_TYPE`: what a job waits for. -/
inductive TaskqType
  | boot | logon | every | daily
  deriving DecidableEq

/-- `TQ_F_POLICY`: what is done about a run that was missed. -/
inductive TaskqPolicy
  | skip | run
  deriving DecidableEq

/-- A record of `taskq_table`, without its texts. A type that is none of the four is not acted
on. -/
structure TaskqRecord where
  type : Option TaskqType
  value : Nat := 0
  policy : TaskqPolicy := .skip
  lastTick : Nat := 0
  lastDay : Nat := 0
  runs : Nat := 0

/-- What the Sett holds of a job; a value may be missing. -/
structure TaskqKey where
  name : Text := []
  image : Option Text := none
  trigger : Option Text := none
  policy : Option Nat := none

/-- The day of the month of each day. -/
structure Calendar where
  dayOfMonth : Nat → Nat
  pos : ∀ d, 0 < dayOfMonth d
  next : ∀ d, dayOfMonth (d + 1) ≠ dayOfMonth d

/-- What the kernel finds when it comes to a record: the time, and whether `svc_launch_image` starts
the image. -/
structure Turn where
  time : Nat
  tickCount : Nat := 0
  starts : Bool := true

/-- A record and its definition, the time the machine was last seen to run, when the job was
started, and when the tick came to it. -/
structure Job where
  record : TaskqRecord
  key : TaskqKey := {}
  clock : Nat := 0
  started : List Nat := []
  looked : List Nat := []

/-! ## Starting what is due -/

/-- `taskq_run` -/
def taskqRun (t : Turn) (j : Job) : Job :=
  if t.starts then
    { j with
      record := { j.record with runs := (j.record.runs + 1) % 2 ^ 32, lastTick := t.tickCount }
      started := t.time :: j.started }
  else j

/-- `taskq_run_type`, for one record -/
def taskqRunType (type : TaskqType) (t : Turn) (j : Job) : Job :=
  if j.record.type = some type then taskqRun t j else j

/-- `.tt_every` -/
def ttEvery (t : Turn) (j : Job) : Job :=
  let interval := j.record.value * pitHz % 2 ^ 32
  let due := (j.record.lastTick + interval) % 2 ^ 32
  if t.tickCount < due then j
  else if t.tickCount - due < interval ∨ j.record.policy = .run then taskqRun t j
  else { j with record.lastTick := t.tickCount }

/-- `.tt_daily`. The policy is asked for at the first tick at or after the time, also when that is
the time itself. -/
def ttDaily (c : Calendar) (t : Turn) (j : Job) : Job :=
  let day := c.dayOfMonth (t.time / 1440)
  if day = j.record.lastDay ∨ t.time % 1440 < j.record.value then j
  else if j.record.policy = .run then taskqRun t { j with record.lastDay := day }
  else { j with record.lastDay := day }

/-- The body of `.tt_loop` -/
def ttTurn (c : Calendar) (t : Turn) (j : Job) : Job :=
  let j := { j with clock := t.time, looked := t.time :: j.looked }
  match j.record.type with
  | some .every => ttEvery t j
  | some .daily => ttDaily c t j
  | _ => j

/-- `taskq_tick`, over the first `count` records -/
def taskqTick (c : Calendar) (turns : Nat → Turn) : (count : Nat) → (Nat → Job) → Nat → Job
  | 0, jobs => jobs
  | i + 1, jobs =>
    let jobs := taskqTick c turns i jobs
    Function.update jobs i (ttTurn c (turns i) (jobs i))

/-! ## Reading the definitions -/

/-- `TASKQ_IMAGE`: the bytes of an image's name. -/
def taskqImage : Nat := 48
/-- `TASKQ_TRIG`: the bytes of a trigger's text. -/
def taskqTrig : Nat := 24
/-- Where a record's image is. -/
def tqImage : Nat := 24
/-- Where its trigger's text is. -/
def tqTrig : Nat := 72
/-- Where its trigger's type is. -/
def tqType : Nat := 96
/-- Where its trigger's number is. -/
def tqValue : Nat := 100
/-- Where its policy is. -/
def tqPolicy : Nat := 104
/-- Where the tick of its last run is. -/
def tqLastTick : Nat := 108
/-- Where the day of its last run is. -/
def tqLastDay : Nat := 112
/-- Where the count of its runs is. -/
def tqRuns : Nat := 116

/-- The dword of a type -/
def TaskqType.toDword : TaskqType → Nat
  | boot => 0
  | logon => 1
  | every => 2
  | daily => 3

/-- The type of a dword, if it is one -/
def TaskqType.ofDword (n : Nat) : Option TaskqType := [boot, logon, every, daily][n]?

/-- `parse_decimal` -/
def parseDecimal (text : Text) : Nat :=
  (text.takeWhile fun c => 48 ≤ c ∧ c ≤ 57).foldl (fun n c => (n * 10 + (c.toNat - 48)) % 2 ^ 32) 0

/-- `.tpt_daily`: the minute of the day of `HH:MM` -/
def parseDaily (text : Text) : Option Nat :=
  let hours := parseDecimal text
  if 23 < hours then none
  else match text.dropWhile (· ≠ 58) with
    | [] => none
    | _ :: rest => if 59 < parseDecimal rest then none else some (hours * 60 + parseDecimal rest)

/-- `taskq_parse_trigger`: the type, and the value where one is stored. The words are `boot`,
`logon`, `every:` and `daily:`. -/
def taskqParseTrigger (text : Text) : Option (TaskqType × Option Nat) :=
  if settCiEqual text [98, 111, 111, 116] then some (.boot, none)
  else if settCiEqual text [108, 111, 103, 111, 110] then some (.logon, none)
  else if settPrefix text [101, 118, 101, 114, 121, 58] then
    if parseDecimal (text.drop 6) =
      0 then none else some (.every, some (parseDecimal (text.drop 6)))
  else if settPrefix text [100, 97, 105, 108, 121, 58] then
    (parseDaily (text.drop 6)).map fun minute => (.daily, some minute)
  else none

/-- `sett_copy_bounded`: the text fills `room` bytes. -/
def settCopyBounded (text : Text) (room : Nat) : List UInt8 :=
  (text ++ List.replicate room 0).take room

/-- The stores of `taskq_parse_trigger` into the record at `base` -/
def storeTrigger (buf : Buffer) (base : Nat) (text : Text) : Buffer :=
  match taskqParseTrigger text with
  | none => buf
  | some (type, none) => buf.setDword (base + tqType) type.toDword
  | some (type, some value) =>
      (buf.setDword (base + tqType) type.toDword).setDword (base + tqValue) value

/-- `taskq_load_one`: the bytes of a record whose name is not in the table yet. `str_copy` leaves
EDI behind the name it has copied, and that address is then taken for the record's, so the other
fields are stored too far behind. -/
def taskqLoadOne (key : TaskqKey) : Buffer :=
  let buf := Buffer.write (fun _ => 0) 0 (key.name ++ [0])
  let base := key.name.length + 1
  match key.image, key.trigger, key.policy with
  | none, _, _ => buf
  | some image, none, _ => buf.write (base + tqImage) (settCopyBounded image taskqImage)
  | some image, some trigger, policy =>
    let buf := buf.write (base + tqImage) (settCopyBounded image taskqImage)
    let buf := buf.write (base + tqTrig) (settCopyBounded trigger taskqTrig)
    let buf := storeTrigger buf base (trigger.take taskqTrig)
    match policy with
    | none => buf
    | some policy => buf.setDword (base + tqPolicy) (if policy ≤ 1 then policy else 0)

/-- The fields of a record, read where they belong. What a record stores behind its own bytes is
cleared when the next one is read. -/
def TaskqRecord.ofBytes (buf : Buffer) : TaskqRecord where
  type := TaskqType.ofDword (buf.dword tqType)
  value := buf.dword tqValue
  policy := if buf.dword tqPolicy = 1 then .run else .skip
  lastTick := buf.dword tqLastTick
  lastDay := buf.dword tqLastDay
  runs := buf.dword tqRuns

/-- `taskq_boot`, for one record -/
def taskqBoot (t : Turn) (j : Job) : Job :=
  taskqRunType .boot t { j with record := .ofBytes (taskqLoadOne j.key), clock := t.time }

/-! ## Runs -/

/-- What happens to the table: a tick, a boot or a logon, with what each record finds. -/
inductive TaskqEvent
  | tick (turns : Nat → Turn)
  | boot (turns : Nat → Turn)
  | logon (turns : Nat → Turn)

/-- The table after an event. -/
def TaskqEvent.step (c : Calendar) (count : Nat) : TaskqEvent → (Nat → Job) → Nat → Job
  | .tick turns, jobs => taskqTick c turns count jobs
  | .boot turns, jobs => fun i => taskqBoot (turns i) (jobs i)
  | .logon turns, jobs => fun i => taskqRunType .logon (turns i) (jobs i)

/-- The clock goes on, and while the machine is up no minute passes without a tick. -/
def TaskqEvent.InTime (i : Nat) : TaskqEvent → (Nat → Job) → Prop
  | .tick turns, jobs => (jobs i).clock ≤ (turns i).time ∧ (turns i).time ≤ (jobs i).clock + 1
  | .boot turns, jobs => (jobs i).clock ≤ (turns i).time
  | .logon _, _ => True

/-- The job is one of policy `run` and can be started, and its record is not read again. -/
def TaskqEvent.Kept (i : Nat) : TaskqEvent → (Nat → Job) → Prop
  | .tick turns, jobs => (jobs i).record.policy = .run ∧ (turns i).starts
  | .boot _, _ => False
  | .logon _, _ => True

/-- The days on which the job was started. -/
def Job.days (j : Job) : List Nat := j.started.map (· / 1440)

/-- The job was started on no day twice, and on every day on which the tick came to it at the minute
`value`. -/
def Job.OnceADay (value : Nat) (j : Job) : Prop :=
  j.days.Nodup ∧ ∀ d, 1440 * d + value ∈ j.looked → d ∈ j.days

end Mellivora
