import Mellivora.Lib.WriteLog
import Mellivora.Disk.JournalFormat

/-!
# The reference journal

`tools/hbfs_journal.py`: class `Journal`, one open transaction at a time over an image file, and
`replay`, the recovery run on an image whose last transaction may not have finished.

The methods of `Journal` run in `EStateM`: an exception leaves the object, and with it the image
file, as it was when it was raised. A `Crash` is the machine losing power before a sector write.
-/

namespace Mellivora.Tools.HbfsJournal

open WriteLog

/-- How a method of the class ends that does not return. -/
inductive Error
  /-- The machine lost power here. -/
  | crash
  /-- A method called out of turn, or a full log. -/
  | runtimeError (msg : String)
  /-- `struct.error`: a sector number that does not fit its header field. -/
  | structError
  deriving DecidableEq, Repr

/-- The fields of a `Journal`. `logged` is a dictionary in insertion order. -/
structure Journal where
  image : Disk
  crashAfter : Option Nat
  writes : Nat
  epoch : Nat
  ptr : Nat
  logged : List (Nat × Sector)
  isOpen : Bool

/-- `Journal.__init__` on an image file. -/
def Journal.new (image : Disk) (crashAfter : Option Nat) : Journal :=
  { image, crashAfter, writes := 0, epoch := 0, ptr := 0, logged := [], isOpen := false }

/-- A method of `Journal`. -/
abbrev JournalM := EStateM Error Journal

/-! ## Transactions -/

/-- Reads a sector of the image. -/
def readSector (lba : Nat) : JournalM Sector := do
  return (← get).image lba

/-- `_write_sector`, which is where the machine may lose power. -/
def writeSector (lba : Nat) (data : Sector) : JournalM Unit := do
  let j ← get
  if j.crashAfter.any (· ≤ j.writes) then throw .crash
  set { j with image := Function.update j.image lba data, writes := j.writes + 1 }

/-- The superblock with the journal's fields. -/
def superblock : JournalM Sector := do
  let j ← get
  let sb ← readSector hbfsSuperblockLba
  let sb := sb.setDword hbfsSbJrnlState (if j.isOpen then 1 else 0)
  let sb := sb.setDword hbfsSbJrnlPtr j.ptr
  let sb := sb.setDword hbfsSbJrnlEpoch j.epoch
  return restampSuperblock sb

/-- `_flush_superblock`. -/
def flushSuperblock : JournalM Unit := do
  writeSector hbfsSuperblockLba (← superblock)

/-- `begin`. -/
def begin : JournalM Unit := do
  if (← get).isOpen then throw (.runtimeError "a transaction is already open")
  let sb ← readSector hbfsSuperblockLba
  if sb.dword hbfsSbJrnlState ≠ 0 then
    throw (.runtimeError "the journal is dirty; replay before writing")
  modify fun j => { j with
    epoch := (sb.dword hbfsSbJrnlEpoch + 1) % 2 ^ 32, ptr := 0, logged := [], isOpen := true }
  flushSuperblock

/-- `log`: keeps the old content of a sector, once. -/
def log (targetLba : Nat) : JournalM Unit := do
  let j ← get
  if !j.isOpen then throw (.runtimeError "no transaction is open")
  if targetLba ∈ j.logged.map Prod.fst then return
  if j.ptr + 2 ≥ hbfsJournalSects then throw (.runtimeError s!"journal full at {j.ptr} sectors")
  let pre ← readSector targetLba
  if targetLba ≥ 2 ^ 32 then throw .structError
  writeSector (hbfsJournalLba + j.ptr + 1) pre
  writeSector (hbfsJournalLba + j.ptr) (preHeader targetLba j.epoch pre)
  modify fun j => { j with logged := j.logged ++ [(targetLba, pre)], ptr := j.ptr + 2 }

/-- `write`: a metadata sector, logged first. -/
def write (targetLba : Nat) (data : Sector) : JournalM Unit := do
  log targetLba
  writeSector targetLba data

/-- `write_data`: a data sector, not logged. -/
def writeData (lba : Nat) (data : Sector) : JournalM Unit :=
  writeSector lba data

/-- The record that ends a transaction. -/
def commitHeader (epoch records : Nat) : Sector :=
  let header := Sector.zero.setDword recMagic hbfsJrnlMagic
  let header := header.setDword recType hbfsJrnlTCommit
  let header := header.setDword recTarget 0
  let header := header.setDword recEpoch epoch
  let header := header.setDword commitOffRecords records
  let header := header.setDword commitOffCrc 0
  header.setDword commitOffCrc (crc32c header.toList)

/-- `commit`. -/
def commit : JournalM Unit := do
  let j ← get
  if !j.isOpen then return
  writeSector (hbfsJournalLba + j.ptr) (commitHeader j.epoch j.logged.length)
  modify fun j => { j with ptr := 0, isOpen := false }
  flushSuperblock

/-- `abort`: puts back what was logged, the last record first. -/
def abort : JournalM Unit := do
  let j ← get
  if !j.isOpen then return
  j.logged.reverse.forM fun r => writeSector r.1 r.2
  modify fun j => { j with ptr := 0, isOpen := false }
  flushSuperblock

/-! ## Whole transactions -/

/-- A call between `begin` and the end of the transaction. -/
inductive Call
  | write (lba : Nat) (data : Sector)
  | writeData (lba : Nat) (data : Sector)
  deriving DecidableEq

namespace Call

/-- The sector the call writes. -/
def lba : Call → Nat
  | write lba _ => lba
  | writeData lba _ => lba

/-- What it writes there. -/
def data : Call → Sector
  | write _ data => data
  | writeData _ data => data

/-- What the call does. -/
def run : Call → JournalM Unit
  | write lba data => HbfsJournal.write lba data
  | writeData lba data => HbfsJournal.writeData lba data

end Call

/-- The sectors written with a log record. -/
def written (calls : List Call) : List Nat :=
  calls.filterMap fun
    | .write lba _ => some lba
    | .writeData _ _ => none

/-- How a transaction ends. -/
inductive Ending
  | commit
  | abort
  deriving DecidableEq

/-- What the end does. -/
def Ending.run : Ending → JournalM Unit
  | commit => HbfsJournal.commit
  | abort => HbfsJournal.abort

/-- `begin`, the calls, and the end. -/
def runTransaction (calls : List Call) (ending : Ending) : JournalM Unit := do
  begin
  calls.forM Call.run
  ending.run

/-- The image file as a method leaves it, whether it returns or an exception ends it. -/
def imageAfter (x : JournalM Unit) (j : Journal) : Disk :=
  match x j with
  | .ok _ j' => j'.image
  | .error _ j' => j'.image

/-- The epoch the next `begin` gives out. -/
def nextEpoch (d : Disk) : Nat := ((d hbfsSuperblockLba).dword hbfsSbJrnlEpoch + 1) % 2 ^ 32

/-- The calls keep to the journal's rules on the image `d`: they leave the journal area alone, the
sectors they log fit the log and the header field, no sector is both journalled and written as data,
and what is written to the superblock was derived from `superblock()`, so it carries the marker and
the epoch of the open transaction. -/
structure Admissible (d : Disk) (calls : List Call) : Prop where
  notLog : ∀ c ∈ calls, ¬ InLog c.lba
  lba32 : ∀ lba ∈ written calls, lba < 2 ^ 32
  fits : (written calls).dedup.length ≤ 15
  dataOnly : ∀ lba data, .writeData lba data ∈ calls → lba ∉ written calls
  fromSuperblock : ∀ c ∈ calls, c.lba = hbfsSuperblockLba →
    c.data.dword hbfsSbJrnlState = 1 ∧ c.data.dword hbfsSbJrnlEpoch = nextEpoch d

/-! ## Replay -/

/-- `ReplayError`: the log cannot be replayed without risking a corrupt volume. -/
inductive ReplayError
  | tornPreImage (index : Nat)
  deriving DecidableEq, Repr

/-- What `replay` reports. -/
structure Replay where
  dirty : Bool := false
  committed : Bool := false
  records : Nat := 0
  undone : Nat := 0
  deriving DecidableEq, Repr

/-- Whether a COMMIT record seals a log of `records` PRE records. A zero checksum is what
pre-checksum volumes wrote, and they declared nothing. -/
def commitValid (header : Sector) (records : Nat) : Bool :=
  let declared := header.dword commitOffRecords
  let crc := header.dword commitOffCrc
  let view := header.setDword commitOffCrc 0
  let checksumOk := crc = 0 ∨ crc32c view.toList = crc
  decide (checksumOk ∧ declared = if crc ≠ 0 then records else 0)

/-- The loop of `replay` that reads the log: the records found, oldest first, and whether they are
sealed. Every turn that goes on advances `index` by two, so `hbfsJournalSects` turns are enough. -/
def replayScan (image : Disk) (epoch : Nat) :
    (turns index : Nat) → (undo : List (Nat × Sector)) →
    Except ReplayError (List (Nat × Sector) × Bool)
  | 0, _, undo => .ok (undo, false)
  | turns + 1, index, undo =>
    if index < hbfsJournalSects then
      let header := image (hbfsJournalLba + index)
      if header.dword recMagic ≠ hbfsJrnlMagic ∨ header.dword recEpoch ≠ epoch then
        .ok (undo, false)
      else if header.dword recType = hbfsJrnlTCommit then
        .ok (undo, commitValid header undo.length)
      else if header.dword recType ≠ hbfsJrnlTPre then .ok (undo, false)
      else
        let pre := image (hbfsJournalLba + index + 1)
        let crc := header.dword preOffCrc
        if crc ≠ 0 ∧ crc32c pre.toList ≠ crc then .error (.tornPreImage index)
        else replayScan image epoch turns (index + 2) (undo ++ [(header.dword recTarget, pre)])
    else .ok (undo, false)

/-- `replay`: its result and the sector writes it makes, in order. The superblock is read again
after the undo writes, since it may be one of them. -/
def replay (image : Disk) : Except ReplayError (Replay × List (Nat × Sector)) :=
  let sb := image hbfsSuperblockLba
  if sb.dword hbfsSbJrnlState = 0 then .ok ({}, [])
  else do
    let (undo, committed) ←
      replayScan image (sb.dword hbfsSbJrnlEpoch) hbfsJournalSects 0 []
    let undoWrites := if committed then [] else undo.reverse
    let sb := afterWrites image undoWrites hbfsSuperblockLba
    return ({ dirty := true, committed, records := undo.length, undone := undoWrites.length },
      undoWrites ++ [(hbfsSuperblockLba, clearState sb)])

/-- A replay of `img` succeeds and leaves `final`; and however it is cut short between two of its
sector writes, a second replay ends in `final` too. -/
def ReplaysTo (img final : Disk) : Prop :=
  ∃ r ws, replay img = .ok (r, ws) ∧ afterWrites img ws = final ∧
    ∀ k, ∃ r' ws', replay (afterWrites img (ws.take k)) = .ok (r', ws') ∧
      afterWrites (afterWrites img (ws.take k)) ws' = final

end Mellivora.Tools.HbfsJournal
