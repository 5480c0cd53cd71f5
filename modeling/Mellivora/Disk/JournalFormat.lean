import Mellivora.Disk.Sector
import Mellivora.Disk.Layout

/-!
# The undo log on the disk

The format the kernel and `tools/hbfs_journal.py` share: a PRE record is a header sector followed by
the pre-image it announces, records lie one after the other from the start of the journal area, and
a record counts only when it carries the epoch of the open transaction.
-/

namespace Mellivora

/-- The sectors of a volume, by their number. -/
abbrev Disk := Nat → Sector

/-- The header of the record that keeps `pre`, the old content of sector `target`. -/
def preHeader (target epoch : Nat) (pre : Sector) : Sector :=
  let header := Sector.zero.setDword recMagic hbfsJrnlMagic
  let header := header.setDword recType hbfsJrnlTPre
  let header := header.setDword recTarget target
  let header := header.setDword recEpoch epoch
  header.setDword preOffCrc (crc32c pre.toList)

/-- The sector is the header of a record of the transaction `epoch`. -/
def IsRecord (s : Sector) (epoch : Nat) : Prop :=
  s.dword recMagic = hbfsJrnlMagic ∧ s.dword recEpoch = epoch

instance (s : Sector) (epoch : Nat) : Decidable (IsRecord s epoch) :=
  inferInstanceAs (Decidable (_ ∧ _))

/-- The log of transaction `epoch` starts with the records `recs`, each the pre-image of a sector
outside the journal area. -/
structure LogHolds (d : Disk) (epoch : Nat) (recs : List (Nat × Sector)) : Prop where
  /-- The log has room for the records and a commit record. -/
  fits : recs.length ≤ 15
  /-- Header and pre-image of every record. -/
  record : ∀ i r, recs[i]? = some r →
    d (hbfsJournalLba + 2 * i) = preHeader r.1 epoch r.2 ∧ d (hbfsJournalLba + 2 * i + 1) = r.2
  /-- No record undoes the journal area. -/
  target : ∀ r ∈ recs, ¬ InLog r.1 ∧ r.1 < 2 ^ 32

/-- The sector behind the records. -/
def logEnd (d : Disk) (recs : List (Nat × Sector)) : Sector :=
  d (hbfsJournalLba + 2 * recs.length)

/-! ## The superblock's checksum and journal fields -/

/-- `hbfs_stamp_superblock`: the checksum of the sector with the checksum field read as zero. -/
def stampSuperblock (sb : Sector) : Sector :=
  let sb := sb.setDword hbfs4OffChecksum 0
  sb.setDword hbfs4OffChecksum (crc32c sb.toList)

/-- `restamp_superblock`, and what `hbfs_write_superblock` does before it writes: only a v4
superblock carries a checksum. -/
def restampSuperblock (sb : Sector) : Sector :=
  if sb.dword 0 ≠ hbfs4Magic then sb else stampSuperblock sb

/-- A superblock with the journal marked clean, as both recoveries write it last. -/
def clearState (sb : Sector) : Sector :=
  restampSuperblock ((sb.setDword hbfsSbJrnlState 0).setDword hbfsSbJrnlPtr 0)

/-- The bytes of the superblock that belong to the journal: state, pointer and epoch. -/
def JournalByte (i : Nat) : Prop :=
  (hbfsSbJrnlState ≤ i ∧ i < hbfsSbJrnlState + 4) ∨ (hbfsSbJrnlPtr ≤ i ∧ i < hbfsSbJrnlPtr + 4) ∨
    (hbfsSbJrnlEpoch ≤ i ∧ i < hbfsSbJrnlEpoch + 4)

/-- The bytes of the superblock that hold its checksum. -/
def ChecksumByte (i : Nat) : Prop := hbfs4OffChecksum ≤ i ∧ i < hbfs4OffChecksum + 4

/-- Two superblocks that differ at most in the journal's fields and, on a v4 volume, in the checksum
over them. -/
def SameOutsideJournal (s t : Sector) : Prop :=
  ∀ i, ¬ JournalByte i → (s.dword 0 = hbfs4Magic → ¬ ChecksumByte i) → s.byteAt i = t.byteAt i

/-- Two contents of the sector `lba` that agree, for the superblock up to the journal's fields. -/
def SameMeta (lba : Nat) (s t : Sector) : Prop :=
  if lba = hbfsSuperblockLba then SameOutsideJournal s t else s = t

/-- Two disks that agree outside the journal area and the journal's fields. -/
def SameVolume (d d' : Disk) : Prop := ∀ lba, ¬ InLog lba → SameMeta lba (d lba) (d' lba)

end Mellivora
