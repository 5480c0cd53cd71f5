import Mellivora.Kernel.Proofs.BlkCacheProofs
import Mellivora.Kernel.Proofs.FrameProofs

/-!
# What metadata writes keep

The journal, the allocator and the directory read and write metadata one sector at a time and change
variables of their own.
-/

namespace Mellivora

open Outcome

/-- What a rollback does not touch: the variables of the directory, the run list, the path, the
ledger and the caller, but for the tag of the directory buffer. -/
def Kernel.aside (k : Kernel) :=
  (k.toExtentState, k.toCwdState, k.toQuotaState, k.toCallerState, k.dirBuf, k.dirShadow,
    k.currentDirLba,
    k.currentDirSects)

/-- A property of the device, the block cache and those variables that the transfers of a rollback
keep. -/
structure RollbackKeeps (I : Kernel → Prop) : Prop where
  write : ∀ lba s, Maintains I (ataWriteSectors lba [s])
  read : ∀ lba, Maintains I (ataReadSector lba)
  stable : ∀ {k k' : Kernel}, k'.toDevice = k.toDevice → k'.toBlkCache = k.toBlkCache →
    k'.aside = k.aside → I k → I k'

namespace RollbackKeeps

variable {I : Kernel → Prop} (hI : RollbackKeeps I)

include hI

theorem assign {f : Kernel → Kernel}
    (hf : ∀ k, ((f k).toDevice, (f k).toBlkCache, (f k).aside) =
      (k.toDevice, k.toBlkCache, k.aside)) :
    Maintains I (modify f : KernelM PUnit) :=
  maintains_modify fun k => hI.stable (congrArg Prod.fst (hf k)) (congrArg (·.2.1) (hf k))
    (congrArg (·.2.2) (hf k))

theorem assign_bind {α : Type} {f : Kernel → Kernel} {x : PUnit → KernelM α}
    (hf : ∀ k, ((f k).toDevice, (f k).toBlkCache, (f k).aside) =
      (k.toDevice, k.toBlkCache, k.aside))
    (hx : ∀ u, Maintains I (x u)) : Maintains I (modify f >>= x) :=
  (hI.assign hf).bind hx

theorem writeSuperblock : Maintains I hbfsWriteSuperblock := by
  refine hI.assign_bind (fun _ => rfl) fun _ => ?_
  exact maintains_get.bind fun k => hI.write _ _

theorem commitMarker : Maintains I writeCommitMarker := by
  refine maintains_get.bind fun k => Maintains.ite ?_ (maintains_pure _)
  refine hI.assign_bind (fun _ => rfl) fun _ => ?_
  exact (hI.write _ _).bind fun _ => maintains_pure _

theorem recoverScan (turns index : Nat) : Maintains I (recoverScan turns index) :=
  maintains_recoverScan hI.write hI.read (fun _ _ => hI.stable rfl rfl rfl) turns index

theorem recover : Maintains I hbfsJournalRecover := by
  refine (hI.recoverScan _ _).bind fun _ => ?_
  refine hI.assign_bind (fun _ => rfl) fun _ => ?_
  exact hI.writeSuperblock.bind fun _ => maintains_pure _

/-- An abort keeps what the cache's upkeep keeps. -/
theorem abort : Maintains I hbfsJournalAbort := by
  refine maintains_get.bind fun k => .early ?_
  refine hI.assign_bind (fun _ => rfl) fun _ => ?_
  refine hI.commitMarker.bind fun _ => hI.recover.bind fun _ => ?_
  refine hI.assign_bind (fun _ => rfl) fun _ => ?_
  have hrest : Maintains I (do
      modify fun k : Kernel =>
        { k with
          journalDirty := false
          journalFailed := false
          journalPtr := 0
          journalLogged := []
          superBuf := (k.superBuf.setDword hbfsSbJrnlState 0).setDword hbfsSbJrnlPtr 0 }
      let _ ← hbfsWriteSuperblock
      modify fun k => { k with dirCacheLba := dirCacheNone }) := by
    refine hI.assign_bind (fun _ => rfl) fun _ => ?_
    exact hI.writeSuperblock.bind fun _ => hI.assign fun _ => rfl
  refine (hI.read _).bind fun sb => ?_
  cases sb with
  | none => exact hrest
  | some sb => exact hI.assign_bind (fun _ => rfl) fun _ => hrest

end RollbackKeeps

/-- A property of the device, the block cache and the place in the tree that the transfers of
metadata keep. -/
structure Upkeep (I : Kernel → Prop) : Prop where
  write : ∀ lba s, Maintains I (ataWriteSectors lba [s])
  read : ∀ lba cnt, Maintains I (ataReadSectors lba cnt)
  stable : ∀ {k k' : Kernel}, k'.toDevice = k.toDevice → k'.toBlkCache = k.toBlkCache →
    k'.place = k.place → I k → I k'

theorem maintains_requireWritable {I : Kernel → Prop} : Maintains I hbfsRequireWritable :=
  maintains_get.bind fun _ => maintains_pure _

namespace Upkeep

variable {I : Kernel → Prop} (hI : Upkeep I)

include hI

theorem assign {f : Kernel → Kernel}
    (hf : ∀ k, ((f k).toDevice, (f k).toBlkCache, (f k).place) =
      (k.toDevice, k.toBlkCache, k.place)) :
    Maintains I (modify f : KernelM PUnit) := by
  simp only [Prod.mk.injEq] at hf
  exact maintains_modify fun k => hI.stable (hf k).1 (hf k).2.1 (hf k).2.2

theorem assign_bind {α : Type} {f : Kernel → Kernel} {x : PUnit → KernelM α}
    (hf : ∀ k, ((f k).toDevice, (f k).toBlkCache, (f k).place) =
      (k.toDevice, k.toBlkCache, k.place))
    (hx : ∀ u, Maintains I (x u)) : Maintains I (modify f >>= x) :=
  (hI.assign hf).bind hx

theorem readSector (lba : Nat) :
    Maintains I (ataReadSector lba) := (hI.read lba 1).bind fun _ => maintains_pure _

theorem rollback : RollbackKeeps I := by
  refine ⟨hI.write, hI.readSector, fun hdevice hcache haside => hI.stable hdevice hcache ?_⟩
  simp only [Kernel.aside, Prod.mk.injEq] at haside
  simp only [Kernel.place, haside]

theorem abort : Maintains I hbfsJournalAbort := hI.rollback.abort

/-! ## The journal -/

theorem begin : Maintains I hbfsJournalBegin := by
  refine maintains_requireWritable.bind fun cf => .early ?_
  refine maintains_get.bind fun k => .early ?_
  refine hI.assign_bind (fun _ => rfl) fun _ => ?_
  refine maintains_get.bind fun k => .early ?_
  refine hI.assign_bind (fun _ => rfl) fun _ => ?_
  exact hI.rollback.writeSuperblock.bind fun _ => maintains_pure _

theorem fail : Maintains I journalFail := hI.assign_bind (fun _ => rfl) fun _ => maintains_pure _

/-- Logging a sector keeps it. -/
theorem logSector (lba : Nat) : Maintains I (hbfsJournalLogSector lba) := by
  refine maintains_get.bind fun k => ?_
  refine .early (.early ?_)
  refine .early (.early ?_)
  refine Maintains.ite (hI.fail.bind fun _ => maintains_pure _) ?_
  refine (hI.readSector lba).bind fun pre => ?_
  cases pre with
  | none => exact hI.fail
  | some pre =>
  refine (hI.write _ _).bind fun cf => ?_
  refine Maintains.ite (hI.fail.bind fun _ => maintains_pure _) ?_
  refine hI.assign_bind (fun _ => rfl) fun _ => ?_
  refine (hI.write _ _).bind fun cf => ?_
  refine Maintains.ite (hI.fail.bind fun _ => maintains_pure _) ?_
  exact hI.assign_bind (fun _ => rfl) fun _ => maintains_pure _

/-- A commit keeps it. -/
theorem commit : Maintains I hbfsJournalCommit := by
  refine maintains_get.bind fun k => .early ?_
  refine maintains_get.bind fun k => .early ?_
  refine hI.assign_bind (fun _ => rfl) fun _ => ?_
  refine maintains_get.bind fun k => .early ?_
  refine maintains_get.bind fun k => Maintains.ite hI.abort ?_
  refine hI.rollback.commitMarker.bind fun _ => hI.assign_bind (fun _ => rfl) fun _ => ?_
  exact hI.rollback.writeSuperblock.bind fun _ => maintains_pure _

/-! ## Metadata -/

theorem logAndWrite (lba : Nat) (src : MetaSrc) (i : Nat) :
    Maintains I (logAndWrite lba src i) := by
  refine (hI.logSector lba).bind fun cf => .early ?_
  exact maintains_get.bind fun k => hI.write _ _

theorem metaWriteLoop (lba : Nat) (src : MetaSrc) (cnt i : Nat) :
    Maintains I (metaWriteLoop lba src cnt i) := by
  induction cnt generalizing i with
  | zero => exact maintains_pure _
  | succ cnt ih => exact (hI.logAndWrite _ src i).bind fun cf => .early (ih _)

theorem stampForWrite (lba cnt : Nat) : Maintains I (stampForWrite lba cnt) := by
  intro k hk
  simp only [Mellivora.stampForWrite, yields_rules]
  split
  · exact hI.stable (k := k) rfl rfl rfl hk
  split
  · exact hI.stable (k := k) rfl rfl rfl hk
  split
  · exact hI.stable (k := k) rfl rfl rfl hk
  · exact hI.stable (k := k) rfl rfl rfl hk

/-- A metadata write keeps it. -/
theorem metaWrite (lba : Nat) (src : MetaSrc) (cnt : Nat) :
    Maintains I (hbfsMetaWrite lba src cnt) := by
  refine maintains_requireWritable.bind fun cf => .early ?_
  have htry : Maintains I (hbfsMetaTry lba src cnt) := by
    refine (hI.stampForWrite lba cnt).bind fun extra => ?_
    refine (hI.metaWriteLoop lba src cnt 0).bind fun cf => .early ?_
    exact Maintains.ite (hI.logAndWrite _ _ _) (maintains_pure _)
  exact htry.bind fun cf =>
    Maintains.ite (hI.abort.bind fun _ => maintains_pure _) (maintains_pure _)

/-! ## The allocator and the directory -/

theorem loadBitmap : Maintains I hbfsLoadBitmap := by
  refine maintains_get.bind fun k => .early ?_
  refine (hI.read _ _).bind fun (cf, data) => hI.assign_bind (fun _ => rfl) fun _ => ?_
  exact .early (hI.assign_bind (fun _ => rfl) fun _ => maintains_pure _)

theorem writeFreeCount (count : Nat → Nat) : Maintains I (writeFreeCount count) :=
  hI.assign_bind (fun _ => rfl) fun _ => hI.metaWrite _ _ _

theorem changeBlocks (b : Bool) (start cnt : Nat) (count : Nat → Nat) :
    Maintains I (changeBlocks b start cnt count) := by
  refine hI.assign_bind (fun _ => rfl) fun _ => hI.begin.bind fun _ => ?_
  refine (hI.metaWrite _ _ _).bind fun cf => .early ?_
  refine (hI.writeFreeCount count).bind fun cf => ?_
  exact .early (hI.commit.bind fun _ => maintains_pure _)

theorem freeBlocks (start count : Nat) : Maintains I (hbfsFreeBlocks start count) :=
  hI.loadBitmap.bind fun _ => hI.changeBlocks _ _ _ _

end Upkeep

/-- Coherence is such an invariant. -/
theorem coherent_upkeep : Upkeep Coherent where
  write lba s k hk := by
    refine yields_ataWriteSector (fun fs _ _ => ?_) fun fs _ => ?_
    · exact coherent_of_empty fun _ _ => rfl
    · exact hk
  read lba cnt k hk := yields_ataReadSectors (fun _ => hk) (fun fs _ _ => hk) fun fs n _ _ => hk
  stable := by
    intro k k' hdev hcache _ hk i hi htag j hj
    have hdisk : k'.disk = k.disk := congrArg Device.disk hdev
    have htags : k'.blkCacheTags = k.blkCacheTags := congrArg BlkCache.blkCacheTags hcache
    have hdata : k'.blkCacheData = k.blkCacheData := congrArg BlkCache.blkCacheData hcache
    rw [hdata, hdisk, Kernel.cachedLba, htags]
    rw [htags] at htag
    exact hk i hi htag j hj

end Mellivora
