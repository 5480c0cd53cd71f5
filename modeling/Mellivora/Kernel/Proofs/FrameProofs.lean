import Mellivora.Kernel.Proofs.AtaProofs
import Mellivora.Kernel.Files

/-!
# What the device routines leave alone

Transfers change the device and the block cache and nothing else, whatever the device reports.
-/

namespace Mellivora

open Outcome

/-- The kernel's variables are the same, but for the device and the block cache. -/
structure IoOnly (k k' : Kernel) : Prop where
  volume : k'.toVolume = k.toVolume
  journal : k'.toJournalState = k.toJournalState
  bitmap : k'.toBitmapState = k.toBitmapState
  dir : k'.toDirState = k.toDirState
  extent : k'.toExtentState = k.toExtentState
  cwd : k'.toCwdState = k.toCwdState
  quota : k'.toQuotaState = k.toQuotaState
  caller : k'.toCallerState = k.toCallerState

variable {k : Kernel} {lba cnt : Nat}

theorem IoOnly.refl (k : Kernel) : IoOnly k k := ⟨rfl, rfl, rfl, rfl, rfl, rfl, rfl, rfl⟩

theorem IoOnly.trans {k k1 k2 : Kernel} (h : IoOnly k k1) (h' : IoOnly k1 k2) : IoOnly k k2 := by
  cases h; cases h'
  constructor <;> simp only [*]

theorem io_ataReadSectors (k : Kernel) (lba cnt : Nat) :
    Yields (ataReadSectors lba cnt) (fun _ k' => IoOnly k k') k :=
  yields_ataReadSectors (fun _ => IoOnly.refl k)
    (fun _ _ _ => ⟨rfl, rfl, rfl, rfl, rfl, rfl, rfl, rfl⟩)
    fun _ _ _ _ => ⟨rfl, rfl, rfl, rfl, rfl, rfl, rfl, rfl⟩

theorem io_ataReadSector (k : Kernel) (lba : Nat) :
    Yields (ataReadSector lba) (fun _ k' => IoOnly k k') k := io_ataReadSectors k lba 1

theorem io_ataWriteSectors (k : Kernel) (lba : Nat) (data : List Sector) :
    Yields (ataWriteSectors lba data) (fun _ k' => IoOnly k k') k :=
  yields_ataWriteSectors (fun _ => IoOnly.refl k)
    (fun _ _ _ _ _ _ => ⟨rfl, rfl, rfl, rfl, rfl, rfl, rfl, rfl⟩)
    fun _ _ _ _ _ _ => ⟨rfl, rfl, rfl, rfl, rfl, rfl, rfl, rfl⟩

/-- A cached read changes the device and the cache only. -/
theorem io_blkCacheReadSingle (k : Kernel) (lba cnt : Nat) :
    Yields (blkCacheReadSingle lba cnt) (fun _ k' => IoOnly k k') k := by
  simp only [blkCacheReadSingle, yields_bind, yields_ite]
  split
  · exact io_ataReadSectors k lba cnt
  rw [yields_get]
  cases k.cacheIndex? (blockTag lba) with
  | some i => exact IoOnly.refl k
  | none =>
  simp only [yields_bind, yields_get, yields_modify]
  refine (io_ataReadSectors _ _ _).mono fun r k1 h1 => ?_
  have h : IoOnly k k1 :=
    { h1 with }
  simp only [yields_modify, yields_ite, yields_bind, yields_get, yields_pure]
  split <;>
    exact { h with }

theorem io_blkCacheReadRun (k : Kernel) (lba blocks : Nat) :
    Yields (blkCacheReadRun lba blocks) (fun _ k' => IoOnly k k') k := by
  induction blocks generalizing k lba with
  | zero => exact yields_pure.mpr (IoOnly.refl k)
  | succ blocks ih =>
    simp only [blkCacheReadRun, yields_rules]
    refine (io_blkCacheReadSingle k lba _).mono fun r k1 h1 => ?_
    split
    · exact h1
    · exact (ih k1 _).mono fun _ _ h2 => h1.trans h2

theorem io_blkCacheRead (k : Kernel) (lba cnt : Nat) :
    Yields (blkCacheRead lba cnt) (fun _ k' => IoOnly k k') k := by
  simp only [blkCacheRead, yields_ite]
  split
  · exact io_blkCacheReadSingle k lba cnt
  · exact io_blkCacheReadRun k lba _

/-! ## Routines that open nothing -/

/-- Where the caller stands: the working directory and its path. -/
def Kernel.place (k : Kernel) : Nat × Nat × CwdState :=
  (k.currentDirLba, k.currentDirSects, k.toCwdState)

/-- A property of the volume, the journal and the place in the tree alone. -/
structure Standing (I : Kernel → Prop) : Prop where
  stable : ∀ {k k' : Kernel}, k'.toVolume = k.toVolume → k'.toJournalState = k.toJournalState →
    k'.place = k.place →
    I k → I k'

/-- What the transfers of single sectors keep, the scan of a recovery keeps. -/
theorem maintains_recoverScan {I : Kernel → Prop}
    (hwrite : ∀ lba s, Maintains I (ataWriteSectors lba [s]))
    (hread : ∀ lba, Maintains I (ataReadSector lba)) (hbuf : ∀ k s, I k → I { k with jrnlBuf := s })
    (turns index : Nat) : Maintains I (recoverScan turns index) := by
  induction turns generalizing index with
  | zero => exact maintains_pure _
  | succ turns ih =>
  refine .early ?_
  refine (hread _).bind fun header => ?_
  cases header with
  | none => exact maintains_pure _
  | some header =>
  refine maintains_modify_bind (fun k => hbuf k header) fun _ => .early ?_
  refine maintains_get.bind fun k => .early ?_
  refine .early (Maintains.ite (ih _) ?_)
  refine (hread _).bind fun pre => ?_
  cases pre with
  | none => exact ih _
  | some pre => exact .early ((hwrite _ _).bind fun _ => ih _)

namespace Standing

variable {I : Kernel → Prop} (hI : Standing I)

include hI

theorem io {k k' : Kernel} (h : IoOnly k k') (hk : I k) : I k' :=
  hI.stable h.volume h.journal (by simp only [Kernel.place, h.dir, h.cwd]) hk

theorem read (lba cnt : Nat) : Maintains I (ataReadSectors lba cnt) :=
  fun k hk => (io_ataReadSectors k lba cnt).mono fun _ _ h => hI.io h hk

theorem write (lba : Nat) (data : List Sector) : Maintains I (ataWriteSectors lba data) :=
  fun k hk => (io_ataWriteSectors k lba data).mono fun _ _ h => hI.io h hk

theorem cacheRead (lba cnt : Nat) : Maintains I (blkCacheRead lba cnt) :=
  fun k hk => (io_blkCacheRead k lba cnt).mono fun _ _ h => hI.io h hk

theorem assign_bind {α : Type} {f : Kernel → Kernel} {x : PUnit → KernelM α}
    (hf : ∀ k, ((f k).toVolume, (f k).toJournalState, (f k).place) =
      (k.toVolume, k.toJournalState, k.place))
    (hx : ∀ u, Maintains I (x u)) : Maintains I (modify f >>= x) := by
  simp only [Prod.mk.injEq] at hf
  exact maintains_modify_bind (fun k => hI.stable (hf k).1 (hf k).2.1 (hf k).2.2) hx

theorem loadBitmap : Maintains I hbfsLoadBitmap := by
  refine maintains_get.bind fun k => .early ?_
  refine (hI.read _ _).bind fun (cf, data) => hI.assign_bind (fun _ => rfl) fun _ => ?_
  refine .early ?_
  exact hI.assign_bind (fun _ => rfl) fun _ => maintains_pure _

theorem quotaSlot (uid : Nat) : Maintains I (quotaSlot uid) := by
  intro k hk
  unfold Mellivora.quotaSlot
  simp only [yields_rules]
  split
  · exact hk
  · split
    · exact hk
    · exact hI.stable (k := k) rfl rfl rfl hk

theorem quotaAllow (uid blocks : Nat) : Maintains I (quotaAllow uid blocks) := by
  refine (hI.quotaSlot uid).bind fun slot => ?_
  cases slot with
  | none => exact maintains_pure _
  | some slot => exact maintains_get.bind fun k => .early (maintains_pure _)

theorem quotaChange (uid : Nat) (used : Nat → Nat) : Maintains I (quotaChange uid used) := by
  refine (hI.quotaSlot uid).bind fun slot => ?_
  cases slot with
  | none => exact maintains_pure _
  | some slot => exact maintains_modify fun k hk => hI.stable (k := k) rfl rfl rfl hk

theorem readExtentBlock (block : Nat) : Maintains I (readExtentBlock block) := by
  refine (hI.cacheRead _ _).bind fun (cf, data) => hI.assign_bind (fun _ => rfl) fun _ => ?_
  refine .early (maintains_get.bind fun k => .early ?_)
  refine hI.assign_bind (fun _ => rfl) fun _ => ?_
  exact maintains_get.bind fun k => .early (maintains_pure _)

theorem extentWrite (data : Buffer) (runs : List (Nat × Nat)) (done : Nat) :
    Maintains I (hbfsExtentWrite data runs done) := by
  induction runs generalizing done with
  | nil => exact maintains_pure _
  | cons run runs ih => exact (hI.write _ _).bind fun cf => .early (ih _)

theorem writeFileData (place : Placement) (blocks : Nat) (data : Buffer) :
    Maintains I (writeFileData place blocks data) := by
  cases place with
  | inline start => exact hI.write _ _
  | extents block runs => exact hI.extentWrite data runs 0

end Standing

end Mellivora
