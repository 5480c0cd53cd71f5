import Mellivora.Lib.Outcome
import Mellivora.Kernel.Ata

/-!
# Single-sector transfers

Everything but file data and the bulk loads goes through the device one sector at a time.
-/

namespace Mellivora

open Outcome List

variable {Q : Bool → Kernel → Prop} {data : List Sector} {n : Nat}

/-- The kernel after one sector has been written. -/
def Kernel.put (k : Kernel) (lba : Nat) (s : Sector) : Kernel :=
  { k with
    disk := Function.update k.disk lba s
    trace := k.trace ++ [(lba, s)]
    blkCacheTags := fun _ => 0 }

section Frames

variable (k : Kernel) (lba : Nat) (s : Sector)

@[simp] theorem Kernel.put_disk : (k.put lba s).disk = Function.update k.disk lba s := rfl
@[simp] theorem Kernel.put_trace : (k.put lba s).trace = k.trace ++ [(lba, s)] := rfl

end Frames

theorem outOfBounds_one {k : Kernel} {lba : Nat} :
    outOfBounds k lba 1 = true ↔ k.ataTotalSectors ≤ lba := by
  simp only [outOfBounds, Bool.or_eq_true, decide_eq_true_eq]
  omega

theorem transfer_nil (k : Kernel) (lba : Nat) : k.transfer lba [] = k := by
  simp [Kernel.transfer, writesAt]

theorem transfer_singleton (k : Kernel) (lba : Nat) (s : Sector) :
    { k.transfer lba [s] with blkCacheTags := fun _ => 0 } = k.put lba s := by
  simp [Kernel.transfer, writesAt, Kernel.put]

variable {k : Kernel} {lba : Nat} {s : Sector}

/-- A command fails only where the fault schedule says so. -/
theorem yields_nextFault {Q : Option Nat → Kernel → Prop}
    (hok : ∀ fs, (k.faults = [] → fs = []) → Q none { k with faults := fs })
    (herr : ∀ fs, k.faults ≠ [] → Q (some 0) { k with faults := fs }) :
    Yields (nextFault 1) Q k := by
  unfold nextFault
  simp only [yields_rules]
  cases hf : k.faults with
  | nil =>
    have hstate := hok k.faults id
    simpa using hstate
  | cons f faults =>
  simp only [yields_rules]
  have hne : k.faults ≠ [] := by simp [hf]
  cases f with
  | none => exact hok faults fun h => absurd h hne
  | some n =>
    cases n with
    | zero => exact herr faults hne
    | succ n => exact hok faults fun h => absurd h hne

theorem yields_nextFault_of_nil {cnt : Nat} {Q : Option Nat → Kernel → Prop} (hf : k.faults = []) :
    Yields (nextFault cnt) Q k ↔ Q none k := by
  unfold nextFault
  simp only [hf, yields_rules]

/-! ## Reading -/

/-- A read with its retries, of one sector. -/
theorem yields_ataReadTries {Q : Bool × List Sector → Kernel → Prop}
    (hok : ∀ fs, (k.faults = [] → fs = []) → Q (false, [k.disk lba]) { k with faults := fs })
    (tries : Nat) (herr : ∀ fs, (tries ≠ 0 → k.faults ≠ []) →
      Q (true, []) { k with faults := fs }) :
    Yields (ataReadTries lba 1 tries 0) Q k := by
  induction tries generalizing k with
  | zero =>
    simp only [ataReadTries, yields_rules]
    exact herr k.faults fun h => absurd rfl h
  | succ tries ih =>
  simp only [ataReadTries, yields_bind]
  refine yields_nextFault (fun fs hfs => ?_) fun fs hne => ?_
  · simp only [yields_rules]
    exact hok fs hfs
  · exact ih (k := { k with faults := fs }) (fun fs' _ => hok fs' fun h => absurd h hne)
      fun fs' _ => herr fs' fun _ => hne

/-- One sector is read, or nothing; without faults, only a sector past the end of the device is
refused. -/
theorem yields_ataReadSector {Q : Option Sector → Kernel → Prop}
    (hok : ∀ fs, (k.faults = [] → fs = []) → lba < k.ataTotalSectors →
      Q (some (k.disk lba)) { k with faults := fs })
    (herr : ∀ fs, (k.faults = [] → fs = [] ∧ k.ataTotalSectors ≤ lba) →
      Q none { k with faults := fs }) : Yields (ataReadSector lba) Q k := by
  simp only [ataReadSector, ataReadSectors, yields_rules]
  split
  · next hb => exact herr k.faults fun hf => ⟨hf, outOfBounds_one.mp hb⟩
  · next hb =>
    rw [outOfBounds_one, not_le] at hb
    exact yields_ataReadTries (fun fs hfs => hok fs hfs hb) 3
      fun fs hne => herr fs fun hf => absurd hf (hne (by decide))

theorem yields_ataReadSector_of_nil {Q : Option Sector → Kernel → Prop} (hf : k.faults = [])
    (hb : lba < k.ataTotalSectors) : Yields (ataReadSector lba) Q k ↔ Q (some (k.disk lba)) k := by
  simp only [ataReadSector, ataReadSectors, yields_rules]
  rw [if_neg (by rw [outOfBounds_one]; omega)]
  simp only [ataReadTries, yields_nextFault_of_nil hf, yields_rules]
  rfl

/-! ## Writing -/

/-- A write with its retries, of one sector. -/
theorem yields_ataWriteTries
    (hok : ∀ fs, (k.faults = [] → fs = []) → Q false (Kernel.put { k with faults := fs } lba s))
    (tries : Nat) (herr : ∀ fs, (tries ≠ 0 → k.faults ≠ []) → Q true { k with faults := fs }) :
    Yields (ataWriteTries lba [s] tries) Q k := by
  induction tries generalizing k with
  | zero => exact herr k.faults fun h => absurd rfl h
  | succ tries ih =>
  simp only [ataWriteTries, yields_bind, length_singleton]
  refine yields_nextFault (fun fs hfs => ?_) fun fs hne => ?_
  · simp only [blkCacheFlush, yields_rules]
    rw [transfer_singleton]
    exact hok fs hfs
  · simp only [take_zero, transfer_nil, yields_rules]
    exact ih (k := { k with faults := fs }) (fun fs' _ => hok fs' fun h => absurd h hne)
      fun fs' _ => herr fs' fun _ => hne

/-- A write of one sector, with its bounds check. -/
theorem yields_ataWriteSector
    (hok : ∀ fs, (k.faults = [] → fs = []) → lba < k.ataTotalSectors →
      Q false (Kernel.put { k with faults := fs } lba s))
    (herr : ∀ fs, (k.faults = [] → fs = [] ∧ k.ataTotalSectors ≤ lba) →
      Q true { k with faults := fs }) : Yields (ataWriteSectors lba [s]) Q k := by
  simp only [ataWriteSectors, length_singleton, yields_rules]
  split
  · next hb => exact herr k.faults fun hf => ⟨hf, outOfBounds_one.mp hb⟩
  · next hb =>
    rw [outOfBounds_one, not_le] at hb
    exact yields_ataWriteTries (fun fs hfs => hok fs hfs hb) 3
      fun fs hne => herr fs fun hf => absurd hf (hne (by decide))

theorem yields_ataWriteSector_of_nil (hf : k.faults = []) (hb : lba < k.ataTotalSectors) :
    Yields (ataWriteSectors lba [s]) Q k ↔ Q false (k.put lba s) := by
  simp only [ataWriteSectors, length_singleton, yields_rules]
  rw [if_neg (by rw [outOfBounds_one]; omega)]
  simp only [ataWriteTries, yields_nextFault_of_nil hf, blkCacheFlush, transfer_singleton,
    yields_rules]

/-! ## Transfers of several sectors -/

section Many

variable {cnt : Nat}

theorem yields_nextFault_iff {Q : Option Nat → Kernel → Prop} :
    Yields (nextFault cnt) Q k ↔
    Q ((k.faults.head?.bind id).filter (· < cnt)) { k with faults := k.faults.tail } := by
  unfold nextFault
  simp only [yields_rules]
  cases hf : k.faults with
  | nil =>
    have hk : { k with faults := [] } = k := by rw [← hf]
    rw [yields_pure]
    show Q none k ↔ Q none { k with faults := [] }
    rw [hk]
  | cons f faults => simp only [yields_rules]; rfl

theorem gaveUpAfter_succ (tries got : Nat) (fs : List (Option Nat)) :
    gaveUpAfter cnt (tries + 1) got fs =
      match (fs.head?.bind id).filter (· < cnt) with
      | none => none
      | some n => gaveUpAfter cnt tries (max got n) fs.tail := by
  cases fs <;> rfl

theorem le_of_gaveUpAfter {tries got : Nat} {fs : List (Option Nat)}
    (h : gaveUpAfter cnt tries got fs = some n) : got ≤ n := by
  induction tries generalizing got fs with
  | zero =>
    simp only [gaveUpAfter, Option.some.injEq] at h
    omega
  | succ tries ih =>
    rw [gaveUpAfter_succ] at h
    split at h
    · simp at h
    · have := ih h
      omega

/-- A read with its retries. -/
theorem yields_ataReadTries_many {Q : Bool × List Sector → Kernel → Prop} (tries got : Nat)
    (hok : ∀ fs, gaveUpAfter cnt tries got k.faults = none →
      Q (false, sectorsAt k.disk lba cnt) { k with faults := fs })
    (hfail : ∀ fs n, gaveUpAfter cnt tries got k.faults = some n →
      Q (true, sectorsAt k.disk lba n) { k with faults := fs }) :
    Yields (ataReadTries lba cnt tries got) Q k := by
  induction tries generalizing k got with
  | zero => exact hfail k.faults got rfl
  | succ tries ih =>
  simp only [ataReadTries, yields_bind, yields_nextFault_iff]
  rw [gaveUpAfter_succ] at hok hfail
  cases hn : (k.faults.head?.bind id).filter (· < cnt) with
  | none =>
    simp only [hn] at hok
    exact hok _ trivial
  | some n =>
    simp only [hn] at hok hfail
    exact ih (k := { k with faults := k.faults.tail }) _ hok hfail

/-- `ata_read_sectors`: everything, or the sectors the best of three tries has moved. -/
theorem yields_ataReadSectors {Q : Bool × List Sector → Kernel → Prop}
    (hoob : outOfBounds k lba cnt = true → Q (true, []) k)
    (hok : ∀ fs, outOfBounds k lba cnt = false → gaveUpAfter cnt 3 0 k.faults = none →
      Q (false, sectorsAt k.disk lba cnt) { k with faults := fs })
    (hfail : ∀ fs n, outOfBounds k lba cnt = false → gaveUpAfter cnt 3 0 k.faults = some n →
      Q (true, sectorsAt k.disk lba n) { k with faults := fs }) :
    Yields (ataReadSectors lba cnt) Q k := by
  simp only [ataReadSectors, yields_rules]
  split
  · next hb => exact hoob hb
  · next hb =>
    rw [Bool.not_eq_true] at hb
    exact yields_ataReadTries_many 3 0 (fun fs => hok fs hb) fun fs n => hfail fs n hb

theorem yields_ataReadSectors_of_nil {Q : Bool × List Sector → Kernel → Prop} (hf : k.faults = [])
    (hoob : outOfBounds k lba cnt = true → Q (true, []) k)
    (hok : outOfBounds k lba cnt = false → Q (false, sectorsAt k.disk lba cnt) k) :
    Yields (ataReadSectors lba cnt) Q k := by
  simp only [ataReadSectors, ataReadTries, yields_rules]
  split
  · next hb => exact hoob hb
  · next hb =>
    rw [yields_nextFault_of_nil hf]
    exact hok (by simpa using hb)

/-- Writes of the sectors `data` to `lba`, the first `n` of them at most. -/
def PartOf (lba : Nat) (data : List Sector) (n : Nat) (ws : List (Nat × Sector)) : Prop :=
  ∀ w ∈ ws, ∃ j < n, data[j]? = some w.2 ∧ w.1 = lba + j

theorem mem_writesAt {w : Nat × Sector} :
    w ∈ writesAt lba data ↔ ∃ j, data[j]? = some w.2 ∧ w.1 = lba + j := by
  obtain ⟨a, s⟩ := w
  simp only [writesAt, mem_map, Prod.exists, Prod.mk.injEq, mem_zipIdx_iff_getElem?]
  constructor
  · rintro ⟨s', j, hget, rfl, rfl⟩
    exact ⟨j, hget, rfl⟩
  · rintro ⟨j, hget, rfl⟩
    exact ⟨s, j, hget, rfl, rfl⟩

theorem partOf_writesAt_take (data : List Sector) (n : Nat) :
    PartOf lba data n (writesAt lba (data.take n)) := by
  intro w hw
  obtain ⟨j, hj, hw1⟩ := mem_writesAt.mp hw
  rw [getElem?_take] at hj
  split at hj
  · exact ⟨j, ‹_›, hj, hw1⟩
  · simp at hj

theorem PartOf.mono {m : Nat} {ws : List (Nat × Sector)}
    (h : PartOf lba data n ws) (hnm : n ≤ m) : PartOf lba data m ws := by
  intro w hw
  obtain ⟨j, hj, hget⟩ := h w hw
  exact ⟨j, by omega, hget⟩

theorem PartOf.append {ws vs : List (Nat × Sector)}
    (h : PartOf lba data n ws) (h' : PartOf lba data n vs) : PartOf lba data n (ws ++ vs) := by
  intro w hw
  exact (mem_append.mp hw).elim (h w) (h' w)

/-- The kernel after the sectors `ws` have been written. -/
def Kernel.afterTransfer (k : Kernel) (ws : List (Nat × Sector)) (fs : List (Option Nat)) :
    Kernel :=
  { k with disk := WriteLog.afterWrites k.disk ws, trace := k.trace ++ ws, faults := fs }

theorem Kernel.afterTransfer_nil : k.afterTransfer [] k.faults = k := by simp [Kernel.afterTransfer]

theorem Kernel.afterTransfer_append (ws vs : List (Nat × Sector)) (fs fs' : List (Option Nat)) :
    (k.afterTransfer ws fs).afterTransfer vs fs' = k.afterTransfer (ws ++ vs) fs' := by
  simp [Kernel.afterTransfer, WriteLog.afterWrites_append]

/-- A write with its retries; a failed try may leave a part. -/
theorem yields_ataWriteTries_many (tries got : Nat)
    (hok : ∀ fs n ws, gaveUpAfter data.length tries got k.faults = none → PartOf lba data n ws →
      Q false { k.afterTransfer (ws ++ writesAt lba data) fs with blkCacheTags := fun _ => 0 })
    (hfail : ∀ fs n ws, gaveUpAfter data.length tries got k.faults = some n →
      PartOf lba data n ws → Q true (k.afterTransfer ws fs)) :
    Yields (ataWriteTries lba data tries) Q k := by
  induction tries generalizing k got with
  | zero =>
    have hstate := hfail k.faults got [] rfl (by simp [PartOf])
    rwa [Kernel.afterTransfer_nil] at hstate
  | succ tries ih =>
  simp only [ataWriteTries, yields_bind, yields_nextFault_iff]
  rw [gaveUpAfter_succ] at hok hfail
  cases hn : (k.faults.head?.bind id).filter (· < data.length) with
  | none =>
    simp only [hn] at hok
    simp only [blkCacheFlush, yields_rules]
    exact hok k.faults.tail 0 [] trivial (by simp [PartOf])
  | some n =>
  simp only [hn] at hok hfail
  simp only [yields_rules]
  have hpart : PartOf lba data n (writesAt lba (data.take n)) := partOf_writesAt_take data n
  refine ih (k := k.afterTransfer (writesAt lba (data.take n)) k.faults.tail) (max got n) ?_ ?_
  · intro fs m ws hnone hws
    rw [Kernel.afterTransfer_append, ← append_assoc]
    exact hok fs (max n m) _ hnone
      ((hpart.mono (Nat.le_max_left ..)).append (hws.mono (Nat.le_max_right ..)))
  · intro fs m ws hsome hws
    have hle := le_of_gaveUpAfter hsome
    rw [Kernel.afterTransfer_append]
    exact hfail fs m _ hsome ((hpart.mono (by omega)).append hws)

/-- `ata_write_sectors`: parts of the transfer and then all of it, or parts only. -/
theorem yields_ataWriteSectors
    (hoob : outOfBounds k lba data.length = true → Q true k)
    (hok : ∀ fs n ws, outOfBounds k lba data.length = false →
      gaveUpAfter data.length 3 0 k.faults = none → PartOf lba data n ws →
      Q false { k.afterTransfer (ws ++ writesAt lba data) fs with blkCacheTags := fun _ => 0 })
    (hfail : ∀ fs n ws, outOfBounds k lba data.length = false →
      gaveUpAfter data.length 3 0 k.faults = some n → PartOf lba data n ws →
      Q true (k.afterTransfer ws fs)) :
    Yields (ataWriteSectors lba data) Q k := by
  simp only [ataWriteSectors, yields_rules]
  split
  · next hb => exact hoob hb
  · next hb =>
    rw [Bool.not_eq_true] at hb
    exact yields_ataWriteTries_many 3 0 (fun fs n ws => hok fs n ws hb) fun fs n ws =>
      hfail fs n ws hb

/-- A write touches the sectors it is for, however it ends. -/
theorem written_ataWriteSectors (k : Kernel) (lba : Nat) (data : List Sector) :
    Yields (ataWriteSectors lba data) (fun _ k' => ∀ a, k'.disk a ≠ k.disk a →
      ∃ j < data.length, a = lba + j) k := by
  have hparts : ∀ {n ws}, PartOf lba data n ws → ∀ a, WriteLog.afterWrites k.disk ws a ≠ k.disk a →
      ∃ j < data.length, a = lba + j := by
    intro n ws hws a hne
    have hmem : a ∈ ws.map Prod.fst := by
      by_contra hmem
      exact hne (WriteLog.afterWrites_of_notMem _ hmem)
    obtain ⟨w, hw, rfl⟩ := mem_map.mp hmem
    obtain ⟨j, -, hget, heq⟩ := hws w hw
    exact ⟨j, (List.getElem?_eq_some_iff.mp hget).1, heq⟩
  refine yields_ataWriteSectors (fun _ a hne => absurd rfl hne) (fun fs n ws _ _ hws => ?_)
    fun fs n ws _ _ hws => hparts hws
  have hall : PartOf lba data data.length (writesAt lba data) := by
    have htake : PartOf lba data data.length (writesAt lba (data.take data.length)) :=
      partOf_writesAt_take data data.length
    rwa [take_length] at htake
  exact hparts ((hws.mono (Nat.le_max_left ..)).append (hall.mono (Nat.le_max_right ..)))

end Many

end Mellivora
