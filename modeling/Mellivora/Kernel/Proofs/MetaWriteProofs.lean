import Mellivora.Kernel.Proofs.LogProofs

/-!
# `hbfs_meta_write` inside a transaction

A metadata write stamps the checksum it is about to make stale, logs and overwrites its sectors, and
on a v4 volume takes the sector with the bitmap's checksum along. It either does all of that or
calls `hbfs_journal_abort`.
-/

namespace Mellivora

open WriteLog Outcome

variable {cnt lba : Nat}

/-- The sectors of the bitmap. -/
def InBitmap (lba : Nat) : Prop :=
  hbfsBitmapStart ≤ lba ∧ lba < hbfsBitmapStart + hbfsBitmapSects

instance (lba : Nat) : Decidable (InBitmap lba) := inferInstanceAs (Decidable (_ ∧ _))

/-- The kernel with the stamps refreshed that a write at `lba` makes stale. -/
def Kernel.stampedFor (k : Kernel) (lba : Nat) : Kernel :=
  { k with
    superBuf := if k.isV4 ∧ lba = hbfsSuperblockLba then stampSuperblock k.superBuf else k.superBuf
    bitmapBuf :=
      if k.isV4 ∧ InBitmap lba then k.bitmapBuf.stampRun hbfsBitmapSize else k.bitmapBuf }

/-- The write ends before the sector with the bitmap's checksum. -/
def Kernel.extraFor (k : Kernel) (lba cnt : Nat) : Bool :=
  k.isV4 && decide (InBitmap lba) && decide (lba + cnt < hbfsBitmapStart + hbfsBitmapSects)

variable {b : Disk} {data : Set Nat} {recs : List (Nat × Sector)} {k : Kernel}

/-- A bitmap is stamped before it is written. -/
theorem yields_stampForWrite {Q : Bool → Kernel → Prop} :
    Yields (stampForWrite lba cnt) Q k ↔ Q (k.extraFor lba cnt) (k.stampedFor lba) := by
  have hb := layout_eq
  simp only [stampForWrite, yields_rules]
  unfold Kernel.extraFor Kernel.stampedFor
  cases hv : k.isV4 with
  | false => simp
  | true =>
  by_cases hsb : lba = hbfsSuperblockLba
  · have hnot : ¬ InBitmap lba := by
      unfold InBitmap
      omega
    simp [hsb, hsb ▸ hnot]
  · by_cases hbm : InBitmap lba
    · have hbm' := hbm
      unfold InBitmap at hbm'
      simp [hsb, hbm, hbm'.1, hbm'.2]
    · have hbm' := hbm
      unfold InBitmap at hbm'
      simp [hsb, hbm, if_neg hbm']

theorem dword_stampSuperblock (s : Sector) {off : Nat}
    (h : hbfs4OffChecksum + 4 ≤ off ∨ off + 4 ≤ hbfs4OffChecksum) :
    (stampSuperblock s).dword off = s.dword off := by
  unfold stampSuperblock
  rw [Sector.dword_setDword_of_disjoint _ (by decide) _ h,
    Sector.dword_setDword_of_disjoint _ (by decide) _ h]

theorem stampedFor_dword (lba : Nat) {off : Nat}
    (h : hbfs4OffChecksum + 4 ≤ off ∨ off + 4 ≤ hbfs4OffChecksum) :
    (k.stampedFor lba).superBuf.dword off = k.superBuf.dword off := by
  unfold Kernel.stampedFor
  dsimp only
  split
  · exact dword_stampSuperblock _ h
  · rfl

theorem sameOutsideJournal_stampedFor (lba : Nat) :
    SameOutsideJournal (k.stampedFor lba).superBuf k.superBuf := by
  unfold Kernel.stampedFor
  dsimp only
  split
  · next hv =>
    have hmagic : k.superBuf.dword 0 = hbfs4Magic := by simpa [Kernel.isV4] using hv.1
    have hrestamp := sameOutsideJournal_restamp k.superBuf
    rwa [restampSuperblock, if_neg (not_not.mpr hmagic)] at hrestamp
  · exact SameOutsideJournal.refl _

theorem LogInv.stampedFor (h : LogInv b data recs k) (lba : Nat) :
    LogInv b data recs (k.stampedFor lba) := by
  refine h.congr ?_ rfl rfl
  have hj := h.journalled
  unfold Kernel.journalled at hj ⊢
  rwa [stampedFor_dword lba (by decide)]

/-- The sector with the bitmap's checksum, written after a range that does not reach it. -/
theorem LogInv.yields_logTrailer (h : LogInv b data recs k) (hfailed : k.journalFailed = false)
    (htrailer : bitmapTrailer ∉ data) :
    Yields (logAndWrite (bitmapTrailer + 0) (.bitmapBuf (hbfsBitmapSects - 1)) 0)
      (fun cf k' => ∃ recs', MetaRun b data recs k bitmapTrailer
        (.bitmapBuf (hbfsBitmapSects - 1)) 0 1 cf recs' k') k :=
  h.yields_logAndWrite hfailed _ (by decide) (by decide) htrailer

/-- The writes of `hbfs_meta_write` keep the log in order, also when they fail. -/
theorem LogInv.yields_metaTry (h : LogInv b data recs k) (hfailed : k.journalFailed = false)
    (src : MetaSrc) (ht : ∀ j < cnt, ¬ InLog (lba + j) ∧ lba + j < 2 ^ 32 ∧ lba + j ∉ data)
    (htrailer : bitmapTrailer ∉ data) :
    Yields (hbfsMetaTry lba src cnt) (fun cf k' => ∃ recs', LogInv b data recs' k' ∧
      (cf = false → k'.journalFailed = false)) k := by
  simp only [hbfsMetaTry, yields_stampForWrite, yields_rules]
  refine ((h.stampedFor lba).yields_metaWriteLoop hfailed src cnt 0 ?_).mono fun cf k1 hrun => ?_
  · intro j hj
    rw [Nat.zero_add]
    exact ht j hj
  obtain ⟨recs1, hrun⟩ := hrun
  cases cf with
  | true => exact ⟨recs1, hrun.inv, by simp⟩
  | false =>
  rw [if_neg (by simp)]
  split
  · refine (hrun.inv.yields_logTrailer (hrun.failed rfl) htrailer).mono ?_
    intro cf k2 hrun'
    obtain ⟨recs2, hrun'⟩ := hrun'
    exact ⟨recs2, hrun'.inv, hrun'.failed⟩
  · exact ⟨recs1, hrun.inv, fun _ => hrun.failed rfl⟩

/-- `hbfs_meta_write`: every sector is logged and overwritten, or the transaction is aborted. -/
theorem LogInv.yields_metaWrite (h : LogInv b data recs k) (hfailed : k.journalFailed = false)
    (hmounted : k.mounted = true) (hwritable : k.readOnly = false) (src : MetaSrc)
    (ht : ∀ j < cnt, ¬ InLog (lba + j) ∧ lba + j < 2 ^ 32 ∧ lba + j ∉ data)
    (htrailer : bitmapTrailer ∉ data) {Q : Bool → Kernel → Prop}
    (hok : ∀ recs1 k1, MetaRun b data recs (k.stampedFor lba) lba src 0 cnt false recs1 k1 →
      k.extraFor lba cnt = false → Q false k1)
    (hextra : ∀ recs1 k1 recs2 k2, MetaRun b data recs (k.stampedFor lba) lba src 0 cnt
      false recs1 k1 →
      k.extraFor lba cnt = true →
      MetaRun b data recs1 k1 bitmapTrailer (.bitmapBuf (hbfsBitmapSects - 1)) 0 1 false recs2 k2 →
      Q false k2)
    (herr : ∀ recs1 k1, MetaRun b data recs (k.stampedFor lba) lba src 0 cnt true recs1 k1 →
      Yields hbfsJournalAbort (fun _ k' => Q true k') k1)
    (herr' : ∀ recs1 k1 recs2 k2, MetaRun b data recs (k.stampedFor lba) lba src 0 cnt
      false recs1 k1 →
      k.extraFor lba cnt = true →
      MetaRun b data recs1 k1 bitmapTrailer (.bitmapBuf (hbfsBitmapSects - 1)) 0 1 true recs2 k2 →
      Yields hbfsJournalAbort (fun _ k' => Q true k') k2) :
    Yields (hbfsMetaWrite lba src cnt) Q k := by
  simp only [hbfsMetaWrite, hbfsMetaTry, hbfsRequireWritable, yields_stampForWrite, yields_rules]
  rw [if_neg (by simp [hmounted, hwritable])]
  refine ((h.stampedFor lba).yields_metaWriteLoop hfailed src cnt 0 ?_).mono fun cf k1 hrun => ?_
  · intro j hj
    rw [Nat.zero_add]
    exact ht j hj
  obtain ⟨recs1, hrun⟩ := hrun
  cases cf with
  | true => exact herr recs1 k1 hrun
  | false =>
  rw [if_neg (by simp)]
  cases hex : k.extraFor lba cnt with
  | false => exact hok recs1 k1 hrun hex
  | true =>
  rw [if_pos rfl]
  refine (hrun.inv.yields_logTrailer (hrun.failed rfl) htrailer).mono ?_
  intro cf k2 hrun'
  obtain ⟨recs2, hrun'⟩ := hrun'
  cases cf with
  | true => exact herr' recs1 k1 recs2 k2 hrun hex hrun'
  | false => exact hextra recs1 k1 recs2 k2 hrun hex hrun'

end Mellivora
