import Mellivora.Kernel.Transaction
import Mellivora.Kernel.Proofs.RecoverProofs
import Mellivora.Kernel.Proofs.MetaWriteProofs

/-!
# A metadata transaction cut by a power failure

At every cut before the last superblock write, a mount rolls all logged sectors back but keeps the
free count that the superblock on the disk happens to carry. So the disks a transaction can be
recovered to are the old volume with one of the counts the transaction wrote, and the new volume.
-/

namespace Mellivora

open WriteLog Outcome Function List Sector

variable {k' : Kernel} {recs' : List (Nat × Sector)} {src : MetaSrc} {cnt lba : Nat}

/-- The kernel and its disk before a transaction: the volume is mounted and clean, the resident
superblock is the one on the disk, and the log holds nothing of the epoch to come. -/
structure CleanVolume (k : Kernel) : Prop where
  healthy : k.Healthy
  total32 : k.ataTotalSectors ≤ 2 ^ 32
  mounted : k.mounted = true
  writable : k.readOnly = false
  journalled : k.journalled = true
  depth : k.journalDepth = 0
  superBuf : k.superBuf = k.disk hbfsSuperblockLba
  state : k.superBuf.dword hbfsSbJrnlState = 0
  epoch : k.journalEpoch = k.superBuf.dword hbfsSbJrnlEpoch
  fresh : ∀ lba, InLog lba → ¬ IsRecord (k.disk lba) ((k.journalEpoch + 1) % 2 ^ 32)
  trace : k.trace = []

/-- The count of free blocks in a superblock. -/
def freeCount (sb : Sector) : Nat := sb.dword sbFreeBlocks

/-- The superblock with another count. -/
def superWith (d : Disk) (c : Nat) : Sector := (d hbfsSuperblockLba).setDword sbFreeBlocks c

/-- The volume with another count. -/
def withFree (d : Disk) (c : Nat) : Disk := Function.update d hbfsSuperblockLba (superWith d c)

/-- A mount of the disk `d'` recovers the volume of `d` with the free count `c`. -/
def MountsTo (total : Nat) (d d' : Disk) (c : Nat) : Prop :=
  SameVolume (mountedDisk total d') (withFree d c)

/-- The superblock carries the marker of the open transaction `epoch`. -/
def Marked (sb : Sector) (epoch : Nat) : Prop :=
  sb.dword hbfsSbJrnlState = 1 ∧ sb.dword hbfsSbJrnlEpoch = epoch

/-- The volume after `hbfs_journal_begin`. -/
def begun (d : Disk) (epoch : Nat) : Disk :=
  Function.update d hbfsSuperblockLba (restampSuperblock
    (((d hbfsSuperblockLba).setDword hbfsSbJrnlEpoch epoch).setDword hbfsSbJrnlState 1))

section Superblock

variable {d : Disk} {c c' e : Nat}

theorem sameOutsideJournal_superWith :
    SameOutsideJournal (superWith d c) (superWith d c') ↔ c % 2 ^ 32 = c' % 2 ^ 32 := by
  constructor
  · intro h
    have hdword : (superWith d c).dword sbFreeBlocks = (superWith d c').dword sbFreeBlocks :=
      h.dword (by decide)
    unfold superWith at hdword
    rwa [dword_setDword _ (by decide), dword_setDword _ (by decide)] at hdword
  · intro h
    unfold superWith
    rw [← setDword_mod _ (by decide), h, setDword_mod _ (by decide)]
    exact SameOutsideJournal.refl _

theorem superWith_freeCount : superWith d (freeCount (d hbfsSuperblockLba)) = d hbfsSuperblockLba :=
  setDword_dword _ (by decide)

theorem withFree_freeCount : withFree d (freeCount (d hbfsSuperblockLba)) = d := by
  unfold withFree
  rw [superWith_freeCount, update_eq_self]

theorem begun_superblock_marked (he : e < 2 ^ 32) : Marked (begun d e hbfsSuperblockLba) e := by
  unfold Marked begun
  rw [update_self, dword_restampSuperblock _ (by decide),
    dword_restampSuperblock _ (by decide), dword_setDword _ (by decide),
    dword_setDword_of_disjoint _ (by decide) _ (by decide), dword_setDword _ (by decide)]
  exact ⟨rfl, Nat.mod_eq_of_lt he⟩

theorem begun_superblock_same :
    SameOutsideJournal (begun d e hbfsSuperblockLba) (d hbfsSuperblockLba) := by
  unfold begun
  rw [update_self]
  exact (sameOutsideJournal_restamp _).trans
    ((sameOutsideJournal_setDword _ (.inl rfl) _).trans
      (sameOutsideJournal_setDword _ (.inr (.inr rfl)) _))

end Superblock

/-- Any disk of an open transaction is rolled back to the old volume, but for the free count. -/
theorem LogInv.mountsTo {d : Disk} {e : Nat} {recs : List (Nat × Sector)} {k : Kernel} {c : Nat}
    (h : LogInv (begun d e) ∅ recs k) (hend : StopsScan (logEnd k.disk recs) k.journalEpoch)
    (hroom : hbfsJournalLba + hbfsJournalSects ≤ k.ataTotalSectors)
    (hmark : Marked (k.disk hbfsSuperblockLba) k.journalEpoch)
    (hc : SameOutsideJournal (k.disk hbfsSuperblockLba) (superWith d c)) :
    MountsTo k.ataTotalSectors d k.disk c := by
  have hmounted : mountedDisk k.ataTotalSectors k.disk =
    recovered k.disk (k.disk hbfsSuperblockLba) recs := by
    refine mountedDisk_dirty hroom hmark.1 ?_ h.onDevice ?_
    · rw [hmark.2]
      exact h.log
    · rw [hmark.2]
      exact hend
  intro lba hlba
  rw [hmounted, recovered, withFree]
  by_cases hsb : lba = hbfsSuperblockLba
  · subst hsb
    rw [update_self, update_self, sameMeta_superblock]
    exact (sameOutsideJournal_clearState _).trans hc
  rw [update_of_ne hsb, update_of_ne hsb, sameMeta_of_ne hsb, afterWrites_of_values _ h.pre]
  have hbegun : begun d e lba = d lba := update_of_ne hsb _ _
  split
  · exact hbegun
  · next hl => rw [h.untouched lba hlba (by simp) hl, hbegun]

/-- A superblock the open transaction `e` may have on the disk: marked, with one of the counts. -/
def OpenSuper (d : Disk) (e : Nat) (counts : List Nat) (sb : Sector) : Prop :=
  Marked sb e ∧ ∃ c ∈ counts, SameOutsideJournal sb (superWith d c)

/-- A disk that a mount rolls back to the old volume with one of the counts. -/
def RollsBack (total : Nat) (d : Disk) (counts : List Nat) (d' : Disk) : Prop :=
  ∃ c ∈ counts, MountsTo total d d' c

/-- The kernel in the transaction `e` that began on the disk `d`. It has written the counts `done`
to the superblock and `ws` to other sectors, all of them in `targets`. -/
structure TxInv (d : Disk) (total e : Nat) (targets done : List Nat) (ws : List (Nat × Sector))
    (recs : List (Nat × Sector)) (k : Kernel) : Prop where
  inv : LogInv (begun d e) ∅ recs k
  fresh : Fresh recs k
  failed : k.journalFailed = false
  healthy : k.Healthy
  size : k.ataTotalSectors = total
  epoch : k.journalEpoch = e
  mounted : k.mounted = true
  writable : k.readOnly = false
  depth : k.journalDepth = 1
  keys : ∀ a ∈ recs.map Prod.fst, a ∈ targets
  resident : Marked k.superBuf e
  residentSame : SameOutsideJournal k.superBuf (superWith d (freeCount k.superBuf))
  onDisk : OpenSuper d e (freeCount (d hbfsSuperblockLba) :: done) (k.disk hbfsSuperblockLba)
  landed : ∀ lba, ¬ InLog lba → lba ≠ hbfsSuperblockLba → k.disk lba = afterWrites d ws lba
  cuts : Traced d (RollsBack total d (freeCount (d hbfsSuperblockLba) :: done)) k
  seen : ∀ c ∈ done, ∃ n ≤ k.trace.length, MountsTo total d (afterWrites d (k.trace.take n)) c

section Steps

variable {d : Disk} {total e : Nat} {targets done : List Nat} {ws recs : List (Nat × Sector)}
  {k : Kernel}

/-- A crash inside the transaction is rolled back by the mount. -/
theorem rollsBack_of_within {counts : List Nat}
    (h : LogInv (begun d e) ∅ recs' k') (hfresh : Fresh recs' k') (hepoch : k'.journalEpoch = e)
    (htotal : k'.ataTotalSectors = total) (hroom : hbfsJournalLba + hbfsJournalSects ≤ total)
    (hwithin : Within { o | OpenSuper d e counts (o hbfsSuperblockLba) } k'.disk) :
    RollsBack total d counts k'.disk := by
  obtain ⟨o, ⟨hmark, c, hc, hsame⟩, hout⟩ := hwithin
  have hsb := hout _ superblock_not_inLog
  have hfits := h.log.fits
  refine ⟨c, hc, ?_⟩
  rw [← htotal]
  refine h.mountsTo (.inl (hfresh _ le_rfl (by omega))) (by rwa [htotal]) ?_ ?_
  · rw [hsb, hepoch]
    exact hmark
  · rw [hsb]
    exact hsame

theorem TxInv.isV4 (h : TxInv d total e targets done ws recs k) :
    k.isV4 = ((d hbfsSuperblockLba).dword 0 == hbfs4Magic) := by
  unfold Kernel.isV4
  rw [h.residentSame.magic]
  unfold superWith
  rw [dword_setDword_of_disjoint _ (by decide) _ (by decide)]

/-- The invariant reads the device, the journal and the mount only. -/
theorem TxInv.congr (h : TxInv d total e targets done ws recs k) (hj : k'.journalled = true)
    (hdev : k'.toDevice = k.toDevice) (hstate : k'.toJournalState = k.toJournalState)
    (hmounted : k'.mounted = k.mounted) (hwritable : k'.readOnly = k.readOnly)
    (hres : Marked k'.superBuf e)
    (hsame : SameOutsideJournal k'.superBuf (superWith d (freeCount k'.superBuf))) :
    TxInv d total e targets done ws recs k' := by
  refine ⟨h.inv.congr hj hdev hstate, ?_, ?_, ?_, ?_, ?_, by rw [hmounted]; exact h.mounted,
    by rw [hwritable]; exact h.writable, ?_, h.keys, hres, hsame, ?_, ?_, ⟨?_, ?_⟩, ?_⟩ <;>
    simp only [Fresh, hdev, hstate]
  · exact h.fresh
  · exact h.failed
  · exact h.healthy
  · exact h.size
  · exact h.epoch
  · exact h.depth
  · exact h.onDisk
  · exact h.landed
  · exact h.cuts.disk
  · exact h.cuts.cuts
  · exact h.seen

/-- A new count in memory touches no sector. -/
theorem TxInv.setFree (h : TxInv d total e targets done ws recs k) (v : Nat) :
    TxInv d total e targets done ws recs
      { k with superBuf := k.superBuf.setDword sbFreeBlocks v } := by
  have hfree : freeCount (k.superBuf.setDword sbFreeBlocks v) = v % 2 ^ 32 :=
    dword_setDword _ (by decide) _
  refine h.congr ?_ rfl rfl rfl rfl ?_ ?_
  · have hj := h.inv.journalled
    unfold Kernel.journalled at hj ⊢
    rwa [dword_setDword_of_disjoint _ (by decide) _ (by decide)]
  · unfold Marked
    rw [dword_setDword_of_disjoint _ (by decide) _ (by decide),
      dword_setDword_of_disjoint _ (by decide) _ (by decide)]
    exact h.resident
  · have hoff : 4 ≤ sbFreeBlocks ∧ sbFreeBlocks + 4 ≤ 512 := by decide
    have hset := h.residentSame.setDword hoff v
    unfold superWith at hset ⊢
    rw [setDword_setDword] at hset
    rwa [hfree, setDword_mod _ (by decide)]

/-- A stamp in memory keeps it. -/
theorem TxInv.stampedFor (h : TxInv d total e targets done ws recs k) (lba : Nat) :
    TxInv d total e targets done ws recs (k.stampedFor lba) := by
  refine h.congr (h.inv.stampedFor lba).journalled rfl rfl rfl rfl ?_ ?_
  · unfold Marked
    rw [stampedFor_dword lba (by decide), stampedFor_dword lba (by decide)]
    exact h.resident
  · unfold freeCount
    rw [stampedFor_dword lba (by decide)]
    exact (sameOutsideJournal_stampedFor lba).trans h.residentSame

/-- Sectors that fit the log are logged. -/
theorem TxInv.no_failure (h : TxInv d total e targets done ws recs k)
    (hrun : MetaRun (begun d e) ∅ recs k lba src 0 cnt true recs' k')
    (htargets : ∀ j < cnt, lba + j ∈ targets) (hfits : targets.dedup.length ≤ 15)
    (hdev : ∀ j < cnt, lba + j < total) : False := by
  have hroom := h.healthy.bounds
  have hsize := h.size
  rcases (hrun.works h.healthy.faults).2 rfl with hsmall | ⟨j, hj, hfar | ⟨hnew, hfull⟩⟩
  · omega
  · have := hdev j hj
    rw [Nat.zero_add] at hfar
    omega
  rw [Nat.zero_add] at hnew
  have hnd : ((lba + j) :: recs'.map Prod.fst).Nodup := nodup_cons.mpr ⟨hnew, hrun.inv.nodup⟩
  have hsub : (lba + j) :: recs'.map Prod.fst ⊆ targets.dedup := by
    intro a ha
    rw [mem_dedup]
    rcases mem_cons.mp ha with rfl | ha
    · exact htargets j hj
    · rcases hrun.keys a ha with ha | ⟨i, hi, rfl⟩
      · exact h.keys a ha
      · rw [Nat.zero_add]
        exact htargets i hi
  have hlen := (hnd.subperm hsub).length_le
  rw [length_cons, length_map] at hlen
  omega

/-- What a run of metadata writes leaves of the invariant, whichever sectors it writes. -/
theorem TxInv.of_run (h : TxInv d total e targets done ws recs k)
    (hrun : MetaRun (begun d e) ∅ recs k lba src 0 cnt false recs' k')
    (htargets : ∀ j < cnt, lba + j ∈ targets) {done' : List Nat} {ws' : List (Nat × Sector)}
    (honDisk : OpenSuper d e (freeCount (d hbfsSuperblockLba) :: done') (k'.disk hbfsSuperblockLba))
    (hlanded : ∀ a, ¬ InLog a → a ≠ hbfsSuperblockLba → k'.disk a = afterWrites d ws' a)
    (hcuts : Traced d (RollsBack total d (freeCount (d hbfsSuperblockLba) :: done')) k')
    (hseen : ∀ c ∈ done', ∃ n ≤ k'.trace.length, MountsTo total d
      (afterWrites d (k'.trace.take n)) c) :
    TxInv d total e targets done' ws' recs' k' := by
  have hsame := hrun.same
  refine ⟨hrun.inv, hrun.fresh h.fresh, hrun.failed rfl,
    ⟨(hrun.works h.healthy.faults).1, by rw [hsame.total]; exact h.healthy.bounds⟩,
    hsame.total.trans h.size, hsame.epoch.trans h.epoch, hsame.mounted.trans h.mounted,
    hsame.readOnly.trans h.writable, hsame.depth.trans h.depth, ?_, ?_, ?_, honDisk, hlanded, hcuts,
    hseen⟩
  · intro a ha
    rcases hrun.keys a ha with ha | ⟨j, hj, rfl⟩
    · exact h.keys a ha
    · rw [Nat.zero_add]
      exact htargets j hj
  · unfold Marked
    rw [hsame.dword (by decide), hsame.dword (by decide)]
    exact h.resident
  · unfold freeCount
    rw [hsame.dword (by decide)]
    exact hsame.sameOutsideJournal.trans h.residentSame

theorem TxInv.seen_mono (h : TxInv d total e targets done ws recs k)
    (htrace : k.trace <+: k'.trace) :
    ∀ c ∈ done, ∃ n ≤ k'.trace.length, MountsTo total d (afterWrites d (k'.trace.take n)) c := by
  intro c hc
  obtain ⟨n, hn, hmount⟩ := h.seen c hc
  obtain ⟨rest, hrest⟩ := htrace
  refine ⟨n, ?_, ?_⟩
  · rw [← hrest, length_append]
    omega
  · rwa [← hrest, take_append_of_le_length hn]

/-- A metadata write inside the transaction. -/
theorem TxInv.metaRun (h : TxInv d total e targets done ws recs k)
    (hrun : MetaRun (begun d e) ∅ recs k lba src 0 cnt false recs' k')
    (htargets : ∀ j < cnt, lba + j ∈ targets) (hsrc : src ≠ .superBuf)
    (hsb : ∀ j < cnt, lba + j ≠ hbfsSuperblockLba) :
    TxInv d total e targets done
      (ws ++ (List.range cnt).map fun j => (lba + j, k.metaSector src j)) recs' k' := by
  obtain ⟨n, ws', -, hn, hws', -, hout⟩ := hrun.landed
  obtain rfl := hn rfl
  have heq := hws'.eq hsrc
  simp only [Nat.zero_add] at heq
  subst heq
  have hsuper : k'.disk hbfsSuperblockLba = k.disk hbfsSuperblockLba := by
    rw [hout _ superblock_not_inLog]
    refine afterWrites_of_notMem _ fun hmem => ?_
    simp only [map_map, mem_map, mem_range, comp_apply] at hmem
    obtain ⟨j, hj, hj'⟩ := hmem
    exact hsb j hj hj'
  refine h.of_run hrun htargets (by rw [hsuper]; exact h.onDisk) ?_ ?_
    (h.seen_mono hrun.same.trace)
  · intro a ha hne
    rw [hout a ha, afterWrites_append]
    exact afterWrites_congr_at _ (h.landed a ha hne)
  refine hrun.traced { o | OpenSuper d e (freeCount (d hbfsSuperblockLba) :: done)
    (o hbfsSuperblockLba) } ⟨k.disk, h.onDisk, fun _ _ => rfl⟩ ?_ d _ ?_ h.cuts
  · grind
  · intro recs'' k'' hinv hfr hwithin hep htot
    exact rollsBack_of_within hinv (hfr h.fresh) (hep.trans h.epoch) (htot.trans h.size)
      (h.size ▸ h.healthy.bounds) hwithin

/-- Writing the superblock: from now on a cut may bring its count back. -/
theorem TxInv.superRun (h : TxInv d total e targets done ws recs k)
    (hrun : MetaRun (begun d e) ∅ recs k hbfsSuperblockLba .superBuf 0 1 false recs' k')
    (htarget : hbfsSuperblockLba ∈ targets) :
    TxInv d total e targets (done ++ [freeCount k.superBuf]) ws recs' k' := by
  set counts := freeCount (d hbfsSuperblockLba) :: (done ++ [freeCount k.superBuf]) with hcounts
  have hsub : ∀ c ∈ freeCount (d hbfsSuperblockLba) :: done, c ∈ counts := by grind
  have hopen : OpenSuper d e counts (k.disk hbfsSuperblockLba) := by
    obtain ⟨hmark, c, hc, hsame⟩ := h.onDisk
    exact ⟨hmark, c, hsub c hc, hsame⟩
  -- The resident superblock is one the transaction may have on the disk.
  have hsrc : ∀ i s, SrcSector k .superBuf i s → OpenSuper d e counts s ∧
      SameOutsideJournal s (superWith d (freeCount k.superBuf)) := by
    rintro i s ⟨k1, hsame, rfl⟩
    have hfinal := hsame.sameOutsideJournal.trans h.residentSame
    refine ⟨⟨?_, _, by simp [hcounts], hfinal⟩, hfinal⟩
    unfold Marked Kernel.metaSector
    rw [hsame.dword (by decide), hsame.dword (by decide)]
    exact h.resident
  obtain ⟨n, ws', -, hn, ⟨hlen, hws'⟩, -, hout⟩ := hrun.landed
  obtain rfl := hn rfl
  obtain ⟨w, rfl⟩ := length_eq_one_iff.mp hlen
  obtain ⟨s, hs, hsector⟩ := hws' 0 (by norm_num)
  simp only [getElem?_cons_zero, Option.some.injEq, Nat.add_zero] at hs
  subst hs
  obtain ⟨hopen', hsame'⟩ := hsrc _ s hsector
  have hsuper : k'.disk hbfsSuperblockLba = s := by
    rw [hout _ superblock_not_inLog, afterWrites_cons, afterWrites_nil]
    exact update_self _ _ _
  have hcuts : Traced d (RollsBack total d counts) k' := by
    refine hrun.traced { o | OpenSuper d e counts (o hbfsSuperblockLba) }
      ⟨k.disk, hopen, fun _ _ => rfl⟩ ?_ d _ ?_ ⟨h.cuts.disk, h.cuts.cuts.mono ?_⟩
    · intro o ho j hj s' hs'
      obtain rfl : j = 0 := by omega
      show OpenSuper _ _ _ (update o hbfsSuperblockLba s' hbfsSuperblockLba)
      rw [update_self]
      exact (hsrc _ s' hs').1
    · intro recs'' k'' hinv hfr hwithin hep htot
      exact rollsBack_of_within hinv (hfr h.fresh) (hep.trans h.epoch) (htot.trans h.size)
        (h.size ▸ h.healthy.bounds) hwithin
    · rintro d' ⟨c, hc, hmount⟩
      exact ⟨c, hsub c hc, hmount⟩
  have hsize := hrun.same.total.trans h.size
  refine h.of_run hrun (fun j hj => ?_) (by rw [hsuper]; exact hopen') ?_ hcuts ?_
  · obtain rfl : j = 0 := by omega
    exact htarget
  · intro a ha hne
    rw [hout a ha, afterWrites_cons, afterWrites_nil, update_of_ne hne]
    exact h.landed a ha hne
  intro c hc
  rcases mem_append.mp hc with hc | hc
  · exact h.seen_mono hrun.same.trace c hc
  rw [mem_singleton.mp hc]
  refine ⟨k'.trace.length, le_rfl, ?_⟩
  rw [take_length, ← hcuts.disk, ← hsize]
  have hfits := hrun.inv.log.fits
  refine hrun.inv.mountsTo (.inl (hrun.fresh h.fresh _ le_rfl (by omega))) ?_ ?_ ?_
  · rw [hsize, ← h.size]
    exact h.healthy.bounds
  · rw [hsuper, hrun.same.epoch, h.epoch]
    exact hopen'.1
  · rw [hsuper]
    exact hsame'

end Steps

end Mellivora
