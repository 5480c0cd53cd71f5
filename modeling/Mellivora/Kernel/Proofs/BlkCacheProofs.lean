import Mellivora.Lib.Runs
import Mellivora.Kernel.BlkCache
import Mellivora.Kernel.Proofs.AtaProofs

/-!
# The block cache is transparent where no transfer is torn

Every entry with a tag holds the block its tag names. Refills and flushes keep this so; what can
break it is a transfer that fails for good after it has moved some sectors, because then the tags
stay as they were while an entry, or the disk under an entry, has changed.
-/

namespace Mellivora

open Outcome WriteLog Function List

variable {i : Nat}

/-- Every block in the cache is that of the disk. -/
def Coherent (k : Kernel) : Prop :=
  ∀ i < blkCacheEntries, k.blkCacheTags i ≠ 0 → ∀ j < blkCacheSectors, k.blkCacheData i j =
    k.disk (k.cachedLba i j)

variable {k : Kernel} {lba cnt : Nat}

theorem coherent_of_empty (h : ∀ i < blkCacheEntries, k.blkCacheTags i = 0) : Coherent k :=
  fun i hi htag => absurd (h i hi) htag

theorem cacheIndex?_eq_some {tag : Nat} (h : k.cacheIndex? tag = some i) :
    i < blkCacheEntries ∧ k.blkCacheTags i = tag := by
  have hmem := mem_of_find?_eq_some h
  have htag := find?_some h
  exact ⟨mem_range.mp hmem, by simpa using htag⟩

theorem wholeDataBlock_iff : wholeDataBlock lba cnt = true ↔
    cnt = blkCacheSectors ∧ hbfsDataStart ≤ lba ∧ (lba - hbfsDataStart) % blkCacheSectors = 0 := by
  simp [wholeDataBlock, and_assoc]

theorem blockTag_lba (h : wholeDataBlock lba cnt = true) :
    hbfsDataStart + blkCacheSectors * (blockTag lba - 1) = lba := by
  obtain ⟨-, hle, hmod⟩ := wholeDataBlock_iff.mp h
  have hdiv := Nat.div_add_mod (lba - hbfsDataStart) blkCacheSectors
  unfold blockTag
  rw [Nat.add_sub_cancel]
  omega

theorem cachedLba_of_tag (h : wholeDataBlock lba cnt = true)
    (htag : k.blkCacheTags i = blockTag lba) (j : Nat) : k.cachedLba i j = lba + j := by
  unfold Kernel.cachedLba
  rw [htag, blockTag_lba h]

/-- A hit is what the disk holds. -/
theorem Coherent.cachedBlock (hk : Coherent k) (h : wholeDataBlock lba cnt = true)
    (hi : i < blkCacheEntries)
    (htag : k.blkCacheTags i = blockTag lba) : k.cachedBlock i = sectorsAt k.disk lba cnt := by
  have htag0 : k.blkCacheTags i ≠ 0 := by
    rw [htag]
    exact Nat.succ_ne_zero _
  rw [(wholeDataBlock_iff.mp h).1]
  refine map_congr_left fun j hj => ?_
  rw [hk i hi htag0 j (mem_range.mp hj), cachedLba_of_tag h htag]

theorem Kernel.fillEntry_nil (k : Kernel) (slot : Nat) : k.fillEntry slot [] = k := by
  simp [Kernel.fillEntry]

theorem Coherent.fillEntry (hk : Coherent k) {slot : Nat} (hslot : k.blkCacheTags slot = 0)
    (data : List Sector) : Coherent (k.fillEntry slot data) := by
  intro i hi htag j hj
  have hne : i ≠ slot := fun heq => htag (heq ▸ hslot)
  simp only [Kernel.fillEntry, update_of_ne hne]
  exact hk i hi htag j hj

theorem getElem?_sectorsAt (d : Disk) {n j : Nat} (hj : j < n) :
    (sectorsAt d lba n)[j]? = some (d (lba + j)) := by
  simp [sectorsAt, hj]

theorem sectorsAt_add (d : Disk) (lba m n : Nat) :
    sectorsAt d lba (m + n) = sectorsAt d lba m ++ sectorsAt d (lba + m) n := by
  simp [sectorsAt, range_add, comp_def, Nat.add_assoc]

/-- A block read from the disk may be cached. -/
theorem Coherent.refill (hk : Coherent k) (h : wholeDataBlock lba cnt = true) (slot : Nat) :
    Coherent { k.fillEntry slot (sectorsAt k.disk lba cnt) with
      blkCacheTags := Function.update k.blkCacheTags slot (blockTag lba) } := by
  intro i hi htag j hj
  by_cases heq : i = slot
  · subst heq
    have hj' : j < cnt := by rwa [(wholeDataBlock_iff.mp h).1]
    rw [cachedLba_of_tag h (update_self ..)]
    simp only [Kernel.fillEntry, update_self, getElem?_sectorsAt _ hj', Option.getD_some]
  · simp only [Kernel.fillEntry, Kernel.cachedLba, update_of_ne heq] at htag ⊢
    exact hk i hi htag j hj

/-- A read that succeeds answers what the disk holds. -/
def ReadsDisk (k : Kernel) (lba cnt : Nat) (r : Bool × List Sector) (k' : Kernel) : Prop :=
  Coherent k' ∧ k'.disk = k.disk ∧ (r.1 = false → r.2 = sectorsAt k.disk lba cnt)

/-- A read that succeeds returns the block on the disk; one that fails must be harmless to leave the
cache as it was. -/
theorem Coherent.yields_readSingle_of (hk : Coherent k) :
    Yields (blkCacheReadSingle lba cnt)
      (fun r k' => (r.1 = true → readHarmless lba cnt k) → ReadsDisk k lba cnt r k') k := by
  simp only [blkCacheReadSingle, yields_bind, yields_ite]
  split
  · -- Not a whole data block: the device is read.
    exact yields_ataReadSectors (fun _ _ => ⟨hk, rfl, by simp⟩)
      (fun fs _ _ _ => ⟨hk, rfl, fun _ => rfl⟩)
      fun fs n _ _ _ => ⟨hk, rfl, by simp⟩
  next hblock =>
  have hblock : wholeDataBlock lba cnt = true := by simpa using hblock
  obtain ⟨rfl, -, -⟩ := wholeDataBlock_iff.mp hblock
  rw [yields_get]
  cases hentry : k.cacheIndex? (blockTag lba) with
  | some i =>
    obtain ⟨hi, htag⟩ := cacheIndex?_eq_some hentry
    simp only [yields_rules]
    exact fun _ => ⟨hk, rfl, fun _ => hk.cachedBlock hblock hi htag⟩
  | none =>
  simp only [yields_rules]
  refine yields_ataReadSectors (fun _ => ?_) (fun fs _ _ => ?_) fun fs n hb hfail => ?_
  · simp only [Kernel.fillEntry_nil]
    exact fun _ => ⟨hk, rfl, by simp⟩
  · dsimp only
    rw [if_neg (by simp)]
    have hfull := Coherent.refill (k := { k with blkCacheHand := k.blkCacheHand + 1, faults := fs })
      hk hblock (k.blkCacheHand % blkCacheEntries)
    exact fun _ =>
      ⟨hfull, rfl, fun _ => hfull.cachedBlock hblock (Nat.mod_lt _ (by decide)) (update_self ..)⟩
  · -- The entry keeps its tag, so it must not hold a block when sectors were moved into it.
    dsimp only
    intro hsafe
    refine ⟨?_, rfl, by simp⟩
    rcases Nat.eq_zero_or_pos n with rfl | hn
    · rw [show sectorsAt k.disk lba 0 = [] from rfl, Kernel.fillEntry_nil]
      exact hk
    · have hslot := hsafe trivial hblock hentry n ⟨hb, hfail, hn⟩
      exact Coherent.fillEntry hk (not_not.mp hslot) _

theorem Coherent.yields_readSingle (hk : Coherent k) (hsafe : readHarmless lba cnt k) :
    Yields (blkCacheReadSingle lba cnt) (fun r k' => ReadsDisk k lba cnt r k') k :=
  hk.yields_readSingle_of.mono fun _ _ h => h fun _ => hsafe

theorem Coherent.yields_readBlock (hk : Coherent k) (lba : Nat) :
    Yields (blkCacheRead lba hbfsSectorsPerBlk)
      (fun r k' => r.1 = false → ReadsDisk k lba hbfsSectorsPerBlk r k') k := by
  rw [blkCacheRead, if_pos (Or.inl (by decide))]
  refine hk.yields_readSingle_of.mono fun r k' h hcf => h fun htrue => ?_
  simp [hcf] at htrue

/-- A run of blocks is read as the disk has it. -/
theorem Coherent.yields_readRun (hk : Coherent k) (blocks : Nat)
    (hsafe : runHarmless lba blocks k) :
    Yields (blkCacheReadRun lba blocks)
    (fun r k' => ReadsDisk k lba (blocks * blkCacheSectors) r k') k := by
  induction blocks generalizing lba k with
  | zero =>
    refine yields_pure.mpr ⟨hk, rfl, fun _ => ?_⟩
    simp [sectorsAt]
  | succ blocks ih =>
  obtain ⟨hfirst, hrest⟩ := hsafe
  simp only [blkCacheReadRun, yields_rules]
  refine ((hk.yields_readSingle hfirst).and hrest).mono fun r k1 hr => ?_
  obtain ⟨⟨hk1, hdisk, hdata⟩, hrest⟩ := hr
  split
  · exact ⟨hk1, hdisk, by simp⟩
  next hcf =>
  rw [Bool.not_eq_true] at hcf
  refine (ih hk1 (hrest hcf)).mono fun r' k2 hr' => ?_
  obtain ⟨hk2, hdisk', hdata'⟩ := hr'
  refine ⟨hk2, hdisk'.trans hdisk, fun hcf' => ?_⟩
  rw [hdata hcf, hdata' hcf', hdisk, ← sectorsAt_add, Nat.succ_mul, Nat.add_comm]

/-- A read through the cache answers what the disk holds. -/
theorem Coherent.yields_read (hk : Coherent k) (hsafe : (CacheOp.read lba cnt).Harmless k) :
    Yields (blkCacheRead lba cnt) (fun r k' => ReadsDisk k lba cnt r k') k := by
  simp only [CacheOp.Harmless] at hsafe
  simp only [blkCacheRead, yields_ite]
  split at hsafe
  · next hsingle =>
    rw [if_pos hsingle]
    exact hk.yields_readSingle hsafe
  · next hrun =>
    rw [if_neg hrun]
    rw [not_or, not_not] at hrun
    have hreads := hk.yields_readRun _ hsafe
    rwa [Nat.div_mul_cancel (Nat.dvd_of_mod_eq_zero hrun.2)] at hreads

/-! ## On a device that works -/

theorem yields_readSingle_of_nil (hf : k.faults = []) (lba cnt : Nat) :
    Yields (blkCacheReadSingle lba cnt)
    (fun _ k' => ∃ c : BlkCache, k' = { k with toBlkCache := c }) k := by
  simp only [blkCacheReadSingle, yields_bind, yields_ite]
  split
  · exact yields_ataReadSectors_of_nil hf (fun _ => ⟨k.toBlkCache, rfl⟩) fun _ =>
      ⟨k.toBlkCache, rfl⟩
  rw [yields_get]
  cases k.cacheIndex? (blockTag lba) with
  | some i => exact ⟨k.toBlkCache, rfl⟩
  | none =>
    simp only [yields_rules]
    refine yields_ataReadSectors_of_nil (k := { k with blkCacheHand := k.blkCacheHand + 1 }) hf
      (fun _ => ?_) fun _ => ?_
    · exact ⟨_, rfl⟩
    · exact ⟨_, rfl⟩

theorem yields_readRun_of_nil (hf : k.faults = []) (lba blocks : Nat) :
    Yields (blkCacheReadRun lba blocks)
    (fun _ k' => ∃ c : BlkCache, k' = { k with toBlkCache := c }) k := by
  induction blocks generalizing k lba with
  | zero => exact yields_pure.mpr ⟨k.toBlkCache, rfl⟩
  | succ blocks ih =>
  simp only [blkCacheReadRun, yields_rules]
  refine (yields_readSingle_of_nil hf lba _).mono fun r k1 ⟨c, hc⟩ => ?_
  subst hc
  split
  · exact ⟨c, rfl⟩
  · refine (ih (k := { k with toBlkCache := c }) hf _).mono fun r k2 ⟨c', hc'⟩ => ?_
    subst hc'
    exact ⟨c', rfl⟩

theorem yields_blkCacheRead_of_nil (hf : k.faults = []) (lba cnt : Nat) :
    Yields (blkCacheRead lba cnt) (fun _ k' => ∃ c : BlkCache, k' = { k with toBlkCache := c })
    k := by
  simp only [blkCacheRead, yields_ite]
  split
  · exact yields_readSingle_of_nil hf lba cnt
  · exact yields_readRun_of_nil hf lba _

theorem yields_readBlock_of_nil (hf : k.faults = [])
    (hb : lba + hbfsSectorsPerBlk ≤ k.ataTotalSectors) :
    Yields (blkCacheRead lba hbfsSectorsPerBlk) (fun r _ => r.1 = false) k := by
  have hper : hbfsSectorsPerBlk = 8 := rfl
  have hin : ∀ k1 : Kernel, k1.ataTotalSectors = k.ataTotalSectors →
    ¬ outOfBounds k1 lba hbfsSectorsPerBlk = true := by
    intro k1 htotal hoob
    simp only [outOfBounds, Bool.or_eq_true, decide_eq_true_eq, htotal] at hoob
    omega
  rw [blkCacheRead, if_pos (Or.inl (by decide))]
  simp only [blkCacheReadSingle, yields_bind, yields_ite]
  split
  · exact yields_ataReadSectors_of_nil hf (fun hoob => absurd hoob (hin k rfl)) fun _ => rfl
  rw [yields_get]
  cases k.cacheIndex? (blockTag lba) with
  | some i => rfl
  | none =>
  simp only [yields_rules]
  refine yields_ataReadSectors_of_nil (k := { k with blkCacheHand := k.blkCacheHand + 1 }) hf
    (fun hoob => absurd hoob (hin _ rfl)) fun _ => ?_
  dsimp only
  rw [if_neg Bool.false_ne_true]
  trivial

/-- A write flushes the cache, or fails where nothing was cached. -/
theorem Coherent.yields_write (hk : Coherent k) {data : List Sector}
    (hsafe : writeHarmless lba data.length k) :
    Yields (ataWriteSectors lba data) (fun _ k' => Coherent k') k := by
  refine yields_ataWriteSectors (fun _ => hk)
    (fun fs n ws _ _ _ => coherent_of_empty fun _ _ => rfl)
    fun fs n ws hb hfail hpart => ?_
  intro i hi htag j hj
  have hout : k.cachedLba i j ∉ ws.map Prod.fst := by
    intro hmem
    obtain ⟨w, hw, hlba⟩ := mem_map.mp hmem
    obtain ⟨m, hm, -, hw1⟩ := hpart w hw
    exact hsafe n ⟨hb, hfail, by omega⟩ i hi htag j hj m hm (hlba.symm.trans hw1)
  show k.blkCacheData i j = afterWrites k.disk ws (k.cachedLba i j)
  rw [afterWrites_of_notMem _ hout]
  exact hk i hi htag j hj

theorem Coherent.step (op : CacheOp) (hk : Coherent k) (hsafe : op.Harmless k) :
    Coherent (op.step k) := by
  cases op with
  | read lba cnt => exact (hk.yields_read hsafe).1
  | write lba data => exact hk.yields_write hsafe
  | ataWrite lba data => exact hk.yields_write hsafe

/-- A harmless operation answers what the disk holds. -/
theorem Coherent.exact (op : CacheOp) (hk : Coherent k) (hsafe : op.Harmless k) : op.Exact k := by
  cases op with
  | read lba cnt =>
    simp only [CacheOp.Exact]
    refine (hk.yields_read hsafe).mono fun r k' hr => ?_
    rw [hr.2.1]
    exact hr.2.2
  | write lba data => trivial
  | ataWrite lba data => trivial

/-- Along every run from an empty cache in which no torn transfer leaves a block of the cache behind
that is not on the disk, every read that succeeds returns what is on the disk. -/
theorem blkCache_transparent (ops : List CacheOp)
    (hempty : ∀ i < blkCacheEntries, k.blkCacheTags i = 0)
    (hsafe : Runs.Along CacheOp.step CacheOp.Harmless ops k) :
    Runs.Along CacheOp.step CacheOp.Exact ops k :=
  hsafe.guarantee (fun op _ hk h => hk.step op h) (fun op _ hk h => hk.exact op h)
    (coherent_of_empty hempty)

/-! ## A torn write -/

/-- A blank device that breaks off a command, its repetition and the one after it, each past its
first sector; the command before them works. -/
def tornDevice : Kernel :=
  { ataTotalSectors := 20000, faults := [none, some 1, some 1, some 1] }

/-- Read a data block, overwrite it, read it again. -/
def rereadBlock : List CacheOp :=
  [.read hbfsDataStart 8, .ataWrite hbfsDataStart (List.replicate 8 (Sector.zero.setDword 0 1)),
    .read hbfsDataStart 8]

/-- The write fails after one sector, and the cache still answers with the old one. -/
theorem rereadBlock_stale :
    (∀ i < blkCacheEntries, tornDevice.blkCacheTags i = 0) ∧
      ¬ Runs.Along CacheOp.step CacheOp.Exact rereadBlock tornDevice := by
  refine ⟨fun _ _ => rfl, fun h => ?_⟩
  have hread := h.2.2.1 rfl
  have hbyte := congrArg (fun data => data.head?.map (Sector.byteAt · 0)) hread
  revert hbyte
  decide

/-- When the device works again before the tries run out, the same run is transparent. -/
theorem blkCache_transparent_rereadBlock :
    (∀ i < blkCacheEntries, { tornDevice with faults := [none, some 1] }.blkCacheTags i = 0) ∧
      Runs.Along CacheOp.step CacheOp.Exact rereadBlock
        { tornDevice with faults := [none, some 1] } := by
  refine ⟨fun _ _ => rfl, blkCache_transparent _ (fun _ _ => rfl) ⟨?_, ?_, ?_, trivial⟩⟩
  · rintro - - n ⟨-, hfail, -⟩
    cases hfail
  · rintro n ⟨-, hfail, -⟩
    cases hfail
  · rintro - - n ⟨-, hfail, -⟩
    cases hfail

end Mellivora
