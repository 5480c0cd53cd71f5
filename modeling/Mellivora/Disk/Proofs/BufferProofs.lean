import Mellivora.Disk.Buffer
import Mellivora.Disk.Proofs.SectorProofs

/-!
# Buffers byte by byte and bit by bit

What storing into a buffer changes, by sectors, bytes and bits.
-/

namespace Mellivora

open Nat

namespace Buffer

variable {buf buf' : Buffer} {i off off' v : Nat}

/-! ## Sectors -/

theorem sector_ofDisk (d : Nat → Sector) (lba i : Nat) : (ofDisk d lba).sector i = d (lba + i) := by
  have hdiv : ∀ j : Fin 512, (512 * i + j.val) / 512 = i := fun j => by omega
  have hmod : ∀ j : Fin 512, (512 * i + j.val) % 512 = j.val := fun j => by omega
  refine Sector.ext (funext fun j => ?_)
  simp only [sector, ofDisk, hdiv, hmod]

theorem eq_of_sector (h : buf.sector (i / 512) = buf'.sector (i / 512)) : buf i = buf' i := by
  have hbyte := congrFun (congrArg Sector.bytes h) ⟨i % 512, mod_lt i (by decide)⟩
  simpa only [sector, div_add_mod] using hbyte

theorem ofDisk_congr {d d' : Nat → Sector} {lba cnt : Nat}
    (h : ∀ m < cnt, d' (lba + m) = d (lba + m))
    (hi : i < 512 * cnt) : ofDisk d' lba i = ofDisk d lba i := by
  refine eq_of_sector ?_
  rw [sector_ofDisk, sector_ofDisk]
  exact h _ (by omega)

theorem sector_congr (h : ∀ j, 512 * i ≤ j → j < 512 * i + 512 → buf j = buf' j) :
    buf.sector i = buf'.sector i :=
  Sector.ext (funext fun j => h _ (by omega) (by omega))

/-! ## Double words -/

theorem dword_congr {off : Nat} (h : ∀ i, off ≤ i → i < off + 4 → buf i = buf' i) :
    buf.dword off = buf'.dword off := by
  unfold dword
  rw [h off (by omega) (by omega), h (off + 1) (by omega) (by omega),
    h (off + 2) (by omega) (by omega),
    h (off + 3) (by omega) (by omega)]

theorem dword_lt (buf : Buffer) (off : Nat) : buf.dword off < 2 ^ 32 := by
  have h0 := (buf off).toNat_lt
  have h1 := (buf (off + 1)).toNat_lt
  have h2 := (buf (off + 2)).toNat_lt
  have h3 := (buf (off + 3)).toNat_lt
  unfold dword
  omega

theorem setDword_apply_of_outside {off v i : Nat} (h : i < off ∨ off + 4 ≤ i) :
    buf.setDword off v i = buf i := by
  rw [setDword, if_neg (by omega)]

theorem dword_setDword_of_apart (h : off' + 4 ≤ off ∨ off + 4 ≤ off') :
    (buf.setDword off v).dword off' = buf.dword off' :=
  dword_congr fun i _ _ => setDword_apply_of_outside (by omega)

theorem dword_setDword_self (h : v < 2 ^ 32) : (buf.setDword off v).dword off = v := by
  have hbyte : ∀ j < 4, (buf.setDword off v (off + j)).toNat = v / 2 ^ (8 * j) % 256 := by
    intro j hj
    rw [setDword, if_pos (by omega), Nat.add_sub_cancel_left]
    exact UInt8.toNat_ofNat'
  unfold dword
  rw [show buf.setDword off v off = buf.setDword off v (off + 0) from rfl, hbyte 0 (by omega),
    hbyte 1 (by omega), hbyte 2 (by omega), hbyte 3 (by omega)]
  simp only [mul_zero, pow_zero, mul_one, reduceMul, reducePow]
  omega

theorem setDword_dword (buf : Buffer) (off : Nat) : buf.setDword off (buf.dword off) = buf := by
  have h0 := (buf off).toNat_lt
  have h1 := (buf (off + 1)).toNat_lt
  have h2 := (buf (off + 2)).toNat_lt
  have h3 := (buf (off + 3)).toNat_lt
  funext i
  by_cases hi : off ≤ i ∧ i < off + 4
  · apply UInt8.toNat_inj.mp
    rw [setDword, if_pos hi, UInt8.toNat_ofNat']
    obtain rfl | rfl | rfl | rfl : i = off ∨ i = off + 1 ∨ i = off + 2 ∨ i = off + 3 := by omega
    all_goals
      simp only [dword, Nat.sub_self, Nat.add_sub_cancel_left]
      omega
  · rw [setDword, if_neg hi]

theorem setDword_setDword (buf : Buffer) (off v v' : Nat) :
    (buf.setDword off v).setDword off v' = buf.setDword off v' := by
  funext i
  simp only [setDword]
  split_ifs <;> rfl

theorem setDword_comm {off off' v v' : Nat} (h : off' + 4 ≤ off ∨ off + 4 ≤ off') :
    (buf.setDword off v).setDword off' v' = (buf.setDword off' v').setDword off v := by
  funext i
  simp only [setDword]
  split <;> split <;> first | rfl | omega

/-! ## Words -/

theorem word_congr {off : Nat} (h : ∀ i, off ≤ i → i < off + 2 → buf i = buf' i) :
    buf.word off = buf'.word off := by
  unfold word
  rw [h off (by omega) (by omega), h (off + 1) (by omega) (by omega)]

theorem word_lt (buf : Buffer) (off : Nat) : buf.word off < 2 ^ 16 := by
  have h0 := (buf off).toNat_lt
  have h1 := (buf (off + 1)).toNat_lt
  unfold word
  omega

theorem eq_zero_of_word {off i : Nat} (h : buf.word off = 0) (hi : off ≤ i) (hi' : i < off + 2) :
    buf i = 0 := by
  unfold word at h
  obtain rfl | rfl : i = off ∨ i = off + 1 := by omega
  · exact UInt8.toNat_inj.mp (show (buf i).toNat = 0 by omega)
  · exact UInt8.toNat_inj.mp (show (buf (off + 1)).toNat = 0 by omega)

theorem dword_eq_words (buf : Buffer) (off : Nat) :
    buf.dword off = buf.word off + 2 ^ 16 * buf.word (off + 2) := by
  unfold dword word
  rw [add_assoc off 2 1]
  omega

theorem setWord_apply_of_outside {off v i : Nat} (h : i < off ∨ off + 2 ≤ i) :
    buf.setWord off v i = buf i := by
  rw [setWord, if_neg (by omega)]

theorem dword_setWord_of_apart (h : off' + 4 ≤ off ∨ off + 2 ≤ off') :
    (buf.setWord off v).dword off' = buf.dword off' :=
  dword_congr fun i _ _ => setWord_apply_of_outside (by omega)

theorem word_setWord_of_apart (h : off' + 2 ≤ off ∨ off + 2 ≤ off') :
    (buf.setWord off v).word off' = buf.word off' :=
  word_congr fun i _ _ => setWord_apply_of_outside (by omega)

theorem word_setDword_of_apart (h : off' + 2 ≤ off ∨ off + 4 ≤ off') :
    (buf.setDword off v).word off' = buf.word off' :=
  word_congr fun i _ _ => setDword_apply_of_outside (by omega)

theorem word_setWord_self : (buf.setWord off v).word off = v % 2 ^ 16 := by
  have hbyte : ∀ j < 2, (buf.setWord off v (off + j)).toNat = v / 2 ^ (8 * j) % 256 := by
    intro j hj
    rw [setWord, if_pos (by omega), Nat.add_sub_cancel_left]
    exact UInt8.toNat_ofNat'
  unfold word
  rw [show buf.setWord off v off = buf.setWord off v (off + 0) from rfl, hbyte 0 (by omega),
    hbyte 1 (by omega)]
  simp only [mul_zero, pow_zero, mul_one, reducePow]
  omega

theorem word_setDword (h : v < 2 ^ 32) :
    (buf.setDword off v).word off = v % 2 ^ 16 ∧ (buf.setDword off v).word (off + 2) =
    v / 2 ^ 16 := by
  have hself := @dword_setDword_self buf off v h
  have hlow := word_lt (buf.setDword off v) off
  have hhigh := word_lt (buf.setDword off v) (off + 2)
  rw [dword_eq_words] at hself
  omega

/-! ## Bits -/

theorem mask_testBit :
    ∀ r < 8, ∀ j < 8, ((1 : UInt8) <<< UInt8.ofNat r).toNat.testBit j = decide (j = r) := by decide

theorem not_mask_testBit : ∀ r < 8, ∀ j < 8,
    (~~~((1 : UInt8) <<< UInt8.ofNat r)).toNat.testBit j = decide (j ≠ r) := by decide

/-- One bit changes. -/
theorem bit_setBit (buf : Buffer) (n m : Nat) (b : Bool) :
    (buf.setBit n b).bit m = if m = n then b else buf.bit m := by
  have hn : n % 8 < 8 := mod_lt _ (by decide)
  have hm : m % 8 < 8 := mod_lt _ (by decide)
  unfold bit setBit
  by_cases hbyte : m / 8 = n / 8
  · have hbit : m % 8 = n % 8 ↔ m = n := by omega
    cases b with
    | true =>
      simp only [hbyte, if_true, UInt8.toNat_or, testBit_or, mask_testBit _ hn _ hm, hbit]
      by_cases heq : m = n <;> simp [heq]
    | false =>
      simp only [hbyte, if_true, Bool.false_eq_true, if_false, UInt8.toNat_and, testBit_and,
        not_mask_testBit _ hn _ hm, ne_eq, hbit]
      by_cases heq : m = n <;> simp [heq]
  · have hne : m ≠ n := fun heq => hbyte (by rw [heq])
    simp only [hbyte, hne, if_false]

/-- Exactly the bits of the range change. -/
theorem bit_setBits (buf : Buffer) (b : Bool) (n cnt m : Nat) :
    (buf.setBits b n cnt).bit m = if n ≤ m ∧ m < n + cnt then b else buf.bit m := by
  induction cnt with
  | zero =>
    rw [if_neg (by omega)]
    rfl
  | succ cnt ih =>
    rw [setBits, bit_setBit, ih]
    by_cases heq : m = n + cnt
    · rw [if_pos heq, if_pos (by omega)]
    · rw [if_neg heq]
      exact if_congr (by omega) rfl rfl

theorem setBits_apply_of_outside (buf : Buffer) (b : Bool) {n cnt i : Nat}
    (h : i < n / 8 ∨ n + cnt ≤ 8 * i) : buf.setBits b n cnt i = buf i := by
  induction cnt with
  | zero => rfl
  | succ cnt ih =>
    rw [setBits, setBit, if_neg (by omega)]
    exact ih (by omega)

/-! ## The trailer -/

theorem stampRun_apply (buf : Buffer) {len i : Nat} (h : i < len - hbfs4RunChecksumBytes ∨ len ≤ i)
    (hlen : hbfs4RunChecksumBytes ≤ len) : buf.stampRun len i = buf i := by
  have h4 : hbfs4RunChecksumBytes = 4 := rfl
  simp only [stampRun, setDword]
  rw [if_neg (by omega), if_neg (by omega)]

theorem setBits_congr {buf buf' : Buffer} (b : Bool) (n cnt : Nat) (h : buf i = buf' i) :
    buf.setBits b n cnt i = buf'.setBits b n cnt i := by
  induction cnt with
  | zero => exact h
  | succ cnt ih =>
    simp only [setBits, setBit]
    rw [ih]

/-- The stamp depends on the run only. -/
theorem stampRun_congr {buf buf' : Buffer} {len : Nat} (h : ∀ i < len, buf i = buf' i)
    (hi : i < len) :
    buf.stampRun len i = buf'.stampRun len i := by
  have htake : (buf.setDword (len - hbfs4RunChecksumBytes) 0).take len =
      (buf'.setDword (len - hbfs4RunChecksumBytes) 0).take len := by
    refine List.map_congr_left fun j hj => ?_
    simp only [setDword]
    split
    · rfl
    · exact h j (List.mem_range.mp hj)
  simp only [stampRun, htake]
  simp only [setDword]
  split
  · rfl
  · exact h i hi

end Buffer

/-- A stamped run is accepted. -/
theorem verifyRun_stampRun (buf : Buffer) (len : Nat) :
    (buf.stampRun len).verifyRun len = true := by
  have hback : (buf.stampRun len).setDword (len - hbfs4RunChecksumBytes) 0 =
      buf.setDword (len - hbfs4RunChecksumBytes) 0 := by
    rw [Buffer.stampRun, Buffer.setDword_setDword, Buffer.setDword_setDword]
  have hstored : (buf.stampRun len).dword (len - hbfs4RunChecksumBytes) =
      crc32c ((buf.setDword (len - hbfs4RunChecksumBytes) 0).take len) :=
    Buffer.dword_setDword_self (crc32c_lt _)
  simp only [Buffer.verifyRun, hback, hstored, beq_self_eq_true]

end Mellivora
