import Mellivora.Disk.Checksum
import Mellivora.Disk.Proofs.BufferProofs
import Mathlib.Data.List.Range

/-!
# Proofs: the checksum of metadata runs

The table makes eight shifts of the register at once, so a run is shifted through the register as
the definition says.
-/

namespace Mellivora

open List Buffer

/-! ## The table and the definition -/

theorem ofBits_byteBits (b : UInt8) : Crc.ofBits (byteBits b) = b.toNat := by
  have hall : ∀ n < 256, Crc.ofBits ((range 8).map n.testBit) = n := by decide +kernel
  exact hall b.toNat b.toNat_lt

/-- A byte through the table is eight shifts of the register that has taken it in. -/
theorem crc32cByte_eq (crc : Nat) (b : UInt8) :
    crc32cByte crc b = (Crc.shift crc32cPoly)^[8] (crc ^^^ b.toNat) := by
  have hb : b.toNat / 2 ^ 8 = 0 := Nat.div_eq_of_lt b.toNat_lt
  have hhigh : (crc ^^^ b.toNat) / 2 ^ 8 = crc >>> 8 := by
    rw [← Nat.shiftRight_eq_div_pow, Nat.shiftRight_xor_distrib, Nat.shiftRight_eq_div_pow b.toNat,
      hb, Nat.xor_zero]
  rw [Crc.iterate_shift_eq, hhigh, ← Nat.and_two_pow_sub_one_eq_mod]
  rfl

theorem crc32cByte_eq_feed (crc : Nat) (b : UInt8) :
    crc32cByte crc b = (byteBits b).foldl (Crc.feed crc32cPoly) crc := by
  rw [Crc.foldl_feed, ofBits_byteBits, crc32cByte_eq]
  rfl

/-- The table-driven checksum is CRC-32C. -/
theorem crc32c_eq_bitwise (buf : List UInt8) : crc32c buf = crc32cBitwise buf := by
  have hfold : ∀ v, buf.foldl crc32cByte v = (buf.flatMap byteBits).foldl
    (Crc.feed crc32cPoly) v := by
    induction buf with
    | nil => exact fun v => rfl
    | cons b buf ih =>
      intro v
      rw [foldl_cons, ih, flatMap_cons, foldl_append, crc32cByte_eq_feed]
  rw [crc32c, crc32cBitwise, hfold]

/-! ## Runs bit by bit -/

/-- A run's bits as a polynomial. -/
def runBits (buf : Buffer) (len : Nat) : Nat := Crc.ofBits ((buf.take len).flatMap byteBits)

theorem flatMap_byteBits_take (buf : Buffer) (len : Nat) :
    (buf.take len).flatMap byteBits = (List.range (8 * len)).map buf.bit := by
  induction len with
  | zero => rfl
  | succ len ih =>
  have htake : buf.take (len + 1) = buf.take len ++ [buf len] := by
    simp [Buffer.take, range_succ]
  rw [htake, flatMap_append, ih, Nat.mul_succ, range_add, map_append, map_map]
  congr 1
  rw [flatMap_cons, flatMap_nil, append_nil]
  refine map_congr_left fun j hj => ?_
  have hj8 := mem_range.mp hj
  simp only [Function.comp_apply, bit]
  rw [show (8 * len + j) / 8 = len by omega, show (8 * len + j) % 8 = j by omega]

theorem testBit_runBits (buf : Buffer) (len n : Nat) :
    (runBits buf len).testBit n = if n < 8 * len then buf.bit n else false := by
  rw [runBits, Crc.testBit_ofBits, flatMap_byteBits_take, getD_eq_getElem?_getD]
  split_ifs with hn
  · simp [hn]
  · simp [Nat.le_of_not_lt hn]

theorem crc32c_take (buf : Buffer) (len : Nat) :
    crc32c (buf.take len) = (Crc.shift crc32cPoly)^[8 * len] (0xFFFFFFFF ^^^ runBits buf len) ^^^
    0xFFFFFFFF := by
  rw [crc32c_eq_bitwise, crc32cBitwise, Crc.foldl_feed, ← runBits]
  congr 3
  rw [flatMap_byteBits_take, length_map, length_range]

/-- A byte is its bits. -/
theorem Buffer.eq_of_bits {buf buf' : Buffer} {i : Nat}
    (h : ∀ j < 8, buf.bit (8 * i + j) = buf'.bit (8 * i + j)) :
    buf i = buf' i := by
  apply UInt8.toNat_inj.mp
  apply Nat.eq_of_testBit_eq
  intro j
  by_cases hj : j < 8
  · have hbit := h j hj
    simp only [bit] at hbit
    rwa [show (8 * i + j) / 8 = i by omega, show (8 * i + j) % 8 = j by omega] at hbit
  · have hbig : 2 ^ 8 ≤ 2 ^ j := Nat.pow_le_pow_right (by decide) (by omega)
    rw [Nat.testBit_lt_two_pow ((buf i).toNat_lt.trans_le hbig),
      Nat.testBit_lt_two_pow ((buf' i).toNat_lt.trans_le hbig)]

theorem Buffer.bit_clearTrailer (buf : Buffer) {len n : Nat} (hlen : hbfs4RunChecksumBytes ≤ len)
    (hn : n < 8 * len) :
    (buf.setDword (len - hbfs4RunChecksumBytes) 0).bit n =
      if n < 8 * (len - hbfs4RunChecksumBytes) then buf.bit n else false := by
  have h4 : hbfs4RunChecksumBytes = 4 := rfl
  simp only [bit, setDword]
  split_ifs with h1 h2 h2
  · omega
  · simp
  · rfl
  · omega

/-! ## Verifying -/

theorem hbfsVerifyRun_fst (buf : Buffer) (len : Nat) :
    (hbfsVerifyRun buf len).1 = buf.verifyRun len := rfl

theorem hbfsVerifyRun_snd (buf : Buffer) (len : Nat) : (hbfsVerifyRun buf len).2 = buf := by
  rw [hbfsVerifyRun, setDword_setDword, setDword_dword]

section Burst

variable {buf alt : Buffer} {len start width : Nat}

/-- A burst in the data leaves the trailer. -/
theorem DataBurst.dword_trailer (h : DataBurst buf alt len start width)
    (hlen : hbfs4RunChecksumBytes ≤ len) :
    alt.dword (len - hbfs4RunChecksumBytes) = buf.dword (len - hbfs4RunChecksumBytes) := by
  have h4 : hbfs4RunChecksumBytes = 4 := rfl
  apply dword_congr
  intro i hi hi'
  apply eq_of_bits
  intro j hj
  exact h.trailer _ (by omega) (by omega)

/-- A burst that fits the register changes the checksum. -/
theorem DataBurst.crc_ne (h : DataBurst buf alt len start 32) (hlen : hbfs4RunChecksumBytes ≤ len) :
    crc32c ((alt.setDword (len - hbfs4RunChecksumBytes) 0).take len) ≠
      crc32c ((buf.setDword (len - hbfs4RunChecksumBytes) 0).take len) := by
  have hbits : ∀ n, n < start ∨ start + 32 ≤ n →
      (runBits (alt.setDword (len - hbfs4RunChecksumBytes) 0) len).testBit n =
        (runBits (buf.setDword (len - hbfs4RunChecksumBytes) 0) len).testBit n := by
    intro n hn
    rw [testBit_runBits, testBit_runBits]
    split_ifs with hin
    · rw [bit_clearTrailer _ hlen hin, bit_clearTrailer _ hlen hin, h.outside n hin hn]
    · rfl
  obtain ⟨n, hn, hchanged⟩ := h.changed
  have hdata : n < 8 * (len - hbfs4RunChecksumBytes) := by
    by_contra hle
    exact hchanged (h.trailer n hn (Nat.le_of_not_lt hle))
  have hstart : start ≤ n := by
    by_contra hlt
    exact hchanged (h.outside n hn (Or.inl (Nat.lt_of_not_le hlt)))
  have hne : runBits (alt.setDword (len - hbfs4RunChecksumBytes) 0) len ≠
      runBits (buf.setDword (len - hbfs4RunChecksumBytes) 0) len := by
    intro heq
    have hbit := congrArg (Nat.testBit · n) heq
    simp only [testBit_runBits, if_pos hn, bit_clearTrailer _ hlen hn, if_pos hdata] at hbit
    exact hchanged hbit
  rw [crc32c_take, crc32c_take]
  intro heq
  exact Crc.burst_seen (w := 32) (by decide) (by decide) (by omega) hne
    (fun i hi => hbits i (Or.inl hi))
    (fun i hi => hbits i (Or.inr hi)) (Nat.xor_left_injective heq)

end Burst

/-- **The checksum of a metadata run**: a stamped run verifies and is left as it is, the checksum is
CRC-32C, and a run whose data has been altered within 32 consecutive bits does not verify. -/
theorem metadataChecksum (len : Nat) (hlen : hbfs4RunChecksumBytes ≤ len) (buf : Buffer) :
    hbfsVerifyRun (buf.stampRun len) len = (true, buf.stampRun len) ∧
      (∀ bytes, crc32c bytes = crc32cBitwise bytes) ∧
      ∀ alt start, DataBurst (buf.stampRun len) alt len start 32 →
      (hbfsVerifyRun alt len).1 = false := by
  refine ⟨?_, crc32c_eq_bitwise, ?_⟩
  · refine Prod.ext ?_ (hbfsVerifyRun_snd _ len)
    exact verifyRun_stampRun buf len
  · intro alt start hburst
    have hstamped := verifyRun_stampRun buf len
    simp only [verifyRun, beq_iff_eq] at hstamped
    rw [hbfsVerifyRun_fst, verifyRun, beq_eq_false_iff_ne, hburst.dword_trailer hlen, ← hstamped]
    exact hburst.crc_ne hlen

/-- A run of eight bytes, four of them data. -/
theorem metadataChecksum_eight :
    hbfs4RunChecksumBytes ≤ 8 ∧
      hbfsVerifyRun (Buffer.stampRun (fun _ => 1) 8) 8 = (true, Buffer.stampRun (fun _ => 1) 8) :=
  ⟨by decide, (metadataChecksum 8 (by decide) fun _ => 1).1⟩

end Mellivora
