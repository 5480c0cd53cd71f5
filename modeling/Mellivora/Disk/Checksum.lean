import Mellivora.Disk.Buffer
import Mellivora.Lib.Crc

/-!
# The checksum of metadata runs

What the table-driven `crc32c` should compute, bit by bit, and `hbfs_verify_run` with what it does
to the buffer: it clears the trailer while it computes and then puts it back.
-/

namespace Mellivora

/-- The polynomial of CRC-32C, with its bits reflected. -/
def crc32cPoly : Nat := 0x82F63B78

/-- The bits of a byte, the lowest first. -/
def byteBits (b : UInt8) : List Bool := (List.range 8).map b.toNat.testBit

/-- CRC-32C by its definition: all ones, the bits of the message one by one, the lowest of each byte
first, and the complement. -/
def crc32cBitwise (buf : List UInt8) : Nat :=
  (buf.flatMap byteBits).foldl (Crc.feed crc32cPoly) 0xFFFFFFFF ^^^ 0xFFFFFFFF

/-- `hbfs_verify_run`: whether the carry flag comes back clear, and the buffer. -/
def hbfsVerifyRun (buf : Buffer) (len : Nat) : Bool × Buffer :=
  let ebx := len - hbfs4RunChecksumBytes
  let edx := buf.dword ebx
  let buf := buf.setDword ebx 0
  let eax := crc32c (buf.take len)
  let buf := buf.setDword ebx edx
  (eax == edx, buf)

/-- `alt` is the run `buf` of `len` bytes with some bits changed, all of them among `width`
consecutive bits of its data; the trailer is as it was. -/
structure DataBurst (buf alt : Buffer) (len start width : Nat) : Prop where
  /-- A bit of the run is not what it was. -/
  changed : ∃ n < 8 * len, alt.bit n ≠ buf.bit n
  /-- Every other bit of the run is. -/
  outside : ∀ n < 8 * len, n < start ∨ start + width ≤ n → alt.bit n = buf.bit n
  trailer : ∀ n < 8 * len, 8 * (len - hbfs4RunChecksumBytes) ≤ n → alt.bit n = buf.bit n

end Mellivora
