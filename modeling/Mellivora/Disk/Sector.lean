import Mathlib.Algebra.Ring.Nat
import Mathlib.Data.Fintype.Basic

/-!
# Sectors, little-endian fields and CRC-32C

A sector is 512 bytes. The superblock, the journal records and the metadata trailers keep
little-endian double words in it at fixed offsets (`mov dword [buf + off], v` in the kernel,
`struct.pack_into("<I", buf, off, v)` in the tools). The checksum over sectors and runs of sectors
is CRC-32C, table-driven on both sides.
-/

namespace Mellivora

/-- A sector of 512 bytes. -/
@[ext] structure Sector where
  bytes : Fin 512 → UInt8

/-- Comparing 512 bytes is for the kernel to evaluate, not for the elaborator to unfold. -/
@[irreducible] instance instDecidableEqSector : DecidableEq Sector := fun s t =>
  decidable_of_iff (s.bytes = t.bytes) ⟨Sector.ext, congrArg Sector.bytes⟩

namespace Sector

/-- The byte at `i`, 0 behind the end. -/
def byteAt (s : Sector) (i : Nat) : Nat := if h : i < 512 then (s.bytes ⟨i, h⟩).toNat else 0

/-- The 32-bit little-endian word at `off`. -/
def dword (s : Sector) (off : Nat) : Nat :=
  s.byteAt off + 2 ^ 8 * s.byteAt (off + 1) + 2 ^ 16 * s.byteAt (off + 2) +
    2 ^ 24 * s.byteAt (off + 3)

/-- Stores a 32-bit little-endian word. -/
def setDword (s : Sector) (off v : Nat) : Sector :=
  ⟨fun i =>
    if off ≤ i.val ∧ i.val < off + 4 then UInt8.ofNat (v / 2 ^ (8 * (i.val - off)))
    else s.bytes i⟩

/-- The sector of zeros. -/
def zero : Sector := ⟨fun _ => 0⟩

instance : Inhabited Sector := ⟨zero⟩

/-- The bytes in order. -/
def toList (s : Sector) : List UInt8 := List.ofFn s.bytes

end Sector

/-! ## CRC-32C -/

/-- One bit of the reflected Castagnoli polynomial division. -/
def crc32cBit (v : Nat) : Nat := if v % 2 = 1 then (v / 2) ^^^ 0x82F63B78 else v / 2

/-- `crc32c_table`: eight division steps per entry. -/
def crc32cTable (i : Nat) : Nat := crc32cBit^[8] i

/-- One byte through the table. -/
def crc32cByte (crc : Nat) (b : UInt8) : Nat :=
  (crc >>> 8) ^^^ crc32cTable ((crc ^^^ b.toNat) &&& 0xFF)

/-- `crc32c`: the checksum by the table. -/
def crc32c (buf : List UInt8) : Nat := buf.foldl crc32cByte 0xFFFFFFFF ^^^ 0xFFFFFFFF

end Mellivora
