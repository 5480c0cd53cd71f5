import Mellivora.Disk.Sector
import Mellivora.Disk.Layout

/-!
# Memory buffers and metadata runs

The resident bitmap, the directory buffer and its shadow, and the extent block are byte buffers that
are filled from and written to whole sectors. A metadata run is a buffer of a known length; on a v4
volume its last four bytes are a CRC-32C over the rest.
-/

namespace Mellivora

/-- Memory, by byte. -/
abbrev Buffer := Nat → UInt8

namespace Buffer

/-- The `i`-th sector of a buffer. -/
def sector (buf : Buffer) (i : Nat) : Sector := ⟨fun j => buf (512 * i + j.val)⟩

/-- The buffer after sectors have been read to its front. -/
def load (buf : Buffer) (data : List Sector) : Buffer := fun i =>
  match data[i / 512]? with
  | some s => s.bytes ⟨i % 512, Nat.mod_lt i (by decide)⟩
  | none => buf i

/-- The disk from sector `lba` on, as a buffer. -/
def ofDisk (d : Nat → Sector) (lba : Nat) : Buffer := fun i =>
  (d (lba + i / 512)).bytes ⟨i % 512, Nat.mod_lt i (by decide)⟩

/-- The 32-bit little-endian word at `off`. -/
def dword (buf : Buffer) (off : Nat) : Nat :=
  (buf off).toNat + 2 ^ 8 * (buf (off + 1)).toNat + 2 ^ 16 * (buf (off + 2)).toNat +
    2 ^ 24 * (buf (off + 3)).toNat

/-- Stores a 32-bit little-endian word. -/
def setDword (buf : Buffer) (off v : Nat) : Buffer := fun i =>
  if off ≤ i ∧ i < off + 4 then UInt8.ofNat (v / 2 ^ (8 * (i - off))) else buf i

/-- The 16-bit little-endian word at `off`. -/
def word (buf : Buffer) (off : Nat) : Nat := (buf off).toNat + 2 ^ 8 * (buf (off + 1)).toNat

/-- Stores a 16-bit little-endian word. -/
def setWord (buf : Buffer) (off v : Nat) : Buffer := fun i =>
  if off ≤ i ∧ i < off + 2 then UInt8.ofNat (v / 2 ^ (8 * (i - off))) else buf i

/-- Stores bytes from `off` on. -/
def write (buf : Buffer) (off : Nat) (data : List UInt8) : Buffer := fun i =>
  if off ≤ i then (data[i - off]?).getD (buf i) else buf i

/-- Clears `len` bytes from `off` on. -/
def clear (buf : Buffer) (off len : Nat) : Buffer := fun i =>
  if off ≤ i ∧ i < off + len then 0 else buf i

/-- Stores `s` as the `i`-th sector. -/
def putSector (buf : Buffer) (i : Nat) (s : Sector) : Buffer := fun j =>
  if j / 512 = i then s.bytes ⟨j % 512, Nat.mod_lt j (by decide)⟩ else buf j

/-- The first `cnt` sectors. -/
def sectors (buf : Buffer) (cnt : Nat) : List Sector := (List.range cnt).map buf.sector

/-- Bit `n`, the lowest of each byte first. -/
def bit (buf : Buffer) (n : Nat) : Bool := (buf (n / 8)).toNat.testBit (n % 8)

/-- Sets or clears bit `n`. -/
def setBit (buf : Buffer) (n : Nat) (b : Bool) : Buffer := fun i =>
  let mask : UInt8 := 1 <<< UInt8.ofNat (n % 8)
  if i = n / 8 then (if b then buf i ||| mask else buf i &&& ~~~mask) else buf i

/-- Sets or clears `cnt` bits from `n` on. -/
def setBits (buf : Buffer) (b : Bool) (n : Nat) : (cnt : Nat) → Buffer
  | 0 => buf
  | cnt + 1 => (buf.setBits b n cnt).setBit (n + cnt) b

/-- The first `len` bytes. -/
def take (buf : Buffer) (len : Nat) : List UInt8 := (List.range len).map buf

/-- `hbfs_stamp_run`: the checksum of the run with its trailer read as zero. -/
def stampRun (buf : Buffer) (len : Nat) : Buffer :=
  let buf := buf.setDword (len - hbfs4RunChecksumBytes) 0
  buf.setDword (len - hbfs4RunChecksumBytes) (crc32c (buf.take len))

/-- `hbfs_verify_run`, true when the stored trailer matches the run. -/
def verifyRun (buf : Buffer) (len : Nat) : Bool :=
  let stored := buf.dword (len - hbfs4RunChecksumBytes)
  crc32c ((buf.setDword (len - hbfs4RunChecksumBytes) 0).take len) == stored

end Buffer

end Mellivora
