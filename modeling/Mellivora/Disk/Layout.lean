import Mathlib.Algebra.Ring.Nat

/-!
# The HBFS on-disk layout

The constants of `kernel.asm` and `hbfs.inc`, which `populate.py` repeats: where the superblock, the
bitmap, the root directory and the data area lie, the superblock's fields, and the journal's record
format. The journal occupies the first blocks of the data area.
-/

namespace Mellivora

/-! ## Places on the disk, in sectors -/

/-- `HBFS_BLOCK_SIZE`: the bytes of a block. -/
def hbfsBlockSize : Nat := 4096
/-- `HBFS_SECTORS_PER_BLK`. -/
def hbfsSectorsPerBlk : Nat := 8
/-- `HBFS_SUPERBLOCK_LBA`: where the superblock is. -/
def hbfsSuperblockLba : Nat := 8481
/-- `HBFS_BITMAP_START`: the first sector of the bitmap. -/
def hbfsBitmapStart : Nat := 8482
/-- `HBFS_BITMAP_SECTS`: its sectors. -/
def hbfsBitmapSects : Nat := 128
/-- `HBFS_BITMAP_SIZE`: its bytes. -/
def hbfsBitmapSize : Nat := 65536
/-- The last sector of the bitmap, which holds its checksum in version 4. -/
def bitmapTrailer : Nat := hbfsBitmapStart + hbfsBitmapSects - 1
/-- `HBFS_ROOT_DIR_START`: the first sector of the root directory. -/
def hbfsRootDirStart : Nat := 8610
/-- `HBFS_ROOT_DIR_SECTS`: its sectors. -/
def hbfsRootDirSects : Nat := 256
/-- `HBFS_ROOT_DIR_SIZE`: its bytes. -/
def hbfsRootDirSize : Nat := 131072
/-- `HBFS_SUBDIR_BLOCKS`: the blocks of any other directory. -/
def hbfsSubdirBlocks : Nat := 32
/-- `HBFS_DATA_START`: the sector of block 0. -/
def hbfsDataStart : Nat := 8866
/-- `HBFS_JOURNAL_BLOCKS`: the blocks of the journal, the first of all. -/
def hbfsJournalBlocks : Nat := 4
/-- `HBFS_JOURNAL_SECTS`: its sectors. -/
def hbfsJournalSects : Nat := 32
/-- `HBFS_JOURNAL_LBA`: its first sector. -/
def hbfsJournalLba : Nat := 8866

/-! ## The superblock -/

/-- `HBFS_MAGIC`: the magic word up to version 3. -/
def hbfsMagic : Nat := 0x48424653
/-- `HBFS4_MAGIC`: the magic word of version 4. -/
def hbfs4Magic : Nat := 0x34424653
/-- `HBFS_VERSION_V2`: the first version with a journal. -/
def hbfsVersionV2 : Nat := 2
/-- `HBFS_VERSION_V3`. -/
def hbfsVersionV3 : Nat := 3
/-- `HBFS4_VERSION`. -/
def hbfs4Version : Nat := 4

/-- The superblock's version field. -/
def sbVersion : Nat := 4
/-- The superblock's count of blocks. -/
def sbTotalBlocks : Nat := 8
/-- The superblock's count of free blocks. -/
def sbFreeBlocks : Nat := 12

/-- `HBFS_SB_JRNL_STATE`: nonzero while a transaction is open. -/
def hbfsSbJrnlState : Nat := 40
/-- `HBFS_SB_JRNL_PTR`: the log's length. -/
def hbfsSbJrnlPtr : Nat := 44
/-- `HBFS_SB_JRNL_EPOCH`: the number of the last transaction. -/
def hbfsSbJrnlEpoch : Nat := 56
/-- `HBFS4_OFF_CHECKSUM`: the superblock's checksum. -/
def hbfs4OffChecksum : Nat := 76
/-- `HBFS4_RUN_CHECKSUM_BYTES`: the trailer of a checked run of sectors. -/
def hbfs4RunChecksumBytes : Nat := 4

/-! ## Directory entries -/

/-- `HBFS_DIR_ENTRY_SIZE`: the bytes of a directory entry. -/
def hbfsDirEntrySize : Nat := 288
/-- `HBFS_MAX_FILENAME`: the longest name. -/
def hbfsMaxFilename : Nat := 252

/-- Offsets of an entry's type, flags, size, start block, block count and time stamps. -/
def deType : Nat := 253
/-- `DE_FLAGS`: whether the data is a run list. -/
def deFlags : Nat := 254
/-- `DE_SIZE`: the file's bytes. -/
def deSize : Nat := 256
/-- `DE_BLOCK`: its first block, or its extent block. -/
def deBlock : Nat := 260
/-- `DE_BLKCNT`: its blocks. -/
def deBlkcnt : Nat := 264
/-- When the entry was made. -/
def deCtime : Nat := 268
/-- When the file was last changed. -/
def deMtime : Nat := 272
/-- Offsets of the mode, the owner, the group and the extended attributes. -/
def deMode : Nat := 276
/-- `DE_UID`: the owner. -/
def deUid : Nat := 278
/-- `DE_GID`: the group. -/
def deGid : Nat := 280
/-- `DE_XATTR_LBA`: the block of extended attributes, 0 for none. -/
def deXattrLba : Nat := 284

/-- `FTYPE_FREE`: the type byte of a free entry. -/
def ftypeFree : UInt8 := 0
/-- `FTYPE_DIR`: the type byte of a directory. -/
def ftypeDir : UInt8 := 2
/-- `HBFS_MODE_DIR_DEF`: the mode a directory is made with. -/
def hbfsModeDirDef : Nat := 0o755
/-- The flag of an entry whose data is a list of runs. -/
def hbfs4DeExtents : Nat := 1

/-! ## Extent blocks -/

/-- `HBFS4_EXTENT_MAGIC`: the first word of an extent block. -/
def hbfs4ExtentMagic : Nat := 0x34584248
/-- `HBFS4_EXTENT_HDR`: the bytes before its first record. -/
def hbfs4ExtentHdr : Nat := 8
/-- `HBFS4_EXTENT_RECORD`: the bytes of a record. -/
def hbfs4ExtentRecord : Nat := 8
/-- `HBFS4_EXTENT_MAX`: how many records it holds. -/
def hbfs4ExtentMax : Nat := 510
/-- The checksum of an empty directory of `hbfsSubdirBlocks` blocks. -/
def hbfs4EmptyDirCrc : Nat := 0x5D87814F

/-! ## Journal records -/

/-- `HBFS_JRNL_MAGIC`: the first word of a journal record. -/
def hbfsJrnlMagic : Nat := 0x4A524E4C
/-- `HBFS_JRNL_T_PRE`: the record keeps the old content of a sector. -/
def hbfsJrnlTPre : Nat := 1
/-- `HBFS_JRNL_T_COMMIT`: the record ends a transaction. -/
def hbfsJrnlTCommit : Nat := 2

/-- A record's magic word. -/
def recMagic : Nat := 0
/-- A record's type. -/
def recType : Nat := 4
/-- The sector whose old content follows the record. -/
def recTarget : Nat := 8
/-- The transaction the record belongs to. -/
def recEpoch : Nat := 12
/-- `PRE_OFF_CRC`: the checksum of the old content. -/
def preOffCrc : Nat := 16
/-- Offsets of the record count and the checksum of a COMMIT record. -/
def commitOffRecords : Nat := 20
/-- `COMMIT_OFF_CRC`: the checksum of the record that ends a transaction. -/
def commitOffCrc : Nat := 24

/-- The sectors of the journal. -/
def InLog (lba : Nat) : Prop := hbfsJournalLba ≤ lba ∧ lba < hbfsJournalLba + hbfsJournalSects

instance (lba : Nat) : Decidable (InLog lba) := inferInstanceAs (Decidable (_ ∧ _))

end Mellivora
