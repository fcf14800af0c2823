import Aenix.Lib.Bytes
import Aenix.Mem

/-!
# The format of AEFS

The structures of `aefs.h`, as they lie in an image: a superblock in the first block, then the table of
inodes, then the data blocks.  An address is an offset from the start of the image.
-/

open Bytes Aenix

namespace Aefs

/-- `AEFS_MAGIC_NUMBER`. -/
abbrev magicNumber : UInt32 := 0xAE12AE34

/-- `AEFS_FILETYPE_REG`. -/
abbrev filetypeReg : UInt8 := 0

/-- `AEFS_FILETYPE_DIR`. -/
abbrev filetypeDir : UInt8 := 1

/-- `AEFS_FILENAME_MAX_LEN`. -/
abbrev filenameMaxLen : ℕ := 254

/-- `AEFS_BLOCK_SIZE`. -/
abbrev blockSize : ℕ := 1024

/-- `AEFS_INODE_NUM_BLOCKS`. -/
abbrev inodeNumBlocks : ℕ := 5

/-- `AEFS_DIRENTRIES_PER_BLOCK`. -/
abbrev direntriesPerBlock : ℕ := 4

/-! ### The superblock -/

/-- `sb->magic_number`. -/
def sbMagicNumber (m : Memory) : UInt32 := load32 m 0

/-- `sb->num_inodes`. -/
def sbNumInodes (m : Memory) : UInt16 := load16 m 4

/-- `sb->start_block`. -/
def sbStartBlock (m : Memory) : UInt16 := load16 m 6

/-- `get_inode`: the address of an inode. -/
def getInode (id : UInt16) : ℕ := blockSize + 16 * id.toNat

/-- `get_block`: the address of a data block, which are counted from `start_block`. -/
def getBlock (startBlock i : UInt16) : ℕ := blockSize * (startBlock.toNat + i.toNat)

/-! ### Inodes -/

section Inode

variable (m : Memory) (inode : ℕ)

/-- `inode->type`. -/
def inodeType : UInt8 := m inode

/-- `inode->size_high`. -/
def inodeSizeHigh : UInt8 := m (inode + 1)

/-- `inode->size_low`. -/
def inodeSizeLow : UInt16 := load16 m (inode + 2)

/-- `inode->blocks[j]`. -/
def inodeBlock (j : ℕ) : UInt16 := load16 m (inode + 4 + 2 * j)

/-- `inode->inode_tail`. -/
def inodeTail : UInt16 := load16 m (inode + 14)

/-- `AEFS_INODE_SIZE`. -/
def inodeSize : UInt32 :=
  (inodeSizeHigh m inode).toUInt32 <<< 16 ||| (inodeSizeLow m inode).toUInt32

end Inode

/-- `entry->inode_id`, of the directory entry at an address. -/
def entryInodeId (m : Memory) (entry : ℕ) : UInt16 := load16 m (entry + filenameMaxLen)

/-! ### Numbers of blocks and inodes -/

/-- The number of blocks that `size` bytes take. -/
def blocksFor (size : ℕ) : ℕ := (size + 1023) / 1024

/-- The number of further inodes that `n` blocks take, of which the first has five. -/
def tailsFor (n : ℕ) : ℕ := (n - 1) / 5

/-- The low and the high part of a size are the size. -/
theorem toNat_inodeSize (m : Memory) (inode : ℕ) :
  (inodeSize m inode).toNat = (inodeSizeLow m inode).toNat + 2 ^ 16 * (inodeSizeHigh m inode).toNat
  := by
  have hhigh := (inodeSizeHigh m inode).toNat_lt
  have hlow := (inodeSizeLow m inode).toNat_lt
  rw [inodeSize, UInt32.toNat_or, UInt32.toNat_shiftLeft, UInt8.toNat_toUInt32,
    UInt16.toNat_toUInt32, Nat.lor_comm]
  rw [show UInt32.toNat 16 % 32 = 16 by rfl, Nat.mod_eq_of_lt, lor_shiftLeft hlow]
  rw [Nat.shiftLeft_eq]
  omega

/-- A size has 24 bits. -/
theorem inodeSize_lt (m : Memory) (inode : ℕ) :
  (inodeSize m inode).toNat < 2 ^ 24
  := by
  have hhigh := (inodeSizeHigh m inode).toNat_lt
  have hlow := (inodeSizeLow m inode).toNat_lt
  rw [toNat_inodeSize]
  omega

/-- `div_ceil`, of a size in blocks.  There are 2 ^ 22 blocks for no bytes. -/
theorem toNat_divCeil_block {size : UInt32} (h : 0 < size.toNat) :
  (divCeil size 1024).toNat = blocksFor size.toNat
  := by
  rw [toNat_divCeil h, blocksFor]
  simp only [UInt32.reduceToNat]
  omega

theorem divCeil_zero :
  divCeil 0 1024 = 4194304
  := by
  decide

/-- In 16 bits, and in bytes, the number of blocks is right. -/
theorem toNat_divCeil_words (size : UInt32) (h : size.toNat < 2 ^ 24) :
  (divCeil size 1024).toUInt16.toNat = blocksFor size.toNat ∧
    (1024 * divCeil size 1024).toNat = 1024 * blocksFor size.toNat
  := by
  rcases Nat.eq_zero_or_pos size.toNat with h0 | h0
  · obtain rfl : size = 0 := UInt32.toNat_inj.mp h0
    decide
  · have hle : blocksFor size.toNat ≤ 2 ^ 14 := by
      rw [blocksFor]
      omega
    rw [UInt32.toNat_mul, UInt32.toNat_toUInt16, toNat_divCeil_block h0]
    simp only [UInt32.reduceToNat]
    omega

end Aefs
