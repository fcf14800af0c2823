import Aenix.Aefs.Faithful
import Mathlib.Order.CompletePartialOrder

/-!
# The layout of an image

`mkfs.c` keeps the number of blocks and the layout in 16 bits, which hold the 1024 blocks of a megabyte for
63 megabytes.  For a larger image the layout is that of `fsSize % 64` megabytes, and for a multiple of 64
it is that of an image without blocks.  The layout is sound exactly for less than 64 megabytes
(`layout_sound_iff`).
-/

open Bytes Aenix

namespace Aefs

/-- The number of blocks of an image of `fsSize` MB. -/
def numBlocks (fsSize : ℕ) : ℕ :=
  fsSize * 2 ^ 20 / blockSize

/-- The number of blocks for one inode of 16 bytes a block. -/
def inodeBlocks (fsSize : ℕ) : ℕ :=
  (numBlocks fsSize * 16 + (blockSize - 1)) / blockSize

/-- The bytes of the superblock. -/
def superblockArea : Set ℕ :=
  Set.Ico 0 blockSize

/-- The bytes of the inodes. -/
def tableArea (numInodes : UInt16) : Set ℕ :=
  Set.Ico blockSize (blockSize + 16 * numInodes.toNat)

/-- The bytes of the data blocks. -/
def dataArea (fsSize : ℕ) (startBlock : UInt16) : Set ℕ :=
  Set.Ico (blockSize * startBlock.toNat) (blockSize * numBlocks fsSize)

/-- The superblock holds the numbers that are computed from the number of blocks; and the superblock, the
inodes and the data blocks, according to it, are apart from each other and inside the image. -/
structure SoundLayout (fsSize : ℕ) (m : Memory) : Prop where
  numInodes : (sbNumInodes m).toNat = numBlocks fsSize - inodeBlocks fsSize - 1
  startBlock : (sbStartBlock m).toNat = 1 + inodeBlocks fsSize
  superblock_table : Disjoint superblockArea (tableArea (sbNumInodes m))
  superblock_data : Disjoint superblockArea (dataArea fsSize (sbStartBlock m))
  table_data : Disjoint (tableArea (sbNumInodes m)) (dataArea fsSize (sbStartBlock m))
  superblock_inside : superblockArea ⊆ Set.Ico 0 (blockSize * numBlocks fsSize)
  table_inside : tableArea (sbNumInodes m) ⊆ Set.Ico 0 (blockSize * numBlocks fsSize)
  data_inside : dataArea fsSize (sbStartBlock m) ⊆ Set.Ico 0 (blockSize * numBlocks fsSize)
  start_inside : (sbStartBlock m).toNat ≤ numBlocks fsSize

variable {fsSize : ℕ}

theorem numBlocks_eq (fsSize : ℕ) :
  numBlocks fsSize = 1024 * fsSize
  := by
  rw [numBlocks, blockSize]
  omega

theorem inodeBlocks_eq (fsSize : ℕ) :
  inodeBlocks fsSize = 16 * fsSize
  := by
  rw [inodeBlocks, numBlocks_eq, blockSize]
  omega

/-- The number of blocks is taken modulo 2 ^ 16. -/
theorem layout_mod (fsSize : ℕ) :
  layout fsSize = layout (fsSize % 64)
  := by
  have hblocks : UInt16.ofNat ((fsSize <<< 20) / blockSize) =
      UInt16.ofNat (((fsSize % 64) <<< 20) / blockSize) := by
    rw [← UInt16.toNat_inj, UInt16.toNat_ofNat', UInt16.toNat_ofNat', Nat.shiftLeft_eq, Nat.shiftLeft_eq,
      blockSize]
    omega
  rw [layout, layout, hblocks]

/-- The data blocks never begin after the 1009th block. -/
theorem startBlock_le (fsSize : ℕ) :
  (layout fsSize).startBlock.toNat ≤ 1009
  := by
  rw [layout_mod]
  by_cases hzero : fsSize % 64 = 0
  · rw [hzero]
    decide
  · rw [(layout_eq (by omega) (by omega)).2]
    omega

/-- The layout is sound exactly for less than 64 megabytes. -/
theorem layout_sound_iff (hpos : 0 < fsSize) (m : Memory) :
  SoundLayout fsSize (writeSuperblock (layout fsSize) m) ↔ fsSize < 64
  := by
  obtain ⟨hnum, hstart⟩ := load16_writeSuperblock (layout fsSize) m
  constructor
  · intro hsound
    have hexact := hsound.startBlock
    rw [sbStartBlock, hstart, inodeBlocks_eq] at hexact
    have hle := startBlock_le fsSize
    omega
  · intro hlt
    obtain ⟨hn, hs⟩ := layout_eq hpos (by omega)
    have hblocks := numBlocks_eq fsSize
    constructor
    all_goals
      simp only [sbNumInodes, sbStartBlock, hnum, hstart, superblockArea, tableArea, dataArea,
        Set.Ico_disjoint_Ico, inodeBlocks_eq, hn, hs, hblocks, blockSize]
    case numInodes => omega
    case table_data => omega
    case superblock_table => omega
    case superblock_data => omega
    case start_inside => omega
    all_goals
      apply Set.Ico_subset_Ico <;> omega

/-- The layout of 63 megabytes. -/
theorem layout_sound_iff_63 :
  0 < 63 ∧ (SoundLayout 63 (writeSuperblock (layout 63) fun _ => 0) ↔ 63 < 64)
  := ⟨by decide, layout_sound_iff (by decide) _⟩

/-- In an image of 64 megabytes there are 65535 inodes, and the data blocks begin where the inodes do. -/
theorem layout_64 :
  (layout 64).numInodes = 65535 ∧ (layout 64).startBlock = 1 ∧
    ¬ SoundLayout 64 (writeSuperblock (layout 64) fun _ => 0)
  := by
  have hstart : (layout 64).startBlock = 1 := by decide
  refine ⟨by decide, hstart, ?_⟩
  intro hsound
  have hexact := hsound.startBlock
  rw [sbStartBlock, (load16_writeSuperblock _ _).2, hstart, inodeBlocks_eq] at hexact
  exact absurd hexact (by decide)

end Aefs
