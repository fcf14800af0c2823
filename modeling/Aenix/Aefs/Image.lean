import Aenix.Aefs.Visit

/-!
# Images

A tree fits an image when there are fewer inodes in it than the image has, the inodes end before the data
blocks, and the blocks end before the image does.  For such a tree `mkfs` makes an image that holds it
(`mkfs_spec`).
-/

open Bytes Aenix

namespace Aefs

/-- The number of inodes of a root directory and of what is below it. -/
def Tree.totalInodes (tree : Tree) : ℕ :=
  1 + tree.inodes + tailsFor (blocksFor (256 * tree.length))

/-- The number of blocks of a root directory and of what is below it. -/
def Tree.totalBlocks (tree : Tree) : ℕ :=
  blocksFor (256 * tree.length) + tree.blocks

/-- The inodes and the data blocks of the tree fit an image of `fsSize` MB: the size in bytes is an `int`,
the inodes, which are numbered from 1 on, are below `num_inodes` and lie before the data blocks, and the
blocks lie inside the image and have numbers of 16 bits. -/
structure Fits (fsSize : ℕ) (tree : Tree) : Prop where
  size : fsSize < 2048
  inodes : tree.totalInodes < (layout fsSize).numInodes.toNat
  table : 1024 + 16 * (tree.totalInodes + 1) ≤ 1024 * (layout fsSize).startBlock.toNat
  blocks : (layout fsSize).startBlock.toNat + tree.totalBlocks ≤ 1024 * fsSize
  numbers : tree.totalBlocks ≤ 2 ^ 16

/-- All files are shorter than 2 ^ 24 bytes. -/
def Tree.Small (tree : Tree) : Prop := ∀ content ∈ tree.contents, content.length < 2 ^ 24

/-- The image holds the tree.  The inodes and blocks are numbered consecutively, and what they do not
cover is as it was at first. -/
structure Holds (fsSize : ℕ) (tree : Tree) (image : Image) : Prop where
  tree_eq : image.entries.tree = tree
  root : ∃ a, DirOf (layout fsSize) image.mem image.root tree.length a ∧
    Stored (layout fsSize) image.mem image.entries a
  ids : image.root.id :: (image.entries.ids ++ image.root.tails) = idsFrom 1 tree.totalInodes
  blocks : image.root.blocks ++ image.entries.blocks = idsFrom 0 tree.totalBlocks
  frame : Set.EqOn image.mem (writeSuperblock (layout fsSize) fun _ => 0)
    (inodeArea 1 (1 + tree.totalInodes) ∪ blockArea (layout fsSize) 0 tree.totalBlocks)ᶜ

/-- The superblock is all that is written at first. -/
theorem writeSuperblock_eq_zero (L : Layout) {x : ℕ} (h : 8 ≤ x) :
  writeSuperblock L (fun _ => 0) x = 0
  := by
  rw [writeSuperblock]
  rw [store32, store_of_ge (by simpa [bytes16] using by omega), store16,
    store_of_ge (by simpa [bytes16] using h), store16,
    store_of_ge (by simpa [bytes16] using by omega)]
  rcases lt_or_ge x blockSize with hx | hx
  · apply store_zeros
    rw [Set.mem_Ico]
    omega
  · rw [store_of_ge]
    rw [List.length_replicate]
    omega

/-- For a tree that fits, `mkfs` makes an image that holds it. -/
theorem mkfs_spec {fsSize : ℕ} {tree : Tree} (hfits : Fits fsSize tree) (hsupported : tree.Supported)
    (hsmall : tree.Small) :
  ∃ image, mkfs fsSize tree = some image ∧ Holds fsSize tree image
  := by
  have hinodes := hfits.inodes
  have htable := hfits.table
  have hblocks := hfits.blocks
  have hlt := (layout fsSize).numInodes.toNat_lt
  have hlen := Tree.length_le_inodes hsupported
  have htotal : tree.length < tree.totalInodes := by
    rw [Tree.totalInodes]
    omega
  have hroom : Room (layout fsSize) (tree.totalInodes + 1)
      ⟨writeSuperblock (layout fsSize) fun _ => 0, 1, 0⟩ 1 0
      (1 + tree.inodes + tailsFor (blocksFor (256 * tree.length)))
      (blocksFor (256 * tree.length) + tree.blocks) := by
    refine ⟨by decide, rfl, rfl, ?_, by omega, htable, ?_, ?_⟩
    · rw [Tree.totalInodes, Nat.add_comm]
    · have hnumbers := hfits.numbers
      rwa [Tree.totalBlocks, ← Nat.zero_add (blocksFor _ + _)] at hnumbers
    · intro x hx
      rw [mem_inodeArea] at hx
      apply writeSuperblock_eq_zero
      omega
  obtain ⟨root, entries, s, hdir, htree, hroot, hframe⟩ := visitDir_spec
    (fun dest => visitEntries (layout fsSize) tree dest 0) hroom (by omega) hlen
    fun dest s₁ hs₁ hfit₁ => visitEntries_spec hsupported hsmall (by omega) hs₁
      (by rw [UInt32.toNat_zero]; omega) hfit₁
  obtain ⟨-, s₁, hvisit, -⟩ := visitDir_eq_some_iff.mp hdir
  obtain ⟨hids, hbs⟩ := visitEntries_counts hvisit hsmall (Or.inr (by rw [Tree.totalInodes] at *; omega))
  obtain ⟨htakes, htails, hcount⟩ := visitDir_takes hdir fun dest s s' => visitEntries_takes
  rw [blocksRequired_dir (by omega)] at htails hcount
  have hmkfs : mkfs fsSize tree = some ⟨s.img, root, entries⟩ := by
    rw [mkfs, if_neg (by omega)]
    simp [hdir]
  refine ⟨_, hmkfs, htree, hroot, ?_, ?_, ?_⟩
  · have hlen' : (root.id :: (entries.ids ++ root.tails)).length = tree.totalInodes := by
      rw [List.length_cons, List.length_append, hids, htails, Tree.totalInodes]
      omega
    rw [← hlen']
    apply htakes.ids_eq
  · have hlen' : (root.blocks ++ entries.blocks).length = tree.totalBlocks := by
      rw [List.length_append, hcount, hbs, Tree.totalBlocks]
    rw [← hlen']
    apply htakes.blocks_eq
  · have hframe' := hframe
    rw [Nat.zero_add] at hframe'
    apply hframe'

/-- A root directory with a file `a` of three bytes, and a directory `d` with an empty file `c`. -/
def smallTree : Tree :=
  .file ⟨[97], by decide, by decide⟩ [1, 2, 3]
    (.dir ⟨[100], by decide, by decide⟩ (.file ⟨[99], by decide, by decide⟩ [] .nil) .nil)

theorem smallTree_fits :
  Fits 1 smallTree
  := by
  constructor <;> decide

theorem smallTree_supported :
  smallTree.Supported
  := ⟨trivial, trivial⟩

theorem smallTree_small :
  smallTree.Small
  := by
  rw [Tree.Small]
  decide

/-! ### The superblock of an image -/

theorem load16_writeSuperblock (L : Layout) (m : Memory) :
  load16 (writeSuperblock L m) 4 = L.numInodes ∧ load16 (writeSuperblock L m) 6 = L.startBlock
  := by
  rw [writeSuperblock]
  constructor
  · rw [store32, load16_store (by simp [bytes16]), store16, load16_store (by simp [bytes16]),
      load16_store16]
  · rw [store32, load16_store (by simp [bytes16]), load16_store16]

/-- The superblock is not overwritten. -/
theorem Holds.superblock {fsSize : ℕ} {tree : Tree} {image : Image} (h : Holds fsSize tree image)
    (hfits : Fits fsSize tree) :
  sbMagicNumber image.mem = magicNumber ∧ sbNumInodes image.mem = (layout fsSize).numInodes ∧
    sbStartBlock image.mem = (layout fsSize).startBlock
  := by
  have htable := hfits.table
  have heq : Set.EqOn image.mem (writeSuperblock (layout fsSize) fun _ => 0) (Set.Ico 0 1024) := by
    intro x hx
    rw [Set.mem_Ico] at hx
    apply h.frame
    simp only [Set.mem_compl_iff, Set.mem_union, mem_inodeArea, mem_blockArea]
    omega
  obtain ⟨hnum, hstart⟩ := load16_writeSuperblock (layout fsSize) fun _ => 0
  refine ⟨?_, ?_, ?_⟩
  · rw [sbMagicNumber, load32_congr (heq.mono (by apply Set.Ico_subset_Ico <;> omega))]
    apply load32_store32
  · rw [sbNumInodes, load16_congr (heq.mono (by apply Set.Ico_subset_Ico <;> omega)), hnum]
  · rw [sbStartBlock, load16_congr (heq.mono (by apply Set.Ico_subset_Ico <;> omega)), hstart]

end Aefs
