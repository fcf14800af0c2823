import Aenix.Aefs.Read

/-!
# Faithful images

`mkfs.c` checks only whether the inode of a directory is `num_inodes`.  Inodes of files, further inodes and
blocks may run over, and sizes are cut to 24 bits, and `mkfs` returns nevertheless.  What it returns is
faithful exactly when there are enough inodes and blocks, and all files are shorter than 2 ^ 24 bytes
(`mkfs_faithful_iff`).
-/

open Bytes Aenix

namespace Aefs

variable {fsSize : ℕ} {tree : Tree} {image : Image}

/-- The inodes that are assigned, in the order in which they are taken. -/
def Image.ids (image : Image) : List UInt16 :=
  image.root.id :: (image.entries.ids ++ image.root.tails)

/-- The blocks that are assigned, in the order in which they are taken. -/
def Image.blocks (image : Image) : List UInt16 :=
  image.root.blocks ++ image.entries.blocks

/-- Every inode is below `num_inodes` and used once, every block is below the number of data blocks and
belongs to one file or directory, no inode reaches into the data blocks, and the sizes of the files are
recorded. -/
structure Faithful (fsSize : ℕ) (image : Image) : Prop where
  ids_lt : ∀ id ∈ image.ids, id < (layout fsSize).numInodes
  ids_nodup : image.ids.Nodup
  blocks_lt : ∀ block ∈ image.blocks,
    block.toNat < 1024 * fsSize - (layout fsSize).startBlock.toNat
  blocks_nodup : image.blocks.Nodup
  inodes_apart : ∀ id ∈ image.ids, getInode id + 16 ≤ 1024 * (layout fsSize).startBlock.toNat
  sizes : ∀ file ∈ image.entries.files,
    (inodeSize image.mem (getInode file.1.id)).toNat = file.2.length

/-! ### The layout -/

/-- For at most 63 MB, nothing in the layout is truncated. -/
theorem layout_eq (h : 0 < fsSize) (h' : fsSize ≤ 63) :
  (layout fsSize).numInodes.toNat = 1008 * fsSize - 1 ∧
    (layout fsSize).startBlock.toNat = 1 + 16 * fsSize
  := by
  interval_cases fsSize <;> decide

/-! ### What is assigned -/

/-- What `mkfs` returns, in terms of `visit_dir`. -/
theorem mkfs_eq_some (h : mkfs fsSize tree = some image) :
  0 < fsSize ∧ ∃ s, visitDir (layout fsSize) (UInt32.ofNat tree.length)
    (fun dest => visitEntries (layout fsSize) tree dest 0)
    ⟨writeSuperblock (layout fsSize) fun _ => 0, 1, 0⟩ = some (image.root, image.entries, s) ∧
    image.mem = s.img
  := by
  rw [mkfs] at h
  split at h
  case isTrue => simp at h
  case isFalse hne =>
    simp only [Option.bind_eq_bind, Option.bind_eq_some_iff, Option.pure_def, Option.some.injEq,
      Prod.exists] at h
    obtain ⟨root, entries, s, hdir, rfl⟩ := h
    exact ⟨Nat.pos_of_ne_zero hne, s, hdir, rfl⟩

/-- The inodes and blocks are numbered consecutively. -/
theorem mkfs_takes (h : mkfs fsSize tree = some image) :
  image.ids = idsFrom 1 image.ids.length ∧ image.blocks = idsFrom 0 image.blocks.length
  := by
  obtain ⟨-, s, hdir, -⟩ := mkfs_eq_some h
  obtain ⟨htakes, -, -⟩ := visitDir_takes hdir fun dest s s' => visitEntries_takes
  exact ⟨htakes.ids_eq, htakes.blocks_eq⟩

theorem mkfs_tree (h : mkfs fsSize tree = some image) :
  image.entries.tree = tree
  := by
  obtain ⟨-, s, hdir, -⟩ := mkfs_eq_some h
  obtain ⟨-, s₁, hvisit, -⟩ := visitDir_eq_some_iff.mp hdir
  apply visitEntries_tree hvisit

/-- When files are short and the inodes do not run over, as many inodes and blocks are assigned as are
required. -/
theorem mkfs_counts (h : mkfs fsSize tree = some image) (hsmall : tree.Small)
    (hids : image.ids.length < 2 ^ 16) :
  image.ids.length = tree.totalInodes ∧ image.blocks.length = tree.totalBlocks
  := by
  obtain ⟨-, s, hdir, -⟩ := mkfs_eq_some h
  obtain ⟨-, htails, hblocks⟩ := visitDir_takes hdir fun dest s s' => visitEntries_takes
  obtain ⟨-, s₁, hvisit, -⟩ := visitDir_eq_some_iff.mp hdir
  rw [Image.ids, List.length_cons, List.length_append] at hids ⊢
  obtain ⟨hn, hb⟩ := visitEntries_counts hvisit hsmall (Or.inl (by omega))
  have hlen := image.entries.length_le_ids
  rw [mkfs_tree h] at hlen
  rw [blocksRequired_dir (by omega)] at htails hblocks
  rw [Image.blocks, List.length_append, Tree.totalInodes, Tree.totalBlocks]
  omega

/-- Consecutive numbers below a bound: there are fewer of them than the bound. -/
theorem length_le_of_idsFrom {ids : List UInt16} {a bound : ℕ} (hids : ids = idsFrom (UInt16.ofNat a) ids.length)
    (ha : a ≤ bound) (hbound : bound < 2 ^ 16) (hlt : ∀ id ∈ ids, id.toNat < bound) :
  a + ids.length ≤ bound
  := by
  by_contra hgt
  have hmem : UInt16.ofNat a + UInt16.ofNat (bound - a) ∈ ids := by
    rw [hids, mem_idsFrom]
    exact ⟨bound - a, by omega, rfl⟩
  have hbad := hlt _ hmem
  rw [toNat_ofNat_add (by omega)] at hbad
  omega

theorem Placed.supported (placed : Placed) :
  placed.tree.Supported
  := by
  induction placed with
  | nil => trivial
  | file name extent content rest ih => apply ih
  | dir name extent below rest ihBelow ih => exact ⟨ihBelow, ih⟩

/-! ### Faithfulness -/

/-- A faithful image has enough inodes and blocks, and its files are short. -/
theorem Faithful.enough (hpos : 0 < fsSize) (hle : fsSize ≤ 63) (h : mkfs fsSize tree = some image)
    (hfaithful : Faithful fsSize image) :
  tree.totalInodes < 1008 * fsSize - 1 ∧ tree.totalBlocks ≤ 1008 * fsSize - 1 ∧ tree.Small
  := by
  obtain ⟨hnum, hstart⟩ := layout_eq hpos hle
  obtain ⟨hids, hblocks⟩ := mkfs_takes h
  have hsmall : tree.Small := by
    intro content hcontent
    rw [← mkfs_tree h, ← Placed.files_contents] at hcontent
    obtain ⟨file, hfile, rfl⟩ := List.mem_map.mp hcontent
    rw [← hfaithful.sizes file hfile]
    apply inodeSize_lt
  have hidsLe : 1 + image.ids.length ≤ 1008 * fsSize - 1 := by
    apply length_le_of_idsFrom (a := 1) hids (by omega) (by omega)
    intro id hid
    rw [← hnum]
    apply UInt16.lt_iff_toNat_lt.mp (hfaithful.ids_lt id hid)
  have hblocksLe : 0 + image.blocks.length ≤ 1008 * fsSize - 1 := by
    apply length_le_of_idsFrom (a := 0) hblocks (by omega) (by omega)
    intro block hblock
    have hlt := hfaithful.blocks_lt block hblock
    omega
  obtain ⟨hn, hb⟩ := mkfs_counts h hsmall (by omega)
  exact ⟨by omega, by omega, hsmall⟩

/-- With enough inodes and blocks, and short files, the image is faithful. -/
theorem faithful_of_enough (hpos : 0 < fsSize) (hle : fsSize ≤ 63) (h : mkfs fsSize tree = some image)
    (hinodes : tree.totalInodes < 1008 * fsSize - 1) (hblocks : tree.totalBlocks ≤ 1008 * fsSize - 1)
    (hsmall : tree.Small) :
  Faithful fsSize image
  := by
  obtain ⟨hnum, hstart⟩ := layout_eq hpos hle
  have hfits : Fits fsSize tree := by
    constructor <;> omega
  have hsupported : tree.Supported := by
    rw [← mkfs_tree h]
    apply Placed.supported
  obtain ⟨image', h', hholds⟩ := mkfs_spec hfits hsupported hsmall
  obtain rfl : image = image' := Option.some.inj (h.symm.trans h')
  have hids : image.ids = idsFrom 1 tree.totalInodes := hholds.ids
  have hbs : image.blocks = idsFrom 0 tree.totalBlocks := hholds.blocks
  have hid : ∀ id ∈ image.ids, id.toNat < 1008 * fsSize - 1 := by
    intro id hid
    rw [hids] at hid
    obtain ⟨k, hk, rfl⟩ := mem_idsFrom.mp hid
    change (UInt16.ofNat 1 + UInt16.ofNat k).toNat < _
    rw [toNat_ofNat_add (by omega)]
    omega
  obtain ⟨a, -, hstored⟩ := hholds.root
  constructor
  · intro id hmem
    rw [UInt16.lt_iff_toNat_lt, hnum]
    apply hid id hmem
  · rw [hids]
    apply nodup_idsFrom (n := 1) (by omega)
  · intro block hblock
    rw [hbs] at hblock
    obtain ⟨k, hk, rfl⟩ := mem_idsFrom.mp hblock
    change (UInt16.ofNat 0 + UInt16.ofNat k).toNat < _
    rw [toNat_ofNat_add (by omega)]
    omega
  · rw [hbs]
    apply nodup_idsFrom (n := 0) (by omega)
  · intro id hmem
    have hlt := hid id hmem
    rw [getInode, hstart]
    dsimp only [blockSize]
    omega
  · intro file hfile
    apply (hstored.fileOf hfile).inode.size_eq

/-- For every image size and every tree: when `mkfs` returns, what it has made is faithful if and only if
the tree takes fewer inodes than the image has, no more blocks than it has, and all files are shorter than
2 ^ 24 bytes. -/
theorem mkfs_faithful_iff (hpos : 0 < fsSize) (hle : fsSize ≤ 63) (h : mkfs fsSize tree = some image) :
  Faithful fsSize image ↔
    tree.totalInodes < 1008 * fsSize - 1 ∧ tree.totalBlocks ≤ 1008 * fsSize - 1 ∧ tree.Small
  := by
  constructor
  · intro hfaithful
    apply hfaithful.enough hpos hle h
  · rintro ⟨hinodes, hblocks, hsmall⟩
    apply faithful_of_enough hpos hle h hinodes hblocks hsmall

theorem mkfs_faithful_smallTree :
  ∃ image, mkfs 1 smallTree = some image ∧
    (Faithful 1 image ↔ smallTree.totalInodes < 1008 * 1 - 1 ∧ smallTree.totalBlocks ≤ 1008 * 1 - 1 ∧
      smallTree.Small)
  := by
  obtain ⟨image, hmkfs, -⟩ := mkfs_spec smallTree_fits smallTree_supported smallTree_small
  exact ⟨image, hmkfs, mkfs_faithful_iff (by decide) (by decide) hmkfs⟩

/-- `mkfs` returns for a root directory with one file. -/
theorem mkfs_file (fsSize : ℕ) (hpos : 0 < fsSize) (hne : (layout fsSize).numInodes ≠ 1) (name : Name)
    (content : List UInt8) :
  ∃ image extent, mkfs fsSize (.file name content .nil) = some image ∧
    image.entries.files = [(extent, content)]
  := by
  rw [mkfs, if_neg hpos.ne']
  simp only [visitDir, if_neg (Ne.symm hne), visitEntries]
  exact ⟨_, _, rfl, rfl⟩

theorem a_ne_nil :
  ([97] : List UInt8) ≠ []
  := by decide

theorem nul_notMem_a :
  (0 : UInt8) ∉ [97]
  := by decide

/-- A root directory with a file `a` of 2 ^ 24 bytes. -/
def longTree : Tree := .file ⟨[97], a_ne_nil, nul_notMem_a⟩ (List.replicate (2 ^ 24) 0) .nil

/-- In an image of 63 MB there is enough room for the file of `longTree`, but not for its size in the inode. -/
theorem long_file_not_faithful :
  ∃ image, mkfs 63 longTree = some image ∧ ¬ Faithful 63 image
  := by
  obtain ⟨image, extent, hmkfs, hfiles⟩ :=
    mkfs_file 63 (by decide) (by decide) ⟨[97], a_ne_nil, nul_notMem_a⟩ (List.replicate (2 ^ 24) 0)
  refine ⟨image, hmkfs, ?_⟩
  intro hfaithful
  have hsize := hfaithful.sizes (extent, List.replicate (2 ^ 24) 0)
    (by rw [hfiles]; exact List.mem_singleton.mpr rfl)
  rw [List.length_replicate] at hsize
  apply (inodeSize_lt image.mem (getInode extent.id)).ne hsize

end Aefs
