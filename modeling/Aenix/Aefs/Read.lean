import Aenix.Aefs.Image

/-!
# Reading a file

`aefs_read` copies the blocks of a file to a buffer, following the chain of its inodes.  From an image made
by `mkfs` it reads the contents of the file.
-/

open Bytes Aenix

namespace Aefs

/-! ### The code -/

/-- The variables of the loop of `aefs_read`, and the memory in which the buffer is. -/
structure ReadState where
  current : ℕ
  size : UInt32
  read : UInt32
  mem : Memory

/-- A round of the loop of `aefs_read`. -/
def readRound (m : Memory) (buf i : ℕ) (s : ReadState) : ReadState :=
  let current := nextInode m i s.current
  let toRead := minu s.size 1024
  let block := getBlock (sbStartBlock m) (inodeBlock m current (i % inodeNumBlocks))
  { current := current
    size := s.size - toRead
    read := s.read + toRead
    mem := store s.mem (buf + s.read.toNat) (load m block toRead.toNat) }

/-- The first `n` rounds of the loop of `aefs_read`. -/
def readRounds (m : Memory) (buf : ℕ) : ℕ → ReadState → ReadState
  | 0, s => s
  | n + 1, s => readRound m buf n (readRounds m buf n s)

/-- `aefs_read` of `count` bytes to the address `buf` of a memory. -/
def aefsRead (m : Memory) (inode buf : ℕ) (count : UInt32) (mem : Memory) : Int × Memory :=
  if inodeType m inode ≠ filetypeReg then
    (-1, mem)
  else
    let size := minu count (inodeSize m inode)
    let blocks := divCeil size 1024
    let s := readRounds m buf blocks.toNat ⟨inode, size, 0, mem⟩
    (s.read.toInt32.toInt, s.mem)

/-! ### What is read -/

variable {L : Layout} {m mem : Memory} {e : Extent} {content : List UInt8} {buf : ℕ}

theorem toNat_minu (a b : UInt32) :
  (minu a b).toNat = min a.toNat b.toNat
  := by
  rw [minu]
  split
  case isTrue h =>
    rw [Nat.min_eq_left (UInt32.lt_iff_toNat_lt.mp h).le]
  case isFalse h =>
    rw [Nat.min_eq_right (Nat.le_of_not_lt fun h' => h (UInt32.lt_iff_toNat_lt.mpr h'))]

/-- When there is nothing to read, no round does anything. -/
theorem readRounds_zero (m : Memory) (buf inode : ℕ) (mem : Memory) (n : ℕ) :
  let s := readRounds m buf n ⟨inode, 0, 0, mem⟩
  s.size = 0 ∧ s.read = 0 ∧ s.mem = mem
  := by
  induction n with
  | zero => exact ⟨rfl, rfl, rfl⟩
  | succ n ih =>
      obtain ⟨hsize, hread, hmem⟩ := ih
      have hto : minu 0 1024 = 0 := by decide
      rw [readRounds]
      refine ⟨?_, ?_, ?_⟩
      · simp [readRound, hsize, hto]
      · simp [readRound, hsize, hread, hto]
      · simp [readRound, hsize, hmem, hto, load]

/-- After `i` rounds, the first `i` blocks have been read. -/
structure ReadTo (e : Extent) (content : List UInt8) (buf : ℕ) (mem : Memory) (size i : ℕ)
    (s : ReadState) : Prop where
  current : s.current = getInode (e.node (tailsFor i))
  size_eq : s.size.toNat = size - min (1024 * i) size
  read_eq : s.read.toNat = min (1024 * i) size
  mem_eq : s.mem = store mem buf (content.take (min (1024 * i) size))

/-- One round reads one block. -/
theorem ReadTo.round {size i : ℕ} {s : ReadState} (h : ReadTo e content buf mem size i s)
    (hfile : FileOf L m e content) (hstart : sbStartBlock m = L.startBlock) (hsize : size < 2 ^ 24)
    (hle : size ≤ content.length) (hi : 1024 * i < size) :
  ReadTo e content buf mem size (i + 1) (readRound m buf i s)
  := by
  have hlen := hfile.inode.blocks_length
  have htails := hfile.inode.tails_length
  have hsucc : min (1024 * (i + 1)) size = 1024 * i + min (size - 1024 * i) 1024 := by omega
  have hlt : i < e.blocks.length := by
    rw [hlen, blocksFor]
    omega
  have hnode : i / 5 ≤ e.tails.length := by
    rw [htails, ← hlen, tailsFor]
    omega
  have hcurrent : nextInode m i s.current = getInode (e.node (tailsFor (i + 1))) := by
    rw [h.current, hfile.inode.chain.nextInode_eq hnode]
  have hto : (minu s.size 1024).toNat = min (size - 1024 * i) 1024 := by
    rw [toNat_minu, h.size_eq, Nat.min_eq_left hi.le]
    rfl
  have hread := h.read_eq
  rw [Nat.min_eq_left hi.le] at hread
  constructor
  · apply hcurrent
  · rw [readRound, UInt32.toNat_sub_of_le _ _ (UInt32.le_iff_toNat_le.mpr _), h.size_eq, hto]
    · omega
    · rw [hto, h.size_eq]
      omega
  · rw [readRound, UInt32.toNat_add, hread, hto]
    omega
  · obtain ⟨a, hblocks, hload⟩ := hfile.data
    dsimp only [readRound]
    rw [hcurrent, hfile.inode.chain.inodeBlock_eq hnode, List.getD_eq_getElem _ _ hlt, hstart,
      hblocks i hlt, hread, h.mem_eq, Nat.min_eq_left hi.le, hto, load_slice hload (by omega), hsucc,
      List.take_add]
    have hlen' : (content.take (1024 * i)).length = 1024 * i := by
      rw [List.length_take]
      omega
    nth_rewrite 2 [← hlen']
    apply store_append

/-- The rounds read one block after the other. -/
theorem readRounds_spec (hfile : FileOf L m e content) (hstart : sbStartBlock m = L.startBlock)
    (buf : ℕ) (mem : Memory) {size : UInt32} (hsize : size.toNat < 2 ^ 24)
    (hle : size.toNat ≤ content.length) {i : ℕ} (hi : i ≤ blocksFor size.toNat) :
  ReadTo e content buf mem size.toNat i (readRounds m buf i ⟨getInode e.id, size, 0, mem⟩)
  := by
  induction i with
  | zero => exact ⟨rfl, by simp [readRounds], by simp [readRounds], by simp [readRounds]⟩
  | succ i ih =>
      apply (ih (by omega)).round hfile hstart hsize hle
      rw [blocksFor] at hi
      omega

theorem toInt_toInt32 {x : UInt32} (h : x.toNat < 2 ^ 31) :
  x.toInt32.toInt = x.toNat
  := by
  change x.toBitVec.toInt = _
  rw [BitVec.toInt_eq_toNat_of_lt]
  · rfl
  · change 2 * x.toNat < 2 ^ 32
    omega

/-- `aefs_read` of a file that is stored. -/
theorem aefsRead_spec (hfile : FileOf L m e content) (hstart : sbStartBlock m = L.startBlock)
    (buf : ℕ) (count : UInt32) (mem : Memory) :
  aefsRead m (getInode e.id) buf count mem =
    (((min count.toNat content.length : ℕ) : ℤ), store mem buf (content.take count.toNat))
  := by
  have htype := hfile.inode.type_eq
  have hsize := hfile.inode.size_eq
  have hlt := inodeSize_lt m (getInode e.id)
  have hmin : (minu count (inodeSize m (getInode e.id))).toNat = min count.toNat content.length := by
    rw [toNat_minu, hsize]
  have htake : content.take count.toNat = content.take (min count.toNat content.length) := by
    rw [List.take_eq_take_iff]
    omega
  rw [aefsRead, if_neg (by rw [htype]; decide), htake]
  generalize minu count (inodeSize m (getInode e.id)) = size at hmin
  have hle : size.toNat ≤ content.length := by omega
  rw [← hmin]
  rcases Nat.eq_zero_or_pos size.toNat with h0 | h0
  · -- the loop runs 2 ^ 22 times and copies nothing
    obtain rfl : size = 0 := UInt32.toNat_inj.mp h0
    obtain ⟨-, hread, hmem⟩ := readRounds_zero m buf (getInode e.id) mem (divCeil 0 1024).toNat
    dsimp only
    rw [hread, hmem, UInt32.toNat_zero, List.take_zero, store_nil]
    rfl
  · have hdone := readRounds_spec hfile hstart buf mem (show size.toNat < 2 ^ 24 by omega) hle le_rfl
    have hall : min (1024 * blocksFor size.toNat) size.toNat = size.toNat := by
      apply Nat.min_eq_right
      apply le_blocksFor
    have hread := hdone.read_eq
    rw [hall] at hread
    dsimp only
    rw [toNat_divCeil_block h0, toInt_toInt32 (by omega), hread, hdone.mem_eq, hall]

/-! ### Images -/

/-- The files with what is assigned to them, and their contents. -/
def Placed.files : Placed → List (Extent × List UInt8)
  | .nil => []
  | .file _ extent content rest => (extent, content) :: rest.files
  | .dir _ _ entries rest => entries.files ++ rest.files

/-- These are all files of the tree. -/
theorem Placed.files_contents (placed : Placed) :
  placed.files.map Prod.snd = placed.tree.contents
  := by
  induction placed with
  | nil => rfl
  | file name extent content rest ih => simp [files, tree, Tree.contents, ih]
  | dir name extent entries rest ihBelow ih => simp [files, tree, Tree.contents, ih, ihBelow]

theorem Stored.fileOf {placed : Placed} {a : ℕ} (h : Stored L m placed a)
    (hmem : (e, content) ∈ placed.files) :
  FileOf L m e content
  := by
  induction placed generalizing a with
  | nil => simp [Placed.files] at hmem
  | file name extent content' rest ih =>
      obtain ⟨-, hfile, hrest⟩ := h
      rcases List.mem_cons.mp hmem with heq | hmem
      · obtain ⟨rfl, rfl⟩ := Prod.mk.inj heq
        apply hfile
      · apply ih hrest hmem
  | dir name extent entries rest ihBelow ih =>
      obtain ⟨-, ⟨b, -, hbelow⟩, hrest⟩ := h
      rcases List.mem_append.mp hmem with hmem | hmem
      · apply ihBelow hbelow hmem
      · apply ih hrest hmem

/-- For every tree that fits the image, and every file in it, `aefs_read` returns the number of bytes it
reads, which is `count` or the size of the file, and copies this much of the file to the buffer and
nothing else. -/
theorem aefs_read_exact {fsSize : ℕ} {tree : Tree} (hfits : Fits fsSize tree)
    (hsupported : tree.Supported) (hsmall : tree.Small) :
  ∃ image, mkfs fsSize tree = some image ∧ image.entries.files.map Prod.snd = tree.contents ∧
    ∀ file ∈ image.entries.files, ∀ (buf : ℕ) (count : UInt32) (mem : Memory),
      aefsRead image.mem (getInode file.1.id) buf count mem =
        (((min count.toNat file.2.length : ℕ) : ℤ), store mem buf (file.2.take count.toNat))
  := by
  obtain ⟨image, hmkfs, hholds⟩ := mkfs_spec hfits hsupported hsmall
  obtain ⟨-, -, hstart⟩ := hholds.superblock hfits
  obtain ⟨a, -, hstored⟩ := hholds.root
  refine ⟨image, hmkfs, ?_, ?_⟩
  · rw [Placed.files_contents, hholds.tree_eq]
  · intro file hfile buf count mem
    apply aefsRead_spec (hstored.fileOf hfile) hstart

/-- The files of `smallTree` are read as they are. -/
theorem aefs_read_smallTree :
  Fits 1 smallTree ∧ smallTree.Supported ∧ smallTree.Small ∧
    ∃ image, mkfs 1 smallTree = some image ∧
      image.entries.files.map Prod.snd = [[1, 2, 3], []] ∧
      ∀ file ∈ image.entries.files, ∀ (buf : ℕ) (count : UInt32) (mem : Memory),
        aefsRead image.mem (getInode file.1.id) buf count mem =
          (((min count.toNat file.2.length : ℕ) : ℤ), store mem buf (file.2.take count.toNat))
  := ⟨smallTree_fits, smallTree_supported, smallTree_small,
    aefs_read_exact smallTree_fits smallTree_supported smallTree_small⟩

end Aefs
