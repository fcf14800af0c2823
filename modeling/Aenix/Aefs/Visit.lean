import Aenix.Aefs.Stored

/-!
# What `mkfs` stores

When there is room for them, the files and directories that `visit_dir` visits are stored as they are,
and nothing is written but the inodes and blocks that are taken, and the entries of the directory
(`visitEntries_spec`).
-/

open Bytes Aenix

namespace Aefs

/-! ### Files -/

/-- The loop of `fread` copies the file. -/
theorem freadLoop_eq {n : ℕ} {content : List UInt8} (h : content.length < n) (dest : ℕ) (img : Memory) :
  freadLoop n content dest img = store img dest content
  := by
  induction n generalizing content dest img with
  | zero => omega
  | succ n ih =>
      cases content with
      | nil => simp [freadLoop]
      | cons c content =>
          have htake : (c :: content).take blockSize = c :: content.take (blockSize - 1) := rfl
          have hdrop : (c :: content).drop blockSize = content.drop (blockSize - 1) := rfl
          rw [List.length_cons] at h
          rw [freadLoop, htake]
          dsimp only
          rw [← htake, hdrop, ih (by rw [List.length_drop]; omega), ← hdrop]
          rcases lt_or_ge (c :: content).length blockSize with hlt | hge
          · -- the last block, which may be shorter
            rw [List.take_of_length_le hlt.le, List.drop_eq_nil_of_le hlt.le, store_nil]
          · have hlen : ((c :: content).take blockSize).length = blockSize := by
              rw [List.length_take]
              omega
            nth_rewrite 2 [← hlen]
            rw [store_append, List.take_append_drop]

/-- The data blocks from `lo` to `hi`. -/
def blockArea (L : Layout) (lo hi : ℕ) : Set ℕ :=
  Set.Ico (blockSize * (L.startBlock.toNat + lo)) (blockSize * (L.startBlock.toNat + hi))

@[simp]
theorem mem_inodeArea {lo hi x : ℕ} :
  x ∈ inodeArea lo hi ↔ 1024 + 16 * lo ≤ x ∧ x < 1024 + 16 * hi
  := Iff.rfl

@[simp]
theorem mem_blockArea {L : Layout} {lo hi x : ℕ} :
  x ∈ blockArea L lo hi ↔
    1024 * (L.startBlock.toNat + lo) ≤ x ∧ x < 1024 * (L.startBlock.toNat + hi)
  := Iff.rfl

theorem toNat_fillInodeSize (m : Memory) (a : ℕ) {size : UInt32} (h : size.toNat < 2 ^ 24) :
  (inodeSize (fillInodeSize m a size) a).toNat = size.toNat
  := by
  have hlow : inodeSizeLow (fillInodeSize m a size) a = (size &&& 0xFFFF).toUInt16 := by
    rw [inodeSizeLow, fillInodeSize, load16_store (by simp), load16_store16]
  have hhigh : inodeSizeHigh (fillInodeSize m a size) a = ((size >>> 16) &&& 0xFF).toUInt8 := by
    rw [inodeSizeHigh, fillInodeSize]
    apply store_add (i := 0) (by simp)
  rw [toNat_inodeSize, hlow, hhigh, UInt32.toNat_toUInt16, UInt32.toNat_toUInt8, UInt32.toNat_and,
    UInt32.toNat_and, UInt32.toNat_shiftRight]
  simp only [UInt32.reduceToNat]
  rw [show 65535 = 2 ^ 16 - 1 by rfl, show 255 = 2 ^ 8 - 1 by rfl, Nat.and_two_pow_sub_one_eq_mod,
    Nat.and_two_pow_sub_one_eq_mod, Nat.shiftRight_eq_div_pow, show 16 % 32 = 16 by rfl]
  omega

theorem fillInodeSize_eqOn (m : Memory) (a : ℕ) (size : UInt32) :
  Set.EqOn (fillInodeSize m a size) m (Set.Ico (a + 1) (a + 4))ᶜ
  := by
  intro x hx
  rw [Set.mem_compl_iff, Set.mem_Ico] at hx
  rw [fillInodeSize, store_eqOn, store16, store_eqOn]
  · simp only [Set.mem_compl_iff, Set.mem_Ico, bytes16, List.length_cons, List.length_nil]
    omega
  · simp only [Set.mem_compl_iff, Set.mem_Ico, List.length_cons, List.length_nil]
    omega

/-- An inode of which the first four bytes are written has, once `fill_inode_blocks` has filled it, the
type and the size, and lists the blocks. -/
theorem inodeOf_fill {s : Mkfs} {id : UInt16} {n size : ℕ} {type : UInt8} {count : UInt16}
    (startBlockId : UInt16) (hn : s.nextInodeId = UInt16.ofNat n) (hid : id.toNat < n)
    (hcount : count.toNat = blocksFor size) (hroom : n + tailsFor (blocksFor size) ≤ 2 ^ 16)
    (hzero : ∀ x ∈ Set.Ico (getInode id + 4) (getInode id + 16), s.img x = 0)
    (htype : inodeType s.img (getInode id) = type)
    (hsize : (inodeSize s.img (getInode id)).toNat = size) :
  let F := fillInodeBlocks (getInode id) count startBlockId s
  InodeOf F.mkfs.img ⟨id, F.tails, F.blocks⟩ type size ∧
    Set.EqOn F.mkfs.img s.img (fillArea id n (blocksFor size))ᶜ
  := by
  obtain ⟨htails, hblocks, -, -⟩ := fillInodeBlocks_takes (getInode id) count startBlockId s
  have hfilled := fillInodeBlocks_spec startBlockId hn hid
    (by rw [hcount]; exact hroom) hzero
  generalize fillInodeBlocks (getInode id) count startBlockId s = F at *
  have hframe := hfilled.frame
  rw [hcount] at htails hblocks hframe
  -- the first four bytes are not changed
  have hbyte : ∀ k < 4, F.mkfs.img (getInode id + k) = s.img (getInode id + k) := by
    intro k hk
    apply hframe
    simp only [fillArea, Set.mem_compl_iff, Set.mem_union, Set.mem_Ico, mem_inodeArea, getInode,
      blockSize]
    omega
  refine ⟨⟨?_, ?_, hfilled.chain, ?_, ?_, ?_⟩, hframe⟩
  · rw [← htype]
    apply hbyte 0 (by decide)
  · rw [← hsize, inodeSize, inodeSize, inodeSizeLow, inodeSizeLow, inodeSizeHigh, inodeSizeHigh,
      load16, load16, hbyte 1 (by decide), hbyte 2 (by decide), add_assoc, hbyte (2 + 1) (by decide)]
  · dsimp only
    rw [hblocks, length_idsFrom]
  · dsimp only
    rw [htails, length_idsFrom]
  · dsimp only
    rw [htails, hn, mem_idsFrom]
    rintro ⟨k, hk, heq⟩
    have h0 := congrArg UInt16.toNat heq
    rw [toNat_ofNat_add (by omega), UInt16.toNat_zero] at h0
    omega

/-- The first four bytes of an inode are written. -/
theorem header_spec (m : Memory) (a : ℕ) (type : UInt8) (size : UInt32) (h : size.toNat < 2 ^ 24) :
  let m' := fillInodeSize (store m a [type]) a size
  inodeType m' a = type ∧ (inodeSize m' a).toNat = size.toNat ∧
    Set.EqOn m' m (Set.Ico a (a + 4))ᶜ
  := by
  refine ⟨?_, toNat_fillInodeSize _ a h, ?_⟩
  · rw [inodeType, fillInodeSize_eqOn]
    · apply store_add (i := 0) (by simp)
    · simp
  · intro x hx
    rw [Set.mem_compl_iff, Set.mem_Ico] at hx
    rw [fillInodeSize_eqOn, store_eqOn]
    · simp only [Set.mem_compl_iff, Set.mem_Ico, List.length_cons, List.length_nil]
      omega
    · simp only [Set.mem_compl_iff, Set.mem_Ico]
      omega

/-- An inode that is zero is written: its type and size first, and its blocks when `k` is the next
inode.  Something else may have been written in between. -/
theorem inode_spec {m : Memory} {s : Mkfs} {n k size : ℕ} {type : UInt8} {count : UInt16}
    (startBlockId : UInt16) (hsmall : size < 2 ^ 24) (hcount : count.toNat = blocksFor size)
    (hk : s.nextInodeId = UInt16.ofNat k) (hnk : n < k)
    (hroom : k + tailsFor (blocksFor size) ≤ 2 ^ 16) (hzero : ∀ x ∈ inodeArea n (n + 1), m x = 0)
    (himg : Set.EqOn s.img (fillInodeSize (store m (getInode (UInt16.ofNat n)) [type])
      (getInode (UInt16.ofNat n)) (UInt32.ofNat size)) (inodeArea n (n + 1))) :
  let F := fillInodeBlocks (getInode (UInt16.ofNat n)) count startBlockId s
  InodeOf F.mkfs.img ⟨UInt16.ofNat n, F.tails, F.blocks⟩ type size ∧
    Set.EqOn F.mkfs.img s.img
      (inodeArea n (n + 1) ∪ inodeArea k (k + tailsFor (blocksFor size)))ᶜ
  := by
  have hid : (UInt16.ofNat n).toNat = n := by
    rw [UInt16.toNat_ofNat']
    omega
  have hsize : (UInt32.ofNat size).toNat = size := toNat_ofNat_size hsmall
  obtain ⟨htype, hinode, hheader⟩ := header_spec m (getInode (UInt16.ofNat n)) type
    (UInt32.ofNat size) (by rw [hsize]; exact hsmall)
  rw [hsize] at hinode
  generalize fillInodeSize _ _ _ = m' at htype hinode hheader himg
  have hbyte : ∀ j < 16,
      s.img (getInode (UInt16.ofNat n) + j) = m' (getInode (UInt16.ofNat n) + j) := by
    intro j hj
    apply himg
    simp only [mem_inodeArea, getInode, blockSize]
    omega
  have htype' : inodeType s.img (getInode (UInt16.ofNat n)) = type := by
    rw [← htype]
    apply hbyte 0 (by decide)
  have hinode' : (inodeSize s.img (getInode (UInt16.ofNat n))).toNat = size := by
    rw [← hinode, inodeSize, inodeSize, inodeSizeLow, inodeSizeLow, inodeSizeHigh, inodeSizeHigh,
      load16, load16, hbyte 1 (by decide), hbyte 2 (by decide), add_assoc, hbyte (2 + 1) (by decide)]
  have hzero' : ∀ x ∈ Set.Ico (getInode (UInt16.ofNat n) + 4) (getInode (UInt16.ofNat n) + 16),
      s.img x = 0 := by
    intro x hx
    simp only [Set.mem_Ico, getInode, blockSize] at hx
    rw [himg (by rw [mem_inodeArea]; omega), hheader, hzero x (by rw [mem_inodeArea]; omega)]
    simp only [Set.mem_compl_iff, Set.mem_Ico, getInode, blockSize]
    omega
  obtain ⟨hof, hframe⟩ := inodeOf_fill startBlockId hk
    (by rw [hid]; exact hnk) hcount hroom hzero' htype' hinode'
  use hof
  apply hframe.mono
  apply Set.compl_subset_compl.mpr
  intro x hx
  simp only [fillArea, Set.mem_union, Set.mem_Ico, mem_inodeArea, getInode, blockSize] at hx ⊢
  omega

/-- There is room for the given numbers of inodes, of which `n` is the next and `N` the end, and of
blocks, of which `b` is the next.  The inodes not yet taken are zero. -/
structure Room (L : Layout) (N : ℕ) (s : Mkfs) (n b inodes blocks : ℕ) : Prop where
  pos : 0 < n
  nextInodeId : s.nextInodeId = UInt16.ofNat n
  nextBlockId : s.nextBlockId = UInt16.ofNat b
  inodes_le : n + inodes ≤ N
  end_le : N ≤ 2 ^ 16
  table : 1024 + 16 * N ≤ 1024 * L.startBlock.toNat
  blocks_le : b + blocks ≤ 2 ^ 16
  fresh : ∀ x ∈ inodeArea n N, s.img x = 0

section Visit

variable {L : Layout} {N n b inodes blocks : ℕ} {s : Mkfs}

theorem getBlock_ofNat {k : ℕ} (h : b + k < 2 ^ 16) :
  getBlock L.startBlock (UInt16.ofNat b + UInt16.ofNat k) = 1024 * (L.startBlock.toNat + b) + 1024 * k
  := by
  rw [getBlock, toNat_ofNat_add h]
  dsimp only [blockSize]
  ring

/-- Blocks that are taken one after the other lie one after the other. -/
theorem blocksFrom_idsFrom {k : ℕ} (h : b + k ≤ 2 ^ 16) :
  BlocksFrom L (idsFrom (UInt16.ofNat b) k) (1024 * (L.startBlock.toNat + b))
  := by
  intro j hj
  rw [length_idsFrom] at hj
  rw [getElem_idsFrom, getBlock_ofNat (by omega)]

/-- Where a file or directory without blocks begins does not matter. -/
theorem store_getBlock (m : Memory) {bs : List UInt8} {k : ℕ} (hlen : bs.length ≤ 1024 * k)
    (h : b + k ≤ 2 ^ 16) :
  store m (getBlock L.startBlock (UInt16.ofNat b)) bs = store m (1024 * (L.startBlock.toNat + b)) bs
  := by
  cases bs with
  | nil => rw [store_nil, store_nil]
  | cons c bs =>
      rw [List.length_cons] at hlen
      have haddr := getBlock_ofNat (L := L) (b := b) (k := 0) (by omega)
      rw [show UInt16.ofNat 0 = 0 by rfl, UInt16.add_zero, Nat.mul_zero, Nat.add_zero] at haddr
      rw [haddr]

/-- A file is stored. -/
theorem visitFile_spec {content : List UInt8}
    (h : Room L N s n b (1 + tailsFor (blocksFor content.length)) (blocksFor content.length))
    (hsmall : content.length < 2 ^ 24) :
  FileOf L (visitFile L content s).2.img (visitFile L content s).1 content ∧
    Set.EqOn (visitFile L content s).2.img s.img
      (inodeArea n (n + (1 + tailsFor (blocksFor content.length))) ∪
        blockArea L b (b + blocksFor content.length))ᶜ
  := by
  have hN := h.inodes_le
  have hN' := h.end_le
  have htable := h.table
  have hle := le_blocksFor content.length
  have hcount : (divCeil (UInt32.ofNat content.length) 1024).toUInt16.toNat =
      blocksFor content.length := by
    have hsize := toNat_ofNat_size hsmall
    rw [(toNat_divCeil_words _ (by rw [hsize]; exact hsmall)).1, hsize]
  dsimp only [visitFile]
  rw [freadLoop_eq (by omega), h.nextBlockId, store_getBlock _ hle h.blocks_le, h.nextInodeId]
  generalize (divCeil (UInt32.ofNat content.length) 1024).toUInt16 = count at hcount
  have hheader := (header_spec s.img (getInode (UInt16.ofNat n)) filetypeReg
    (UInt32.ofNat content.length) (by rw [toNat_ofNat_size hsmall]; exact hsmall)).2.2
  generalize hm : fillInodeSize _ _ _ = m at hheader ⊢
  have hdata : Set.EqOn (store m (1024 * (L.startBlock.toNat + b)) content) m
      (inodeArea n (n + 1)) := by
    intro x hx
    rw [mem_inodeArea] at hx
    apply store_of_lt
    omega
  generalize hs₁ : Mkfs.mk (store m (1024 * (L.startBlock.toNat + b)) content) (UInt16.ofNat n + 1)
    (UInt16.ofNat b + count) = s₁
  have himg : s₁.img = store m (1024 * (L.startBlock.toNat + b)) content := by rw [← hs₁]
  have hnext : s₁.nextInodeId = UInt16.ofNat (n + 1) := by
    rw [← hs₁, UInt16.ofNat_add]
    rfl
  obtain ⟨hof, hframe⟩ := inode_spec (m := s.img) (s := s₁) (n := n) (k := n + 1) (UInt16.ofNat b) hsmall hcount
    hnext (by omega) (by omega)
    (fun x hx => h.fresh x (by rw [mem_inodeArea] at hx ⊢; omega)) (by rw [hm, himg]; exact hdata)
  obtain ⟨-, hblocks, -, -⟩ :=
    fillInodeBlocks_takes (getInode (UInt16.ofNat n)) count (UInt16.ofNat b) s₁
  rw [himg] at hframe
  refine ⟨⟨hof, 1024 * (L.startBlock.toNat + b), ?_, ?_⟩, ?_⟩
  · dsimp only
    rw [hblocks, hcount]
    apply blocksFrom_idsFrom h.blocks_le
  · nth_rewrite 2 [← load_store m (1024 * (L.startBlock.toNat + b)) content]
    apply load_congr
    apply hframe.mono
    intro x hx
    simp only [Set.mem_Ico, Set.mem_compl_iff, Set.mem_union, mem_inodeArea] at hx ⊢
    omega
  · intro x hx
    simp only [Set.mem_compl_iff, Set.mem_union, mem_inodeArea, mem_blockArea] at hx
    rw [hframe, store_eqOn, hheader]
    · simp only [Set.mem_compl_iff, Set.mem_Ico, getInode_ofNat (show n < 2 ^ 16 by omega), blockSize]
      omega
    · simp only [Set.mem_compl_iff, Set.mem_Ico]
      omega
    · simp only [Set.mem_compl_iff, Set.mem_union, mem_inodeArea]
      omega

/-! ### Directories -/

/-- The bytes that are written when entries are visited: their inodes and blocks, and the entries with
the indices from `i` on of the array at `dest`. -/
def visitArea (L : Layout) (tree : Tree) (n b dest i : ℕ) : Set ℕ :=
  inodeArea n (n + tree.inodes) ∪ blockArea L b (b + tree.blocks) ∪
    Set.Ico (dest + 256 * i) (dest + 256 * (i + tree.length))

/-- What the second loop of `visit_dir` does: the entries are placed and stored. -/
structure EntriesStored (L : Layout) (tree : Tree) (s : Mkfs) (n b dest i : ℕ) (placed : Placed)
    (s' : Mkfs) : Prop where
  tree_eq : placed.tree = tree
  takes : Takes s s' placed.ids placed.blocks
  ids_length : placed.ids.length = tree.inodes
  blocks_length : placed.blocks.length = tree.blocks
  stored : Stored L s'.img placed (dest + 256 * i)
  frame : Set.EqOn s'.img s.img (visitArea L tree n b dest i)ᶜ

/-- The array at `dest` has place for the entries, below the blocks that are still free. -/
def Fitting (L : Layout) (tree : Tree) (b dest i : ℕ) : Prop :=
  tree.length = 0 ∨
    1024 * L.startBlock.toNat ≤ dest ∧ dest + 256 * (i + tree.length) ≤ 1024 * (L.startBlock.toNat + b)

theorem stored_nil {m : Memory} {placed : Placed} {a : ℕ} (h : placed.tree.length = 0) :
  Stored L m placed a
  := by
  cases placed with
  | nil => trivial
  | file => simp [Placed.tree, Tree.length] at h
  | dir => simp [Placed.tree, Tree.length] at h

/-- Images agree on what has been taken when they agree on the areas. -/
theorem agree_of_takes {m m' : Memory} {s s' : Mkfs} {ids blocks : List UInt16}
    (h : Takes s s' ids blocks) (hn : s.nextInodeId = UInt16.ofNat n)
    (hb : s.nextBlockId = UInt16.ofNat b) (hids : n + ids.length ≤ 2 ^ 16)
    (hblocks : b + blocks.length ≤ 2 ^ 16) (heq : Set.EqOn m m' (inodeArea n (n + ids.length)))
    (heq' : Set.EqOn m m' (blockArea L b (b + blocks.length))) :
  Agree L m m' ids blocks
  := by
  constructor
  · intro id hid
    rw [h.ids_eq, hn] at hid
    obtain ⟨k, hk, rfl⟩ := mem_idsFrom.mp hid
    apply heq.mono
    rw [← UInt16.ofNat_add, getInode_ofNat (by omega)]
    apply Set.Ico_subset_Ico <;> omega
  · intro c hc
    rw [h.blocks_eq, hb] at hc
    obtain ⟨k, hk, rfl⟩ := mem_idsFrom.mp hc
    apply heq'.mono
    rw [getBlock_ofNat (by omega)]
    apply Set.Ico_subset_Ico <;> dsimp only [blockSize] <;> omega

/-- What is stored in areas stays stored when they are not written. -/
theorem EntriesStored.congr {tree : Tree} {s' : Mkfs} {dest i : ℕ} {placed : Placed} {m : Memory}
    (h : EntriesStored L tree s n b dest i placed s') (hroom : Room L N s n b tree.inodes tree.blocks)
    (heq : Set.EqOn s'.img m (visitArea L tree n b dest i)) :
  Stored L m placed (dest + 256 * i)
  := by
  have hN := hroom.inodes_le
  have hN' := hroom.end_le
  apply h.stored.congr
  · apply agree_of_takes h.takes hroom.nextInodeId hroom.nextBlockId
    · rw [h.ids_length]
      omega
    · rw [h.blocks_length]
      apply hroom.blocks_le
    · rw [h.ids_length]
      apply heq.mono
      intro x hx
      exact Or.inl (Or.inl hx)
    · rw [h.blocks_length]
      apply heq.mono
      intro x hx
      exact Or.inl (Or.inr hx)
  · rw [h.tree_eq]
    apply heq.mono
    intro x hx
    rw [Set.mem_Ico] at hx
    refine Or.inr ⟨hx.1, ?_⟩
    omega

/-- The blocks of a directory lie where they are taken, if there are any. -/
theorem getBlock_first {len k : ℕ} (hlen : len ≤ 1024 * k) (h : b + k ≤ 2 ^ 16) :
  len = 0 ∨ getBlock L.startBlock (UInt16.ofNat b) = 1024 * (L.startBlock.toNat + b)
  := by
  rcases Nat.eq_zero_or_pos len with h0 | h0
  · exact Or.inl h0
  · right
    have haddr := getBlock_ofNat (L := L) (b := b) (k := 0) (by omega)
    rwa [show UInt16.ofNat 0 = 0 by rfl, UInt16.add_zero, Nat.mul_zero, Nat.add_zero] at haddr

/-- The state in which the entries of a directory with `k` blocks are visited. -/
def belowDir (L : Layout) (s : Mkfs) (n b k : ℕ) : Mkfs :=
  ⟨store s.img (1024 * (L.startBlock.toNat + b)) (List.replicate (1024 * k) 0), UInt16.ofNat (n + 1),
    UInt16.ofNat (b + k)⟩

theorem belowDir_img (L : Layout) (s : Mkfs) (n b k : ℕ) :
  (belowDir L s n b k).img =
    store s.img (1024 * (L.startBlock.toNat + b)) (List.replicate (1024 * k) 0)
  := rfl

/-- There is room for the entries of a directory. -/
theorem Room.below {tree : Tree} {k tails : ℕ}
    (h : Room L N s n b (1 + tree.inodes + tails) (k + tree.blocks)) (hlen : 256 * tree.length ≤ 1024 * k) :
  Room L N (belowDir L s n b k) (n + 1) (b + k) tree.inodes tree.blocks ∧
    Fitting L tree (b + k) (getBlock L.startBlock (UInt16.ofNat b)) 0
  := by
  have hN := h.inodes_le
  have htable := h.table
  have hblocks := h.blocks_le
  refine ⟨⟨by omega, rfl, rfl, by omega, h.end_le, htable, by omega, ?_⟩, ?_⟩
  · intro x hx
    rw [mem_inodeArea] at hx
    rw [belowDir_img, store_of_lt (by omega), h.fresh x (by rw [mem_inodeArea]; omega)]
  · rcases getBlock_first (L := L) (b := b) hlen (by omega) with h0 | haddr
    · left
      omega
    · right
      rw [haddr]
      omega

/-- A directory is stored when its entries are. -/
theorem dirOf_fill {tree : Tree} {placed : Placed} {s₂ : Mkfs} {dest : ℕ} {count : UInt16}
    (h : Room L N s n b (1 + tree.inodes + tailsFor (blocksFor (256 * tree.length)))
      (blocksFor (256 * tree.length) + tree.blocks))
    (hlen : tree.length ≤ tree.inodes) (hcount : count.toNat = blocksFor (256 * tree.length))
    (hdest : tree.length = 0 ∨ dest = 1024 * (L.startBlock.toNat + b))
    (hbelow : EntriesStored L tree (belowDir L s n b (blocksFor (256 * tree.length))) (n + 1)
      (b + blocksFor (256 * tree.length)) dest 0 placed s₂) :
  let F := fillInodeBlocks (getInode (UInt16.ofNat n)) count (UInt16.ofNat b) { s₂ with
    img := fillInodeSize (store s₂.img (getInode (UInt16.ofNat n)) [filetypeDir])
      (getInode (UInt16.ofNat n)) (UInt32.ofNat (256 * tree.length)) }
  (∃ a, DirOf L F.mkfs.img ⟨UInt16.ofNat n, F.tails, F.blocks⟩ tree.length a ∧
    Stored L F.mkfs.img placed a) ∧
    Set.EqOn F.mkfs.img s.img
      (inodeArea n (n + (1 + tree.inodes + tailsFor (blocksFor (256 * tree.length)))) ∪
        blockArea L b (b + (blocksFor (256 * tree.length) + tree.blocks)))ᶜ
  := by
  have hroom := h.inodes_le
  have hend := h.end_le
  have htable := h.table
  have hblocksLe := h.blocks_le
  have hle := le_blocksFor (256 * tree.length)
  obtain ⟨hroom₁, -⟩ := h.below hle
  have hsmall : 256 * tree.length < 2 ^ 24 := by omega
  have hheader := (header_spec s₂.img (getInode (UInt16.ofNat n)) filetypeDir
    (UInt32.ofNat (256 * tree.length)) (by rw [toNat_ofNat_size hsmall]; exact hsmall)).2.2
  -- the inode of the directory has not been touched
  have hzero : ∀ x ∈ inodeArea n (n + 1), s₂.img x = 0 := by
    intro x hx
    rw [mem_inodeArea] at hx
    rw [hbelow.frame, belowDir_img, store_of_lt (by omega), h.fresh x (by rw [mem_inodeArea]; omega)]
    simp only [visitArea, Set.mem_compl_iff, Set.mem_union, mem_inodeArea, mem_blockArea, Set.mem_Ico]
    omega
  have hnext : s₂.nextInodeId = UInt16.ofNat (n + 1 + tree.inodes) := by
    rw [hbelow.takes.nextInodeId, hbelow.ids_length, UInt16.ofNat_add]
    rfl
  obtain ⟨hof, hframe⟩ := inode_spec (m := s₂.img) (n := n) (k := n + 1 + tree.inodes)
    (s := { s₂ with
      img := fillInodeSize (store s₂.img (getInode (UInt16.ofNat n)) [filetypeDir])
        (getInode (UInt16.ofNat n)) (UInt32.ofNat (256 * tree.length)) })
    (UInt16.ofNat b) hsmall hcount hnext (by omega) (by omega) hzero (Set.eqOn_refl _ _)
  obtain ⟨-, hblocks, -, -⟩ := fillInodeBlocks_takes (getInode (UInt16.ofNat n)) count (UInt16.ofNat b)
    { s₂ with
      img := fillInodeSize (store s₂.img (getInode (UInt16.ofNat n)) [filetypeDir])
        (getInode (UInt16.ofNat n)) (UInt32.ofNat (256 * tree.length)) }
  generalize fillInodeBlocks _ _ _ _ = F at hof hframe hblocks
  dsimp only at hframe hblocks ⊢
  generalize fillInodeSize _ _ _ = m at hheader hframe
  -- nothing but the inodes of the directory has been written since
  have hsame : ∀ x, x ∉ inodeArea n (n + 1) →
      x ∉ inodeArea (n + 1 + tree.inodes)
        (n + 1 + tree.inodes + tailsFor (blocksFor (256 * tree.length))) → F.mkfs.img x = s₂.img x := by
    intro x hx hx'
    rw [hframe (by simp only [Set.mem_compl_iff, Set.mem_union]; tauto), hheader]
    simp only [mem_inodeArea, Set.mem_compl_iff, Set.mem_Ico,
      getInode_ofNat (show n < 2 ^ 16 by omega), blockSize] at hx ⊢
    omega
  refine ⟨⟨1024 * (L.startBlock.toNat + b), ⟨hof, ?_, ?_⟩, ?_⟩, ?_⟩
  · dsimp only
    rw [hblocks, hcount]
    apply blocksFrom_idsFrom (by omega)
  · intro j hj hj'
    dsimp only at hj'
    rw [hblocks, length_idsFrom, hcount] at hj'
    rw [hsame, hbelow.frame, belowDir_img, store_zeros]
    · rw [Set.mem_Ico]
      omega
    · simp only [visitArea, Set.mem_compl_iff, Set.mem_union, mem_inodeArea, mem_blockArea, Set.mem_Ico]
      omega
    · rw [mem_inodeArea]
      omega
    · rw [mem_inodeArea]
      omega
  · have hstored := hbelow.congr hroom₁ (m := F.mkfs.img) (by
      intro x hx
      simp only [visitArea, Set.mem_union, mem_inodeArea, mem_blockArea, Set.mem_Ico] at hx
      rw [hsame x (by rw [mem_inodeArea]; omega) (by rw [mem_inodeArea]; omega)])
    rcases hdest with h0 | rfl
    · apply stored_nil
      rw [hbelow.tree_eq, h0]
    · apply hstored
  · intro x hx
    simp only [Set.mem_compl_iff, Set.mem_union, mem_inodeArea, mem_blockArea] at hx
    rw [hsame x (by rw [mem_inodeArea]; omega) (by rw [mem_inodeArea]; omega), hbelow.frame,
      belowDir_img, store_eqOn]
    · simp only [Set.mem_compl_iff, Set.mem_Ico, List.length_replicate]
      omega
    · simp only [visitArea, Set.mem_compl_iff, Set.mem_union, mem_inodeArea, mem_blockArea, Set.mem_Ico]
      omega

/-- `visit_dir` returns, and stores the directory. -/
theorem visitDir_spec {tree : Tree} (visit : ℕ → Mkfs → Option (Placed × Mkfs))
    (h : Room L N s n b (1 + tree.inodes + tailsFor (blocksFor (256 * tree.length)))
      (blocksFor (256 * tree.length) + tree.blocks))
    (hN : N ≤ L.numInodes.toNat) (hlen : tree.length ≤ tree.inodes)
    (hvisit : ∀ dest s₁,
      Room L N s₁ (n + 1) (b + blocksFor (256 * tree.length)) tree.inodes tree.blocks →
      Fitting L tree (b + blocksFor (256 * tree.length)) dest 0 →
      ∃ placed s₂, visit dest s₁ = some (placed, s₂) ∧
        EntriesStored L tree s₁ (n + 1) (b + blocksFor (256 * tree.length)) dest 0 placed s₂) :
  ∃ extent placed s', visitDir L (UInt32.ofNat tree.length) visit s = some (extent, placed, s') ∧
    placed.tree = tree ∧ (∃ a, DirOf L s'.img extent tree.length a ∧ Stored L s'.img placed a) ∧
    Set.EqOn s'.img s.img
      (inodeArea n (n + (1 + tree.inodes + tailsFor (blocksFor (256 * tree.length)))) ∪
        blockArea L b (b + (blocksFor (256 * tree.length) + tree.blocks)))ᶜ
  := by
  have hroom := h.inodes_le
  have hend := h.end_le
  have hblocks := h.blocks_le
  have hle := le_blocksFor (256 * tree.length)
  have hsize : (UInt32.ofNat tree.length * 256).toNat = 256 * tree.length := by
    rw [UInt32.toNat_mul, UInt32.toNat_ofNat']
    simp only [UInt32.reduceToNat]
    omega
  obtain ⟨hcount, hbytes⟩ := toNat_divCeil_words (UInt32.ofNat tree.length * 256)
    (by rw [hsize]; omega)
  rw [hsize] at hcount hbytes
  obtain ⟨hroom₁, hfitting⟩ := h.below hle
  obtain ⟨placed, s₂, hvisit, hbelow⟩ := hvisit _ _ hroom₁ hfitting
  have hdir := dirOf_fill h hlen hcount (by
    rcases getBlock_first (L := L) (b := b) hle (by omega) with h0 | haddr
    · left
      omega
    · exact Or.inr haddr) hbelow
  refine ⟨_, placed, _, visitDir_eq_some_iff.mpr ⟨?_, s₂, ?_, rfl, rfl⟩, hbelow.tree_eq, ?_⟩
  · rw [h.nextInodeId]
    intro heq
    have hid := congrArg UInt16.toNat heq
    rw [UInt16.toNat_ofNat'] at hid
    omega
  · rw [← hvisit, hbytes, h.nextBlockId, h.nextInodeId,
      store_getBlock (k := blocksFor (256 * tree.length)) _ (by rw [List.length_replicate]) (by omega),
      belowDir, UInt16.ofNat_add, UInt16.ofNat_add, ← hcount, UInt16.ofNat_toNat]
    rfl
  · rw [h.nextInodeId, h.nextBlockId, show 256 * UInt32.ofNat tree.length =
      UInt32.ofNat (256 * tree.length) by rw [UInt32.ofNat_mul]; rfl]
    apply hdir

/-! ### The loop over the entries -/

theorem writeEntry_spec (a : ℕ) (name : Name) (id : UInt16) (s : Mkfs) :
  EntryOf (writeEntry a name id s).img a name id ∧
    Set.EqOn (writeEntry a name id s).img s.img (Set.Ico a (a + 256))ᶜ
  := by
  refine ⟨⟨?_, ?_⟩, ?_⟩
  · have hload := load_store (store16 s.img (a + filenameMaxLen) id) a
      (strncpy name.bytes filenameMaxLen)
    rwa [length_strncpy] at hload
  · rw [entryInodeId, writeEntry, load16_store (by rw [length_strncpy]; omega), load16_store16]
  · intro x hx
    simp only [Set.mem_compl_iff, Set.mem_Ico] at hx
    rw [writeEntry]
    dsimp only
    rw [store_eqOn, store16, store_eqOn]
    · simp only [Set.mem_compl_iff, Set.mem_Ico, bytes16, List.length_cons, List.length_nil,
        filenameMaxLen]
      omega
    · simp only [Set.mem_compl_iff, Set.mem_Ico, length_strncpy, filenameMaxLen]
      omega

section Step

variable {rest : Tree} {s₁ : Mkfs} {p q dest i : ℕ} {name : Name} {id : UInt16}

/-- After an entry that takes `p` inodes and `q` blocks, there is room for the others. -/
theorem Room.next (h : Room L N s n b (p + rest.inodes) (q + rest.blocks))
    (hframe : Set.EqOn s₁.img s.img (inodeArea n (n + p) ∪ blockArea L b (b + q))ᶜ)
    (hinode : s₁.nextInodeId = UInt16.ofNat (n + p)) (hblock : s₁.nextBlockId = UInt16.ofNat (b + q))
    (hdest : 1024 * L.startBlock.toNat ≤ dest) :
  Room L N (writeEntry (dest + 256 * i) name id s₁) (n + p) (b + q) rest.inodes rest.blocks
  := by
  have hpos := h.pos
  have hN := h.inodes_le
  have htable := h.table
  have hblocks := h.blocks_le
  refine ⟨by omega, hinode, hblock, by omega, h.end_le, htable, by omega, ?_⟩
  intro x hx
  rw [mem_inodeArea] at hx
  rw [(writeEntry_spec (dest + 256 * i) name id s₁).2, hframe, h.fresh]
  · rw [mem_inodeArea]
    omega
  · simp only [Set.mem_compl_iff, Set.mem_union, mem_inodeArea, mem_blockArea]
    omega
  · simp only [Set.mem_compl_iff, Set.mem_Ico]
    omega

/-- When the others have been visited, the entry is there, what it takes is unchanged, and nothing else
has been written. -/
theorem entry_step {s' : Mkfs} {placed : Placed}
    (h : Room L N s n b (p + rest.inodes) (q + rest.blocks))
    (hframe : Set.EqOn s₁.img s.img (inodeArea n (n + p) ∪ blockArea L b (b + q))ᶜ)
    (hdest : 1024 * L.startBlock.toNat ≤ dest)
    (hdest' : dest + 256 * (i + (rest.length + 1)) ≤ 1024 * (L.startBlock.toNat + b))
    (hrest : EntriesStored L rest (writeEntry (dest + 256 * i) name id s₁) (n + p) (b + q) dest (i + 1)
      placed s') :
  EntryOf s'.img (dest + 256 * i) name id ∧
    Set.EqOn s₁.img s'.img (inodeArea n (n + p) ∪ blockArea L b (b + q)) ∧
    Set.EqOn s'.img s.img (inodeArea n (n + (p + rest.inodes)) ∪ blockArea L b (b + (q + rest.blocks)) ∪
      Set.Ico (dest + 256 * i) (dest + 256 * (i + (rest.length + 1))))ᶜ
  := by
  have hN := h.inodes_le
  have htable := h.table
  obtain ⟨hentry, hwrite⟩ := writeEntry_spec (dest + 256 * i) name id s₁
  have hout : ∀ x, x ∉ visitArea L rest (n + p) (b + q) dest (i + 1) →
      s'.img x = (writeEntry (dest + 256 * i) name id s₁).img x := fun x hx => hrest.frame hx
  simp only [visitArea, Set.mem_union, mem_inodeArea, mem_blockArea, Set.mem_Ico] at hout
  refine ⟨hentry.congr ?_, ?_, ?_⟩
  · intro x hx
    rw [Set.mem_Ico] at hx
    rw [hout x (by omega)]
  · intro x hx
    simp only [Set.mem_union, mem_inodeArea, mem_blockArea] at hx
    rw [hout x (by omega), hwrite]
    simp only [Set.mem_compl_iff, Set.mem_Ico]
    omega
  · intro x hx
    simp only [Set.mem_compl_iff, Set.mem_union, mem_inodeArea, mem_blockArea, Set.mem_Ico] at hx
    rw [hout x (by omega), hwrite, hframe]
    · simp only [Set.mem_compl_iff, Set.mem_union, mem_inodeArea, mem_blockArea]
      omega
    · simp only [Set.mem_compl_iff, Set.mem_Ico]
      omega

end Step

/-- What has been placed is what has been visited. -/
theorem EntriesStored.of_visit {tree : Tree} {dest : ℕ} {i : UInt32} {placed : Placed} {s' : Mkfs}
    (h : visitEntries L tree dest i s = some (placed, s'))
    (hsmall : ∀ content ∈ tree.contents, content.length < 2 ^ 24) (hinodes : tree.inodes < 2 ^ 16)
    (hstored : Stored L s'.img placed (dest + 256 * i.toNat))
    (hframe : Set.EqOn s'.img s.img (visitArea L tree n b dest i.toNat)ᶜ) :
  EntriesStored L tree s n b dest i.toNat placed s'
  := by
  obtain ⟨hids, hblocks⟩ := visitEntries_counts h hsmall (Or.inr hinodes)
  exact ⟨visitEntries_tree h, visitEntries_takes h, hids, hblocks, hstored, hframe⟩

theorem Tree.length_le_inodes {tree : Tree} (h : tree.Supported) :
  tree.length ≤ tree.inodes
  := by
  induction tree with
  | nil => rfl
  | file name content rest ih =>
      have hle := ih h
      simp only [length, inodes]
      omega
  | dir name below rest ihBelow ih =>
      have hle := ih h.2
      simp only [length, inodes]
      omega
  | other name rest => exact h.elim

/-- An entry that has been visited, and taken `ids` and `blocks`, stays as it is when it is written to the
directory and the others are visited. -/
theorem visit_rest {rest : Tree} {s₁ : Mkfs} {dest : ℕ} {i : UInt32} {ids blocks : List UInt16}
    (name : Name) (id : UInt16)
    (h : Room L N s n b (ids.length + rest.inodes) (blocks.length + rest.blocks))
    (htakes : Takes s s₁ ids blocks)
    (hframe : Set.EqOn s₁.img s.img
      (inodeArea n (n + ids.length) ∪ blockArea L b (b + blocks.length))ᶜ)
    (hi : i.toNat + (rest.length + 1) < 2 ^ 32) (hdest : 1024 * L.startBlock.toNat ≤ dest)
    (hdest' : dest + 256 * (i.toNat + (rest.length + 1)) ≤ 1024 * (L.startBlock.toNat + b))
    (hrest : ∀ s₂, Room L N s₂ (n + ids.length) (b + blocks.length) rest.inodes rest.blocks →
      (i + 1).toNat + rest.length < 2 ^ 32 →
      Fitting L rest (b + blocks.length) dest (i + 1).toNat →
      ∃ placed s', visitEntries L rest dest (i + 1) s₂ = some (placed, s') ∧
        EntriesStored L rest s₂ (n + ids.length) (b + blocks.length) dest (i + 1).toNat placed s') :
  ∃ placed s', visitEntries L rest dest (i + 1) (writeEntry (dest + 256 * i.toNat) name id s₁) =
      some (placed, s') ∧
    EntryOf s'.img (dest + 256 * i.toNat) name id ∧ Agree L s₁.img s'.img ids blocks ∧
    Stored L s'.img placed (dest + 256 * i.toNat + 256) ∧
    Set.EqOn s'.img s.img (inodeArea n (n + (ids.length + rest.inodes)) ∪
      blockArea L b (b + (blocks.length + rest.blocks)) ∪
      Set.Ico (dest + 256 * i.toNat) (dest + 256 * (i.toNat + (rest.length + 1))))ᶜ
  := by
  have hN := h.inodes_le
  have hend := h.end_le
  have hblocks := h.blocks_le
  have hsucc : (i + 1).toNat = i.toNat + 1 := by
    rw [UInt32.toNat_add, UInt32.toNat_one]
    omega
  have hroom : Room L N (writeEntry (dest + 256 * i.toNat) name id s₁) (n + ids.length)
      (b + blocks.length) rest.inodes rest.blocks := by
    apply h.next hframe _ _ hdest
    · rw [htakes.nextInodeId, h.nextInodeId, ← UInt16.ofNat_add]
    · rw [htakes.nextBlockId, h.nextBlockId, ← UInt16.ofNat_add]
  obtain ⟨placed, s', hvisit, hstored⟩ := hrest _ hroom (by omega) (by right; omega)
  rw [hsucc] at hstored
  obtain ⟨hentry, hsame, hout⟩ := entry_step h hframe hdest hdest' hstored
  refine ⟨placed, s', hvisit, hentry, ?_, ?_, hout⟩
  · apply agree_of_takes htakes h.nextInodeId h.nextBlockId (by omega) (by omega)
    · apply hsame.mono
      exact Set.subset_union_left
    · apply hsame.mono
      exact Set.subset_union_right
  · have haddr : dest + 256 * (i.toNat + 1) = dest + 256 * i.toNat + 256 := by ring
    rw [← haddr]
    apply hstored.stored

/-- The second loop of `visit_dir` returns, and stores the entries. -/
theorem visitEntries_spec {tree : Tree} {dest : ℕ} {i : UInt32} (hsupported : tree.Supported)
    (hsmall : ∀ content ∈ tree.contents, content.length < 2 ^ 24) (hN : N ≤ L.numInodes.toNat)
    (h : Room L N s n b tree.inodes tree.blocks) (hi : i.toNat + tree.length < 2 ^ 32)
    (hfitting : Fitting L tree b dest i.toNat) :
  ∃ placed s', visitEntries L tree dest i s = some (placed, s') ∧
    EntriesStored L tree s n b dest i.toNat placed s'
  := by
  induction tree generalizing s n b dest i with
  | nil =>
      refine ⟨.nil, s, rfl, .of_visit rfl hsmall (by decide) trivial ?_⟩
      apply Set.eqOn_refl
  | file name content rest ih =>
      have hpos := h.pos
      have hroom := h.inodes_le
      have hend := h.end_le
      have hblocks := h.blocks_le
      simp only [Tree.inodes, Tree.blocks, Tree.length] at h hroom hblocks hi
      obtain ⟨hdest, hdest'⟩ : 1024 * L.startBlock.toNat ≤ dest ∧
          dest + 256 * (i.toNat + (rest.length + 1)) ≤ 1024 * (L.startBlock.toNat + b) := by
        simpa [Fitting, Tree.length] using hfitting
      have hcontent := hsmall content (by simp [Tree.contents])
      have hsmall' : ∀ c ∈ rest.contents, c.length < 2 ^ 24 :=
        fun c hc => hsmall c (by simp [Tree.contents, hc])
      obtain ⟨hof, hframe⟩ := visitFile_spec (N := N) (n := n) (b := b)
        ⟨hpos, h.nextInodeId, h.nextBlockId, by omega, hend, h.table, by omega, h.fresh⟩ hcontent
      obtain ⟨htakes, htails, hcount⟩ := visitFile_takes L content s
      rw [blocksRequired_eq (by rw [toNat_ofNat_size hcontent]; exact hcontent),
        toNat_ofNat_size hcontent] at htails hcount
      have hlen : ((visitFile L content s).1.id :: (visitFile L content s).1.tails).length =
          1 + tailsFor (blocksFor content.length) := by
        rw [List.length_cons, htails, Nat.add_comm]
      rw [← hlen, ← hcount] at h hframe
      obtain ⟨placed, s', hvisit, hentry, hagree, hstored, hout⟩ := visit_rest name
        (visitFile L content s).1.id h htakes hframe hi hdest hdest' fun s₂ hs₂ hi₂ hfit₂ =>
        ih hsupported hsmall' hs₂ hi₂ hfit₂
      have hvisit' : visitEntries L (.file name content rest) dest i s =
          some (.file name (visitFile L content s).1 content placed, s') := by
        simp [visitEntries, hvisit]
      refine ⟨_, s', hvisit', .of_visit hvisit' hsmall ?_ ⟨hentry, hof.congr hagree, hstored⟩ ?_⟩
      · simp only [Tree.inodes]
        omega
      · rw [hlen, hcount] at hout
        apply hout
  | dir name below rest ihBelow ih =>
      have hpos := h.pos
      have hroom := h.inodes_le
      have hend := h.end_le
      have hblocks := h.blocks_le
      simp only [Tree.inodes, Tree.blocks, Tree.length] at h hroom hblocks hi
      obtain ⟨hdest, hdest'⟩ : 1024 * L.startBlock.toNat ≤ dest ∧
          dest + 256 * (i.toNat + (rest.length + 1)) ≤ 1024 * (L.startBlock.toNat + b) := by
        simpa [Fitting, Tree.length] using hfitting
      have hsmall' : ∀ c ∈ rest.contents, c.length < 2 ^ 24 :=
        fun c hc => hsmall c (by simp [Tree.contents, hc])
      have hsmallBelow : ∀ c ∈ below.contents, c.length < 2 ^ 24 :=
        fun c hc => hsmall c (by simp [Tree.contents, hc])
      have hlenBelow := Tree.length_le_inodes hsupported.1
      obtain ⟨extent, q, s₁, hdir, htree, hof, hframe⟩ := visitDir_spec (N := N) (n := n) (b := b)
        (fun dest => visitEntries L below dest 0)
        ⟨hpos, h.nextInodeId, h.nextBlockId, by omega, hend, h.table, by omega, h.fresh⟩ hN hlenBelow
        fun dest₁ s₁ hs₁ hfit₁ => ihBelow hsupported.1 hsmallBelow hs₁
          (by rw [UInt32.toNat_zero]; omega) hfit₁
      obtain ⟨-, s₂, hbelow, -⟩ := visitDir_eq_some_iff.mp hdir
      obtain ⟨hids, hbs⟩ := visitEntries_counts hbelow hsmallBelow (Or.inr (by omega))
      obtain ⟨htakes, htails, hcount⟩ := visitDir_takes hdir fun dest s s' => visitEntries_takes
      rw [blocksRequired_dir (by omega)] at htails hcount
      have hlen : (extent.id :: (q.ids ++ extent.tails)).length =
          1 + below.inodes + tailsFor (blocksFor (256 * below.length)) := by
        rw [List.length_cons, List.length_append, htails, hids]
        omega
      have hlen' : (extent.blocks ++ q.blocks).length =
          blocksFor (256 * below.length) + below.blocks := by
        rw [List.length_append, hcount, hbs]
      rw [← hlen, ← hlen'] at h hframe
      obtain ⟨placed, s', hvisit, hentry, hagree, hstored, hout⟩ := visit_rest name
        extent.id h htakes hframe hi hdest hdest' fun s₂ hs₂ hi₂ hfit₂ =>
        ih hsupported.2 hsmall' hs₂ hi₂ hfit₂
      have hvisit' : visitEntries L (.dir name below rest) dest i s =
          some (.dir name extent q placed, s') := by
        simp [visitEntries, hdir, hvisit]
      have hof' := dir_congr hof (by rw [htree]) hagree
      rw [← htree] at hof'
      refine ⟨_, s', hvisit', .of_visit hvisit' hsmall ?_ ⟨hentry, hof', hstored⟩ ?_⟩
      · simp only [Tree.inodes]
        omega
      · rw [hlen, hlen'] at hout
        apply hout
  | other name rest => exact hsupported.elim

end Visit

end Aefs
