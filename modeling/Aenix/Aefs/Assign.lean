import Aenix.Aefs.Mkfs

/-!
# What is assigned

Whatever the tree, the inodes and the blocks that `mkfs.c` assigns are numbered consecutively, in the
order in which they are taken and modulo 2 ^ 16.  As long as files are shorter than 2 ^ 24 bytes and
directories have fewer than 2 ^ 16 entries, there are as many of them as the sizes require
(`Tree.inodes`, `Tree.blocks`).
-/

open Bytes Aenix

namespace Aefs

/-! ### Consecutive numbers -/

/-- The `n` numbers from `a` on. -/
def idsFrom (a : UInt16) (n : ℕ) : List UInt16 :=
  (List.range n).map fun k => a + UInt16.ofNat k

@[simp]
theorem length_idsFrom (a : UInt16) (n : ℕ) :
  (idsFrom a n).length = n
  := by
  simp [idsFrom]

theorem idsFrom_add (a : UInt16) (n k : ℕ) :
  idsFrom a (n + k) = idsFrom a n ++ idsFrom (a + UInt16.ofNat n) k
  := by
  simp [idsFrom, List.range_add, UInt16.ofNat_add, UInt16.add_assoc]

theorem idsFrom_one (a : UInt16) :
  idsFrom a 1 = [a]
  := by
  simp [idsFrom]

theorem mem_idsFrom {a x : UInt16} {n : ℕ} :
  x ∈ idsFrom a n ↔ ∃ k < n, a + UInt16.ofNat k = x
  := by
  simp [idsFrom]

theorem getElem_idsFrom (a : UInt16) (n k : ℕ) (h : k < (idsFrom a n).length) :
  (idsFrom a n)[k] = a + UInt16.ofNat k
  := by
  simp [idsFrom]

theorem toNat_ofNat_add {n k : ℕ} (h : n + k < 2 ^ 16) :
  (UInt16.ofNat n + UInt16.ofNat k).toNat = n + k
  := by
  rw [← UInt16.ofNat_add, UInt16.toNat_ofNat']
  omega

/-! ### The counters -/

/-- Between two states the inodes `ids` and the blocks `blocks` are taken, in this order. -/
structure Takes (s s' : Mkfs) (ids blocks : List UInt16) : Prop where
  ids_eq : ids = idsFrom s.nextInodeId ids.length
  blocks_eq : blocks = idsFrom s.nextBlockId blocks.length
  nextInodeId : s'.nextInodeId = s.nextInodeId + UInt16.ofNat ids.length
  nextBlockId : s'.nextBlockId = s.nextBlockId + UInt16.ofNat blocks.length

theorem Takes.nothing (s : Mkfs) :
  Takes s s [] []
  := by
  constructor
  · rfl
  · rfl
  · simp
  · simp

theorem Takes.append {s s' s'' : Mkfs} {ids ids' blocks blocks' : List UInt16}
    (h : Takes s s' ids blocks) (h' : Takes s' s'' ids' blocks') :
  Takes s s'' (ids ++ ids') (blocks ++ blocks')
  := by
  constructor
  · rw [List.length_append, idsFrom_add, ← h.ids_eq, ← h.nextInodeId, ← h'.ids_eq]
  · rw [List.length_append, idsFrom_add, ← h.blocks_eq, ← h.nextBlockId, ← h'.blocks_eq]
  · rw [h'.nextInodeId, h.nextInodeId, List.length_append, UInt16.ofNat_add, UInt16.add_assoc]
  · rw [h'.nextBlockId, h.nextBlockId, List.length_append, UInt16.ofNat_add, UInt16.add_assoc]

/-- Writing an entry takes nothing. -/
theorem Takes.of_writeEntry {entry : ℕ} {name : Name} {id : UInt16} {s s' : Mkfs}
    {ids blocks : List UInt16} (h : Takes (writeEntry entry name id s) s' ids blocks) :
  Takes s s' ids blocks
  := ⟨h.ids_eq, h.blocks_eq, h.nextInodeId, h.nextBlockId⟩

theorem tailsFor_succ (n : ℕ) :
  tailsFor (n + 1) = tailsFor n + if n % 5 = 0 ∧ n ≠ 0 then 1 else 0
  := by
  rw [tailsFor, tailsFor]
  split <;> omega

/-- What `fill_inode_blocks` takes in its first `n` rounds. -/
theorem fillRounds_takes (startBlockId : UInt16) (s : Fill) (n : ℕ) :
  let s' := fillRounds startBlockId n s
  s'.tails = s.tails ++ idsFrom s.mkfs.nextInodeId (tailsFor n) ∧
    s'.blocks = s.blocks ++ idsFrom startBlockId n ∧
    s'.mkfs.nextInodeId = s.mkfs.nextInodeId + UInt16.ofNat (tailsFor n) ∧
    s'.mkfs.nextBlockId = s.mkfs.nextBlockId
  := by
  induction n with
  | zero => simp [fillRounds, idsFrom, tailsFor]
  | succ n ih =>
      obtain ⟨htails, hblocks, hnext, hblock⟩ := ih
      rw [fillRounds, fillRound, Fill.advance, tailsFor_succ]
      split
      · simp [htails, hblocks, hnext, hblock, idsFrom_add, idsFrom_one, UInt16.ofNat_add, UInt16.add_assoc]
      · simp [htails, hblocks, hnext, hblock, idsFrom_add, idsFrom_one]

/-- What `fill_inode_blocks` takes. -/
theorem fillInodeBlocks_takes (inode : ℕ) (blocksRequired startBlockId : UInt16) (s : Mkfs) :
  let s' := fillInodeBlocks inode blocksRequired startBlockId s
  s'.tails = idsFrom s.nextInodeId (tailsFor blocksRequired.toNat) ∧
    s'.blocks = idsFrom startBlockId blocksRequired.toNat ∧
    s'.mkfs.nextInodeId = s.nextInodeId + UInt16.ofNat (tailsFor blocksRequired.toNat) ∧
    s'.mkfs.nextBlockId = s.nextBlockId
  := by
  simpa [fillInodeBlocks] using fillRounds_takes startBlockId ⟨s, inode, [], []⟩ blocksRequired.toNat

/-- The number of blocks of a file or directory, as `mkfs.c` computes it. -/
def blocksRequired (size : UInt32) : ℕ := (divCeil size 1024).toUInt16.toNat

theorem blocksRequired_eq {size : UInt32} (h : size.toNat < 2 ^ 24) :
  blocksRequired size = blocksFor size.toNat
  := (toNat_divCeil_words size h).1

/-- A file or directory takes its inode, and its blocks. -/
theorem takes_blocks (s : Mkfs) (img : Memory) (count : UInt16) :
  Takes s ⟨img, s.nextInodeId + 1, s.nextBlockId + count⟩ [s.nextInodeId]
    (idsFrom s.nextBlockId count.toNat)
  := by
  constructor
  · rw [List.length_singleton, idsFrom_one]
  · rw [length_idsFrom]
  · rfl
  · rw [length_idsFrom, UInt16.ofNat_toNat]

/-- Then it takes its further inodes. -/
theorem takes_tails (inode : ℕ) (count startBlockId : UInt16) (s : Mkfs) (img : Memory) :
  Takes s (fillInodeBlocks inode count startBlockId { s with img := img }).mkfs
    (fillInodeBlocks inode count startBlockId { s with img := img }).tails []
  := by
  obtain ⟨htails, -, hnext, hblock⟩ :=
    fillInodeBlocks_takes inode count startBlockId { s with img := img }
  constructor
  · rw [htails, length_idsFrom]
  · rfl
  · rw [hnext, htails, length_idsFrom]
  · simp [hblock]

theorem visitFile_takes (L : Layout) (content : List UInt8) (s : Mkfs) :
  Takes s (visitFile L content s).2
      ((visitFile L content s).1.id :: (visitFile L content s).1.tails)
      (visitFile L content s).1.blocks ∧
    (visitFile L content s).1.tails.length =
      tailsFor (blocksRequired (UInt32.ofNat content.length)) ∧
    (visitFile L content s).1.blocks.length = blocksRequired (UInt32.ofNat content.length)
  := by
  dsimp only [visitFile, blocksRequired]
  generalize freadLoop _ _ _ _ = img
  generalize (divCeil (UInt32.ofNat content.length) 1024).toUInt16 = count
  generalize getInode s.nextInodeId = inode
  obtain ⟨htails, hblocks, -, -⟩ := fillInodeBlocks_takes inode count s.nextBlockId
    ⟨img, s.nextInodeId + 1, s.nextBlockId + count⟩
  have htakes := (takes_blocks s img count).append (takes_tails inode count s.nextBlockId _ img)
  rw [hblocks]
  refine ⟨?_, ?_, length_idsFrom _ _⟩
  · simpa using htakes
  · rw [htails, length_idsFrom]

/-- The steps of `visit_dir`. -/
theorem visitDir_eq_some_iff {L : Layout} {numFiles : UInt32}
    {visit : ℕ → Mkfs → Option (Placed × Mkfs)} {s s' : Mkfs} {extent : Extent} {placed : Placed} :
  visitDir L numFiles visit s = some (extent, placed, s') ↔
    s.nextInodeId ≠ L.numInodes ∧
    ∃ s₁, visit (getBlock L.startBlock s.nextBlockId)
        ⟨store s.img (getBlock L.startBlock s.nextBlockId)
          (List.replicate (1024 * divCeil (numFiles * 256) 1024).toNat 0), s.nextInodeId + 1,
          s.nextBlockId + (divCeil (numFiles * 256) 1024).toUInt16⟩ = some (placed, s₁) ∧
      let fill := fillInodeBlocks (getInode s.nextInodeId) (divCeil (numFiles * 256) 1024).toUInt16
        s.nextBlockId { s₁ with
          img := fillInodeSize (store s₁.img (getInode s.nextInodeId) [filetypeDir])
            (getInode s.nextInodeId) (256 * numFiles) }
      extent = ⟨s.nextInodeId, fill.tails, fill.blocks⟩ ∧ s' = fill.mkfs
  := by
  rw [visitDir]
  split
  case isTrue h => simp [h]
  case isFalse h =>
    simp only [Option.bind_eq_bind, Option.bind_eq_some_iff, Option.pure_def, Option.some.injEq,
      Prod.exists, Prod.mk.injEq]
    constructor
    · rintro ⟨placed', s₁, hvisit, rfl, rfl, rfl⟩
      exact ⟨h, s₁, hvisit, rfl, rfl⟩
    · rintro ⟨-, s₁, hvisit, rfl, rfl⟩
      exact ⟨placed, s₁, hvisit, rfl, rfl, rfl⟩

theorem visitDir_takes {L : Layout} {numFiles : UInt32}
    {visit : ℕ → Mkfs → Option (Placed × Mkfs)} {s s' : Mkfs} {extent : Extent} {placed : Placed}
    {ids blocks : List UInt16} (h : visitDir L numFiles visit s = some (extent, placed, s'))
    (hvisit : ∀ dest s s', visit dest s = some (placed, s') → Takes s s' ids blocks) :
  Takes s s' (extent.id :: (ids ++ extent.tails)) (extent.blocks ++ blocks) ∧
    extent.tails.length = tailsFor (blocksRequired (numFiles * 256)) ∧
    extent.blocks.length = blocksRequired (numFiles * 256)
  := by
  obtain ⟨-, s₁, hs₁, rfl, rfl⟩ := visitDir_eq_some_iff.mp h
  rw [blocksRequired]
  generalize (divCeil (numFiles * 256) 1024).toUInt16 = count at hs₁ ⊢
  generalize fillInodeSize _ _ _ = img
  generalize getInode s.nextInodeId = inode
  obtain ⟨htails, hblocks, -, -⟩ :=
    fillInodeBlocks_takes inode count s.nextBlockId { s₁ with img := img }
  have htakes := ((takes_blocks s _ count).append (hvisit _ _ _ hs₁)).append
    (takes_tails inode count s.nextBlockId s₁ img)
  rw [hblocks]
  refine ⟨?_, ?_, length_idsFrom _ _⟩
  · simpa using htakes
  · rw [htails, length_idsFrom]

/-! ### Trees -/

/-- The inodes assigned to the entries and below, in the order in which they are taken. -/
def Placed.ids : Placed → List UInt16
  | .nil => []
  | .file _ extent _ rest => extent.id :: extent.tails ++ rest.ids
  | .dir _ extent entries rest => extent.id :: (entries.ids ++ extent.tails) ++ rest.ids

/-- The blocks assigned to the entries and below, in the order in which they are taken. -/
def Placed.blocks : Placed → List UInt16
  | .nil => []
  | .file _ extent _ rest => extent.blocks ++ rest.blocks
  | .dir _ extent entries rest => extent.blocks ++ entries.blocks ++ rest.blocks

/-- The tree that has been placed. -/
def Placed.tree : Placed → Tree
  | .nil => .nil
  | .file name _ content rest => .file name content rest.tree
  | .dir name _ entries rest => .dir name entries.tree rest.tree

/-- The number of inodes that the entries and what is below them take. -/
def Tree.inodes : Tree → ℕ
  | .nil => 0
  | .file _ content rest => 1 + tailsFor (blocksFor content.length) + rest.inodes
  | .dir _ entries rest =>
    1 + entries.inodes + tailsFor (blocksFor (256 * entries.length)) + rest.inodes
  | .other _ rest => rest.inodes

/-- The number of blocks that the entries and what is below them take. -/
def Tree.blocks : Tree → ℕ
  | .nil => 0
  | .file _ content rest => blocksFor content.length + rest.blocks
  | .dir _ entries rest => blocksFor (256 * entries.length) + entries.blocks + rest.blocks
  | .other _ rest => rest.blocks

/-- The contents of the files. -/
def Tree.contents : Tree → List (List UInt8)
  | .nil => []
  | .file _ content rest => content :: rest.contents
  | .dir _ entries rest => entries.contents ++ rest.contents
  | .other _ rest => rest.contents

/-- There are only files and directories in the tree. -/
def Tree.Supported : Tree → Prop
  | .nil => True
  | .file _ _ rest => rest.Supported
  | .dir _ entries rest => entries.Supported ∧ rest.Supported
  | .other _ _ => False

/-- The steps of the second loop of `visit_dir` at a file. -/
theorem visitEntries_file {L : Layout} {name : Name} {content : List UInt8} {rest : Tree}
    {entries : ℕ} {i : UInt32} {s : Mkfs} {r : Placed × Mkfs}
    (h : visitEntries L (.file name content rest) entries i s = some r) :
  ∃ placed, visitEntries L rest entries (i + 1)
      (writeEntry (entries + 256 * i.toNat) name (visitFile L content s).1.id
        (visitFile L content s).2) = some (placed, r.2) ∧
    r.1 = .file name (visitFile L content s).1 content placed
  := by
  simp only [visitEntries, Option.bind_eq_bind, Option.bind_eq_some_iff, Option.pure_def,
    Option.some.injEq, Prod.exists] at h
  obtain ⟨placed, s', hrest, rfl⟩ := h
  exact ⟨placed, hrest, rfl⟩

/-- The steps of the second loop of `visit_dir` at a directory. -/
theorem visitEntries_dir {L : Layout} {name : Name} {below rest : Tree} {entries : ℕ} {i : UInt32}
    {s : Mkfs} {r : Placed × Mkfs}
    (h : visitEntries L (.dir name below rest) entries i s = some r) :
  ∃ extent placedBelow s₁ placed,
    visitDir L (UInt32.ofNat below.length) (fun dest => visitEntries L below dest 0) s =
      some (extent, placedBelow, s₁) ∧
    visitEntries L rest entries (i + 1)
      (writeEntry (entries + 256 * i.toNat) name extent.id s₁) = some (placed, r.2) ∧
    r.1 = .dir name extent placedBelow placed
  := by
  simp only [visitEntries, Option.bind_eq_bind, Option.bind_eq_some_iff, Option.pure_def,
    Option.some.injEq, Prod.exists] at h
  obtain ⟨extent, placedBelow, s₁, hdir, placed, s', hrest, rfl⟩ := h
  exact ⟨extent, placedBelow, s₁, placed, hdir, hrest, rfl⟩

/-- The entries take the inodes and blocks assigned to them. -/
theorem visitEntries_takes {L : Layout} {tree : Tree} {entries : ℕ} {i : UInt32} {s s' : Mkfs}
    {placed : Placed} (h : visitEntries L tree entries i s = some (placed, s')) :
  Takes s s' placed.ids placed.blocks
  := by
  induction tree generalizing entries i s s' placed with
  | nil =>
      obtain ⟨rfl, rfl⟩ := Prod.mk.inj (Option.some.inj h)
      apply Takes.nothing
  | file name content rest ih =>
      obtain ⟨p, hrest, rfl⟩ := visitEntries_file h
      obtain ⟨htakes, -, -⟩ := visitFile_takes L content s
      apply htakes.append (ih hrest).of_writeEntry
  | dir name below rest ihBelow ih =>
      obtain ⟨extent, q, s₁, p, hdir, hrest, rfl⟩ := visitEntries_dir h
      obtain ⟨htakes, -, -⟩ := visitDir_takes hdir fun dest s s' => ihBelow
      apply htakes.append (ih hrest).of_writeEntry
  | other name rest ih => simp [visitEntries] at h

/-- What is placed is the tree. -/
theorem visitEntries_tree {L : Layout} {tree : Tree} {entries : ℕ} {i : UInt32} {s s' : Mkfs}
    {placed : Placed} (h : visitEntries L tree entries i s = some (placed, s')) :
  placed.tree = tree
  := by
  induction tree generalizing entries i s s' placed with
  | nil =>
      obtain ⟨rfl, rfl⟩ := Prod.mk.inj (Option.some.inj h)
      rfl
  | file name content rest ih =>
      obtain ⟨p, hrest, rfl⟩ := visitEntries_file h
      rw [Placed.tree, ih hrest]
  | dir name below rest ihBelow ih =>
      obtain ⟨extent, q, s₁, p, hdir, hrest, rfl⟩ := visitEntries_dir h
      obtain ⟨-, s₂, hbelow, -⟩ := visitDir_eq_some_iff.mp hdir
      rw [Placed.tree, ih hrest, ihBelow hbelow]
  | other name rest ih => simp [visitEntries] at h

/-- Every entry takes an inode. -/
theorem Placed.length_le_ids (placed : Placed) :
  placed.tree.length ≤ placed.ids.length
  := by
  induction placed with
  | nil => simp [tree, Tree.length]
  | file name extent content rest ih =>
      simp only [tree, Tree.length, ids, List.length_append, List.length_cons]
      omega
  | dir name extent entries rest ihBelow ih =>
      simp only [tree, Tree.length, ids, List.length_append, List.length_cons]
      omega

theorem Placed.length_le_inodes (placed : Placed) :
  placed.tree.length ≤ placed.tree.inodes
  := by
  induction placed with
  | nil => rfl
  | file name extent content rest ih =>
      simp only [tree, Tree.length, Tree.inodes]
      omega
  | dir name extent entries rest ihBelow ih =>
      simp only [tree, Tree.length, Tree.inodes]
      omega

theorem toNat_ofNat_size {n : ℕ} (h : n < 2 ^ 24) :
  (UInt32.ofNat n).toNat = n
  := by
  rw [UInt32.toNat_ofNat']
  omega

theorem blocksRequired_dir {n : ℕ} (h : n < 2 ^ 16) :
  blocksRequired (UInt32.ofNat n * 256) = blocksFor (256 * n)
  := by
  have hsize : (UInt32.ofNat n * 256).toNat = 256 * n := by
    rw [UInt32.toNat_mul, UInt32.toNat_ofNat']
    simp only [UInt32.reduceToNat]
    omega
  rw [blocksRequired_eq (by omega), hsize]

/-- As long as files are short, and the ids that are taken or those that are required do not run over,
what is assigned is what is required. -/
theorem visitEntries_counts {L : Layout} {tree : Tree} {entries : ℕ} {i : UInt32} {s s' : Mkfs}
    {placed : Placed} (h : visitEntries L tree entries i s = some (placed, s'))
    (hsmall : ∀ content ∈ tree.contents, content.length < 2 ^ 24)
    (hids : placed.ids.length < 2 ^ 16 ∨ tree.inodes < 2 ^ 16) :
  placed.ids.length = tree.inodes ∧ placed.blocks.length = tree.blocks
  := by
  induction tree generalizing entries i s s' placed with
  | nil =>
      obtain ⟨rfl, rfl⟩ := Prod.mk.inj (Option.some.inj h)
      exact ⟨rfl, rfl⟩
  | file name content rest ih =>
      obtain ⟨p, hrest, rfl⟩ := visitEntries_file h
      simp only [Placed.ids, List.length_append, List.length_cons, Tree.inodes] at hids
      obtain ⟨-, htails, hblocks⟩ := visitFile_takes L content s
      have hlt := hsmall content (by simp [Tree.contents])
      rw [blocksRequired_eq (by rw [toNat_ofNat_size hlt]; exact hlt), toNat_ofNat_size hlt]
        at htails hblocks
      obtain ⟨hn, hb⟩ := ih hrest (fun c hc => hsmall c (by simp [Tree.contents, hc])) (by omega)
      simp only [Placed.ids, Placed.blocks, Tree.inodes, Tree.blocks, List.length_append,
        List.length_cons]
      omega
  | dir name below rest ihBelow ih =>
      obtain ⟨extent, q, s₁, p, hdir, hrest, rfl⟩ := visitEntries_dir h
      simp only [Placed.ids, List.length_append, List.length_cons, Tree.inodes] at hids
      obtain ⟨-, htails, hblocks⟩ := visitDir_takes hdir fun dest s s' => visitEntries_takes
      obtain ⟨-, s₂, hbelow, -⟩ := visitDir_eq_some_iff.mp hdir
      have hlen := q.length_le_ids
      have hlen' := q.length_le_inodes
      rw [visitEntries_tree hbelow] at hlen hlen'
      rw [blocksRequired_dir (by omega)] at htails hblocks
      obtain ⟨hn, hb⟩ := ih hrest (fun c hc => hsmall c (by simp [Tree.contents, hc])) (by omega)
      obtain ⟨hn', hb'⟩ :=
        ihBelow hbelow (fun c hc => hsmall c (by simp [Tree.contents, hc])) (by omega)
      simp only [Placed.ids, Placed.blocks, Tree.inodes, Tree.blocks, List.length_append,
        List.length_cons]
      omega
  | other name rest ih => simp [visitEntries] at h

end Aefs
