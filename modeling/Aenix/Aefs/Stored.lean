import Aenix.Aefs.Chain

/-!
# Stored trees

`Stored L m placed a` says what it means that an image holds a tree: from the address `a` on lie the
directory entries, whose inodes have the right type and size and list the right blocks, in which the
contents of the file lie, or the entries of the directory.  Whether this is so depends only on the inodes and
blocks that are assigned to the tree, and on the entries themselves.
-/

open Bytes Aenix

namespace Aefs

variable {L : Layout} {m m' : Memory} {e : Extent}

/-! ### Files and directories -/

/-- The image holds an inode with its chain. -/
structure InodeOf (m : Memory) (e : Extent) (type : UInt8) (size : ℕ) : Prop where
  type_eq : inodeType m (getInode e.id) = type
  size_eq : (inodeSize m (getInode e.id)).toNat = size
  chain : ChainOf m e
  blocks_length : e.blocks.length = blocksFor size
  tails_length : e.tails.length = tailsFor (blocksFor size)
  tails_ne_zero : 0 ∉ e.tails

/-- The blocks lie one after the other from the address `a` on. -/
def BlocksFrom (L : Layout) (blocks : List UInt16) (a : ℕ) : Prop :=
  ∀ k, (h : k < blocks.length) → getBlock L.startBlock blocks[k] = a + 1024 * k

/-- The image holds a regular file. -/
structure FileOf (L : Layout) (m : Memory) (e : Extent) (content : List UInt8) : Prop where
  inode : InodeOf m e filetypeReg content.length
  data : ∃ a, BlocksFrom L e.blocks a ∧ load m a content.length = content

/-- The image holds a directory, whose `n` entries lie from the address `a` on.  In the last block the
names of further entries are empty. -/
structure DirOf (L : Layout) (m : Memory) (e : Extent) (n a : ℕ) : Prop where
  inode : InodeOf m e filetypeDir (256 * n)
  blocks : BlocksFrom L e.blocks a
  unused : ∀ j, n ≤ j → j < 4 * e.blocks.length → m (a + 256 * j) = 0

/-- The image holds a directory entry at the address `a`. -/
structure EntryOf (m : Memory) (a : ℕ) (name : Name) (id : UInt16) : Prop where
  name_eq : load m a filenameMaxLen = strncpy name.bytes filenameMaxLen
  id_eq : entryInodeId m a = id

/-- The image holds the entries `placed` of a directory, from the address `a` on. -/
def Stored (L : Layout) (m : Memory) : Placed → ℕ → Prop
  | .nil, _ => True
  | .file name e content rest, a =>
    EntryOf m a name e.id ∧ FileOf L m e content ∧ Stored L m rest (a + 256)
  | .dir name e below rest, a =>
    EntryOf m a name e.id ∧ (∃ b, DirOf L m e below.tree.length b ∧ Stored L m below b) ∧
      Stored L m rest (a + 256)

/-! ### What this depends on -/

/-- Two images agree on inodes and blocks. -/
structure Agree (L : Layout) (m m' : Memory) (ids blocks : List UInt16) : Prop where
  inodes : ∀ id ∈ ids, Set.EqOn m m' (Set.Ico (getInode id) (getInode id + 16))
  blocks : ∀ b ∈ blocks,
    Set.EqOn m m' (Set.Ico (getBlock L.startBlock b) (getBlock L.startBlock b + 1024))

theorem Agree.mono {ids blocks ids' blocks' : List UInt16} (h : Agree L m m' ids blocks)
    (hids : ids' ⊆ ids) (hblocks : blocks' ⊆ blocks) :
  Agree L m m' ids' blocks'
  := ⟨fun id hid => h.inodes id (hids hid), fun b hb => h.blocks b (hblocks hb)⟩

theorem Extent.node_mem {k : ℕ} (h : k ≤ e.tails.length) :
  e.node k ∈ e.id :: e.tails
  := by
  rw [node, List.getD_eq_getElem _ _ (by simp; omega)]
  apply List.getElem_mem

theorem InodeOf.congr {type : UInt8} {size : ℕ} (h : InodeOf m e type size)
    (heq : Agree L m m' (e.id :: e.tails) e.blocks) :
  InodeOf m' e type size
  := by
  have hid := heq.inodes e.id (by simp)
  have hbyte : ∀ k < 16, m' (getInode e.id + k) = m (getInode e.id + k) := by
    intro k hk
    apply (hid _).symm
    rw [Set.mem_Ico]
    omega
  have hlow : inodeSizeLow m' (getInode e.id) = inodeSizeLow m (getInode e.id) := by
    apply load16_congr
    intro x hx
    apply (hid _).symm
    rw [Set.mem_Ico] at hx ⊢
    omega
  constructor
  · rw [← h.type_eq]
    apply hbyte 0 (by decide)
  · rw [← h.size_eq, inodeSize, inodeSize, hlow, inodeSizeHigh, hbyte 1 (by decide)]
    rfl
  · apply h.chain.congr
    intro k hk
    apply (heq.inodes _ (Extent.node_mem hk)).mono
    apply Set.Ico_subset_Ico <;> omega
  · apply h.blocks_length
  · apply h.tails_length
  · apply h.tails_ne_zero

/-- Consecutive blocks of two images that agree on them. -/
theorem BlocksFrom.eqOn {ids : List UInt16} {a : ℕ} (h : BlocksFrom L e.blocks a)
    (heq : Agree L m m' ids e.blocks) :
  Set.EqOn m m' (Set.Ico a (a + 1024 * e.blocks.length))
  := by
  intro x hx
  rw [Set.mem_Ico] at hx
  have hk : (x - a) / 1024 < e.blocks.length := by omega
  have haddr := h _ hk
  apply heq.blocks _ (List.getElem_mem hk)
  rw [Set.mem_Ico, haddr]
  omega

theorem le_blocksFor (size : ℕ) :
  size ≤ 1024 * blocksFor size
  := by
  rw [blocksFor]
  omega

theorem FileOf.congr {content : List UInt8} (h : FileOf L m e content)
    (heq : Agree L m m' (e.id :: e.tails) e.blocks) :
  FileOf L m' e content
  := by
  obtain ⟨a, hblocks, hload⟩ := h.data
  refine ⟨h.inode.congr heq, a, hblocks, ?_⟩
  rw [← load_congr, hload]
  apply (hblocks.eqOn heq).mono
  apply Set.Ico_subset_Ico_right
  have hle := le_blocksFor content.length
  rw [h.inode.blocks_length]
  omega

theorem DirOf.congr {n a : ℕ} (h : DirOf L m e n a)
    (heq : Agree L m m' (e.id :: e.tails) e.blocks) :
  DirOf L m' e n a
  := by
  refine ⟨h.inode.congr heq, h.blocks, ?_⟩
  intro j hj hj'
  rw [← h.unused j hj hj']
  apply (h.blocks.eqOn heq _).symm
  rw [Set.mem_Ico]
  omega

/-- The entries of a directory lie in its blocks. -/
theorem DirOf.entries_le {n a : ℕ} (h : DirOf L m e n a) :
  256 * n ≤ 1024 * e.blocks.length
  := by
  rw [h.inode.blocks_length]
  apply le_blocksFor

theorem EntryOf.congr {a : ℕ} {name : Name} {id : UInt16} (h : EntryOf m a name id)
    (heq : Set.EqOn m m' (Set.Ico a (a + 256))) :
  EntryOf m' a name id
  := by
  constructor
  · rw [← h.name_eq]
    apply load_congr
    apply heq.symm.mono
    apply Set.Ico_subset_Ico_right
    dsimp only [filenameMaxLen]
    omega
  · rw [← h.id_eq]
    apply load16_congr
    apply heq.symm.mono
    apply Set.Ico_subset_Ico <;> dsimp only [filenameMaxLen] <;> omega

/-- A tree stays stored in an image that agrees on what is assigned to the tree and on the entries. -/
theorem Stored.congr {placed : Placed} {a : ℕ} (h : Stored L m placed a)
    (heq : Agree L m m' placed.ids placed.blocks)
    (hentries : Set.EqOn m m' (Set.Ico a (a + 256 * placed.tree.length))) :
  Stored L m' placed a
  := by
  induction placed generalizing a with
  | nil => trivial
  | file name e content rest ih =>
      obtain ⟨hentry, hfile, hrest⟩ := h
      simp only [Placed.tree, Tree.length] at hentries
      refine ⟨hentry.congr ?_, hfile.congr ?_, ih hrest ?_ ?_⟩
      · apply hentries.mono
        apply Set.Ico_subset_Ico_right
        omega
      · apply heq.mono <;> simp [Placed.ids, Placed.blocks]
      · apply heq.mono <;> simp [Placed.ids, Placed.blocks]
      · apply hentries.mono
        apply Set.Ico_subset_Ico <;> omega
  | dir name e below rest ihBelow ih =>
      obtain ⟨hentry, ⟨b, hdir, hbelow⟩, hrest⟩ := h
      simp only [Placed.tree, Tree.length] at hentries
      have heqDir : Agree L m m' (e.id :: e.tails) e.blocks := by
        apply heq.mono
        · intro id hid
          simp only [Placed.ids, List.mem_cons, List.mem_append] at hid ⊢
          tauto
        · simp [Placed.blocks]
      refine ⟨hentry.congr ?_, ⟨b, hdir.congr heqDir, ihBelow hbelow ?_ ?_⟩, ih hrest ?_ ?_⟩
      · apply hentries.mono
        apply Set.Ico_subset_Ico_right
        omega
      · apply heq.mono <;> intro x hx <;> simp [Placed.ids, Placed.blocks, hx]
      · apply (hdir.blocks.eqOn heqDir).mono
        apply Set.Ico_subset_Ico_right
        have hle := hdir.entries_le
        omega
      · apply heq.mono <;> intro x hx <;> simp [Placed.ids, Placed.blocks, hx]
      · apply hentries.mono
        apply Set.Ico_subset_Ico <;> omega

/-- A directory and what is below it stay stored in an image that agrees on what is assigned to them. -/
theorem dir_congr {below : Placed} {n : ℕ} (h : ∃ a, DirOf L m e n a ∧ Stored L m below a)
    (hn : below.tree.length = n)
    (heq : Agree L m m' (e.id :: (below.ids ++ e.tails)) (e.blocks ++ below.blocks)) :
  ∃ a, DirOf L m' e n a ∧ Stored L m' below a
  := by
  obtain ⟨a, hdir, hbelow⟩ := h
  have heqDir : Agree L m m' (e.id :: e.tails) e.blocks := by
    apply heq.mono <;> intro x hx <;> simp only [List.mem_cons, List.mem_append] at hx ⊢ <;> tauto
  refine ⟨a, hdir.congr heqDir, hbelow.congr ?_ ?_⟩
  · apply heq.mono <;> intro x hx <;> simp [hx]
  · apply (hdir.blocks.eqOn heqDir).mono
    apply Set.Ico_subset_Ico_right
    have hle := hdir.entries_le
    omega

end Aefs
