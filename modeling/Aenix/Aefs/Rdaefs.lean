import Aenix.Aefs.Image

/-!
# Showing an image

`rdaefs.c` walks through an image and prints what it finds.  For an image made by `mkfs` it prints the
tree: every file and directory once and in order, with its name, type and size, and with the inodes and
blocks that are assigned to it.
-/

open Bytes Aenix

namespace Aefs

/-! ### The code -/

/-- What `rdaefs.c` prints. -/
inductive Line where
  | superblock (magicNumber : UInt32) (numInodes startBlock : UInt16)
  | reg (path : List UInt8)
  | dir (path : List UInt8) (numEntries : UInt16)
  | inode (type sizeHigh : UInt8) (sizeLow : UInt16)
  | blocks (blocks : List UInt16) (tail : UInt16)
  | entry (name : List UInt8) (id : UInt16)
deriving DecidableEq

/-- `print_inode_tail`, of a chain of at most `n` inodes. -/
def printInodeTail (m : Memory) : ℕ → ℕ → Option (List Line)
  | 0, _ => none
  | n + 1, inode =>
    let tail := inodeTail m inode
    let line := Line.blocks ((List.range inodeNumBlocks).map (inodeBlock m inode)) tail
    if tail ≠ 0 then
      (printInodeTail m n (getInode tail)).map (line :: ·)
    else
      some [line]

/-- `print_inode`. -/
def printInode (m : Memory) (n inode : ℕ) : Option (List Line) :=
  let line := Line.inode (inodeType m inode) (inodeSizeHigh m inode) (inodeSizeLow m inode)
  (printInodeTail m n inode).map (line :: ·)

/-- `visit_reg`. -/
def visitReg (m : Memory) (n inode : ℕ) (path : List UInt8) : Option (List Line) :=
  (printInode m n inode).map (.reg path :: ·)

/-- The variables of the loop of `visit_dir`: the current block, and the place of the next one. -/
structure DirState where
  block : ℕ
  blockNum : ℕ
  inode : ℕ

/-- The start of a round of the loop of `visit_dir`, which goes on to the next block when all entries of one
have been read.  After the last block of an inode it goes on to the next inode at once. -/
def DirState.advance (m : Memory) (i : ℕ) (s : DirState) : DirState :=
  if i % direntriesPerBlock = 0 then
    let block := getBlock (sbStartBlock m) (inodeBlock m s.inode s.blockNum)
    if s.blockNum + 1 = inodeNumBlocks then
      ⟨block, 0, getInode (inodeTail m s.inode)⟩
    else
      ⟨block, s.blockNum + 1, s.inode⟩
  else
    s

/-- The path of an entry: `"%s/%s"`. -/
def childPath (path name : List UInt8) : List UInt8 := path ++ 47 :: name

/-- The loop of `visit_dir` from the entry `i` on and over `k` entries, which `visit` visits.  Names are
shorter than `n`. -/
def visitDirEntries (m : Memory) (n : ℕ) (visit : ℕ → List UInt8 → Option (List Line))
    (path : List UInt8) : ℕ → ℕ → DirState → Option (List Line)
  | 0, _, _ => some []
  | k + 1, i, s => do
    let s := s.advance m i
    let entry := s.block + 256 * (i % direntriesPerBlock)
    let name ← cString m n entry
    let id := entryInodeId m entry
    let lines ← visit (getInode id) (childPath path name)
    let rest ← visitDirEntries m n visit path k (i + 1) s
    return .entry name id :: (lines ++ rest)

/-- `visit_dir` of `rdaefs.c`, where `visit` is `visit_inode`. -/
def visitDirOf (m : Memory) (n : ℕ) (visit : ℕ → List UInt8 → Option (List Line)) (inode : ℕ)
    (path : List UInt8) : Option (List Line) := do
  let numEntries := (inodeSize m inode / 256).toNat
  let lines ← printInode m n inode
  let entries ← visitDirEntries m n visit path numEntries 0 ⟨0, 0, inode⟩
  return .dir path (UInt16.ofNat numEntries) :: (lines ++ entries)

/-- `visit_inode`, to a depth of at most `d`. -/
def visitInode (m : Memory) (n : ℕ) : ℕ → ℕ → List UInt8 → Option (List Line)
  | 0, _, _ => none
  | d + 1, inode, path =>
    if inodeType m inode = filetypeReg then
      visitReg m n inode path
    else if inodeType m inode = filetypeDir then
      visitDirOf m n (visitInode m n d) inode path
    else
      none

/-- `main` of `rdaefs.c`: what is printed for an image, where recursions and strings are limited to `n`. -/
def rdaefs (n : ℕ) (m : Memory) : Option (List Line) := do
  let lines ← visitInode m n n (getInode 1) [47]
  return .superblock (sbMagicNumber m) (sbNumInodes m) (sbStartBlock m) :: lines

/-! ### The lines of a tree -/

/-- The lines for the inodes of a file or directory. -/
def Extent.lines (e : Extent) (type : UInt8) (size : ℕ) : List Line :=
  .inode type (UInt8.ofNat (size / 2 ^ 16)) (UInt16.ofNat (size % 2 ^ 16)) ::
    (List.range (e.tails.length + 1)).map fun k =>
      .blocks ((List.range 5).map fun j => e.blocks.getD (5 * k + j) 0) (e.node (k + 1))

/-- The lines for the entries of a directory with the given path, and for what is below them. -/
def Placed.lines : Placed → List UInt8 → List Line
  | .nil, _ => []
  | .file name e content rest, path =>
    .entry name.bytes e.id :: .reg (childPath path name.bytes) ::
      (e.lines filetypeReg content.length ++ rest.lines path)
  | .dir name e below rest, path =>
    .entry name.bytes e.id ::
      .dir (childPath path name.bytes) (UInt16.ofNat below.tree.length) ::
      (e.lines filetypeDir (256 * below.tree.length) ++ below.lines (childPath path name.bytes) ++
        rest.lines path)

/-- The lines for an image. -/
def Image.lines (image : Image) (L : Layout) : List Line :=
  .superblock magicNumber L.numInodes L.startBlock ::
    .dir [47] (UInt16.ofNat image.entries.tree.length) ::
    (image.root.lines filetypeDir (256 * image.entries.tree.length) ++ image.entries.lines [47])

/-! ### Inodes -/

section Lines

variable {L : Layout} {m : Memory} {e : Extent} {type : UInt8} {size n : ℕ}

theorem InodeOf.node_eq_zero_iff (h : InodeOf m e type size) {k : ℕ} (hk : k ≤ e.tails.length) :
  e.node (k + 1) = 0 ↔ k = e.tails.length
  := by
  rw [Extent.node, List.getD_cons_succ]
  constructor
  · intro h0
    by_contra hne
    have hlt : k < e.tails.length := by omega
    apply h.tails_ne_zero
    rw [← h0, List.getD_eq_getElem _ _ hlt]
    apply List.getElem_mem
  · rintro rfl
    apply List.getD_eq_default _ _ le_rfl

/-- The lines for the inodes of a chain. -/
theorem printInodeTail_spec (h : InodeOf m e type size) {k : ℕ} (hk : k ≤ e.tails.length)
    (hn : e.tails.length < n + k) :
  printInodeTail m n (getInode (e.node k)) =
    some ((List.range' k (e.tails.length + 1 - k)).map fun k =>
      .blocks ((List.range 5).map fun j => e.blocks.getD (5 * k + j) 0) (e.node (k + 1)))
  := by
  induction n generalizing k with
  | zero => omega
  | succ n ih =>
      have htail := h.chain.tail k hk
      have hblocks : (List.range inodeNumBlocks).map (inodeBlock m (getInode (e.node k))) =
          (List.range 5).map fun j => e.blocks.getD (5 * k + j) 0 := by
        apply List.map_congr_left
        intro j hj
        apply h.chain.block k hk j (List.mem_range.mp hj)
      rw [printInodeTail, htail, hblocks]
      rcases Nat.lt_or_ge k e.tails.length with hlt | hge
      · rw [if_pos (fun h0 => hlt.ne ((h.node_eq_zero_iff hk).mp h0)), ih (by omega) (by omega),
          show e.tails.length + 1 - k = e.tails.length + 1 - (k + 1) + 1 by omega, List.range'_succ]
        rfl
      · obtain rfl : k = e.tails.length := by omega
        have h0 := (h.node_eq_zero_iff hk).mpr rfl
        rw [if_neg (by simpa using h0), Nat.add_sub_cancel_left]
        rfl

theorem InodeOf.size_lt (h : InodeOf m e type size) :
  size < 2 ^ 24
  := by
  rw [← h.size_eq]
  apply inodeSize_lt

theorem InodeOf.tails_lt (h : InodeOf m e type size) :
  e.tails.length < 2 ^ 12
  := by
  have hlt := h.size_lt
  rw [h.tails_length, tailsFor, blocksFor]
  omega

theorem printInode_spec (h : InodeOf m e type size) (hn : 2 ^ 12 ≤ n) :
  printInode m n (getInode e.id) = some (e.lines type size)
  := by
  have hsize := h.size_eq
  have htails := h.tails_lt
  have hlt := (inodeSizeLow m (getInode e.id)).toNat_lt
  have hlt' := (inodeSizeHigh m (getInode e.id)).toNat_lt
  rw [toNat_inodeSize] at hsize
  have hlow : inodeSizeLow m (getInode e.id) = UInt16.ofNat (size % 2 ^ 16) := by
    apply UInt16.toNat_inj.mp
    rw [UInt16.toNat_ofNat']
    omega
  have hhigh : inodeSizeHigh m (getInode e.id) = UInt8.ofNat (size / 2 ^ 16) := by
    apply UInt8.toNat_inj.mp
    rw [UInt8.toNat_ofNat']
    omega
  have hprint : printInodeTail m n (getInode e.id) = _ := printInodeTail_spec h (Nat.zero_le _) (by omega)
  rw [printInode, hprint, h.type_eq, hlow, hhigh, Nat.sub_zero, ← List.range_eq_range']
  rfl

/-! ### Entries -/

/-- The name of an entry is found again when it has room for the final zero. -/
theorem EntryOf.cString_eq {a : ℕ} {name : Name} {id : UInt16} (h : EntryOf m a name id)
    (hlen : name.bytes.length ≤ 253) (hn : 2 ^ 12 ≤ n) :
  cString m n a = some name.bytes
  := by
  have hcopy : strncpy name.bytes 254 =
      name.bytes ++ 0 :: List.replicate (253 - name.bytes.length) 0 := by
    rw [strncpy, List.take_of_length_le (by omega),
      show 254 - name.bytes.length = 253 - name.bytes.length + 1 by omega, List.replicate_succ]
  have hname : load m a 254 = strncpy name.bytes 254 := h.name_eq
  have hload := load_slice hname (i := 0) (k := name.bytes.length + 1) (by omega)
  apply cString_of_load name.no_nul _ (by omega)
  rw [Nat.add_zero, List.drop_zero, hcopy, List.take_length_add_append] at hload
  apply hload

/-- In the loop of `visit_dir`, before the entry `i`: the next block is the one after those that have been
read, and the current one, if the entry lies in it, is the block of the entry. -/
structure DirAt (e : Extent) (a i : ℕ) (s : DirState) : Prop where
  block : i % 4 ≠ 0 → s.block = a + 1024 * (i / 4)
  blockNum : s.blockNum = (i + 3) / 4 % 5
  inode : s.inode = getInode (e.node ((i + 3) / 4 / 5))

/-- Every round finds the entry `i`, and leads to the next one. -/
theorem DirAt.advance {a i len : ℕ} {s : DirState} (h : DirAt e a i s) (hdir : DirOf L m e len a)
    (hstart : sbStartBlock m = L.startBlock) (hi : i < len) :
  (s.advance m i).block + 256 * (i % direntriesPerBlock) = a + 256 * i ∧
    DirAt e a (i + 1) (s.advance m i)
  := by
  have hle := hdir.entries_le
  have hlt : i / 4 < e.blocks.length := by omega
  have hnode : i / 4 / 5 ≤ e.tails.length := by
    rw [hdir.inode.tails_length, ← hdir.inode.blocks_length, tailsFor]
    omega
  rw [DirState.advance]
  by_cases hmod : i % 4 = 0
  · -- the next block
    have hq : (i + 3) / 4 = i / 4 := by omega
    have hblockNum := h.blockNum
    have hinode := h.inode
    rw [hq] at hblockNum hinode
    have hblock : getBlock (sbStartBlock m) (inodeBlock m s.inode s.blockNum) = a + 1024 * (i / 4) := by
      rw [hinode, hblockNum, hdir.inode.chain.block _ hnode _ (Nat.mod_lt _ (by decide)),
        Nat.div_add_mod, List.getD_eq_getElem _ _ hlt, hstart, hdir.blocks _ hlt]
    rw [if_pos hmod, hblock]
    have hq' : (i + 1 + 3) / 4 = i / 4 + 1 := by omega
    have hmod' : i % direntriesPerBlock = 0 := hmod
    rw [hmod']
    split
    case isTrue hfull =>
      have hfull' : s.blockNum + 1 = 5 := hfull
      refine ⟨by dsimp only; omega, ⟨fun _ => by dsimp only; omega, ?_, ?_⟩⟩
      · rw [hq']
        dsimp only
        omega
      · rw [hq']
        dsimp only
        rw [hinode, hdir.inode.chain.tail _ hnode, show (i / 4 + 1) / 5 = i / 4 / 5 + 1 by omega]
    case isFalse hfull =>
      have hfull' : s.blockNum + 1 ≠ 5 := hfull
      refine ⟨by dsimp only; omega, ⟨fun _ => by dsimp only; omega, ?_, ?_⟩⟩
      · rw [hq']
        dsimp only
        omega
      · rw [hq']
        dsimp only
        rw [hinode, show (i / 4 + 1) / 5 = i / 4 / 5 by omega]
  · have hblock := h.block hmod
    have hmod' : ¬ i % direntriesPerBlock = 0 := hmod
    rw [if_neg hmod']
    have hq : (i + 1 + 3) / 4 = (i + 3) / 4 := by omega
    refine ⟨?_, ⟨fun hne => ?_, ?_, ?_⟩⟩
    · rw [hblock]
      dsimp only [direntriesPerBlock]
      omega
    · rw [hblock]
      omega
    · rw [hq, h.blockNum]
    · rw [hq, h.inode]

/-- One round of the loop of `visit_dir`. -/
theorem visitDirEntries_step {a i k len : ℕ} {s : DirState} {name : Name} {id : UInt16}
    {visit : ℕ → List UInt8 → Option (List Line)} {path : List UInt8} {lines rest : List Line}
    (h : DirAt e a i s) (hdir : DirOf L m e len a) (hstart : sbStartBlock m = L.startBlock)
    (hi : i < len) (hn : 2 ^ 12 ≤ n) (hentry : EntryOf m (a + 256 * i) name id)
    (hlen : name.bytes.length ≤ 253)
    (hvisit : visit (getInode id) (childPath path name.bytes) = some lines)
    (hrest : ∀ s, DirAt e a (i + 1) s → visitDirEntries m n visit path k (i + 1) s = some rest) :
  visitDirEntries m n visit path (k + 1) i s = some (.entry name.bytes id :: (lines ++ rest))
  := by
  obtain ⟨haddr, hnext⟩ := h.advance hdir hstart hi
  rw [visitDirEntries]
  dsimp only
  rw [haddr, hentry.cString_eq hlen hn, hentry.id_eq, hrest _ hnext]
  dsimp only [Option.bind_eq_bind, Option.bind_some]
  rw [hvisit]
  rfl

/-- The depth of the directories below. -/
def Placed.depth : Placed → ℕ
  | .nil => 0
  | .file _ _ _ rest => max 1 rest.depth
  | .dir _ _ below rest => max (below.depth + 1) rest.depth

/-- The names of all entries. -/
def Tree.allNames : Tree → List Name
  | .nil => []
  | .file name _ rest => name :: rest.allNames
  | .dir name below rest => name :: (below.allNames ++ rest.allNames)
  | .other name rest => name :: rest.allNames

theorem visitReg_spec {content : List UInt8} (h : FileOf L m e content) (hn : 2 ^ 12 ≤ n) (d : ℕ)
    (path : List UInt8) :
  visitInode m n (d + 1) (getInode e.id) path =
    some (.reg path :: e.lines filetypeReg content.length)
  := by
  rw [visitInode, if_pos h.inode.type_eq, visitReg, printInode_spec h.inode hn]
  rfl

/-- The start of the loop of `visit_dir`. -/
theorem dirAt_zero (e : Extent) (a : ℕ) :
  DirAt e a 0 ⟨0, 0, getInode e.id⟩
  := ⟨by simp, rfl, rfl⟩

theorem visitDirOf_spec {a len d : ℕ} {path : List UInt8} {lines : List Line}
    (h : DirOf L m e len a) (hn : 2 ^ 12 ≤ n)
    (hentries : visitDirEntries m n (visitInode m n d) path len 0 ⟨0, 0, getInode e.id⟩ = some lines) :
  visitInode m n (d + 1) (getInode e.id) path =
    some (.dir path (UInt16.ofNat len) :: (e.lines filetypeDir (256 * len) ++ lines))
  := by
  have hsize : (inodeSize m (getInode e.id) / 256).toNat = len := by
    rw [UInt32.toNat_div, h.inode.size_eq]
    simp
  rw [visitInode, if_neg (by rw [h.inode.type_eq]; decide), if_pos h.inode.type_eq, visitDirOf, hsize]
  simp only [printInode_spec h.inode hn, hentries]
  rfl

/-- The loop of `visit_dir` prints the entries, and what is below them. -/
theorem visitDirEntries_spec {placed : Placed} {a i len d : ℕ} {s : DirState} {path : List UInt8}
    (hdir : DirOf L m e len a) (hstart : sbStartBlock m = L.startBlock) (hn : 2 ^ 12 ≤ n)
    (hlen : len = i + placed.tree.length) (hstored : Stored L m placed (a + 256 * i))
    (hs : DirAt e a i s) (hd : placed.depth ≤ d)
    (hnames : ∀ name ∈ placed.tree.allNames, name.bytes.length ≤ 253) :
  visitDirEntries m n (visitInode m n d) path placed.tree.length i s = some (placed.lines path)
  := by
  induction placed generalizing e a i len d s path with
  | nil => rfl
  | file name e' content rest ih =>
      obtain ⟨hentry, hfile, hrest⟩ := hstored
      rw [Nat.add_assoc, ← Nat.mul_succ] at hrest
      simp only [Placed.tree, Tree.length, Placed.depth] at hlen hd ⊢
      obtain ⟨d, rfl⟩ : ∃ d', d = d' + 1 := ⟨d - 1, by omega⟩
      apply visitDirEntries_step hs hdir hstart (by omega) hn hentry
        (hnames name (by simp [Placed.tree, Tree.allNames])) (visitReg_spec hfile hn d _)
      intro s' hs'
      apply ih hdir (by omega) hrest hs' (by omega)
      intro name' hname'
      apply hnames name'
      simp [Placed.tree, Tree.allNames, hname']
  | dir name e' below rest ihBelow ih =>
      obtain ⟨hentry, ⟨b, hbelow, hstoredBelow⟩, hrest⟩ := hstored
      rw [Nat.add_assoc, ← Nat.mul_succ] at hrest
      simp only [Placed.tree, Tree.length, Placed.depth] at hlen hd ⊢
      obtain ⟨d, rfl⟩ : ∃ d', d = d' + 1 := ⟨d - 1, by omega⟩
      have hloop : visitDirEntries m n (visitInode m n d) (childPath path name.bytes) below.tree.length 0
          ⟨0, 0, getInode e'.id⟩ = some (below.lines (childPath path name.bytes)) := by
        apply ihBelow hbelow (Nat.zero_add _).symm hstoredBelow (dirAt_zero e' b) (by omega)
        intro name' hname'
        apply hnames name'
        simp [Placed.tree, Tree.allNames, hname']
      have hloop' : ∀ s', DirAt e a (i + 1) s' →
          visitDirEntries m n (visitInode m n (d + 1)) path rest.tree.length (i + 1) s' =
            some (rest.lines path) := by
        intro s' hs'
        apply ih hdir (by omega) hrest hs' (by omega)
        intro name' hname'
        apply hnames name'
        simp [Placed.tree, Tree.allNames, hname']
      have hlines := visitDirEntries_step hs hdir hstart (by omega) hn hentry
        (hnames name (by simp [Placed.tree, Tree.allNames])) (visitDirOf_spec hbelow hn hloop) hloop'
      simpa [Placed.lines] using hlines

end Lines

/-! ### Images -/

/-- For every tree that fits the image and whose names have at most 253 bytes, `rdaefs` ends and prints the
tree that `mkfs` has stored. -/
theorem rdaefs_decodes {fsSize : ℕ} {tree : Tree} (hfits : Fits fsSize tree)
    (hsupported : tree.Supported) (hsmall : tree.Small)
    (hnames : ∀ name ∈ tree.allNames, name.bytes.length ≤ 253) :
  ∃ image, mkfs fsSize tree = some image ∧ image.entries.tree = tree ∧
    ∃ N, ∀ n ≥ N, rdaefs n image.mem = some (image.lines (layout fsSize))
  := by
  obtain ⟨image, hmkfs, hholds⟩ := mkfs_spec hfits hsupported hsmall
  obtain ⟨hmagic, hnum, hstart⟩ := hholds.superblock hfits
  obtain ⟨a, hroot, hstored⟩ := hholds.root
  have hid : image.root.id = 1 := by
    have hids := congrArg List.head? hholds.ids
    rw [Tree.totalInodes, Nat.add_assoc, idsFrom_add, idsFrom_one] at hids
    simpa using hids
  refine ⟨image, hmkfs, hholds.tree_eq, 2 ^ 12 + image.entries.depth + 1, ?_⟩
  intro n hn
  obtain ⟨d, rfl⟩ : ∃ d, n = d + 1 := ⟨n - 1, by omega⟩
  have hloop : visitDirEntries image.mem (d + 1) (visitInode image.mem (d + 1) d) [47]
      image.entries.tree.length 0 ⟨0, 0, getInode image.root.id⟩ = some (image.entries.lines [47]) := by
    apply visitDirEntries_spec hroot hstart (by omega) _ hstored (dirAt_zero image.root a) (by omega)
    · rwa [hholds.tree_eq]
    · rw [hholds.tree_eq, Nat.zero_add]
  rw [hholds.tree_eq] at hloop
  have hvisit := visitDirOf_spec hroot (by omega) hloop
  rw [hid] at hvisit
  rw [rdaefs, hvisit, hmagic, hnum, hstart, Image.lines, hholds.tree_eq]
  rfl

theorem rdaefs_smallTree :
  Fits 1 smallTree ∧ ∃ image, mkfs 1 smallTree = some image ∧ image.entries.tree = smallTree ∧
    ∃ N, ∀ n ≥ N, rdaefs n image.mem = some (image.lines (layout 1))
  := ⟨smallTree_fits, rdaefs_decodes smallTree_fits smallTree_supported smallTree_small (by decide)⟩

end Aefs
