import Aenix.Aefs.Format

/-!
# Making an image

`mkfs.c` writes a directory tree into an image.  It visits the tree depth first and takes inodes and
data blocks from two counters of 16 bits.  A directory takes its inode and its blocks before its
entries are visited, and the further inodes of its blocks after them.

The functions return, beside what those of the source return, what they have assigned to the files and
directories (`Extent`, `Placed`).  The memory does not end with the image: nothing in `mkfs.c` keeps the
writes inside it.
-/

open Bytes Aenix

namespace Aefs

/-! ### Directory trees -/

/-- A name in a directory: a string that is not empty. -/
structure Name where
  bytes : List UInt8
  ne_nil : bytes ≠ []
  no_nul : 0 ∉ bytes
deriving DecidableEq

/-- The entries that `readdir` yields for a directory, in order and without `.` and `..`.  An entry is
a regular file with its contents, a directory with its entries, or something else. -/
inductive Tree where
  | nil
  | file (name : Name) (content : List UInt8) (rest : Tree)
  | dir (name : Name) (entries rest : Tree)
  | other (name : Name) (rest : Tree)

/-- The number of entries. -/
def Tree.length : Tree → ℕ
  | .nil => 0
  | .file _ _ rest => rest.length + 1
  | .dir _ _ rest => rest.length + 1
  | .other _ rest => rest.length + 1

/-- The inode, the further inodes and the data blocks that belong to a file or directory. -/
structure Extent where
  id : UInt16
  tails : List UInt16
  blocks : List UInt16
deriving DecidableEq

/-- The entries of a directory, with what is assigned to them. -/
inductive Placed where
  | nil
  | file (name : Name) (extent : Extent) (content : List UInt8) (rest : Placed)
  | dir (name : Name) (extent : Extent) (entries rest : Placed)

/-! ### Inodes -/

/-- The image and the counters of `mkfs.c`. -/
structure Mkfs where
  img : Memory
  nextInodeId : UInt16
  nextBlockId : UInt16

/-- What `fill_inode_blocks` works on: the inode `list` it fills, and the further inodes and the blocks
it has assigned. -/
structure Fill where
  mkfs : Mkfs
  list : ℕ
  tails : List UInt16
  blocks : List UInt16

/-- The start of a round of `fill_inode_blocks`, which goes on to a new inode when one is full. -/
def Fill.advance (i : ℕ) (s : Fill) : Fill :=
  if i % inodeNumBlocks = 0 ∧ i ≠ 0 then
    let id := s.mkfs.nextInodeId
    let img := store16 s.mkfs.img (s.list + 14) id
    { s with
      mkfs := { s.mkfs with
        img := store img (getInode id) (List.replicate 16 0)
        nextInodeId := id + 1 }
      list := getInode id
      tails := s.tails ++ [id] }
  else
    s

/-- A round of the loop of `fill_inode_blocks`. -/
def fillRound (startBlockId : UInt16) (i : ℕ) (s : Fill) : Fill :=
  let s := s.advance i
  let block := startBlockId + UInt16.ofNat i
  { s with
    mkfs := { s.mkfs with
      img := store16 s.mkfs.img (s.list + 4 + 2 * (i % inodeNumBlocks)) block }
    blocks := s.blocks ++ [block] }

/-- The first `n` rounds of the loop of `fill_inode_blocks`. -/
def fillRounds (startBlockId : UInt16) : ℕ → Fill → Fill
  | 0, s => s
  | n + 1, s => fillRound startBlockId n (fillRounds startBlockId n s)

/-- `fill_inode_blocks`. -/
def fillInodeBlocks (inode : ℕ) (blocksRequired startBlockId : UInt16) (s : Mkfs) : Fill :=
  fillRounds startBlockId blocksRequired.toNat ⟨s, inode, [], []⟩

/-- `fill_inode_size`. -/
def fillInodeSize (img : Memory) (inode : ℕ) (size : UInt32) : Memory :=
  let img := store16 img (inode + 2) (size &&& 0xFFFF).toUInt16
  store img (inode + 1) [((size >>> 16) &&& 0xFF).toUInt8]

/-! ### Files and directories -/

/-- The layout of an image. -/
structure Layout where
  numInodes : UInt16
  startBlock : UInt16

/-- The loop of `fread` in `visit_file`: blocks of the file are read to `dest` and on, until nothing is
left to read. -/
def freadLoop : ℕ → List UInt8 → ℕ → Memory → Memory
  | 0, _, _, img => img
  | n + 1, content, dest, img =>
    match content.take blockSize with
    | [] => img
    | read => freadLoop n (content.drop blockSize) (dest + blockSize) (store img dest read)

/-- `visit_file`. -/
def visitFile (L : Layout) (content : List UInt8) (s : Mkfs) : Extent × Mkfs :=
  let size := UInt32.ofNat content.length
  let id := s.nextInodeId
  let inode := getInode id
  let blocksRequired := (divCeil size 1024).toUInt16
  let startBlockId := s.nextBlockId
  let img := store s.img inode [filetypeReg]
  let img := fillInodeSize img inode size
  let img := freadLoop (content.length + 1) content (getBlock L.startBlock startBlockId) img
  let s := ⟨img, id + 1, startBlockId + blocksRequired⟩
  let fill := fillInodeBlocks inode blocksRequired startBlockId s
  (⟨id, fill.tails, fill.blocks⟩, fill.mkfs)

/-- `visit_dir` of a directory with `numFiles` entries, where `visitEntries` is its second loop, which
fills the array at a given address. -/
def visitDir (L : Layout) (numFiles : UInt32) (visitEntries : ℕ → Mkfs → Option (Placed × Mkfs))
    (s : Mkfs) : Option (Extent × Placed × Mkfs) :=
  let id := s.nextInodeId
  let inode := getInode id
  if id = L.numInodes then
    none
  else do
    let blocksRequired := divCeil (numFiles * 256) 1024
    let startBlockId := s.nextBlockId
    let entries := getBlock L.startBlock startBlockId
    let img := store s.img entries (List.replicate (1024 * blocksRequired).toNat 0)
    let (placed, s) ← visitEntries entries ⟨img, id + 1, startBlockId + blocksRequired.toUInt16⟩
    let img := store s.img inode [filetypeDir]
    let img := fillInodeSize img inode (256 * numFiles)
    let fill := fillInodeBlocks inode blocksRequired.toUInt16 startBlockId { s with img := img }
    return (⟨id, fill.tails, fill.blocks⟩, placed, fill.mkfs)

/-- An entry is written: `inode_id`, and `name` with `strncpy`. -/
def writeEntry (entry : ℕ) (name : Name) (id : UInt16) (s : Mkfs) : Mkfs :=
  let img := store16 s.img (entry + filenameMaxLen) id
  { s with img := store img entry (strncpy name.bytes filenameMaxLen) }

/-- The second loop of `visit_dir` from the index `i` on, which fills the array `entries`. -/
def visitEntries (L : Layout) : Tree → ℕ → UInt32 → Mkfs → Option (Placed × Mkfs)
  | .nil, _, _, s => some (.nil, s)
  | .file name content rest, entries, i, s => do
    let (extent, s) := visitFile L content s
    let s := writeEntry (entries + 256 * i.toNat) name extent.id s
    let (placed, s) ← visitEntries L rest entries (i + 1) s
    return (.file name extent content placed, s)
  | .dir name below rest, entries, i, s => do
    let (extent, placedBelow, s) ←
      visitDir L (UInt32.ofNat below.length) (fun dest => visitEntries L below dest 0) s
    let s := writeEntry (entries + 256 * i.toNat) name extent.id s
    let (placed, s) ← visitEntries L rest entries (i + 1) s
    return (.dir name extent placedBelow placed, s)
  | .other _ _, _, _, _ => none

/-! ### The image -/

/-- The layout that `main` computes for an image of `fsSize` MB, of less than 2048 MB: the size in bytes is
an `int`. -/
def layout (fsSize : ℕ) : Layout :=
  let size := fsSize <<< 20
  let blocks := UInt16.ofNat (size / blockSize)
  let inodeBlocks := (divCeil (blocks.toUInt32 * 16) 1024).toUInt16
  ⟨blocks - inodeBlocks - 1, 1 + inodeBlocks⟩

/-- `write_superblock`. -/
def writeSuperblock (L : Layout) (img : Memory) : Memory :=
  let img := store img 0 (List.replicate blockSize 0)
  let img := store16 img 4 L.numInodes
  let img := store16 img 6 L.startBlock
  store32 img 0 magicNumber

/-- What `mkfs` leaves: the image, and what it has assigned to the root directory and to the entries
below it. -/
structure Image where
  mem : Memory
  root : Extent
  entries : Placed

/-- `main` of `mkfs.c`, for the root directory with the given entries and `fsSize` MB.  There is no
image of size 0: seeking to its last byte fails. -/
def mkfs (fsSize : ℕ) (tree : Tree) : Option Image :=
  if fsSize = 0 then
    none
  else do
    let L := layout fsSize
    let img := writeSuperblock L fun _ => 0
    let (root, entries, s) ←
      visitDir L (UInt32.ofNat tree.length) (fun dest => visitEntries L tree dest 0) ⟨img, 1, 0⟩
    return ⟨s.img, root, entries⟩

end Aefs
