import Aenix.Aefs.Image

/-!
# Looking up a name

`aefs_lookup` compares a name with the names in the blocks of a directory, using the `strncmp` of
`string.c`.  Its loop never moves on from the first character, so that two names are taken to be equal when they
begin with the same one.  In an empty directory `div_ceil` gives 2 ^ 22 blocks, all of which are the data
block 0, the first block of the root directory.
-/

open Bytes Aenix

namespace Aefs

/-! ### The code -/

/-- `strncmp` of the strings that begin at the given functions from offsets to characters. -/
def strncmp (s1 s2 : Memory) : ℕ → Int
  | 0 => 0
  | n + 1 =>
    -- neither pointer is advanced
    if s1 0 = s2 0 then strncmp s1 s2 n
    else if s1 0 = 0 ∧ s2 0 ≠ 0 then -1
    else if s2 0 = 0 ∧ s1 0 ≠ 0 then 1
    else if (s1 0).toInt8 < (s2 0).toInt8 then -1
    else 1

/-- The inner loop of `aefs_lookup`, over `n` entries: the inode of the first one with the name. -/
def scanEntries (m name : Memory) : ℕ → ℕ → Option ℕ
  | 0, _ => none
  | n + 1, entry =>
    if strncmp (fun k => m (entry + k)) name filenameMaxLen = 0 then
      some (getInode (entryInodeId m entry))
    else
      scanEntries m name n (entry + 256)

/-- The outer loop of `aefs_lookup`, from the block `i` on and over `n` blocks. -/
def lookupRounds (m name : Memory) : ℕ → ℕ → ℕ → Option ℕ
  | 0, _, _ => none
  | n + 1, i, current =>
    let current := nextInode m i current
    let block := getBlock (sbStartBlock m) (inodeBlock m current (i % inodeNumBlocks))
    match scanEntries m name direntriesPerBlock block with
    | some inode => some inode
    | none => lookupRounds m name n (i + 1) current

/-- `aefs_lookup`, with `v_data` of the vnode for the result. -/
def aefsLookup (m : Memory) (dir : ℕ) (name : Memory) (res : ℕ) : Int × ℕ :=
  if inodeType m dir ≠ filetypeDir then
    (-1, res)
  else
    let numBlocks := divCeil (inodeSize m dir) 1024
    match lookupRounds m name numBlocks.toNat 0 dir with
    | some inode => (0, inode)
    | none => (-1, res)

/-! ### Names -/

/-- The first character of a name. -/
def Name.first (name : Name) : UInt8 := name.bytes.head name.ne_nil

/-- The name as a string that ends with a zero. -/
def Name.string (name : Name) : Memory := fun k => (name.bytes ++ [0]).getD k 0

theorem Name.string_zero (name : Name) :
  name.string 0 = name.first
  := by
  obtain ⟨bytes, hne, hnul⟩ := name
  cases bytes with
  | nil => exact absurd rfl hne
  | cons c cs => rfl

theorem Name.first_ne_zero (name : Name) :
  name.first ≠ 0
  := by
  intro h
  apply name.no_nul
  rw [← h]
  apply List.head_mem

/-- `strncmp` compares the first characters. -/
theorem strncmp_eq_zero_iff (s1 s2 : Memory) {n : ℕ} (h : 0 < n) :
  strncmp s1 s2 n = 0 ↔ s1 0 = s2 0
  := by
  by_cases heq : s1 0 = s2 0
  · simp only [heq, iff_true]
    induction n with
    | zero => rfl
    | succ n ih =>
        rw [strncmp, if_pos heq]
        rcases Nat.eq_zero_or_pos n with rfl | hn
        · rfl
        · apply ih hn
  · obtain ⟨n, rfl⟩ := Nat.exists_eq_succ_of_ne_zero h.ne'
    simp only [heq, iff_false, strncmp, if_false]
    split
    · decide
    · split
      · decide
      · split <;> decide

/-! ### Scanning entries -/

section Scan

variable {L : Layout} {m : Memory} {e : Extent}

/-- The names and inodes of the entries of a directory. -/
def Placed.list : Placed → List (Name × UInt16)
  | .nil => []
  | .file name extent _ rest => (name, extent.id) :: rest.list
  | .dir name extent _ rest => (name, extent.id) :: rest.list

theorem Placed.length_list (placed : Placed) :
  placed.list.length = placed.tree.length
  := by
  induction placed with
  | nil => rfl
  | file name extent content rest ih => simp [list, tree, Tree.length, ih]
  | dir name extent below rest _ ih => simp [list, tree, Tree.length, ih]

/-- The inode of the first entry in a list whose name begins as the given one. -/
def findFirst (entries : List (Name × UInt16)) (name : Name) : Option ℕ :=
  (entries.find? fun entry => entry.1.first = name.first).map fun entry => getInode entry.2

/-- The result of a lookup that scans the given entries. -/
def lookupResult (entries : List (Name × UInt16)) (name : Name) (res : ℕ) : Int × ℕ :=
  match findFirst entries name with
  | some inode => (0, inode)
  | none => (-1, res)

theorem scanEntries_add (m name : Memory) (n k entry : ℕ) :
  scanEntries m name (n + k) entry =
    match scanEntries m name n entry with
    | some inode => some inode
    | none => scanEntries m name k (entry + 256 * n)
  := by
  induction n generalizing entry with
  | zero => simp [scanEntries]
  | succ n ih =>
      rw [Nat.add_right_comm, scanEntries, scanEntries]
      split
      · rfl
      · rw [ih, show entry + 256 + 256 * n = entry + 256 * (n + 1) by ring]

theorem scanEntries_zero {name : Name} {n entry : ℕ} (h : ∀ j < n, m (entry + 256 * j) = 0) :
  scanEntries m name.string n entry = none
  := by
  induction n generalizing entry with
  | zero => rfl
  | succ n ih =>
      have hentry : m (entry + 0) = 0 := h 0 (by omega)
      rw [scanEntries, if_neg]
      · apply ih
        intro j hj
        rw [← h (j + 1) (by omega)]
        congr 1
        ring
      · rw [strncmp_eq_zero_iff _ _ (by decide), hentry, Name.string_zero]
        exact Ne.symm name.first_ne_zero

/-- The first character of an entry. -/
theorem EntryOf.first {a : ℕ} {name : Name} {id : UInt16} (h : EntryOf m a name id) :
  m a = name.first
  := by
  have hname := h.name_eq
  obtain ⟨bytes, hne, hnul⟩ := name
  cases bytes with
  | nil => exact absurd rfl hne
  | cons c cs =>
      have hhead := congrArg List.head? hname
      rw [load, List.range_succ_eq_map] at hhead
      simpa [strncpy, Name.first] using hhead

/-- A scan of entries that are stored. -/
theorem scanEntries_stored {placed : Placed} {a n : ℕ} {name : Name} (h : Stored L m placed a) :
  scanEntries m name.string (min n placed.list.length) a = findFirst (placed.list.take n) name
  := by
  have hstep : ∀ {a n : ℕ} {x : Name × UInt16} {xs : List (Name × UInt16)}, EntryOf m a x.1 x.2 →
      (∀ n, scanEntries m name.string (min n xs.length) (a + 256) = findFirst (xs.take n) name) →
      scanEntries m name.string (min n (x :: xs).length) a = findFirst ((x :: xs).take n) name := by
    intro a n x xs hentry hrest
    cases n with
    | zero => simp [scanEntries, findFirst]
    | succ n =>
        have hiff : strncmp (fun k => m (a + k)) name.string filenameMaxLen = 0 ↔
            x.1.first = name.first := by
          rw [strncmp_eq_zero_iff _ _ (by decide), Name.string_zero]
          simp [hentry.first]
        rw [List.length_cons, Nat.succ_min_succ, scanEntries, List.take_succ_cons]
        by_cases hfirst : x.1.first = name.first
        · rw [if_pos (hiff.mpr hfirst), hentry.id_eq]
          simp [findFirst, hfirst]
        · rw [if_neg (fun h0 => hfirst (hiff.mp h0)), hrest]
          simp [findFirst, hfirst]
  induction placed generalizing a n with
  | nil => simp [Placed.list, scanEntries, findFirst]
  | file name' extent content rest ih =>
      obtain ⟨hentry, -, hrest⟩ := h
      apply hstep hentry
      intro n
      apply ih hrest
  | dir name' extent below rest _ ih =>
      obtain ⟨hentry, -, hrest⟩ := h
      apply hstep hentry
      intro n
      apply ih hrest

/-- The entries that `aefs_lookup` scans in blocks of a directory that begin with its entries. -/
theorem scanEntries_blocks {placed : Placed} {a n k : ℕ} {name : Name}
    (hdir : DirOf L m e placed.tree.length a) (hstored : Stored L m placed a)
    (hk : k ≤ e.blocks.length) (hn : n = 4 * k) :
  scanEntries m name.string n a = findFirst (placed.list.take n) name
  := by
  have hlen := placed.length_list
  obtain ⟨d, hd⟩ : ∃ d, n = min n placed.list.length + d := ⟨n - min n placed.list.length, by omega⟩
  nth_rewrite 1 [hd]
  rw [scanEntries_add, scanEntries_stored hstored, scanEntries_zero]
  · cases findFirst (placed.list.take n) name with
    | none => rfl
    | some inode => rfl
  · -- there is nothing behind the last entry
    intro j hj
    rw [add_assoc, ← Nat.mul_add]
    apply hdir.unused <;> omega

/-- The outer loop goes along the chain of a directory. -/
theorem lookupRounds_chain {a n k i : ℕ} (name : Memory) (hdir : DirOf L m e n a)
    (hstart : sbStartBlock m = L.startBlock) (hik : i + k ≤ e.blocks.length) :
  lookupRounds m name k i (getInode (e.node (tailsFor i))) = scanEntries m name (4 * k) (a + 1024 * i)
  := by
  induction k generalizing i with
  | zero => rfl
  | succ k ih =>
      have hi : i < e.blocks.length := by omega
      have hnode : i / 5 ≤ e.tails.length := by
        rw [hdir.inode.tails_length, ← hdir.inode.blocks_length, tailsFor]
        omega
      rw [lookupRounds, hdir.inode.chain.nextInode_eq hnode, hdir.inode.chain.inodeBlock_eq hnode,
        hstart, List.getD_eq_getElem _ _ hi, hdir.blocks i hi, ih (by omega),
        show 4 * (k + 1) = 4 + 4 * k by ring, scanEntries_add,
        show a + 1024 * i + 256 * 4 = a + 1024 * (i + 1) by ring]

/-- An inode that lists no block and has no tail. -/
structure Blank (m : Memory) (inode : ℕ) : Prop where
  block : ∀ j < 5, inodeBlock m inode j = 0
  tail : inodeTail m inode = 0

theorem Blank.next {current : ℕ} (h : Blank m current) (hzero : Blank m (getInode 0)) (i : ℕ) :
  Blank m (nextInode m i current)
  := by
  rw [nextInode, h.tail]
  split
  · apply hzero
  · apply h

/-- Without blocks the outer loop scans the data block 0, again and again. -/
theorem lookupRounds_blank {i k current : ℕ} (name : Memory) (hcurrent : Blank m current)
    (hzero : Blank m (getInode 0)) :
  lookupRounds m name (k + 1) i current =
    scanEntries m name direntriesPerBlock (getBlock (sbStartBlock m) 0)
  := by
  induction k generalizing i current with
  | zero =>
      rw [lookupRounds, (hcurrent.next hzero i).block _ (Nat.mod_lt _ (by decide))]
      cases scanEntries m name direntriesPerBlock (getBlock (sbStartBlock m) 0) with
      | none => rfl
      | some inode => rfl
  | succ k ih =>
      rw [lookupRounds, (hcurrent.next hzero i).block _ (Nat.mod_lt _ (by decide)),
        ih (hcurrent.next hzero i)]
      cases scanEntries m name direntriesPerBlock (getBlock (sbStartBlock m) 0) with
      | none => rfl
      | some inode => rfl

end Scan

/-! ### Images -/

/-- The directories below, with what is assigned to them and their entries. -/
def Placed.dirs : Placed → List (Extent × Placed)
  | .nil => []
  | .file _ _ _ rest => rest.dirs
  | .dir _ extent below rest => (extent, below) :: (below.dirs ++ rest.dirs)

/-- The directories of an image. -/
def Image.dirs (image : Image) : List (Extent × Placed) :=
  (image.root, image.entries) :: image.entries.dirs

/-- The entries that `aefs_lookup` looks at: those of the directory, and in an empty directory the first
four of the root directory. -/
def scanned {α : Type} (root dir : List α) : List α :=
  if dir = [] then root.take 4 else dir

section Image

variable {L : Layout} {m : Memory} {e : Extent} {fsSize : ℕ} {tree : Tree} {image : Image}

theorem Stored.dirOf {placed below : Placed} {a : ℕ} (h : Stored L m placed a)
    (hmem : (e, below) ∈ placed.dirs) :
  ∃ b, DirOf L m e below.tree.length b ∧ Stored L m below b
  := by
  induction placed generalizing a with
  | nil => simp [Placed.dirs] at hmem
  | file name extent content rest ih =>
      obtain ⟨-, -, hrest⟩ := h
      apply ih hrest hmem
  | dir name extent below' rest ihBelow ih =>
      obtain ⟨-, ⟨b, hdir, hbelow⟩, hrest⟩ := h
      rcases List.mem_cons.mp hmem with heq | hmem
      · obtain ⟨rfl, rfl⟩ := Prod.mk.inj heq
        exact ⟨b, hdir, hbelow⟩
      · rcases List.mem_append.mp hmem with hmem | hmem
        · apply ihBelow hbelow hmem
        · apply ih hrest hmem

/-- Every directory of the image is stored. -/
theorem Holds.dirOf (h : Holds fsSize tree image) {dir : Extent × Placed} (hdir : dir ∈ image.dirs) :
  ∃ b, DirOf (layout fsSize) image.mem dir.1 dir.2.tree.length b ∧
    Stored (layout fsSize) image.mem dir.2 b
  := by
  obtain ⟨a, hroot, hstored⟩ := h.root
  rcases List.mem_cons.mp hdir with rfl | hdir
  · refine ⟨a, ?_, hstored⟩
    rw [h.tree_eq]
    apply hroot
  · apply hstored.dirOf hdir

/-- The inode 0 is never used. -/
theorem Holds.blank (h : Holds fsSize tree image) (hfits : Fits fsSize tree) :
  Blank image.mem (getInode 0)
  := by
  have htable := hfits.table
  have hzero : ∀ x ∈ Set.Ico 1024 1040, image.mem x = 0 := by
    intro x hx
    rw [Set.mem_Ico] at hx
    rw [h.frame, writeSuperblock_eq_zero _ (by omega)]
    simp only [Set.mem_compl_iff, Set.mem_union, mem_inodeArea, mem_blockArea]
    omega
  constructor
  · intro j hj
    apply load16_zero
    intro x hx
    apply hzero
    simp only [Set.mem_Ico, getInode, blockSize, UInt16.toNat_zero] at hx ⊢
    omega
  · apply load16_zero
    intro x hx
    apply hzero
    simp only [Set.mem_Ico, getInode, blockSize, UInt16.toNat_zero] at hx ⊢
    omega

theorem Tree.eq_nil_of_length {t : Tree} (h : t.length = 0) :
  t = .nil
  := by
  cases t with
  | nil => rfl
  | file => simp [length] at h
  | dir => simp [length] at h
  | other => simp [length] at h

/-- In the data block 0 are the first entries of the root directory. -/
theorem Holds.scan_block_zero (h : Holds fsSize tree image) (hfits : Fits fsSize tree) (name : Name) :
  scanEntries image.mem name.string direntriesPerBlock (getBlock (sbStartBlock image.mem) 0) =
    findFirst (image.entries.list.take 4) name
  := by
  have htable := hfits.table
  obtain ⟨-, -, hstart⟩ := h.superblock hfits
  have hlen := image.entries.length_list
  rw [h.tree_eq] at hlen
  rw [hstart]
  rcases Nat.eq_zero_or_pos tree.length with h0 | h0
  · have hnil : image.entries.list = [] := List.length_eq_zero_iff.mp (hlen.trans h0)
    have htree := Tree.eq_nil_of_length h0
    rw [hnil, scanEntries_zero]
    · rfl
    · intro j hj
      rw [h.frame, writeSuperblock_eq_zero]
      · simp only [getBlock, blockSize, UInt16.toNat_zero]
        omega
      · have hnone : tree.totalBlocks = 0 := by
          rw [htree]
          rfl
        simp only [Set.mem_compl_iff, Set.mem_union, mem_inodeArea, mem_blockArea, getBlock, blockSize,
          UInt16.toNat_zero, hnone]
        omega
  · obtain ⟨a, hroot, hstored⟩ := h.root
    have hpos : 0 < image.root.blocks.length := by
      rw [hroot.inode.blocks_length, blocksFor]
      omega
    have hfirst : image.root.blocks[0] = 0 := by
      have hblocks := congrArg (fun l => l.getD 0 0) h.blocks
      rw [List.getD_append _ _ _ _ hpos, List.getD_eq_getElem _ _ hpos] at hblocks
      rw [hblocks]
      cases tree.totalBlocks with
      | zero => rfl
      | succ n => rw [List.getD_eq_getElem _ _ (by simp), getElem_idsFrom, UInt16.zero_add]; rfl
    have haddr := hroot.blocks 0 hpos
    rw [hfirst, Nat.mul_zero, Nat.add_zero] at haddr
    rw [haddr]
    apply scanEntries_blocks (k := 1) _ hstored hpos rfl
    rw [h.tree_eq]
    apply hroot

/-- What `aefs_lookup` finds: the first entry that begins with the same character. -/
theorem Holds.aefsLookup_eq (h : Holds fsSize tree image) (hfits : Fits fsSize tree)
    {dir : Extent × Placed} (hdir : dir ∈ image.dirs) (name : Name) (res : ℕ) :
  aefsLookup image.mem (getInode dir.1.id) name.string res =
    lookupResult (scanned image.entries.list dir.2.list) name res
  := by
  obtain ⟨a, hof, hstored⟩ := h.dirOf hdir
  obtain ⟨-, -, hstart⟩ := h.superblock hfits
  have hlen := dir.2.length_list
  have hsize := hof.inode.size_eq
  rw [aefsLookup, if_neg (by rw [hof.inode.type_eq]; decide)]
  have hrounds : lookupRounds image.mem name.string
      (divCeil (inodeSize image.mem (getInode dir.1.id)) 1024).toNat 0 (getInode dir.1.id) =
      findFirst (scanned image.entries.list dir.2.list) name := by
    rw [scanned]
    split
    case isTrue hnil =>
      have h0 : dir.2.tree.length = 0 := by rw [← hlen, hnil, List.length_nil]
      have hzero : inodeSize image.mem (getInode dir.1.id) = 0 := by
        apply UInt32.toNat_inj.mp
        rw [hsize, h0]
        rfl
      have hnoBlocks : dir.1.blocks = [] := by
        rw [← List.length_eq_zero_iff, hof.inode.blocks_length, h0]
        rfl
      have hnoTails : dir.1.tails = [] := by
        rw [← List.length_eq_zero_iff, hof.inode.tails_length, h0]
        rfl
      have hblank : Blank image.mem (getInode dir.1.id) := by
        constructor
        · intro j hj
          have hblock := hof.inode.chain.block 0 (Nat.zero_le _) j hj
          rw [hnoBlocks, List.getD_nil] at hblock
          apply hblock
        · have htail := hof.inode.chain.tail 0 (Nat.zero_le _)
          rw [Extent.node, Extent.node, hnoTails] at htail
          apply htail
      rw [hzero, divCeil_zero, ← h.scan_block_zero hfits name]
      apply lookupRounds_blank (k := 4194303) _ hblank (h.blank hfits)
    case isFalse hne =>
      have hpos : 0 < dir.2.list.length := List.length_pos_iff.mpr hne
      have hle := hof.entries_le
      have htake : dir.2.list = dir.2.list.take (4 * dir.1.blocks.length) := by
        rw [List.take_of_length_le]
        omega
      rw [toNat_divCeil_block (by omega), hsize, ← hof.inode.blocks_length, htake,
        ← scanEntries_blocks hof hstored le_rfl rfl]
      apply lookupRounds_chain name.string hof hstart
      omega
  dsimp only
  rw [hrounds, lookupResult]

/-! ### Exactness -/

/-- The names of the entries of a directory. -/
def Tree.names : Tree → List Name
  | .nil => []
  | .file name _ rest => name :: rest.names
  | .dir name _ rest => name :: rest.names
  | .other name rest => name :: rest.names

theorem Placed.list_names (placed : Placed) :
  placed.list.map Prod.fst = placed.tree.names
  := by
  induction placed with
  | nil => rfl
  | file name extent content rest ih => simp [list, tree, Tree.names, ih]
  | dir name extent below rest _ ih => simp [list, tree, Tree.names, ih]

theorem Placed.list_ids (placed : Placed) :
  (placed.list.map Prod.snd).Sublist placed.ids
  := by
  induction placed with
  | nil => apply List.Sublist.refl
  | file name extent content rest ih =>
      apply List.Sublist.cons_cons
      apply List.sublist_append_of_sublist_right ih
  | dir name extent below rest _ ih =>
      apply List.Sublist.cons_cons
      apply List.sublist_append_of_sublist_right ih

theorem Placed.dirs_ids {placed below : Placed} (hmem : (e, below) ∈ placed.dirs) :
  below.ids.Sublist placed.ids
  := by
  induction placed with
  | nil => simp [dirs] at hmem
  | file name extent content rest ih =>
      apply List.sublist_append_of_sublist_right (ih hmem)
  | dir name extent below' rest ihBelow ih =>
      rw [ids]
      rcases List.mem_cons.mp hmem with heq | hmem
      · obtain ⟨-, rfl⟩ := Prod.mk.inj heq
        apply List.sublist_append_of_sublist_left
        apply List.Sublist.cons
        apply List.sublist_append_left
      · rcases List.mem_append.mp hmem with hmem | hmem
        · apply List.sublist_append_of_sublist_left
          apply List.Sublist.cons
          apply (ihBelow hmem).trans (List.sublist_append_left _ _)
        · apply List.sublist_append_of_sublist_right (ih hmem)

/-- The entries of a directory have different inodes. -/
theorem Holds.nodup_ids (h : Holds fsSize tree image) (hfits : Fits fsSize tree)
    {dir : Extent × Placed} (hdir : dir ∈ image.dirs) :
  (dir.2.list.map Prod.snd).Nodup
  := by
  have hlt := (layout fsSize).numInodes.toNat_lt
  have hinodes := hfits.inodes
  have hnodup : (idsFrom 1 tree.totalInodes).Nodup := nodup_idsFrom (n := 1) (by omega)
  have hentries : image.entries.ids.Nodup := by
    rw [← h.ids] at hnodup
    exact (List.nodup_append.mp hnodup.of_cons).1
  rcases List.mem_cons.mp hdir with rfl | hdir
  · apply hentries.sublist image.entries.list_ids
  · apply hentries.sublist (dir.2.list_ids.trans (Placed.dirs_ids hdir))

/-- `aefs_lookup` of a name is exact: it gives the inode of the entry with this name, and fails when there
is none. -/
structure LookupExact (m : Memory) (dir : Extent × Placed) (name : Name) : Prop where
  found : ∀ entry ∈ dir.2.list, entry.1 = name → ∀ res,
    aefsLookup m (getInode dir.1.id) name.string res = (0, getInode entry.2)
  missing : (∀ entry ∈ dir.2.list, entry.1 ≠ name) → ∀ res,
    (aefsLookup m (getInode dir.1.id) name.string res).1 = -1

/-- The first character decides: the first name in the directory that begins with the same character, if
any, is the name itself.  For an empty directory, none of the first four names in the root directory
begins with it. -/
def FirstDecides (root dir : List Name) (name : Name) : Prop :=
  if dir = [] then ∀ x ∈ root.take 4, x.first ≠ name.first
  else ∀ x ∈ dir.find? fun x => x.first = name.first, x = name

instance (root dir : List Name) (name : Name) : Decidable (FirstDecides root dir name) :=
  inferInstanceAs (Decidable (if dir = [] then ∀ x ∈ root.take 4, x.first ≠ name.first
    else ∀ x ∈ dir.find? fun x => x.first = name.first, x = name))

theorem getInode_injective {a b : UInt16} (h : getInode a = getInode b) :
  a = b
  := by
  by_contra hne
  have hapart := getInode_apart hne
  omega

section Exact

variable {dir : Extent × Placed} {root : List (Name × UInt16)} {name : Name}

/-- In an empty directory the lookup is exact when nothing is found in the root directory. -/
theorem lookupExact_empty_iff
    (hlookup : ∀ res, aefsLookup m (getInode dir.1.id) name.string res =
      lookupResult (root.take 4) name res) (hnil : dir.2.list = []) :
  LookupExact m dir name ↔ ∀ x ∈ (root.map Prod.fst).take 4, x.first ≠ name.first
  := by
  constructor
  · intro hexact x hx hfirst
    rw [← List.map_take] at hx
    obtain ⟨entry, hentry, rfl⟩ := List.mem_map.mp hx
    have hfail := hexact.missing (by simp [hnil]) 0
    have hsome : (findFirst (root.take 4) name).isSome := by
      rw [findFirst, Option.isSome_map, List.find?_isSome]
      exact ⟨entry, hentry, by simpa using hfirst⟩
    obtain ⟨inode, hinode⟩ := Option.isSome_iff_exists.mp hsome
    simp [hlookup, lookupResult, hinode] at hfail
  · intro hnone
    have hfind : findFirst (root.take 4) name = none := by
      rw [findFirst, Option.map_eq_none_iff, List.find?_eq_none]
      intro entry hentry
      simpa using hnone entry.1 (by rw [← List.map_take]; exact List.mem_map_of_mem hentry)
    constructor
    · intro entry hentry
      simp [hnil] at hentry
    · intro _ res
      rw [hlookup, lookupResult, hfind]

/-- In another directory the lookup is exact when the first entry that is found has the name. -/
theorem lookupExact_nonempty_iff
    (hlookup : ∀ res, aefsLookup m (getInode dir.1.id) name.string res =
      lookupResult dir.2.list name res) (hids : (dir.2.list.map Prod.snd).Nodup)
    (hnames : (dir.2.list.map Prod.fst).Nodup) :
  LookupExact m dir name ↔ ∀ x ∈ dir.2.list.find? fun x => x.1.first = name.first, x.1 = name
  := by
  constructor
  · intro hexact entry hentry
    have hmem := List.mem_of_find?_eq_some hentry
    have hfind : findFirst dir.2.list name = some (getInode entry.2) :=
      Option.map_eq_some_iff.mpr ⟨entry, hentry, rfl⟩
    by_contra hne
    by_cases hother : ∀ entry ∈ dir.2.list, entry.1 ≠ name
    · have hfail := hexact.missing hother 0
      simp [hlookup, lookupResult, hfind] at hfail
    · -- there is an entry with the name, but another one is found
      simp only [not_forall, ne_eq, not_not] at hother
      obtain ⟨entry', hmem', heq⟩ := hother
      have hfound := hexact.found entry' hmem' heq 0
      rw [hlookup, lookupResult, hfind] at hfound
      have hid : entry.2 = entry'.2 := getInode_injective (Prod.mk.inj hfound).2
      apply hne
      rw [List.inj_on_of_nodup_map hids hmem hmem' hid, heq]
  · intro hfirst
    constructor
    · intro entry hentry hname res
      have hsome : (dir.2.list.find? fun x => x.1.first = name.first).isSome := by
        rw [List.find?_isSome]
        exact ⟨entry, hentry, by simp [hname]⟩
      obtain ⟨x, hx⟩ := Option.isSome_iff_exists.mp hsome
      have heq : x = entry :=
        List.inj_on_of_nodup_map hnames (List.mem_of_find?_eq_some hx) hentry
          ((hfirst x hx).trans hname.symm)
      rw [hlookup, lookupResult, findFirst, hx, heq]
      rfl
    · intro hmissing res
      have hnone : (dir.2.list.find? fun x => x.1.first = name.first) = none := by
        rw [Option.eq_none_iff_forall_not_mem]
        intro x hx
        exact hmissing x (List.mem_of_find?_eq_some hx) (hfirst x hx)
      rw [hlookup, lookupResult, findFirst, hnone]
      rfl

end Exact

/-- In every directory of the image, the lookup of a name is exact when the first character decides. -/
theorem Holds.lookupExact_iff (h : Holds fsSize tree image) (hfits : Fits fsSize tree)
    {dir : Extent × Placed} (hdir : dir ∈ image.dirs) (hnames : dir.2.tree.names.Nodup) (name : Name) :
  LookupExact image.mem dir name ↔ FirstDecides tree.names dir.2.tree.names name
  := by
  have hlookup := h.aefsLookup_eq hfits hdir name
  have hids := h.nodup_ids hfits hdir
  have hroot := image.entries.list_names
  rw [h.tree_eq] at hroot
  rw [← dir.2.list_names] at hnames ⊢
  rw [← hroot, FirstDecides]
  by_cases hnil : dir.2.list = []
  · rw [scanned, if_pos hnil] at hlookup
    rw [if_pos (by rw [hnil]; rfl)]
    apply lookupExact_empty_iff hlookup hnil
  · rw [scanned, if_neg hnil] at hlookup
    rw [if_neg (by simpa using hnil), List.find?_map, lookupExact_nonempty_iff hlookup hids hnames]
    simp

/-- For every tree that fits the image, every directory with different names, and every name:
`aefs_lookup` is exact if and only if the first character decides. -/
theorem aefs_lookup_exact_iff (hfits : Fits fsSize tree) (hsupported : tree.Supported)
    (hsmall : tree.Small) :
  ∃ image, mkfs fsSize tree = some image ∧ image.entries.tree = tree ∧
    ∀ dir ∈ image.dirs, dir.2.tree.names.Nodup → ∀ name,
      LookupExact image.mem dir name ↔ FirstDecides tree.names dir.2.tree.names name
  := by
  obtain ⟨image, hmkfs, hholds⟩ := mkfs_spec hfits hsupported hsmall
  refine ⟨image, hmkfs, hholds.tree_eq, ?_⟩
  intro dir hdir hnames name
  apply hholds.lookupExact_iff hfits hdir hnames

end Image

/-- In the root directory of `smallTree`, the names begin with different characters. -/
theorem aefs_lookup_smallTree :
  Fits 1 smallTree ∧ smallTree.Supported ∧ smallTree.Small ∧
    ∃ image, mkfs 1 smallTree = some image ∧ image.entries.tree = smallTree ∧
      ∀ dir ∈ image.dirs, dir.2.tree.names.Nodup → ∀ name,
        LookupExact image.mem dir name ↔ FirstDecides smallTree.names dir.2.tree.names name
  := ⟨smallTree_fits, smallTree_supported, smallTree_small,
    aefs_lookup_exact_iff smallTree_fits smallTree_supported smallTree_small⟩

/-- A root directory with two empty files, `aa` and `ab`. -/
def twinTree : Tree :=
  .file ⟨[97, 97], by decide, by decide⟩ [] (.file ⟨[97, 98], by decide, by decide⟩ [] .nil)

/-- In `twinTree` the lookup of `ab` is not exact, as it finds `aa`. -/
theorem lookup_finds_twin :
  ∃ image, mkfs 1 twinTree = some image ∧ twinTree.names.Nodup ∧
    ∃ dir ∈ image.dirs, dir.2.tree = twinTree ∧
      ¬ LookupExact image.mem dir ⟨[97, 98], by decide, by decide⟩
  := by
  have hfits : Fits 1 twinTree := by constructor <;> decide
  have hsmall : twinTree.Small := by
    rw [Tree.Small]
    decide
  obtain ⟨image, hmkfs, hholds⟩ := mkfs_spec hfits trivial hsmall
  have hnodup : twinTree.names.Nodup := by decide
  refine ⟨image, hmkfs, hnodup, (image.root, image.entries), by simp [Image.dirs], hholds.tree_eq, ?_⟩
  rw [hholds.lookupExact_iff hfits (by simp [Image.dirs]) (by rw [hholds.tree_eq]; exact hnodup),
    hholds.tree_eq]
  decide

end Aefs
