import Aenix.Aefs.Lookup
import Aenix.Aefs.Read
import Aenix.Vfs.Resolve

/-!
# Paths in an image

A path leads through a tree of files and directories (`Node`), one name after the other.  `vfs_lookup` in an
image follows the first entry of each directory that begins with the same character (`Node.lookup`), and what
it finds is read as the file of the tree (`path_resolved`).  Where the first character decides in every
directory on the way, this is the file that the path names (`path_resolved_exact`).
-/

open Bytes Aenix
open Vfs (Str Finds walkNames)

namespace Aefs

/-! ### The code -/

/-- `ROOT_INODE_ID`. -/
abbrev rootInodeId : UInt16 := 1

/-- A string in memory, with the 0 at its end. -/
def stringOf (s : Str) : Memory := fun k => (s ++ [0]).getD k 0

/-- `aefs_getattr`: `file_size`. -/
def aefsGetattr (m : Memory) (inode : ℕ) : UInt32 := inodeSize m inode

/-- `aefs_init` and `aefs_root`, for an image that is mapped: what `vfs_root` gives, unless the image does not
begin as it should. -/
def aefsInit (m : Memory) : Option ℕ :=
  if sbMagicNumber m ≠ magicNumber then none else some (getInode rootInodeId)

/-! ### Files and directories -/

/-- A file or directory of a tree. -/
inductive Node where
  | file (content : List UInt8)
  | dir (entries : Tree)

/-- The files and directories that the entries of a directory name. -/
def Tree.nodes : Tree → List (Name × Node)
  | .nil => []
  | .file name content rest => (name, .file content) :: rest.nodes
  | .dir name entries rest => (name, .dir entries) :: rest.nodes
  | .other _ rest => rest.nodes

/-- What a name leads to: the first entry that begins with the same character, of the directory, or of the
first four in the root directory if the directory is empty. -/
def Node.lookup (root : Tree) (name : Str) : Node → Option Node
  | .file _ => none
  | .dir entries =>
    ((scanned root.nodes entries.nodes).find? fun x => some x.1.first = name.head?).map Prod.snd

/-- The inode at the end of a path through the entries of a directory. -/
def Placed.Path : Placed → List Str → UInt16 → Prop
  | .nil, _, _ => False
  | .file name e _ rest, names, id => (names = [name.bytes] ∧ id = e.id) ∨ rest.Path names id
  | .dir name e below rest, names, id =>
    (names = [name.bytes] ∧ id = e.id) ∨ (∃ ns, names = name.bytes :: ns ∧ below.Path ns id) ∨
      rest.Path names id

/-- What reading a file returns, and the memory with the buffer. -/
def Node.read (buf : ℕ) (count : UInt32) (mem : Memory) : Node → Int × Memory
  | .file content => (((min count.toNat content.length : ℕ) : ℤ), store mem buf (content.take count.toNat))
  | .dir _ => (-1, mem)

/-- The size of a file, or of the entries of a directory. -/
def Node.size : Node → ℕ
  | .file content => content.length
  | .dir entries => 256 * entries.length

/-- A name is a string, and not empty. -/
def Named (name : Str) : Prop :=
  name ≠ [] ∧ 0 ∉ name

variable {fsSize : ℕ} {tree : Tree} {image : Image} {node : Node} {inode : ℕ}

/-- The inode of a file or directory in an image. -/
inductive Image.Refers (image : Image) : Node → ℕ → Prop
  | file (x : Extent × List UInt8) (h : x ∈ image.entries.files) :
      Image.Refers image (.file x.2) (getInode x.1.id)
  | dir (x : Extent × Placed) (h : x ∈ image.dirs) :
      Image.Refers image (.dir x.2.tree) (getInode x.1.id)

/-- An entry of a directory refers to what it names. -/
def Image.Names (image : Image) (entry : Name × UInt16) (x : Name × Node) : Prop :=
  entry.1 = x.1 ∧ image.Refers x.2 (getInode entry.2)

/-- What is below a part of the image is below the image. -/
theorem Placed.entries_name {placed : Placed} (hfiles : placed.files ⊆ image.entries.files)
    (hdirs : placed.dirs ⊆ image.entries.dirs) :
  List.Forall₂ image.Names placed.list placed.tree.nodes
  := by
  induction placed with
  | nil => exact List.Forall₂.nil
  | file name extent content rest ih =>
      rw [files, List.cons_subset] at hfiles
      exact List.Forall₂.cons ⟨rfl, .file (extent, content) hfiles.1⟩ (ih hfiles.2 hdirs)
  | dir name extent below rest ihBelow ih =>
      rw [files, List.append_subset] at hfiles
      rw [dirs, List.cons_subset, List.append_subset] at hdirs
      refine List.Forall₂.cons ⟨rfl, ?_⟩ (ih hfiles.2 hdirs.2.2)
      exact .dir (extent, below) (List.mem_cons_of_mem _ hdirs.1)

/-- What is below a directory of the image. -/
theorem Placed.below_subset {placed below : Placed} {e : Extent} (h : (e, below) ∈ placed.dirs) :
  below.files ⊆ placed.files ∧ below.dirs ⊆ placed.dirs
  := by
  induction placed with
  | nil => simp [dirs] at h
  | file name extent content rest ih =>
      obtain ⟨hfiles, hdirs⟩ := ih h
      exact ⟨fun x hx => List.mem_cons_of_mem _ (hfiles hx), hdirs⟩
  | dir name extent below' rest ihBelow ih =>
      rw [files, dirs]
      rcases List.mem_cons.mp h with heq | h
      · obtain ⟨-, rfl⟩ := Prod.mk.inj heq
        exact ⟨List.subset_append_left _ _, fun x hx => by simp [hx]⟩
      rcases List.mem_append.mp h with h | h
      · obtain ⟨hfiles, hdirs⟩ := ihBelow h
        exact ⟨fun x hx => by simp [hfiles hx], fun x hx => by simp [hdirs hx]⟩
      · obtain ⟨hfiles, hdirs⟩ := ih h
        exact ⟨fun x hx => by simp [hfiles hx], fun x hx => by simp [hdirs hx]⟩

/-- The entries of a directory of the image refer to what they name. -/
theorem Image.entries_name (image : Image) (dir : Extent × Placed) (h : dir ∈ image.dirs) :
  List.Forall₂ image.Names dir.2.list dir.2.tree.nodes
  := by
  rcases List.mem_cons.mp h with rfl | h
  · apply Placed.entries_name <;> exact List.Subset.refl _
  · obtain ⟨hfiles, hdirs⟩ := Placed.below_subset h
    exact Placed.entries_name hfiles hdirs

/-- In lists whose elements are related, related elements are found. -/
theorem find?_rel {α β : Type} {R : α → β → Prop} {p : α → Bool} {q : β → Bool} {l : List α} {l' : List β}
    (h : List.Forall₂ R l l') (hpq : ∀ {a b}, R a b → p a = q b) :
  Option.Rel R (l.find? p) (l'.find? q)
  := by
  induction h with
  | nil => exact .none
  | cons hab _ ih =>
      rw [List.find?_cons, List.find?_cons, ← hpq hab]
      split
      · exact .some hab
      · exact ih

theorem scanned_rel {α β : Type} {R : α → β → Prop} {root dir : List α} {root' dir' : List β}
    (hroot : List.Forall₂ R root root') (hdir : List.Forall₂ R dir dir') :
  List.Forall₂ R (scanned root dir) (scanned root' dir')
  := by
  have hnil : dir = [] ↔ dir' = [] := by
    cases hdir with
    | nil => simp
    | cons => simp
  rw [scanned, scanned]
  by_cases hempty : dir = []
  · rw [if_pos hempty, if_pos (hnil.mp hempty)]
    exact List.forall₂_take 4 hroot
  · rw [if_neg hempty, if_neg (fun h => hempty (hnil.mpr h))]
    exact hdir

/-! ### Looking up -/

/-- The entry that is found refers to what it names. -/
theorem lookupResult_finds {entries : List (Name × UInt16)} {x : Option (Name × Node)} {name : Name}
    (h : Option.Rel image.Names (entries.find? fun entry => entry.1.first = name.first) x) (res : ℕ) :
  Finds image.Refers (x.map Prod.snd) (lookupResult entries name res)
  := by
  rw [lookupResult, findFirst]
  generalize (entries.find? fun entry => entry.1.first = name.first) = entry at h
  cases h with
  | none => rfl
  | some hnames => exact ⟨rfl, hnames.2⟩

theorem Holds.fileOf (h : Holds fsSize tree image) {file : Extent × List UInt8}
    (hfile : file ∈ image.entries.files) :
  FileOf (layout fsSize) image.mem file.1 file.2
  := by
  obtain ⟨a, -, hstored⟩ := h.root
  exact hstored.fileOf hfile

/-- `aefs_lookup` finds what the name leads to. -/
theorem Holds.lookup_finds (h : Holds fsSize tree image) (hfits : Fits fsSize tree)
    (hrefers : image.Refers node inode) {name : Str} (hname : Named name) (res : ℕ) :
  Finds image.Refers (node.lookup tree name) (aefsLookup image.mem inode (stringOf name) res)
  := by
  cases hrefers with
  | file x hfile =>
      have htype := (h.fileOf hfile).inode.type_eq
      rw [aefsLookup, if_pos (by rw [htype]; decide)]
      rfl
  | dir dir hdir =>
      have hroot : List.Forall₂ image.Names image.entries.list tree.nodes := by
        have hroot := image.entries_name (image.root, image.entries) (by simp [Image.dirs])
        rwa [h.tree_eq] at hroot
      have hlookup := h.aefsLookup_eq hfits hdir ⟨name, hname.1, hname.2⟩ res
      have hrel := find?_rel (p := fun x => decide (x.1.first = (⟨name, hname.1, hname.2⟩ : Name).first))
        (q := fun x => decide (some x.1.first = name.head?)) (scanned_rel hroot (image.entries_name dir hdir)) (by
          rintro ⟨_, id⟩ x ⟨rfl, -⟩
          apply decide_eq_decide.mpr
          rw [List.head?_eq_some_head hname.1, Option.some.injEq]
          rfl)
      change aefsLookup image.mem (getInode dir.1.id) (stringOf name) res = _ at hlookup
      rw [hlookup]
      exact lookupResult_finds hrel res

/-- What an inode refers to is read from it. -/
theorem Holds.aefsRead_eq (h : Holds fsSize tree image) (hfits : Fits fsSize tree)
    (hrefers : image.Refers node inode) (buf : ℕ) (count : UInt32) (mem : Memory) :
  aefsRead image.mem inode buf count mem = node.read buf count mem
  := by
  obtain ⟨-, -, hstart⟩ := h.superblock hfits
  cases hrefers with
  | file x hfile => exact aefsRead_spec (h.fileOf hfile) hstart buf count mem
  | dir x hdir =>
      obtain ⟨b, hof, -⟩ := h.dirOf hdir
      rw [aefsRead, if_pos (by rw [hof.inode.type_eq]; decide)]
      rfl

theorem Holds.aefsGetattr_eq (h : Holds fsSize tree image) (hrefers : image.Refers node inode) :
  (aefsGetattr image.mem inode).toNat = node.size
  := by
  cases hrefers with
  | file x hfile => exact (h.fileOf hfile).inode.size_eq
  | dir x hdir =>
      obtain ⟨b, hof, -⟩ := h.dirOf hdir
      exact hof.inode.size_eq

theorem Holds.root_id (h : Holds fsSize tree image) :
  image.root.id = rootInodeId
  := by
  have hids := congrArg List.head? h.ids
  rw [Tree.totalInodes, Nat.add_assoc, Nat.add_comm 1, idsFrom] at hids
  simpa [List.range_succ_eq_map] using hids

/-- The root directory is where a walk begins. -/
theorem Holds.root_refers (h : Holds fsSize tree image) (hfits : Fits fsSize tree) :
  aefsInit image.mem = some (getInode rootInodeId) ∧ image.Refers (.dir tree) (getInode rootInodeId)
  := by
  obtain ⟨hmagic, -, -⟩ := h.superblock hfits
  refine ⟨by rw [aefsInit, if_neg (by simp [hmagic])], ?_⟩
  have hroot : image.Refers (.dir image.entries.tree) (getInode image.root.id) :=
    .dir (image.root, image.entries) (by simp [Image.dirs])
  rwa [h.tree_eq, h.root_id] at hroot

/-! ### Paths -/

theorem Placed.path_of_mem {placed : Placed} {entry : Name × UInt16} (h : entry ∈ placed.list) :
  placed.Path [entry.1.bytes] entry.2
  := by
  induction placed with
  | nil => simp [list] at h
  | file name extent content rest ih =>
      rcases List.mem_cons.mp h with rfl | h
      · exact Or.inl ⟨rfl, rfl⟩
      · exact Or.inr (ih h)
  | dir name extent below rest _ ih =>
      rcases List.mem_cons.mp h with rfl | h
      · exact Or.inl ⟨rfl, rfl⟩
      · exact Or.inr (Or.inr (ih h))

/-- A path leads to an entry, and on through the directory below it. -/
theorem Placed.path_cases {placed : Placed} {names : List Str} {id : UInt16} (h : placed.Path names id) :
  ∃ entry ∈ placed.list, (names = [entry.1.bytes] ∧ id = entry.2) ∨
    ∃ e below ns, (e, below) ∈ placed.dirs ∧ entry.2 = e.id ∧ names = entry.1.bytes :: ns ∧ below.Path ns id
  := by
  induction placed with
  | nil => exact h.elim
  | file name extent content rest ih =>
      rcases h with h | h
      · exact ⟨_, List.mem_cons_self, Or.inl h⟩
      · obtain ⟨entry, hentry, hcases⟩ := ih h
        exact ⟨entry, List.mem_cons_of_mem _ hentry, hcases⟩
  | dir name extent below rest _ ih =>
      rcases h with h | ⟨ns, rfl, h⟩ | h
      · exact ⟨_, List.mem_cons_self, Or.inl h⟩
      · exact ⟨_, List.mem_cons_self, Or.inr ⟨extent, below, ns, List.mem_cons_self, rfl, rfl, h⟩⟩
      · obtain ⟨entry, hentry, hcases⟩ := ih h
        refine ⟨entry, List.mem_cons_of_mem _ hentry, hcases.imp_right ?_⟩
        rintro ⟨e, b, ns, hdir, hrest⟩
        exact ⟨e, b, ns, by simp [dirs, hdir], hrest⟩

/-- Every directory has a path, which the paths through its entries continue. -/
theorem Placed.exists_path {placed below : Placed} {e : Extent} (h : (e, below) ∈ placed.dirs) :
  ∃ names, placed.Path names e.id ∧ ∀ ns id, below.Path ns id → placed.Path (names ++ ns) id
  := by
  induction placed with
  | nil => simp [dirs] at h
  | file name extent content rest ih =>
      obtain ⟨names, hpath, hbelow⟩ := ih h
      exact ⟨names, Or.inr hpath, fun ns id hns => Or.inr (hbelow ns id hns)⟩
  | dir name extent below' rest ihBelow ih =>
      rcases List.mem_cons.mp h with heq | h
      · obtain ⟨rfl, rfl⟩ := Prod.mk.inj heq
        exact ⟨[name.bytes], Or.inl ⟨rfl, rfl⟩, fun ns id hns => Or.inr (Or.inl ⟨ns, rfl, hns⟩)⟩
      rcases List.mem_append.mp h with h | h
      · obtain ⟨names, hpath, hbelow⟩ := ihBelow h
        refine ⟨name.bytes :: names, Or.inr (Or.inl ⟨names, rfl, hpath⟩), ?_⟩
        exact fun ns id hns => Or.inr (Or.inl ⟨names ++ ns, rfl, hbelow ns id hns⟩)
      · obtain ⟨names, hpath, hbelow⟩ := ih h
        exact ⟨names, Or.inr (Or.inr hpath), fun ns id hns => Or.inr (Or.inr (hbelow ns id hns))⟩

/-- In every directory of the image the names begin with different characters. -/
def Image.Initials (image : Image) : Prop :=
  ∀ dir ∈ image.dirs, (dir.2.tree.names.map Name.first).Nodup

/-- `vn_lookup` of vnodes that stand for inodes does what `aefs_lookup` does in the directories of an image. -/
structure Image.Looks {V : Type} (image : Image) (ops : Vfs.Vnodeops V) (vnode : UInt16 → V) : Prop where
  injective : Function.Injective vnode
  lookup : ∀ dir ∈ image.dirs, ∀ (name : Name) (out : V),
    ops.vnLookup (vnode dir.1.id) name.bytes out =
      match (scanned image.entries.list dir.2.list).find? fun x => x.1.first = name.first with
      | some entry => (0, vnode entry.2)
      | none => (-1, out)

section Looks

variable {V : Type} {ops : Vfs.Vnodeops V} {vnode : UInt16 → V}

/-- In a directory whose names begin with different characters, every entry is found. -/
theorem Image.Looks.entry (h : image.Looks ops vnode) {dir : Extent × Placed} (hdir : dir ∈ image.dirs)
    (hfirst : (dir.2.tree.names.map Name.first).Nodup) {entry : Name × UInt16} (hentry : entry ∈ dir.2.list)
    (out : V) :
  ops.vnLookup (vnode dir.1.id) entry.1.bytes out = (0, vnode entry.2)
  := by
  have hfind : (dir.2.list.find? fun x => x.1.first = entry.1.first) = some entry := by
    rw [← dir.2.list_names, List.map_map] at hfirst
    have hsome : (dir.2.list.find? fun x => x.1.first = entry.1.first).isSome := by
      rw [List.find?_isSome]
      exact ⟨entry, hentry, by simp⟩
    obtain ⟨x, hx⟩ := Option.isSome_iff_exists.mp hsome
    rw [hx, List.inj_on_of_nodup_map hfirst (List.mem_of_find?_eq_some hx) hentry]
    simpa using List.find?_some hx
  rw [h.lookup dir hdir, scanned, if_neg (List.ne_nil_of_mem hentry), hfind]

/-- When the names in each directory begin with different characters, every path leads to its inode. -/
theorem Image.Looks.path (h : image.Looks ops vnode) (hinitials : image.Initials) {dir : Extent × Placed}
    (hdir : dir ∈ image.dirs) {names : List Str} {id : UInt16} (hpath : dir.2.Path names id) (out : V) :
  walkNames ops (vnode dir.1.id) out names = (0, vnode id)
  := by
  induction names generalizing dir out with
  | nil =>
      obtain ⟨entry, -, hcases⟩ := Placed.path_cases hpath
      simp at hcases
  | cons name names ih =>
      obtain ⟨entry, hentry, ⟨heq, rfl⟩ | ⟨e, below, ns, hbelow, hid, heq, hpath⟩⟩ := Placed.path_cases hpath
      · rw [heq, Vfs.walkNames_singleton, h.entry hdir (hinitials dir hdir) hentry]
      · obtain ⟨rfl, rfl⟩ := List.cons.inj heq
        have hmem : (e, below) ∈ image.dirs := by
          rcases List.mem_cons.mp hdir with rfl | hdir
          · exact List.mem_cons_of_mem _ hbelow
          · exact List.mem_cons_of_mem _ ((Placed.below_subset hdir).2 hbelow)
        rw [Vfs.walkNames_cons (h.entry hdir (hinitials dir hdir) hentry out), hid]
        exact ih hmem hpath _

/-- When every path leads to its inode, the names in each directory begin with different characters. -/
theorem Image.Looks.initials (h : image.Looks ops vnode)
    (hids : ∀ dir ∈ image.dirs, (dir.2.list.map Prod.snd).Nodup)
    (hfound : ∀ names id, image.entries.Path names id → ∀ out,
      walkNames ops (vnode image.root.id) out names = (0, vnode id)) :
  image.Initials
  := by
  intro dir hdir
  -- every entry is found in the directory, to which a path leads
  have hentries : ∀ entry ∈ dir.2.list, ∃ out,
      ops.vnLookup (vnode dir.1.id) entry.1.bytes out = (0, vnode entry.2) := by
    intro entry hentry
    have hpath := Placed.path_of_mem hentry
    rcases List.mem_cons.mp hdir with rfl | hdir
    · exact ⟨vnode 0, by rw [← Vfs.walkNames_singleton, hfound _ _ hpath]⟩
    · obtain ⟨names, hdirPath, hbelow⟩ := Placed.exists_path hdir
      have hne : names ≠ [] := by
        rintro rfl
        obtain ⟨x, -, hcases⟩ := Placed.path_cases hdirPath
        simp at hcases
      refine ⟨vnode dir.1.id, ?_⟩
      rw [← Vfs.walkNames_singleton, ← Vfs.walkNames_append hne (hfound _ _ hdirPath (vnode 0)),
        hfound _ _ (hbelow _ _ hpath)]
  rw [← dir.2.list_names, List.map_map]
  refine List.Nodup.map_on ?_ (List.Nodup.of_map _ (hids dir hdir))
  intro x hx y hy hfirst
  apply List.inj_on_of_nodup_map (hids dir hdir) hx hy
  obtain ⟨out, hx⟩ := hentries x hx
  obtain ⟨out', hy⟩ := hentries y hy
  -- both lookups find the first entry with the character
  rw [h.lookup dir hdir] at hx hy
  simp only [show x.1.first = y.1.first from hfirst] at hx
  generalize List.find? _ (scanned image.entries.list dir.2.list) = found at hx hy
  cases found with
  | none => simp at hx
  | some entry => exact h.injective ((Prod.mk.inj hx).2.symm.trans (Prod.mk.inj hy).2)

end Looks

end Aefs
