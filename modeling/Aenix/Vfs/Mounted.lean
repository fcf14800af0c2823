import Aenix.Aefs.Paths
import Aenix.Devfs.Devices
import Aenix.Process.Basic

/-!
# The file systems of the kernel

`kinit` mounts an image of AEFS at `/` and, with the devices `console` and `keyboard`, `devfs` at `/dev/`.  For
every tree that fits an image, and every path, `path_resolved` says what `vfs_lookup` finds: a path that begins
with `/d` leads into `devfs`, behind what it has in common with `/dev/`, and every other one through the tree,
along the first characters of the names.  So every file is found by its own path exactly when these differ in
each directory, and no name in the root directory begins with `d` (`files_found_iff`).
-/

open Aefs (Tree Image Node Placed Holds Fits Named stringOf getInode)
open Bytes (Memory)
open Devfs (Devices Device)
open Process (Vnode)

namespace Vfs

/-! ### The code -/

/-- `console`. -/
abbrev consoleName : Str := [0x63, 0x6f, 0x6e, 0x73, 0x6f, 0x6c, 0x65]

/-- `keyboard`. -/
abbrev keyboardName : Str := [0x6b, 0x65, 0x79, 0x62, 0x6f, 0x61, 0x72, 0x64]

/-- `/dev/`, without the first slash. -/
abbrev devName : Str := [0x64, 0x65, 0x76, 0x2f]

/-- Where things are in the memory of the kernel: the image, the structures `vnodeops` of `aefs.c`, `devfs.c`,
`fb.c` and `keyboard.c`, and what `kmalloc` returns in `add_device` and in `devfs_add_device`. -/
structure Addresses where
  fsStart : UInt32
  aefs : UInt32
  devfs : UInt32
  fb : UInt32
  kbd : UInt32
  consoleNode : Ptr
  consoleInode : Ptr
  keyboardNode : Ptr
  keyboardInode : Ptr
  ops_nodup : [aefs, devfs, fb, kbd].Nodup
  nodes_ne : consoleNode ≠ keyboardNode
  inodes_ne : consoleInode ≠ keyboardInode

namespace Addresses

variable (f : Addresses)

/-- The vnode of an inode. -/
def aefsVnode (inode : ℕ) : Vnode := ⟨f.aefs, f.fsStart + UInt32.ofNat inode⟩

/-- The inode of a vnode. -/
def inodeOf (v : Vnode) : ℕ := (v.vData - f.fsStart).toNat

/-- `devfs_root`. -/
def devfsRoot : Vnode := ⟨f.devfs, 0⟩

/-- `fb_get_vnode`. -/
def fbGetVnode : Vnode := ⟨f.fb, 123456⟩

/-- `kbd_get_vnode`. -/
def kbdGetVnode : Vnode := ⟨f.kbd, 0⟩

/-- The vnodes of the devices, which `add_device` lets `get_vnode` fill. -/
def nodes : Ptr → Vnode :=
  Function.update (Function.update (fun _ => ⟨0, 0⟩) f.consoleNode f.fbGetVnode) f.keyboardNode f.kbdGetVnode

/-- `populate_devfs`, with its two calls of `add_device`. -/
def populateDevfs : Option (List Int × Devices) :=
  Devfs.addAll 2 ⟨fun _ => ⟨none, [], 0⟩, none⟩
    [⟨some consoleName, f.consoleNode, f.consoleInode⟩, ⟨some keyboardName, f.keyboardNode, f.keyboardInode⟩]

end Addresses

/-- The kernel when `kinit` has mounted the file systems. -/
structure Mounted extends Addresses where
  image : Memory
  devices : Devices
  populated : toAddresses.populateDevfs = some ([0, 0], devices)

namespace Mounted

variable (f : Mounted)

/-- `aefs_lookup`. -/
def aefsLookup (dir : Vnode) (name : Str) (res : Vnode) : Int × Vnode :=
  let (ret, inode) := Aefs.aefsLookup f.image (f.inodeOf dir) (stringOf name) 0
  (ret, if ret = 0 then f.aefsVnode inode else res)

/-- `devfs_lookup`, for the three rounds that two devices take. -/
def devfsLookup (name : Str) (out : Vnode) : Int × Vnode :=
  (Devfs.devfsLookup 3 f.devices f.nodes (some name) out).getD (-1, out)

/-- `vn_lookup`, for vnodes of `aefs.c`, of `devfs.c`, and of the devices, `fb_lookup` and `kbd_lookup`. -/
def vnodeops : Vnodeops Vnode where
  vnLookup v name out :=
    if v.vOp = f.aefs then f.aefsLookup v name out
    else if v.vOp = f.devfs then f.devfsLookup name out
    else (-1, out)

/-- The file systems in the order in which `kinit` mounts them. -/
def mounts : List (VfsT Vnode) :=
  [⟨[slash], (Aefs.aefsInit f.image).map f.aefsVnode⟩, ⟨slash :: devName, some f.devfsRoot⟩]

end Mounted

/-! ### What paths lead to -/

/-- What there is to be found. -/
inductive Target where
  | node (n : Node)
  | devfs
  | console
  | keyboard

/-- What a name leads to. -/
def Target.lookup (root : Tree) (name : Str) : Target → Option Target
  | .node n => (n.lookup root name).map .node
  | .devfs =>
    if name = consoleName then some .console else if name = keyboardName then some .keyboard else none
  | .console => none
  | .keyboard => none

/-- What a path leads to.  A path that begins with `/d` leads into `devfs`, behind what it has in common with
`/dev/`. -/
def resolvePath (root : Tree) : Str → Option Target
  | [] => none
  | c :: rest =>
    if c ≠ slash then none
    else if rest.head? = devName.head? then
      resolve (Target.lookup root) (segments (rest.drop (commonLength rest devName))) .devfs
    else
      resolve (Target.lookup root) (segments rest) (.node (.dir root))

variable {f : Mounted} {fsSize : ℕ} {tree : Tree} {image : Image} {name path rest : Str}

/-- The vnode of a device, or of the root of `devfs`. -/
def Addresses.IsDevice (f : Addresses) : Target → Vnode → Prop
  | .node _, _ => False
  | .devfs, v => v = f.devfsRoot
  | .console, v => v = f.fbGetVnode
  | .keyboard, v => v = f.kbdGetVnode

/-- The vnode of what was found.  A file or directory of the tree is read as it is. -/
def Mounted.Shows (f : Mounted) : Target → Vnode → Prop
  | .node n, v => v.vOp = f.aefs ∧
    (∀ buf count mem, Aefs.aefsRead f.image (f.inodeOf v) buf count mem = n.read buf count mem) ∧
    (Aefs.aefsGetattr f.image (f.inodeOf v)).toNat = n.size
  | t, v => f.IsDevice t v

/-- The vnode of what was found, in terms of the inodes of the image. -/
def Addresses.Refers (f : Addresses) (image : Image) : Target → Vnode → Prop
  | .node n, v => ∃ inode, image.Refers n inode ∧ v = f.aefsVnode inode
  | t, v => f.IsDevice t v

theorem Addresses.IsDevice.refers {f : Addresses} {t : Target} {v : Vnode} (h : f.IsDevice t v) :
  f.Refers image t v
  := by
  cases t with
  | node n => exact h.elim
  | devfs => exact h
  | console => exact h
  | keyboard => exact h

/-! ### Devices -/

/-- The devices in the list. -/
def Addresses.devices (f : Addresses) : List Device :=
  [⟨f.consoleInode, consoleName, f.consoleNode⟩, ⟨f.keyboardInode, keyboardName, f.keyboardNode⟩]

theorem Mounted.devices_list (f : Mounted) :
  f.devices.Lists f.toAddresses.devices
  := by
  have hnone : Devices.Lists ⟨fun _ => ⟨none, [], 0⟩, none⟩ [] := ⟨rfl, by simp, by simp⟩
  obtain ⟨n, d, hrun, hlists⟩ : ∃ n d, Devfs.addAll n ⟨fun _ => ⟨none, [], 0⟩, none⟩
      [⟨some consoleName, f.consoleNode, f.consoleInode⟩, ⟨some keyboardName, f.keyboardNode, f.keyboardInode⟩] =
        some ([0, 0], d) ∧ d.Lists f.toAddresses.devices :=
    Devfs.addAll_spec hnone (by simp [f.inodes_ne])
  have hmax := Devfs.addAll_mono hrun (le_max_left n 2)
  have hpopulated := Devfs.addAll_mono f.populated (le_max_right n 2)
  rw [hpopulated, Option.some.injEq, Prod.mk.injEq] at hmax
  rw [hmax.2]
  exact hlists

/-- `devfs_lookup` finds the two devices. -/
theorem Mounted.devfsLookup_eq (f : Mounted) (name : Str) (out : Vnode) :
  f.devfsLookup name out =
    if name = consoleName then (0, f.fbGetVnode) else if name = keyboardName then (0, f.kbdGetVnode) else (-1, out)
  := by
  have hlists := f.devices_list
  obtain ⟨hfirst, hsecond, hend⟩ := hlists.chain
  have hname := hlists.name
  have hnode := hlists.node
  simp only [Addresses.devices, List.forall_mem_cons, List.not_mem_nil, false_imp_iff, implies_true, and_true]
    at hname hnode
  have hfind : Devfs.findDevice 3 f.devices name = some (if name = consoleName then some f.consoleInode
      else if name = keyboardName then some f.keyboardInode else none) := by
    simp only [Devfs.findDevice, hfirst, Loop.run, Pointer.searchBody, hsecond, hname, beq_iff_eq,
      strcmp_eq_zero_iff, @eq_comm _ _ name]
    by_cases hconsole : name = consoleName
    · rw [if_pos hconsole, if_pos hconsole]
    · rw [if_neg hconsole, if_neg hconsole]
      by_cases hkeyboard : name = keyboardName
      · simp only [hname.2, if_pos hkeyboard]
      · simp only [hname.2, if_neg hkeyboard, show (f.devices.mem f.keyboardInode).next = none from hend]
  have hconsole : f.nodes f.consoleNode = f.fbGetVnode := by
    rw [Addresses.nodes, Function.update_of_ne f.nodes_ne, Function.update_self]
  have hkeyboard : f.nodes f.keyboardNode = f.kbdGetVnode := Function.update_self ..
  simp only [devfsLookup, Devfs.devfsLookup, hfind]
  split
  · simp [hnode, hconsole]
  · split
    · simp [hnode, hkeyboard]
    · rfl

/-! ### Inodes -/

theorem getInode_lt (id : UInt16) :
  getInode id < 2 ^ 32
  := by
  have hid := id.toNat_lt
  simp only [getInode, Aefs.blockSize]
  omega

@[simp]
theorem Addresses.inodeOf_aefsVnode (f : Addresses) (id : UInt16) :
  f.inodeOf (f.aefsVnode (getInode id)) = getInode id
  := by
  rw [inodeOf, aefsVnode, UInt32.add_comm, UInt32.add_sub_cancel, UInt32.toNat_ofNat']
  exact Nat.mod_eq_of_lt (getInode_lt id)

/-- Files and directories have their inodes below 2 ^ 32. -/
theorem exists_getInode {node : Node} {inode : ℕ} (h : image.Refers node inode) :
  ∃ id, inode = getInode id
  := by
  cases h with
  | file x h => exact ⟨_, rfl⟩
  | dir x h => exact ⟨_, rfl⟩

/-! ### Looking up -/

theorem Mounted.vnodeops_aefs (f : Mounted) (id : UInt16) (name : Str) (out : Vnode) :
  f.vnodeops.vnLookup (f.aefsVnode (getInode id)) name out =
    ((Aefs.aefsLookup f.image (getInode id) (stringOf name) 0).1,
      if (Aefs.aefsLookup f.image (getInode id) (stringOf name) 0).1 = 0 then
        f.aefsVnode (Aefs.aefsLookup f.image (getInode id) (stringOf name) 0).2
      else out)
  := by
  have hop : (f.aefsVnode (getInode id)).vOp = f.aefs := rfl
  simp only [vnodeops, aefsLookup, hop, if_true, Addresses.inodeOf_aefsVnode]

/-- `vn_lookup` finds what a name leads to in `devfs`. -/
theorem Mounted.lookup_device (f : Mounted) (tree : Tree) {t : Target} {v : Vnode} (hdevice : f.IsDevice t v)
    (name : Str) (out : Vnode) :
  Finds f.IsDevice (t.lookup tree name) (f.vnodeops.vnLookup v name out)
  := by
  have hnodup := f.ops_nodup
  simp only [List.nodup_cons, List.mem_cons, List.not_mem_nil, or_false, not_or] at hnodup
  cases t with
  | node n => exact hdevice.elim
  | devfs =>
      obtain rfl : v = f.devfsRoot := hdevice
      have hop : f.devfsRoot.vOp = f.devfs := rfl
      simp only [vnodeops, hop, if_neg (Ne.symm hnodup.1.1), if_true, f.devfsLookup_eq, Target.lookup]
      split
      · exact ⟨rfl, rfl⟩
      · split
        · exact ⟨rfl, rfl⟩
        · rfl
  | console =>
      obtain rfl : v = f.fbGetVnode := hdevice
      have hop : f.fbGetVnode.vOp = f.fb := rfl
      simp only [vnodeops, hop, if_neg (Ne.symm hnodup.1.2.1), if_neg (Ne.symm hnodup.2.1.1)]
      rfl
  | keyboard =>
      obtain rfl : v = f.kbdGetVnode := hdevice
      have hop : f.kbdGetVnode.vOp = f.kbd := rfl
      simp only [vnodeops, hop, if_neg (Ne.symm hnodup.1.2.2), if_neg (Ne.symm hnodup.2.1.2)]
      rfl

/-- Names in `devfs` need not be names of files. -/
theorem Mounted.walk_device (f : Mounted) (tree : Tree) (names : List Str) (out : Vnode) :
  Finds f.IsDevice (resolve (Target.lookup tree) names .devfs) (walkNames f.vnodeops f.devfsRoot out names)
  := by
  have hroot : f.IsDevice .devfs f.devfsRoot := rfl
  exact walk_finds (p := fun _ => True) (fun _ _ name out hdevice _ => f.lookup_device tree hdevice name out)
    (fun _ _ => trivial) hroot out

/-- `vn_lookup` finds what a name leads to. -/
theorem Mounted.lookup_finds (himage : f.image = image.mem) (h : Holds fsSize tree image) (hfits : Fits fsSize tree)
    {t : Target} {v : Vnode} (hrefers : f.Refers image t v) (hname : Named name) (out : Vnode) :
  Finds (f.Refers image) (t.lookup tree name) (f.vnodeops.vnLookup v name out)
  := by
  have hdevice : f.IsDevice t v → Finds (f.Refers image) (t.lookup tree name) (f.vnodeops.vnLookup v name out) :=
    fun h => (f.lookup_device tree h name out).mono fun _ _ => Addresses.IsDevice.refers
  cases t with
  | node n =>
      obtain ⟨inode, hinode, rfl⟩ := hrefers
      obtain ⟨id, rfl⟩ := exists_getInode hinode
      have hfinds := h.lookup_finds hfits hinode hname 0
      rw [f.vnodeops_aefs, himage, Target.lookup]
      cases hlookup : n.lookup tree name with
      | none =>
          rw [hlookup] at hfinds
          exact hfinds
      | some m =>
          rw [hlookup] at hfinds
          rw [if_pos hfinds.1]
          exact ⟨hfinds.1, _, hfinds.2, rfl⟩
  | devfs => exact hdevice hrefers
  | console => exact hdevice hrefers
  | keyboard => exact hdevice hrefers

/-! ### Mounts -/

/-- A path beginning with `/d` belongs to the second file system. -/
theorem Mounted.selected_eq (f : Mounted) (rest : Str) :
  selected f.mounts (slash :: rest) =
    if rest.head? = devName.head? then
      some (⟨slash :: devName, some f.devfsRoot⟩, rest.drop (commonLength rest devName))
    else
      some (⟨[slash], (Aefs.aefsInit f.image).map f.aefsVnode⟩, rest)
  := by
  have hroot : commonLength (slash :: rest) [slash] = 1 := by
    rw [commonLength, if_pos rfl]
    cases rest <;> rfl
  have hdev : commonLength (slash :: rest) (slash :: devName) = commonLength rest devName + 1 := by
    rw [commonLength, if_pos rfl]
  simp only [selected, findLongestMountPath, mounts, List.foldl_cons, List.foldl_nil, hroot, hdev, gt_iff_lt,
    Nat.zero_lt_one, if_true]
  by_cases hd : rest.head? = devName.head?
  · have hpos : 1 < commonLength rest devName + 1 := by
      cases rest with
      | nil => simp at hd
      | cons c rest =>
          obtain rfl : c = 0x64 := by simpa using hd
          rw [commonLength, if_pos rfl]
          omega
    rw [if_pos hd, if_pos hpos]
    rfl
  · have hzero : commonLength rest devName = 0 := by
      cases rest with
      | nil => rfl
      | cons c rest =>
          rw [commonLength, if_neg]
          rintro rfl
          exact hd rfl
    rw [if_neg hd, hzero, if_neg (by decide)]
    rfl

/-- `vfs_lookup` finds what a path leads to. -/
theorem Mounted.path_finds (himage : f.image = image.mem) (h : Holds fsSize tree image) (hfits : Fits fsSize tree)
    (hnames : ∀ name ∈ segments path.tail, Named name) (out : Vnode) :
  ∃ r, vfsLookup f.vnodeops f.mounts path out = some r ∧ Finds (f.Refers image) (resolvePath tree path) r
  := by
  cases path with
  | nil => exact ⟨(-1, out), rfl, rfl⟩
  | cons c rest =>
      by_cases hc : c = slash
      · subst hc
        have hselected := f.selected_eq rest
        rw [resolvePath, if_neg (by simp)]
        by_cases hd : rest.head? = devName.head?
        · rw [if_pos hd] at hselected
          rw [if_pos hd, vfsLookup_eq rfl hselected rfl]
          exact ⟨_, rfl, (f.walk_device tree _ out).mono fun _ _ => Addresses.IsDevice.refers⟩
        · obtain ⟨hinit, hroot⟩ := h.root_refers hfits
          rw [if_neg hd] at hselected
          rw [if_neg hd, vfsLookup_eq rfl hselected (by rw [himage, hinit]; rfl)]
          refine ⟨_, rfl, walk_finds ?_ hnames ⟨_, hroot, rfl⟩ out⟩
          exact fun t v name out hrefers hname => f.lookup_finds himage h hfits hrefers hname out
      · rw [vfsLookup, if_neg (by simp), if_pos (by simpa using hc), resolvePath, if_pos hc]
        exact ⟨(-1, out), rfl, rfl⟩

theorem Mounted.shows_of_refers (f : Mounted) (himage : f.image = image.mem) (h : Holds fsSize tree image)
    (hfits : Fits fsSize tree) {t : Target} {v : Vnode} (hrefers : f.Refers image t v) :
  f.Shows t v
  := by
  cases t with
  | node n =>
      obtain ⟨inode, hinode, rfl⟩ := hrefers
      obtain ⟨id, rfl⟩ := exists_getInode hinode
      refine ⟨rfl, ?_, ?_⟩
      · intro buf count mem
        rw [Addresses.inodeOf_aefsVnode, himage, h.aefsRead_eq hfits hinode]
      · rw [Addresses.inodeOf_aefsVnode, himage, h.aefsGetattr_eq hinode]
  | devfs => exact hrefers
  | console => exact hrefers
  | keyboard => exact hrefers

/-- For every tree that fits an image, and every path whose names are not empty, `vfs_lookup` in the kernel that
has mounted the image finds what the path leads to, and files and directories are read as they are in the tree. -/
theorem path_resolved (hfits : Fits fsSize tree) (hsupported : tree.Supported) (hsmall : tree.Small) :
  ∃ image, Aefs.mkfs fsSize tree = some image ∧
    ∀ f : Mounted, f.image = image.mem → ∀ path, (∀ name ∈ segments path.tail, Named name) → ∀ out,
      ∃ r, vfsLookup f.vnodeops f.mounts path out = some r ∧ Finds f.Shows (resolvePath tree path) r
  := by
  obtain ⟨image, hmkfs, hholds⟩ := Aefs.mkfs_spec hfits hsupported hsmall
  refine ⟨image, hmkfs, ?_⟩
  intro f himage path hnames out
  obtain ⟨r, hlookup, hfinds⟩ := f.path_finds himage hholds hfits hnames out
  exact ⟨r, hlookup, hfinds.mono fun t v => f.shows_of_refers himage hholds hfits⟩

/-- Addresses in the kernel. -/
def someAddresses : Addresses where
  fsStart := 0xD0000000
  aefs := 0xC0110000
  devfs := 0xC0110100
  fb := 0xC0110200
  kbd := 0xC0110300
  consoleNode := 0xD0100000
  consoleInode := 0xD0100010
  keyboardNode := 0xD0100020
  keyboardInode := 0xD0100030
  ops_nodup := by decide
  nodes_ne := by decide
  inodes_ne := by decide

/-- The kernel with an image. -/
def mountedAt (m : Memory) : Mounted where
  toAddresses := someAddresses
  image := m
  devices := Devfs.linkDevice (Devfs.linkDevice ⟨fun _ => ⟨none, [], 0⟩, none⟩ consoleName 0xD0100000 0xD0100010)
    keyboardName 0xD0100020 0xD0100030
  populated := rfl

/-- In `smallTree`, the path `/a` leads to a file with the contents 1, 2, 3. -/
theorem path_resolved_smallTree :
  ∃ image, Aefs.mkfs 1 Aefs.smallTree = some image ∧
    ∃ r, vfsLookup (mountedAt image.mem).vnodeops (mountedAt image.mem).mounts [0x2f, 0x61] ⟨0, 0⟩ = some r ∧
      Finds (mountedAt image.mem).Shows (some (.node (.file [1, 2, 3]))) r
  := by
  obtain ⟨image, hmkfs, hresolved⟩ :=
    path_resolved Aefs.smallTree_fits Aefs.smallTree_supported Aefs.smallTree_small
  refine ⟨image, hmkfs, hresolved (mountedAt image.mem) rfl [0x2f, 0x61] ?_ ⟨0, 0⟩⟩
  intro name hname
  rw [List.tail_cons, segments_of_notMem (by decide) (by decide), List.mem_singleton] at hname
  subst hname
  exact ⟨by decide, by decide⟩

/-! ### Files that are found -/

/-- No name has a slash, as the names in a directory have none. -/
def Plain : Tree → Prop
  | .nil => True
  | .file name _ rest => slash ∉ name.bytes ∧ Plain rest
  | .dir name entries rest => slash ∉ name.bytes ∧ Plain entries ∧ Plain rest
  | .other name rest => slash ∉ name.bytes ∧ Plain rest

theorem path_names {placed : Placed} (hplain : Plain placed.tree) {names : List Str} {id : UInt16}
    (h : placed.Path names id) :
  ∀ name ∈ names, name ≠ [] ∧ slash ∉ name
  := by
  induction placed generalizing names with
  | nil => exact h.elim
  | file name extent content rest ih =>
      rcases h with ⟨rfl, -⟩ | h
      · simpa using ⟨name.ne_nil, hplain.1⟩
      · exact ih hplain.2 h
  | dir name extent below rest ihBelow ih =>
      rcases h with ⟨rfl, -⟩ | ⟨ns, rfl, h⟩ | h
      · simpa using ⟨name.ne_nil, hplain.1⟩
      · exact List.forall_mem_cons.mpr ⟨⟨name.ne_nil, hplain.1⟩, ihBelow hplain.2.1 h⟩
      · exact ih hplain.2.2 h

/-- The vnodes of inodes do what `aefs_lookup` does. -/
theorem Mounted.looks (himage : f.image = image.mem) (h : Holds fsSize tree image) (hfits : Fits fsSize tree) :
  image.Looks f.vnodeops fun id => f.aefsVnode (getInode id)
  := by
  constructor
  · intro a b heq
    apply Aefs.getInode_injective
    rw [← f.inodeOf_aefsVnode a, ← f.inodeOf_aefsVnode b]
    exact congrArg f.inodeOf heq
  · intro dir hdir name out
    have hlookup := h.aefsLookup_eq hfits hdir name 0
    change Aefs.aefsLookup image.mem (getInode dir.1.id) (stringOf name.bytes) 0 = _ at hlookup
    rw [f.vnodeops_aefs, himage, hlookup, Aefs.lookupResult, Aefs.findFirst]
    cases (Aefs.scanned image.entries.list dir.2.list).find? fun x => x.1.first = name.first with
    | none => rfl
    | some entry => rfl

/-- The path of names whose first one does not begin with `d` is walked through the image. -/
theorem Mounted.lookup_pathOf (himage : f.image = image.mem) (h : Holds fsSize tree image) (hfits : Fits fsSize tree)
    {names : List Str} (hnames : ∀ name ∈ names, name ≠ [] ∧ slash ∉ name) (hne : names ≠ [])
    (hd : (pathOf names).tail.head? ≠ devName.head?) (out : Vnode) :
  vfsLookup f.vnodeops f.mounts (pathOf names) out =
    some (walkNames f.vnodeops (f.aefsVnode (getInode image.root.id)) out names)
  := by
  obtain ⟨hinit, -⟩ := h.root_refers hfits
  have hselected := f.selected_eq (pathOf names).tail
  have hcons : slash :: (pathOf names).tail = pathOf names := by
    cases names with
    | nil => exact absurd rfl hne
    | cons name names => rfl
  rw [if_neg hd, hcons] at hselected
  rw [vfsLookup_eq (by rw [← hcons]; rfl) hselected (by rw [himage, hinit]; rfl), h.root_id,
    segments_pathOf (fun name hname => (hnames name hname).1) fun name hname => (hnames name hname).2]

/-- A file whose path begins with `/d` is not found. -/
theorem Mounted.lookup_dev (f : Mounted) (hd : rest.head? = devName.head?) (inode : ℕ) (out : Vnode) :
  vfsLookup f.vnodeops f.mounts (slash :: rest) out ≠ some (0, f.aefsVnode inode)
  := by
  have hselected := f.selected_eq rest
  have hnodup := f.ops_nodup
  simp only [List.nodup_cons, List.mem_cons, List.not_mem_nil, or_false, not_or] at hnodup
  rw [if_pos hd] at hselected
  rw [vfsLookup_eq rfl hselected rfl, ne_eq, Option.some.injEq]
  intro heq
  have hfinds := f.walk_device .nil (segments (rest.drop (commonLength rest devName))) out
  rw [heq] at hfinds
  have hop : (f.aefsVnode inode).vOp = f.aefs := rfl
  cases hresolve : resolve (Target.lookup .nil) (segments (rest.drop (commonLength rest devName))) .devfs with
  | none =>
      rw [hresolve] at hfinds
      simp [Finds] at hfinds
  | some t =>
      rw [hresolve] at hfinds
      cases t with
      | node n => exact hfinds.2
      | devfs =>
          rw [show f.aefsVnode inode = f.devfsRoot from hfinds.2] at hop
          exact hnodup.1.1 hop.symm
      | console =>
          rw [show f.aefsVnode inode = f.fbGetVnode from hfinds.2] at hop
          exact hnodup.1.2.1 hop.symm
      | keyboard =>
          rw [show f.aefsVnode inode = f.kbdGetVnode from hfinds.2] at hop
          exact hnodup.1.2.2 hop.symm

/-- Every file and directory of the tree can be found by its own path exactly when the names in each directory
begin with different characters, and no name in the root directory begins with `d`. -/
theorem files_found_iff (hfits : Fits fsSize tree) (hsupported : tree.Supported) (hsmall : tree.Small)
    (hplain : Plain tree) :
  ∃ image, Aefs.mkfs fsSize tree = some image ∧ ∀ f : Mounted, f.image = image.mem →
    ((∀ names id, image.entries.Path names id → ∀ out,
        vfsLookup f.vnodeops f.mounts (pathOf names) out = some (0, f.aefsVnode (getInode id))) ↔
      image.Initials ∧ ∀ name ∈ tree.names, some name.first ≠ devName.head?)
  := by
  obtain ⟨image, hmkfs, h⟩ := Aefs.mkfs_spec hfits hsupported hsmall
  refine ⟨image, hmkfs, ?_⟩
  intro f himage
  have hlooks := f.looks himage h hfits
  rw [← h.tree_eq] at hplain
  -- the first name of a path is that of an entry of the root directory
  have hfirst : ∀ {names id}, image.entries.Path names id → names ≠ [] ∧
      ∃ name ∈ tree.names, (pathOf names).tail.head? = some name.first := by
    intro names id hpath
    obtain ⟨entry, hentry, hcases⟩ := Aefs.Placed.path_cases hpath
    have hname : entry.1 ∈ tree.names := by
      rw [← h.tree_eq, ← Placed.list_names]
      exact List.mem_map_of_mem hentry
    have hhead : entry.1.bytes.head? = some entry.1.first := List.head?_eq_some_head entry.1.ne_nil
    rcases hcases with ⟨rfl, -⟩ | ⟨e, below, ns, -, -, rfl, -⟩
    · exact ⟨by simp, entry.1, hname, by simpa [pathOf] using hhead⟩
    · exact ⟨by simp, entry.1, hname, by simp [pathOf, List.head?_append, hhead]⟩
  constructor
  · intro hfound
    have hd : ∀ name ∈ tree.names, some name.first ≠ devName.head? := by
      intro name hname hd
      rw [← h.tree_eq, ← Placed.list_names] at hname
      obtain ⟨entry, hentry, rfl⟩ := List.mem_map.mp hname
      have hpath := Aefs.Placed.path_of_mem hentry
      have hhead : entry.1.bytes.head? = devName.head? := by
        rw [← hd]
        exact List.head?_eq_some_head entry.1.ne_nil
      apply f.lookup_dev hhead (getInode entry.2) f.devfsRoot
      rw [← hfound _ _ hpath f.devfsRoot]
      simp [pathOf]
    refine ⟨hlooks.initials (fun dir hdir => h.nodup_ids hfits hdir) ?_, hd⟩
    intro names id hpath out
    obtain ⟨hne, name, hname, hhead⟩ := hfirst hpath
    have heq := f.lookup_pathOf himage h hfits (path_names hplain hpath) hne (by rw [hhead]; exact hd name hname) out
    exact Option.some.inj (heq.symm.trans (hfound names id hpath out))
  · rintro ⟨hinitials, hd⟩ names id hpath out
    obtain ⟨hne, name, hname, hhead⟩ := hfirst hpath
    rw [f.lookup_pathOf himage h hfits (path_names hplain hpath) hne (by rw [hhead]; exact hd name hname)]
    exact congrArg some (hlooks.path hinitials (List.mem_cons_self : (image.root, image.entries) ∈ image.dirs)
      hpath out)

theorem nul_notMem_b :
  (0 : UInt8) ∉ [0x62]
  := by
  decide

/-- A root directory with a directory `b`, and in it a file `b`. -/
def plainTree : Tree :=
  .dir ⟨[0x62], List.cons_ne_nil _ _, nul_notMem_b⟩
    (.file ⟨[0x62], List.cons_ne_nil _ _, nul_notMem_b⟩ [1] .nil) .nil

/-- The names in `plainTree` are without slashes. -/
theorem files_found_iff_plainTree :
  Fits 1 plainTree ∧ ∃ image, Aefs.mkfs 1 plainTree = some image ∧ ∀ f : Mounted, f.image = image.mem →
    ((∀ names id, image.entries.Path names id → ∀ out,
        vfsLookup f.vnodeops f.mounts (pathOf names) out = some (0, f.aefsVnode (getInode id))) ↔
      image.Initials ∧ ∀ name ∈ plainTree.names, some name.first ≠ devName.head?)
  := by
  have hfits : Fits 1 plainTree := by constructor <;> decide
  refine ⟨hfits, files_found_iff hfits ⟨trivial, trivial⟩ ?_ ⟨by decide, ⟨by decide, trivial⟩, trivial⟩⟩
  rw [Tree.Small]
  decide

end Vfs
