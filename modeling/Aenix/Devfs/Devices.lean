import Aenix.Vfs.MountList

/-!
# Devices

`devfs.c` keeps the devices in a singly linked list.  A new device is linked to the first one, in the
place of whatever was there, so that the list never has more than two elements.

A list of devices is described by the records in it (`Devices.Lists`); on such lists a call of
`devfs_add_device` is `add`.  Every device that was added can be looked up exactly when the calls name
at most two different devices (`devices_found_iff`).
-/

open Pointer
open Vfs (Str Ptr strcmp strcmp_eq_zero_iff)

namespace Devfs

/-- `struct devfs_inode`. -/
structure DevfsInode where
  next : Option Ptr
  name : Str
  node : Ptr

/-- The `devfs_inode_t` in memory, and the static variable `devices`. -/
structure Devices where
  mem : Ptr → DevfsInode
  devices : Option Ptr

/-- The search for a name in the list of devices, for at most `n` rounds. -/
def findDevice (n : ℕ) (d : Devices) (name : Str) : Option (Option Ptr) :=
  Loop.run (searchBody (fun i => (d.mem i).next) (fun i => strcmp (d.mem i).name name == 0)) n d.devices

/-- The last lines of `devfs_add_device`. -/
def linkDevice (d : Devices) (path : Str) (node inode : Ptr) : Devices :=
  let mem := Function.update d.mem inode ⟨none, path, node⟩
  match d.devices with
  | none => ⟨mem, some inode⟩
  | some first => ⟨Function.update mem first { mem first with next := some inode }, some first⟩

/-- `devfs_add_device`, for at most `n` rounds of its loop.  The calls of `kmalloc` succeed, and
`inode` is what the second one returns; the path may be NULL. -/
def devfsAddDevice (n : ℕ) (d : Devices) (path : Option Str) (node inode : Ptr) :
    Option (Int × Devices) :=
  match path with
  | none => some (-1, d)
  | some path =>
    if path.length = 0 then
      some (-1, d)
    else
      (findDevice n d path).map fun
        | some _ => (-1, d)
        | none => (0, linkDevice d path node inode)

/-- `devfs_lookup`, for at most `n` rounds of its loop: what it returns, and what `*out` holds
afterwards.  `nodes` gives the vnodes in memory. -/
def devfsLookup {V : Type} (n : ℕ) (d : Devices) (nodes : Ptr → V) (name : Option Str) (out : V) :
    Option (Int × V) :=
  match name with
  | none => some (-1, out)
  | some name =>
    (findDevice n d name).map fun
      | some i => (0, nodes (d.mem i).node)
      | none => (-1, out)

/-- The arguments of a call of `devfs_add_device`, with what `kmalloc` returns. -/
structure Call where
  path : Option Str
  node : Ptr
  inode : Ptr

/-- The results of a sequence of calls of `devfs_add_device`, and the devices after it. -/
def addAll (n : ℕ) : Devices → List Call → Option (List Int × Devices)
  | d, [] => some ([], d)
  | d, c :: calls => do
    let (r, d) ← devfsAddDevice n d c.path c.node c.inode
    let (rs, d) ← addAll n d calls
    return (r :: rs, d)

/-- Every name that was added can be looked up, with the vnode it was added with, and looking up any
other name returns -1. -/
def Found (calls : List Call) (rs : List Int) (d : Devices) : Prop :=
  ∀ (V : Type) (nodes : Ptr → V) (out : V) (name : Str),
    (∀ c, (c, 0) ∈ calls.zip rs → c.path = some name →
      ∃ n, devfsLookup n d nodes (some name) out = some (0, nodes c.node)) ∧
    ((∀ c, (c, 0) ∈ calls.zip rs → c.path ≠ some name) →
      ∃ n v, devfsLookup n d nodes (some name) out = some (-1, v))

/-- The names in the calls, apart from the empty one. -/
def names (calls : List Call) : Finset Str :=
  ((calls.filterMap Call.path).filter (· ≠ [])).toFinset

/-! ### Lists of devices -/

/-- A device in the list. -/
structure Device where
  inode : Ptr
  name : Str
  node : Ptr
  deriving DecidableEq

/-- The list consists of the given devices. -/
structure Devices.Lists (d : Devices) (ds : List Device) : Prop where
  chain : Chain (fun i => (d.mem i).next) d.devices (ds.map Device.inode) none
  name : ∀ x ∈ ds, (d.mem x.inode).name = x.name
  node : ∀ x ∈ ds, (d.mem x.inode).node = x.node

/-- A device is linked to the first one. -/
def link : List Device → Device → List Device
  | [], x => [x]
  | first :: _, x => [first, x]

/-- What `devfs_add_device` does to the list of devices. -/
def add (ds : List Device) (c : Call) : Int × List Device :=
  match c.path with
  | none => (-1, ds)
  | some path =>
    if path = [] ∨ path ∈ ds.map Device.name then (-1, ds) else (0, link ds ⟨c.inode, path, c.node⟩)

variable {d d' : Devices} {ds : List Device} {c : Call} {calls : List Call} {rs : List Int} {n m : ℕ}

/-- The search for a name finds the first device with the name. -/
theorem Devices.Lists.findDevice (h : d.Lists ds) (name : Str) :
  ∃ n, findDevice n d name = some ((ds.find? (fun x => x.name == name)).map Device.inode)
  := by
  obtain ⟨n, hn⟩ := h.chain.search fun i => strcmp (d.mem i).name name == 0
  refine ⟨n, hn.trans ?_⟩
  rw [List.find?_map]
  congr 2
  apply List.find?_congr
  intro x hx
  rw [Bool.eq_iff_iff]
  simp [h.name x hx]

/-- A new device is linked to the first one. -/
theorem Devices.Lists.link (h : d.Lists ds) {x : Device} (hnew : x.inode ∉ ds.map Device.inode) :
  (linkDevice d x.name x.node x.inode).Lists (link ds x)
  := by
  cases ds with
  | nil =>
      have hnone : d.devices = none := h.chain
      simp only [linkDevice, hnone, Devfs.link]
      constructor
      · simp
      · simp
      · simp
  | cons first ds =>
      obtain ⟨hfirst, -⟩ := h.chain
      have hne : x.inode ≠ first.inode := by
        intro heq
        exact hnew (by simp [heq])
      simp only [linkDevice, hfirst, Devfs.link]
      constructor
      · simp [Function.update_of_ne hne]
      · simp [Function.update_of_ne hne, Function.update_of_ne hne.symm, h.name first]
      · simp [Function.update_of_ne hne, Function.update_of_ne hne.symm, h.node first]

theorem findDevice_mono {name : Str} {r : Option Ptr} (h : findDevice n d name = some r) (hnm : n ≤ m) :
  findDevice m d name = some r
  := Loop.run_mono h hnm

theorem devfsAddDevice_mono {path : Option Str} {node inode : Ptr} {x : Int × Devices}
    (h : devfsAddDevice n d path node inode = some x) (hnm : n ≤ m) :
  devfsAddDevice m d path node inode = some x
  := by
  cases path with
  | none => exact h
  | some path =>
      simp only [devfsAddDevice] at h ⊢
      split at h
      case isTrue hempty => rw [if_pos hempty, h]
      case isFalse hempty =>
        rw [if_neg hempty]
        obtain ⟨r, hr, rfl⟩ := Option.map_eq_some_iff.mp h
        rw [findDevice_mono hr hnm]
        rfl

/-- `devfs_add_device` returns and does to the list what `add` does. -/
theorem devfsAddDevice_spec (h : d.Lists ds) (hnew : c.inode ∉ ds.map Device.inode) :
  ∃ n d', devfsAddDevice n d c.path c.node c.inode = some ((add ds c).1, d') ∧ d'.Lists (add ds c).2
  := by
  obtain ⟨path, node, inode⟩ := c
  cases path with
  | none => exact ⟨0, d, rfl, h⟩
  | some path =>
      simp only [devfsAddDevice, add]
      by_cases hempty : path = []
      · exact ⟨0, d, by simp [hempty], by simpa [hempty] using h⟩
      obtain ⟨n, hn⟩ := h.findDevice path
      refine ⟨n, ?_⟩
      rw [if_neg (by simpa using hempty), hn]
      by_cases hin : path ∈ ds.map Device.name
      · obtain ⟨x, hx, hname⟩ := List.mem_map.mp hin
        obtain ⟨y, hy⟩ := Option.isSome_iff_exists.mp
          (List.find?_isSome.mpr ⟨x, hx, by simp [hname]⟩ : (ds.find? (fun x => x.name == path)).isSome)
        rw [hy, if_pos (Or.inr hin)]
        exact ⟨d, rfl, h⟩
      · have hnone : ds.find? (fun x => x.name == path) = none := by
          rw [List.find?_eq_none]
          intro x hx hname
          exact hin (List.mem_map.mpr ⟨x, hx, by simpa using hname⟩)
        rw [hnone, if_neg (by simp [hempty, hin])]
        exact ⟨_, rfl, h.link (x := ⟨inode, path, node⟩) hnew⟩

/-- `devfs_lookup` of a name finds the first device with the name. -/
theorem devfsLookup_spec {V : Type} (h : d.Lists ds) (nodes : Ptr → V) (name : Str) (out : V) :
  ∃ n, devfsLookup n d nodes (some name) out =
    some (match ds.find? (fun x => x.name == name) with
      | some x => (0, nodes x.node)
      | none => (-1, out))
  := by
  obtain ⟨n, hn⟩ := h.findDevice name
  refine ⟨n, ?_⟩
  simp only [devfsLookup]
  rw [hn]
  cases hfind : ds.find? (fun x => x.name == name) with
  | none => rfl
  | some x =>
      have hnode := h.node x (List.mem_of_find?_eq_some hfind)
      simp [hnode]

theorem devfsLookup_unique {V : Type} {nodes : Ptr → V} {name : Str} {out : V} {x y : Int × V}
    (h : devfsLookup n d nodes (some name) out = some x)
    (h' : devfsLookup m d nodes (some name) out = some y) :
  x = y
  := by
  obtain ⟨r, hr, rfl⟩ := Option.map_eq_some_iff.mp h
  obtain ⟨r', hr', rfl⟩ := Option.map_eq_some_iff.mp h'
  rw [Loop.Returns.unique ⟨n, hr⟩ ⟨m, hr'⟩]

/-! ### Sequences of calls -/

/-- What a sequence of calls does to the list of devices. -/
def adds : List Device → List Call → List Int × List Device
  | ds, [] => ([], ds)
  | ds, c :: calls => ((add ds c).1 :: (adds (add ds c).2 calls).1, (adds (add ds c).2 calls).2)

/-- The list has the device of the call, or those of before. -/
theorem mem_add {x : Device} (h : x ∈ (add ds c).2) :
  x ∈ ds ∨ ((add ds c).1 = 0 ∧ x.inode = c.inode ∧ c.path = some x.name ∧ x.node = c.node)
  := by
  rw [add] at h ⊢
  split at h
  case h_1 => exact Or.inl h
  case h_2 path hpath =>
    split at h
    case isTrue => exact Or.inl h
    case isFalse hnew =>
      simp only [if_neg hnew]
      cases ds with
      | nil =>
          right
          rw [List.mem_singleton.mp h]
          exact ⟨trivial, rfl, hpath, rfl⟩
      | cons first ds =>
          rcases List.mem_cons.mp h with rfl | h
          · simp
          · right
            rw [List.mem_singleton.mp h]
            exact ⟨trivial, rfl, hpath, rfl⟩

theorem addAll_mono {x : List Int × Devices} (h : addAll n d calls = some x) (hnm : n ≤ m) :
  addAll m d calls = some x
  := by
  induction calls generalizing d x with
  | nil => exact h
  | cons c calls ih =>
      obtain ⟨⟨r, d'⟩, hadd, h⟩ := Option.bind_eq_some_iff.mp h
      obtain ⟨⟨rs, d''⟩, hrest, h⟩ := Option.bind_eq_some_iff.mp h
      simp only [addAll, devfsAddDevice_mono hadd hnm, Option.bind_eq_bind, Option.bind_some,
        ih hrest]
      exact h

/-- A sequence of calls returns and does to the list what `adds` does. -/
theorem addAll_spec (h : d.Lists ds) (hnodup : (ds.map Device.inode ++ calls.map Call.inode).Nodup) :
  ∃ n d', addAll n d calls = some ((adds ds calls).1, d') ∧ d'.Lists (adds ds calls).2
  := by
  induction calls generalizing d ds with
  | nil => exact ⟨0, d, rfl, h⟩
  | cons c calls ih =>
      obtain ⟨hds, hcalls, hdisjoint⟩ := List.nodup_append.mp hnodup
      rw [List.map_cons] at hcalls hdisjoint
      have hnew : c.inode ∉ ds.map Device.inode := fun hin => hdisjoint _ hin _ List.mem_cons_self rfl
      obtain ⟨n, d', hadd, h'⟩ := devfsAddDevice_spec h hnew
      have hnodup' : ((add ds c).2.map Device.inode ++ calls.map Call.inode).Nodup := by
        refine List.nodup_append.mpr ⟨h'.chain.nodup, (List.nodup_cons.mp hcalls).2, ?_⟩
        rintro a ha b hb rfl
        obtain ⟨x, hx, rfl⟩ := List.mem_map.mp ha
        rcases mem_add hx with hold | ⟨-, hinode, -⟩
        · exact hdisjoint _ (List.mem_map_of_mem hold) _ (List.mem_cons_of_mem _ hb) rfl
        · rw [hinode] at hb
          exact (List.nodup_cons.mp hcalls).1 hb
      obtain ⟨m, d'', hrest, h''⟩ := ih h' hnodup'
      refine ⟨max n m, d'', ?_, h''⟩
      simp only [addAll, devfsAddDevice_mono hadd (le_max_left n m), Option.bind_eq_bind,
        Option.bind_some, addAll_mono hrest (le_max_right n m)]
      rfl

/-- The list has at most two devices. -/
theorem length_add (h : ds.length ≤ 2) :
  (add ds c).2.length ≤ 2
  := by
  rw [add]
  split
  case h_1 => exact h
  case h_2 =>
    split
    case isTrue => exact h
    case isFalse =>
      cases ds with
      | nil => simp [link]
      | cons first ds => simp [link]

theorem length_adds (h : ds.length ≤ 2) :
  (adds ds calls).2.length ≤ 2
  := by
  induction calls generalizing ds with
  | nil => exact h
  | cons c calls ih => exact ih (length_add h)

/-- A name that is called for is in the list, or is added. -/
theorem mem_or_added (ds : List Device) {path : Str} (hc : c ∈ calls) (hpath : c.path = some path)
    (hempty : path ≠ []) :
  path ∈ ds.map Device.name ∨ ∃ c', (c', 0) ∈ calls.zip (adds ds calls).1 ∧ c'.path = some path
  := by
  induction calls generalizing ds with
  | nil => simp at hc
  | cons c' calls ih =>
      rw [adds, List.zip_cons_cons]
      by_cases hin : path ∈ ds.map Device.name
      · exact Or.inl hin
      right
      rcases List.mem_cons.mp hc with rfl | hc
      · have hadd : (add ds c).1 = 0 := by simp [add, hpath, hempty, hin]
        exact ⟨c, by simp [hadd], hpath⟩
      rcases ih (add ds c').2 hc with hnow | ⟨x, hx, hpath⟩
      · obtain ⟨y, hy, rfl⟩ := List.mem_map.mp hnow
        rcases mem_add hy with hold | ⟨hadd, -, hy, -⟩
        · exact absurd (List.mem_map_of_mem hold) hin
        · exact ⟨c', by simp [hadd], hy⟩
      · exact ⟨x, List.mem_cons_of_mem _ hx, hpath⟩

theorem mem_names {path : Str} :
  path ∈ names calls ↔ path ≠ [] ∧ ∃ c ∈ calls, c.path = some path
  := by
  simp [names, and_comm]

/-- When all names that were added can be looked up, there are at most two. -/
theorem card_names_le (h : d.Lists (adds [] calls).2) (hfound : Found calls (adds [] calls).1 d) :
  (names calls).card ≤ 2
  := by
  have hsub : names calls ⊆ ((adds [] calls).2.map Device.name).toFinset := by
    intro path hpath
    obtain ⟨hempty, c, hc, hcpath⟩ := mem_names.mp hpath
    obtain hin | ⟨x, hx, hxpath⟩ := mem_or_added [] hc hcpath hempty
    · simp at hin
    obtain ⟨n, hn⟩ := (hfound Ptr id 0 path).1 x hx hxpath
    obtain ⟨m, hm⟩ := devfsLookup_spec h id path 0
    have heq := devfsLookup_unique hn hm
    rw [List.mem_toFinset, List.mem_map]
    cases hfind : (adds [] calls).2.find? (fun x => x.name == path) with
    | none =>
        rw [hfind] at heq
        simp at heq
    | some y => exact ⟨y, List.mem_of_find?_eq_some hfind, by simpa using List.find?_some hfind⟩
  calc (names calls).card ≤ ((adds [] calls).2.map Device.name).toFinset.card := Finset.card_le_card hsub
    _ ≤ ((adds [] calls).2.map Device.name).length := List.toFinset_card_le _
    _ ≤ 2 := by
      rw [List.length_map]
      exact length_adds (by simp)

/-- The devices in the list are those of before and those that were added. -/
structure Collects (ds : List Device) (calls : List Call) (rs : List Int) (ds' : List Device) : Prop where
  nodup : (ds'.map Device.name).Nodup
  old : ∀ x ∈ ds, x ∈ ds'
  new : ∀ c path, (c, 0) ∈ calls.zip rs → c.path = some path → ⟨c.inode, path, c.node⟩ ∈ ds'
  only : ∀ x ∈ ds', x ∈ ds ∨ ∃ c, (c, 0) ∈ calls.zip rs ∧ c.path = some x.name

/-- With at most two names, a call that adds a device keeps the others. -/
theorem add_of_card_le (hlen : ds.length ≤ 2) (hnodup : (ds.map Device.name).Nodup)
    (hcard : ((ds.map Device.name).toFinset ∪ names (c :: calls)).card ≤ 2) :
  add ds c = (-1, ds) ∨ ∃ path, c.path = some path ∧ path ≠ [] ∧ path ∉ ds.map Device.name ∧
    add ds c = (0, ds ++ [⟨c.inode, path, c.node⟩])
  := by
  cases hpath : c.path with
  | none =>
      left
      rw [add, hpath]
  | some path =>
      by_cases hfail : path = [] ∨ path ∈ ds.map Device.name
      · left
        simp only [add, hpath, if_pos hfail]
      right
      rw [not_or] at hfail
      refine ⟨path, rfl, hfail.1, hfail.2, ?_⟩
      simp only [add, hpath]
      rw [if_neg (by simp only [not_or]; exact hfail)]
      congr 1
      cases ds with
      | nil => rfl
      | cons first ds =>
          cases ds with
          | nil => rfl
          | cons second ds =>
              -- a third name
              have hsub : insert path ((first :: second :: ds).map Device.name).toFinset ⊆
                  ((first :: second :: ds).map Device.name).toFinset ∪ names (c :: calls) := by
                intro x hx
                rcases Finset.mem_insert.mp hx with rfl | hx
                · exact Finset.mem_union_right _ (mem_names.mpr ⟨hfail.1, c, List.mem_cons_self, hpath⟩)
                · exact Finset.mem_union_left _ hx
              have hle := (Finset.card_le_card hsub).trans hcard
              rw [Finset.card_insert_of_notMem (by simpa using hfail.2), List.toFinset_card_of_nodup hnodup,
                List.length_map] at hle
              simp only [List.length_cons] at hle
              omega

theorem collects_adds (hlen : ds.length ≤ 2) (hnodup : (ds.map Device.name).Nodup)
    (hcard : ((ds.map Device.name).toFinset ∪ names calls).card ≤ 2) :
  Collects ds calls (adds ds calls).1 (adds ds calls).2
  := by
  induction calls generalizing ds with
  | nil => exact ⟨hnodup, fun _ hx => hx, by simp, fun _ hx => Or.inl hx⟩
  | cons c calls ih =>
      have hsub : names calls ⊆ names (c :: calls) := by
        intro path hpath
        obtain ⟨hempty, x, hx, hxpath⟩ := mem_names.mp hpath
        exact mem_names.mpr ⟨hempty, x, List.mem_cons_of_mem _ hx, hxpath⟩
      rcases add_of_card_le hlen hnodup hcard with hadd | ⟨path, hpath, hempty, hnew, hadd⟩
      · have hrest := ih hlen hnodup
          ((Finset.card_le_card (Finset.union_subset_union_right hsub)).trans hcard)
        simp only [adds, hadd]
        refine ⟨hrest.nodup, hrest.old, ?_, ?_⟩
        · intro x path hx hxpath
          exact hrest.new x path (by simpa using hx) hxpath
        · intro x hx
          refine (hrest.only x hx).imp_right ?_
          rintro ⟨y, hy, hypath⟩
          exact ⟨y, List.mem_cons_of_mem _ hy, hypath⟩
      · have hlen' := length_add (c := c) hlen
        have hnodup' : ((ds ++ [Device.mk c.inode path c.node]).map Device.name).Nodup := by
          rw [List.map_append, List.map_singleton]
          exact List.nodup_append.mpr ⟨hnodup, List.nodup_singleton _, by grind⟩
        have hsub' : ((ds ++ [Device.mk c.inode path c.node]).map Device.name).toFinset ∪ names calls ⊆
            (ds.map Device.name).toFinset ∪ names (c :: calls) := by
          intro x hx
          have hpath' := mem_names.mpr ⟨hempty, c, (List.mem_cons_self : c ∈ c :: calls), hpath⟩
          simp only [List.map_append, List.map_singleton, List.toFinset_append, Finset.mem_union,
            List.mem_toFinset, List.mem_singleton] at hx ⊢
          rcases hx with (hx | rfl) | hx
          · exact Or.inl hx
          · exact Or.inr hpath'
          · exact Or.inr (hsub hx)
        rw [hadd] at hlen'
        have hrest := ih hlen' hnodup' ((Finset.card_le_card hsub').trans hcard)
        simp only [adds, hadd]
        refine ⟨hrest.nodup, fun x hx => hrest.old x (by simp [hx]), ?_, ?_⟩
        · intro x p hx hxpath
          rw [List.zip_cons_cons, List.mem_cons] at hx
          rcases hx with heq | hx
          · obtain ⟨rfl, -⟩ := Prod.mk.inj heq
            rw [hpath] at hxpath
            obtain rfl := Option.some.inj hxpath
            exact hrest.old _ (by simp)
          · exact hrest.new x p hx hxpath
        · intro x hx
          rcases hrest.only x hx with hx | ⟨y, hy, hypath⟩
          · rcases List.mem_append.mp hx with hx | hx
            · exact Or.inl hx
            · rw [List.mem_singleton.mp hx]
              exact Or.inr ⟨c, by simp, hpath⟩
          · exact Or.inr ⟨y, List.mem_cons_of_mem _ hy, hypath⟩

/-- In a list without repetitions, the device with a name is the one that is found. -/
theorem find?_name {x : Device} (hnodup : (ds.map Device.name).Nodup) (hx : x ∈ ds) :
  ds.find? (fun y => y.name == x.name) = some x
  := by
  cases hfind : ds.find? (fun y => y.name == x.name) with
  | none => simpa using List.find?_eq_none.mp hfind x hx
  | some y =>
      have hname : y.name = x.name := by simpa using List.find?_some hfind
      rw [List.inj_on_of_nodup_map hnodup (List.mem_of_find?_eq_some hfind) hx hname]

theorem found_of_collects (h : d.Lists ds) (hcollects : Collects [] calls rs ds) :
  Found calls rs d
  := by
  intro V nodes out name
  obtain ⟨n, hn⟩ := devfsLookup_spec h nodes name out
  constructor
  · intro c hc hpath
    have hmem := hcollects.new c name hc hpath
    rw [find?_name hcollects.nodup hmem] at hn
    exact ⟨n, hn⟩
  · intro hother
    have hnone : ds.find? (fun x => x.name == name) = none := by
      rw [List.find?_eq_none]
      intro x hx hname
      rcases hcollects.only x hx with hx | ⟨c, hc, hpath⟩
      · simp at hx
      · rw [beq_iff_eq] at hname
        exact hother c hc (by rw [hpath, hname])
    rw [hnone] at hn
    exact ⟨n, out, hn⟩

/-- After a sequence of calls of `devfs_add_device`, every device that was added can be looked up, and
no other one, exactly when the calls name at most two different devices. -/
theorem devices_found_iff (d : Devices) (h : d.devices = none) (calls : List Call)
    (hfresh : (calls.map Call.inode).Nodup) :
  ∃ n rs d', addAll n d calls = some (rs, d') ∧ (Found calls rs d' ↔ (names calls).card ≤ 2)
  := by
  have hlists : d.Lists [] := ⟨h, by simp, by simp⟩
  obtain ⟨n, d', hrun, hlists'⟩ := addAll_spec hlists (by simpa using hfresh)
  refine ⟨n, _, d', hrun, ?_, ?_⟩
  · exact card_names_le hlists'
  · intro hcard
    exact found_of_collects hlists' (collects_adds (by simp) (by simp) (by simpa using hcard))

/-- No device. -/
abbrev noDevices : Devices := ⟨fun _ => ⟨none, [], 0⟩, none⟩

/-- The devices that the kernel adds, `console` and `keyboard`. -/
abbrev consoleAndKeyboard : List Call :=
  [⟨some [0x63, 0x6f, 0x6e, 0x73, 0x6f, 0x6c, 0x65], 1, 3⟩,
    ⟨some [0x6b, 0x65, 0x79, 0x62, 0x6f, 0x61, 0x72, 0x64], 2, 4⟩]

/-- Both devices of the kernel can be looked up. -/
theorem devices_found_two :
  noDevices.devices = none ∧ (consoleAndKeyboard.map Call.inode).Nodup ∧
    ∃ n rs d', addAll n noDevices consoleAndKeyboard = some (rs, d') ∧
      (Found consoleAndKeyboard rs d' ↔ (names consoleAndKeyboard).card ≤ 2)
  := ⟨rfl, by decide, devices_found_iff noDevices rfl consoleAndKeyboard (by decide)⟩

/-- Three devices `a`, `b` and `c`. -/
abbrev threeDevices : List Call :=
  [⟨some [0x61], 1, 4⟩, ⟨some [0x62], 2, 5⟩, ⟨some [0x63], 3, 6⟩]

/-- All three are added, and `b` cannot be looked up afterwards. -/
theorem second_device_lost :
  ∃ d', addAll 3 noDevices threeDevices = some ([0, 0, 0], d') ∧
    devfsLookup 3 d' id (some [0x62]) 0 = some (-1, 0) ∧ ¬ Found threeDevices [0, 0, 0] d'
  := by
  refine ⟨_, rfl, rfl, ?_⟩
  intro hfound
  obtain ⟨n, hn⟩ := (hfound Ptr id 0 [0x62]).1 ⟨some [0x62], 2, 5⟩ (by simp) rfl
  have heq := devfsLookup_unique hn (m := 3) (y := (-1, 0)) rfl
  simp at heq

end Devfs
