import Aenix.Vfs.Walk

/-!
# Names that lead somewhere

A file system says where a name leads from a file or directory (`resolve`).  When `vn_lookup` does what it says
for each name, `vfs_lookup` does so for each path (`walk_finds`).
-/

namespace Vfs

/-! ### Walks -/

/-- What the names lead to, one after the other. -/
def resolve {α : Type} (step : Str → α → Option α) : List Str → α → Option α
  | [], a => some a
  | name :: names, a => (step name a).bind (resolve step names)

/-- What the names lead to from a vnode, as `vfs_lookup` finds it. -/
def walkNames {V : Type} (ops : Vnodeops V) (vnode out : V) (names : List Str) : Int × V :=
  ((lookupSegments ops vnode out names).1, (lookupSegments ops vnode out names).2.1)

/-- A lookup returns 0 and a vnode for what is to be found, or -1 if there is nothing. -/
def Finds {α V : Type} (R : α → V → Prop) (a : Option α) (r : Int × V) : Prop :=
  match a with
  | some a => r.1 = 0 ∧ R a r.2
  | none => r.1 = -1

variable {α V : Type} {ops : Vnodeops V} {vnode out v : V} {name : Str} {names ns : List Str}

theorem Finds.mono {R S : α → V → Prop} {a : Option α} {r : Int × V} (h : Finds R a r)
    (hRS : ∀ a v, R a v → S a v) :
  Finds S a r
  := by
  cases a with
  | none => exact h
  | some a => exact ⟨h.1, hRS _ _ h.2⟩

theorem walkNames_singleton (ops : Vnodeops V) (vnode out : V) (name : Str) :
  walkNames ops vnode out [name] = ops.vnLookup vnode name out
  := by
  simp only [walkNames, lookupSegments]
  split
  case isTrue hret => rw [← hret]
  case isFalse => rfl

theorem walkNames_cons (h : ops.vnLookup vnode name out = (0, v)) :
  walkNames ops vnode out (name :: names) = walkNames ops v v names
  := by
  simp only [walkNames, lookupSegments, h, if_true]

theorem walkNames_failed (h : (ops.vnLookup vnode name out).1 ≠ 0) :
  walkNames ops vnode out (name :: names) = ops.vnLookup vnode name out
  := by
  simp only [walkNames, lookupSegments, if_neg h]

theorem walkNames_append (hne : names ≠ []) (h : walkNames ops vnode out names = (0, v)) :
  walkNames ops vnode out (names ++ ns) = walkNames ops v v ns
  := by
  induction names generalizing vnode out with
  | nil => exact absurd rfl hne
  | cons name names ih =>
      have hlookup : (ops.vnLookup vnode name out).1 = 0 := by
        by_contra hret
        rw [walkNames_failed hret] at h
        exact hret (congrArg Prod.fst h)
      rw [walkNames_cons (Prod.ext hlookup rfl)] at h
      rw [List.cons_append, walkNames_cons (Prod.ext hlookup rfl)]
      cases names with
      | nil =>
          simp only [walkNames, lookupSegments, Prod.mk.injEq, true_and] at h
          rw [h, List.nil_append]
      | cons name' names => exact ih (by simp) h

/-- When `vn_lookup` finds what a name leads to, `vfs_lookup` finds what the names lead to. -/
theorem walk_finds {R : α → V → Prop} {step : Str → α → Option α} {p : Str → Prop}
    (hstep : ∀ a v name out, R a v → p name → Finds R (step name a) (ops.vnLookup v name out))
    (hnames : ∀ name ∈ names, p name) {a : α} (h : R a vnode) (out : V) :
  Finds R (resolve step names a) (walkNames ops vnode out names)
  := by
  induction names generalizing a vnode out with
  | nil => exact ⟨rfl, h⟩
  | cons name names ih =>
      obtain ⟨hname, hnames⟩ := List.forall_mem_cons.mp hnames
      have hfinds := hstep a vnode name out h hname
      rw [resolve]
      cases hnode : step name a with
      | none =>
          rw [hnode] at hfinds
          have hret : (ops.vnLookup vnode name out).1 = -1 := hfinds
          rw [walkNames_failed (by rw [hret]; decide)]
          exact hret
      | some b =>
          rw [hnode] at hfinds
          rw [walkNames_cons (Prod.ext hfinds.1 rfl)]
          exact ih hnames hfinds.2 _

/-- `vfs_lookup` behind the mount path walks along the segments of the rest of the path. -/
theorem lookupIn_eq (ops : Vnodeops V) {root : VfsT V} (hroot : root.vfsRoot = some vnode) (rest : Str) (out : V) :
  lookupIn ops root rest out = walkNames ops vnode out (segments rest)
  := by
  simp only [lookupIn, hroot]
  by_cases hrest : rest = []
  · simp [hrest, walkNames, lookupSegments]
  · rw [if_neg (fun hzero => hrest (List.length_eq_zero_iff.mp hzero)),
      walkFrom_eq ops vnode out le_rfl (fun hnil => absurd hnil hrest)]
    rfl

/-- `vfs_lookup` of an absolute path walks along the rest of the path in the file system of the path. -/
theorem vfsLookup_eq {vfsList : List (VfsT V)} {path rest : Str} {root : VfsT V} (habs : path.head? = some slash)
    (hselected : selected vfsList path = some (root, rest)) (hroot : root.vfsRoot = some vnode) (out : V) :
  vfsLookup ops vfsList path out = some (walkNames ops vnode out (segments rest))
  := by
  have hne : path.length ≠ 0 := by
    intro hzero
    rw [List.length_eq_zero_iff.mp hzero] at habs
    simp at habs
  rw [vfsLookup, if_neg (by omega), if_neg (by simp [habs]), hselected, ← lookupIn_eq ops hroot]
  rfl

/-! ### Paths -/

/-- The path with the given names. -/
def pathOf (names : List Str) : Str :=
  names.flatMap (slash :: ·)

/-- The names of a path are the segments behind its first slash. -/
theorem segments_pathOf (hne : ∀ name ∈ names, name ≠ []) (hslash : ∀ name ∈ names, slash ∉ name) :
  segments (pathOf names).tail = names
  := by
  induction names with
  | nil => simp [pathOf]
  | cons name names ih =>
      obtain ⟨hname, hne⟩ := List.forall_mem_cons.mp hne
      obtain ⟨hfree, hslash⟩ := List.forall_mem_cons.mp hslash
      cases names with
      | nil => simpa [pathOf] using segments_of_notMem hname hfree
      | cons name' names =>
          rw [pathOf, List.flatMap_cons, List.cons_append, List.tail_cons, List.flatMap_cons, List.cons_append,
            segments_append hfree]
          exact congrArg (name :: ·) (ih hne hslash)

end Vfs
