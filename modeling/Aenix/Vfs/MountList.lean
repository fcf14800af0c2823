import Aenix.Lib.Pointer
import Aenix.Vfs.Basic

/-!
# Mounting

`vfs_mount` appends a file system to the linked list `vfs_list`, unless one of the mount paths is the
new one.  The search for the end of the list compares the mount paths on its way, but stops in front of
the last one.

`vfs_mount` copies the mount path without a test of what `kmalloc` returns; here the copy is the path, as
if `kmalloc` never failed.

A table of mounts is described by the list of its addresses and mount paths (`Table.Lists`).  The calls
of a sequence do what they should (`Exact`) exactly when none of them repeats the mount path at the end
of the list or mounts a `vfs_t` again that is in the list (`mount_points_unique_iff`).
-/

open Pointer

namespace Vfs

/-! ### Strings -/

/-- The loop of `strcmp` over strings of the same length.  Characters are signed. -/
def compareChars : Str → Str → Int
  | a :: s₁, b :: s₂ => if a = b then compareChars s₁ s₂ else if a.toInt8 < b.toInt8 then -1 else 1
  | _, _ => 0

/-- `strcmp`. -/
def strcmp (s₁ s₂ : Str) : Int :=
  if s₁.length < s₂.length then -1
  else if s₁.length > s₂.length then 1
  else compareChars s₁ s₂

theorem compareChars_eq_zero_iff {s₁ s₂ : Str} (h : s₁.length = s₂.length) :
  compareChars s₁ s₂ = 0 ↔ s₁ = s₂
  := by
  induction s₁ generalizing s₂ with
  | nil =>
      cases s₂ with
      | nil => simp [compareChars]
      | cons b s₂ => simp at h
  | cons a s₁ ih =>
      cases s₂ with
      | nil => simp at h
      | cons b s₂ =>
          rw [compareChars]
          by_cases hab : a = b
          · simp [hab, ih (by simpa using h)]
          · rw [if_neg hab]
            simp only [List.cons.injEq, hab, false_and, iff_false]
            split
            · decide
            · decide

@[simp]
theorem strcmp_eq_zero_iff {s₁ s₂ : Str} :
  strcmp s₁ s₂ = 0 ↔ s₁ = s₂
  := by
  rw [strcmp]
  split
  case isTrue hlt =>
    simp only [Int.reduceNeg, Int.reduceEq, false_iff]
    rintro rfl
    omega
  split
  case isTrue hgt =>
    simp only [one_ne_zero, false_iff]
    rintro rfl
    omega
  case isFalse hle hge => exact compareChars_eq_zero_iff (by omega)

/-! ### The list of file systems -/

/-- An address of the kernel. -/
abbrev Ptr := UInt32

/-- `struct vfs`, as far as `vfs_mount` uses it. -/
structure VfsEle where
  vfsNext : Option Ptr
  mountPath : Str
  deriving DecidableEq

/-- The `vfs_t` in memory, and the static variable `vfs_list`. -/
structure Table where
  mem : Ptr → VfsEle
  vfsList : Option Ptr

/-- The loop of `vfs_mount` from `i` on, for at most `n` rounds: `none` when -1 is returned in it, else
the element at which it ends. -/
def findTail (n : ℕ) (t : Table) (path : Str) (i : Ptr) : Option (Option Ptr) :=
  Loop.run (tailBody (fun i => (t.mem i).vfsNext) (fun i => strcmp (t.mem i).mountPath path == 0)) n i

/-- The last lines of `vfs_mount`. -/
def setMount (t : Table) (path : Str) (vfs : Ptr) : Table :=
  { t with mem := Function.update t.mem vfs ⟨none, path⟩ }

/-- `i->vfs_next = vfs`, and the last lines of `vfs_mount`. -/
def linkMount (t : Table) (i : Ptr) (path : Str) (vfs : Ptr) : Table :=
  let mem := Function.update t.mem i { t.mem i with vfsNext := some vfs }
  setMount { t with mem := mem } path vfs

/-- `vfs_mount`, for at most `n` rounds of its loop.  The copy of the path is the path. -/
def vfsMount (n : ℕ) (t : Table) (path : Str) (vfs : Ptr) : Option (Int × Table) :=
  match t.vfsList with
  | none => some (0, setMount { t with vfsList := some vfs } path vfs)
  | some i =>
    (findTail n t path i).map fun
      | none => (-1, t)
      | some i => (0, linkMount t i path vfs)

/-! ### Mounts -/

/-- Strings can be compared. -/
instance : LawfulBEq Str :=
  inferInstance

/-- A file system, by its address, and the path it is mounted at. -/
structure Mount where
  vfs : Ptr
  path : Str
  deriving DecidableEq

/-- The list of file systems consists of the given mounts. -/
structure Table.Lists (t : Table) (ms : List Mount) : Prop where
  chain : Chain (fun i => (t.mem i).vfsNext) t.vfsList (ms.map Mount.vfs) none
  path : ∀ m ∈ ms, (t.mem m.vfs).mountPath = m.path

/-- What mounting should return and do. -/
def mount (ms : List Mount) (m : Mount) : Int × List Mount :=
  if m.path ∈ ms.map Mount.path then (-1, ms) else (0, ms ++ [m])

/-- The calls of a sequence, from the table `t` with the mounts `ms` on, return what they should, and
no two file systems are ever mounted at the same path. -/
def Exact : Table → List Mount → List Mount → Prop
  | _, _, [] => True
  | t, ms, m :: calls => ∃ n t', vfsMount n t m.path m.vfs = some ((mount ms m).1, t') ∧
      t'.Lists (mount ms m).2 ∧ ((mount ms m).2.map Mount.path).Nodup ∧ Exact t' (mount ms m).2 calls

/-- No call mounts at the path at which the last file system of the list is mounted, and none mounts, at
a new path, a file system that is in the list. -/
def Spared : List Mount → List Mount → Prop
  | _, [] => True
  | ms, m :: calls => (∀ l ∈ ms.getLast?, m.path ≠ l.path) ∧
      (m.path ∉ ms.map Mount.path → m.vfs ∉ ms.map Mount.vfs) ∧ Spared (mount ms m).2 calls

variable {t t' : Table} {ms : List Mount} {m : Mount} {n : ℕ} {r : Int}

/-! ### One call -/

theorem Table.Lists.empty (h : t.vfsList = none) :
  t.Lists []
  := ⟨h, by simp⟩

/-- A new file system is appended when it is not in the list. -/
theorem Table.Lists.append (h : t.Lists (ms ++ [m])) {m' : Mount}
    (hnew : m'.vfs ∉ (ms ++ [m]).map Mount.vfs) :
  (linkMount t m.vfs m'.path m'.vfs).Lists (ms ++ [m] ++ [m'])
  := by
  have hchain := h.chain
  have hnodup := hchain.nodup
  rw [List.map_append, List.map_singleton] at hchain hnodup hnew
  simp only [List.nodup_append, List.mem_append, List.mem_singleton, not_or] at hnodup hnew
  constructor
  · rw [List.map_append, List.map_append, List.map_singleton, List.map_singleton, chain_concat]
    simp only [linkMount, setMount, Function.update_self, and_true]
    rw [chain_concat] at hchain ⊢
    rw [Function.update_of_ne (Ne.symm hnew.2), Function.update_self]
    refine ⟨hchain.1.congr ?_, rfl⟩
    intro a ha
    have hne : a ≠ m.vfs := by
      rintro rfl
      exact hnodup.2.2 _ ha _ rfl rfl
    have hne' : a ≠ m'.vfs := by
      rintro rfl
      exact hnew.1 ha
    rw [Function.update_of_ne hne', Function.update_of_ne hne]
  · intro x hx
    rcases List.mem_append.mp hx with hx | hx
    · have hne : x.vfs ≠ m'.vfs := by
        intro heq
        rcases List.mem_append.mp hx with hx | hx
        · exact hnew.1 (List.mem_map.mpr ⟨x, hx, heq⟩)
        · rw [List.mem_singleton.mp hx] at heq
          exact hnew.2 heq.symm
      have hpath := h.path x hx
      simp only [linkMount, setMount, Function.update_of_ne hne]
      by_cases hlast : x.vfs = m.vfs
      · rw [hlast] at hpath ⊢
        rw [Function.update_self]
        exact hpath
      · rw [Function.update_of_ne hlast]
        exact hpath
    · rw [List.mem_singleton.mp hx]
      simp [linkMount, setMount]

/-- The table after a file system was mounted as the first one. -/
theorem Table.Lists.first (t : Table) (m : Mount) :
  (setMount { t with vfsList := some m.vfs } m.path m.vfs).Lists [m]
  := by
  constructor
  · simp [setMount]
  · simp [setMount]

/-- `vfs_mount` compares the path with all mount paths but the last one. -/
theorem vfsMount_eq_iff (h : t.Lists (ms ++ [m])) {m' : Mount} :
  (∃ n, vfsMount n t m'.path m'.vfs = some (r, t')) ↔
    (r, t') = if m'.path ∈ ms.map Mount.path then (-1, t)
      else (0, linkMount t m.vfs m'.path m'.vfs)
  := by
  obtain ⟨a, ha⟩ : ∃ a, t.vfsList = some a := by
    cases hlist : t.vfsList with
    | none => simpa using h.chain.eq_none_iff.mp hlist
    | some a => exact ⟨a, rfl⟩
  have hchain := h.chain
  rw [ha, List.map_append, List.map_singleton] at hchain
  obtain ⟨n, hn⟩ := hchain.tail fun i => strcmp (t.mem i).mountPath m'.path == 0
  have hany : (ms.map Mount.vfs).any (fun i => strcmp (t.mem i).mountPath m'.path == 0) = true ↔
      m'.path ∈ ms.map Mount.path := by
    simp only [List.any_map, List.any_eq_true, Function.comp_apply, beq_iff_eq, strcmp_eq_zero_iff,
      List.mem_map]
    constructor
    · rintro ⟨x, hx, hpath⟩
      exact ⟨x, hx, by rw [← h.path x (by simp [hx]), hpath]⟩
    · rintro ⟨x, hx, hpath⟩
      exact ⟨x, hx, by rw [h.path x (by simp [hx]), hpath]⟩
  simp only [hany] at hn
  have hcall : ∀ k, vfsMount k t m'.path m'.vfs = (findTail k t m'.path a).map fun
      | none => (-1, t)
      | some i => (0, linkMount t i m'.path m'.vfs) := by
    intro k
    rw [vfsMount, ha]
  constructor
  · rintro ⟨k, hk⟩
    rw [hcall] at hk
    obtain ⟨res, hres, heq⟩ := Option.map_eq_some_iff.mp hk
    have hunique : res = if m'.path ∈ ms.map Mount.path then none else some m.vfs :=
      Loop.Returns.unique ⟨k, hres⟩ ⟨n, hn⟩
    rw [← heq, hunique]
    by_cases hin : m'.path ∈ ms.map Mount.path
    · rw [if_pos hin, if_pos hin]
    · rw [if_neg hin, if_neg hin]
  · intro heq
    refine ⟨n, ?_⟩
    rw [hcall, show findTail n t m'.path a = _ from hn, heq]
    by_cases hin : m'.path ∈ ms.map Mount.path
    · rw [if_pos hin, if_pos hin]
      rfl
    · rw [if_neg hin, if_neg hin]
      rfl

/-- A call returns and does what it should exactly when it is spared. -/
theorem vfsMount_exact_iff (h : t.Lists ms) (hnodup : (ms.map Mount.path).Nodup) :
  (∃ n t', vfsMount n t m.path m.vfs = some ((mount ms m).1, t') ∧ t'.Lists (mount ms m).2) ↔
    (∀ l ∈ ms.getLast?, m.path ≠ l.path) ∧ (m.path ∉ ms.map Mount.path → m.vfs ∉ ms.map Mount.vfs)
  := by
  rcases List.eq_nil_or_concat ms with rfl | ⟨ms, l, rfl⟩
  · have hlist : t.vfsList = none := h.chain
    simp only [List.getLast?_nil, Option.not_mem_none, false_implies, implies_true, List.map_nil,
      List.not_mem_nil, not_false_eq_true, and_self, iff_true]
    refine ⟨0, _, ?_, Table.Lists.first t m⟩
    rw [vfsMount, hlist]
    rfl
  rw [List.concat_eq_append] at *
  simp only [List.getLast?_concat, Option.mem_some_iff, forall_eq']
  have hlast : l.path ∉ ms.map Mount.path := by
    rw [List.map_append, List.nodup_append] at hnodup
    intro hin
    exact hnodup.2.2 _ hin _ (by simp) rfl
  constructor
  · rintro ⟨n, t', hrun, hlists⟩
    constructor
    · -- the last mount path is in the list, but the call returns 0
      intro heq
      have hres := (vfsMount_eq_iff h).mp ⟨n, hrun⟩
      rw [if_neg (by rwa [heq]), mount, if_pos (by simp [heq])] at hres
      simp at hres
    · intro hnew
      rw [mount, if_neg hnew] at hlists
      have hvfs := hlists.chain.nodup
      rw [List.map_append, List.nodup_append] at hvfs
      intro hin
      exact hvfs.2.2 _ hin _ (by simp) rfl
  · rintro ⟨hne, hvfs⟩
    by_cases hin : m.path ∈ ms.map Mount.path
    · have hall : m.path ∈ (ms ++ [l]).map Mount.path := by
        rw [List.map_append]
        exact List.mem_append_left _ hin
      rw [mount, if_pos hall]
      obtain ⟨n, hrun⟩ := (vfsMount_eq_iff h).mpr (if_pos hin).symm
      exact ⟨n, t, hrun, h⟩
    · have hall : m.path ∉ (ms ++ [l]).map Mount.path := by
        rw [List.map_append, List.map_singleton, List.mem_append, List.mem_singleton]
        exact fun hor => hor.elim hin hne
      rw [mount, if_neg hall]
      obtain ⟨n, hrun⟩ := (vfsMount_eq_iff h).mpr (if_neg hin).symm
      exact ⟨n, _, hrun, h.append (hvfs hall)⟩

/-! ### Sequences of calls -/

/-- What a call should do keeps the mount paths different. -/
theorem nodup_mount (h : (ms.map Mount.path).Nodup) :
  ((mount ms m).2.map Mount.path).Nodup
  := by
  rw [mount]
  split
  case isTrue => exact h
  case isFalse hnew =>
    rw [List.map_append, List.map_singleton]
    exact List.nodup_append.mpr ⟨h, List.nodup_singleton _, by grind⟩

theorem exact_iff_spared (h : t.Lists ms) (hnodup : (ms.map Mount.path).Nodup) (calls : List Mount) :
  Exact t ms calls ↔ Spared ms calls
  := by
  induction calls generalizing t ms with
  | nil => exact Iff.rfl
  | cons m calls ih =>
      have hcall := vfsMount_exact_iff (m := m) h hnodup
      have hnodup' := nodup_mount (m := m) hnodup
      constructor
      · rintro ⟨n, t', hrun, hlists, -, hrest⟩
        obtain ⟨hne, hvfs⟩ := hcall.mp ⟨n, t', hrun, hlists⟩
        exact ⟨hne, hvfs, (ih hlists hnodup').mp hrest⟩
      · rintro ⟨hne, hvfs, hrest⟩
        obtain ⟨n, t', hrun, hlists⟩ := hcall.mpr ⟨hne, hvfs⟩
        exact ⟨n, t', hrun, hlists, hnodup', (ih hlists hnodup').mpr hrest⟩

/-- Every call of `vfs_mount` returns -1 exactly when a file system is mounted at the path, and else
appends, exactly when no call repeats the path of the last mount, or mounts a file system that is in
the list at a new path. -/
theorem mount_points_unique_iff (t : Table) (h : t.vfsList = none) (calls : List Mount) :
  Exact t [] calls ↔ Spared [] calls
  := exact_iff_spared (Table.Lists.empty h) List.nodup_nil calls

/-- Nothing is mounted. -/
abbrev noMounts : Table := ⟨fun _ => ⟨none, []⟩, none⟩

/-- The mounts that the kernel makes, `/` and `/dev/`, and an attempt to mount at `/` again. -/
theorem mount_points_unique_three :
  noMounts.vfsList = none ∧
    (Exact noMounts [] [⟨1, [0x2f]⟩, ⟨2, [0x2f, 0x64, 0x65, 0x76, 0x2f]⟩, ⟨3, [0x2f]⟩] ↔
      Spared [] [⟨1, [0x2f]⟩, ⟨2, [0x2f, 0x64, 0x65, 0x76, 0x2f]⟩, ⟨3, [0x2f]⟩]) ∧
    Spared [] [⟨1, [0x2f]⟩, ⟨2, [0x2f, 0x64, 0x65, 0x76, 0x2f]⟩, ⟨3, [0x2f]⟩]
  := ⟨rfl, mount_points_unique_iff noMounts rfl _, by simp [Spared, mount]⟩

/-- Two file systems are mounted at `/`, one after the other; the second call returns 0. -/
theorem mounted_twice :
  ¬ Exact noMounts [] [⟨1, [0x2f]⟩, ⟨2, [0x2f]⟩] ∧
    ∃ t t', vfsMount 1 noMounts [0x2f] 1 = some (0, t) ∧ vfsMount 1 t [0x2f] 2 = some (0, t') ∧
      t'.Lists [⟨1, [0x2f]⟩, ⟨2, [0x2f]⟩]
  := by
  constructor
  · rw [exact_iff_spared (Table.Lists.empty rfl) List.nodup_nil]
    simp [Spared, mount]
  · refine ⟨_, _, rfl, rfl, ?_, ?_⟩
    · simp [linkMount, setMount]
    · simp [linkMount, setMount]

end Vfs
