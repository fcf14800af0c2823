import Aenix.Vfs.Basic

/-!
# Mount paths

A path belongs to the file system with the longest mount path that is a prefix of it.
`find_longest_mount_path` does not test whether it has reached the end of a mount path: it chooses
the first mount path with the longest common beginning.  The two agree exactly when the other mount
paths have less in common with the path than that prefix (`mount_selected_iff`).
-/

namespace Vfs

variable {V : Type} {vfsList : List (VfsT V)} {path mp : Str} {v : VfsT V}

/-! ### Common beginnings -/

/-- A mount path is a prefix of the path exactly when they agree to its end. -/
theorem commonLength_eq_length_iff :
  commonLength path mp = mp.length ↔ mp <+: path
  := by
  induction path generalizing mp with
  | nil =>
      cases mp with
      | nil => simp [commonLength]
      | cons m mp => simp [commonLength]
  | cons p path ih =>
      cases mp with
      | nil => simp [commonLength]
      | cons m mp =>
          rw [commonLength, List.cons_prefix_cons]
          split
          case isTrue heq => simp [heq, ih]
          case isFalse hne =>
            simp only [List.length_cons, Nat.right_eq_add, Nat.add_eq_zero_iff, one_ne_zero, and_false,
              false_iff, not_and]
            intro heq
            exact absurd heq.symm hne

theorem commonLength_of_isPrefix (h : mp <+: path) :
  commonLength path mp = mp.length
  := commonLength_eq_length_iff.mpr h

/-! ### The search -/

/-- `v` is the first of the list that has the most in common with the path. -/
def IsFirst (vfsList : List (VfsT V)) (path : Str) (v : VfsT V) : Prop :=
  ∃ pre post, vfsList = pre ++ v :: post ∧ 0 < commonLength path v.mountPath ∧
    (∀ u ∈ pre, commonLength path u.mountPath < commonLength path v.mountPath) ∧
    ∀ u ∈ post, commonLength path u.mountPath ≤ commonLength path v.mountPath

theorem isFirst_concat (vs : List (VfsT V)) (path : Str) (v : VfsT V)
    (hpos : 0 < commonLength path v.mountPath)
    (hlt : ∀ u ∈ vs, commonLength path u.mountPath < commonLength path v.mountPath) :
  IsFirst (vs ++ [v]) path v
  := ⟨vs, [], rfl, hpos, hlt, by simp⟩

theorem IsFirst.concat {vs : List (VfsT V)} (h : IsFirst vs path v) {u : VfsT V}
    (hle : commonLength path u.mountPath ≤ commonLength path v.mountPath) :
  IsFirst (vs ++ [u]) path v
  := by
  obtain ⟨pre, post, rfl, hpos, hpre, hpost⟩ := h
  refine ⟨pre, post ++ [u], by simp, hpos, hpre, ?_⟩
  intro x hx
  rcases List.mem_append.mp hx with hx | hx
  · exact hpost x hx
  · rw [List.mem_singleton.mp hx]
    exact hle

theorem IsFirst.le (h : IsFirst vfsList path v) {u : VfsT V} (hu : u ∈ vfsList) :
  commonLength path u.mountPath ≤ commonLength path v.mountPath
  := by
  obtain ⟨pre, post, rfl, -, hpre, hpost⟩ := h
  rcases List.mem_append.mp hu with hu | hu
  · exact (hpre u hu).le
  · rcases List.mem_cons.mp hu with rfl | hu
    · exact le_rfl
    · exact hpost u hu

/-- `find_longest_mount_path` finds the first one, unless no mount path has anything in common with
the path. -/
theorem findLongestMountPath_spec (vfsList : List (VfsT V)) (path : Str) :
  (findLongestMountPath vfsList path = (0, none) ∧
      ∀ u ∈ vfsList, commonLength path u.mountPath = 0) ∨
    ∃ v, findLongestMountPath vfsList path = (commonLength path v.mountPath, some v) ∧
      IsFirst vfsList path v
  := by
  induction vfsList using List.reverseRecOn with
  | nil => simp [findLongestMountPath]
  | append_singleton vs u ih =>
      have hstep : findLongestMountPath (vs ++ [u]) path =
          if commonLength path u.mountPath > (findLongestMountPath vs path).1 then
            (commonLength path u.mountPath, some u)
          else findLongestMountPath vs path := by
        rw [findLongestMountPath, List.foldl_concat]
        rfl
      rcases ih with ⟨heq, hzero⟩ | ⟨v, heq, hfirst⟩
      · rw [hstep, heq]
        split
        case isTrue hgt =>
          refine Or.inr ⟨u, rfl, isFirst_concat vs path u hgt ?_⟩
          intro x hx
          rw [hzero x hx]
          exact hgt
        case isFalse hle =>
          refine Or.inl ⟨rfl, ?_⟩
          intro x hx
          rcases List.mem_append.mp hx with hx | hx
          · exact hzero x hx
          · rw [List.mem_singleton.mp hx]
            simpa using hle
      · rw [hstep, heq]
        split
        case isTrue hgt =>
          refine Or.inr ⟨u, rfl, isFirst_concat vs path u (by omega) ?_⟩
          intro x hx
          exact (hfirst.le hx).trans_lt hgt
        case isFalse hle => exact Or.inr ⟨v, rfl, hfirst.concat (not_lt.mp hle)⟩

/-! ### The file system of a path -/

/-- `v` has the longest mount path that is a prefix of the path. -/
structure IsMount (vfsList : List (VfsT V)) (path : Str) (v : VfsT V) : Prop where
  mem : v ∈ vfsList
  isPrefix : v.mountPath <+: path
  longest : ∀ u ∈ vfsList, u.mountPath <+: path → u.mountPath.length ≤ v.mountPath.length

/-- When one of the mount paths is a prefix of the path, there is a longest one. -/
theorem exists_isMount {r : VfsT V} (hr : r ∈ vfsList) (hbegin : r.mountPath <+: path) :
  ∃ v, IsMount vfsList path v
  := by
  let prefixes := vfsList.filter fun u => decide (u.mountPath <+: path)
  have hmem : r ∈ prefixes := List.mem_filter.mpr ⟨hr, by simpa using hbegin⟩
  cases hmax : prefixes.argmax fun u => u.mountPath.length with
  | none =>
      rw [List.argmax_eq_none.mp hmax] at hmem
      exact absurd hmem List.not_mem_nil
  | some v =>
      obtain ⟨hv, hvp⟩ := List.mem_filter.mp (List.argmax_mem hmax)
      refine ⟨v, hv, by simpa using hvp, ?_⟩
      intro u hu hpre
      have hmem : u ∈ prefixes := List.mem_filter.mpr ⟨hu, by simpa using hpre⟩
      exact List.le_of_mem_argmax (f := fun u => u.mountPath.length) hmem hmax

/-- Mount paths that are prefixes of one path and have the same length are equal. -/
theorem IsMount.lt_of_ne (h : IsMount vfsList path v) {u : VfsT V} (hu : u ∈ vfsList)
    (hbegin : u.mountPath <+: path) (hne : u.mountPath ≠ v.mountPath) :
  commonLength path u.mountPath < v.mountPath.length
  := by
  rw [commonLength_of_isPrefix hbegin]
  apply lt_of_le_of_ne (h.longest u hu hbegin)
  intro hlen
  exact hne ((List.prefix_of_prefix_length_le hbegin h.isPrefix hlen.le).eq_of_length hlen)

/-- The mount paths that are not prefixes of the path have less in common with it than `m`
characters, or, behind the file system, no more than `m`. -/
def Outdone (pre post : List (VfsT V)) (path : Str) (m : ℕ) : Prop :=
  (∀ u ∈ pre, ¬ u.mountPath <+: path → commonLength path u.mountPath < m) ∧
    ∀ u ∈ post, ¬ u.mountPath <+: path → commonLength path u.mountPath ≤ m

/-- The file system that `vfs_lookup` continues in is the first one with the most in common with the
path. -/
theorem selected_eq_some {rest : Str} :
  selected vfsList path = some (v, rest) →
    IsFirst vfsList path v ∧ rest = path.drop (commonLength path v.mountPath)
  := by
  intro h
  rcases findLongestMountPath_spec vfsList path with ⟨heq, -⟩ | ⟨w, heq, hfirst⟩
  · simp [selected, heq] at h
  · simp only [selected, heq, Option.map_some, Option.some.injEq, Prod.mk.injEq] at h
    obtain ⟨rfl, rfl⟩ := h
    exact ⟨hfirst, rfl⟩

theorem IsFirst.unique {w : VfsT V} (hv : IsFirst vfsList path v) (hw : IsFirst vfsList path w) :
  v = w
  := by
  obtain ⟨pre, post, rfl, -, hpre, hpost⟩ := hv
  obtain ⟨pre', post', heq, -, hpre', hpost'⟩ := hw
  rcases List.append_eq_append_iff.mp heq with ⟨mid, rfl, hmid⟩ | ⟨mid, rfl, hmid⟩
  · cases mid with
    | nil => simpa using (List.cons.inj hmid).1
    | cons x mid =>
        obtain ⟨rfl, rfl⟩ := List.cons.inj hmid
        have hlt := hpre' v (by simp)
        have hle := hpost w (by simp)
        omega
  · cases mid with
    | nil => simpa using (List.cons.inj hmid).1.symm
    | cons x mid =>
        obtain ⟨rfl, rfl⟩ := List.cons.inj hmid
        have hlt := hpre w (by simp)
        have hle := hpost' v (by simp)
        omega

theorem IsFirst.selected (h : IsFirst vfsList path v) :
  selected vfsList path = some (v, path.drop (commonLength path v.mountPath))
  := by
  rcases findLongestMountPath_spec vfsList path with ⟨-, hzero⟩ | ⟨w, heq, hfirst⟩
  · obtain ⟨pre, post, rfl, hpos, -, -⟩ := h
    have hv := hzero v (by simp)
    omega
  · rw [h.unique hfirst]
    simp [Vfs.selected, heq]

/-- The first file system with the most in common with the path is the one of the path exactly when
the other mount paths are outdone by its mount path. -/
theorem IsMount.isFirst_iff {pre post : List (VfsT V)} (h : IsMount (pre ++ v :: post) path v)
    (hnodup : ((pre ++ v :: post).map VfsT.mountPath).Nodup) (hpos : 0 < v.mountPath.length) :
  IsFirst (pre ++ v :: post) path v ↔ Outdone pre post path v.mountPath.length
  := by
  have hlen := commonLength_of_isPrefix h.isPrefix
  rw [List.map_append, List.map_cons] at hnodup
  have hne : ∀ u ∈ pre ++ post, u.mountPath ≠ v.mountPath := by
    intro u hu heq
    have hperm := (List.nodup_middle.mp hnodup)
    rw [List.nodup_cons, ← List.map_append, ← heq] at hperm
    exact hperm.1 (List.mem_map_of_mem hu)
  have hnotMem : v ∉ pre ∧ v ∉ post := by
    constructor
    · exact fun hv => hne v (by simp [hv]) rfl
    · exact fun hv => hne v (by simp [hv]) rfl
  constructor
  · rintro ⟨pre', post', heq, -, hpre, hpost⟩
    obtain ⟨rfl, -, rfl⟩ := (List.append_cons_inj_of_notMem hnotMem.1 hnotMem.2).mp heq
    rw [hlen] at hpre hpost
    exact ⟨fun u hu _ => hpre u hu, fun u hu _ => hpost u hu⟩
  · rintro ⟨hpre, hpost⟩
    refine ⟨pre, post, rfl, by omega, ?_, ?_⟩
    · intro u hu
      rw [hlen]
      by_cases hbegin : u.mountPath <+: path
      · exact h.lt_of_ne (by simp [hu]) hbegin (hne u (by simp [hu]))
      · exact hpre u hu hbegin
    · intro u hu
      rw [hlen]
      by_cases hbegin : u.mountPath <+: path
      · exact (h.lt_of_ne (by simp [hu]) hbegin (hne u (by simp [hu]))).le
      · exact hpost u hu hbegin

theorem slash_isPrefix (h : path.head? = some slash) :
  [slash] <+: path
  := by
  cases path with
  | nil => simp at h
  | cons p path => simpa using h.symm

/-- `vfs_lookup` of an absolute path goes on in the file system of the path, with the rest of the
path, exactly when the mount paths that are not prefixes of the path are outdone. -/
theorem mount_selected_iff (vfsList : List (VfsT V)) (path : Str)
    (hroot : ∃ r ∈ vfsList, r.mountPath = [slash])
    (hnodup : (vfsList.map VfsT.mountPath).Nodup) (habs : path.head? = some slash) :
  ∃ pre v post, vfsList = pre ++ v :: post ∧ IsMount vfsList path v ∧
    (selected vfsList path = some (v, path.drop v.mountPath.length) ↔
      Outdone pre post path v.mountPath.length) ∧
    (Outdone pre post path v.mountPath.length → ∀ ops res,
      vfsLookup ops vfsList path res =
        some (lookupIn ops v (path.drop v.mountPath.length) res))
  := by
  obtain ⟨r, hr, hslash⟩ := hroot
  have hbegin := slash_isPrefix habs
  rw [← hslash] at hbegin
  obtain ⟨v, hv⟩ := exists_isMount hr hbegin
  have hpos : 0 < v.mountPath.length := by
    have hle := hv.longest r hr hbegin
    simp only [hslash, List.length_singleton] at hle
    omega
  obtain ⟨pre, post, rfl⟩ := List.append_of_mem hv.mem
  have hfirst := hv.isFirst_iff hnodup hpos
  have hlen := commonLength_of_isPrefix hv.isPrefix
  have hselected : Outdone pre post path v.mountPath.length →
      selected (pre ++ v :: post) path = some (v, path.drop v.mountPath.length) := by
    intro hout
    rw [(hfirst.mpr hout).selected, hlen]
  refine ⟨pre, v, post, rfl, hv, ⟨?_, hselected⟩, ?_⟩
  · intro hsel
    exact hfirst.mp (selected_eq_some hsel).1
  · intro hout ops res
    have hne : path.length ≠ 0 := by
      intro hzero
      rw [List.length_eq_zero_iff.mp hzero] at habs
      simp at habs
    rw [vfsLookup, if_neg (by omega), if_neg (by simp [habs]), hselected hout]
    rfl

/-- The mounts that the kernel makes, in the order of its list. -/
abbrev rootAndDev : List (VfsT ℕ) :=
  [⟨[0x2f], some 0⟩, ⟨[0x2f, 0x64, 0x65, 0x76, 0x2f], some 1⟩]

/-- With file systems at `/` and `/dev/`, the path `/dev/c` is looked up in the second one. -/
theorem dev_selected :
  ∃ pre v post, rootAndDev = pre ++ v :: post ∧
    IsMount rootAndDev [0x2f, 0x64, 0x65, 0x76, 0x2f, 0x63] v ∧
    (selected rootAndDev [0x2f, 0x64, 0x65, 0x76, 0x2f, 0x63] =
        some (v, [0x2f, 0x64, 0x65, 0x76, 0x2f, 0x63].drop v.mountPath.length) ↔
      Outdone pre post [0x2f, 0x64, 0x65, 0x76, 0x2f, 0x63] v.mountPath.length) ∧
    (Outdone pre post [0x2f, 0x64, 0x65, 0x76, 0x2f, 0x63] v.mountPath.length → ∀ ops res,
      vfsLookup ops rootAndDev [0x2f, 0x64, 0x65, 0x76, 0x2f, 0x63] res =
        some (lookupIn ops v ([0x2f, 0x64, 0x65, 0x76, 0x2f, 0x63].drop v.mountPath.length) res))
  := mount_selected_iff rootAndDev [0x2f, 0x64, 0x65, 0x76, 0x2f, 0x63] (by simp) (by decide) rfl

/-- With the same file systems, `/de` belongs to the first one, which would look up the name `de`;
`vfs_lookup` continues in the second one, with nothing left of the path. -/
theorem de_selected_in_dev :
  IsMount rootAndDev [0x2f, 0x64, 0x65] ⟨[0x2f], some 0⟩ ∧
    selected rootAndDev [0x2f, 0x64, 0x65] =
      some (⟨[0x2f, 0x64, 0x65, 0x76, 0x2f], some 1⟩, []) ∧
    ∀ ops res, vfsLookup ops rootAndDev [0x2f, 0x64, 0x65] res = some (0, 1)
  := by
  refine ⟨⟨by simp, by decide, ?_⟩, rfl, fun _ _ => rfl⟩
  intro u hu hbegin
  simp only [List.mem_cons, List.not_mem_nil, or_false] at hu
  rcases hu with rfl | rfl
  · exact le_rfl
  · exact absurd hbegin (by decide)

end Vfs
