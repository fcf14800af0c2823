import Mathlib.Tactic

/-!
# Frames of a list of regions

A region is an interval of addresses.  Cut into pieces of a fixed size, its frames, the
regions of a list have the frames `frames u rs`, one region after the other; the position in
this list is the index of a frame.  In ascending regions the frames ascend with their
indices and do not overlap.
-/

namespace Frames

/-- The addresses from `addr` to `addr + len`. -/
structure Region where
  addr : ℕ
  len : ℕ

/-- The address lies in the region. -/
def Region.Contains (r : Region) (x : ℕ) : Prop :=
  r.addr ≤ x ∧ x < r.addr + r.len

variable (u : ℕ)

/-- The addresses of the frames of a region. -/
def Region.frames (r : Region) : List ℕ :=
  (List.range (r.len / u)).map fun k => r.addr + u * k

/-- The addresses of the frames of a list of regions, in order. -/
def frames (rs : List Region) : List ℕ :=
  rs.flatMap (Region.frames u)

/-- Each region lies below those after it. -/
def Ascending (rs : List Region) : Prop :=
  rs.Pairwise fun r r' => r.addr + r.len ≤ r'.addr

instance (rs : List Region) : Decidable (Ascending rs) :=
  inferInstanceAs (Decidable (rs.Pairwise _))

/-- Each region lies below those after it that are not empty. -/
def Sorted (rs : List Region) : Prop :=
  rs.Pairwise fun r r' => 0 < r'.len → r.addr + r.len ≤ r'.addr

variable {u} {rs : List Region} {r : Region}

theorem frames_cons :
  frames u (r :: rs) = r.frames u ++ frames u rs
  := List.flatMap_cons

@[simp]
theorem Region.length_frames :
  (r.frames u).length = r.len / u
  := by
  simp [Region.frames]

theorem Region.getElem?_frames {k : ℕ} (h : k < r.len / u) :
  (r.frames u)[k]? = some (r.addr + u * k)
  := by
  simp [Region.frames, h]

/-- The frames with the first indices are those of the first region. -/
theorem getElem?_frames_cons_of_lt {i : ℕ} (h : i < r.len / u) :
  (frames u (r :: rs))[i]? = some (r.addr + u * i)
  := by
  rw [frames_cons, List.getElem?_append_left (by simpa using h), Region.getElem?_frames h]

/-- The frames of the other regions follow. -/
theorem getElem?_frames_cons_add (i : ℕ) :
  (frames u (r :: rs))[r.len / u + i]? = (frames u rs)[i]?
  := by
  rw [frames_cons, List.getElem?_append_right (by simp)]
  simp

theorem mem_frames {x : ℕ} :
  x ∈ frames u rs ↔ ∃ r ∈ rs, ∃ k < r.len / u, x = r.addr + u * k
  := by
  simp only [frames, List.mem_flatMap, Region.frames, List.mem_map, List.mem_range]
  constructor
  · rintro ⟨r, hr, k, hk, rfl⟩
    exact ⟨r, hr, k, hk, rfl⟩
  · rintro ⟨r, hr, k, hk, rfl⟩
    exact ⟨r, hr, k, hk, rfl⟩

/-- The frames of a region lie inside it. -/
theorem add_le_of_lt_div {k : ℕ} (h : k < r.len / u) :
  r.addr + u * k + u ≤ r.addr + r.len
  := by
  have hk : u * (k + 1) ≤ r.len := (Nat.mul_le_mul_left u h).trans (Nat.mul_div_le _ _)
  rw [Nat.mul_succ] at hk
  omega

/-- There are as many frames as fit into the regions. -/
theorem mul_length_frames (hdvd : ∀ r ∈ rs, u ∣ r.len) :
  u * (frames u rs).length = (rs.map Region.len).sum
  := by
  induction rs with
  | nil => simp [frames]
  | cons r rs ih =>
      have hr := Nat.mul_div_cancel' (hdvd r List.mem_cons_self)
      rw [frames_cons, List.length_append, Region.length_frames, Nat.mul_add, hr,
        ih fun r' hr' => hdvd r' (List.mem_cons_of_mem r hr')]
      simp

/-- Ascending regions between `a` and `b` are together no longer than that. -/
theorem Ascending.sum_len_le (h : Ascending rs) {a b : ℕ} (hab : a ≤ b)
    (hrs : ∀ r ∈ rs, a ≤ r.addr ∧ r.addr + r.len ≤ b) :
  a + (rs.map Region.len).sum ≤ b
  := by
  induction rs generalizing a with
  | nil => simpa using hab
  | cons r rs ih =>
      obtain ⟨hr, hasc⟩ := List.pairwise_cons.mp h
      obtain ⟨har, hrb⟩ := hrs r List.mem_cons_self
      have hrest := ih hasc hrb fun r' hr' =>
        ⟨hr r' hr', (hrs r' (List.mem_cons_of_mem r hr')).2⟩
      simp only [List.map_cons, List.sum_cons]
      omega

/-- An address lies in one of the regions at most. -/
theorem Ascending.eq_of_contains (h : Ascending rs) {r' : Region} {x : ℕ} (hr : r ∈ rs) (hr' : r' ∈ rs)
    (hx : r.Contains x) (hx' : r'.Contains x) :
  r = r'
  := by
  obtain ⟨hle, hlt⟩ := hx
  obtain ⟨hle', hlt'⟩ := hx'
  induction rs with
  | nil => simp at hr
  | cons q rs ih =>
      obtain ⟨hq, hrs⟩ := List.pairwise_cons.mp h
      rcases List.mem_cons.mp hr with heq | hmem
      · rcases List.mem_cons.mp hr' with heq' | hmem'
        · rw [heq, heq']
        · have hbelow := hq r' hmem'
          rw [← heq] at hbelow
          omega
      · rcases List.mem_cons.mp hr' with heq' | hmem'
        · have hbelow := hq r hmem
          rw [← heq'] at hbelow
          omega
        · apply ih hrs hmem hmem'

/-- The frames of sorted regions ascend and do not overlap. -/
theorem Sorted.pairwise_frames (h : Sorted rs) :
  (frames u rs).Pairwise fun x y => x + u ≤ y
  := by
  induction rs with
  | nil => simp [frames]
  | cons r rs ih =>
      obtain ⟨hr, hrs⟩ := List.pairwise_cons.mp h
      rw [frames_cons, List.pairwise_append]
      refine ⟨?_, ih hrs, ?_⟩
      · rw [Region.frames, List.pairwise_map]
        apply List.pairwise_lt_range.imp
        intro a b hab
        have hmul := Nat.mul_le_mul_left u (Nat.succ_le_of_lt hab)
        rw [Nat.mul_succ] at hmul
        omega
      · intro x hx y hy
        obtain ⟨k, hk, rfl⟩ := by simpa [Region.frames] using hx
        obtain ⟨r', hr', j, hj, rfl⟩ := mem_frames.mp hy
        have hpos : 0 < r'.len := Nat.pos_of_ne_zero fun hzero => by simp [hzero] at hj
        have hle := hr r' hr' hpos
        have hin := add_le_of_lt_div (r := r) hk
        omega

theorem Ascending.sorted (h : Ascending rs) :
  Sorted rs
  := by
  apply List.Pairwise.imp _ h
  exact fun hle _ => hle

/-- Regions are sorted when their addresses ascend and no address lies in two of them. -/
theorem sorted_of_disjoint (hasc : rs.Pairwise fun r r' => r.addr ≤ r'.addr)
    (hdisjoint : rs.Pairwise fun r r' => ∀ x, r.Contains x → ¬ r'.Contains x) :
  Sorted rs
  := by
  apply (hasc.and hdisjoint).imp
  rintro r r' ⟨hle, hapart⟩ hpos
  by_contra hover
  exact hapart r'.addr ⟨hle, by omega⟩ ⟨le_rfl, by omega⟩

/-- The frames of ascending regions ascend and do not overlap. -/
theorem Ascending.pairwise_frames (h : Ascending rs) :
  (frames u rs).Pairwise fun x y => x + u ≤ y
  := h.sorted.pairwise_frames

/-- In ascending regions different indices have different frames. -/
theorem Ascending.nodup_frames (h : Ascending rs) (hu : 0 < u) :
  (frames u rs).Nodup
  := by
  apply h.pairwise_frames.imp
  intro x y hxy
  omega

/-! ### The addresses of regions -/

/-- The regions have no address in common. -/
def Region.Apart (r r' : Region) : Prop :=
  r.addr + r.len ≤ r'.addr ∨ r'.addr + r'.len ≤ r.addr

/-- The addresses that lie in some region of a list. -/
def addresses : List Region → Finset ℕ
  | [] => ∅
  | r :: rs => Finset.Ico r.addr (r.addr + r.len) ∪ addresses rs

theorem mem_addresses {x : ℕ} :
  x ∈ addresses rs ↔ ∃ r ∈ rs, r.Contains x
  := by
  induction rs with
  | nil => simp [addresses]
  | cons r rs ih => simp [addresses, ih, Region.Contains]

theorem card_addresses_le :
  (addresses rs).card ≤ (rs.map Region.len).sum
  := by
  induction rs with
  | nil => simp [addresses]
  | cons r rs ih =>
      have hunion := Finset.card_union_le (Finset.Ico r.addr (r.addr + r.len)) (addresses rs)
      rw [Nat.card_Ico] at hunion
      rw [addresses, List.map_cons, List.sum_cons]
      omega

theorem card_addresses (h : rs.Pairwise Region.Apart) :
  (addresses rs).card = (rs.map Region.len).sum
  := by
  induction rs with
  | nil => simp [addresses]
  | cons r rs ih =>
      obtain ⟨hr, hrs⟩ := List.pairwise_cons.mp h
      have hdisjoint : Disjoint (Finset.Ico r.addr (r.addr + r.len)) (addresses rs) := by
        rw [Finset.disjoint_left]
        intro x hx hmem
        rw [Finset.mem_Ico] at hx
        obtain ⟨r', hr', hle, hlt⟩ := mem_addresses.mp hmem
        rcases hr r' hr' with hbelow | habove
        · omega
        · omega
      rw [addresses, Finset.card_union_of_disjoint hdisjoint, Nat.card_Ico, ih hrs, List.map_cons,
        List.sum_cons]
      omega

/-- Regions that are apart and lie in others fill them when they are together as long. -/
theorem contains_of_sum_le {rs' : List Region} (hapart : rs.Pairwise Region.Apart)
    (hin : ∀ r ∈ rs, ∀ x, r.Contains x → ∃ r' ∈ rs', r'.Contains x)
    (hsum : (rs'.map Region.len).sum ≤ (rs.map Region.len).sum) {x : ℕ} (hx : ∃ r' ∈ rs', r'.Contains x) :
  ∃ r ∈ rs, r.Contains x
  := by
  have hsubset : addresses rs ⊆ addresses rs' := by
    intro y hy
    obtain ⟨r, hr, hcontains⟩ := mem_addresses.mp hy
    exact mem_addresses.mpr (hin r hr y hcontains)
  have hcard : (addresses rs').card ≤ (addresses rs).card := by
    rw [card_addresses hapart]
    exact card_addresses_le.trans hsum
  rw [← mem_addresses, Finset.eq_of_subset_of_card_le hsubset hcard, mem_addresses]
  exact hx

end Frames
