import Aenix.Pfa.Basic

/-!
# Frame maps

The regions of the allocator are given as `fill_memory_map` and the rounding in `pfa_init`
leave them: aligned to pages, ascending and disjoint, above the first megabyte, below the
end of the address space, and with `page_frames.len` frames together (`FrameMap`).  In such a
map `paddr_for_idx` gives the frame with an index, `idx_for_paddr` the index of the frame
around an address, and `fits_in_one_mmap_entry` decides whether frames with consecutive
indices lie in one region.
-/

open Aenix

namespace Pfa

/-- A region of the memory map as an interval. -/
def MemoryMap.region (r : MemoryMap) : Frames.Region :=
  ⟨r.addr.toNat, r.len.toNat⟩

/-- The addresses of the frames of a memory map, by index. -/
def framesOf (rs : List MemoryMap) : List ℕ :=
  Frames.frames 4096 (rs.map MemoryMap.region)

/-- The addresses of the frames of the allocator, by index. -/
def State.frames (s : State) : List ℕ :=
  framesOf s.mmap

/-- Regions that are aligned to pages, ascending and disjoint. -/
structure Regions (rs : List MemoryMap) : Prop where
  aligned : ∀ r ∈ rs, 4096 ∣ r.addr.toNat ∧ 4096 ∣ r.len.toNat
  ascending : Frames.Ascending (rs.map MemoryMap.region)
  below : ∀ r ∈ rs, r.addr.toNat + r.len.toNat ≤ 2 ^ 32

/-- The frames can be numbered through: the regions are aligned to pages, ascending and disjoint, and end
before the end of the address space, and there are `page_frames.len` frames.  Regions may be empty. -/
structure Numbering (s : State) : Prop where
  aligned : ∀ r ∈ s.mmap, 4096 ∣ r.addr.toNat ∧ 4096 ∣ r.len.toNat
  ascending : s.mmap.Pairwise fun r r' => r.addr ≤ r'.addr
  disjoint : s.mmap.Pairwise fun r r' => ∀ x, r.region.Contains x → ¬ r'.region.Contains x
  below : ∀ r ∈ s.mmap, r.addr.toNat + r.len.toNat < 2 ^ 32
  total : (s.mmap.map fun r => r.len.toNat).sum = s.len.toNat * 4096
  small : s.len.toNat * 4096 < 2 ^ 32

/-- The memory map of the allocator is as `pfa_init` leaves it. -/
structure FrameMap (s : State) : Prop where
  aligned : ∀ r ∈ s.mmap, 4096 ∣ r.addr.toNat ∧ 4096 ∣ r.len.toNat
  ascending : Frames.Ascending (s.mmap.map MemoryMap.region)
  above : ∀ r ∈ s.mmap, oneMb < r.addr
  below : ∀ r ∈ s.mmap, r.addr.toNat + r.len.toNat < 2 ^ 32
  total : (s.mmap.map fun r => r.len.toNat).sum = s.len.toNat * 4096
  pos : 0 < s.len

/-! ### Searching for a region -/

theorem getElem?_framesOf_cons_of_lt {r : MemoryMap} {rs : List MemoryMap} {i : ℕ}
    (h : i < r.len.toNat / 4096) :
  (framesOf (r :: rs))[i]? = some (r.addr.toNat + 4096 * i)
  := Frames.getElem?_frames_cons_of_lt h

theorem getElem?_framesOf_cons_add (r : MemoryMap) (rs : List MemoryMap) (i : ℕ) :
  (framesOf (r :: rs))[r.len.toNat / 4096 + i]? = (framesOf rs)[i]?
  := Frames.getElem?_frames_cons_add i

theorem length_framesOf_cons (r : MemoryMap) (rs : List MemoryMap) :
  (framesOf (r :: rs)).length = r.len.toNat / 4096 + (framesOf rs).length
  := by
  simp [framesOf, Frames.frames_cons, MemoryMap.region]

theorem Regions.mul_length {rs : List MemoryMap} (h : Regions rs) :
  4096 * (framesOf rs).length = (rs.map fun r => r.len.toNat).sum
  := by
  have hmul : 4096 * (framesOf rs).length = _ := Frames.mul_length_frames (by
    intro r hr
    obtain ⟨m, hm, rfl⟩ := List.mem_map.mp hr
    exact (h.aligned m hm).2)
  rw [hmul, List.map_map]
  rfl

theorem Regions.sum_le {rs : List MemoryMap} (h : Regions rs) {a b : ℕ} (hab : a ≤ b)
    (hrs : ∀ r ∈ rs, a ≤ r.addr.toNat ∧ r.addr.toNat + r.len.toNat ≤ b) :
  a + (rs.map fun r => r.len.toNat).sum ≤ b
  := by
  have hsum := h.ascending.sum_len_le hab (by
    intro r hr
    obtain ⟨m, hm, rfl⟩ := List.mem_map.mp hr
    exact hrs m hm)
  rwa [List.map_map] at hsum

theorem Regions.length_le {rs : List MemoryMap} (h : Regions rs) :
  (framesOf rs).length ≤ 2 ^ 20
  := by
  have hsum := h.sum_le (Nat.zero_le (2 ^ 32)) fun r hr => ⟨Nat.zero_le _, h.below r hr⟩
  have hmul := h.mul_length
  omega

/-- The search finds the region in which the frame with index `i` lies, and the offset of
the frame in it; it fails when there is no such frame. -/
theorem findEntry_spec {rs : List MemoryMap} (haligned : ∀ r ∈ rs, 4096 ∣ r.len.toNat)
    {c offset : UInt32} {i : ℕ}
    (htotal : c.toNat + (rs.map fun r => r.len.toNat).sum < 2 ^ 32)
    (hoffset : offset.toNat = c.toNat + 4096 * i) :
  (findEntry offset rs c = none ∧ (framesOf rs).length ≤ i) ∨
    ∃ r w k, findEntry offset rs c = some (r, w) ∧ r ∈ rs ∧
      w.toNat = 4096 * k ∧ k ≤ i ∧ k < r.len.toNat / 4096 ∧
      ∀ j, k + j < r.len.toNat / 4096 →
        (framesOf rs)[i + j]? = some (r.addr.toNat + 4096 * (k + j))
  := by
  induction rs generalizing c i with
  | nil =>
      left
      simp [findEntry, framesOf, Frames.frames]
  | cons r rs ih =>
      simp only [List.map_cons, List.sum_cons] at htotal
      obtain ⟨n, hn⟩ := haligned r List.mem_cons_self
      have hdiv : r.len.toNat / 4096 = n := by omega
      have hadd : (c + r.len).toNat = c.toNat + r.len.toNat := by
        rw [UInt32.toNat_add]
        omega
      by_cases hle : c + r.len ≤ offset
      · -- the frame lies in a later region
        have hni : n ≤ i := by
          rw [UInt32.le_iff_toNat_le] at hle
          omega
        obtain ⟨m, rfl⟩ := Nat.exists_eq_add_of_le hni
        have hrec := ih (fun r' hr' => haligned r' (List.mem_cons_of_mem r hr'))
          (c := c + r.len) (i := m) (by omega) (by omega)
        rw [findEntry, if_pos hle]
        rcases hrec with ⟨hnone, hlen⟩ | ⟨r', w, k, hsome, hr', hw, hki, hk, hframes⟩
        · left
          rw [length_framesOf_cons, hdiv]
          exact ⟨hnone, by omega⟩
        · right
          refine ⟨r', w, k, hsome, List.mem_cons_of_mem r hr', hw, by omega, hk, ?_⟩
          intro j hj
          rw [← hframes j hj, ← getElem?_framesOf_cons_add r rs, hdiv, Nat.add_assoc]
      · right
        have hlt : offset.toNat < c.toNat + r.len.toNat := by
          rw [UInt32.not_le, UInt32.lt_iff_toNat_lt] at hle
          omega
        refine ⟨r, offset - c, i, by rw [findEntry, if_neg hle],
          List.mem_cons_self, ?_, le_rfl, by omega, ?_⟩
        · rw [UInt32.toNat_sub]
          have := offset.toNat_lt
          omega
        · intro j hj
          apply getElem?_framesOf_cons_of_lt hj

/-! ### Frames and indices -/

variable {s : State}

theorem Numbering.aligned_len (h : Numbering s) :
  ∀ r ∈ s.mmap, 4096 ∣ r.len.toNat
  := fun r hr => (h.aligned r hr).2

theorem Numbering.sorted (h : Numbering s) :
  Frames.Sorted (s.mmap.map MemoryMap.region)
  := by
  apply Frames.sorted_of_disjoint
  · rw [List.pairwise_map]
    exact h.ascending.imp fun hle => UInt32.le_iff_toNat_le.mp hle
  · rw [List.pairwise_map]
    exact h.disjoint

theorem Numbering.length_frames (h : Numbering s) :
  s.frames.length = s.len.toNat
  := by
  have hmul : 4096 * s.frames.length = _ := Frames.mul_length_frames (by
    intro r hr
    obtain ⟨m, hm, rfl⟩ := List.mem_map.mp hr
    apply h.aligned_len m hm)
  have hsum : (List.map Frames.Region.len (s.mmap.map MemoryMap.region)).sum
      = s.len.toNat * 4096 := by
    rw [List.map_map]
    apply h.total
  omega

theorem Numbering.len_lt (h : Numbering s) :
  s.len.toNat < 2 ^ 20
  := by
  have hsmall := h.small
  omega

theorem Numbering.total_lt (h : Numbering s) :
  (0 : UInt32).toNat + (s.mmap.map fun r => r.len.toNat).sum < 2 ^ 32
  := by
  rw [UInt32.toNat_zero, h.total, Nat.zero_add]
  exact h.small

theorem toNat_mul_fourKb {b : UInt32} (h : b.toNat < 2 ^ 20) :
  (b * fourKb).toNat = (0 : UInt32).toNat + 4096 * b.toNat
  := by
  rw [UInt32.toNat_mul, UInt32.toNat_zero, toNat_fourKb]
  omega

/-- `paddr_for_idx` gives the frame with the index. -/
theorem Numbering.toNat_paddrForIdx (h : Numbering s) {b : UInt32} {f : ℕ}
    (hf : s.frames[b.toNat]? = some f) :
  (paddrForIdx s b).toNat = f
  := by
  have hlt : b.toNat < s.frames.length := (List.getElem?_eq_some_iff.mp hf).1
  have hlen := h.len_lt
  rw [h.length_frames] at hlt
  rcases findEntry_spec h.aligned_len (i := b.toNat) h.total_lt (toNat_mul_fourKb (by omega))
    with ⟨-, hge⟩ | ⟨r, w, k, hsome, hr, hw, hkb, hk, hframes⟩
  · rw [← State.frames, h.length_frames] at hge
    omega
  · have hfr := hframes 0 hk
    rw [Nat.add_zero, ← State.frames, hf] at hfr
    have hbelow := h.below r hr
    rw [paddrForIdx, hsome, UInt32.toNat_add, hw]
    simp only [Option.some.injEq] at hfr
    omega

/-- `fits_in_one_mmap_entry` tells whether the `n` frames from index `b` on are in the region of the
first of them. -/
theorem Numbering.fits_cases (h : Numbering s) {b n : UInt32} (hbn : b.toNat + n.toNat < 2 ^ 20) :
  (fitsInOneMmapEntry s b n = false ∧ s.len.toNat ≤ b.toNat) ∨
    ∃ r ∈ s.mmap, ∃ k, k < r.len.toNat / 4096 ∧
      (fitsInOneMmapEntry s b n = true ↔ k + n.toNat ≤ r.len.toNat / 4096) ∧
      ∀ j, k + j < r.len.toNat / 4096 → s.frames[b.toNat + j]? = some (r.addr.toNat + 4096 * (k + j))
  := by
  rw [fitsInOneMmapEntry]
  rcases findEntry_spec h.aligned_len (i := b.toNat) h.total_lt (toNat_mul_fourKb (by omega))
    with ⟨hnone, hge⟩ | ⟨r, w, k, hsome, hr, hw, hkb, hk, hframes⟩
  · left
    rw [← State.frames, h.length_frames] at hge
    rw [hnone]
    exact ⟨rfl, hge⟩
  · right
    refine ⟨r, hr, k, hk, ?_, hframes⟩
    have hn := toNat_mul_fourKb (b := n) (by omega)
    rw [hsome]
    simp only [decide_eq_true_eq, UInt32.le_iff_toNat_le, UInt32.toNat_add, hw, hn, UInt32.toNat_zero]
    omega

/-- The loop of `idx_for_paddr`, from a region on before which there are `m` frames. -/
theorem toNat_idxForPaddrFrom {rs : List MemoryMap} (haligned : ∀ r ∈ rs, 4096 ∣ r.len.toNat)
    (hsorted : Frames.Sorted (rs.map MemoryMap.region))
    (hbelow : ∀ r ∈ rs, r.addr.toNat + r.len.toNat < 2 ^ 32) {c paddr : UInt32}
    {m i f d : ℕ} (len : UInt32) (hc : c.toNat = 4096 * m)
    (htotal : c.toNat + (rs.map fun r => r.len.toNat).sum < 2 ^ 32)
    (hf : (framesOf rs)[i]? = some f) (hd : d < 4096) (hpaddr : paddr.toNat = f + d) :
  (idxForPaddrFrom len paddr rs c).toNat = m + i
  := by
  induction rs generalizing c m i with
  | nil => simp [framesOf, Frames.frames] at hf
  | cons r rs ih =>
      simp only [List.map_cons, List.sum_cons] at htotal
      obtain ⟨hr, hsorted⟩ := List.pairwise_cons.mp hsorted
      obtain ⟨n, hn⟩ := haligned r List.mem_cons_self
      have hdiv : r.len.toNat / 4096 = n := by omega
      have hend : (r.addr + r.len).toNat = r.addr.toNat + r.len.toNat := by
        have := hbelow r List.mem_cons_self
        rw [UInt32.toNat_add]
        omega
      by_cases hi : i < n
      · -- the frame lies in this region
        rw [getElem?_framesOf_cons_of_lt (by omega)] at hf
        obtain rfl : r.addr.toNat + 4096 * i = f := by simpa using hf
        have hlt : paddr < r.addr + r.len := by
          rw [UInt32.lt_iff_toNat_lt]
          omega
        have hsub : (paddr - r.addr).toNat = 4096 * i + d := by
          rw [UInt32.toNat_sub_of_le _ _ (by rw [UInt32.le_iff_toNat_le]; omega)]
          omega
        rw [idxForPaddrFrom, if_pos hlt, UInt32.toNat_div, UInt32.toNat_add, hc, hsub,
          toNat_fourKb]
        omega
      · obtain ⟨j, rfl⟩ := Nat.exists_eq_add_of_le (not_lt.mp hi)
        rw [← hdiv, getElem?_framesOf_cons_add] at hf
        have hmem : f ∈ framesOf rs := List.mem_of_getElem? hf
        obtain ⟨r', hr', k, hk, rfl⟩ := Frames.mem_frames.mp hmem
        have hpos : 0 < r'.len := Nat.pos_of_ne_zero fun hzero => by simp [hzero] at hk
        have hle := hr r' hr' hpos
        have hge : ¬ paddr < r.addr + r.len := by
          rw [UInt32.lt_iff_toNat_lt]
          simp only [MemoryMap.region] at hle
          omega
        have hadd : (c + r.len).toNat = 4096 * (m + n) := by
          rw [UInt32.toNat_add]
          omega
        rw [idxForPaddrFrom, if_neg hge, ih (fun r' hr' => haligned r' (List.mem_cons_of_mem r hr'))
          hsorted (fun r' hr' => hbelow r' (List.mem_cons_of_mem r hr')) hadd (by omega) hf]
        omega

/-- `idx_for_paddr` of an address in a frame gives the index of the frame. -/
theorem Numbering.toNat_idxForPaddr (h : Numbering s) {paddr : UInt32} {i f d : ℕ}
    (hf : s.frames[i]? = some f) (hd : d < 4096) (hpaddr : paddr.toNat = f + d) :
  (idxForPaddr s paddr).toNat = i
  := by
  have hidx := toNat_idxForPaddrFrom h.aligned_len h.sorted h.below (m := 0) s.len rfl
    h.total_lt hf hd hpaddr
  rw [idxForPaddr, hidx]
  omega

/-! ### Frame maps of the allocator -/

theorem FrameMap.aligned_len (h : FrameMap s) :
  ∀ r ∈ s.mmap, 4096 ∣ r.len.toNat
  := fun r hr => (h.aligned r hr).2

/-- The first megabyte is not managed, so the indices stay away from `2 ^ 20`. -/
theorem FrameMap.len_lt (h : FrameMap s) :
  s.len.toNat + 256 < 2 ^ 20
  := by
  have hsum := h.ascending.sum_len_le (a := 2 ^ 20 + 1) (b := 2 ^ 32) (by norm_num) (by
    intro r hr
    obtain ⟨m, hm, rfl⟩ := List.mem_map.mp hr
    have habove := h.above m hm
    have hbelow := h.below m hm
    rw [UInt32.lt_iff_toNat_lt] at habove
    exact ⟨habove, hbelow.le⟩)
  have hlen : (List.map Frames.Region.len (s.mmap.map MemoryMap.region)).sum
      = s.len.toNat * 4096 := by
    rw [List.map_map]
    apply h.total
  omega

theorem FrameMap.numbering (h : FrameMap s) :
  Numbering s
  := by
  have hasc := List.pairwise_map.mp h.ascending
  have hlen := h.len_lt
  refine ⟨h.aligned, hasc.imp ?_, hasc.imp ?_, h.below, h.total, by omega⟩
  · intro r r' hle
    rw [UInt32.le_iff_toNat_le]
    exact (Nat.le_add_right _ _).trans hle
  · rintro r r' hle x ⟨-, hlt⟩ ⟨hge, -⟩
    omega

theorem FrameMap.length_frames (h : FrameMap s) :
  s.frames.length = s.len.toNat
  := h.numbering.length_frames

theorem FrameMap.total_lt (h : FrameMap s) :
  (0 : UInt32).toNat + (s.mmap.map fun r => r.len.toNat).sum < 2 ^ 32
  := h.numbering.total_lt

theorem FrameMap.nodup_frames (h : FrameMap s) :
  s.frames.Nodup
  := h.ascending.nodup_frames (by decide)

theorem FrameMap.toNat_paddrForIdx (h : FrameMap s) {b : UInt32} {f : ℕ}
    (hf : s.frames[b.toNat]? = some f) :
  (paddrForIdx s b).toNat = f
  := h.numbering.toNat_paddrForIdx hf

/-- When `fits_in_one_mmap_entry` holds, the frames with the `n` indices from `b` on follow
each other in one region. -/
theorem FrameMap.fits (h : FrameMap s) {b n : UInt32} (hbn : b.toNat + n.toNat < 2 ^ 20)
    (hfits : fitsInOneMmapEntry s b n = true) :
  ∃ r ∈ s.mmap, ∃ k, k + n.toNat ≤ r.len.toNat / 4096 ∧
    ∀ j < n.toNat, s.frames[b.toNat + j]? = some (r.addr.toNat + 4096 * (k + j))
  := by
  rcases h.numbering.fits_cases hbn with ⟨hnot, -⟩ | ⟨r, hr, k, -, hiff, hframes⟩
  · rw [hnot] at hfits
    exact absurd hfits Bool.false_ne_true
  · have hle := hiff.mp hfits
    exact ⟨r, hr, k, hle, fun j hj => hframes j (by omega)⟩

theorem FrameMap.toNat_idxForPaddr (h : FrameMap s) {paddr : UInt32} {i f d : ℕ}
    (hf : s.frames[i]? = some f) (hd : d < 4096) (hpaddr : paddr.toNat = f + d) :
  (idxForPaddr s paddr).toNat = i
  := h.numbering.toNat_idxForPaddr hf hd hpaddr

end Pfa
