import Aenix.Pfa.FrameMap

/-!
# The numbers of frames

`paddr_for_idx`, `idx_for_paddr` and `fits_in_one_mmap_entry` each go through the regions and add up their
lengths.  They agree on the number of a frame, also at the ends of regions and when regions are empty
(`numbering_bijection`).
-/

open Aenix

namespace Pfa

/-- The address of a page that lies in a region. -/
def IsFrame (s : State) (f : ℕ) : Prop :=
  4096 ∣ f ∧ ∃ r ∈ s.mmap, r.region.Contains f

/-- The frame at an address lies in the region. -/
def MemoryMap.ContainsFrame (r : MemoryMap) (f : UInt32) : Prop :=
  r.addr.toNat ≤ f.toNat ∧ f.toNat + 4096 ≤ r.addr.toNat + r.len.toNat

/-- The indices below `page_frames.len` are the numbers of the frames, in ascending order; every address in
a frame has the number of the frame; and frames fit in one region when they all lie in it, in
which case they follow each other. -/
structure FrameBijection (s : State) : Prop where
  bijective : Set.BijOn (fun i => (paddrForIdx s i).toNat) {i | i < s.len} {f | IsFrame s f}
  idx_paddr : ∀ i < s.len, idxForPaddr s (paddrForIdx s i) = i
  idx_inside : ∀ i < s.len, ∀ paddr : UInt32, (paddrForIdx s i).toNat ≤ paddr.toNat →
    paddr.toNat < (paddrForIdx s i).toNat + 4096 → idxForPaddr s paddr = i
  increasing : ∀ i j, i < j → j < s.len → paddrForIdx s i < paddrForIdx s j
  fits_iff : ∀ i n : UInt32, 1 ≤ n → i.toNat + n.toNat ≤ s.len.toNat →
    (fitsInOneMmapEntry s i n = true ↔ ∃ r ∈ s.mmap, ∀ k < n, r.ContainsFrame (paddrForIdx s (i + k)))
  contiguous : ∀ i n : UInt32, 1 ≤ n → i.toNat + n.toNat ≤ s.len.toNat →
    fitsInOneMmapEntry s i n = true →
    ∀ k < n, (paddrForIdx s (i + k)).toNat = (paddrForIdx s i).toNat + k.toNat * 4096

variable {s : State}

theorem Numbering.mem_frames (h : Numbering s) {f : ℕ} :
  f ∈ s.frames ↔ IsFrame s f
  := by
  rw [State.frames, framesOf, Frames.mem_frames, IsFrame]
  constructor
  · rintro ⟨_, hmem, k, hk, rfl⟩
    obtain ⟨r, hr, rfl⟩ := List.mem_map.mp hmem
    simp only [MemoryMap.region] at hk ⊢
    obtain ⟨a, ha⟩ := (h.aligned r hr).1
    refine ⟨⟨a + k, by omega⟩, r, hr, ?_⟩
    simp only [Frames.Region.Contains]
    omega
  · rintro ⟨hdvd, r, hr, hle, hlt⟩
    obtain ⟨⟨a, ha⟩, b, hb⟩ := h.aligned r hr
    obtain ⟨c, rfl⟩ := hdvd
    simp only [MemoryMap.region] at hle hlt
    refine ⟨r.region, List.mem_map_of_mem hr, c - a, ?_, ?_⟩
    · simp only [MemoryMap.region]
      omega
    · simp only [MemoryMap.region]
      omega

/-- The index of a frame further on. -/
theorem toNat_add_idx {i k n len : UInt32} (hk : k < n) (hle : i.toNat + n.toNat ≤ len.toNat) :
  (i + k).toNat = i.toNat + k.toNat ∧ i + k < len
  := by
  have hlen := len.toNat_lt
  rw [UInt32.lt_iff_toNat_lt] at hk
  have hadd : (i + k).toNat = i.toNat + k.toNat := by
    rw [UInt32.toNat_add]
    omega
  refine ⟨hadd, ?_⟩
  rw [UInt32.lt_iff_toNat_lt, hadd]
  omega

theorem toNat_ofNat_idx {k : ℕ} {n : UInt32} (hk : k < n.toNat) :
  (UInt32.ofNat k).toNat = k ∧ UInt32.ofNat k < n
  := by
  have htoNat : (UInt32.ofNat k).toNat = k := by
    rw [UInt32.toNat_ofNat', Nat.mod_eq_of_lt (hk.trans n.toNat_lt)]
  rw [UInt32.lt_iff_toNat_lt, htoNat]
  exact ⟨rfl, hk⟩

/-- Each index has a frame, and `paddr_for_idx` gives it. -/
theorem Numbering.getElem?_frames (h : Numbering s) {i : UInt32} (hi : i < s.len) :
  s.frames[i.toNat]? = some (paddrForIdx s i).toNat
  := by
  have hlt : i.toNat < s.frames.length := by
    rw [h.length_frames]
    exact UInt32.lt_iff_toNat_lt.mp hi
  have hget := List.getElem?_eq_getElem hlt
  rw [hget, h.toNat_paddrForIdx hget]

/-- Every frame has an index. -/
theorem Numbering.exists_idx (h : Numbering s) {f : ℕ} (hf : f ∈ s.frames) :
  ∃ i < s.len, (paddrForIdx s i).toNat = f
  := by
  obtain ⟨k, hk⟩ := List.mem_iff_getElem?.mp hf
  have hlt : k < s.len.toNat := by
    rw [← h.length_frames]
    exact (List.getElem?_eq_some_iff.mp hk).1
  obtain ⟨htoNat, hidx⟩ := toNat_ofNat_idx hlt
  refine ⟨UInt32.ofNat k, hidx, ?_⟩
  apply h.toNat_paddrForIdx
  rw [htoNat]
  exact hk

/-- Frames ascend with their indices and do not overlap. -/
theorem Numbering.paddr_add_le (h : Numbering s) {i j : UInt32} (hij : i < j) (hj : j < s.len) :
  (paddrForIdx s i).toNat + 4096 ≤ (paddrForIdx s j).toNat
  := by
  have hi : i < s.len := UInt32.lt_trans hij hj
  have hpairwise : s.frames.Pairwise fun x y => x + 4096 ≤ y := h.sorted.pairwise_frames
  obtain ⟨hli, hgi⟩ := List.getElem?_eq_some_iff.mp (h.getElem?_frames hi)
  obtain ⟨hlj, hgj⟩ := List.getElem?_eq_some_iff.mp (h.getElem?_frames hj)
  rw [← hgi, ← hgj]
  exact List.pairwise_iff_getElem.mp hpairwise _ _ hli hlj (UInt32.lt_iff_toNat_lt.mp hij)

/-- No frame lies in two regions. -/
theorem Numbering.eq_of_contains (h : Numbering s) {r r' : MemoryMap} {x : ℕ} (hr : r ∈ s.mmap)
    (hr' : r' ∈ s.mmap) (hx : r.region.Contains x) (hx' : r'.region.Contains x) :
  r = r'
  := by
  have hsymm : Std.Symm fun r r' : MemoryMap => ∀ x, r.region.Contains x → ¬ r'.region.Contains x :=
    ⟨fun _ _ hapart y hy hy' => hapart y hy' hy⟩
  by_contra hne
  exact h.disjoint.forall hr hr' hne x hx hx'

/-- `idx_for_paddr` gives the index of the frame around an address. -/
theorem Numbering.idx_inside (h : Numbering s) {i paddr : UInt32} (hi : i < s.len)
    (hle : (paddrForIdx s i).toNat ≤ paddr.toNat) (hlt : paddr.toNat < (paddrForIdx s i).toNat + 4096) :
  idxForPaddr s paddr = i
  := by
  apply UInt32.toNat_inj.mp
  apply h.toNat_idxForPaddr (h.getElem?_frames hi) (d := paddr.toNat - (paddrForIdx s i).toNat)
  · omega
  · omega

/-- The frames from index `i` on, as far as the region of the first of them goes. -/
theorem Numbering.first_region (h : Numbering s) {i n : UInt32} (hn : 1 ≤ n)
    (hle : i.toNat + n.toNat ≤ s.len.toNat) :
  ∃ r ∈ s.mmap, ∃ m, m < r.len.toNat / 4096 ∧
    (fitsInOneMmapEntry s i n = true ↔ m + n.toNat ≤ r.len.toNat / 4096) ∧
    ∀ k < n, m + k.toNat < r.len.toNat / 4096 →
      (paddrForIdx s (i + k)).toNat = r.addr.toNat + 4096 * (m + k.toNat)
  := by
  have hlen := h.len_lt
  rw [UInt32.le_iff_toNat_le, UInt32.toNat_one] at hn
  rcases h.fits_cases (by omega : i.toNat + n.toNat < 2 ^ 20) with ⟨-, hge⟩ | ⟨r, hr, m, hm, hiff, hframes⟩
  · omega
  · refine ⟨r, hr, m, hm, hiff, ?_⟩
    intro k hk hin
    apply h.toNat_paddrForIdx
    rw [(toNat_add_idx hk hle).1]
    exact hframes _ hin

theorem Numbering.fits_iff (h : Numbering s) {i n : UInt32} (hn : 1 ≤ n)
    (hle : i.toNat + n.toNat ≤ s.len.toNat) :
  fitsInOneMmapEntry s i n = true ↔ ∃ r ∈ s.mmap, ∀ k < n, r.ContainsFrame (paddrForIdx s (i + k))
  := by
  obtain ⟨r, hr, m, hm, hiff, hframes⟩ := h.first_region hn hle
  obtain ⟨l, hl⟩ := h.aligned_len r hr
  have hzero : (0 : UInt32) < n := by
    rw [UInt32.lt_iff_toNat_lt]
    rw [UInt32.le_iff_toNat_le] at hn
    exact hn
  rw [hiff]
  constructor
  · intro hfits
    refine ⟨r, hr, fun k hk => ?_⟩
    have hin := UInt32.lt_iff_toNat_lt.mp hk
    rw [MemoryMap.ContainsFrame, hframes k hk (by omega)]
    omega
  · rintro ⟨r', hr', hall⟩
    by_contra hout
    -- the first frame lies in both regions, and the first behind `r` in `r'` only
    have hfirst := hframes 0 hzero (by simpa using hm)
    have hsame : r = r' := by
      have hin := hall 0 hzero
      rw [MemoryMap.ContainsFrame, hfirst, UInt32.toNat_zero] at hin
      apply h.eq_of_contains hr hr' (x := r.addr.toNat + 4096 * (m + 0))
      · simp only [Frames.Region.Contains, MemoryMap.region]
        omega
      · simp only [Frames.Region.Contains, MemoryMap.region]
        omega
    subst hsame
    have hlast := toNat_ofNat_idx (show r.len.toNat / 4096 - m - 1 < n.toNat by omega)
    have hbehind := toNat_ofNat_idx (show r.len.toNat / 4096 - m < n.toNat by omega)
    have hlt : i + UInt32.ofNat (r.len.toNat / 4096 - m - 1) < i + UInt32.ofNat (r.len.toNat / 4096 - m) := by
      rw [UInt32.lt_iff_toNat_lt, (toNat_add_idx hlast.2 hle).1, (toNat_add_idx hbehind.2 hle).1, hlast.1,
        hbehind.1]
      omega
    have hapart := h.paddr_add_le hlt (toNat_add_idx hbehind.2 hle).2
    rw [hframes _ hlast.2 (by rw [hlast.1]; omega), hlast.1] at hapart
    have hin := (hall _ hbehind.2).2
    omega

/-- The numbers of the frames, in any list of regions that can be numbered through. -/
theorem numbering_bijection (h : Numbering s) :
  FrameBijection s
  := by
  constructor
  case bijective =>
    refine ⟨?_, ?_, ?_⟩
    · intro i hi
      exact h.mem_frames.mp (List.mem_of_getElem? (h.getElem?_frames hi))
    · intro i hi j hj heq
      rw [← h.idx_inside hi le_rfl (Nat.lt_add_of_pos_right (by decide)),
        h.idx_inside hj heq.ge (heq.trans_lt (Nat.lt_add_of_pos_right (by decide)))]
    · intro f hf
      exact h.exists_idx (h.mem_frames.mpr hf)
  case idx_paddr => exact fun i hi => h.idx_inside hi le_rfl (Nat.lt_add_of_pos_right (by decide))
  case idx_inside => exact fun i hi paddr => h.idx_inside hi
  case increasing =>
    intro i j hij hj
    have hle := h.paddr_add_le hij hj
    rw [UInt32.lt_iff_toNat_lt]
    omega
  case fits_iff => exact fun i n => h.fits_iff
  case contiguous =>
    intro i n hn hle hfits k hk
    obtain ⟨r, hr, m, hm, hiff, hframes⟩ := h.first_region hn hle
    have hall := hiff.mp hfits
    have hin := UInt32.lt_iff_toNat_lt.mp hk
    have hzero : (0 : UInt32) < n := by
      rw [UInt32.lt_iff_toNat_lt]
      exact (Nat.zero_le _).trans_lt hin
    have hfirst := hframes 0 hzero (by simpa using hm)
    rw [UInt32.add_zero] at hfirst
    rw [hframes k hk (by omega), hfirst, UInt32.toNat_zero]
    omega

/-- Three regions, of which the second is empty and lies in the first. -/
abbrev nestedMap : State where
  start := fun _ => 0xFFFFFFFF
  len := 5
  mmap := [⟨0x200000, 0x3000⟩, ⟨0x201000, 0⟩, ⟨0x300000, 0x2000⟩]

theorem numbering_nestedMap :
  Numbering nestedMap
  := by
  constructor
  case disjoint =>
    simp only [List.pairwise_cons, Frames.Region.Contains, MemoryMap.region]
    simp
    omega
  case aligned => simp
  case ascending => decide
  case below => simp
  case total => rfl
  case small => decide

theorem numbering_bijection_nestedMap :
  Numbering nestedMap ∧ FrameBijection nestedMap
  := ⟨numbering_nestedMap, numbering_bijection numbering_nestedMap⟩

end Pfa
