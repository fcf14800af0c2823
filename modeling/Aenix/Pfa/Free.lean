import Aenix.Pfa.Ownership
import Mathlib.Data.UInt

/-!
# Freeing any address

`pfa_free` is called with whatever address.  `idx_for_paddr` looks for the first region that ends above the
address, and does not test whether the region begins below it; the bit with the index it computes is
toggled, whether it is set or not.  So an address in a gap changes the bit of some other frame, or one
outside the bitmap, and freeing a frame that is free takes it away.

`free_safe_iff` says for which addresses `pfa_free` does what it should.
-/

open Aenix

namespace Pfa

/-- The frames of aligned regions, as many as `page_frames.len` says. -/
structure AlignedMap (s : State) : Prop extends Regions s.mmap where
  total : (s.mmap.map fun r => r.len.toNat).sum = s.len.toNat * 4096

/-- An address in a region: the frame becomes free.  Another address: nothing changes.  No other bit
changes, be it in the bitmap or behind it. -/
structure FreesSafely (s : State) (paddr : UInt32) : Prop where
  managed : ∀ i, s.frames[i]? = some (frameOf paddr) →
    bit (pfaFree s paddr) i = true ∧ ∀ j ≠ i, bit (pfaFree s paddr) j = bit s j
  unmanaged : (∀ r ∈ s.mmap, ¬ r.region.Contains paddr.toNat) → ∀ j, bit (pfaFree s paddr) j = bit s j

/-- The region that `idx_for_paddr` finds: the first one that ends above the address, with its end in
32 bits. -/
def regionAbove (s : State) (paddr : UInt32) : Option MemoryMap :=
  s.mmap.find? fun r => paddr < r.addr + r.len

/-- The frame of the address is free, or is not. -/
def FrameIs (s : State) (paddr : UInt32) (free : Bool) : Prop :=
  ∀ i, s.frames[i]? = some (frameOf paddr) → bit s i = free

/-- The address lies in the region that is found, and its frame is not free; or no region is found, and the
frame of the address is free when it is managed; or the address lies in the first page, below the
region that is found, and all memory from there on is managed. -/
def Freeable (s : State) (paddr : UInt32) : Prop :=
  match regionAbove s paddr with
  | none => FrameIs s paddr true
  | some r =>
    (r.addr ≤ paddr ∧ FrameIs s paddr false) ∨
      (paddr < r.addr ∧ paddr < fourKb ∧ s.len.toNat * 4096 + r.addr.toNat = 2 ^ 32)

variable {s : State} {paddr : UInt32}

/-! ### The search -/

/-- What `idx_for_paddr` returns. -/
theorem idxForPaddrFrom_cases (len paddr : UInt32) (rs : List MemoryMap) (c : UInt32) :
  ((rs.find? fun r => paddr < r.addr + r.len) = none ∧ idxForPaddrFrom len paddr rs c = len) ∨
    ∃ pre r post, (rs.find? fun r => paddr < r.addr + r.len) = some r ∧ rs = pre ++ r :: post ∧
      (∀ x ∈ pre, ¬ paddr < x.addr + x.len) ∧ paddr < r.addr + r.len ∧
      idxForPaddrFrom len paddr rs c = (c + (pre.map MemoryMap.len).sum + (paddr - r.addr)) / fourKb
  := by
  induction rs generalizing c with
  | nil => exact Or.inl ⟨rfl, rfl⟩
  | cons r rs ih =>
      rw [idxForPaddrFrom, List.find?_cons]
      by_cases hlt : paddr < r.addr + r.len
      · right
        refine ⟨[], r, rs, by simp [hlt], rfl, by simp, hlt, ?_⟩
        rw [if_pos hlt]
        simp
      · rw [if_neg hlt, decide_eq_false hlt]
        rcases ih (c + r.len) with ⟨hnone, hidx⟩ | ⟨pre, r', post, hsome, hrs, hpre, hr', hidx⟩
        · exact Or.inl ⟨hnone, hidx⟩
        · right
          refine ⟨r :: pre, r', post, hsome, by rw [hrs]; rfl, ?_, hr', ?_⟩
          · intro x hx
            rcases List.mem_cons.mp hx with rfl | hx
            · exact hlt
            · exact hpre x hx
          · rw [hidx, List.map_cons, List.sum_cons, UInt32.add_assoc c]

theorem toNat_sum (rs : List MemoryMap) (h : (rs.map fun r => r.len.toNat).sum < 2 ^ 32) :
  (rs.map MemoryMap.len).sum.toNat = (rs.map fun r => r.len.toNat).sum
  := by
  induction rs with
  | nil => rfl
  | cons r rs ih =>
      rw [List.map_cons, List.sum_cons] at h ⊢
      rw [List.map_cons, List.sum_cons, UInt32.toNat_add, ih (by omega), Nat.mod_eq_of_lt h]

theorem Regions.sublist {rs rs' : List MemoryMap} (h : Regions rs) (hsub : rs'.Sublist rs) :
  Regions rs'
  := by
  constructor
  · exact fun r hr => h.aligned r (hsub.subset hr)
  · exact h.ascending.sublist (hsub.map _)
  · exact fun r hr => h.below r (hsub.subset hr)

/-- The region that is found, and the bytes of the regions before and after it. -/
structure Above (s : State) (paddr : UInt32) (pre : List MemoryMap) (r : MemoryMap) (b a : ℕ) : Prop where
  aligned : 4096 ∣ r.addr.toNat ∧ 4096 ∣ r.len.toNat
  before : b = (pre.map fun x => x.len.toNat).sum
  before_dvd : 4096 ∣ b
  before_le : b ≤ paddr.toNat ∧ b ≤ r.addr.toNat
  lt : paddr.toNat < r.addr.toNat + r.len.toNat
  below : r.addr.toNat + r.len.toNat + a ≤ 2 ^ 32
  total : b + r.len.toNat + a = s.len.toNat * 4096

theorem AlignedMap.above (h : AlignedMap s) {pre post : List MemoryMap} {r : MemoryMap}
    (hrs : s.mmap = pre ++ r :: post) (hpre : ∀ x ∈ pre, ¬ paddr < x.addr + x.len)
    (hlt : paddr < r.addr + r.len) :
  ∃ b a, Above s paddr pre r b a
  := by
  have hr : r ∈ s.mmap := by simp [hrs]
  have hsubpre : pre.Sublist s.mmap := by
    rw [hrs]
    exact List.sublist_append_left _ _
  have hsubpost : post.Sublist s.mmap := by
    rw [hrs]
    exact (List.sublist_cons_self r post).trans (List.sublist_append_right _ _)
  have hasc := h.ascending
  rw [hrs, List.map_append, List.map_cons, Frames.Ascending, List.pairwise_append,
    List.pairwise_cons] at hasc
  obtain ⟨-, ⟨hafter, -⟩, hbefore⟩ := hasc
  have hend : paddr.toNat < r.addr.toNat + r.len.toNat := by
    rw [UInt32.lt_iff_toNat_lt, UInt32.toNat_add] at hlt
    exact hlt.trans_le (Nat.mod_le _ _)
  have hpre' : ∀ x ∈ pre, x.addr.toNat + x.len.toNat ≤ r.addr.toNat ∧
      x.addr.toNat + x.len.toNat ≤ paddr.toNat := by
    intro x hx
    have hle : x.addr.toNat + x.len.toNat ≤ r.addr.toNat :=
      hbefore _ (List.mem_map_of_mem hx) _ List.mem_cons_self
    have hnot := hpre x hx
    have haddr := r.addr.toNat_lt
    rw [UInt32.lt_iff_toNat_lt, UInt32.toNat_add, Nat.mod_eq_of_lt (by omega)] at hnot
    omega
  refine ⟨_, (post.map fun x => x.len.toNat).sum, h.aligned r hr, rfl, ?_, ⟨?_, ?_⟩, hend, ?_, ?_⟩
  · rw [← (h.toRegions.sublist hsubpre).mul_length]
    apply Nat.dvd_mul_right
  · have hsum := (h.toRegions.sublist hsubpre).sum_le (Nat.zero_le paddr.toNat)
      fun x hx => ⟨Nat.zero_le _, (hpre' x hx).2⟩
    omega
  · have hsum := (h.toRegions.sublist hsubpre).sum_le (Nat.zero_le r.addr.toNat)
      fun x hx => ⟨Nat.zero_le _, (hpre' x hx).1⟩
    omega
  · apply (h.toRegions.sublist hsubpost).sum_le (h.below r hr)
    intro x hx
    exact ⟨hafter _ (List.mem_map_of_mem hx), h.below x (hsubpost.subset hx)⟩
  · rw [← h.total, hrs, List.map_append, List.sum_append, List.map_cons, List.sum_cons, add_assoc]

section Above

variable {pre post : List MemoryMap} {r : MemoryMap} {b a : ℕ}

/-- The index of an address in the region that is found. -/
theorem Above.toNat_idx (h : Above s paddr pre r b a) (hle : r.addr ≤ paddr) :
  ((0 + (pre.map MemoryMap.len).sum + (paddr - r.addr)) / fourKb).toNat =
    b / 4096 + (paddr.toNat - r.addr.toNat) / 4096
  := by
  have hp := paddr.toNat_lt
  obtain ⟨hb, -⟩ := h.before_le
  obtain ⟨c, hc⟩ := h.before_dvd
  rw [UInt32.le_iff_toNat_le] at hle
  have hsum := toNat_sum pre (by rw [← h.before]; omega)
  rw [UInt32.toNat_div, UInt32.toNat_add, UInt32.zero_add, hsum, ← h.before, toNat_fourKb,
    UInt32.toNat_sub_of_le _ _ (UInt32.le_iff_toNat_le.mpr hle), Nat.mod_eq_of_lt]
  · omega
  · have hbelow := h.before_le.2
    omega

/-- The frame with this index is the one of the address. -/
theorem Above.getElem?_frames (h : Above s paddr pre r b a) (hmap : AlignedMap s)
    (hrs : s.mmap = pre ++ r :: post) (hle : r.addr ≤ paddr) :
  s.frames[b / 4096 + (paddr.toNat - r.addr.toNat) / 4096]? = some (frameOf paddr)
  := by
  rw [UInt32.le_iff_toNat_le] at hle
  have hlt := h.lt
  obtain ⟨x, hx⟩ := h.aligned.1
  obtain ⟨y, hy⟩ := h.aligned.2
  have hlength : (framesOf pre).length = b / 4096 := by
    have hsub : pre.Sublist s.mmap := by
      rw [hrs]
      exact List.sublist_append_left _ _
    have hmul := (hmap.toRegions.sublist hsub).mul_length
    rw [← h.before] at hmul
    omega
  have hframes : s.frames = framesOf pre ++ framesOf (r :: post) := by
    rw [State.frames, hrs, framesOf, framesOf, framesOf, List.map_append, Frames.frames, List.flatMap_append]
    rfl
  rw [hframes, ← hlength, List.getElem?_append_right (Nat.le_add_right _ _), Nat.add_sub_cancel_left,
    getElem?_framesOf_cons_of_lt (by omega), frameOf]
  congr 1
  omega

/-- The index of an address below the region that is found. -/
theorem Above.idx_eq_len_iff (h : Above s paddr pre r b a) (hlt : paddr < r.addr) :
  (0 + (pre.map MemoryMap.len).sum + (paddr - r.addr)) / fourKb = s.len ↔
    paddr < fourKb ∧ s.len.toNat * 4096 + r.addr.toNat = 2 ^ 32
  := by
  have haddr := r.addr.toNat_lt
  obtain ⟨hb, hb'⟩ := h.before_le
  obtain ⟨x, hx⟩ := h.aligned.1
  obtain ⟨c, hc⟩ := h.before_dvd
  have htotal := h.total
  have hbelow := h.below
  have hsum := toNat_sum pre (by rw [← h.before]; omega)
  rw [UInt32.lt_iff_toNat_lt] at hlt ⊢
  rw [← UInt32.toNat_inj, UInt32.toNat_div, UInt32.toNat_add, UInt32.zero_add, hsum, ← h.before,
    UInt32.toNat_sub, toNat_fourKb]
  omega

end Above

/-! ### Freeing -/

theorem AlignedMap.nodup_frames (h : AlignedMap s) :
  s.frames.Nodup
  := h.ascending.nodup_frames (by decide)

/-- An address in a frame lies in a region. -/
theorem contains_of_frame {i : ℕ} (hi : s.frames[i]? = some (frameOf paddr)) :
  ∃ r ∈ s.mmap, r.region.Contains paddr.toNat
  := by
  obtain ⟨_, hr, k, hk, hframe⟩ := Frames.mem_frames.mp (List.mem_of_getElem? hi)
  obtain ⟨r, hmem, rfl⟩ := List.mem_map.mp hr
  have hin := Frames.add_le_of_lt_div hk
  rw [frameOf] at hframe
  refine ⟨r, hmem, ?_⟩
  constructor
  · omega
  · omega

/-- No region contains an address that is below the region that is found. -/
theorem AlignedMap.not_contains (h : AlignedMap s) {pre post : List MemoryMap} {r : MemoryMap}
    (hrs : s.mmap = pre ++ r :: post) (hpre : ∀ x ∈ pre, ¬ paddr < x.addr + x.len) (hlt : paddr < r.addr) :
  ∀ x ∈ s.mmap, ¬ x.region.Contains paddr.toNat
  := by
  have hasc := h.ascending
  rw [hrs, List.map_append, List.map_cons, Frames.Ascending, List.pairwise_append,
    List.pairwise_cons] at hasc
  obtain ⟨-, ⟨hafter, -⟩, hbefore⟩ := hasc
  rw [UInt32.lt_iff_toNat_lt] at hlt
  rintro x hx ⟨hle, hgt⟩
  simp only [MemoryMap.region] at hle hgt
  rw [hrs, List.mem_append, List.mem_cons] at hx
  rcases hx with hx | rfl | hx
  · have hend : x.addr.toNat + x.len.toNat ≤ r.addr.toNat :=
      hbefore _ (List.mem_map_of_mem hx) _ List.mem_cons_self
    have haddr := r.addr.toNat_lt
    apply hpre x hx
    rw [UInt32.lt_iff_toNat_lt, UInt32.toNat_add, Nat.mod_eq_of_lt (by omega)]
    exact hgt
  · omega
  · have hend : r.addr.toNat + r.len.toNat ≤ x.addr.toNat := hafter _ (List.mem_map_of_mem hx)
    omega

theorem FrameMap.alignedMap (h : FrameMap s) :
  AlignedMap s
  := ⟨⟨h.aligned, h.ascending, fun r hr => (h.below r hr).le⟩, h.total⟩

/-- Freeing the address 0 changes no bit of the bitmap, since the index that is computed is behind it. -/
theorem FrameMap.pfaFree_zero (h : FrameMap s) :
  (pfaFree s 0).free = s.free
  := by
  rcases idxForPaddrFrom_cases s.len 0 s.mmap 0 with
    ⟨-, hidx⟩ | ⟨pre, r, post, -, hrs, hpre, hlt, hidx⟩
  · rw [pfaFree, if_pos (show idxForPaddr s 0 = s.len from hidx)]
  · obtain ⟨b, a, habove⟩ := h.alignedMap.above hrs hpre hlt
    have haddr := h.above r (by simp [hrs])
    have hr := r.addr.toNat_lt
    obtain ⟨hb, -⟩ := habove.before_le
    have htotal := habove.total
    have hbelow := habove.below
    rw [UInt32.toNat_zero, Nat.le_zero] at hb
    have hsum := toNat_sum pre (by rw [← habove.before, hb]; decide)
    rw [← habove.before, hb] at hsum
    rw [UInt32.lt_iff_toNat_lt] at haddr
    have hbehind : s.len.toNat ≤ (idxForPaddr s 0).toNat := by
      rw [idxForPaddr, hidx, UInt32.toNat_div, UInt32.zero_add, UInt32.toNat_add, hsum, UInt32.zero_sub,
        UInt32.toNat_neg, toNat_fourKb, UInt32.size]
      omega
    rw [pfaFree]
    split
    · rfl
    · ext f
      simp only [State.free, State.frames, toggleBit_mmap, Set.mem_ofPred_eq]
      have hsame : ∀ i, (framesOf s.mmap)[i]? = some f → bit (toggleBit s (idxForPaddr s 0)) i = bit s i := by
        intro i hi
        have hlength := (List.getElem?_eq_some_iff.mp hi).1
        rw [← State.frames, h.length_frames] at hlength
        rw [bit_toggleBit, decide_eq_false (by omega), Bool.xor_false]
      constructor
      · rintro ⟨i, hi, hbit⟩
        exact ⟨i, hi, by rw [← hsame i hi, hbit]⟩
      · rintro ⟨i, hi, hbit⟩
        exact ⟨i, hi, by rw [hsame i hi, hbit]⟩

/-- An address for which no region is found changes nothing. -/
theorem freesSafely_of_eq (h : pfaFree s paddr = s) :
  FreesSafely s paddr ↔ FrameIs s paddr true
  := by
  constructor
  · intro hsafe i hi
    have hbit := (hsafe.managed i hi).1
    rwa [h] at hbit
  · intro hfree
    constructor
    · intro i hi
      rw [h]
      exact ⟨hfree i hi, fun _ _ => rfl⟩
    · rw [h]
      exact fun _ _ => rfl

/-- An address in a frame toggles the bit of the frame. -/
theorem AlignedMap.freesSafely_of_frame (h : AlignedMap s) {i : ℕ} (hi : s.frames[i]? = some (frameOf paddr))
    (hbit : ∀ j, bit (pfaFree s paddr) j = (bit s j ^^ decide (j = i))) :
  FreesSafely s paddr ↔ FrameIs s paddr false
  := by
  have hindex : ∀ j, s.frames[j]? = some (frameOf paddr) → j = i := by
    intro j hj
    have hlt : j < s.frames.length := (List.getElem?_eq_some_iff.mp hj).1
    exact (List.getElem?_inj hlt h.nodup_frames).mp (hj.trans hi.symm)
  constructor
  · intro hsafe j hj
    have htrue := (hsafe.managed j hj).1
    rw [hbit, hindex j hj] at htrue
    rw [hindex j hj]
    simpa using htrue
  · intro hfree
    constructor
    · intro j hj
      obtain rfl := hindex j hj
      refine ⟨by simp [hbit, hfree j hj], ?_⟩
      intro k hk
      simp [hbit, hk]
    · intro hnot
      obtain ⟨r, hr, hcontains⟩ := contains_of_frame hi
      exact absurd hcontains (hnot r hr)

/-- An address that no region contains must not change a bit. -/
theorem freesSafely_of_not_contains (h : ∀ r ∈ s.mmap, ¬ r.region.Contains paddr.toNat) :
  FreesSafely s paddr ↔ idxForPaddr s paddr = s.len
  := by
  constructor
  · intro hsafe
    by_contra hne
    have hbit := hsafe.unmanaged h (idxForPaddr s paddr).toNat
    rw [pfaFree, if_neg hne, bit_toggleBit] at hbit
    simp at hbit
  · intro heq
    rw [freesSafely_of_eq (by rw [pfaFree, if_pos heq])]
    intro i hi
    obtain ⟨r, hr, hcontains⟩ := contains_of_frame hi
    exact absurd hcontains (h r hr)

/-- `pfa_free` is safe exactly for the addresses that are freeable. -/
theorem free_safe_iff (s : State) (h : AlignedMap s) (paddr : UInt32) :
  FreesSafely s paddr ↔ Freeable s paddr
  := by
  rw [Freeable]
  rcases idxForPaddrFrom_cases s.len paddr s.mmap 0 with
    ⟨hnone, hidx⟩ | ⟨pre, r, post, hsome, hrs, hpre, hlt, hidx⟩
  · rw [regionAbove, hnone]
    have heq : idxForPaddr s paddr = s.len := hidx
    apply freesSafely_of_eq
    rw [pfaFree, if_pos heq]
  · rw [regionAbove, hsome]
    obtain ⟨b, a, habove⟩ := h.above hrs hpre hlt
    by_cases hle : r.addr ≤ paddr
    · have hframe := habove.getElem?_frames h hrs hle
      rw [← habove.toNat_idx hle, ← hidx, ← idxForPaddr] at hframe
      have hne : idxForPaddr s paddr ≠ s.len := by
        intro heq
        have hlength := h.toRegions.mul_length
        have htotal := h.total
        have hindex := (List.getElem?_eq_some_iff.mp hframe).1
        rw [heq, State.frames] at hindex
        omega
      rw [h.freesSafely_of_frame hframe fun j => by rw [pfaFree, if_neg hne, bit_toggleBit]]
      have hnot : ¬ paddr < r.addr := UInt32.not_lt.mpr hle
      simp [hle, hnot]
    · have hgt : paddr < r.addr := UInt32.not_le.mp hle
      rw [freesSafely_of_not_contains (h.not_contains hrs hpre hgt), idxForPaddr, hidx,
        habove.idx_eq_len_iff hgt]
      simp [hle, hgt]

theorem alignedMap_sixFrames :
  AlignedMap sixFrames
  := ⟨⟨by decide, by decide, by decide⟩, by decide⟩

/-- The second of the six frames is not free, and can be freed. -/
theorem free_safe_sixFrames :
  AlignedMap sixFrames ∧ (FreesSafely sixFrames 0x201000 ↔ Freeable sixFrames 0x201000) ∧
    regionAbove sixFrames 0x201000 = some ⟨0x200000, 0x4000⟩ ∧ bit sixFrames 1 = false
  := ⟨alignedMap_sixFrames, free_safe_iff sixFrames alignedMap_sixFrames 0x201000, by decide, by decide⟩

/-- The address 0, which is in no region, has the index 1048064: a bit far behind the bitmap is set.  To free a
frame that is free makes it not free. -/
theorem free_zero_not_safe :
  AlignedMap sixFrames ∧ (∀ r ∈ sixFrames.mmap, ¬ r.region.Contains (0 : UInt32).toNat) ∧
    bit sixFrames 1048064 = false ∧ bit (pfaFree sixFrames 0) 1048064 = true ∧
    ¬ FreesSafely sixFrames 0 ∧
    sixFrames.frames[0]? = some (frameOf 0x200000) ∧ bit (pfaFree sixFrames 0x200000) 0 = false
  := by
  have hnot : ∀ r ∈ sixFrames.mmap, ¬ r.region.Contains (0 : UInt32).toNat := by
    simp [sixFrames, MemoryMap.region, Frames.Region.Contains]
  have hbit : bit sixFrames 1048064 = false := by decide
  have hbit' : bit (pfaFree sixFrames 0) 1048064 = true := by decide
  refine ⟨alignedMap_sixFrames, hnot, hbit, hbit', ?_, by decide, by decide⟩
  intro hsafe
  have heq := hsafe.unmanaged hnot 1048064
  rw [hbit, hbit'] at heq
  exact absurd heq (by decide)

end Pfa
