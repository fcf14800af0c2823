import Aenix.Pfa.Ownership

/-!
# What the search finds

When `pfa_allocate` has counted enough free frames that do not lie in one region, it begins to count anew
after them, and so passes over the frames of the second region among them.  It tries the runs that begin a
multiple of `num` frames after the beginning of a stretch of free frames, and finds one of these when there
is one (`pfaAllocate_ne_zero_iff`).
-/

open Aenix

namespace Pfa

variable {s : State} {n num : UInt32}

/-- The frames with the `n` indices from `b` on are free and lie in one region. -/
structure FreeRun (s : State) (b n : ℕ) : Prop where
  free : ∀ i, b ≤ i → i < b + n → bit s i = true
  region : ∃ r ∈ s.mmap, ∃ k, k + n ≤ r.len.toNat / 4096 ∧
    ∀ j < n, s.frames[b + j]? = some (r.addr.toNat + 4096 * (k + j))

/-- A stretch of free frames begins at index `a`. -/
def Begins (s : State) (a : ℕ) : Prop :=
  a = 0 ∨ bit s (a - 1) = false

/-- The index `b` is a multiple of `n` frames after the beginning of its stretch of free frames. -/
def Tried (s : State) (n b : ℕ) : Prop :=
  ∃ a k, Begins s a ∧ b = a + k * n ∧ ∀ i, a ≤ i → i < b → bit s i = true

/-! ### Where the search begins to count -/

/-- A position lies in one stretch of free frames. -/
theorem Begins.unique {a a' p : ℕ} (h : Begins s a) (h' : Begins s a') (ha : a ≤ p) (ha' : a' ≤ p)
    (hbits : ∀ i, a ≤ i → i < p → bit s i = true) (hbits' : ∀ i, a' ≤ i → i < p → bit s i = true) :
  a = a'
  := by
  rcases Nat.lt_trichotomy a a' with hlt | heq | hlt
  · rcases h' with rfl | hzero
    · omega
    · rw [hbits (a' - 1) (by omega) (by omega)] at hzero
      simp at hzero
  · exact heq
  · rcases h with rfl | hzero
    · omega
    · rw [hbits' (a - 1) (by omega) (by omega)] at hzero
      simp at hzero

/-- A number is not a multiple of `n` when it lies between two of them. -/
theorem add_mul_ne (a k l n : ℕ) {f : ℕ} (hpos : 0 < f) (hlt : f < n) :
  a + k * n + f ≠ a + l * n
  := by
  intro heq
  rcases Nat.lt_or_ge k l with hk | hk
  · have hle := Nat.mul_le_mul_right n (Nat.succ_le_of_lt hk)
    rw [Nat.succ_mul] at hle
    omega
  · have hle := Nat.mul_le_mul_right n hk
    omega

/-- No run that ends before position `p` could be handed out. -/
def Rejected (s : State) (num : UInt32) (p : ℕ) : Prop :=
  ∀ b : UInt32, Tried s num.toNat b.toNat →
    (∀ i, b.toNat ≤ i → i < b.toNat + num.toNat → bit s i = true) →
    b.toNat + num.toNat ≤ p → fitsInOneMmapEntry s b num = false

/-- The search at position `p`: the `frames_found` frames before it follow on a multiple of `num` frames of
their stretch, or a run is found that is tried. -/
def Counts (s : State) (num : UInt32) (p : ℕ) : Search ⊕ UInt32 → Prop
  | .inl q => Rejected s num p ∧ ∃ a k, Begins s a ∧ a + k * num.toNat + q.framesFound.toNat = p ∧
      (∀ i, a ≤ i → i < p → bit s i = true) ∧ q.framesFound.toNat < num.toNat ∧
      (q.framesFound ≠ 0 → q.bitIdx.toNat = a + k * num.toNat)
  | .inr b => Tried s num.toNat b.toNat

theorem Rejected.of_not_free {p p' : ℕ} (h : Rejected s num p) (hnum : 0 < num.toNat)
    (hbits : ∀ i, p ≤ i → i < p' → bit s i = false) :
  Rejected s num p'
  := by
  intro b hb hfree hle
  by_cases hp : b.toNat + num.toNat ≤ p
  · apply h b hb hfree hp
  · have hlast := hfree (b.toNat + num.toNat - 1) (by omega) (by omega)
    rw [hbits _ (by omega) (by omega)] at hlast
    simp at hlast

/-- A frame that is not free: counting begins anew after it. -/
theorem counts_of_not_free {p p' : ℕ} (q : Search) (b : UInt32) (h : Counts s num p (.inl q))
    (hlt : p < p') (hbits : ∀ i, p ≤ i → i < p' → bit s i = false) :
  Counts s num p' (.inl ⟨0, b⟩)
  := by
  obtain ⟨hrejected, a, k, -, -, -, hfound, -⟩ := h
  refine ⟨hrejected.of_not_free (by omega) hbits, p', 0, ?_, ?_, ?_, ?_, ?_⟩
  · right
    apply hbits
    · omega
    · omega
  · simp
  · intro i hi hi'
    omega
  · rw [UInt32.toNat_zero]
    omega
  · intro hne
    exact absurd rfl hne

/-- Only the runs that end at position `p` are left to be rejected. -/
theorem Rejected.succ {p : ℕ} (h : Rejected s num p)
    (hlast : ∀ b : UInt32, Tried s num.toNat b.toNat →
      (∀ i, b.toNat ≤ i → i < b.toNat + num.toNat → bit s i = true) →
      b.toNat + num.toNat = p + 1 → fitsInOneMmapEntry s b num = false) :
  Rejected s num (p + 1)
  := by
  intro b hb hfree hle
  by_cases hend : b.toNat + num.toNat = p + 1
  · apply hlast b hb hfree hend
  · apply h b hb hfree
    omega

/-- A run that ends at position `p` begins where the search has begun to count. -/
theorem counted_of_tried {p a k f : ℕ} {b : UInt32} (hbegins : Begins s a)
    (hsum : a + k * num.toNat + f = p) (hbits : ∀ i, a ≤ i → i < p + 1 → bit s i = true)
    (hlt : f < num.toNat) (hb : Tried s num.toNat b.toNat)
    (hfree : ∀ i, b.toNat ≤ i → i < b.toNat + num.toNat → bit s i = true)
    (hend : b.toNat + num.toNat = p + 1) :
  f + 1 = num.toNat
  := by
  obtain ⟨a', k', hbegins', hb', hfree'⟩ := hb
  have hcover : ∀ i, a' ≤ i → i < p + 1 → bit s i = true := by
    intro i hi hip
    rcases Nat.lt_or_ge i b.toNat with hib | hge
    · apply hfree' i hi hib
    · apply hfree i hge
      omega
  obtain rfl : a = a' := hbegins.unique hbegins' (by omega) (by omega) hbits hcover
  by_contra hne
  apply add_mul_ne a k (k' + 1) num.toNat (f := f + 1)
  · omega
  · omega
  · rw [Nat.succ_mul]
    omega

/-- One round of the inner loop of `pfa_allocate`. -/
theorem searchBit_counts {i j : UInt32} {q : Search} (hj : j.toNat < 32)
    (hlt : 32 * i.toNat + j.toNat < 2 ^ 20) (hq : Counts s num (32 * i.toNat + j.toNat) (.inl q)) :
  Counts s num (32 * i.toNat + j.toNat + 1) (searchBit s num (s.start i.toNat) i j q)
  := by
  have hpos := toNat_position (i := i) (j := j) (by omega)
  have hiff := shiftRight_and_one_iff (s := s) (i := i) hj
  generalize hp : 32 * i.toNat + j.toNat = p at *
  rw [searchBit]
  by_cases hbit : bit s p = true
  case neg =>
    rw [if_neg (by rwa [hiff])]
    apply counts_of_not_free q _ hq (Nat.lt_succ_self p)
    intro k hk hk'
    obtain rfl : k = p := by omega
    simpa using hbit
  rw [if_pos (hiff.mpr hbit)]
  obtain ⟨hrejected, a, k, hbegins, hsum, hbits, hfound, hidx⟩ := hq
  set b := if q.framesFound = 0 then i * 32 + j else q.bitIdx with hb
  have hbNat : b.toNat = a + k * num.toNat := by
    rw [hb]
    split
    case isTrue hzero =>
      rw [hzero, UInt32.toNat_zero] at hsum
      rw [hpos]
      omega
    case isFalse hne => apply hidx hne
  have hbits' : ∀ i, a ≤ i → i < p + 1 → bit s i = true := by
    intro i hi hip
    rcases Nat.lt_succ_iff_lt_or_eq.mp hip with hlt | rfl
    · apply hbits i hi hlt
    · apply hbit
  have hadd : (q.framesFound + 1).toNat = q.framesFound.toNat + 1 := by
    rw [UInt32.toNat_add, UInt32.toNat_one]
    omega
  have hnum_iff : q.framesFound + 1 = num ↔ q.framesFound.toNat + 1 = num.toNat := by
    rw [← UInt32.toNat_inj, hadd]
  by_cases hnum : q.framesFound + 1 = num
  · simp only [if_pos hnum]
    have hnum' := hnum_iff.mp hnum
    by_cases hfits : fitsInOneMmapEntry s b num = true
    · rw [if_pos hfits]
      exact ⟨a, k, hbegins, hbNat, fun i hi hib => hbits' i hi (by omega)⟩
    · rw [if_neg hfits]
      refine ⟨hrejected.succ ?_, a, k + 1, hbegins, ?_, hbits', ?_, ?_⟩
      · intro b' _ _ hend
        obtain rfl : b' = b := by
          apply UInt32.toNat_inj.mp
          omega
        simpa using hfits
      · rw [Nat.succ_mul, UInt32.toNat_zero]
        omega
      · rw [UInt32.toNat_zero]
        omega
      · intro hne
        exact absurd rfl hne
  · simp only [if_neg hnum]
    rw [hnum_iff] at hnum
    refine ⟨hrejected.succ ?_, a, k, hbegins, ?_, hbits', ?_, fun _ => hbNat⟩
    · intro b' hb' hfree hend
      exact absurd (counted_of_tried hbegins hsum hbits' hfound hb' hfree hend) hnum
    · rw [hadd]
      omega
    · rw [hadd]
      omega

theorem counts_invariant :
  Search.Invariant s num (Counts s num)
  := by
  constructor
  · intro i j q hj hlt hq
    apply searchBit_counts hj hlt hq
  · intro i q hcell hq
    apply counts_of_not_free q _ hq (by omega)
    intro k hk hk'
    have hdiv : k / 32 = i.toNat := by omega
    rw [bit, hdiv, hcell]
    simp
  · intro p p' b _ h
    apply h

/-! ### Completeness -/

/-- Free frames that lie in one region pass the test of `pfa_allocate`. -/
theorem FreeRun.fits (h : FrameMap s) {b : UInt32} (hrun : FreeRun s b.toNat num.toNat)
    (hnum : 0 < num.toNat) :
  fitsInOneMmapEntry s b num = true
  := by
  obtain ⟨r, hr, k, hk, hframes⟩ := hrun.region
  have hlast : b.toNat + (num.toNat - 1) < s.len.toNat := by
    rw [← h.length_frames]
    exact (List.getElem?_eq_some_iff.mp (hframes (num.toNat - 1) (by omega))).1
  have hlen := h.len_lt
  rcases findEntry_spec h.aligned_len (i := b.toNat) h.total_lt (toNat_mul_fourKb (by omega))
    with ⟨-, hge⟩ | ⟨r', w, k', hsome, hr', hw, -, hk', hframes'⟩
  · rw [← State.frames, h.length_frames] at hge
    omega
  · have hfirst := hframes 0 hnum
    have hfirst' := hframes' 0 hk'
    rw [← State.frames, hfirst, Option.some.injEq] at hfirst'
    -- both regions have the first of the frames
    have hregion : r.region = r'.region := by
      apply h.ascending.eq_of_contains (List.mem_map_of_mem hr) (List.mem_map_of_mem hr')
        (x := r.addr.toNat + 4096 * k)
      · simp only [Frames.Region.Contains, MemoryMap.region]
        omega
      · simp only [Frames.Region.Contains, MemoryMap.region]
        omega
    simp only [MemoryMap.region, Frames.Region.mk.injEq] at hregion
    have hn := toNat_mul_fourKb (b := num) (by omega)
    rw [fitsInOneMmapEntry, hsome]
    simp only [decide_eq_true_eq, UInt32.le_iff_toNat_le, UInt32.toNat_add, hw, hn, UInt32.toNat_zero]
    omega

/-- `pfa_allocate` finds frames if and only if it tries some that are free and lie in one region. -/
theorem pfaAllocate_ne_zero_iff (h : FrameMap s) (hnum : 0 < num.toNat) :
  (pfaAllocate s num).1 ≠ 0 ↔ ∃ b, Tried s num.toNat b ∧ FreeRun s b num.toNat
  := by
  have hlen := h.len_lt
  have hcells : s.len.toNat ≤ 32 * (divCeil s.len 32).toNat ∧ 32 * (divCeil s.len 32).toNat < 2 ^ 20 := by
    rw [toNat_divCeil (UInt32.lt_iff_toNat_lt.mp h.pos),
      show (32 : UInt32).toNat = 32 from rfl]
    omega
  have hinit : Counts s num (32 * (0 : UInt32).toNat) (.inl ⟨0, 0⟩) := by
    refine ⟨fun b _ _ hle => ?_, 0, 0, Or.inl rfl, by simp, ?_, by simpa using hnum, fun hne => absurd rfl hne⟩
    · rw [UInt32.toNat_zero] at hle
      omega
    · intro i _ hi
      rw [UInt32.toNat_zero] at hi
      omega
  have hcounts := counts_invariant.searchCells (n := (divCeil s.len 32).toNat) (by simpa using hcells.2) hinit
  have houtcome := (outcome_invariant (s := s) num).searchCells (n := (divCeil s.len 32).toNat) (i := 0)
    (by simpa using hcells.2) (Search.run_zero _ 0)
  rw [pfaAllocate]
  cases hres : searchCells s num (divCeil s.len 32).toNat 0 ⟨0, 0⟩ with
  | inl q =>
      rw [hres] at hcounts
      simp only [ne_eq, not_true_eq_false, false_iff]
      rintro ⟨b, htried, hrun⟩
      obtain ⟨r, hr, k, hk, hframes⟩ := hrun.region
      have hlast : b + (num.toNat - 1) < s.len.toNat := by
        rw [← h.length_frames]
        exact (List.getElem?_eq_some_iff.mp (hframes (num.toNat - 1) (by omega))).1
      have hb : (UInt32.ofNat b).toNat = b := UInt32.toNat_ofNat_of_lt' (by
        rw [UInt32.size]
        omega)
      rw [← hb] at htried hrun
      have hnot := hcounts.1 _ htried hrun.free (by
        rw [hb, UInt32.toNat_zero]
        omega)
      rw [hrun.fits h hnum] at hnot
      simp at hnot
  | inr b =>
      rw [hres] at hcounts houtcome
      have hle := houtcome.le
      rw [UInt32.toNat_zero] at hle
      obtain ⟨r, hr, k, hk, hframes⟩ := h.fits (b := b) (n := num) (by omega) houtcome.fits
      have habove := UInt32.lt_iff_toNat_lt.mp (h.above r hr)
      have hne : paddrForIdx s b ≠ 0 := by
        intro hzero
        have hpaddr := h.toNat_paddrForIdx (hframes 0 hnum)
        rw [hzero, UInt32.toNat_zero] at hpaddr
        omega
      simp only [ne_eq, hne, not_false_eq_true, true_iff]
      exact ⟨b.toNat, hcounts, houtcome.free, r, hr, k, hk, hframes⟩

/-- Every index lies in a stretch of free frames, which is empty when the frame before it is not free. -/
theorem stretch_begins (s : State) (b : ℕ) :
  Tried s 1 b
  := by
  induction b with
  | zero =>
      refine ⟨0, 0, Or.inl rfl, rfl, ?_⟩
      intro i _ hi
      omega
  | succ b ih =>
      by_cases hbit : bit s b = true
      · obtain ⟨a, k, hbegins, rfl, hfree⟩ := ih
        refine ⟨a, k + 1, hbegins, by omega, ?_⟩
        intro i hi hlt
        rcases Nat.lt_succ_iff_lt_or_eq.mp hlt with hlt | rfl
        · exact hfree i hi hlt
        · exact hbit
      · refine ⟨b + 1, 0, Or.inr (by simpa using hbit), by omega, ?_⟩
        intro i hi hlt
        omega

/-- A single frame is found whenever one is free: every index is a multiple of one frame after the
beginning of its stretch. -/
theorem pfaAllocate_one_ne_zero_iff (h : FrameMap s) :
  (pfaAllocate s 1).1 ≠ 0 ↔ s.free.Nonempty
  := by
  rw [pfaAllocate_ne_zero_iff h (by decide), UInt32.toNat_one]
  constructor
  · rintro ⟨b, -, hrun⟩
    obtain ⟨r, -, k, -, hframes⟩ := hrun.region
    exact ⟨_, b, hframes 0 Nat.one_pos, hrun.free b le_rfl (Nat.lt_succ_self b)⟩
  · rintro ⟨f, b, hf, hbit⟩
    have hlen := h.len_lt
    have hb : b < s.frames.length := (List.getElem?_eq_some_iff.mp hf).1
    have hlt : b < s.len.toNat := by rwa [← h.length_frames]
    have hoffset : (UInt32.ofNat b * fourKb).toNat = (0 : UInt32).toNat + 4096 * b := by
      rw [UInt32.toNat_mul, UInt32.toNat_ofNat', toNat_fourKb, UInt32.toNat_zero]
      omega
    refine ⟨b, stretch_begins s b, ?_, ?_⟩
    · intro i hi hi'
      obtain rfl : i = b := by omega
      exact hbit
    · rcases findEntry_spec h.aligned_len h.total_lt hoffset
        with ⟨-, hge⟩ | ⟨r, w, k, -, hr, -, -, hk, hframes⟩
      · rw [← State.frames] at hge
        omega
      · refine ⟨r, hr, k, hk, ?_⟩
        intro j hj
        apply hframes
        omega

/-- For every frame map and every bitmap: `pfa_allocate` succeeds whenever there are `num` free frames with
consecutive indices in one region, if and only if in that case there are some that it tries. -/
theorem allocation_complete_iff (h : FrameMap s) (hnum : 0 < num.toNat) :
  ((∃ b, FreeRun s b num.toNat) → (pfaAllocate s num).1 ≠ 0) ↔
    ((∃ b, FreeRun s b num.toNat) → ∃ b, Tried s num.toNat b ∧ FreeRun s b num.toNat)
  := by
  rw [pfaAllocate_ne_zero_iff h hnum]

theorem allocation_complete_iff_sixFrames :
  ((∃ b, FreeRun sixFrames b (2 : UInt32).toNat) → (pfaAllocate sixFrames 2).1 ≠ 0) ↔
    ((∃ b, FreeRun sixFrames b (2 : UInt32).toNat) →
      ∃ b, Tried sixFrames (2 : UInt32).toNat b ∧ FreeRun sixFrames b (2 : UInt32).toNat)
  := allocation_complete_iff frameMap_sixFrames (by decide)

/-- A region of one frame and a region of two, all of them free. -/
def threeFrames : State where
  start := fun c => if c = 0 then 0xE0000000 else 0
  len := 3
  mmap := [⟨0x200000, 0x1000⟩, ⟨0x400000, 0x2000⟩]

/-- The two frames of the second region are passed over. -/
theorem second_region_passed_over :
  FrameMap threeFrames ∧ FreeRun threeFrames 1 (2 : UInt32).toNat ∧ (pfaAllocate threeFrames 2).1 = 0
  := by
  refine ⟨?_, ⟨?_, ⟨0x400000, 0x2000⟩, ?_, 0, ?_, ?_⟩, rfl⟩
  · constructor <;> decide
  · intro i hi hlt
    rw [show (2 : UInt32).toNat = 2 from rfl] at hlt
    interval_cases i
    · decide
    · decide
  · decide
  · decide
  · decide

end Pfa
