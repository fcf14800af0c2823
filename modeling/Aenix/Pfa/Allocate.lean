import Aenix.Pfa.FrameMap

/-!
# Allocating and freeing frames

The search of `pfa_allocate` carries a run of free frames across the cells of the bitmap: at
each position of the bitmap the `frames_found` frames before it are free, and the first of
them has index `bit_idx` (`Search.Run`).  A run that is long enough and that lies in one
region is handed out by toggling its bits, and freeing a frame toggles its bit back.
-/

open Aenix

namespace Pfa

variable {s : State} (num : UInt32)

/-! ### The search for free frames -/

/-- The variables of the search before position `p` of the bitmap. -/
def Search.Run (s : State) (p : ℕ) (q : Search) : Prop :=
  q.framesFound ≠ 0 →
    q.bitIdx.toNat + q.framesFound.toNat = p ∧
    ∀ i, q.bitIdx.toNat ≤ i → i < p → bit s i = true

/-- The frames with the `num` indices from `b` on may be handed out, when the search has come
to position `p`. -/
structure Found (s : State) (num : UInt32) (p : ℕ) (b : UInt32) : Prop where
  pos : 0 < num.toNat
  fits : fitsInOneMmapEntry s b num = true
  le : b.toNat + num.toNat ≤ p
  free : ∀ i, b.toNat ≤ i → i < b.toNat + num.toNat → bit s i = true

/-- The outcome of the search up to position `p`. -/
def Outcome (s : State) (num : UInt32) (p : ℕ) : Search ⊕ UInt32 → Prop
  | .inl q => q.Run s p
  | .inr b => Found s num p b

theorem Search.run_zero (p : ℕ) (b : UInt32) :
  Search.Run s p ⟨0, b⟩
  := fun h => absurd rfl h

theorem Found.mono {num : UInt32} {p p' : ℕ} {b : UInt32} (h : Found s num p b) (hle : p ≤ p') :
  Found s num p' b
  := { h with le := h.le.trans hle }

theorem outcome_inr_mono {num : UInt32} {p p' : ℕ} {b : UInt32} (h : Outcome s num p (.inr b)) (hle : p ≤ p') :
  Outcome s num p' (.inr b)
  := Found.mono h hle

/-- The test of the inner loop reads the bit with the index of the position. -/
theorem shiftRight_and_one_iff {i j : UInt32} (hj : j.toNat < 32) :
  (s.start i.toNat >>> (31 - j)) &&& 1 = 1 ↔ bit s (32 * i.toNat + j.toNat) = true
  := by
  have hsub : (31 - j).toNat = 31 - j.toNat := by
    rw [UInt32.toNat_sub_of_le _ _ (by rw [UInt32.le_iff_toNat_le]; simp; omega)]
    simp
  have hdiv : (32 * i.toNat + j.toNat) / 32 = i.toNat := by omega
  have hmod : (32 * i.toNat + j.toNat) % 32 = j.toNat := by omega
  rw [bit, hdiv, hmod, ← UInt32.toNat_inj, UInt32.toNat_and, UInt32.toNat_shiftRight, hsub,
    Nat.mod_eq_of_lt (by omega : 31 - j.toNat < 32), UInt32.toNat_one, Nat.and_one_is_mod,
    Nat.testBit_eq_decide_div_mod_eq, Nat.shiftRight_eq_div_pow, decide_eq_true_iff]

theorem toNat_position {i j : UInt32} (hlt : 32 * i.toNat + j.toNat < 2 ^ 32) :
  (i * 32 + j).toNat = 32 * i.toNat + j.toNat
  := by
  rw [UInt32.toNat_add, UInt32.toNat_mul, show (32 : UInt32).toNat = 32 from rfl]
  omega

/-- A free frame at position `p` extends the run before it. -/
theorem Search.Run.extend {p : ℕ} {q : Search} {b : UInt32} (hq : q.Run s p)
    (hb : b.toNat = p) (hp : p < 2 ^ 20) (hfree : bit s p = true) :
  Search.Run s (p + 1) ⟨q.framesFound + 1, if q.framesFound = 0 then b else q.bitIdx⟩ ∧
    0 < (q.framesFound + 1).toNat
  := by
  by_cases hzero : q.framesFound = 0
  · rw [hzero, if_pos rfl, show (0 : UInt32) + 1 = 1 from rfl]
    refine ⟨fun _ => ⟨by simp [hb], ?_⟩, by decide⟩
    intro i hi hip
    obtain rfl : i = p := by
      simp only [hb] at hi
      omega
    apply hfree
  · obtain ⟨hsum, hbits⟩ := hq hzero
    have hadd : (q.framesFound + 1).toNat = q.framesFound.toNat + 1 := by
      rw [UInt32.toNat_add, UInt32.toNat_one]
      omega
    rw [if_neg hzero]
    refine ⟨fun _ => ⟨by simp only [hadd]; omega, ?_⟩, by omega⟩
    intro i hi hip
    rcases Nat.lt_succ_iff_lt_or_eq.mp hip with hlt | rfl
    · apply hbits i hi hlt
    · apply hfree

/-- One round of the inner loop of `pfa_allocate`. -/
theorem searchBit_spec {i j : UInt32} {q : Search} (hj : j.toNat < 32)
    (hlt : 32 * i.toNat + j.toNat < 2 ^ 20) (hq : q.Run s (32 * i.toNat + j.toNat)) :
  Outcome s num (32 * i.toNat + j.toNat + 1) (searchBit s num (s.start i.toNat) i j q)
  := by
  rw [searchBit]
  by_cases hbit : (s.start i.toNat >>> (31 - j)) &&& 1 = 1
  · obtain ⟨hrun, hpos⟩ := hq.extend (toNat_position (by omega)) hlt
      ((shiftRight_and_one_iff hj).mp hbit)
    rw [if_pos hbit]
    set b := if q.framesFound = 0 then i * 32 + j else q.bitIdx
    by_cases hnum : q.framesFound + 1 = num
    · simp only [if_pos hnum]
      by_cases hfits : fitsInOneMmapEntry s b num = true
      · rw [if_pos hfits]
        obtain ⟨hsum, hbits⟩ := hrun (by
          intro hzero
          simp only at hzero
          simp [hzero] at hpos)
        simp only [hnum] at hsum hbits hpos
        exact ⟨hpos, hfits, hsum.le, fun k hk hkb => hbits k hk (hsum ▸ hkb)⟩
      · rw [if_neg hfits]
        apply Search.run_zero
    · simp only [if_neg hnum]
      apply hrun
  · rw [if_neg hbit]
    apply Search.run_zero

/-! ### Invariants of the search -/

section Rule

/-- `I p` relates the position `p` of the search to its variables, or to the index it has found.  It
is an invariant when every bit keeps it, and every cell that is skipped. -/
structure Search.Invariant (s : State) (num : UInt32) (I : ℕ → Search ⊕ UInt32 → Prop) : Prop where
  bit : ∀ (i j : UInt32) q, j.toNat < 32 → 32 * i.toNat + j.toNat < 2 ^ 20 →
    I (32 * i.toNat + j.toNat) (.inl q) →
    I (32 * i.toNat + j.toNat + 1) (searchBit s num (s.start i.toNat) i j q)
  skip : ∀ (i : UInt32) q, s.start i.toNat = 0 → I (32 * i.toNat) (.inl q) →
    I (32 * i.toNat + 32) (.inl ⟨0, q.bitIdx⟩)
  found : ∀ p p' b, p ≤ p' → I p (.inr b) → I p' (.inr b)

variable {num : UInt32} {I : ℕ → Search ⊕ UInt32 → Prop}

/-- The inner loop of `pfa_allocate`, with `n` bits of the cell to go. -/
theorem Search.Invariant.searchBits (h : Search.Invariant s num I) {i : UInt32}
    (hlt : 32 * i.toNat + 32 < 2 ^ 20) {n : ℕ} (hn : n ≤ 32) {q : Search}
    (hq : I (32 * i.toNat + (32 - n)) (.inl q)) :
  I (32 * i.toNat + 32) (searchBits s num (s.start i.toNat) i n q)
  := by
  induction n generalizing q with
  | zero => apply hq
  | succ n ih =>
      have hj : (31 - UInt32.ofNat n).toNat = 31 - n := by
        have hof : (UInt32.ofNat n).toNat = n := UInt32.toNat_ofNat_of_lt' (by
          rw [UInt32.size]
          omega)
        rw [UInt32.toNat_sub_of_le _ _ (by rw [UInt32.le_iff_toNat_le, hof]; simp; omega), hof]
        simp
      have hpos : 32 * i.toNat + (32 - (n + 1)) = 32 * i.toNat + (31 - UInt32.ofNat n).toNat := by
        omega
      rw [hpos] at hq
      have hround := h.bit i _ q (by omega) (by omega) hq
      rw [Pfa.searchBits]
      cases hres : searchBit s num (s.start i.toNat) i (31 - UInt32.ofNat n) q with
      | inl q' =>
          rw [hres] at hround
          apply ih (by omega)
          have hnext : 32 * i.toNat + (31 - UInt32.ofNat n).toNat + 1
              = 32 * i.toNat + (32 - n) := by omega
          rwa [hnext] at hround
      | inr b =>
          rw [hres] at hround
          apply h.found _ _ b _ hround
          omega

/-- The outer loop of `pfa_allocate`, with `n` cells to go. -/
theorem Search.Invariant.searchCells (h : Search.Invariant s num I) {n : ℕ} {i : UInt32}
    (hlt : 32 * (i.toNat + n) < 2 ^ 20) {q : Search} (hq : I (32 * i.toNat) (.inl q)) :
  I (32 * (i.toNat + n)) (searchCells s num n i q)
  := by
  induction n generalizing i q with
  | zero => apply hq
  | succ n ih =>
      have hi : (i + 1).toNat = i.toNat + 1 := by
        rw [UInt32.toNat_add, UInt32.toNat_one]
        omega
      have hstop : i.toNat + (n + 1) = (i + 1).toNat + n := by omega
      have hnext : 32 * (i + 1).toNat = 32 * i.toNat + 32 := by omega
      rw [Pfa.searchCells, hstop]
      by_cases hcell : s.start i.toNat = 0
      · simp only [if_pos hcell]
        apply ih (by omega)
        rw [hnext]
        apply h.skip i q hcell hq
      · simp only [if_neg hcell]
        have hround := h.searchBits (by omega) le_rfl hq
        cases hres : Pfa.searchBits s num (s.start i.toNat) i 32 q with
        | inl q' =>
            rw [hres] at hround
            apply ih (by omega)
            rwa [hnext]
        | inr b =>
            rw [hres] at hround
            apply h.found _ _ b _ hround
            omega

end Rule

/-- The outcome of the search is an invariant. -/
theorem outcome_invariant :
  Search.Invariant s num (Outcome s num)
  := by
  constructor
  · intro i j q hj hlt hq
    apply searchBit_spec num hj hlt hq
  · intro i q _ _
    apply Search.run_zero
  · intro p p' b hle h
    apply outcome_inr_mono h hle

/-! ### Toggling bits -/

theorem toggleBitsFrom_mmap (stop : UInt32) (n : ℕ) (s : State) (i : UInt32) :
  (toggleBitsFrom stop n s i).mmap = s.mmap ∧ (toggleBitsFrom stop n s i).len = s.len
  := by
  induction n generalizing s i with
  | zero => exact ⟨rfl, rfl⟩
  | succ n ih =>
      rw [toggleBitsFrom]
      split
      · apply ih
      · exact ⟨rfl, rfl⟩

/-- `toggle_bits` changes the bits with the given indices and no other. -/
theorem bit_toggleBitsFrom {stop b : UInt32} {n : ℕ} (s : State)
    (hstop : stop.toNat = b.toNat + n) (i : ℕ) :
  bit (toggleBitsFrom stop n s b) i = (bit s i ^^ decide (b.toNat ≤ i ∧ i < b.toNat + n))
  := by
  induction n generalizing s b with
  | zero =>
      have hnot : ¬ (b.toNat ≤ i ∧ i < b.toNat + 0) := by omega
      rw [toggleBitsFrom, decide_eq_false hnot, Bool.xor_false]
  | succ n ih =>
      have hsucc : (b + 1).toNat = b.toNat + 1 := by
        have := stop.toNat_lt
        rw [UInt32.toNat_add, UInt32.toNat_one]
        omega
      have hlt : b < stop := by
        rw [UInt32.lt_iff_toNat_lt]
        omega
      rw [toggleBitsFrom, if_pos hlt, ih _ (by omega), bit_toggleBit, Bool.xor_assoc, hsucc]
      congr 1
      by_cases hib : i = b.toNat
      · simp [hib]
      · simp only [hib, decide_false, Bool.false_xor, decide_eq_decide]
        omega

theorem bit_toggleBits {b num : UInt32} (s : State) (h : b.toNat + num.toNat < 2 ^ 32) (i : ℕ) :
  bit (toggleBits s b num) i = (bit s i ^^ decide (b.toNat ≤ i ∧ i < b.toNat + num.toNat))
  := by
  apply bit_toggleBitsFrom
  rw [UInt32.toNat_add]
  omega

/-! ### Allocation -/

/-- What `pfa_allocate` does: it returns 0 and leaves the allocator alone, or it takes `num`
frames with consecutive indices in one region, all of which are free. -/
theorem FrameMap.pfaAllocate_spec (h : FrameMap s) (num : UInt32) :
  pfaAllocate s num = (0, s) ∨
    ∃ b : UInt32, 0 < num.toNat ∧ b.toNat + num.toNat < 2 ^ 20 ∧
      (∀ i, b.toNat ≤ i → i < b.toNat + num.toNat → bit s i = true) ∧
      pfaAllocate s num = (paddrForIdx s b, toggleBits s b num) ∧
      ∃ r ∈ s.mmap, ∃ k, k + num.toNat ≤ r.len.toNat / 4096 ∧
        ∀ j < num.toNat, s.frames[b.toNat + j]? = some (r.addr.toNat + 4096 * (k + j))
  := by
  have hlen := h.len_lt
  have hcells : 32 * (divCeil s.len 32).toNat < 2 ^ 20 := by
    rw [toNat_divCeil (UInt32.lt_iff_toNat_lt.mp h.pos),
      show (32 : UInt32).toNat = 32 from rfl]
    omega
  have hsearch := (outcome_invariant (s := s) num).searchCells (n := (divCeil s.len 32).toNat) (i := 0)
    (by simpa using hcells) (Search.run_zero (s := s) _ 0)
  rw [pfaAllocate]
  cases hres : searchCells s num (divCeil s.len 32).toNat 0 ⟨0, 0⟩ with
  | inl q =>
      left
      rfl
  | inr b =>
      right
      rw [hres] at hsearch
      have hle := hsearch.le
      have hlt : b.toNat + num.toNat < 2 ^ 20 := by
        simp at hle
        omega
      exact ⟨b, hsearch.pos, hlt, hsearch.free, rfl, h.fits hlt hsearch.fits⟩

end Pfa
