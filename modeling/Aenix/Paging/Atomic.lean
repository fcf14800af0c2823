import Aenix.Paging.Exact

/-!
# All or nothing

`pdt_map_memory` undoes nothing when it fails: the pages and page tables that it has installed
before a page that cannot be mapped stay.  So the call is all or nothing only if the whole range
can be mapped, or its first page already stands in the way (`map_memory_all_or_nothing_iff`).
-/

open Aenix

namespace Paging

variable {s s' s₁ : State} {d paddr vaddr size total r : UInt32} {rw pl : UInt8} {p m : ℕ}

/-- The whole range is mapped and the size returned, or 0 is returned and nothing has changed. -/
def AllOrNothing (s s' : State) (d paddr vaddr size : UInt32) (rw pl : UInt8) (r : UInt32) : Prop :=
  (r = alignUp size fourKb ∧
    ∀ k < pages size, s'.page d (vaddr + UInt32.ofNat k * fourKb) =
      some (createPtEntry (paddr + UInt32.ofNat k * fourKb) rw pl)) ∨
  (r = 0 ∧ (∀ v, s'.page d v = s.page d v) ∧ s'.pfa = s.pfa)

/-- The slots that the `p` pages from `vaddr` on touch and that have no page table. -/
def State.missing (s : State) (d vaddr : UInt32) (p : ℕ) : Set ℕ :=
  {i | ¬ s.has d i ∧ ∃ v, pageOff vaddr v < p ∧ virtualToPdtIdx v = i}

/-- Nothing stands in the way of the `p` pages from `vaddr` on, and there are enough frames for
the page tables they need. -/
structure Mappable (s : State) (d vaddr : UInt32) (p : ℕ) : Prop where
  vacant : ∀ v, pageOff vaddr v < p → s.page d v = none
  spared : ∀ v, pageOff vaddr v < p → ¬ s.Reserved d v
  frames : (s.missing d vaddr p).ncard ≤ s.pfa.free.ncard

/-- The page at `v` is blocked, and no frame is taken in finding out. -/
def BlockedAtOnce (s : State) (d v : UInt32) : Prop :=
  if s.has d (virtualToPdtIdx v) then s.page d v ≠ none ∨ s.Reserved d v else s.pfa.free = ∅

/-! ### Frames for the page tables -/

theorem finite_free (s : State) :
  s.pfa.free.Finite
  := by
  apply s.pfa.frames.finite_toSet.subset
  intro f hf
  exact Pfa.free_subset_frames hf

theorem finite_missing (s : State) (d vaddr : UInt32) (p : ℕ) :
  (s.missing d vaddr p).Finite
  := by
  apply (Set.finite_Iio 1024).subset
  rintro i ⟨-, v, -, rfl⟩
  exact virtualToPdtIdx_lt v

theorem Maps.has_of_lt (h : Maps s s' d paddr vaddr rw pl m) {v : UInt32}
    (hv : pageOff vaddr v < m) :
  s'.has d (virtualToPdtIdx v)
  := by
  by_contra hnot
  have hpage := h.page v
  rw [State.page_of_not_has hnot, if_pos hv] at hpage
  simp at hpage

/-- What has been mapped could be: the new page tables are distinct frames that were free. -/
theorem Maps.mappable (h : Maps s s' d paddr vaddr rw pl m) :
  Mappable s d vaddr m
  := by
  refine ⟨h.vacant, h.spared, ?_⟩
  apply Set.ncard_le_ncard_of_injOn (fun i => (s'.table d i).toNat) _ _ (finite_free s)
  · rintro i ⟨hnot, v, hv, rfl⟩
    rcases h.has_iff (virtualToPdtIdx_lt v) (h.has_of_lt hv) with ⟨hold, -⟩ | ⟨-, hfree, -⟩
    · exact absurd hold hnot
    · exact hfree
  · rintro i ⟨-, v, hv, rfl⟩ j ⟨-, w, hw, rfl⟩ heq
    exact h.separate.table_inj _ (virtualToPdtIdx_lt v) _ (virtualToPdtIdx_lt w) (h.has_of_lt hv)
      (h.has_of_lt hw) (UInt32.toNat_inj.mp heq)

/-- When the frames are used up and one more page table is needed, there were too few of them. -/
theorem Maps.missing_lt (h : Maps s s' d paddr vaddr rw pl m) (hspent : Spent s s' d)
    (hempty : s'.pfa.free = ∅) (hm : m ≤ p) {v : UInt32} (hv : pageOff vaddr v < p)
    (hnot : ¬ s'.has d (virtualToPdtIdx v)) :
  s.pfa.free.ncard < (s.missing d vaddr p).ncard
  := by
  have hi := virtualToPdtIdx_lt v
  set opened : Set ℕ := {i | i < 1024 ∧ ¬ s.has d i ∧ s'.has d i} with hopened
  have hfinite : opened.Finite := (Set.finite_Iio 1024).subset fun i hi => hi.1
  -- each of the frames has become the page table of a slot
  have himage : s.pfa.free ⊆ (fun i => (s'.table d i).toNat) '' opened := by
    intro f hf
    rcases hspent f hf with hfree | ⟨i, hi, hold, hnew, heq⟩
    · rw [hempty] at hfree
      exact absurd hfree (Set.notMem_empty f)
    · exact ⟨i, ⟨hi, hold, hnew⟩, heq⟩
  have hsub : opened ⊂ s.missing d vaddr p := by
    constructor
    · rintro i ⟨hi, hold, hnew⟩
      rcases h.opened i hi hold with heq | ⟨-, -, -, -, -, w, hw, hwi⟩
      · rw [State.has, heq] at hnew
        exact absurd hnew hold
      · exact ⟨hold, w, by omega, hwi⟩
    · intro hback
      have hin : virtualToPdtIdx v ∈ opened := by
        apply hback
        refine ⟨?_, v, hv, rfl⟩
        intro hold
        rw [State.has, h.kept _ hi hold] at hnot
        exact hnot hold
      exact hnot hin.2.2
  calc s.pfa.free.ncard
    _ ≤ ((fun i => (s'.table d i).toNat) '' opened).ncard :=
        Set.ncard_le_ncard himage (hfinite.image _)
    _ ≤ opened.ncard := Set.ncard_image_le hfinite
    _ < (s.missing d vaddr p).ncard := Set.ncard_lt_ncard hsub (finite_missing s d vaddr p)

/-! ### The outcome of a call -/

/-- A range that can be mapped is mapped. -/
theorem Outcome.eq_of_mappable (h : Outcome s d paddr vaddr rw pl p m s₁ total r s')
    (hdir : Separate s d) (hp : p < 2 ^ 20) (hmappable : Mappable s d vaddr p) :
  m = p
  := by
  rcases h.stop with ⟨hm, -⟩ | ⟨hlt, -, hblocked, -⟩
  · exact hm
  · have hoff : pageOff vaddr (vaddr + UInt32.ofNat m * fourKb) = m :=
      pageOff_add_ofNat vaddr (by omega)
    have hreserved : ¬ s₁.Reserved d (vaddr + UInt32.ofNat m * fourKb) := by
      rw [h.maps.reserved_iff hdir]
      apply hmappable.spared
      omega
    rw [Blocked] at hblocked
    split at hblocked
    case isTrue =>
      rcases hblocked with hpage | hres
      · rw [h.maps.page, if_neg (by omega), hmappable.vacant _ (by omega)] at hpage
        exact absurd rfl hpage
      · exact absurd hres hreserved
    case isFalse hnot =>
      rcases hblocked with hempty | hres
      · have hfew := h.maps.missing_lt h.spent hempty hlt.le (by omega) hnot
        exact absurd hmappable.frames (by omega)
      · exact absurd hres hreserved

/-- Nothing is mapped when the first page is blocked. -/
theorem Outcome.eq_zero_of_blockedAtOnce (h : Outcome s d paddr vaddr rw pl p m s₁ total r s')
    (hblocked : BlockedAtOnce s d vaddr) :
  m = 0
  := by
  by_contra hm
  have hoff : pageOff vaddr vaddr = 0 := by
    rw [pageOff]
    omega
  have hi := virtualToPdtIdx_lt vaddr
  have hpos : pageOff vaddr vaddr < m := by omega
  rw [BlockedAtOnce] at hblocked
  split at hblocked
  case isTrue =>
    rcases hblocked with hpage | hres
    · exact hpage (h.maps.vacant vaddr hpos)
    · exact h.maps.spared vaddr hpos hres
  case isFalse hnot =>
    rcases h.maps.has_iff hi (h.maps.has_of_lt hpos) with ⟨hold, -⟩ | ⟨-, hfree, -⟩
    · exact hnot hold
    · rw [hblocked] at hfree
      exact hfree

/-- A call that fails at its first page changes no translation, and it takes no frame if and only
if the page is blocked at once. -/
theorem Outcome.unchanged_iff (h : Outcome s d paddr vaddr rw pl p 0 s₁ total r s')
    (hpfa : Pfa.FrameMap s.pfa) (hp : 0 < p) :
  r = 0 ∧ (∀ v, s'.page d v = s.page d v) ∧ (s'.pfa = s.pfa ↔ BlockedAtOnce s d vaddr)
  := by
  obtain rfl : s₁ = s := h.none rfl
  rcases h.stop with ⟨hzero, -⟩ | ⟨-, hr, hblocked, hmaps, htaken⟩
  · omega
  · have hfirst : vaddr + UInt32.ofNat 0 * fourKb = vaddr := by simp
    rw [hfirst] at hblocked hmaps htaken
    refine ⟨hr, ?_, ?_⟩
    · intro v
      rw [hmaps.page, if_neg (by omega)]
    · rw [htaken, BlockedAtOnce]
      rw [Blocked] at hblocked
      split
      case isTrue hhas =>
        rw [if_pos hhas] at hblocked
        exact iff_of_true rfl hblocked
      case isFalse =>
        rcases pfaAllocate_one hpfa with ⟨hempty, hfail⟩ | ⟨t, pfa, hok, -, -, hin, hfree, -⟩
        · rw [hfail]
          exact iff_of_true rfl hempty
        · apply iff_of_false
          · rw [hok]
            rintro rfl
            rw [hfree] at hin
            exact hin.2 rfl
          · intro hempty
            rw [hempty] at hin
            exact hin

/-- `pdt_map_memory` is all or nothing if and only if the whole range can be mapped, or its first
page is blocked without a frame being taken. -/
theorem map_memory_all_or_nothing_iff (hpfa : Pfa.FrameMap s.pfa) (h : Separate s d)
    (hrun : pdtMapMemory s d paddr vaddr size rw pl = (r, s')) :
  AllOrNothing s s' d paddr vaddr size rw pl r ↔
    Mappable s d vaddr (pages size) ∨ BlockedAtOnce s d vaddr
  := by
  have hlt := pages_lt size
  obtain ⟨m, s₁, s₂, r₂, hrun₂, hout⟩ := pdtMapMemory_outcome hpfa h paddr vaddr size rw pl
  obtain ⟨rfl, rfl⟩ := Prod.mk.inj (hrun₂.symm.trans hrun)
  rcases hout.stop with ⟨hm, hr, rfl⟩ | ⟨hm, hr, -, hmaps, -⟩
  · -- all the pages are mapped
    subst hm
    refine iff_of_true (Or.inl ⟨hr, ?_⟩) (Or.inl hout.maps.mappable)
    intro k hk
    rw [hout.maps.page, pageOff_add_ofNat vaddr (by omega), if_pos hk]
  · have hsize : r₂ ≠ alignUp size fourKb := by
      intro heq
      have hzero := toNat_alignUp_fourKb size
      rw [← heq, hr, UInt32.toNat_zero] at hzero
      omega
    have hnot : ¬ Mappable s d vaddr (pages size) :=
      fun hmappable => hm.ne (hout.eq_of_mappable h hlt hmappable)
    rcases Nat.eq_zero_or_pos m with rfl | hpos
    · obtain ⟨-, hpage, hiff⟩ := hout.unchanged_iff hpfa hm
      rw [AllOrNothing, or_iff_right (fun hall => hsize hall.1), or_iff_right hnot, ← hiff]
      exact ⟨fun hsame => hsame.2.2, fun hsame => ⟨hr, hpage, hsame⟩⟩
    · -- the first page has got a translation
      have hfirst : pageOff vaddr vaddr < m := by
        rw [pageOff]
        omega
      apply iff_of_false
      · rintro (⟨heq, -⟩ | ⟨-, hpage, -⟩)
        · exact hsize heq
        · have hnew := hpage vaddr
          rw [hmaps.page, if_neg (by omega), hout.maps.page, if_pos hfirst,
            hout.maps.vacant vaddr hfirst] at hnew
          simp at hnew
      · rintro (hmappable | hblocked)
        · exact hnot hmappable
        · exact hpos.ne' (hout.eq_zero_of_blockedAtOnce hblocked)

/-- The page that is present in `oneTable` cannot be mapped. -/
theorem map_memory_all_or_nothing_iff_oneTable :
  ∃ r s', pdtMapMemory oneTable 0x101000 0x300000 0xC0005000 4096 1 0 = (r, s') ∧
    BlockedAtOnce oneTable 0x101000 0xC0005000 ∧
    AllOrNothing oneTable s' 0x101000 0x300000 0xC0005000 4096 1 0 r
  := by
  have hblocked : BlockedAtOnce oneTable 0x101000 0xC0005000 := by
    rw [BlockedAtOnce, if_pos (by decide)]
    exact Or.inl (by decide)
  obtain ⟨r, s', hrun⟩ : ∃ r s', pdtMapMemory oneTable 0x101000 0x300000 0xC0005000 4096 1 0 =
      (r, s') := ⟨_, _, rfl⟩
  exact ⟨r, s', hrun, hblocked, (map_memory_all_or_nothing_iff kernelState_oneTable.pfa
    kernelState_oneTable.dir.toSeparate hrun).mpr (Or.inr hblocked)⟩

/-- Of the pages at `0xC0004000` and `0xC0005000` the second is present in `oneTable`: the call
returns 0, and the first stays mapped. -/
theorem first_page_left_mapped :
  Pfa.FrameMap oneTable.pfa ∧ Separate oneTable 0x101000 ∧
    ∃ s', pdtMapMemory oneTable 0x101000 0x300000 0xC0004000 8192 1 0 = (0, s') ∧
      ¬ AllOrNothing oneTable s' 0x101000 0x300000 0xC0004000 8192 1 0 0
  := by
  refine ⟨kernelState_oneTable.pfa, kernelState_oneTable.dir.toSeparate, _,
    Prod.ext (by decide +kernel) rfl, ?_⟩
  rintro (⟨hr, -⟩ | ⟨-, hpage, -⟩)
  · exact absurd hr (by decide)
  · exact absurd (hpage 0xC0004000) (by decide +kernel)

end Paging
