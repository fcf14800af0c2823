import Aenix.Paging.Find
import Aenix.Pfa.Free

/-!
# Creating a directory

`pdt_create` gives its frame back when it cannot be mapped in the kernel, because there is no frame for the page table
that the place needs, or no place (`NoPlace`).  In all other cases a page of the kernel is mapped, also when
`pdt_create` has got no frame, or no place: these then are 0 (`pdtCreate_outcome`).
-/

open Aenix

namespace Paging

variable {s s' : State} {pfa : Pfa.State}

/-! ### The place for a directory -/

/-- No page can be mapped for a new directory.  The first slot of the kernel half with room for a page has no page
table, and one frame is free at most; or no slot has room, and the same holds of the page at address 0, or it is mapped
already. -/
def NoPlace (s : State) : Prop :=
  (∃ i, s.FirstRoom i 1 ∧ ¬ s.has s.kernelPdt i ∧ s.pfa.free.Subsingleton) ∨
    ((∀ i, kernelPdtIdx ≤ i → i < 1024 → ¬ s.Room i 1) ∧
      if s.has s.kernelPdt 0 then s.page s.kernelPdt 0 ≠ none else s.pfa.free.Subsingleton)

/-- One frame is taken, and there is no other one. -/
theorem free_eq_empty_iff (h : Pfa.FrameMap pfa) :
  (Pfa.pfaAllocate pfa 1).2.free = ∅ ↔ pfa.free.Subsingleton
  := by
  rcases pfaAllocate_one h with ⟨hempty, halloc⟩ | ⟨t, pfa', halloc, -, -, hin, hfree, -⟩
  · simp [halloc, hempty]
  · rw [halloc, hfree]
    constructor
    · intro hnone f hf g hg
      have hall : ∀ x ∈ pfa.free, x = t.toNat := by
        intro x hx
        by_contra hne
        exact Set.notMem_empty x (hnone ▸ ⟨hx, hne⟩)
      rw [hall f hf, hall g hg]
    · intro hone
      rw [Set.eq_empty_iff_forall_notMem]
      rintro f ⟨hf, hne⟩
      exact hne (hone hf hin)

/-- The state after a frame was taken. -/
abbrev State.takeFrame (s : State) : State :=
  { s with pfa := (Pfa.pfaAllocate s.pfa 1).2 }

/-- The place that is found for a directory can be used, except when there is no place for one. -/
theorem findPlace_spec (hpfa : Pfa.FrameMap s.pfa) (hdir : Dir s s.kernelPdt) :
  ∃ v, pdtKernelFindNextVaddr s.takeFrame pdtSize = (v, s.takeFrame) ∧ ¬ s.takeFrame.Reserved s.kernelPdt v ∧
    (BlockedAtOnce s.takeFrame s.kernelPdt v ↔ NoPlace s)
  := by
  have hone : pages pdtSize = 1 := by decide
  obtain ⟨v, hfind, hzero, hplace⟩ := pdtKernelFindNextVaddr_first (s := s.takeFrame) (show 0 < pages pdtSize by decide)
  rw [hone] at hzero hplace
  refine ⟨v, hfind, ?_⟩
  rw [BlockedAtOnce, free_eq_empty_iff hpfa, NoPlace]
  by_cases hv : v = 0
  · -- the page at address 0 is taken
    have hfull : ∀ i, kernelPdtIdx ≤ i → i < 1024 → ¬ s.Room i 1 := hzero hv
    have hroom : ¬ ∃ i, s.FirstRoom i 1 ∧ ¬ s.has s.kernelPdt i ∧ s.pfa.free.Subsingleton := by
      rintro ⟨i, ⟨hle, hi, hroom, -⟩, -⟩
      exact hfull i hle hi hroom
    have hreserved : ¬ s.takeFrame.Reserved s.kernelPdt v := by
      rw [hv]
      rintro ⟨hidx, -⟩
      exact absurd hidx (by decide)
    refine ⟨hreserved, ?_⟩
    rw [or_iff_left hreserved, or_iff_right hroom, and_iff_right hfull, hv]
    exact Iff.rfl
  · obtain ⟨i, j, hroom, hnat, hfree⟩ := hplace hv
    have hroom' : s.FirstRoom i 1 := hroom
    have hfull : ¬ ∀ i, kernelPdtIdx ≤ i → i < 1024 → ¬ s.Room i 1 :=
      fun hfull => hfull i hroom'.1 hroom'.2.1 hroom'.2.2.1
    have hj : j + 1 ≤ 1024 := by
      rw [State.Free] at hfree
      split at hfree
      · exact hfree.2.1
      · omega
    obtain ⟨hidx, hidx'⟩ := virtualToIdx_of_slot Nat.one_pos hnat hj
    rw [hidx, or_iff_left (b := _ ∧ _) fun h => hfull h.1]
    by_cases hhas : s.has s.kernelPdt i
    · -- the entry that is found is vacant
      have hhas' : s.takeFrame.has s.takeFrame.kernelPdt i := hhas
      rw [State.Free, if_pos hhas'] at hfree
      obtain ⟨habsent, hspared⟩ := hfree.2.2 j le_rfl (Nat.lt_succ_self j)
      have hreserved : ¬ s.takeFrame.Reserved s.kernelPdt v := by
        rintro ⟨htmp, hpt⟩
        rw [hidx'] at htmp
        rw [hidx] at hpt
        rcases hpt with hkernel | ⟨-, htable⟩
        · exact hspared ⟨hkernel, htmp⟩
        · exact hspared ⟨hdir.table_pt i hroom'.2.1 hhas htable, htmp⟩
      refine ⟨hreserved, iff_of_false ?_ ?_⟩
      · rw [if_pos hhas', or_iff_left hreserved, not_not, State.page_of_has (by rwa [hidx]), hidx, hidx']
        simp only [habsent]
        rfl
      · rintro ⟨l, hl, hnot, -⟩
        rw [hl.unique hroom'] at hnot
        exact hnot hhas
    · have hhas' : ¬ s.takeFrame.has s.takeFrame.kernelPdt i := hhas
      rw [State.Free, if_neg hhas'] at hfree
      refine ⟨?_, ?_⟩
      · rintro ⟨htmp, -⟩
        rw [hidx', hfree] at htmp
        exact absurd htmp (by decide)
      · rw [if_neg hhas']
        constructor
        · exact fun hone => ⟨i, hroom', hhas, hone⟩
        · rintro ⟨-, -, -, hone⟩
          exact hone

/-! ### The frame and the page -/

theorem takeFrame_frameMap (hpfa : Pfa.FrameMap s.pfa) :
  Pfa.FrameMap s.takeFrame.pfa
  := by
  rcases pfaAllocate_one hpfa with ⟨-, halloc⟩ | ⟨t, pfa', halloc, -, hmap, -⟩
  · rw [State.takeFrame, halloc]
    exact hpfa
  · rw [State.takeFrame, halloc]
    exact hmap.frameMap hpfa

/-- The frame that was taken is given back, if there was one. -/
theorem pfaFree_takeFrame (hpfa : Pfa.FrameMap s.pfa) :
  (Pfa.pfaFree s.takeFrame.pfa (Pfa.pfaAllocate s.pfa 1).1).free = s.pfa.free
  := by
  rcases pfaAllocate_one hpfa with ⟨-, halloc⟩ | ⟨t, pfa', halloc, -, hmap, hin, hfree, hdvd⟩
  · rw [State.takeFrame, halloc]
    exact hpfa.pfaFree_zero
  · rw [State.takeFrame, halloc]
    have hframe : Pfa.frameOf t = t.toNat := by
      rw [Pfa.frameOf]
      omega
    have hmanaged : Pfa.frameOf t ∈ pfa'.frames := by
      rw [hframe, hmap.frames]
      exact Pfa.free_subset_frames hin
    have hused : Pfa.frameOf t ∉ pfa'.free := by
      rw [hframe, hfree]
      exact fun h => h.2 rfl
    obtain ⟨-, hgiven⟩ := (hmap.frameMap hpfa).pfaFree_free hmanaged hused
    rw [hgiven, hframe, hfree]
    ext f
    by_cases hf : f = t.toNat
    · rw [hf]
      exact iff_of_true (Set.mem_insert _ _) hin
    · simp [hf]

/-- There is no frame at address 0. -/
theorem ne_zero_of_mem_frames (h : Pfa.FrameMap pfa) {f : UInt32} (hf : f.toNat ∈ pfa.frames) :
  f ≠ 0
  := by
  rintro rfl
  rw [Pfa.State.frames, Pfa.framesOf, Frames.mem_frames] at hf
  obtain ⟨_, hmem, k, -, heq⟩ := hf
  obtain ⟨r, hr, rfl⟩ := List.mem_map.mp hmem
  have habove := h.above r hr
  rw [UInt32.lt_iff_toNat_lt] at habove
  simp only [Pfa.MemoryMap.region, UInt32.toNat_zero] at heq
  omega

theorem takeFrame_free_subset (hpfa : Pfa.FrameMap s.pfa) :
  s.takeFrame.pfa.free ⊆ s.pfa.free
  := by
  rcases pfaAllocate_one hpfa with ⟨-, halloc⟩ | ⟨t, pfa', halloc, -, -, -, hfree, -⟩
  · rw [State.takeFrame, halloc]
  · rw [State.takeFrame, halloc, hfree]
    exact Set.sep_subset _ _

/-- The frame that was taken was free, and is so no more; or it is the one at address 0. -/
theorem takeFrame_ne (hpfa : Pfa.FrameMap s.pfa) {f : UInt32} (hne : f ≠ 0)
    (hf : f.toNat ∉ s.pfa.free ∨ f.toNat ∈ s.takeFrame.pfa.free) :
  f ≠ (Pfa.pfaAllocate s.pfa 1).1
  := by
  rcases pfaAllocate_one hpfa with ⟨-, halloc⟩ | ⟨t, pfa', halloc, -, -, hin, hfree, -⟩
  · rwa [halloc]
  · rw [State.takeFrame, halloc] at hf
    rw [halloc]
    rintro rfl
    rcases hf with hnot | hleft
    · exact hnot hin
    · rw [hfree] at hleft
      exact hleft.2 rfl

theorem dvd_takeFrame (hpfa : Pfa.FrameMap s.pfa) :
  4096 ∣ (Pfa.pfaAllocate s.pfa 1).1.toNat
  := by
  rcases pfaAllocate_one hpfa with ⟨-, halloc⟩ | ⟨t, pfa', halloc, -, -, -, -, hdvd⟩
  · rw [halloc]
    exact Nat.dvd_zero _
  · rwa [halloc]

/-- `pdt_create` undoes what it has done, when there is no place for a directory; otherwise it maps a page that was
not mapped. -/
theorem pdtCreate_outcome {r : UInt32 × UInt32} (hpfa : Pfa.FrameMap s.pfa) (hdir : Dir s s.kernelPdt)
    (hpdt : s.kernelPdt ≠ 0) (htables : ∀ i < 1024, s.has s.kernelPdt i → s.table s.kernelPdt i ≠ 0)
    (hrun : pdtCreate s = some (r, s')) :
  (NoPlace s ∧ r = (0, 0) ∧ s'.pfa.free = s.pfa.free ∧ ∀ v, s'.page s'.kernelPdt v = s.page s.kernelPdt v) ∨
    (¬ NoPlace s ∧ s.page s.kernelPdt r.1 = none ∧ s'.page s'.kernelPdt r.1 ≠ none)
  := by
  obtain ⟨v, hfind, hreserved, hblocked⟩ := findPlace_spec hpfa hdir
  have hmap₁ := takeFrame_frameMap hpfa
  have hdir₁ : Separate s.takeFrame s.kernelPdt := hdir.toSeparate.congr rfl (takeFrame_free_subset hpfa) rfl
  obtain ⟨m, s₁, s₂, size, hmap, hout⟩ := pdtMapMemory_outcome hmap₁ hdir₁ (Pfa.pfaAllocate s.pfa 1).1 v pdtSize
    pagingReadWrite pagingPl0
  rw [show pages pdtSize = 1 by decide] at hout
  have hmap' : pdtMapKernelMemory s.takeFrame (Pfa.pfaAllocate s.pfa 1).1 v pdtSize pagingReadWrite pagingPl0 =
      (size, s₂) := hmap
  simp only [pdtCreate, hfind, hmap'] at hrun
  have hmaps := hout.maps
  by_cases hno : NoPlace s
  · left
    obtain rfl := hout.eq_zero_of_blockedAtOnce (hblocked.mpr hno)
    obtain ⟨hzero, hpage, hsame⟩ := hout.unchanged_iff hmap₁ Nat.one_pos
    rw [if_pos (by rw [hzero]; decide)] at hrun
    obtain ⟨rfl, rfl⟩ := Prod.mk.inj (Option.some.inj hrun)
    refine ⟨hno, rfl, ?_, ?_⟩
    · show (Pfa.pfaFree s₂.pfa _).free = _
      rw [hsame.mpr (hblocked.mpr hno)]
      exact pfaFree_takeFrame hpfa
    · have hkernel : s₂.kernelPdt = s.kernelPdt := by
        rw [hout.none rfl] at hout
        rcases hout.stop with ⟨hzero, -⟩ | ⟨-, -, -, hmaps', -⟩
        · exact absurd hzero (by decide)
        · exact hmaps'.vars.kernelPdt
      intro u
      show s₂.page s₂.kernelPdt u = _
      rw [hkernel]
      exact hpage u
  · right
    refine ⟨hno, ?_⟩
    rcases hout.stop with ⟨rfl, rfl, rfl⟩ | ⟨hm, -, hstop, -⟩
    · rw [if_neg (by decide)] at hrun
      obtain ⟨f, hf, heq⟩ := Option.map_eq_some_iff.mp hrun
      obtain ⟨rfl, rfl⟩ := Prod.mk.inj heq
      have hself : pageOff v v = 0 := by
        have hlt := v.toNat_lt
        rw [pageOff]
        omega
      have hkernel : s₂.kernelPdt = s.kernelPdt := hmaps.vars.kernelPdt
      have hnew := hmaps.page v
      rw [hself, if_pos Nat.one_pos] at hnew
      have hframe : f = (Pfa.pfaAllocate s.pfa 1).1 := by
        rw [State.resolve, hkernel, hnew] at hf
        rw [← Option.some.inj hf, paddr_createPtEntry (dvd_add_ofNat (dvd_takeFrame hpfa) (by decide))]
        simp
      refine ⟨hmaps.vacant v (by omega), ?_⟩
      show (s₂.fill f _).page s₂.kernelPdt v ≠ none
      -- the page of the directory is not in the way of what is cleared
      rw [hkernel, State.page_congr, hnew]
      · simp
      · rw [State.mem_fill, hframe, Function.update_of_ne (takeFrame_ne hpfa hpdt (Or.inl hdir.used))]
      · intro hhas
        have hi := virtualToPdtIdx_lt v
        rw [State.mem_fill, hframe, Function.update_of_ne]
        rcases hmaps.has_iff hi hhas with ⟨hold, heq⟩ | ⟨-, hin, -⟩
        · rw [heq]
          exact takeFrame_ne hpfa (htables _ hi hold) (Or.inl (hdir.table_used _ hi hold))
        · exact takeFrame_ne hpfa (ne_zero_of_mem_frames hmap₁ (Pfa.free_subset_frames hin)) (Or.inr hin)
    · obtain rfl : m = 0 := by omega
      obtain rfl := hout.none rfl
      rw [show v + UInt32.ofNat 0 * fourKb = v by simp] at hstop
      apply absurd (hblocked.mp _) hno
      rw [Blocked] at hstop
      rw [BlockedAtOnce]
      split at hstop
      case isTrue hhas =>
        rwa [if_pos hhas]
      case isFalse hhas =>
        rw [if_neg hhas]
        exact hstop.resolve_right hreserved

end Paging
