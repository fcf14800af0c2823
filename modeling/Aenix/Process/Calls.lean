import Aenix.Kmalloc.Safety
import Aenix.Paging.Find
import Aenix.Process.World

/-!
# Calls in a world

What the functions of the other parts of the kernel do to a world.
-/

open Aenix
open Paging hiding Call exec Step

namespace Process

variable {w : World} {s s' : State} {own : Labels} {d p n v paddr vaddr size : UInt32} {k : ℕ}

/-! ### Frames that follow each other -/

theorem toNat_nthPage (h : p.toNat + 4096 * k < 2 ^ 32) :
  (nthPage p k).toNat = p.toNat + 4096 * k
  := by
  rw [nthPage, UInt32.toNat_add, toNat_ofNat_mul_fourKb (by omega)]
  omega

/-- `n` frames from `p` on that lie in the address space. -/
structure Run (p n : UInt32) : Prop where
  dvd : 4096 ∣ p.toNat
  pos : 0 < n.toNat
  fits : p.toNat + 4096 * n.toNat < 2 ^ 32

/-- The `n` frames from `p` on. -/
def framesFrom (p n : UInt32) : Set UInt32 :=
  {f | ∃ k < n.toNat, f = nthPage p k}

theorem Run.toNat_nthPage (h : Run p n) (hk : k < n.toNat) :
  (nthPage p k).toNat = p.toNat + 4096 * k
  := by
  have hfits := h.fits
  apply Process.toNat_nthPage
  omega

theorem Run.dvd_nthPage (h : Run p n) (hk : k < n.toNat) :
  4096 ∣ (nthPage p k).toNat
  := by
  rw [h.toNat_nthPage hk]
  exact h.dvd.add (Nat.dvd_mul_right _ _)

/-- Frames that follow each other fill whole pages. -/
theorem Run.toNat_mul (h : Run p n) :
  (n * fourKb).toNat = 4096 * n.toNat
  := by
  have hfits := h.fits
  rw [UInt32.toNat_mul, toNat_fourKb]
  omega

theorem Run.pages_eq (h : Run p n) :
  pages (n * fourKb) = n.toNat
  := by
  have hfits := h.fits
  have hmul := h.toNat_mul
  rw [Paging.pages_eq (by omega), hmul]
  omega

@[simp]
theorem nthPage_zero (p : UInt32) :
  nthPage p 0 = p
  := by
  simp [nthPage]

theorem framesFrom_one (p : UInt32) :
  framesFrom p 1 = {p}
  := by
  ext f
  constructor
  · rintro ⟨k, hk, rfl⟩
    obtain rfl : k = 0 := by
      rw [UInt32.toNat_one] at hk
      omega
    exact nthPage_zero p
  · rintro rfl
    exact ⟨0, by decide, (nthPage_zero f).symm⟩

/-- All frames are mapped when the size that is returned is not too small. -/
theorem Run.all_mapped (h : Run p n) {m : ℕ} {r : UInt32}
    (hr : (m = pages (n * fourKb) ∧ r = alignUp (n * fourKb) fourKb) ∨ (m < pages (n * fourKb) ∧ r = 0))
    (hle : ¬ r < n * fourKb) :
  m = n.toNat
  := by
  rcases hr with ⟨hm, -⟩ | ⟨-, hr⟩
  · rw [hm, h.pages_eq]
  · have hpos := h.pos
    rw [hr, UInt32.not_lt, UInt32.le_iff_toNat_le, h.toNat_mul, UInt32.toNat_zero] at hle
    omega

theorem nthPage_mem (h : k < n.toNat) :
  nthPage p k ∈ framesFrom p n
  := ⟨k, h, rfl⟩

/-- The pages of a region that begins with a page. -/
theorem pageOff_lt_of_contains {bytes : ℕ} (hdvd : 4096 ∣ vaddr.toNat)
    (h : (⟨vaddr.toNat, 4096 * bytes⟩ : Frames.Region).Contains v.toNat) :
  pageOff vaddr v < bytes
  := by
  have hv := v.toNat_lt
  obtain ⟨hle, hlt⟩ := h
  simp only at hle hlt
  rw [pageOff]
  omega

/-! ### Allocating -/

/-- `pfa_allocate` fails, or the frames it takes follow each other. -/
theorem pfaAllocate_frames {pfa : Pfa.State} (h : Pfa.FrameMap pfa) (n : UInt32) :
  Pfa.pfaAllocate pfa n = (0, pfa) ∨
    ∃ p pfa', Pfa.pfaAllocate pfa n = (p, pfa') ∧ p ≠ 0 ∧ Run p n ∧ Pfa.SameMap pfa pfa' ∧
      pfa'.free ⊆ pfa.free ∧
      ∀ f : UInt32, (f.toNat ∈ pfa.free ∧ f.toNat ∉ pfa'.free) ↔ f ∈ framesFrom p n
  := by
  rcases h.pfaAllocate_free n with hfail | ⟨p, pfa', hok, hp, hpos, hmap, ⟨r, hr, -, hend⟩, hdvd,
    hext, hfree⟩
  · exact Or.inl hfail
  · right
    have hbelow := h.below r hr
    have hrun : Run p n := ⟨hdvd, hpos, by omega⟩
    have hmem : ∀ f : UInt32, f.toNat ∈ Pfa.extent p n ↔ f ∈ framesFrom p n := by
      intro f
      simp only [Pfa.extent, Finset.mem_image, Finset.mem_range, framesFrom, Set.mem_ofPred_eq]
      constructor
      · rintro ⟨k, hk, heq⟩
        refine ⟨k, hk, UInt32.toNat_inj.mp ?_⟩
        rw [hrun.toNat_nthPage hk, heq]
      · rintro ⟨k, hk, rfl⟩
        exact ⟨k, hk, (hrun.toNat_nthPage hk).symm⟩
    refine ⟨p, pfa', hok, ?_, hrun, hmap, ?_, ?_⟩
    · rintro rfl
      exact absurd hp (by decide)
    · rw [hfree]
      exact Set.sep_subset _ _
    · intro f
      rw [hfree, ← hmem]
      constructor
      · rintro ⟨hin, hout⟩
        by_contra hne
        exact hout ⟨hin, hne⟩
      · intro hin
        exact ⟨hext _ hin, fun hout => hout.2 hin⟩

/-- The world after frames were taken for `tag`. -/
noncomputable def World.take (w : World) (pfa : Pfa.State) (tag : Tag)
    (hmap : Pfa.SameMap w.state.pfa pfa) (hfree : pfa.free ⊆ w.state.pfa.free)
    (htag : ∀ d, tag ≠ .pdt d) : World where
  heap := { w.heap with kernel := { w.state with pfa := pfa } }
  own := relabel w.state { w.state with pfa := pfa } tag w.own
  labelled := by
    refine w.labelled.relabel hmap ⟨rfl, rfl, rfl⟩ ?_ htag rfl ?_ ?_
    · exact w.labelled.kernel.congr rfl hfree rfl
    · exact fun _ _ _ => Or.inl rfl
    · intro d hd _
      exact (w.labelled.dirs d hd).congr rfl (fun _ _ => rfl) fun _ _ _ hf => w.labelled.relabel_eq hfree hf

theorem World.take_keeps (w : World) {pfa : Pfa.State} {tag : Tag}
    (hmap : Pfa.SameMap w.state.pfa pfa) (hfree : pfa.free ⊆ w.state.pfa.free)
    (htag : ∀ d, tag ≠ .pdt d) :
  Keeps {tag} ∅ w (w.take pfa tag hmap hfree htag)
  := by
  refine ⟨hmap, ⟨rfl, rfl, rfl⟩, ?_, ?_, fun _ _ _ _ _ => rfl, fun _ _ _ h _ _ _ => h,
    fun _ h => Or.inl h⟩
  · exact fun _ _ hf _ => w.labelled.relabel_eq hfree hf
  · intro f t hf
    obtain ⟨-, ⟨-, rfl⟩ | hold⟩ := relabel_eq_some hf
    · exact Or.inr rfl
    · exact Or.inl hold

/-- `pfa_allocate` fails and nothing changes, or the frames are new and get the label. -/
theorem pfaAllocate_spec (w : World) (n : UInt32) (tag : Tag) (htag : ∀ d, tag ≠ .pdt d) :
  Spec {tag} ∅ (pfaAllocate n) w fun p w' =>
    (p = 0 ∧ w' = w) ∨ (p ≠ 0 ∧ Run p n ∧ w'.state.mem = w.state.mem ∧
      (∀ f ∈ framesFrom p n, w.own f = none) ∧
      ∀ f, w'.own f = some tag ↔ w.own f = some tag ∨ f ∈ framesFrom p n)
  := by
  apply Spec.paging
  intro p s' hrun
  simp only [Option.some.injEq, Prod.mk.injEq] at hrun
  obtain ⟨hp, rfl⟩ := hrun
  rcases pfaAllocate_frames w.labelled.pfa n with hfail | ⟨p', pfa, hok, hne, hrun, hmap, hfree, hin⟩
  · rw [hfail] at hp ⊢
    exact ⟨w, rfl, Keeps.refl _ _ w, Or.inl ⟨hp.symm, rfl⟩⟩
  · rw [hok] at hp ⊢
    subst hp
    refine ⟨w.take pfa tag hmap hfree htag, rfl, w.take_keeps hmap hfree htag, Or.inr ?_⟩
    refine ⟨hne, hrun, rfl, ?_, ?_⟩
    · intro f hf
      by_contra hsome
      obtain ⟨t, ht⟩ := Option.ne_none_iff_exists'.mp hsome
      exact (w.labelled.held f t ht).2 ((hin f).mpr hf).1
    · intro f
      constructor
      · intro hf
        obtain ⟨hused, ⟨hold, -⟩ | hown⟩ := relabel_eq_some hf
        · exact Or.inr ((hin f).mp ⟨hold, hused⟩)
        · exact Or.inl hown
      · rintro (hf | hf)
        · exact (w.take_keeps hmap hfree htag).label f tag hf (Set.notMem_empty _)
        · obtain ⟨hold, hused⟩ := (hin f).mpr hf
          exact relabel_of_taken hold hused

/-! ### Pages of the kernel -/

/-- The page of the temporary mapping. -/
def IsTmp (v : UInt32) : Prop :=
  virtualToPdtIdx v = kernelPdtIdx ∧ virtualToPtIdx v = kernelTmpPtIdx

/-- The `n` pages from `v` on lie in one slot of the kernel half, without the temporary mapping;
a slot with no page table they begin. -/
structure Spare (s : State) (v : UInt32) (n : ℕ) : Prop where
  dvd : 4096 ∣ v.toNat
  kernelHalf : kernelPdtIdx ≤ virtualToPdtIdx v
  vacant : s.has s.kernelPdt (virtualToPdtIdx v) → 0 < n ∧ virtualToPtIdx v + n ≤ 1024 ∧
    Vacant (virtualToPdtIdx v) (s.mem (s.table s.kernelPdt (virtualToPdtIdx v))) (virtualToPtIdx v) n
  start : ¬ s.has s.kernelPdt (virtualToPdtIdx v) → virtualToPtIdx v = 0

/-- `pdt_kernel_find_next_vaddr` changes nothing and fails or finds spare pages; slots before have page tables. -/
theorem findNextVaddr_spec (w : World) (size : UInt32) :
  Spec ∅ ∅ (findNextVaddr size) w fun v w' =>
    w' = w ∧ (v ≠ 0 → Spare w.state v (pages size) ∧ (0 < pages size →
      ∀ i, kernelPdtIdx ≤ i → i < virtualToPdtIdx v → w.state.has w.state.kernelPdt i))
  := by
  apply Spec.paging
  intro v s' hrun
  obtain ⟨v', hfind, hspare⟩ := pdtKernelFindNextVaddr_spec w.state size
  rw [hfind] at hrun
  obtain ⟨rfl, rfl⟩ := Prod.mk.inj (Option.some.inj hrun)
  refine ⟨w, rfl, Keeps.refl _ _ w, rfl, fun hne => ⟨?_, ?_⟩⟩
  · obtain ⟨i, j, hi, hlt, hj, hv, hfree⟩ := hspare hne
    have hidx : virtualToPdtIdx v' = i := by
      rw [virtualToPdtIdx_eq, hv]
      omega
    have hidx' : virtualToPtIdx v' = j := by
      rw [virtualToPtIdx_eq, hv]
      omega
    refine ⟨by rw [hv]; exact Nat.dvd_mul_right _ _, by rwa [hidx], ?_, ?_⟩
    · intro hhas
      rw [hidx] at hhas
      rw [State.Free, if_pos hhas] at hfree
      rwa [hidx, hidx']
    · intro hhas
      rw [hidx] at hhas
      rw [State.Free, if_neg hhas] at hfree
      rw [hidx', hfree]
  · intro hpos l hl hlt
    obtain ⟨v'', hfind', -, hfirst⟩ := pdtKernelFindNextVaddr_first (s := w.state) hpos
    obtain ⟨rfl, -⟩ := Prod.mk.inj (hfind.symm.trans hfind')
    obtain ⟨i, j, hroom, hv, hfree⟩ := hfirst hne
    have hj : j < 1024 := by
      rw [State.Free] at hfree
      split at hfree
      · omega
      · omega
    have hidx : virtualToPdtIdx v' = i := by
      rw [virtualToPdtIdx_eq, hv]
      omega
    -- a slot without a page table would have been taken
    by_contra hnot
    exact hroom.2.2.2 l hl (by omega) fun hhas => absurd hhas hnot

/-- New page tables of the kernel get their label. -/
theorem Labelled.maps_kernel {m : ℕ} (h : Labelled s own)
    (hmaps : Maps s s' s.kernelPdt paddr vaddr pagingReadWrite pagingPl0 m) :
  Labelled s' (Process.relabel s s' .kernelTable own)
  := by
  refine h.relabel hmaps.map hmaps.vars (hmaps.dir h.kernel) (by simp)
    (hmaps.kept _ (by decide) h.first.1) ?_ ?_
  · intro i hi hhas
    by_cases hold : s.has s.kernelPdt i
    · exact Or.inl (hmaps.kept i hi hold)
    · rcases hmaps.opened i hi hold with heq | ⟨t, ht, -, hdvd, heq, -⟩
      · exact Or.inl heq
      · right
        rw [State.table, heq, paddr_createPdtEntry hdvd]
        exact ⟨ht, rfl, user_createPdtEntry_pl0 t⟩
  · intro d hd _
    have hmem : ∀ {f : UInt32} {t}, t ≠ .kernelTable → own f = some t → s'.mem f = s.mem f := by
      intro f t ht hf
      exact hmaps.other f (h.ne_pdt hf) (fun i hi hhas => h.ne_kernelTable hf ht hi hhas)
        fun hin => absurd hin (h.held f t hf).2
    apply (h.dirs d hd).congr (hmem (by simp) hd) (fun f hf => hmem (by simp) hf)
    exact fun _ _ _ hf => h.relabel_eq hmaps.taken hf

/-- `pdt_map_kernel_memory` maps all the pages, or returns 0. -/
theorem mapKernelMemory_spec (w : World) (paddr vaddr size : UInt32) :
  Spec {.kernelTable} ∅ (mapKernelMemory paddr vaddr size) w fun r w' => ∃ m,
    Maps w.state w'.state w.state.kernelPdt paddr vaddr pagingReadWrite pagingPl0 m ∧
      ((m = pages size ∧ r = alignUp size fourKb) ∨ (m < pages size ∧ r = 0))
  := by
  apply Spec.paging
  intro r s' hrun
  have h := w.labelled
  obtain ⟨m, s'', r', hmap, hmaps, hres⟩ := pdtMapMemory_spec h.pfa h.kernel.toSeparate paddr vaddr size
    pagingReadWrite pagingPl0
  rw [pdtMapKernelMemory, hmap] at hrun
  obtain ⟨rfl, rfl⟩ := Prod.mk.inj (Option.some.inj hrun)
  refine ⟨⟨{ w.heap with kernel := s'' }, relabel w.state s'' .kernelTable w.own,
    h.maps_kernel hmaps⟩, rfl, ?_, m, hmaps, hres⟩
  refine ⟨hmaps.map, hmaps.vars, ?_, ?_, ?_, ?_, fun _ hr => Or.inl hr⟩
  · exact fun _ _ hf _ => h.relabel_eq hmaps.taken hf
  · intro f t hf
    obtain ⟨-, ⟨-, rfl⟩ | hold⟩ := relabel_eq_some hf
    · exact Or.inr rfl
    · exact Or.inl hold
  · intro f t hf ht _
    exact hmaps.other f (h.ne_pdt hf) (fun i hi hhas => h.ne_kernelTable hf ht hi hhas)
      fun hin => absurd hin (h.held f t hf).2
  · intro v e t hv _ _ _
    rw [World.page, hmaps.vars.kernelPdt, hmaps.page, if_neg]
    · exact hv
    · intro hlt
      rw [World.page, hmaps.vacant v hlt] at hv
      simp at hv

/-- Only page tables of the kernel are freed. -/
theorem Labelled.not_freed {f : UInt32} {t : Tag} (h : Labelled s own)
    (hunmaps : Unmaps s s' s.kernelPdt) (hf : own f = some t) (ht : t ≠ .kernelTable) :
  f.toNat ∉ s'.pfa.free
  := by
  intro hin
  rcases hunmaps.freed _ hin with hold | ⟨i, hi, -, hhas, -, heq⟩
  · exact (h.held f t hf).2 hold
  · exact h.ne_kernelTable hf ht hi hhas (UInt32.toNat_inj.mp heq)

/-- Page tables of the kernel that are freed lose their label. -/
theorem Labelled.unmaps_kernel (h : Labelled s own) (hunmaps : Unmaps s s' s.kernelPdt) :
  Labelled s' (Process.relabel s s' .kernelTable own)
  := by
  refine h.relabel hunmaps.map hunmaps.vars hunmaps.dir (by simp) ?_ ?_ ?_
  · rcases hunmaps.entry kernelPdtIdx (by decide) with heq | ⟨hne, -⟩
    · exact heq
    · exact absurd rfl hne
  · exact fun i hi hhas => Or.inl (hunmaps.has hi hhas).2
  · intro d hd _
    have hmem : ∀ {f : UInt32} {t}, t ≠ .kernelTable → own f = some t → s'.mem f = s.mem f :=
      fun ht hf => hunmaps.other _ (h.ne_pdt hf) fun i hi hhas => h.ne_kernelTable hf ht hi hhas
    refine (h.dirs d hd).congr (hmem (by simp) hd) (fun f hf => hmem (by simp) hf) ?_
    intro f t ht hf
    have hne : t ≠ .kernelTable := by
      rcases ht with rfl | rfl
      · simp
      · simp
    rw [relabel_of_used (h.held f t hf).2 (h.not_freed hunmaps hf hne)]
    exact hf

/-- `pdt_unmap_kernel_memory` takes the labels of page tables of the kernel only. -/
theorem unmapKernelMemory_run (w : World) (env : Env) :
  After (unmapKernelMemory env vaddr size) w.heap fun r h' => ∃ w' : World, w'.heap = h' ∧
    w'.heap.acquired = w.heap.acquired ∧
    pdtUnmapMemory env.rounds w.state w.state.kernelPdt vaddr size = some (r, w'.state) ∧
    (∀ f t, w.own f = some t → t ≠ .kernelTable → w'.own f = some t) ∧
    ∀ f t, w'.own f = some t → w.own f = some t
  := by
  intro r h' hrun
  have h := w.labelled
  obtain ⟨⟨r', s'⟩, hunmap, heq⟩ := Option.map_eq_some_iff.mp hrun
  obtain ⟨rfl, rfl⟩ := Prod.mk.inj heq
  have hunmaps := pdtUnmapMemory_spec h.pfa h.kernel h.managed hunmap
  refine ⟨⟨{ w.heap with kernel := s' }, relabel w.state s' .kernelTable w.own,
    h.unmaps_kernel hunmaps⟩, rfl, rfl, hunmap, ?_, ?_⟩
  · intro f t hf ht
    exact (relabel_of_used (h.held f t hf).2 (h.not_freed hunmaps hf ht)).trans hf
  · intro f t hf
    obtain ⟨hused, ⟨hfree, -⟩ | hold⟩ := relabel_eq_some hf
    · exact absurd (hunmaps.kept hfree) hused
    · exact hold

/-- `pdt_unmap_kernel_memory` of pages in one slot that has a page table.  Frames that the kernel
is to keep mapped are not among those that the pages are mapped to. -/
theorem unmapKernelMemory_spec (w : World) (env : Env)
    (hhas : w.state.has w.state.kernelPdt (virtualToPdtIdx vaddr)) (hpos : 0 < pages size)
    (hend : virtualToPtIdx vaddr + pages size ≤ 1024)
    (htmp : virtualToPdtIdx vaddr = kernelPdtIdx → virtualToPtIdx vaddr + pages size ≤ kernelTmpPtIdx)
    (hkept : ∀ v e t, pageOff vaddr v < pages size → w.page v = some e →
      w.own e.paddr = some t → ¬ t.Mapped) :
  Spec ∅ {.kernelTable} (unmapKernelMemory env vaddr size) w fun _ w' =>
    ∀ v, ¬ pageOff vaddr v < pages size → w'.page v = w.page v
  := by
  have h := w.labelled
  refine After.mono (unmapKernelMemory_run w env) ?_
  rintro r - ⟨w', rfl, hacquired, hrun, hlabel, hfresh⟩
  have hunmaps := pdtUnmapMemory_spec h.pfa h.kernel h.managed hrun
  have hpages : ∀ v, ¬ pageOff vaddr v < pages size → w'.page v = w.page v := by
    intro v hv
    rw [World.page, hunmaps.vars.kernelPdt]
    exact pdtUnmapMemory_outside h.kernel hhas hpos hend htmp hrun hv
  refine ⟨w', rfl, ⟨hunmaps.map, hunmaps.vars, hlabel, fun f t hf => Or.inl (hfresh f t hf), ?_, ?_, ?_⟩, hpages⟩
  · intro f t hf _ ht
    exact hunmaps.other f (h.ne_pdt hf) fun i hi hhas => h.ne_kernelTable hf ht hi hhas
  · intro v e t hv he ht _
    by_cases hin : pageOff vaddr v < pages size
    · exact absurd ht (hkept v e t hin hv he)
    · exact (hpages v hin).trans hv
  · intro r hr
    rw [hacquired] at hr
    exact Or.inl hr

/-! ### The heap -/

/-- The kernel has more pages mapped than before, and no fewer page tables. -/
structure Extends (s s' : State) : Prop where
  slot : ∀ i < 1024, s.has s.kernelPdt i → s'.has s'.kernelPdt i
  page : ∀ v e, s.page s.kernelPdt v = some e → s'.page s'.kernelPdt v = some e

theorem Extends.refl (s : State) :
  Extends s s
  := ⟨fun _ _ h => h, fun _ _ h => h⟩

theorem Extends.trans (h : Extends s s') {s'' : State} (h' : Extends s' s'') :
  Extends s s''
  := ⟨fun i hi hhas => h'.slot i hi (h.slot i hi hhas), fun v e he => h'.page v e (h.page v e he)⟩

theorem extends_of_mem (hmem : s'.mem = s.mem) (hpdt : s'.kernelPdt = s.kernelPdt) :
  Extends s s'
  := by
  constructor
  · simp only [State.has, hmem, hpdt]
    exact fun _ _ h => h
  · simp only [State.page, hmem, hpdt]
    exact fun _ _ h => h

theorem extends_of_maps {m : ℕ} (h : Maps s s' s.kernelPdt paddr vaddr pagingReadWrite pagingPl0 m) :
  Extends s s'
  := by
  constructor
  · intro i hi hhas
    rw [h.vars.kernelPdt, State.has, h.kept i hi hhas]
    exact hhas
  · intro v e he
    rw [h.vars.kernelPdt, h.page, if_neg]
    · exact he
    · intro hin
      rw [h.vacant v hin] at he
      simp at he

/-- The world with another heap on the same state of paging. -/
def World.withHeap (w : World) (h : Kmalloc.Heap State) (hkernel : h.kernel = w.state) : World where
  heap := h
  own := w.own
  labelled := by
    rw [hkernel]
    exact w.labelled

theorem World.withHeap_state (w : World) {h : Kmalloc.Heap State} (hkernel : h.kernel = w.state) :
  (w.withHeap h hkernel).state = w.state
  := hkernel

theorem World.withHeap_keeps (w : World) {h : Kmalloc.Heap State} (hkernel : h.kernel = w.state)
    (hacquired : ∀ r ∈ h.acquired, r ∈ w.heap.acquired ∨ w.OnHeap r) :
  Keeps ∅ ∅ w (w.withHeap h hkernel)
  := by
  have hstate := w.withHeap_state hkernel
  have hpage : ∀ v, (w.withHeap h hkernel).page v = w.page v := by
    intro v
    rw [World.page, hstate]
  refine ⟨?_, ?_, fun _ _ hf _ => hf, fun _ _ hf => Or.inl hf, ?_, ?_, ?_⟩
  · rw [hstate]
    exact Pfa.SameMap.refl _
  · rw [hstate]
    exact SameVars.refl _
  · intro f _ _ _ _
    rw [hstate]
  · intro v e t hv _ _ _
    rw [hpage]
    exact hv
  · intro r hr
    refine (hacquired r hr).imp_right ?_
    intro hon v hv
    rw [hpage]
    exact hon v hv

theorem kfree_spec (w : World) (env : Env) (ap : UInt32) :
  Spec ∅ ∅ (kfree env ap) w fun _ w' => w'.own = w.own ∧ w'.state = w.state
  := by
  intro a h hrun
  obtain ⟨h', hfree, heq⟩ := Option.map_eq_some_iff.mp hrun
  obtain ⟨-, rfl⟩ := Prod.mk.inj heq
  obtain ⟨hkernel, hacquired⟩ := Kmalloc.kfree_kernel hfree
  refine ⟨w.withHeap h' hkernel, rfl, w.withHeap_keeps hkernel ?_, rfl, hkernel⟩
  intro r hr
  rw [hacquired] at hr
  exact Or.inl hr

/-- The part of `acquire_more_heap` before the new block is set up, as a program. -/
def acquireMemory (nunits : UInt32) : Kern (Option UInt32) := do
  let paddr ← pfaAllocate (Kmalloc.heapFrames nunits)
  if paddr = 0 then
    return none
  let vaddr ← findNextVaddr (Kmalloc.heapBytes nunits)
  if vaddr = 0 then
    return none
  let mappedMem ← mapKernelMemory paddr vaddr (Kmalloc.heapBytes nunits)
  if mappedMem < Kmalloc.heapBytes nunits then
    return none
  return some vaddr

theorem acquireMemory_eq (nunits : UInt32) (h : Kmalloc.Heap State) :
  acquireMemory nunits h = some ((Kmalloc.backing kernel nunits h.kernel).1,
    { h with kernel := (Kmalloc.backing kernel nunits h.kernel).2 })
  := by
  rcases halloc : Pfa.pfaAllocate h.kernel.pfa (Kmalloc.heapFrames nunits) with ⟨paddr, pfa⟩
  rcases hfind : pdtKernelFindNextVaddr { h.kernel with pfa := pfa } (Kmalloc.heapBytes nunits) with
    ⟨vaddr, s⟩
  rcases hmap : pdtMapKernelMemory s paddr vaddr (Kmalloc.heapBytes nunits) pagingReadWrite pagingPl0 with
    ⟨r, s'⟩
  simp only [acquireMemory, Kmalloc.backing, kernel, pfaAllocate, findNextVaddr, mapKernelMemory, paging,
    bind, StateT.bind, halloc, hfind, hmap, Option.map_some, Option.bind_some]
  split
  case isTrue => rfl
  case isFalse =>
    simp only [StateT.bind, paging, hfind, Option.map_some, Option.bind_eq_bind, Option.bind_some]
    split
    case isTrue => rfl
    case isFalse =>
      simp only [StateT.bind, paging, hmap, Option.map_some, Option.bind_eq_bind, Option.bind_some]
      split
      case isTrue => rfl
      case isFalse => rfl

/-- What `acquire_more_heap` maps for the heap gets its label. -/
theorem acquireMemory_spec (w : World) (nunits : UInt32) :
  Spec {.heap, .kernelTable} ∅ (acquireMemory nunits) w fun r w' => Extends w.state w'.state ∧
    ∀ vaddr ∈ r, w'.OnHeap ⟨vaddr.toNat, (Kmalloc.heapBytes nunits).toNat⟩
  := by
  unfold acquireMemory
  refine Spec.bind (pfaAllocate_spec w _ .heap (by simp)) (by simp) subset_rfl (by simp) ?_
  rintro p w₁ hkeeps₁ hp
  have hextends₁ : Extends w.state w₁.state := by
    rcases hp with ⟨-, rfl⟩ | ⟨-, -, hmem, -⟩
    · exact Extends.refl _
    · exact extends_of_mem hmem hkeeps₁.vars.kernelPdt
  refine Spec.ite (fun _ => Spec.pure ⟨hextends₁, by simp⟩) ?_
  intro hne
  obtain ⟨-, hrun, -, -, hown⟩ := hp.resolve_left fun h => hne h.1
  refine Spec.bind (findNextVaddr_spec w₁ _) (by simp) subset_rfl (by simp) ?_
  rintro v w₂ - ⟨rfl, hspare⟩
  refine Spec.ite (fun _ => Spec.pure ⟨hextends₁, by simp⟩) ?_
  intro hv
  refine Spec.bind (mapKernelMemory_spec w₂ p v _) (by simp) subset_rfl (by simp) ?_
  rintro r w₃ hkeeps ⟨m, hmaps, hr⟩
  have hextends₃ := hextends₁.trans (extends_of_maps hmaps)
  refine Spec.ite (fun _ => Spec.pure ⟨hextends₃, by simp⟩) ?_
  intro hle
  have hbytes : (Kmalloc.heapBytes nunits).toNat = 4096 * (Kmalloc.heapFrames nunits).toNat := hrun.toNat_mul
  have hm : m = (Kmalloc.heapFrames nunits).toNat := hrun.all_mapped hr hle
  refine Spec.pure ⟨hextends₃, ?_⟩
  intro v' hv' u hu
  obtain rfl := Option.some.inj hv'
  rw [hbytes] at hu
  have hlt := pageOff_lt_of_contains (hspare hv).1.dvd hu
  have hframe : nthPage p (pageOff v u) ∈ framesFrom p (Kmalloc.heapFrames nunits) := nthPage_mem hlt
  refine ⟨_, by rw [World.page, hmaps.vars.kernelPdt, hmaps.page, if_pos (by rwa [hm])], ?_⟩
  rw [paddr_createPtEntry (hrun.dvd_nthPage hlt)]
  exact hkeeps.label _ _ ((hown _).mpr (Or.inr hframe)) (Set.notMem_empty _)

/-- A world that has become another one, with more memory for the heap at most. -/
structure Enlarged (w w' : World) : Prop where
  keeps : Keeps {.heap, .kernelTable} ∅ w w'
  more : Extends w.state w'.state

theorem Enlarged.refl (w : World) :
  Enlarged w w
  := ⟨Keeps.refl _ _ w, Extends.refl _⟩

theorem Enlarged.trans {w' w'' : World} (h : Enlarged w w') (h' : Enlarged w' w'') :
  Enlarged w w''
  := ⟨h.keeps.trans h'.keeps (by simp), h.more.trans h'.more⟩

/-- `acquire_more_heap` fails or adds a region that is mapped to memory of the heap. -/
theorem acquireMoreHeap_enlarged (w : World) {rounds : ℕ} {nunits r : UInt32} {h : Kmalloc.Heap State}
    (hrun : Kmalloc.acquireMoreHeap kernel rounds w.heap nunits = some (r, h)) :
  ∃ w', w'.heap = h ∧ Enlarged w w'
  := by
  have hmem := acquireMemory_spec w nunits _ _ (acquireMemory_eq nunits w.heap)
  rw [Kmalloc.acquireMoreHeap] at hrun
  obtain ⟨w₁, hw₁, hkeeps, hmore, hon⟩ := hmem
  rcases hback : Kmalloc.backing kernel nunits w.heap.kernel with ⟨v, s⟩
  rw [hback] at hrun hon hw₁
  cases v with
  | none =>
      obtain ⟨-, rfl⟩ := Prod.mk.inj (Option.some.inj hrun)
      exact ⟨w₁, hw₁, hkeeps, hmore⟩
  | some vaddr =>
      obtain ⟨h', hfree, heq⟩ := Option.map_eq_some_iff.mp hrun
      obtain ⟨-, rfl⟩ := Prod.mk.inj heq
      obtain ⟨hkernel, hacquired⟩ := Kmalloc.kfree_kernel hfree
      have hstate : h'.kernel = w₁.state := by
        rw [hkernel, World.state, hw₁]
        rfl
      refine ⟨w₁.withHeap h' hstate, rfl, ?_, ?_⟩
      · refine hkeeps.trans ((w₁.withHeap_keeps hstate ?_).mono (by simp) subset_rfl) (by simp)
        intro r hr
        rw [hacquired] at hr
        rcases List.mem_cons.mp hr with rfl | hr
        · exact Or.inr (hon vaddr rfl)
        · left
          rw [hw₁]
          exact hr
      · rw [w₁.withHeap_state hstate]
        exact hmore

/-- A block is taken from a free one. -/
theorem take_enlarged (w : World) {h : Kmalloc.Heap State} (hkernel : h.kernel = w.state)
    (hacquired : h.acquired = w.heap.acquired) :
  ∃ w', w'.heap = h ∧ Enlarged w w'
  := by
  refine ⟨w.withHeap h hkernel, rfl, (w.withHeap_keeps hkernel ?_).mono (by simp) subset_rfl, ?_⟩
  · intro r hr
    rw [hacquired] at hr
    exact Or.inl hr
  · rw [w.withHeap_state hkernel]
    exact Extends.refl _

/-- `kmalloc` takes memory for the heap at most. -/
theorem kmalloc_spec (w : World) (env : Env) (nbytes : UInt32) :
  Spec {.heap, .kernelTable} ∅ (kmalloc env nbytes) w fun _ w' => Extends w.state w'.state
  := by
  intro a h hrun
  suffices hsuff : ∃ w', w'.heap = h ∧ Enlarged w w' by
    obtain ⟨w', hw', henlarged⟩ := hsuff
    exact ⟨w', hw', henlarged.keeps, henlarged.more⟩
  rw [kmalloc, Kmalloc.kmalloc] at hrun
  split at hrun
  case isTrue =>
    obtain ⟨-, rfl⟩ := Prod.mk.inj (Option.some.inj hrun)
    exact ⟨w, rfl, Enlarged.refl w⟩
  have hloop := Option.join_eq_some_iff.mp hrun
  obtain ⟨w₀, hw₀, henlarged₀⟩ : ∃ w', w'.heap = Kmalloc.initList env.base w.heap ∧ Enlarged w w' := by
    apply take_enlarged
    · apply Kmalloc.initList_kernel
    · apply Kmalloc.initList_acquired
  -- the heap belongs to a world that `w` has become
  refine Kmalloc.kmallocLoop_invariant kernel (I := fun h => ∃ w', w'.heap = h ∧ Enlarged w w') ?_ ?_ hloop
    ⟨w₀, hw₀, henlarged₀⟩
  · rintro h₁ h₂ hkernel hacquired ⟨w', rfl, henlarged⟩
    obtain ⟨w'', hw'', henlarged'⟩ := take_enlarged w' hkernel hacquired
    exact ⟨w'', hw'', henlarged.trans henlarged'⟩
  · rintro h₁ a h₂ hgrow ⟨w', rfl, henlarged⟩
    obtain ⟨w'', hw'', henlarged'⟩ := acquireMoreHeap_enlarged w' hgrow
    exact ⟨w'', hw'', henlarged.trans henlarged'⟩

end Process
