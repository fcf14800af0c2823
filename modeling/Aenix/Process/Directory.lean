import Aenix.Process.Window

/-!
# Directories of new processes

A process that is being built has a directory without a kernel half (`Child`), in which `pdt_map_memory` maps
frames of the process.
-/

open Aenix
open Paging hiding Call exec Step

namespace Process

variable {w w' : World} {new gone : Set Tag} {t : Tag} {d p pdt v vaddr size : UInt32} {m : ℕ}

/-! ### Private pages -/

/-- The pages of a process stay when its directory and its page tables do. -/
theorem Keeps.user_page (h : Keeps new gone w w') (hd : w.own d = some (.pdt d)) (hv : v < kernelStartVaddr)
    (hpdt : .pdt d ∉ new ∧ .pdt d ∉ gone) (htable : .table d ∉ new ∧ .table d ∉ gone) :
  w'.state.page d v = w.state.page d v
  := by
  have hmem := h.contents d _ hd hpdt.1 hpdt.2
  apply State.page_congr (by rw [hmem])
  intro hhas
  have htab := (w.labelled.dirs d hd).table _ (virtualToPdtIdx_lt_kernel hv) hhas
  rw [h.contents _ _ htab htable.1 htable.2]

/-! ### The directory -/

/-- A directory that has page tables of its own, each for one slot.  It has the label of a process, or one that
no process uses. -/
structure Directory (w : World) (d : UInt32) (t : Tag) : Prop where
  own : w.own d = some t
  tag : t = .pdt d ∨ t = .kernelStack 0
  table : ∀ i < 1024, w.state.has d i → w.own (w.state.table d i) = some (.table d)
  inj : ∀ i < 1024, ∀ j < 1024, w.state.has d i → w.state.has d j →
    w.state.table d i = w.state.table d j → i = j

namespace Directory

theorem ne_kernelTable (h : Directory w d t) :
  t ≠ .kernelTable
  := by
  rcases h.tag with rfl | rfl
  · simp
  · simp

theorem ne_table (h : Directory w d t) (d' : UInt32) :
  t ≠ .table d'
  := by
  rcases h.tag with rfl | rfl
  · simp
  · simp

theorem separate (h : Directory w d t) :
  Separate w.state d
  := by
  constructor
  · exact (w.labelled.held _ _ h.own).2
  · exact w.labelled.kernel.pt_used
  · exact w.labelled.ne_pt h.own
  · intro i hi hhas
    exact (w.labelled.held _ _ (h.table i hi hhas)).2
  · intro i hi hhas heq
    have htable := h.table i hi hhas
    rw [heq, h.own] at htable
    exact h.ne_table d (Option.some.inj htable)
  · exact h.inj

/-- A frame with another label is not a page table of the directory. -/
theorem ne_tables (h : Directory w d t) {f : UInt32} (hf : w.own f ≠ some (.table d)) {i : ℕ} (hi : i < 1024)
    (hhas : w.state.has d i) :
  f ≠ w.state.table d i
  := by
  rintro rfl
  exact hf (h.table i hi hhas)

theorem keeps (h : Directory w d t) (hkeeps : Keeps new gone w w') (hpdt : t ∉ new ∧ t ∉ gone)
    (htable : .table d ∉ gone) :
  Directory w' d t
  := by
  have hmem := hkeeps.contents d _ h.own hpdt.1 hpdt.2
  refine ⟨hkeeps.label d _ h.own hpdt.2, h.tag, ?_, ?_⟩
  · intro i hi hhas
    rw [State.has, hmem] at hhas
    rw [State.table, hmem]
    exact hkeeps.label _ _ (h.table i hi hhas) htable
  · simp only [State.has, State.table, hmem]
    exact h.inj

end Directory

/-- A directory of a process that has page tables for user space only, each for one slot. -/
structure Child (w : World) (d : UInt32) : Prop where
  own : w.own d = some (.pdt d)
  half : ∀ i, kernelPdtIdx ≤ i → i < 1024 → ¬ w.state.has d i
  inj : ∀ i < 1024, ∀ j < 1024, w.state.has d i → w.state.has d j →
    w.state.table d i = w.state.table d j → i = j

namespace Child

theorem directory (h : Child w d) :
  Directory w d (.pdt d)
  := by
  refine ⟨h.own, Or.inl rfl, ?_, h.inj⟩
  intro i hi hhas
  apply (w.labelled.dirs d h.own).table i _ hhas
  by_contra hle
  exact h.half i (by omega) hi hhas

theorem keeps (h : Child w d) (hkeeps : Keeps new gone w w') (hpdt : .pdt d ∉ new ∧ .pdt d ∉ gone) :
  Child w' d
  := by
  have hmem := hkeeps.contents d _ h.own hpdt.1 hpdt.2
  constructor
  · exact hkeeps.label d _ h.own hpdt.2
  · intro i hle hi
    rw [State.has, hmem]
    exact h.half i hle hi
  · simp only [State.has, State.table, hmem]
    exact h.inj

end Child

/-! ### Creating a directory -/

/-- A frame that has been cleared is a directory.  It has had a label that no process uses. -/
theorem Labelled.newDir {s : State} {own : Labels} (h : Labelled s own) (hd : own d = some (.kernelStack 0)) :
  Labelled (s.fill d fun _ => Entry.zero) (Function.update own d (some (.pdt d)))
  := by
  have hmem : ∀ {f}, f ≠ d → (s.fill d fun _ => Entry.zero).mem f = s.mem f := by
    intro f hf
    rw [State.mem_fill, Function.update_of_ne hf]
  have hne : ∀ {f t}, own f = some t → t ≠ .kernelStack 0 → f ≠ d := by
    rintro f t hf ht rfl
    rw [hd] at hf
    exact ht (Option.some.inj hf).symm
  have hown : ∀ {f t}, own f = some t → t ≠ .kernelStack 0 →
      Function.update own d (some (.pdt d)) f = some t := by
    intro f t hf ht
    rw [Function.update_of_ne (hne hf ht), hf]
  have hpdt := hmem (h.ne_pdt hd).symm
  constructor
  · exact h.pfa
  · intro f t hf
    by_cases heq : f = d
    · rw [heq]
      exact h.held d _ hd
    · rw [Function.update_of_ne heq] at hf
      exact h.held f t hf
  · exact h.pdt_unmanaged
  · exact h.pt_unmanaged
  · exact h.kernel.congr hpdt subset_rfl rfl
  · simp only [State.has, State.table, State.fill_kernelPdt, hpdt]
    exact h.first
  · simp only [State.has, State.table, State.fill_kernelPdt, hpdt]
    exact fun i hi hhas hfirst => hown (h.kernelTable i hi hhas hfirst) (by simp)
  · simp only [State.has, State.fill_kernelPdt, hpdt]
    exact h.supervisor
  · intro d₁ hd₁
    by_cases heq : d₁ = d
    · have hnone : ∀ i, ¬ (s.fill d fun _ => Entry.zero).has d i := by
        intro i
        simp [State.has, State.mem_fill]
      rw [heq]
      constructor
      · exact fun i _ hhas => absurd hhas (hnone i)
      · intro v _ e he
        rw [State.page_of_not_has (hnone _)] at he
        simp at he
      · exact fun i _ _ hhas => absurd hhas (hnone i)
    · rw [Function.update_of_ne heq] at hd₁
      apply (h.dirs d₁ hd₁).congr (hmem heq)
      · exact fun f hf => hmem (hne hf (by simp))
      · rintro f t (rfl | rfl) hf
        · exact hown hf (by simp)
        · exact hown hf (by simp)

/-- `pdt_create` as a program. -/
def createDirectory : Kern (UInt32 × UInt32) := do
  let paddr ← pfaAllocate 1
  let vaddr ← findNextVaddr pdtSize
  let size ← mapKernelMemory paddr vaddr pdtSize
  if size < pdtSize then
    paging fun s => some ((0, 0), { s with pfa := Pfa.pfaFree s.pfa paddr })
  else
    paging fun s => (s.resolve vaddr).map fun d => ((vaddr, paddr), s.fill d fun _ => Entry.zero)

theorem pdtCreate_eq :
  paging pdtCreate = createDirectory
  := by
  funext h
  rcases halloc : Pfa.pfaAllocate h.kernel.pfa 1 with ⟨paddr, pfa⟩
  rcases hfind : pdtKernelFindNextVaddr { h.kernel with pfa := pfa } pdtSize with ⟨vaddr, s⟩
  rcases hmap : pdtMapKernelMemory s paddr vaddr pdtSize pagingReadWrite pagingPl0 with ⟨r, s'⟩
  simp only [createDirectory, pdtCreate, pfaAllocate, findNextVaddr, mapKernelMemory, paging,
    bind, StateT.bind, halloc, hfind, hmap, Option.map_some, Option.bind_some]
  split
  case isTrue => rfl
  case isFalse => rfl

/-- The world after a directory was cleared. -/
def World.newDir (w : World) (hd : w.own d = some (.kernelStack 0)) : World where
  heap := { w.heap with kernel := w.state.fill d fun _ => Entry.zero }
  own := Function.update w.own d (some (.pdt d))
  labelled := w.labelled.newDir hd

theorem World.newDir_page (w : World) (hd : w.own d = some (.kernelStack 0)) (v : UInt32) :
  (w.newDir hd).page v = w.page v
  := by
  have hmem : ∀ {f}, f ≠ d → (w.newDir hd).state.mem f = w.state.mem f := by
    intro f hf
    exact Function.update_of_ne hf _ _
  rw [World.page, show (w.newDir hd).state.kernelPdt = w.state.kernelPdt from rfl]
  apply State.page_congr (by rw [hmem (w.labelled.ne_pdt hd).symm])
  intro hhas
  rw [hmem (w.labelled.ne_kernelTable hd (by simp) (virtualToPdtIdx_lt v) hhas).symm]

theorem World.newDir_empty (w : World) (hd : w.own d = some (.kernelStack 0)) (i : ℕ) :
  ¬ (w.newDir hd).state.has d i
  := by
  have hmem : (w.newDir hd).state.mem d = fun _ => Entry.zero := Function.update_self _ _ _
  simp [State.has, hmem]

theorem World.newDir_child (w : World) (hd : w.own d = some (.kernelStack 0)) :
  Child (w.newDir hd) d
  := by
  have hnone := w.newDir_empty hd
  constructor
  · exact Function.update_self _ _ _
  · exact fun i _ _ => hnone i
  · exact fun i _ j _ hhas => absurd hhas (hnone i)

theorem Keeps.newDir {w₁ : World} (h : Keeps {.kernelStack 0, .kernelTable} ∅ w w₁) (hfresh : w.own d = none)
    (hd : w₁.own d = some (.kernelStack 0))
    (hother : ∀ f, w₁.own f = some (.kernelStack 0) → f = d ∨ w.own f = some (.kernelStack 0))
    (hmem : ∀ f, w.own f = some (.kernelStack 0) → w₁.state.mem f = w.state.mem f) :
  Keeps {.pdt d, .kernelTable} ∅ w (w₁.newDir hd)
  := by
  have hne : ∀ {f t}, w.own f = some t → f ≠ d := by
    rintro f t hf rfl
    rw [hfresh] at hf
    simp at hf
  refine ⟨h.map, ⟨h.vars.kernelPdt, h.vars.kernelPt, h.vars.cr3⟩, ?_, ?_, ?_, ?_, ?_⟩
  · intro f t hf ht
    exact (Function.update_of_ne (hne hf) _ _).trans (h.label f t hf ht)
  · intro f t hf
    by_cases heq : f = d
    · rw [heq] at hf
      right
      have hpdt := (Function.update_self _ _ _).symm.trans hf
      simp [← Option.some.inj hpdt]
    · have hold := (Function.update_of_ne heq _ _).symm.trans hf
      rcases h.fresh f t hold with hf' | ht
      · exact Or.inl hf'
      · rcases ht with rfl | rfl
        · exact Or.inl ((hother f hold).resolve_left heq)
        · exact Or.inr (by simp)
  · intro f t hf ht _
    have hfill : (w₁.newDir hd).state.mem f = w₁.state.mem f := Function.update_of_ne (hne hf) _ _
    rw [hfill]
    by_cases hstack : t = .kernelStack 0
    · rw [hstack] at hf
      exact hmem f hf
    · apply h.contents f t hf _ (Set.notMem_empty _)
      simp only [Set.mem_insert_iff, Set.mem_singleton_iff, not_or] at ht ⊢
      exact ⟨hstack, ht.2⟩
  · intro v e t hv he ht hgone
    rw [w₁.newDir_page hd]
    exact h.page v e t hv he ht hgone
  · intro r hr
    refine (h.acquired r hr).imp_right ?_
    intro hon v hv
    obtain ⟨e, he, hown⟩ := hon v hv
    refine ⟨e, by rw [w₁.newDir_page hd, he], ?_⟩
    have hheap : e.paddr ≠ d := by
      intro heq
      rw [heq, hd] at hown
      simp at hown
    exact (Function.update_of_ne hheap _ _).trans hown

/-- Pages of the kernel that have been mapped resolve to the frames. -/
theorem resolve_of_maps {n : UInt32} (hrun : Run p n)
    (hmaps : Maps w.state w'.state w.state.kernelPdt p v pagingReadWrite pagingPl0 m) (hle : m ≤ n.toNat) {k : ℕ}
    (hk : k < m) :
  w'.state.resolve (nthPage v k) = some (nthPage p k)
  := by
  have hfits := hrun.fits
  have hoff := pageOff_nthPage v (show k < 2 ^ 20 by omega)
  rw [State.resolve, hmaps.vars.kernelPdt, hmaps.page, hoff, if_pos hk, Option.map_some,
    paddr_createPtEntry (hrun.dvd_nthPage (by omega))]

/-- `pdt_create` fails, or it takes a frame, maps it in the kernel and clears it.  Up to the page where the frame is
mapped, all slots of the kernel have page tables. -/
theorem pdtCreate_new (w : World) :
  After (paging pdtCreate) w.heap fun r h' => r.1 ≠ 0 → r.2 ≠ 0 →
    ∃ w', w'.heap = h' ∧ Keeps {.pdt r.2, .kernelTable} ∅ w w' ∧ w.own r.2 = none ∧ Child w' r.2 ∧
      (∀ i, ¬ w'.state.has r.2 i) ∧ w'.state.resolve r.1 = some r.2 ∧ ¬ IsTmp r.1 ∧
      ∀ i, kernelPdtIdx ≤ i → i ≤ virtualToPdtIdx r.1 → w'.state.has w'.state.kernelPdt i
  := by
  rw [pdtCreate_eq]
  unfold createDirectory
  refine After.bind (pfaAllocate_spec w 1 (.kernelStack 0) (by simp)) ?_
  rintro p - ⟨w₁, rfl, hkeeps₁, hp⟩
  refine After.bind (findNextVaddr_spec w₁ pdtSize) ?_
  rintro v - ⟨w₂, rfl, -, rfl, hspare⟩
  refine After.bind (mapKernelMemory_spec w₂ p v pdtSize) ?_
  rintro r - ⟨w₃, rfl, hkeeps₃, m, hmaps, hm⟩
  refine After.ite ?_ ?_
  · rintro - ⟨pdt, p'⟩ h' hrun hne
    simp only [paging, Option.map_some, Option.some.injEq, Prod.mk.injEq] at hrun
    exact absurd hrun.1.1.symm hne
  · rintro hsize ⟨pdt, p'⟩ h' hrun hpdt hne
    obtain ⟨⟨a, s'⟩, hfill, heq⟩ := Option.map_eq_some_iff.mp hrun
    obtain ⟨rfl, rfl⟩ := Prod.mk.inj heq
    obtain ⟨f, hf, heq⟩ := Option.map_eq_some_iff.mp hfill
    simp only [Prod.mk.injEq] at heq
    obtain ⟨⟨rfl, rfl⟩, rfl⟩ := heq
    obtain ⟨-, hrun₁, hmem₁, hfresh, hown₁⟩ := hp.resolve_left fun h => hne h.1
    rw [framesFrom_one] at hfresh hown₁
    have hone : m = 1 := by
      rw [show pdtSize = 1 * fourKb from rfl] at hm hsize
      exact hrun₁.all_mapped hm hsize
    have hres : w₃.state.resolve v = some p := by
      have hfirst := resolve_of_maps hrun₁ hmaps (by rw [hone, UInt32.toNat_one]) (k := 0) (by omega)
      rwa [nthPage_zero, nthPage_zero] at hfirst
    obtain rfl : p = f := by
      rw [hres] at hf
      exact Option.some.inj hf
    have hown : w₃.own p = some (.kernelStack 0) :=
      hkeeps₃.label _ _ ((hown₁ p).mpr (Or.inr rfl)) (Set.notMem_empty _)
    refine ⟨w₃.newDir hown, rfl, ?_, hfresh p rfl, w₃.newDir_child hown, w₃.newDir_empty hown, ?_, ?_, ?_⟩
    · refine Keeps.newDir ((hkeeps₁.mono (by simp) subset_rfl).trans (hkeeps₃.mono (by simp) subset_rfl) (by simp))
        (hfresh p rfl) hown ?_ ?_
      · intro f hf
        exact ((hown₁ f).mp ((hkeeps₃.fresh f _ hf).resolve_right (by simp))).symm
      · intro f hf
        rw [hkeeps₃.contents f _ ((hown₁ f).mpr (Or.inl hf)) (by simp) (Set.notMem_empty _), hmem₁]
    · rw [State.resolve, ← World.page, w₃.newDir_page hown]
      exact hres
    · rintro ⟨hi, hj⟩
      have hself : pageOff v v < m := by
        have hlt := v.toNat_lt
        rw [pageOff]
        omega
      exact hmaps.spared v hself ⟨hj, Or.inl hi⟩
    · intro i hle (hi : i ≤ virtualToPdtIdx v)
      have hmem : (w₃.newDir hown).state.mem w₃.state.kernelPdt = w₃.state.mem w₃.state.kernelPdt :=
        Function.update_of_ne (w₃.labelled.ne_pdt hown).symm _ _
      show (w₃.newDir hown).state.has w₃.state.kernelPdt i
      rw [State.has, hmem]
      by_cases heq : i = virtualToPdtIdx v
      · by_contra hnot
        rw [State.resolve, State.page_of_not_has (by rwa [← heq])] at hres
        simp at hres
      · have hhas := (hspare hpdt).2 (by decide) i hle (by omega)
        have hlt := virtualToPdtIdx_lt v
        rw [hmaps.vars.kernelPdt, hmaps.kept i (by omega) hhas]
        exact hhas

/-! ### Mapping -/

/-- A frame that is not one of the directory or its page tables is not written to when pages are mapped. -/
theorem Directory.mem_of_maps {s' : State} {rw pl : UInt8} (h : Directory w d t)
    (hmaps : Maps w.state s' d p vaddr rw pl m) {f : UInt32} (hne : f ≠ d) (hf : w.own f ≠ some (.table d))
    (hused : f.toNat ∉ w.state.pfa.free) :
  s'.mem f = w.state.mem f
  := by
  apply hmaps.other f hne
  · intro i hi hhas
    exact h.ne_tables hf hi hhas
  · exact fun hin => absurd hin hused

section Maps

variable {s' : State} (h : Directory w d t) (hmaps : Maps w.state s' d p vaddr pagingReadWrite pagingPl3 m)

include h hmaps

theorem Directory.maps_table {i : ℕ} (hi : i < 1024) (hhas : s'.has d i) :
  relabel w.state s' (.table d) w.own (s'.table d i) = some (.table d)
  := by
  rcases hmaps.has_iff hi hhas with ⟨hold, heq⟩ | ⟨-, hfree, htaken⟩
  · rw [heq]
    exact w.labelled.relabel_eq hmaps.taken (h.table i hi hold)
  · exact relabel_of_taken hfree htaken

/-- Frames with other labels are not written to. -/
theorem Directory.maps_mem {f : UInt32} {t' : Tag} (hf : w.own f = some t') (hne : f ≠ d) (ht : t' ≠ .table d) :
  s'.mem f = w.state.mem f
  := by
  apply h.mem_of_maps hmaps hne
  · rw [hf]
    exact fun heq => ht (Option.some.inj heq)
  · exact (w.labelled.held f t' hf).2

theorem Directory.maps_pdt :
  s'.mem w.state.kernelPdt = w.state.mem w.state.kernelPdt
  := by
  apply h.mem_of_maps hmaps (w.labelled.ne_pdt h.own).symm
  · exact fun hown => w.labelled.ne_pdt hown rfl
  · exact w.labelled.kernel.used

/-- The kernel's own pages are not concerned. -/
theorem Directory.maps_page (u : UInt32) :
  s'.page s'.kernelPdt u = w.page u
  := by
  have hl := w.labelled
  rw [hmaps.vars.kernelPdt]
  apply State.page_congr (by rw [h.maps_pdt hmaps])
  intro hhas
  have hi := virtualToPdtIdx_lt u
  rw [h.mem_of_maps hmaps]
  · exact (hl.ne_kernelTable h.own h.ne_kernelTable hi hhas).symm
  · exact fun hown => hl.ne_kernelTable hown (by simp) hi hhas rfl
  · exact hl.kernel.table_used _ hi hhas

/-- The page tables that are taken get their label, when the directory of a process stays private. -/
theorem Directory.maps_labelled (hself : t = .pdt d → Private s' (relabel w.state s' (.table d) w.own) d) :
  Labelled s' (relabel w.state s' (.table d) w.own)
  := by
  have hl := w.labelled
  have hpdt := h.maps_pdt hmaps
  refine hl.relabel hmaps.map hmaps.vars ?_ (by simp) (by rw [hpdt]) ?_ ?_
  · exact hl.kernel.congr hpdt hmaps.taken hmaps.vars.kernelPt
  · exact fun i _ _ => Or.inl (by rw [hpdt])
  · intro d₁ hd₁ _
    by_cases heq : d₁ = d
    · rw [heq, h.own] at hd₁
      rw [heq]
      exact hself (Option.some.inj hd₁)
    · apply (hl.dirs d₁ hd₁).congr (h.maps_mem hmaps hd₁ heq (by simp))
      · intro f hf
        apply h.maps_mem hmaps hf _ (by simpa using heq)
        rintro rfl
        rw [h.own] at hf
        exact h.ne_table d₁ (Option.some.inj hf)
      · exact fun _ _ _ hf => hl.relabel_eq hmaps.taken hf

/-- Pages are mapped in the directory. -/
theorem Directory.maps_keeps (hself : t = .pdt d → Private s' (relabel w.state s' (.table d) w.own) d) :
  ∃ w' : World, w'.heap = { w.heap with kernel := s' } ∧ Keeps {t, .table d} ∅ w w' ∧ Directory w' d t ∧
    ∀ v, w'.page v = w.page v
  := by
  have hl := w.labelled
  have hpage := h.maps_page hmaps
  refine ⟨⟨{ w.heap with kernel := s' }, relabel w.state s' (.table d) w.own, h.maps_labelled hmaps hself⟩, rfl, ?_,
    ?_, hpage⟩
  · refine ⟨hmaps.map, hmaps.vars, ?_, ?_, ?_, ?_, fun _ hr => Or.inl hr⟩
    · exact fun _ _ hf _ => hl.relabel_eq hmaps.taken hf
    · intro f t' hf
      obtain ⟨-, ⟨-, rfl⟩ | hold⟩ := relabel_eq_some hf
      · exact Or.inr (by simp)
      · exact Or.inl hold
    · intro f t' hf ht _
      simp only [Set.mem_insert_iff, Set.mem_singleton_iff, not_or] at ht
      apply h.maps_mem hmaps hf _ ht.2
      rintro rfl
      rw [h.own] at hf
      exact ht.1 (Option.some.inj hf).symm
    · intro u e _ hu _ _ _
      exact (hpage u).trans hu
  · refine ⟨hl.relabel_eq hmaps.taken h.own, h.tag, ?_, hmaps.separate.table_inj⟩
    exact fun i hi hhas => h.maps_table hmaps hi hhas

end Maps

section User

variable {s' : State} (h : Child w d) (hmaps : Maps w.state s' d p vaddr pagingReadWrite pagingPl3 m)
  (hrange : ∀ u, pageOff vaddr u < m → u < kernelStartVaddr)

include h hmaps hrange

/-- Pages of user space get page tables in user space. -/
theorem Child.maps_half {i : ℕ} (hle : kernelPdtIdx ≤ i) (hi : i < 1024) :
  ¬ s'.has d i
  := by
  intro hhas
  have hold := h.half i hle hi
  rcases hmaps.opened i hi hold with heq | ⟨t, -, -, -, -, u, hu, rfl⟩
  · rw [State.has, heq] at hhas
    exact hold hhas
  · have hlt := virtualToPdtIdx_lt_kernel (hrange u hu)
    omega

theorem Child.maps_private
    (hframes : ∀ k < m, 4096 ∣ (nthPage p k).toNat ∧ w.own (nthPage p k) = some (.user d)) :
  Private s' (relabel w.state s' (.table d) w.own) d
  := by
  constructor
  · intro i hi hhas
    exact h.directory.maps_table hmaps (Nat.lt_trans hi (by decide)) hhas
  · intro u hu e he
    rw [hmaps.page] at he
    split at he
    case isTrue hlt =>
      obtain ⟨hdvd, hown⟩ := hframes _ hlt
      obtain rfl := Option.some.inj he
      rw [paddr_createPtEntry hdvd]
      exact w.labelled.relabel_eq hmaps.taken hown
    case isFalse => exact w.labelled.relabel_eq hmaps.taken ((w.labelled.dirs d h.own).page u hu e he)
  · intro i hle hi hhas
    exact absurd hhas (h.maps_half hmaps hrange hle hi)

end User

/-- `pdt_map_memory` of pages of user space maps frames of the process in its directory, all of them or none. -/
theorem mapMemory_spec (w : World) (h : Child w d) (hres : w.state.resolve pdt = some d)
    (hrange : ∀ u, pageOff vaddr u < pages size → u < kernelStartVaddr)
    (hframes : ∀ k < pages size, 4096 ∣ (nthPage p k).toNat ∧ w.own (nthPage p k) = some (.user d)) :
  Spec {.pdt d, .table d} ∅ (mapMemory pdt p vaddr size) w fun r w' => Child w' d ∧
    ∃ m, Maps w.state w'.state d p vaddr pagingReadWrite pagingPl3 m ∧
      ((m = pages size ∧ r = alignUp size fourKb) ∨ (m < pages size ∧ r = 0))
  := by
  apply Spec.paging
  intro r s' hrun
  have hdir := h.directory
  obtain ⟨m, s'', r', hmap, hmaps, hr⟩ := pdtMapMemory_spec w.labelled.pfa hdir.separate p vaddr size
    pagingReadWrite pagingPl3
  rw [hres, Option.map_some, hmap] at hrun
  obtain ⟨rfl, rfl⟩ := Prod.mk.inj (Option.some.inj hrun)
  have hrange' : ∀ u, pageOff vaddr u < m → u < kernelStartVaddr := fun u hu => hrange u (by omega)
  have hframes' : ∀ k < m, 4096 ∣ (nthPage p k).toNat ∧ w.own (nthPage p k) = some (.user d) :=
    fun k hk => hframes k (by omega)
  obtain ⟨w', hw', hkeeps, hdir', -⟩ := hdir.maps_keeps hmaps fun _ => h.maps_private hmaps hrange' hframes'
  have hstate : w'.state = s'' := by rw [World.state, hw']
  refine ⟨w', hw', hkeeps, ⟨hdir'.own, ?_, hdir'.inj⟩, m, by rwa [hstate], hr⟩
  rw [hstate]
  exact fun i hle hi => h.maps_half hmaps hrange' hle hi

end Process
