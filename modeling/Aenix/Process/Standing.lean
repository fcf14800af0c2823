import Aenix.Paging.Clear
import Aenix.Process.Child

/-!
# Parts of a process

Whatever the size of the program and the lists that are copied, the functions that load the parts of a process leave
the directory mapped in the kernel, those that fail included (`Bare`, `Standing`).  Large files make
`pdt_unmap_memory` remove pages of others, and large programs reach into the kernel half of the directory: nothing is
said about either, and the directory has a label here that no process uses.
-/

open Aenix
open Paging hiding Call exec Step

namespace Process

variable {w w' : World} {s : State} {own : Labels} {new gone : Set Tag} {t : Tag} {c d p pdt v vaddr size : UInt32}
  {ps : Ps} {m : ℕ}

/-! ### Directories that no process uses -/

/-- The label of a directory is exchanged for one that no process uses. -/
theorem Labelled.forget (h : Labelled s own) (hd : own d = some (.pdt d)) :
  Labelled s (Function.update own d (some (.kernelStack 0)))
  := by
  have hown : ∀ {f t}, own f = some t → t ≠ .pdt d →
      Function.update own d (some (.kernelStack 0)) f = some t := by
    intro f t hf ht
    rw [Function.update_of_ne, hf]
    rintro rfl
    rw [hd] at hf
    exact ht (Option.some.inj hf).symm
  refine ⟨h.pfa, ?_, h.pdt_unmanaged, h.pt_unmanaged, h.kernel, h.first, ?_, h.supervisor, ?_⟩
  · intro f t hf
    by_cases heq : f = d
    · rw [heq]
      exact h.held d _ hd
    · rw [Function.update_of_ne heq] at hf
      exact h.held f t hf
  · exact fun i hi hhas hne => hown (h.kernelTable i hi hhas hne) (by simp)
  · intro d' hd'
    by_cases heq : d' = d
    · rw [heq, Function.update_self] at hd'
      simp at hd'
    · rw [Function.update_of_ne heq] at hd'
      apply (h.dirs d' hd').congr rfl (fun _ _ => rfl)
      rintro f t (rfl | rfl) hf
      · exact hown hf (by simp)
      · exact hown hf (by simp)

/-- The world in which the label is exchanged. -/
def World.forget (w : World) (hd : w.own d = some (.pdt d)) : World :=
  ⟨w.heap, Function.update w.own d (some (.kernelStack 0)), w.labelled.forget hd⟩

/-- A directory that is mapped at `pdt`. -/
structure Bare (w : World) (pdt c : UInt32) : Prop where
  dir : Directory w c (.kernelStack 0)
  pdt : w.state.resolve pdt = some c

theorem Child.bare (h : Child w c) (hres : w.state.resolve pdt = some c) :
  Bare (w.forget h.own) pdt c
  := by
  refine ⟨⟨Function.update_self _ _ _, Or.inr rfl, ?_, h.inj⟩, hres⟩
  intro i hi hhas
  have htable := h.directory.table i hi hhas
  refine (Function.update_of_ne ?_ _ _).trans htable
  intro (heq : w.state.table c i = c)
  rw [heq, h.own] at htable
  simp at htable

theorem Bare.keeps (h : Bare w pdt c) (hkeeps : Keeps new gone w w') (hnew : .kernelStack 0 ∉ new)
    (hgone : gone ⊆ {.kernelTable}) :
  Bare w' pdt c
  := by
  have hpdt : .kernelStack 0 ∉ gone := fun hin => by simpa using hgone hin
  have htable : .table c ∉ gone := fun hin => by simpa using hgone hin
  exact ⟨h.dir.keeps hkeeps ⟨hnew, hpdt⟩ htable, hkeeps.resolve h.pdt h.dir.own trivial hpdt⟩

/-! ### Calls -/

theorem vfsLookup_spec (w : World) (env : Env) (path : List UInt8) :
  Spec {.heap, .kernelTable} ∅ (vfsLookup env path) w fun _ w' => Extends w.state w'.state
  := by
  unfold vfsLookup
  refine Spec.bind (kmalloc_spec w env _) subset_rfl subset_rfl (by simp) ?_
  intro a w₁ _ hmore
  refine Spec.bind (kfree_spec w₁ env a) (by simp) subset_rfl (by simp) ?_
  rintro - w₂ - ⟨-, hstate⟩
  apply Spec.pure
  rw [hstate]
  exact hmore

/-- `pdt_map_memory` for the directory. -/
theorem Bare.mapMemory_spec (h : Bare w pdt c) :
  After (mapMemory pdt p vaddr size) w.heap fun _ h' => ∃ w', w'.heap = h' ∧
    Keeps {.kernelStack 0, .table c} ∅ w w' ∧ Bare w' pdt c
  := by
  rintro r h' hrun
  obtain ⟨⟨r', s'⟩, hmemory, heq⟩ := Option.map_eq_some_iff.mp hrun
  obtain ⟨rfl, rfl⟩ := Prod.mk.inj heq
  obtain ⟨f, hres, hmap⟩ := Option.map_eq_some_iff.mp hmemory
  rw [h.pdt] at hres
  obtain rfl := Option.some.inj hres
  obtain ⟨m, s'', r, hspec, hmaps, -⟩ := pdtMapMemory_spec w.labelled.pfa h.dir.separate p vaddr size
    pagingReadWrite pagingPl3
  obtain ⟨rfl, rfl⟩ := Prod.mk.inj (hspec.symm.trans hmap)
  obtain ⟨w', hw', hkeeps, hdir, hpage⟩ := h.dir.maps_keeps hmaps (by simp)
  refine ⟨w', hw', hkeeps, hdir, ?_⟩
  rw [State.resolve, ← World.page, hpage]
  exact h.pdt

/-- A directory stays when pages of the kernel are unmapped. -/
theorem Directory.unmaps (h : Directory w d t) (hunmaps : Unmaps w.state w'.state w.state.kernelPdt)
    (hlabel : ∀ f t, w.own f = some t → t ≠ .kernelTable → w'.own f = some t) :
  Directory w' d t
  := by
  have hmem : w'.state.mem d = w.state.mem d := by
    apply hunmaps.other d (w.labelled.ne_pdt h.own)
    exact fun i hi hhas => w.labelled.ne_kernelTable h.own h.ne_kernelTable hi hhas
  refine ⟨hlabel d t h.own h.ne_kernelTable, h.tag, ?_, ?_⟩
  · intro i hi hhas
    rw [State.has, hmem] at hhas
    rw [State.table, hmem]
    exact hlabel _ _ (h.table i hi hhas) (by simp)
  · simp only [State.has, State.table, hmem]
    exact h.inj

/-! ### Unmapping -/

/-- The slots of the kernel half up to that of the page `v` have page tables. -/
def Covered (s : State) (v : UInt32) : Prop :=
  ∀ i, kernelPdtIdx ≤ i → i ≤ virtualToPdtIdx v → s.has s.kernelPdt i

theorem Covered.extends {s' : State} (h : Covered s v) (hmore : Extends s s') :
  Covered s' v
  := by
  have hlt := virtualToPdtIdx_lt v
  exact fun i hle hi => hmore.slot i (by omega) (h i hle hi)

/-- Pages for more than a slot begin with a slot that has no page table. -/
theorem Spare.after_slots (h : Spare s v m) (hm : 1024 < m) {u : UInt32} (hslots : Covered s u) :
  u.toNat / 4096 < v.toNat / 4096
  := by
  have hnot : ¬ s.has s.kernelPdt (virtualToPdtIdx v) := by
    intro hhas
    have hfits := (h.vacant hhas).2.1
    omega
  have hlt : virtualToPdtIdx u < virtualToPdtIdx v := by
    by_contra hle
    exact hnot (hslots _ h.kernelHalf (by omega))
  rw [virtualToPdtIdx_eq, virtualToPdtIdx_eq] at hlt
  omega

/-- The page of the directory is not one of those that have been found. -/
theorem Bare.notMem_spare (h : Bare w pdt c) (hspare : Spare w.state v m) (hfits : virtualToPtIdx v + m ≤ 1024) :
  ¬ pageOff v pdt < m
  := by
  intro hin
  obtain ⟨hidx, hle, hlt⟩ := (pageOff_lt_iff hfits).mp hin
  have hpdt := h.pdt
  rw [State.resolve] at hpdt
  by_cases hhas : w.state.has w.state.kernelPdt (virtualToPdtIdx v)
  · rw [State.page_of_has (by rwa [hidx]), hidx, ((hspare.vacant hhas).2.2 _ hle hlt).1] at hpdt
    simp at hpdt
  · rw [State.page_of_not_has (by rwa [hidx])] at hpdt
    simp at hpdt

/-- The pages that `pdt_kernel_find_next_vaddr` has found in the world `w₀` are unmapped, be they mapped or not.  When
they are more than a slot has, the slots up to the page of the directory had page tables. -/
theorem Bare.unmap_spec (h : Bare w pdt c) (env : Env) {w₀ : World} (h₀ : Bare w₀ pdt c)
    (hspare : Spare w₀.state v (pages size))
    (hslots : pages size ≤ 1024 ∨ Covered w₀.state pdt)
    (hkept : w₀.state.has w₀.state.kernelPdt (virtualToPdtIdx v) →
      w.state.has w.state.kernelPdt (virtualToPdtIdx v)) :
  After (unmapKernelMemory env v size) w.heap fun _ h' => ∃ w', w'.heap = h' ∧ Bare w' pdt c
  := by
  refine After.mono (unmapKernelMemory_run w env) ?_
  rintro r - ⟨w', rfl, -, hrun, hlabel, -⟩
  have hunmaps := pdtUnmapMemory_spec w.labelled.pfa w.labelled.kernel w.labelled.managed hrun
  refine ⟨w', rfl, h.dir.unmaps hunmaps hlabel, ?_⟩
  rw [State.resolve, hunmaps.vars.kernelPdt]
  suffices hpage : w'.state.page w.state.kernelPdt pdt = w.page pdt by
    rw [hpage]
    exact h.pdt
  have hstart : w.state.has w.state.kernelPdt (virtualToPdtIdx v) ∨ virtualToPtIdx v = 0 := by
    by_cases hhas : w₀.state.has w₀.state.kernelPdt (virtualToPdtIdx v)
    · exact Or.inl (hkept hhas)
    · exact Or.inr (hspare.start hhas)
  rcases Nat.lt_or_ge 1024 (pages size) with hlarge | hsmall
  · -- the pages that are removed come after that of the directory
    exact pdtUnmapMemory_before w.labelled.pfa w.labelled.kernel w.labelled.managed hspare.dvd hstart hrun
      (hspare.after_slots hlarge (hslots.resolve_left (by omega)))
  · rcases range_of_returns w.labelled.kernel hspare.dvd hstart hrun with heq | ⟨hpos, hend, hrange⟩
    · rw [heq]
    · have hfits : virtualToPtIdx v + pages size ≤ 1024 := by
        by_cases hhas : w₀.state.has w₀.state.kernelPdt (virtualToPdtIdx v)
        · exact (hspare.vacant hhas).2.1
        · rw [hspare.start hhas]
          omega
      have hself : pageOff v v < pages size := by
        have hlt := v.toNat_lt
        rw [pageOff]
        omega
      refine pdtUnmapMemory_outside w.labelled.kernel (hrange v hself).1 hpos hfits ?_ hrun ?_
      · intro hidx
        have hbefore := range_before_tmp hspare.dvd hend fun u hu => (hrange u hu).2
        rw [virtualToPdtIdx_eq, kernelPdtIdx] at hidx
        rw [virtualToPtIdx_eq, kernelTmpPtIdx]
        omega
      · exact h₀.notMem_spare hspare hfits

/-! ### Loading -/

theorem pages_le_divCeil (size : UInt32) :
  pages size ≤ (divCeil size fourKb).toNat
  := by
  have hlt := size.toNat_lt
  have hup := toNat_alignUp_eq size (show 0 < fourKb.toNat by decide)
  rw [toNat_alignUp_fourKb, toNat_fourKb] at hup
  rw [divCeil, UInt32.toNat_add, UInt32.toNat_div, toNat_fourKb, UInt32.toNat_sub, UInt32.toNat_one]
  omega

/-- All pages are mapped when the size that is returned is not too small. -/
theorem all_mapped {r : UInt32} (hr : (m = pages size ∧ r = alignUp size fourKb) ∨ (m < pages size ∧ r = 0))
    (hle : ¬ r < size) :
  m = pages size
  := by
  rcases hr with ⟨hm, -⟩ | ⟨hm, rfl⟩
  · exact hm
  · rw [UInt32.not_lt, UInt32.le_iff_toNat_le, UInt32.toNat_zero, Nat.le_zero] at hle
    rw [pages_eq (by omega), hle] at hm
    omega

/-- The slot of the first page that has been mapped has a page table as long as the pages stay. -/
theorem has_of_maps {w₁ w₂ : World} (hmaps : Maps w.state w₁.state w.state.kernelPdt p v pagingReadWrite pagingPl0 m)
    (hpage : ∀ u, w₂.page u = w₁.page u) (hpos : 0 < m) :
  w₂.state.has w₂.state.kernelPdt (virtualToPdtIdx v)
  := by
  by_contra hnot
  have hnone := hpage v
  have hself : pageOff v v < m := by
    have hlt := v.toNat_lt
    rw [pageOff]
    omega
  rw [World.page, State.page_of_not_has hnot, World.page, hmaps.vars.kernelPdt, hmaps.page, if_pos hself] at hnone
  simp at hnone

/-- Pages of the kernel that are mapped to frames of a process are written to. -/
theorem vfsRead_spec {count : UInt32} (w : World) (env : Env) (node : Vnode)
    (hres : ∀ k < pages count, ∃ f, w.state.resolve (nthPage v k) = some f ∧ w.own f = some (.user d)) :
  Spec {.user d} ∅ (vfsRead env node v count) w fun _ w' => w'.own = w.own ∧ ∀ u, w'.page u = w.page u
  := by
  apply Spec.paging
  intro r s' hrun
  obtain ⟨s₁, hs₁, heq⟩ := Option.map_eq_some_iff.mp hrun
  obtain ⟨-, rfl⟩ := Prod.mk.inj heq
  exact (writePages_wrote w.labelled hres hs₁).keeps

/-- `process_load_pdt` gives the process a directory. -/
theorem processLoadPdt_bare (w : World) (ps : Ps) :
  After (processLoadPdt ps) w.heap fun r h' => ∀ ps', r = some ps' →
    ∃ w' pdt c, w'.heap = h' ∧ Bare w' pdt c ∧ ¬ IsTmp pdt ∧
      Covered w'.state pdt ∧ ps' = { ps with pdt := pdt, pdtPaddr := c }
  := by
  refine After.mono (processLoadPdt_spec w ps) ?_
  intro r h' hload ps' hps'
  obtain ⟨w', pdt, c, rfl, -, -, hchild, hres, htmp, hslots, heq⟩ := hload ps' hps'
  exact ⟨w'.forget hchild.own, pdt, c, rfl, hchild.bare hres, htmp, hslots, heq⟩

/-- `process_load_code` of a file of any size. -/
theorem processLoadCode_bare (env : Env) (h : Bare w ps.pdt c) (hslots : Covered w.state ps.pdt) (path : List UInt8)
    (vaddr : UInt32) :
  After (processLoadCode env ps path vaddr) w.heap fun r h' => h'.kernel.resolve ps.pdt = some c ∧
    ∀ ps', r = some ps' → ∃ w' e, w'.heap = h' ∧ Bare w' ps.pdt c ∧ ps' = { ps with
      codePaddrs := [e], userMode := { ps.userMode with eip := vaddr }, codeStartVaddr := vaddr }
  := by
  unfold processLoadCode
  refine After.bind (vfsLookup_spec w env path) ?_
  rintro node - ⟨w₀, rfl, hkeeps₀, hmore₀⟩
  have hbare₀ := h.keeps hkeeps₀ (by simp) (by simp)
  cases node with
  | none => exact After.pure ⟨hbare₀.pdt, by simp⟩
  | some node =>
  dsimp only
  cases hsize : env.vfs.fileSize node with
  | none => exact After.pure ⟨hbare₀.pdt, by simp⟩
  | some fileSize =>
  dsimp only
  refine After.bind (pfaAllocate_spec w₀ _ (.user c) (by simp)) ?_
  rintro p - ⟨w₁, rfl, hkeeps₁, halloc⟩
  have hbare₁ := hbare₀.keeps hkeeps₁ (by simp) (by simp)
  refine After.ite (fun _ => After.pure ⟨hbare₁.pdt, by simp⟩) ?_
  intro hp
  obtain ⟨-, hrun, hmem₁, -, hown₁⟩ := halloc.resolve_left fun h => hp h.1
  have hslots₁ := (hslots.extends hmore₀).extends (extends_of_mem hmem₁ hkeeps₁.vars.kernelPdt)
  refine After.bind (findNextVaddr_spec w₁ _) ?_
  rintro v - ⟨w₂, rfl, -, rfl, hspare⟩
  refine After.ite (fun _ => After.pure ⟨hbare₁.pdt, by simp⟩) ?_
  intro hv
  refine After.bind (mapKernelMemory_spec w₂ p v _) ?_
  rintro r - ⟨w₃, rfl, hkeeps₃, m, hmaps, hr⟩
  have hbare₃ := hbare₁.keeps hkeeps₃ (by simp) (by simp)
  have hkept₃ := (extends_of_maps hmaps).slot _ (virtualToPdtIdx_lt v)
  refine After.ite (fun _ => ?_) ?_
  · refine After.bind (hbare₃.unmap_spec env hbare₁ (hspare hv).1 (Or.inr hslots₁) hkept₃) ?_
    rintro - - ⟨w₄, rfl, hbare₄⟩
    exact After.pure ⟨hbare₄.pdt, by simp⟩
  intro hle
  have hpages := pages_le_divCeil fileSize
  have hm := all_mapped hr hle
  have hframes : ∀ k < pages fileSize, ∃ f, w₃.state.resolve (nthPage v k) = some f ∧ w₃.own f = some (.user c) := by
    intro k hk
    refine ⟨_, resolve_of_maps hrun hmaps (by omega) (by omega), ?_⟩
    exact hkeeps₃.label _ _ ((hown₁ _).mpr (Or.inr (nthPage_mem (by omega)))) (Set.notMem_empty _)
  refine After.bind (vfsRead_spec w₃ env node hframes) ?_
  rintro count - ⟨w₄, rfl, hkeeps₄, -, hpage₄⟩
  have hbare₄ := hbare₃.keeps hkeeps₄ (by simp) (by simp)
  have hkept₄ : w₂.state.has w₂.state.kernelPdt (virtualToPdtIdx v) →
      w₄.state.has w₄.state.kernelPdt (virtualToPdtIdx v) := by
    intro hhas
    exact has_of_maps hmaps hpage₄ (by rw [hm]; exact ((hspare hv).1.vacant hhas).1)
  refine After.ite (fun _ => ?_) ?_
  · refine After.bind (hbare₄.unmap_spec env hbare₁ (hspare hv).1 (Or.inr hslots₁) hkept₄) ?_
    rintro - - ⟨w₅, rfl, hbare₅⟩
    exact After.pure ⟨hbare₅.pdt, by simp⟩
  intro hcount
  refine After.bind (hbare₄.unmap_spec env hbare₁ (hspare hv).1 (Or.inr hslots₁) hkept₄) ?_
  rintro - - ⟨w₅, rfl, hbare₅⟩
  refine After.bind hbare₅.mapMemory_spec ?_
  rintro r - ⟨w₆, rfl, -, hbare₆⟩
  refine After.ite (fun _ => After.pure ⟨hbare₆.pdt, by simp⟩) ?_
  intro hmapped
  refine After.bind (kmalloc_spec w₆ env _) ?_
  rintro pe - ⟨w₇, rfl, hkeeps₇, -⟩
  have hbare₇ := hbare₆.keeps hkeeps₇ (by simp) (by simp)
  refine After.ite (fun _ => After.pure ⟨hbare₇.pdt, by simp⟩) ?_
  intro hpe
  exact After.pure ⟨hbare₇.pdt, fun ps' hps' => ⟨w₇, ⟨pe, p, divCeil fileSize fourKb⟩, rfl, hbare₇,
    (Option.some.inj hps').symm⟩⟩

/-- `process_load_stack`. -/
theorem processLoadStack_bare (env : Env) (h : Bare w ps.pdt c) :
  After (processLoadStack env ps) w.heap fun r h' => h'.kernel.resolve ps.pdt = some c ∧ ∀ ps', r = some ps' →
    ∃ w' e, w'.heap = h' ∧ Bare w' ps.pdt c ∧ e.count = 1 ∧ ps' = { ps with
      stackPaddrs := [e], stackStartVaddr := procInitialStackVaddr,
      userMode := { ps.userMode with esp := procInitialEsp } }
  := by
  unfold processLoadStack
  refine After.bind (pfaAllocate_spec w _ (.user c) (by simp)) ?_
  rintro p - ⟨w₁, rfl, hkeeps₁, -⟩
  have hbare₁ := h.keeps hkeeps₁ (by simp) (by simp)
  refine After.ite (fun _ => After.pure ⟨hbare₁.pdt, by simp⟩) ?_
  intro hp
  refine After.bind hbare₁.mapMemory_spec ?_
  rintro r - ⟨w₂, rfl, -, hbare₂⟩
  refine After.ite (fun _ => After.pure ⟨hbare₂.pdt, by simp⟩) ?_
  intro hmapped
  refine After.bind (kmalloc_spec w₂ env _) ?_
  rintro pe - ⟨w₃, rfl, hkeeps₃, -⟩
  have hbare₃ := hbare₂.keeps hkeeps₃ (by simp) (by simp)
  refine After.ite (fun _ => After.pure ⟨hbare₃.pdt, by simp⟩) ?_
  intro hpe
  exact After.pure ⟨hbare₃.pdt, fun ps' hps' => ⟨w₃, ⟨pe, p, divCeil procInitialStackSize fourKb⟩, rfl, hbare₃,
    show divCeil procInitialStackSize fourKb = 1 by decide, (Option.some.inj hps').symm⟩⟩

/-! ### The stack in the kernel -/

/-- The last word of a page is in the page. -/
theorem lastWord_page (hdvd : 4096 ∣ v.toNat) :
  virtualToPdtIdx (v + 4096 - 4) = virtualToPdtIdx v ∧ virtualToPtIdx (v + 4096 - 4) = virtualToPtIdx v
  := by
  have hlt := v.toNat_lt
  have hnat : (v + 4096 - 4).toNat = v.toNat + 4092 := by
    rw [UInt32.toNat_sub, UInt32.toNat_add, show (4096 : UInt32).toNat = 4096 from rfl,
      show (4 : UInt32).toNat = 4 from rfl]
    omega
  rw [virtualToPdtIdx_eq, virtualToPdtIdx_eq, virtualToPtIdx_eq, virtualToPtIdx_eq, hnat]
  omega

/-- The directory of the process and its stack in the kernel are mapped to different frames. -/
structure Standing (w : World) (ps : Ps) : Prop where
  pdt : Bare w ps.pdt ps.pdtPaddr
  pdt_tmp : ¬ IsTmp ps.pdt
  stack : ∃ a p, ps.kernelStackPaddrs = [⟨a, p, 1⟩] ∧ w.own p = some (.kernelStack 1) ∧
    w.state.resolve ps.kernelStackStartVaddr = some p
  stack_tmp : ¬ IsTmp ps.kernelStackStartVaddr

theorem Standing.keeps (h : Standing w ps) (hkeeps : Keeps {.heap, .kernelTable} ∅ w w') :
  Standing w' ps
  := by
  obtain ⟨a, p, hlist, hown, hres⟩ := h.stack
  refine ⟨h.pdt.keeps hkeeps (by simp) (by simp), h.pdt_tmp, ⟨a, p, hlist, ?_, ?_⟩, h.stack_tmp⟩
  · exact hkeeps.label p _ hown (by simp)
  · exact hkeeps.resolve hres hown trivial (by simp)

/-- `process_load_kernel_stack`. -/
theorem processLoadKernelStack_standing (env : Env) (h : Bare w ps.pdt ps.pdtPaddr) (htmp : ¬ IsTmp ps.pdt) :
  After (processLoadKernelStack env ps) w.heap fun r h' => h'.kernel.resolve ps.pdt = some ps.pdtPaddr ∧
    ∀ ps', r = some ps' → ∃ w' e u, w'.heap = h' ∧ Standing w' ps' ∧
      ps' = { ps with kernelStackPaddrs := [e], kernelStackStartVaddr := u }
  := by
  unfold processLoadKernelStack
  rw [show divCeil kernelStackSize fourKb = 1 by decide]
  dsimp only
  rw [show (1 : UInt32) * fourKb = 4096 from rfl]
  refine After.bind (pfaAllocate_spec w 1 (.kernelStack 1) (by simp)) ?_
  rintro p - ⟨w₁, rfl, hkeeps₁, halloc⟩
  have hbare₁ := h.keeps hkeeps₁ (by simp) (by simp)
  refine After.ite (fun _ => After.pure ⟨hbare₁.pdt, by simp⟩) ?_
  intro hp
  obtain ⟨-, hrun, -, -, hown₁⟩ := halloc.resolve_left fun h => hp h.1
  refine After.bind (findNextVaddr_spec w₁ _) ?_
  rintro v - ⟨w₂, rfl, -, rfl, hspare⟩
  refine After.ite (fun _ => After.pure ⟨hbare₁.pdt, by simp⟩) ?_
  intro hv
  refine After.bind (mapKernelMemory_spec w₂ p v _) ?_
  rintro r - ⟨w₃, rfl, hkeeps₃, m, hmaps, hr⟩
  have hbare₃ := hbare₁.keeps hkeeps₃ (by simp) (by simp)
  refine After.ite (fun _ => After.pure ⟨hbare₃.pdt, by simp⟩) ?_
  intro hmapped
  have hone : m = 1 := hrun.all_mapped hr (by simp [not_not.mp hmapped, fourKb])
  have hown₃ : w₃.own p = some (.kernelStack 1) :=
    hkeeps₃.label _ _ ((hown₁ p).mpr (Or.inr (by simp [framesFrom_one]))) (Set.notMem_empty _)
  obtain ⟨hidx, hidx'⟩ := lastWord_page (hspare hv).1.dvd
  have hres : w₃.state.resolve (v + 4096 - 4) = some p := by
    have hfirst := resolve_of_maps hrun hmaps (by rw [hone, UInt32.toNat_one]) (k := 0) (by omega)
    rw [nthPage_zero, nthPage_zero] at hfirst
    rw [State.resolve, State.page, hidx, hidx']
    exact hfirst
  have hself : pageOff v v < m := by
    have hlt := v.toNat_lt
    rw [pageOff]
    omega
  have hstanding : ∀ pe, Standing w₃ { ps with
      kernelStackPaddrs := [⟨pe, p, 1⟩], kernelStackStartVaddr := v + 4096 - 4 } := by
    intro pe
    refine ⟨hbare₃, htmp, ⟨pe, p, rfl, hown₃, hres⟩, ?_⟩
    rintro ⟨hi, hj⟩
    rw [hidx] at hi
    rw [hidx'] at hj
    exact hmaps.spared v hself ⟨hj, Or.inl hi⟩
  refine After.bind (kmalloc_spec w₃ env _) ?_
  rintro pe - ⟨w₄, rfl, hkeeps₄, -⟩
  have hbare₄ := hbare₃.keeps hkeeps₄ (by simp) (by simp)
  refine After.ite (fun _ => After.pure ⟨hbare₄.pdt, by simp⟩) ?_
  intro hpe
  refine After.pure ⟨hbare₄.pdt, fun ps' hps' =>
    ⟨w₄, ⟨pe, p, 1⟩, v + 4096 - 4, rfl, ?_, (Option.some.inj hps').symm⟩⟩
  rw [← Option.some.inj hps']
  exact (hstanding pe).keeps hkeeps₄

/-! ### Copying -/

/-- `memcpy` to pages of the kernel that are mapped to frames of a process. -/
theorem memcpy_spec {count : UInt32} (w : World) (src : UInt32)
    (hres : ∀ k < pages count, ∃ f, w.state.resolve (nthPage v k) = some f ∧ w.own f = some (.user d)) :
  Spec {.user d} ∅ (memcpy v src count) w fun _ w' => w'.own = w.own ∧ ∀ u, w'.page u = w.page u
  := by
  apply Spec.paging
  intro r s' hrun
  obtain ⟨s₁, hs₁, heq⟩ := Option.map_eq_some_iff.mp hrun
  obtain ⟨-, rfl⟩ := Prod.mk.inj heq
  exact (memcpyPages_wrote w.labelled hres hs₁).keeps

/-- Freeing does not write to memory. -/
theorem pfaFreeCont_resolve (p n v : UInt32) (h : Kmalloc.Heap State) :
  After (pfaFreeCont p n) h fun _ h' => h'.kernel.resolve v = h.kernel.resolve v
  := by
  intro _ h' hrun
  rw [← (Prod.mk.inj (Option.some.inj hrun)).2]
  rfl

theorem kfree_resolve (env : Env) (ap v : UInt32) (h : Kmalloc.Heap State) :
  After (kfree env ap) h fun _ h' => h'.kernel.resolve v = h.kernel.resolve v
  := by
  intro _ h' hrun
  obtain ⟨h₁, hfree, heq⟩ := Option.map_eq_some_iff.mp hrun
  rw [← (Prod.mk.inj heq).2, (Kmalloc.kfree_kernel hfree).1]

/-- The frames of an element of the list are taken and filled.  When they are more than a slot has pages, the slots
up to the page of the directory have page tables. -/
theorem copyFrames_bare (env : Env) (h : Bare w pdt c) {n : UInt32}
    (hn : n.toNat ≤ 1024 ∨ Covered w.state pdt) :
  After (copyFrames env vaddr n) w.heap fun p h' => h'.kernel.resolve pdt = some c ∧
    (p ≠ 0 → ∃ w', w'.heap = h' ∧ Bare w' pdt c)
  := by
  unfold copyFrames
  refine After.bind (pfaAllocate_spec w n (.user c) (by simp)) ?_
  rintro p - ⟨w₁, rfl, hkeeps₁, halloc⟩
  have hbare₁ := h.keeps hkeeps₁ (by simp) (by simp)
  refine After.ite (fun _ => After.pure ⟨hbare₁.pdt, fun hne => absurd rfl hne⟩) ?_
  intro hp
  obtain ⟨-, hrun, hmem₁, -, hown₁⟩ := halloc.resolve_left fun h => hp h.1
  have hpages := hrun.pages_eq
  refine After.bind (findNextVaddr_spec w₁ _) ?_
  rintro v - ⟨w₂, rfl, -, rfl, hspare⟩
  refine After.ite (fun _ => ?_) ?_
  · refine After.bind (pfaFreeCont_resolve p n pdt w₂.heap) ?_
    intro _ h₃ hres
    exact After.pure ⟨hres.trans hbare₁.pdt, fun hne => absurd rfl hne⟩
  intro hv
  have hslots : pages (n * fourKb) ≤ 1024 ∨ Covered w₂.state pdt := by
    rw [hpages]
    exact hn.imp_right fun hslots => hslots.extends (extends_of_mem hmem₁ hkeeps₁.vars.kernelPdt)
  refine After.bind (mapKernelMemory_spec w₂ p v _) ?_
  rintro r - ⟨w₃, rfl, hkeeps₃, m, hmaps, hr⟩
  have hbare₃ := hbare₁.keeps hkeeps₃ (by simp) (by simp)
  refine After.ite (fun _ => ?_) ?_
  · have hkept₃ := (extends_of_maps hmaps).slot _ (virtualToPdtIdx_lt v)
    refine After.bind (hbare₃.unmap_spec env hbare₁ (hspare hv).1 hslots hkept₃) ?_
    rintro - - ⟨w₄, rfl, hbare₄⟩
    refine After.bind (pfaFreeCont_resolve p n pdt w₄.heap) ?_
    intro _ h₅ hres
    exact After.pure ⟨hres.trans hbare₄.pdt, fun hne => absurd rfl hne⟩
  intro hmapped
  rw [hrun.all_mapped hr hmapped] at hmaps
  have hres : ∀ k < pages (n * fourKb), ∃ f, w₃.state.resolve (nthPage v k) = some f ∧
      w₃.own f = some (.user c) := by
    intro k hk
    rw [hpages] at hk
    exact ⟨_, resolve_of_maps hrun hmaps le_rfl hk,
      hkeeps₃.label _ _ ((hown₁ _).mpr (Or.inr (nthPage_mem hk))) (Set.notMem_empty _)⟩
  refine After.bind (memcpy_spec w₃ vaddr hres) ?_
  rintro - - ⟨w₄, rfl, hkeeps₄, -, hpage₄⟩
  have hbare₄ := hbare₃.keeps hkeeps₄ (by simp) (by simp)
  refine After.bind (hbare₄.unmap_spec env hbare₁ (hspare hv).1 hslots
    fun _ => has_of_maps hmaps hpage₄ hrun.pos) ?_
  rintro - - ⟨w₅, rfl, hbare₅⟩
  exact After.pure ⟨hbare₅.pdt, fun _ => ⟨w₅, rfl, hbare₅⟩⟩

/-- `process_copy_paddr_list` of a list with one element. -/
theorem processCopyPaddrList_bare (env : Env) (h : Bare w pdt c) (q : PaddrEle)
    (hn : q.count.toNat ≤ 1024 ∨ Covered w.state pdt) :
  After (processCopyPaddrList env pdt vaddr [q] []) w.heap fun r h' => h'.kernel.resolve pdt = some c ∧
    (r.1 = true → ∃ w' e, w'.heap = h' ∧ Bare w' pdt c ∧ e.count = q.count ∧ r.2 = [e])
  := by
  rw [processCopyPaddrList_cons]
  refine After.bind (copyFrames_bare env h hn) ?_
  rintro p h₁ ⟨hres₁, hcopy⟩
  refine After.ite (fun _ => After.pure ⟨hres₁, by simp⟩) ?_
  intro hp
  obtain ⟨w₁, rfl, hbare₁⟩ := hcopy hp
  refine After.bind (kmalloc_spec w₁ env _) ?_
  rintro pe - ⟨w₂, rfl, hkeeps₂, -⟩
  have hbare₂ := hbare₁.keeps hkeeps₂ (by simp) (by simp)
  refine After.ite (fun _ => ?_) ?_
  · refine After.bind (pfaFreeCont_resolve p q.count pdt w₂.heap) ?_
    intro _ h₃ hres
    exact After.pure ⟨hres.trans hbare₂.pdt, by simp⟩
  intro hpe
  refine After.bind hbare₂.mapMemory_spec ?_
  rintro r - ⟨w₃, rfl, -, hbare₃⟩
  refine After.ite (fun _ => ?_) ?_
  · -- the element and its frames are freed, and stay in the list
    refine After.bind (kfree_resolve env pe pdt w₃.heap) ?_
    intro _ h₄ hres₄
    refine After.bind (pfaFreeCont_resolve p q.count pdt h₄) ?_
    intro _ h₅ hres₅
    exact After.pure ⟨(hres₅.trans hres₄).trans hbare₃.pdt, by simp⟩
  intro hle
  exact After.pure ⟨hbare₃.pdt, fun _ => ⟨w₃, ⟨pe, p, q.count⟩, rfl, hbare₃, rfl, rfl⟩⟩

end Process
