import Aenix.Process.Copy
import Mathlib.Order.CompletePartialOrder

/-!
# The parts of a clone

`process_clone` gives the child a directory without entries, a stack of its own in the kernel and copies of the vnodes.
A process that is not the child stays what it is (`IsProcess.keeps`).
-/

open Aenix
open Paging hiding Call exec Step

namespace Process

variable {w w' : World} {c d p v : UInt32}

/-! ### The rest of the child -/

/-- `process_load_pdt` gives the child a directory without entries. -/
theorem processLoadPdt_new (w : World) (ps : Ps) :
  After (processLoadPdt ps) w.heap fun r h' => ∀ ps', r = some ps' →
    ∃ w' pdt c, w'.heap = h' ∧ Keeps {.pdt c, .kernelTable} ∅ w w' ∧ w.own c = none ∧ Child w' c ∧
      (∀ i, ¬ w'.state.has c i) ∧ pdt ≠ 0 ∧ w'.state.resolve pdt = some c ∧ ¬ IsTmp pdt ∧
      (∀ i, kernelPdtIdx ≤ i → i ≤ virtualToPdtIdx pdt → w'.state.has w'.state.kernelPdt i) ∧
      ps' = { ps with pdt := pdt, pdtPaddr := c }
  := by
  unfold processLoadPdt
  refine After.bind (pdtCreate_new w) ?_
  rintro ⟨pdt, c⟩ h' hcreate
  refine After.ite (fun _ => After.pure (by simp)) ?_
  intro hne
  rw [not_or] at hne
  obtain ⟨w', rfl, hkeeps, hfresh, hchild, hempty, hres, htmp, hslots⟩ := hcreate hne.1 hne.2
  refine After.pure fun ps' hps' => ⟨w', pdt, c, rfl, hkeeps, hfresh, hchild, hempty, hne.1, hres, htmp, hslots, ?_⟩
  exact (Option.some.inj hps').symm

theorem processLoadPdt_spec (w : World) (ps : Ps) :
  After (processLoadPdt ps) w.heap fun r h' => ∀ ps', r = some ps' →
    ∃ w' pdt c, w'.heap = h' ∧ Keeps {.pdt c, .kernelTable} ∅ w w' ∧ w.own c = none ∧ Child w' c ∧
      w'.state.resolve pdt = some c ∧ ¬ IsTmp pdt ∧
      (∀ i, kernelPdtIdx ≤ i → i ≤ virtualToPdtIdx pdt → w'.state.has w'.state.kernelPdt i) ∧
      ps' = { ps with pdt := pdt, pdtPaddr := c }
  := by
  refine After.mono (processLoadPdt_new w ps) ?_
  intro r h' hload ps' hps'
  obtain ⟨w', pdt, c, rfl, hkeeps, hfresh, hchild, -, -, hrest⟩ := hload ps' hps'
  exact ⟨w', pdt, c, rfl, hkeeps, hfresh, hchild, hrest⟩

/-- `process_load_kernel_stack` gives the child a stack of its own in the kernel. -/
theorem processLoadKernelStack_spec (env : Env) (h : Child w c) (ps : Ps) :
  After (processLoadKernelStack env ps) w.heap fun r h' => ∀ ps', r = some ps' →
    ∃ w' e v, w'.heap = h' ∧ Grows c w w' ∧
      (∀ k < e.count.toNat, w'.own (nthPage e.paddr k) = some (.kernelStack c)) ∧
      ps' = { ps with kernelStackPaddrs := [e], kernelStackStartVaddr := v }
  := by
  unfold processLoadKernelStack
  refine After.bind (pfaAllocate_spec w _ (.kernelStack c) (by simp)) ?_
  rintro p - ⟨w₁, rfl, hkeeps₁, halloc⟩
  refine After.ite (fun _ => After.pure (by simp)) ?_
  intro hp
  obtain ⟨-, hrun, -, -, hown₁⟩ := halloc.resolve_left fun h => hp h.1
  have hgrows₁ : Grows c w w₁ := h.steady hkeeps₁ (by simp) (by simp)
  refine After.bind (findNextVaddr_spec w₁ _) ?_
  rintro v - ⟨w₂, rfl, -, rfl, -⟩
  refine After.ite (fun _ => After.pure (by simp)) ?_
  intro hv
  refine After.bind (mapKernelMemory_spec w₂ p v _) ?_
  rintro r - ⟨w₃, rfl, hkeeps₃, -⟩
  have hgrows₃ : Grows c w₂ w₃ := hgrows₁.child.steady hkeeps₃ (by simp) (by simp)
  refine After.ite (fun _ => After.pure (by simp)) ?_
  intro hr
  refine After.bind (kmalloc_grows hgrows₃.child env _) ?_
  rintro pe - ⟨w₄, rfl, hgrows₄⟩
  refine After.ite (fun _ => After.pure (by simp)) ?_
  intro hpe
  refine After.pure fun ps' hps' => ⟨w₄, ⟨pe, p, divCeil kernelStackSize fourKb⟩, _, rfl,
    hgrows₁.trans (hgrows₃.trans hgrows₄), ?_, (Option.some.inj hps').symm⟩
  intro k hk
  exact (hgrows₃.trans hgrows₄).keeps.label _ _ ((hown₁ _).mpr (Or.inr (nthPage_mem hk))) (by simp)

/-- `process_copy_file_descriptors` copies the vnodes. -/
theorem processCopyFileDescriptors_spec (w : World) (env : Env) (fds : List (Option Fd)) :
  Spec {.heap, .kernelTable} ∅ (processCopyFileDescriptors env fds) w fun r _ => ∀ fds', r = some fds' →
    fds'.map (Option.map Fd.vnode) = fds.map (Option.map Fd.vnode)
  := by
  induction fds generalizing w with
  | nil =>
      apply Spec.pure
      intro fds' hfds'
      rw [← Option.some.inj hfds']
  | cons fd fds ih =>
      cases fd with
      | none =>
          refine Spec.bind (ih w) subset_rfl subset_rfl (by simp) ?_
          intro copies w₁ _ hcopies
          apply Spec.pure
          intro fds' hfds'
          obtain ⟨fds₁, rfl, rfl⟩ := Option.map_eq_some_iff.mp hfds'
          simp [hcopies fds₁ rfl]
      | some fd =>
          refine Spec.bind (kmalloc_spec w env _) subset_rfl subset_rfl (by simp) ?_
          intro copy w₁ _ _
          refine Spec.ite (fun _ => Spec.pure (by simp)) ?_
          intro hcopy
          refine Spec.bind (ih w₁) subset_rfl subset_rfl (by simp) ?_
          intro copies w₂ _ hcopies
          apply Spec.pure
          intro fds' hfds'
          obtain ⟨fds₁, rfl, rfl⟩ := Option.map_eq_some_iff.mp hfds'
          simp [hcopies fds₁ rfl]

/-! ### Fork -/

/-- The frames of a process: its directory and those of its lists. -/
def Ps.frames (ps : Ps) : Set UInt32 :=
  {f | f = ps.pdtPaddr ∨ ∃ e ∈ ps.codePaddrs ++ ps.stackPaddrs ++ ps.kernelStackPaddrs, f ∈ framesFrom e.paddr e.count}

/-- A process in a world: its directory is mapped in the kernel and maps the frames of its lists, which are its
own. -/
structure IsProcess (w : World) (ps : Ps) : Prop where
  own : w.own ps.pdtPaddr = some (.pdt ps.pdtPaddr)
  pdt : w.state.resolve ps.pdt = some ps.pdtPaddr
  code : Image w.state ps.pdtPaddr ps.codeStartVaddr ps.codePaddrs
  stack : Image w.state ps.pdtPaddr ps.stackStartVaddr ps.stackPaddrs
  kernelStack : ∀ e ∈ ps.kernelStackPaddrs, ∀ k < e.count.toNat,
    w.own (nthPage e.paddr k) = some (.kernelStack ps.pdtPaddr)

/-- The frames of a process have its labels. -/
theorem IsProcess.label {ps : Ps} (h : IsProcess w ps) {f : UInt32} (hf : f ∈ ps.frames) :
  w.own f = some (.pdt ps.pdtPaddr) ∨ w.own f = some (.user ps.pdtPaddr) ∨
    w.own f = some (.kernelStack ps.pdtPaddr)
  := by
  rcases hf with rfl | ⟨e, he, k, hk, rfl⟩
  · exact Or.inl h.own
  · rcases List.mem_append.mp he with he | he
    · rcases List.mem_append.mp he with he | he
      · exact Or.inr (Or.inl (h.code.label h.own e he k hk))
      · exact Or.inr (Or.inl (h.stack.label h.own e he k hk))
    · exact Or.inr (Or.inr (h.kernelStack e he k hk))

/-- Processes with different directories have no frame in common. -/
theorem IsProcess.disjoint {ps ps' : Ps} (h : IsProcess w ps) (h' : IsProcess w ps')
    (hne : ps.pdtPaddr ≠ ps'.pdtPaddr) :
  Disjoint ps.frames ps'.frames
  := by
  rw [Set.disjoint_left]
  intro f hf hf'
  rcases h.label hf with hl | hl | hl
  all_goals
    rcases h'.label hf' with hl' | hl' | hl'
    all_goals
      rw [hl] at hl'
      simp [hne] at hl'

/-- A process other than the child stays what it is. -/
theorem IsProcess.keeps {ps : Ps} (h : IsProcess w ps) (hkeeps : Keeps (childTags c) {.kernelTable} w w')
    (hrunning : Running w c ps.pdtPaddr) :
  IsProcess w' ps
  := by
  constructor
  · exact hkeeps.label _ _ h.own (by simp)
  · exact hkeeps.resolve h.pdt h.own trivial (by simp)
  · exact hrunning.image hkeeps h.code
  · exact hrunning.image hkeeps h.stack
  · exact fun e he k hk => hkeeps.label _ _ (h.kernelStack e he k hk) (by simp)

end Process
