import Aenix.Process.Isolation

/-!
# Fork

When `process_clone` returns a process, it has copied the image of the parent, and nothing of the parent has
changed (`fork_copies_image`).
-/

open Aenix
open Paging hiding Call exec Step

namespace Process

variable {w w' : World} {c d p v : UInt32}

/-- What `fork` is to do: the child has an image with the contents of the parent's and frames of its own, the same
registers and files; and the memory of the parent is what it was. -/
structure Forked (w w' : World) (parent child : Ps) : Prop where
  stays : IsProcess w' parent
  made : IsProcess w' child
  codeStart : child.codeStartVaddr = parent.codeStartVaddr
  stackStart : child.stackStartVaddr = parent.stackStartVaddr
  code : List.Forall₂ (Copy w.state w'.state) parent.codePaddrs child.codePaddrs
  stack : List.Forall₂ (Copy w.state w'.state) parent.stackPaddrs child.stackPaddrs
  disjoint : Disjoint child.frames parent.frames
  registers : child.userMode = parent.userMode
  files : child.fileDescriptors.map (Option.map Fd.vnode) = parent.fileDescriptors.map (Option.map Fd.vnode)
  cr3 : w'.state.cr3 = w.state.cr3
  pages : ∀ v < kernelStartVaddr, w'.state.page parent.pdtPaddr v = w.state.page parent.pdtPaddr v
  memory : ∀ v < kernelStartVaddr, ∀ e, w.state.page parent.pdtPaddr v = some e →
    w'.state.mem e.paddr = w.state.mem e.paddr

/-- When `process_clone` returns a process to one that runs in its own directory, it has forked. -/
theorem fork_copies_image (env : Env) {parent child : Ps} (hparent : IsProcess w parent)
    (hcr3 : w.state.cr3 = parent.pdtPaddr) {id : UInt32} {h' : Kmalloc.Heap State}
    (hrun : processClone env parent id w.heap = some (some child, h')) :
  ∃ w', w'.heap = h' ∧ Forked w w' parent child
  := by
  suffices hafter : After (processClone env parent id) w.heap fun r h' => ∀ child, r = some child →
      ∃ w', w'.heap = h' ∧ Forked w w' parent child from hafter _ _ hrun child rfl
  unfold processClone
  refine After.bind (kmalloc_spec w env psSize) ?_
  rintro addr - ⟨w₁, rfl, hkeeps₁, -⟩
  refine After.ite (fun _ => After.pure (by simp)) ?_
  intro haddr
  refine After.bind (processLoadPdt_spec w₁ _) ?_
  intro r h₂ hload
  cases r with
  | none => exact After.next fun _ _ => After.pure (by simp)
  | some ps₂ =>
  obtain ⟨w₂, pdt, c, rfl, hkeeps₂, hfresh, hchild₂, hres₂, -, -, rfl⟩ := hload _ rfl
  have hne : parent.pdtPaddr ≠ c := by
    rintro rfl
    rw [hkeeps₁.label _ _ hparent.own (by simp)] at hfresh
    simp at hfresh
  have hkeeps : Keeps (childTags c) {.kernelTable} w w₂ :=
    (hkeeps₁.mono (by simp [childTags, Set.subset_def]) (by simp)).trans
      (hkeeps₂.mono (by simp [childTags, Set.subset_def]) (by simp)) (by simp)
  have hrunning : Running w c parent.pdtPaddr := ⟨hcr3, hparent.own, hne⟩
  have hrunning₂ := hrunning.keeps hkeeps
  have hsame₂ := hrunning.same (s := w.state) hkeeps fun _ _ => rfl
  refine After.bind (processCopyPaddrList_spec env hchild₂ hrunning₂ hres₂ hsame₂
    (hrunning.image hkeeps hparent.code) []) ?_
  rintro ⟨ok, code⟩ h₃ hcode
  dsimp only
  split
  case isTrue => exact After.next fun _ _ => After.pure (by simp)
  case isFalse hok =>
  obtain ⟨w₃, qs, rfl, hgrows₃, rfl, hcode₃, hcopies₃⟩ := hcode (by simpa using hok)
  have hkeeps₃ := hkeeps.trans hgrows₃.keeps (by simp)
  refine After.bind (processCopyPaddrList_spec env hgrows₃.child (hrunning.keeps hkeeps₃)
    (hgrows₃.keeps.resolve hres₂ hchild₂.own trivial (by simp)) (hrunning.same hkeeps₃ fun _ _ => rfl)
    (hrunning.image hkeeps₃ hparent.stack) []) ?_
  rintro ⟨ok', stack⟩ h₄ hstack
  dsimp only
  split
  case isTrue => exact After.next fun _ _ => After.pure (by simp)
  case isFalse hok' =>
  obtain ⟨w₄, rs, rfl, hgrows₄, rfl, hstack₄, hcopies₄⟩ := hstack (by simpa using hok')
  refine After.bind (processLoadKernelStack_spec env hgrows₄.child _) ?_
  intro r h₅ hload
  cases r with
  | none => exact After.next fun _ _ => After.pure (by simp)
  | some ps₅ =>
  obtain ⟨w₅, e, v, rfl, hgrows₅, hkernelStack, rfl⟩ := hload _ rfl
  refine After.bind (processCopyFileDescriptors_spec w₅ env _) ?_
  rintro r - ⟨w₆, rfl, hkeeps₆, hcopy⟩
  cases r with
  | none => exact After.next fun _ _ => After.pure (by simp)
  | some fds =>
  have hgrows₆ : Grows c w₅ w₆ := hgrows₅.child.steady hkeeps₆ (by simp) (by simp)
  have hfds := hcopy fds rfl
  refine After.pure fun child hchild => ⟨w₆, rfl, ?_⟩
  obtain rfl := Option.some.inj hchild
  -- what has been built of the child is still there
  have hrest₄ := hgrows₅.trans hgrows₆
  have hrest₃ := hgrows₄.trans hrest₄
  have hall := hkeeps₃.trans hrest₃.keeps (by simp)
  have hold := hparent.keeps hall hrunning
  have hnew : IsProcess w₆ { processInit addr id with
      parentId := parent.id, userMode := parent.userMode, pdt := pdt, pdtPaddr := c,
      codeStartVaddr := parent.codeStartVaddr, codePaddrs := code, stackStartVaddr := parent.stackStartVaddr,
      stackPaddrs := stack, kernelStackPaddrs := [e], kernelStackStartVaddr := v, fileDescriptors := fds } := by
    constructor
    · exact hrest₃.child.own
    · exact (hgrows₃.trans hrest₃).keeps.resolve hres₂ hchild₂.own trivial (by simp)
    · exact hcode₃.grows hrest₃
    · exact hstack₄.grows hrest₄
    · simp only [List.mem_singleton, forall_eq]
      exact fun k hk => hgrows₆.keeps.label _ _ (hkernelStack k hk) (by simp)
  refine ⟨hold, hnew, rfl, rfl, ?_, ?_, hnew.disjoint hold hne.symm, rfl, hfds, hall.vars.cr3, ?_, ?_⟩
  · exact copies_grow hcopies₃ hrest₃ (hcode₃.label hgrows₃.child.own)
  · exact copies_grow hcopies₄ hrest₄ (hstack₄.label hgrows₄.child.own)
  · exact fun u hu => hrunning.page hall hu
  · exact fun u hu e he => hrunning.mem hall ((w.labelled.dirs _ hparent.own).page u hu e he)

/-- The first process, with two pages of code and one of stack, forks. -/
theorem fork_copies_image_boot :
  processClone Boot.files Boot.init 2 (Boot.heapOn Boot.taken₄ Boot.running) =
      some (some Boot.clone, Boot.twins.heap) ∧
    ∃ w w' : World, w.heap = Boot.heapOn Boot.taken₄ Boot.running ∧ w'.heap = Boot.twins.heap ∧
      Forked w w' Boot.init Boot.clone
  := by
  obtain ⟨w, hw, hinv⟩ := Boot.sound_running
  have hrun := Boot.run_clone
  have hparent := hinv.whole Boot.init (List.mem_singleton_self _)
  have hcr3 : w.state.cr3 = Boot.init.pdtPaddr := by
    rw [World.state, hw]
    rfl
  rw [show Boot.heapOn Boot.taken₄ Boot.running = w.heap from hw.symm] at hrun ⊢
  obtain ⟨w', hw', hforked⟩ := fork_copies_image Boot.files hparent.toIsProcess hcr3 hrun
  exact ⟨hrun, w, w', rfl, hw', hforked⟩

end Process
