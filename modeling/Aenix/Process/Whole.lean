import Aenix.Process.Load

/-!
# Whole processes

A process that `process_create` or `process_clone` returns has frames of its own, and its directory maps those of its
lists and nothing else (`Whole`).  It stays so whatever happens to frames with other labels (`Whole.keeps`).
-/

open Aenix
open Paging hiding Call exec Step

namespace Process

variable {w w' w'' : World} {new gone : Set Tag} {ps ps' : Ps}

/-- The elements for the code and for the stack. -/
def Ps.image (ps : Ps) : List PaddrEle :=
  ps.codePaddrs ++ ps.stackPaddrs

/-- A process whose directory maps the frames of its lists and no others below the kernel; no frame is listed twice. -/
structure Whole (w : World) (ps : Ps) : Prop extends IsProcess w ps where
  pdt_ne : ps.pdt ≠ 0
  pdt_tmp : ¬ IsTmp ps.pdt
  only : ∀ v < kernelStartVaddr, ∀ e, w.state.page ps.pdtPaddr v = some e → ∃ q ∈ ps.image, e.paddr ∈ q.frames
  access : Open w.state ps.pdtPaddr
  alone : Alone w.state ps.pdtPaddr
  runs : ∀ q ∈ ps.image, Run q.paddr q.count
  apart : ps.image.Pairwise fun q q' => Disjoint q.frames q'.frames
  top : ∃ a p, ps.kernelStackPaddrs = [⟨a, p, 1⟩] ∧ Run p 1 ∧ w.state.resolve ps.kernelStackStartVaddr = some p
  top_ne : ps.kernelStackStartVaddr ≠ 0
  top_tmp : ¬ IsTmp ps.kernelStackStartVaddr

namespace Whole

/-- The frames of the lists have the label of the process. -/
theorem image_label (h : Whole w ps) :
  ∀ q ∈ ps.image, ∀ f ∈ q.frames, w.own f = some (.user ps.pdtPaddr)
  := by
  intro q hq f hf
  obtain ⟨k, hk, rfl⟩ := hf
  rcases List.mem_append.mp hq with hq | hq
  · exact h.code.label h.own q hq k hk
  · exact h.stack.label h.own q hq k hk

theorem top_label (h : Whole w ps) {a p : UInt32} (hlist : ps.kernelStackPaddrs = [⟨a, p, 1⟩]) :
  w.own p = some (.kernelStack ps.pdtPaddr)
  := by
  have hfirst := h.kernelStack ⟨a, p, 1⟩ (by simp [hlist]) 0 (show 0 < (1 : UInt32).toNat by decide)
  rwa [nthPage_zero] at hfirst

/-- What is mapped below the kernel has the label of the process. -/
theorem user_label (h : Whole w ps) {v : UInt32} (hv : v < kernelStartVaddr) {e : Entry}
    (he : w.state.page ps.pdtPaddr v = some e) :
  w.own e.paddr = some (.user ps.pdtPaddr)
  := (w.labelled.dirs _ h.own).page v hv e he

/-- A process stays whole as long as its pages, its labels and what the kernel has mapped of it stay. -/
theorem congr (h : Whole w ps)
    (hown : ∀ f t, t = .pdt ps.pdtPaddr ∨ t = .kernelStack ps.pdtPaddr → w.own f = some t → w'.own f = some t)
    (hres : ∀ v f t, t = .pdt ps.pdtPaddr ∨ t = .kernelStack ps.pdtPaddr → w.own f = some t →
      w.state.resolve v = some f → w'.state.resolve v = some f)
    (hslot : ∀ i < kernelPdtIdx, w'.state.mem ps.pdtPaddr i = w.state.mem ps.pdtPaddr i)
    (hpage : ∀ u < kernelStartVaddr, w'.state.page ps.pdtPaddr u = w.state.page ps.pdtPaddr u) :
  Whole w' ps
  := by
  have himage : ∀ u < kernelStartVaddr, ∀ e, w.state.page ps.pdtPaddr u = some e →
      w'.state.page ps.pdtPaddr u = some e :=
    fun u hu e he => (hpage u hu).trans he
  obtain ⟨a, p, hlist, hrun, htop⟩ := h.top
  refine ⟨⟨hown _ _ (Or.inl rfl) h.own, hres _ _ _ (Or.inl rfl) h.own h.pdt, h.code.congr himage, h.stack.congr himage,
    fun e he k hk => hown _ _ (Or.inr rfl) (h.kernelStack e he k hk)⟩, h.pdt_ne, h.pdt_tmp, ?_,
    h.access.congr hslot hpage, h.alone.congr hpage,
    h.runs, h.apart, ⟨a, p, hlist, hrun, hres _ _ _ (Or.inr rfl) (h.top_label hlist) htop⟩, h.top_ne, h.top_tmp⟩
  intro v hv e he
  rw [hpage v hv] at he
  exact h.only v hv e he

/-- A process stays whole when its directory and page tables are not written to and its labels stay. -/
theorem keeps (h : Whole w ps) (hkeeps : Keeps new gone w w')
    (hpdt : .pdt ps.pdtPaddr ∉ new ∧ .pdt ps.pdtPaddr ∉ gone)
    (htable : .table ps.pdtPaddr ∉ new ∧ .table ps.pdtPaddr ∉ gone) (hstack : .kernelStack ps.pdtPaddr ∉ gone) :
  Whole w' ps
  := by
  refine h.congr ?_ ?_ ?_ fun u hu => hkeeps.user_page h.own hu hpdt htable
  · rintro f t (rfl | rfl) hf
    · exact hkeeps.label f _ hf hpdt.2
    · exact hkeeps.label f _ hf hstack
  · rintro v f t (rfl | rfl) hf hv
    · exact hkeeps.resolve hv hf trivial hpdt.2
    · exact hkeeps.resolve hv hf trivial hstack
  · intro i _
    rw [hkeeps.contents _ _ h.own hpdt.1 hpdt.2]

end Whole

/-! ### Creating and cloning -/

/-- What a process with a directory is given until it is complete. -/
structure Filled (w w' : World) (ps ps' : Ps) : Prop where
  pdt : ps'.pdt = ps.pdt
  paddr : ps'.pdtPaddr = ps.pdtPaddr
  adds : Adds ps.pdtPaddr ps'.image w w'
  code : Image w'.state ps.pdtPaddr ps'.codeStartVaddr ps'.codePaddrs
  stack : Image w'.state ps.pdtPaddr ps'.stackStartVaddr ps'.stackPaddrs
  top : ∃ a p, ps'.kernelStackPaddrs = [⟨a, p, 1⟩] ∧ Run p 1 ∧ w'.own p = some (.kernelStack ps.pdtPaddr) ∧
    w'.state.resolve ps'.kernelStackStartVaddr = some p
  top_ne : ps'.kernelStackStartVaddr ≠ 0
  top_tmp : ¬ IsTmp ps'.kernelStackStartVaddr

/-- A process that was not there has been made, of new frames, and nothing else has changed. -/
structure Made (w w' : World) (ps : Ps) : Prop where
  fresh : w.own ps.pdtPaddr = none
  keeps : Keeps (childTags ps.pdtPaddr) {.kernelTable} w w'
  whole : Whole w' ps

/-- A process that had no pages is whole when it has been filled. -/
theorem Filled.whole (h : Filled w w' ps ps') (hempty : ∀ i, ¬ w.state.has ps.pdtPaddr i) (hne : ps.pdt ≠ 0)
    (htmp : ¬ IsTmp ps.pdt) (hown : w.own ps.pdtPaddr = some (.pdt ps.pdtPaddr))
    (hres : w.state.resolve ps.pdt = some ps.pdtPaddr) :
  Whole w' ps'
  := by
  obtain ⟨a, p, hlist, hrun, hstack, htop⟩ := h.top
  have hnone : ∀ v, w.state.page ps.pdtPaddr v = none := fun v => State.page_of_not_has (hempty _)
  have hopen : Open w.state ps.pdtPaddr := ⟨fun i _ hhas => absurd hhas (hempty i), by simp [hnone]⟩
  have halone : Alone w.state ps.pdtPaddr := by simp [Alone, hnone]
  refine ⟨⟨?_, ?_, ?_, ?_, ?_⟩, ?_, ?_, ?_, ?_, ?_, h.adds.runs,
    h.adds.apart.imp fun hne => Set.disjoint_left.mpr fun f => hne f, ⟨a, p, hlist, hrun, htop⟩,
    h.top_ne, h.top_tmp⟩
  · rw [h.paddr]
    exact h.adds.child.own
  · rw [h.paddr, h.pdt]
    exact h.adds.keeps.resolve hres hown trivial (by simp)
  · rw [h.paddr]
    exact h.code
  · rw [h.paddr]
    exact h.stack
  · rw [hlist, h.paddr]
    simp only [List.mem_singleton, forall_eq]
    intro k hk
    obtain rfl : k = 0 := by
      rw [UInt32.toNat_one] at hk
      omega
    rwa [nthPage_zero]
  · rwa [h.pdt]
  · rwa [h.pdt]
  · intro v _ e he
    rw [h.paddr] at he
    refine (h.adds.only v e he).resolve_left ?_
    rw [hnone]
    simp
  · rw [h.paddr]
    exact h.adds.opens hopen
  · rw [h.paddr]
    exact h.adds.alone halone

/-- `process_create` and `process_clone`, given what they do after the directory. -/
theorem start_made (w : World) (env : Env) {init : UInt32 → Ps} {rest : Ps → Kern (Option Ps)} {R : World → Ps → Prop}
    (hrest : ∀ w₂ ps₂, (∃ addr pdt c, ps₂ = { init addr with pdt := pdt, pdtPaddr := c }) →
      Keeps (childTags ps₂.pdtPaddr) {.kernelTable} w w₂ → w.own ps₂.pdtPaddr = none →
      Child w₂ ps₂.pdtPaddr → w₂.state.resolve ps₂.pdt = some ps₂.pdtPaddr →
      After (rest ps₂) w₂.heap fun r h' => ∀ ps, r = some ps → ∃ w', w'.heap = h' ∧ Filled w₂ w' ps₂ ps ∧ R w' ps) :
  After (start env init rest) w.heap fun r h' => ∀ ps, r = some ps → ∃ w', w'.heap = h' ∧ Made w w' ps ∧ R w' ps
  := by
  unfold start
  refine After.bind (kmalloc_spec w env psSize) ?_
  rintro addr - ⟨w₁, rfl, hkeeps₁, -⟩
  refine After.ite (fun _ => After.pure (by simp)) ?_
  intro haddr
  refine After.bind (processLoadPdt_new w₁ (init addr)) ?_
  intro r h₂ hload
  cases r with
  | none => exact After.next fun _ _ => After.pure (by simp)
  | some ps₂ =>
  obtain ⟨w₂, pdt, c, rfl, hkeeps₂, hfresh₁, hchild, hempty, hne, hres, htmp, -, rfl⟩ := hload _ rfl
  have hfresh : w.own c = none := by
    by_contra hsome
    obtain ⟨t, ht⟩ := Option.ne_none_iff_exists'.mp hsome
    rw [hkeeps₁.label c t ht (by simp)] at hfresh₁
    simp at hfresh₁
  have hkeeps : Keeps (childTags c) {.kernelTable} w w₂ :=
    (hkeeps₁.mono (by simp [childTags, Set.subset_def]) (by simp)).trans
      (hkeeps₂.mono (by simp [childTags, Set.subset_def]) (by simp)) (by simp)
  refine After.mono (hrest w₂ _ ⟨addr, pdt, c, rfl⟩ hkeeps hfresh hchild hres) ?_
  intro r h' hfilled ps hps
  obtain ⟨w', rfl, hfill, hr⟩ := hfilled ps hps
  refine ⟨w', rfl, ⟨?_, ?_, hfill.whole hempty hne htmp hchild.own hres⟩, hr⟩
  · rw [hfill.paddr]
    exact hfresh
  · rw [hfill.paddr]
    exact hkeeps.trans hfill.adds.keeps (by simp)

/-- The code of the process is the file at `path`, from address 0 on, and its stack is one page; it begins with the
first byte of the file. -/
structure Loads (vfs : Vfs) (path : List UInt8) (s : State) (ps : Ps) : Prop where
  code : ∃ e, ps.codePaddrs = [e] ∧ Holds vfs path s e
  codeStart : ps.codeStartVaddr = 0
  stack : ∃ e, ps.stackPaddrs = [e] ∧ e.count = 1
  stackStart : ps.stackStartVaddr = procInitialStackVaddr
  current : ps.current = ps.userMode
  userMode : ∃ addr id, ps.userMode = { (processInit addr id).userMode with eip := 0, esp := procInitialEsp }

/-- `process_create` after the directory. -/
theorem loadImage_filled (env : Env) (hsmall : Small env.vfs) (path : List UInt8) (h : Child w ps.pdtPaddr)
    (hpdt : w.state.resolve ps.pdt = some ps.pdtPaddr)
    (hinit : ∃ addr id, ps.userMode = (processInit addr id).userMode) :
  After (loadImage env path ps) w.heap fun r h' => ∀ ps', r = some ps' → ∃ w', w'.heap = h' ∧ Filled w w' ps ps' ∧
    Loads env.vfs path w'.state ps'
  := by
  unfold loadImage
  refine After.bind (processLoadCode_adds env h hpdt hsmall path) ?_
  intro r h₁ hload
  cases r with
  | none => exact After.next fun _ _ => After.pure (by simp)
  | some ps₁ =>
  obtain ⟨w₁, e, rfl, hadds₁, hcode, hholds, rfl⟩ := hload _ rfl
  refine After.bind (processLoadStack_adds env (c := ps.pdtPaddr) hadds₁.child ?_) ?_
  · exact hadds₁.keeps.resolve hpdt h.own trivial (by simp)
  intro r h₂ hload
  cases r with
  | none => exact After.next fun _ _ => After.pure (by simp)
  | some ps₂ =>
  obtain ⟨w₂, e', rfl, hadds₂, hstack, hone, rfl⟩ := hload _ rfl
  refine After.bind (processLoadKernelStack_adds env hadds₂.child _) ?_
  intro r h₃ hload
  cases r with
  | none => exact After.next fun _ _ => After.pure (by simp)
  | some ps₃ =>
  obtain ⟨w₃, a, p, v, rfl, hadds₃, hrun, hown, hres, hne, htmp, rfl⟩ := hload _ rfl
  have hrest := (hadds₂.trans hadds₃).toGrows
  refine After.pure fun ps' hps' => ?_
  obtain rfl := Option.some.inj hps'
  refine ⟨w₃, rfl, ⟨rfl, rfl, hadds₁.trans (hadds₂.trans hadds₃), hcode.grows hrest, hstack.grows hadds₃.toGrows,
    ⟨a, p, rfl, hrun, hown, hres⟩, hne, htmp⟩, ⟨e, rfl, hholds.grows ?_ hrest⟩, rfl, ⟨e', rfl, hone⟩, rfl, rfl, ?_⟩
  · exact hadds₁.own e (List.mem_singleton_self e)
  · obtain ⟨addr, id, hmode⟩ := hinit
    exact ⟨addr, id, by simp only [hmode]⟩

/-- `process_clone` of the process that runs, after the directory. -/
theorem cloneImage_filled (env : Env) {parent : Ps} (hparent : IsProcess w parent)
    (hrunning : Running w ps.pdtPaddr parent.pdtPaddr) (h : Child w ps.pdtPaddr)
    (hpdt : w.state.resolve ps.pdt = some ps.pdtPaddr) :
  After (cloneImage env parent ps) w.heap fun r h' => ∀ ps', r = some ps' → ∃ w', w'.heap = h' ∧ Filled w w' ps ps'
  := by
  unfold cloneImage
  refine After.bind (processCopyPaddrList_adds env h hrunning hpdt (s := w.state) (fun _ _ => rfl) hparent.code []) ?_
  rintro ⟨ok, code⟩ h₁ hcode
  dsimp only
  split
  case isTrue => exact After.next fun _ _ => After.pure (by simp)
  case isFalse hok =>
  obtain ⟨w₁, qs, rfl, hadds₁, rfl, hcode₁, -⟩ := hcode (by simpa using hok)
  refine After.bind (processCopyPaddrList_adds env hadds₁.child (hrunning.keeps hadds₁.keeps)
    (hadds₁.keeps.resolve hpdt h.own trivial (by simp)) (hrunning.same hadds₁.keeps fun _ _ => rfl)
    (hrunning.image hadds₁.keeps hparent.stack) []) ?_
  rintro ⟨ok', stack⟩ h₂ hstack
  dsimp only
  split
  case isTrue => exact After.next fun _ _ => After.pure (by simp)
  case isFalse hok' =>
  obtain ⟨w₂, rs, rfl, hadds₂, rfl, hstack₂, -⟩ := hstack (by simpa using hok')
  refine After.bind (processLoadKernelStack_adds env hadds₂.child _) ?_
  intro r h₃ hload
  cases r with
  | none => exact After.next fun _ _ => After.pure (by simp)
  | some ps₃ =>
  obtain ⟨w₃, a, p, v, rfl, hadds₃, hrun, hown, hres, hne, htmp, rfl⟩ := hload _ rfl
  refine After.bind (processCopyFileDescriptors_spec w₃ env _) ?_
  rintro r - ⟨w₄, rfl, hkeeps₄, -⟩
  cases r with
  | none => exact After.next fun _ _ => After.pure (by simp)
  | some fds =>
  have hadds₄ : Adds ps.pdtPaddr [] w₃ w₄ := hadds₃.child.adds_heap hkeeps₄
  have hrest : Adds ps.pdtPaddr stack w₁ w₄ := by
    simpa using hadds₂.trans (hadds₃.trans hadds₄)
  refine After.pure fun ps' hps' => ?_
  obtain rfl := Option.some.inj hps'
  refine ⟨w₄, rfl, rfl, rfl, ?_, hcode₁.grows hrest.toGrows, hstack₂.grows (hadds₃.trans hadds₄).toGrows,
    ⟨a, p, rfl, hrun, hadds₄.keeps.label _ _ hown (by simp), hadds₄.keeps.resolve hres hown trivial (by simp)⟩,
    hne, htmp⟩
  exact hadds₁.trans hrest

/-- `process_create` makes a whole process, with the contents of the file. -/
theorem processCreate_made (w : World) (env : Env) (hsmall : Small env.vfs) (path : List UInt8) (id : UInt32) :
  After (processCreate env path id) w.heap fun r h' => ∀ ps, r = some ps → ∃ w', w'.heap = h' ∧ Made w w' ps ∧
    Loads env.vfs path w'.state ps
  := by
  rw [processCreate_eq]
  refine start_made w env fun w₂ ps₂ hinit _ _ hchild hres => loadImage_filled env hsmall path hchild hres ?_
  obtain ⟨addr, pdt, c, rfl⟩ := hinit
  exact ⟨addr, id, rfl⟩

/-- `process_clone` of the process that runs makes a whole process. -/
theorem processClone_made (env : Env) {parent : Ps} (hparent : IsProcess w parent)
    (hcr3 : w.state.cr3 = parent.pdtPaddr) (id : UInt32) :
  After (processClone env parent id) w.heap fun r h' => ∀ ps, r = some ps → ∃ w', w'.heap = h' ∧ Made w w' ps
  := by
  rw [processClone_eq]
  refine After.mono (start_made w env (R := fun _ _ => True) ?_) ?_
  · intro w₂ ps₂ _ hkeeps hfresh hchild hres
    have hne : parent.pdtPaddr ≠ ps₂.pdtPaddr := by
      intro heq
      rw [← heq, hparent.own] at hfresh
      simp at hfresh
    have hrunning : Running w ps₂.pdtPaddr parent.pdtPaddr := ⟨hcr3, hparent.own, hne⟩
    refine After.mono (cloneImage_filled env (hparent.keeps hkeeps hrunning) (hrunning.keeps hkeeps) hchild hres) ?_
    intro r h' hfilled ps hps
    obtain ⟨w', rfl, hfill⟩ := hfilled ps hps
    exact ⟨w', rfl, hfill, trivial⟩
  · intro r h' hmade ps hps
    obtain ⟨w', rfl, hps', -⟩ := hmade ps hps
    exact ⟨w', rfl, hps'⟩

/-- `process_create_replacement` makes a whole process. -/
theorem processCreateReplacement_made (w : World) (env : Env) (hsmall : Small env.vfs) (parent : Ps)
    (path : List UInt8) :
  After (processCreateReplacement env parent path) w.heap fun r h' => ∀ ps, r = some ps →
    ∃ w', w'.heap = h' ∧ Made w w' ps
  := by
  unfold processCreateReplacement
  refine After.bind (processCreate_made w env hsmall path parent.id) ?_
  intro r h₁ hmade
  cases r with
  | none => exact After.pure (by simp)
  | some child =>
  obtain ⟨w₁, rfl, ⟨hfresh, hkeeps₁, hwhole⟩, -⟩ := hmade child rfl
  refine After.bind (processCopyFileDescriptors_spec w₁ env _) ?_
  rintro r - ⟨w₂, rfl, hkeeps₂, -⟩
  cases r with
  | none => exact After.next fun _ _ => After.pure (by simp)
  | some fds =>
  have hwhole₂ := hwhole.keeps hkeeps₂ (by simp) (by simp) (by simp)
  refine After.pure fun ps hps => ?_
  obtain rfl := Option.some.inj hps
  refine ⟨w₂, rfl, hfresh, hkeeps₁.trans (hkeeps₂.mono (by simp [childTags, Set.subset_def]) (by simp)) (by simp), ?_⟩
  exact ⟨⟨hwhole₂.own, hwhole₂.pdt, hwhole₂.code, hwhole₂.stack, hwhole₂.kernelStack⟩, hwhole₂.pdt_ne,
    hwhole₂.pdt_tmp, hwhole₂.only, hwhole₂.access, hwhole₂.alone,
    hwhole₂.runs, hwhole₂.apart, hwhole₂.top, hwhole₂.top_ne, hwhole₂.top_tmp⟩

end Process
