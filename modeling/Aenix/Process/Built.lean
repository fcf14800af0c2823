import Aenix.Process.Delete

/-!
# What has been built of a process

`process_create` and `process_clone` begin with a block for the process and its directory (`start`).  From then on the
kernel has the directory mapped, whether the process is completed or not (`Completes`).
-/

open Aenix
open Paging hiding Call exec Step

namespace Process

variable {w w' : World} {ps : Ps} {h : Kmalloc.Heap State}

/-! ### The parts of creating and cloning -/

/-- The part of `process_create` and of `process_clone` up to the directory; `init` sets up the block for the
process, `rest` is what follows. -/
def start (env : Env) (init : UInt32 → Ps) (rest : Ps → Kern (Option Ps)) : Kern (Option Ps) := do
  let addr ← kmalloc env psSize
  if addr = 0 then
    return none
  let ps := init addr
  let some ps' ← processLoadPdt ps | do
    processDeleteAndFree env ps
    return none
  rest ps'

/-- The part of `process_create` after the directory. -/
def loadImage (env : Env) (path : List UInt8) (ps : Ps) : Kern (Option Ps) := do
  let some ps' ← processLoadCode env ps path 0 | do
    processDeleteAndFree env ps
    return none
  let ps := ps'
  let some ps' ← processLoadStack env ps | do
    processDeleteAndFree env ps
    return none
  let ps := ps'
  let some ps' ← processLoadKernelStack env ps | do
    processDeleteAndFree env ps
    return none
  let ps := ps'
  return some { ps with current := ps.userMode }

theorem processCreate_eq (env : Env) (path : List UInt8) (id : UInt32) :
  processCreate env path id = start env (fun addr => processInit addr id) (loadImage env path)
  := rfl

/-- The part of `process_clone` after the directory. -/
def cloneImage (env : Env) (parent child : Ps) : Kern (Option Ps) := do
  let child := { child with codeStartVaddr := parent.codeStartVaddr }
  let (ok, code) ← processCopyPaddrList env child.pdt parent.codeStartVaddr parent.codePaddrs []
  let child := { child with codePaddrs := code }
  if !ok then
    processDeleteAndFree env child
    return none
  let child := { child with stackStartVaddr := parent.stackStartVaddr }
  let (ok, stack) ← processCopyPaddrList env child.pdt parent.stackStartVaddr parent.stackPaddrs []
  let child := { child with stackPaddrs := stack }
  if !ok then
    processDeleteAndFree env child
    return none
  let some child' ← processLoadKernelStack env child | do
    processDeleteAndFree env child
    return none
  let child := child'
  let some fds ← processCopyFileDescriptors env parent.fileDescriptors | do
    processDeleteAndFree env child
    return none
  return some { child with fileDescriptors := fds }

theorem processClone_eq (env : Env) (parent : Ps) (id : UInt32) :
  processClone env parent id = start env
    (fun addr => { processInit addr id with parentId := parent.id, userMode := parent.userMode })
    (cloneImage env parent)
  := rfl

/-! ### Processes with a directory -/

/-- One element for the code, and one frame for the stack. -/
def Loaded (ps : Ps) : Prop :=
  ∃ e e', ps.codePaddrs = [e] ∧ ps.stackPaddrs = [e'] ∧ e'.count = 1

/-- A process that has got its directory. -/
structure Begun (w : World) (ps : Ps) : Prop where
  pdt : Bare w ps.pdt ps.pdtPaddr
  pdt_tmp : ¬ IsTmp ps.pdt
  covered : Covered w.state ps.pdt
  stack : ps.kernelStackStartVaddr = 0

/-- The process has been completed, or not; the kernel has its directory mapped. -/
structure Completes (ps : Ps) (r : Option Ps) (h : Kmalloc.Heap State) : Prop where
  failed : r = none → h.kernel.resolve ps.pdt = some ps.pdtPaddr
  complete : ∀ ps', r = some ps' → ps'.pdt = ps.pdt ∧ (∃ w', w'.heap = h ∧ Standing w' ps') ∧ Loaded ps'

/-- A process without a stack in the kernel is deleted after a failure. -/
theorem completes_of_deleted {ps₀ : Ps} (env : Env) (hstack : ps.kernelStackStartVaddr = 0)
    (hres : h.kernel.resolve ps₀.pdt = some ps₀.pdtPaddr) :
  After (do processDeleteAndFree env ps; return none) h (Completes ps₀)
  := by
  refine After.bind (processDeleteAndFree_resolve env hstack hres) ?_
  intro _ h' hres'
  exact After.pure ⟨fun _ => hres', by simp⟩

/-- `process_create` after the directory. -/
theorem loadImage_spec (env : Env) (path : List UInt8) (hbegun : Begun w ps) :
  After (loadImage env path ps) w.heap (Completes ps)
  := by
  unfold loadImage
  have hnone := hbegun.stack
  refine After.bind (processLoadCode_bare env hbegun.pdt hbegun.covered path 0) ?_
  rintro r h₁ ⟨hres₁, hload⟩
  cases r with
  | none => exact completes_of_deleted env hnone hres₁
  | some ps₁ =>
  obtain ⟨w₁, e, rfl, hbare₁, rfl⟩ := hload _ rfl
  refine After.bind (processLoadStack_bare env (c := ps.pdtPaddr) hbare₁) ?_
  rintro r h₂ ⟨hres₂, hload⟩
  cases r with
  | none => exact completes_of_deleted env hnone hres₂
  | some ps₂ =>
  obtain ⟨w₂, e', rfl, hbare₂, hcount, rfl⟩ := hload _ rfl
  refine After.bind (processLoadKernelStack_standing env hbare₂ hbegun.pdt_tmp) ?_
  rintro r h₃ ⟨hres₃, hload⟩
  cases r with
  | none => exact completes_of_deleted env hnone hres₃
  | some ps₃ =>
  obtain ⟨w₃, e'', u, rfl, hstanding, rfl⟩ := hload _ rfl
  refine After.pure ⟨by simp, fun ps' hps' => ?_⟩
  obtain rfl := Option.some.inj hps'
  exact ⟨rfl, ⟨w₃, rfl, hstanding.pdt, hstanding.pdt_tmp, hstanding.stack, hstanding.stack_tmp⟩,
    e, e', rfl, rfl, hcount⟩

/-- A complete process is deleted after a failure. -/
theorem Standing.completes {ps₀ : Ps} (hstanding : Standing w ps) (env : Env) (hpdt : ps.pdt = ps₀.pdt)
    (hpaddr : ps.pdtPaddr = ps₀.pdtPaddr) :
  After (do processDeleteAndFree env ps; return none) w.heap (Completes ps₀)
  := by
  refine After.bind (hstanding.alive.freed env) ?_
  intro _ h' hres
  rw [hpdt, hpaddr] at hres
  exact After.pure ⟨fun _ => hres, by simp⟩

/-- `process_clone` after the directory, for a parent with one element in each list. -/
theorem cloneImage_spec (env : Env) {parent : Ps} (hparent : Loaded parent) (hbegun : Begun w ps) :
  After (cloneImage env parent ps) w.heap (Completes ps)
  := by
  obtain ⟨q, q', hcode, hstack, hone⟩ := hparent
  unfold cloneImage
  rw [hcode, hstack]
  have hnone := hbegun.stack
  refine After.bind (processCopyPaddrList_bare env hbegun.pdt q (Or.inr hbegun.covered)) ?_
  rintro ⟨ok, code⟩ h₁ ⟨hres₁, hcopy⟩
  dsimp only
  split
  case isTrue => exact completes_of_deleted env hnone hres₁
  case isFalse hok =>
  obtain ⟨w₁, e, rfl, hbare₁, -, rfl⟩ := hcopy (by simpa using hok)
  refine After.bind (processCopyPaddrList_bare env hbare₁ q' (Or.inl (by rw [hone]; decide))) ?_
  rintro ⟨ok', stack⟩ h₂ ⟨hres₂, hcopy'⟩
  dsimp only
  split
  case isTrue => exact completes_of_deleted env hnone hres₂
  case isFalse hok' =>
  obtain ⟨w₂, e', rfl, hbare₂, hcount, rfl⟩ := hcopy' (by simpa using hok')
  refine After.bind (processLoadKernelStack_standing env hbare₂ hbegun.pdt_tmp) ?_
  rintro r h₃ ⟨hres₃, hload⟩
  cases r with
  | none => exact completes_of_deleted env hnone hres₃
  | some ps₃ =>
  obtain ⟨w₃, e'', u, rfl, hstanding, rfl⟩ := hload _ rfl
  refine After.bind (processCopyFileDescriptors_spec w₃ env _) ?_
  rintro r - ⟨w₄, rfl, hkeeps₄, -⟩
  have hstanding₄ := hstanding.keeps hkeeps₄
  cases r with
  | none => exact hstanding₄.completes env rfl rfl
  | some fds =>
  refine After.pure ⟨by simp, fun ps' hps' => ?_⟩
  obtain rfl := Option.some.inj hps'
  exact ⟨rfl, ⟨w₄, rfl, hstanding₄.pdt, hstanding₄.pdt_tmp, hstanding₄.stack, hstanding₄.stack_tmp⟩,
    e, e', rfl, rfl, hcount.trans hone⟩

/-! ### Creating and cloning -/

/-- `process_load_pdt` of a new process. -/
theorem processLoadPdt_begun (w : World) (hstack : ps.kernelStackStartVaddr = 0) :
  After (processLoadPdt ps) w.heap fun r h' => ∀ ps', r = some ps' → ∃ w', w'.heap = h' ∧ Begun w' ps'
  := by
  refine After.mono (processLoadPdt_bare w ps) ?_
  intro r h' hload ps' hps'
  obtain ⟨w', pdt, c, hw', hbare, htmp, hslots, rfl⟩ := hload ps' hps'
  exact ⟨w', hw', hbare, htmp, hslots, hstack⟩

theorem start_standing (w : World) (env : Env) {init : UInt32 → Ps} {rest : Ps → Kern (Option Ps)}
    (hinit : ∀ addr, (init addr).kernelStackStartVaddr = 0)
    (hrest : ∀ w ps, Begun w ps → After (rest ps) w.heap (Completes ps)) :
  After (start env init rest) w.heap fun r h' => ∀ ps, r = some ps →
    (∃ w', w'.heap = h' ∧ Standing w' ps) ∧ Loaded ps
  := by
  unfold start
  refine After.bind (kmalloc_spec w env psSize) ?_
  rintro addr - ⟨w₁, rfl, -, -⟩
  refine After.ite (fun _ => After.pure (by simp)) ?_
  intro haddr
  refine After.bind (processLoadPdt_begun w₁ (hinit addr)) ?_
  intro r h₂ hload
  cases r with
  | none => exact After.next fun _ _ => After.pure (by simp)
  | some ps₂ =>
  obtain ⟨w₂, rfl, hbegun⟩ := hload _ rfl
  refine After.mono (hrest w₂ ps₂ hbegun) ?_
  exact fun r h₃ hcompletes ps hps => (hcompletes.complete ps hps).2

/-- `process_create`. -/
theorem processCreate_standing (w : World) (env : Env) (path : List UInt8) (id : UInt32) :
  After (processCreate env path id) w.heap fun r h' => ∀ ps, r = some ps →
    (∃ w', w'.heap = h' ∧ Standing w' ps) ∧ Loaded ps
  := by
  rw [processCreate_eq]
  exact start_standing w env (fun _ => rfl) fun _ _ => loadImage_spec env path

/-- `process_clone` of a process with one element in each list. -/
theorem processClone_standing (w : World) (env : Env) {parent : Ps} (hparent : Loaded parent) (id : UInt32) :
  After (processClone env parent id) w.heap fun r h' => ∀ ps, r = some ps →
    (∃ w', w'.heap = h' ∧ Standing w' ps) ∧ Loaded ps
  := by
  rw [processClone_eq]
  exact start_standing w env (fun _ => rfl) fun _ _ => cloneImage_spec env hparent

/-- The process has been built by a call that left the heap `h`, the processes that were cloned before too. -/
inductive Built (env : Env) : Ps → Kmalloc.Heap State → Prop
  | create {w : World} {path : List UInt8} {id : UInt32} {ps : Ps} {h : Kmalloc.Heap State}
      (hrun : processCreate env path id w.heap = some (some ps, h)) : Built env ps h
  | clone {w : World} {parent : Ps} {h₀ : Kmalloc.Heap State} {id : UInt32} {ps : Ps} {h : Kmalloc.Heap State}
      (hparent : Built env parent h₀) (hrun : processClone env parent id w.heap = some (some ps, h)) : Built env ps h

/-- A process that has been built has a directory and a stack in the kernel. -/
theorem Built.standing {env : Env} {h : Kmalloc.Heap State} (hbuilt : Built env ps h) :
  (∃ w', w'.heap = h ∧ Standing w' ps) ∧ Loaded ps
  := by
  induction hbuilt with
  | @create w path id ps h hrun =>
      exact processCreate_standing w env path id _ _ hrun ps rfl
  | @clone w parent h₀ id ps h _ hrun ih =>
      exact processClone_standing w env ih.2 id _ _ hrun ps rfl

end Process
