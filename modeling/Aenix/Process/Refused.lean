import Aenix.Paging.Create
import Aenix.Process.Built
import Aenix.Process.Failure

/-!
# Processes that are refused

A result NULL of `process_create`, `process_create_replacement` or `process_clone` is without effect when the block for
the process cannot be had for want of frames, or when it can be had and there is no place for the directory
(`Refused`).  Any later failure leaves the page of the directory mapped in the kernel, since
`process_delete_resources` frees the frame of the directory and does not unmap the page.
-/

open Aenix
open Paging hiding Call exec Step

namespace Process

variable {w : World} {env : Env} {fs live : List Kmalloc.Block} {h h' : Kmalloc.Heap State} {base addr : UInt32}

/-- The live blocks of the heap, the free frames and what the kernel has mapped are as before. -/
structure NoEffect (base : UInt32) (live : List Kmalloc.Block) (h h' : Kmalloc.Heap State) : Prop where
  blocks : ∃ fs, Kmalloc.HeapOf base (Kmalloc.initList base h') fs live
  frames : h'.kernel.pfa.free = h.kernel.pfa.free
  translation : ∀ v, h'.kernel.page h'.kernel.kernelPdt v = h.kernel.page h.kernel.kernelPdt v

/-- A free block is large enough for a process. -/
def HasBlock (fs : List Kmalloc.Block) : Prop :=
  ∃ t ∈ fs, Kmalloc.unitsFor psSize ≤ t.size

/-- There is a block for a process and no place for a directory, or there is no block and no frames for a larger
heap. -/
def Refused (fs : List Kmalloc.Block) (s : State) : Prop :=
  (HasBlock fs ∧ NoPlace s) ∨ (¬ HasBlock fs ∧ ¬ FramesLeft s psSize)

/-- The kernel's directory and page table are not at address 0: `link.ld` places the kernel above. -/
structure AboveZero (s : State) : Prop where
  pdt : s.kernelPdt ≠ 0
  pt : s.kernelPt ≠ 0

theorem AboveZero.table (h : AboveZero w.state) :
  ∀ i < 1024, w.state.has w.state.kernelPdt i → w.state.table w.state.kernelPdt i ≠ 0
  := by
  intro i hi hhas
  by_cases hfirst : i = kernelPdtIdx
  · rw [hfirst, w.labelled.first.2]
    exact h.pt
  · have hheld := w.labelled.held _ _ (w.labelled.kernelTable i hi hhas hfirst)
    exact ne_zero_of_mem_frames w.labelled.pfa hheld.1

/-! ### The block for the process -/

/-- The heap after a `kmalloc` for a process: it has one more live block; or nothing has changed for want of frames;
or frames have been taken. -/
structure BlockOutcome (w : World) (base : UInt32) (fs live : List Kmalloc.Block) (addr : UInt32) (w' : World) :
    Prop where
  vars : SameVars w.state w'.state
  more : Extends w.state w'.state
  cases : (HasBlock fs ∧ w'.state = w.state ∧
      ∃ fs' b, addr = b.pointer ∧ Kmalloc.HeapOf base w'.heap fs' (b :: live)) ∨
    (¬ HasBlock fs ∧ ¬ FramesLeft w.state psSize ∧ addr = 0 ∧ w'.heap = Kmalloc.initList base w.heap) ∨
    (¬ HasBlock fs ∧ FramesLeft w.state psSize ∧ ∃ f ∈ w.state.pfa.free, f ∉ w'.state.pfa.free)

theorem kmalloc_block (w : World) (env : Env)
    (hheap : Kmalloc.HeapOf env.base (Kmalloc.initList env.base w.heap) fs live) :
  After (kmalloc env psSize) w.heap fun addr h' => ∃ w', w'.heap = h' ∧ BlockOutcome w env.base fs live addr w'
  := by
  intro addr h' hrun
  obtain ⟨w', rfl, hkeeps, hmore⟩ := kmalloc_spec w env psSize addr h' hrun
  refine ⟨w', rfl, hkeeps.vars, hmore, ?_⟩
  have hzero : psSize ≠ 0 := by decide
  rcases Kmalloc.kmalloc_cases kernel hheap hzero hrun with ⟨hfits, fs', b, haddr, hheap', hkernel⟩ | ⟨hsmall, -⟩
  · exact Or.inl ⟨hfits, hkernel, fs', b, haddr, hheap'⟩
  · have hnone : ¬ HasBlock fs := by
      rintro ⟨t, ht, hle⟩
      exact absurd (hsmall t ht) (UInt32.not_lt.mpr hle)
    rcases kmalloc_of_small hheap w.labelled.pfa hzero hsmall hrun with ⟨hfail, hr, heq⟩ | ⟨hleft, i, f, hf, hi, hi'⟩
    · exact Or.inr (Or.inl ⟨hnone, hfail, hr, heq⟩)
    · have hf' : w'.state.pfa.frames[i]? = some f := by rwa [hkeeps.map.frames]
      refine Or.inr (Or.inr ⟨hnone, hleft, f, (w.labelled.pfa.mem_free_iff hf).mpr hi, ?_⟩)
      rw [w'.labelled.pfa.mem_free_iff hf', hi']
      exact Bool.false_ne_true

/-! ### The directory -/

/-- A process that has got nothing but its block. -/
structure Blank (ps : Ps) (addr : UInt32) : Prop where
  addr : ps.addr = addr
  pdt : ps.pdt = 0
  stack : ps.kernelStackStartVaddr = 0
  code : ps.codePaddrs = []
  stackPaddrs : ps.stackPaddrs = []

/-- To delete a process that has got nothing but its block is to free the block. -/
theorem Blank.deleteAndFree {ps : Ps} (h : Blank ps addr) (env : Env) :
  processDeleteAndFree env ps = kfree env addr
  := by
  obtain ⟨rfl, hpdt, hstack, hcode, hpaddrs⟩ := h
  rw [processDeleteAndFree, processDeleteResources, hpdt, hstack, hcode, hpaddrs]
  simp [deletePaddrList]

/-- `process_load_pdt` fails without an effect when there is no place for the directory, and only then. -/
theorem processLoadPdt_outcome (w : World) (habove : AboveZero w.state) (ps : Ps) :
  After (processLoadPdt ps) w.heap fun r h' =>
    (NoPlace w.state ∧ r = none ∧ h' = { w.heap with kernel := h'.kernel } ∧
        h'.kernel.pfa.free = w.state.pfa.free ∧ ∀ v, h'.kernel.page h'.kernel.kernelPdt v = w.page v) ∨
      (¬ NoPlace w.state ∧ ∃ v, w.page v = none ∧ h'.kernel.page h'.kernel.kernelPdt v ≠ none ∧
        ∀ ps', r = some ps' → ps'.pdt = v)
  := by
  have hcreate : After (paging pdtCreate) w.heap fun r h' => ∃ s', pdtCreate w.state = some (r, s') ∧
      h' = { w.heap with kernel := s' } := by
    intro r h' hrun
    obtain ⟨⟨r', s'⟩, hcreate, heq⟩ := Option.map_eq_some_iff.mp hrun
    obtain ⟨rfl, rfl⟩ := Prod.mk.inj heq
    exact ⟨s', hcreate, rfl⟩
  unfold processLoadPdt
  refine After.bind hcreate ?_
  rintro r - ⟨s', hrun, rfl⟩
  rcases pdtCreate_outcome w.labelled.pfa w.labelled.kernel habove.pdt habove.table hrun with
    ⟨hno, rfl, hfree, hpage⟩ | ⟨hplace, hnone, hsome⟩
  · refine After.ite (fun _ => After.pure (Or.inl ⟨hno, rfl, rfl, hfree, hpage⟩)) ?_
    exact fun hne => absurd (Or.inl rfl) hne
  · refine After.ite (fun _ => After.pure (Or.inr ⟨hplace, r.1, hnone, hsome, by simp⟩)) ?_
    refine fun _ => After.pure (Or.inr ⟨hplace, r.1, hnone, hsome, fun ps' hps' => ?_⟩)
    rw [← Option.some.inj hps']

/-! ### Failures -/

/-- A page that has been mapped is an effect. -/
theorem NoEffect.page_iff (hno : NoEffect base live h h') (v : UInt32) :
  h'.kernel.page h'.kernel.kernelPdt v = none ↔ h.kernel.page h.kernel.kernelPdt v = none
  := by
  rw [hno.translation]

/-- NULL is returned without an effect if and only if the process is refused; and the page of the directory was not
mapped before. -/
structure Settled (w : World) (base : UInt32) (fs live : List Kmalloc.Block) (r : Option Ps)
    (h' : Kmalloc.Heap State) : Prop where
  failed : r = none → (NoEffect base live w.heap h' ↔ Refused fs w.state)
  built : ∀ ps, r = some ps → ¬ Refused fs w.state ∧ w.page ps.pdt = none ∧ ∃ w', w'.heap = h' ∧ Standing w' ps

/-- A page is left mapped, and the process is not refused. -/
theorem settled_of_page {r : Option Ps} {v : UInt32} (hnot : ¬ Refused fs w.state) (hnone : w.page v = none)
    (hsome : h'.kernel.page h'.kernel.kernelPdt v ≠ none) :
  r = none → (NoEffect base live w.heap h' ↔ Refused fs w.state)
  := fun _ => iff_of_false (fun hno => hsome ((hno.page_iff v).mpr hnone)) hnot

theorem page_ne_none {s : State} {v f : UInt32} (hv : s.resolve v = some f) :
  s.page s.kernelPdt v ≠ none
  := by
  intro hnone
  rw [State.resolve, hnone] at hv
  simp at hv

/-- No process is refused while the heap can grow. -/
theorem not_refused_of_frames {s : State} (hnone : ¬ HasBlock fs) (hleft : FramesLeft s psSize) :
  ¬ Refused fs s
  := by
  rintro (⟨hfits, -⟩ | ⟨-, hnot⟩)
  · exact hnone hfits
  · exact hnot hleft

variable {w₁ : World}

/-- What is not mapped in the end was not mapped before. -/
theorem BlockOutcome.page_none (h : BlockOutcome w base fs live addr w₁) {v : UInt32} (hv : w₁.page v = none) :
  w.page v = none
  := by
  cases hpage : w.page v with
  | none => rfl
  | some e => exact absurd (h.more.page v e hpage) (by simp [hv])

/-- The process is refused for want of a place if and only if there is its block in the heap. -/
theorem BlockOutcome.refused_iff (h : BlockOutcome w base fs live addr w₁) (haddr : addr ≠ 0)
    (hplace : NoPlace w₁.state) :
  Refused fs w.state ↔ HasBlock fs
  := by
  rcases h.cases with ⟨hfits, hstate, -⟩ | ⟨-, -, hzero, -⟩ | ⟨hnone, hleft, -⟩
  · refine iff_of_true (Or.inl ⟨hfits, ?_⟩) hfits
    rwa [← hstate]
  · exact absurd hzero haddr
  · exact iff_of_false (not_refused_of_frames hnone hleft) hnone

/-- The process is not refused when it has got a block and there is a place. -/
theorem BlockOutcome.not_refused (h : BlockOutcome w base fs live addr w₁) (haddr : addr ≠ 0)
    (hplace : ¬ NoPlace w₁.state) :
  ¬ Refused fs w.state
  := by
  rcases h.cases with ⟨hfits, hstate, -⟩ | ⟨-, -, hzero, -⟩ | ⟨hnone, hleft, -⟩
  · rw [hstate] at hplace
    rintro (⟨-, hno⟩ | ⟨hnot, -⟩)
    · exact hplace hno
    · exact hnot hfits
  · exact absurd hzero haddr
  · exact not_refused_of_frames hnone hleft

/-- `kmalloc` has returned NULL. -/
theorem BlockOutcome.null (h : BlockOutcome w base fs live 0 w₁) (hbase : base ≠ 0)
    (hheap : Kmalloc.HeapOf base (Kmalloc.initList base w.heap) fs live) :
  NoEffect base live w.heap w₁.heap ↔ Refused fs w.state
  := by
  rcases h.cases with ⟨-, -, fs', b, hb, hheap'⟩ | ⟨hnone, hleft, -, heq⟩ | ⟨hnone, hleft, f, hin, hout⟩
  · exact absurd hb.symm (hheap'.good b (by simp)).offset_ne_zero
  · refine iff_of_true ?_ (Or.inr ⟨hnone, hleft⟩)
    rw [heq]
    refine ⟨⟨fs, by rwa [hheap.initList_eq hbase]⟩, ?_, ?_⟩
    · rw [Kmalloc.initList_kernel]
    · exact fun _ => by rw [Kmalloc.initList_kernel]
  · refine iff_of_false ?_ (not_refused_of_frames hnone hleft)
    intro hno
    rw [← hno.frames] at hin
    exact hout hin

/-- There is no place for the directory, and the block is freed. -/
theorem BlockOutcome.noPlace (h : BlockOutcome w env.base fs live addr w₁) (haddr : addr ≠ 0) (hbase : env.base ≠ 0)
    {h₂ : Kmalloc.Heap State} (hsame : h₂ = { w₁.heap with kernel := h₂.kernel }) (hplace : NoPlace w₁.state)
    (hfree : h₂.kernel.pfa.free = w₁.state.pfa.free)
    (hpage : ∀ v, h₂.kernel.page h₂.kernel.kernelPdt v = w₁.page v) :
  After (kfree env addr) h₂ fun _ h' => NoEffect env.base live w.heap h' ↔ Refused fs w.state
  := by
  intro _ h' hrun
  obtain ⟨h₃, hkfree, heq⟩ := Option.map_eq_some_iff.mp hrun
  obtain ⟨-, rfl⟩ := Prod.mk.inj heq
  obtain ⟨hkernel, -⟩ := Kmalloc.kfree_kernel hkfree
  rw [h.refused_iff haddr hplace]
  rcases h.cases with ⟨hfits, hstate, fs', b, rfl, hheap⟩ | ⟨-, -, hzero, -⟩ | ⟨hnone, -, f, hin, hout⟩
  · refine iff_of_true ?_ hfits
    have hheap₂ : Kmalloc.HeapOf env.base h₂ fs' (b :: live) := by
      rw [hsame]
      exact hheap.with_kernel _
    obtain ⟨n, h₃', fs'', hkfree', hheap₃, -⟩ := Kmalloc.kfree_spec hheap₂
    have heq : h₃' = h₃ := by
      have hmax := Kmalloc.kfree_mono hkfree (le_max_left env.rounds n)
      have hmax' := Kmalloc.kfree_mono hkfree' (le_max_right env.rounds n)
      exact Option.some.inj (hmax'.symm.trans hmax)
    rw [heq] at hheap₃
    refine ⟨⟨fs'', by rwa [hheap₃.initList_eq hbase]⟩, ?_, ?_⟩
    · rw [hkernel, hfree, hstate]
    · intro v
      rw [hkernel, hpage, World.page, hstate]
  · exact absurd hzero haddr
  · refine iff_of_false ?_ hnone
    intro hno
    rw [← hno.frames, hkernel, hfree] at hin
    exact hout hin

/-- The part of creating and of cloning that begins with the block and the directory. -/
theorem start_settled (w : World) (hbase : env.base ≠ 0) (habove : AboveZero w.state)
    (hheap : Kmalloc.HeapOf env.base (Kmalloc.initList env.base w.heap) fs live) {init : UInt32 → Ps}
    {rest : Ps → Kern (Option Ps)} (hinit : ∀ addr, Blank (init addr) addr)
    (hrest : ∀ w ps, Begun w ps → After (rest ps) w.heap (Completes ps)) :
  After (start env init rest) w.heap (Settled w env.base fs live)
  := by
  unfold start
  refine After.bind (kmalloc_block w env hheap) ?_
  rintro addr - ⟨w₁, rfl, hblock⟩
  refine After.ite (fun haddr => After.pure ⟨fun _ => ?_, by simp⟩) ?_
  · rw [haddr] at hblock
    exact hblock.null hbase hheap
  intro haddr
  have habove₁ : AboveZero w₁.state :=
    ⟨by rw [hblock.vars.kernelPdt]; exact habove.pdt, by rw [hblock.vars.kernelPt]; exact habove.pt⟩
  refine After.bind ((processLoadPdt_begun w₁ (hinit addr).stack).and (processLoadPdt_outcome w₁ habove₁ _)) ?_
  rintro r h₂ ⟨hload, ⟨hplace, rfl, hsame, hfree, hpage⟩ | ⟨hplace, v, hnone, hsome, hpdt⟩⟩
  · dsimp only
    rw [(hinit addr).deleteAndFree env]
    refine After.bind (hblock.noPlace haddr hbase hsame hplace hfree hpage) ?_
    exact fun _ h₃ hiff => After.pure ⟨fun _ => hiff, by simp⟩
  · have hnot := hblock.not_refused haddr hplace
    have hnone₀ : w.page v = none := hblock.page_none hnone
    cases r with
    | none =>
      dsimp only
      rw [(hinit addr).deleteAndFree env]
      refine After.bind (P := fun _ h₃ => h₃.kernel = h₂.kernel) ?_ ?_
      · intro _ h₃ hrun
        obtain ⟨h₃', hkfree, heq⟩ := Option.map_eq_some_iff.mp hrun
        rw [← (Prod.mk.inj heq).2, (Kmalloc.kfree_kernel hkfree).1]
      · intro _ h₃ hkernel
        refine After.pure ⟨settled_of_page hnot hnone₀ ?_, by simp⟩
        rwa [hkernel]
    | some ps₂ =>
      obtain ⟨w₂, rfl, hbegun⟩ := hload _ rfl
      refine After.mono (hrest w₂ ps₂ hbegun) ?_
      rintro r h₃ ⟨hfailed, hcomplete⟩
      rw [← hpdt _ rfl] at hnone₀
      constructor
      · intro hr
        exact settled_of_page hnot hnone₀ (page_ne_none (hfailed hr)) hr
      · intro ps hps
        obtain ⟨heq, hstanding, -⟩ := hcomplete ps hps
        rw [heq]
        exact ⟨hnot, hnone₀, hstanding⟩

/-! ### The three functions -/

theorem processCreate_settled (w : World) (hbase : env.base ≠ 0) (habove : AboveZero w.state)
    (hheap : Kmalloc.HeapOf env.base (Kmalloc.initList env.base w.heap) fs live) (path : List UInt8) (id : UInt32) :
  After (processCreate env path id) w.heap (Settled w env.base fs live)
  := by
  rw [processCreate_eq]
  exact start_settled w hbase habove hheap (fun _ => ⟨rfl, rfl, rfl, rfl, rfl⟩) fun _ _ => loadImage_spec env path

/-- The calls that build a process.  The process that is cloned has one element in each list. -/
inductive Builds (env : Env) : Kern (Option Ps) → Prop
  | create (path : List UInt8) (id : UInt32) : Builds env (processCreate env path id)
  | replacement (parent : Ps) (path : List UInt8) : Builds env (processCreateReplacement env parent path)
  | clone {parent : Ps} (hparent : Loaded parent) (id : UInt32) : Builds env (processClone env parent id)

/-- What the calls return can be cloned. -/
theorem Builds.loaded {call : Kern (Option Ps)} (hcall : Builds env call) (w : World) :
  After call w.heap fun r _ => ∀ ps, r = some ps → Loaded ps
  := by
  cases hcall with
  | create path id =>
      exact After.mono (processCreate_standing w env path id) fun r h₁ hbuilt ps hps => (hbuilt ps hps).2
  | replacement parent path =>
      unfold processCreateReplacement
      refine After.bind (processCreate_standing w env path parent.id) ?_
      intro r h₁ hbuilt
      cases r with
      | none => exact After.pure (by simp)
      | some child =>
        refine After.next fun r h₂ => ?_
        cases r with
        | none => exact After.next fun _ _ => After.pure (by simp)
        | some fds =>
          refine After.pure fun ps hps => ?_
          rw [← Option.some.inj hps]
          exact (hbuilt child rfl).2
  | clone hparent id =>
      exact After.mono (processClone_standing w env hparent id) fun r h₁ hbuilt ps hps => (hbuilt ps hps).2

/-- A call that returns NULL has had no effect if and only if the process was refused. -/
theorem null_without_effect_iff {call : Kern (Option Ps)} (hcall : Builds env call) (hbase : env.base ≠ 0)
    (habove : AboveZero w.state) (hheap : Kmalloc.HeapOf env.base (Kmalloc.initList env.base w.heap) fs live)
    (hrun : call w.heap = some (none, h')) :
  NoEffect env.base live w.heap h' ↔ Refused fs w.state
  := by
  suffices hsettled : After call w.heap fun r h' =>
      r = none → (NoEffect env.base live w.heap h' ↔ Refused fs w.state) by
    exact hsettled none h' hrun rfl
  cases hcall with
  | create path id =>
      exact After.mono (processCreate_settled w hbase habove hheap path id) fun r h₁ hsettled => hsettled.failed
  | replacement parent path =>
      unfold processCreateReplacement
      refine After.bind (processCreate_settled w hbase habove hheap path parent.id) ?_
      intro r h₁ hsettled
      cases r with
      | none => exact After.pure fun _ => hsettled.failed rfl
      | some child =>
        obtain ⟨hnot, hnone, w₁, rfl, hstanding⟩ := hsettled.built child rfl
        refine After.bind (processCopyFileDescriptors_spec w₁ env _) ?_
        rintro r - ⟨w₂, rfl, hkeeps, -⟩
        cases r with
        | some fds => exact After.pure (by simp)
        | none =>
          refine After.bind ((hstanding.keeps hkeeps).alive.freed env) ?_
          intro _ h₃ hres
          exact After.pure (settled_of_page hnot hnone (page_ne_none hres))
  | clone hparent id =>
      rw [processClone_eq] at hrun ⊢
      exact After.mono (start_settled w hbase habove hheap (fun _ => ⟨rfl, rfl, rfl, rfl, rfl⟩)
        fun _ _ => cloneImage_spec env hparent) fun r h₁ hsettled => hsettled.failed

namespace OneRegion

/-- Sixteen frames.  Which of them are free is in `cell`. -/
def pfa (cell : UInt32) : Pfa.State :=
  ⟨fun i => if i = 0 then cell else 0, 16, [⟨0x200000, 0x10000⟩]⟩

/-- The kernel with its image, and with two of the frames mapped for the heap. -/
def state (cell : UInt32) : State where
  pfa := pfa cell
  mem := fun f i =>
    if f = 0x101000 ∧ i = 768 then createPdtEntry 0x102000 ps4Kb pagingReadWrite pagingPl0
    else if f = 0x102000 ∧ i < 272 then createPtEntry (UInt32.ofNat i * fourKb) pagingReadWrite pagingPl0
    else if f = 0x102000 ∧ i = 512 then createPtEntry 0x200000 pagingReadWrite pagingPl0
    else if f = 0x102000 ∧ i = 513 then createPtEntry 0x201000 pagingReadWrite pagingPl0
    else Entry.zero
  kernelPdt := 0x101000
  kernelPt := 0x102000
  cr3 := 0x101000

/-- The heap, in which the block at `next` is the first free one. -/
def heap (next cell : UInt32) : Kmalloc.Heap State where
  mem := fun a => if a = 0xC0108000 then ⟨next, 0⟩ else ⟨0xC0108000, 1024⟩
  freep := 0xC0108000
  acquired := [⟨0xC0200000, 8192⟩]
  kernel := state cell

/-- No files are mounted. -/
def noFiles : Env where
  base := 0xC0108000
  rounds := 3
  vfs := ⟨fun _ => 0, fun _ => none, fun _ => none, fun _ _ _ => (0, fun _ _ => Entry.zero)⟩

/-- The two frames are the heap's. -/
def own : Labels := fun f =>
  if f = 0x200000 ∨ f = 0x201000 then some .heap else none

theorem frameMap (cell : UInt32) :
  Pfa.FrameMap (pfa cell)
  := by
  constructor
  · simp [pfa]
  · simp [pfa, Frames.Ascending]
  · simp [pfa, oneMb]
  · simp [pfa]
  · exact show ((pfa 0).mmap.map fun r => r.len.toNat).sum = (pfa 0).len.toNat * 4096 by decide
  · simp [pfa]

/-- The directory has one entry. -/
theorem has_state {cell : UInt32} {i : ℕ} (h : (state cell).has (state cell).kernelPdt i) :
  i = 768
  := by
  simp only [State.has, state] at h
  split_ifs at h with h₁ h₂ h₃ h₄
  · exact h₁.2
  · exact absurd h₂.1 (by decide)
  · exact absurd h₃.1 (by decide)
  · exact absurd h₄.1 (by decide)
  · simp at h

theorem labelled {cell : UInt32} (h₀ : Pfa.bit (pfa cell) 0 = false) (h₁ : Pfa.bit (pfa cell) 1 = false) :
  Labelled (state cell) own
  := by
  have hframes : (pfa cell).frames = (pfa 0).frames := rfl
  have hunmanaged : ∀ f : UInt32, f.toNat ∉ (pfa 0).frames → f.toNat ∉ (pfa cell).free := by
    intro f hf hin
    exact hf (hframes ▸ Pfa.free_subset_frames hin)
  have hheld : ∀ i f, (pfa 0).frames[i]? = some f → Pfa.bit (pfa cell) i = false →
      f ∈ (pfa cell).frames ∧ f ∉ (pfa cell).free := by
    intro i f hf hbit
    rw [(frameMap cell).mem_free_iff (hframes ▸ hf), hbit]
    exact ⟨List.mem_of_getElem? (hframes ▸ hf), by simp⟩
  have hpt : (state cell).table (state cell).kernelPdt 768 = 0x102000 :=
    show (state 0).table (state 0).kernelPdt 768 = 0x102000 by decide
  have hunused : (0x102000 : UInt32).toNat ∉ (pfa cell).free := hunmanaged _ (by decide)
  refine ⟨frameMap cell, ?_, show (0x101000 : UInt32).toNat ∉ (pfa 0).frames by decide,
    show (0x102000 : UInt32).toNat ∉ (pfa 0).frames by decide,
    ⟨⟨hunmanaged 0x101000 (by decide), hunused, show (0x101000 : UInt32) ≠ 0x102000 by decide, ?_, ?_, ?_⟩, ?_⟩,
    ⟨show (state 0).has (state 0).kernelPdt kernelPdtIdx by decide, hpt⟩, ?_, ?_, ?_⟩
  · intro f t hf
    obtain ⟨rfl | rfl, -⟩ := Option.ite_none_right_eq_some.mp hf
    · exact hheld 0 _ (by decide) h₀
    · exact hheld 1 _ (by decide) h₁
  · intro i _ hhas
    rw [has_state hhas, hpt]
    exact hunused
  · intro i _ hhas
    rw [has_state hhas, hpt]
    exact show (0x102000 : UInt32) ≠ 0x101000 by decide
  · intro i _ j _ hhas hhas' _
    rw [has_state hhas, has_state hhas']
  · exact fun i _ hhas _ => has_state hhas
  · exact fun i _ hhas hne => absurd (has_state hhas) hne
  · intro i _ hhas
    rw [has_state hhas]
    exact show ((state 0).mem (state 0).kernelPdt 768).user = false by decide
  · intro d hd
    obtain ⟨-, hd⟩ := Option.ite_none_right_eq_some.mp hd
    simp at hd

/-- The kernel with these labels. -/
def world (next : UInt32) {cell : UInt32} (h₀ : Pfa.bit (pfa cell) 0 = false) (h₁ : Pfa.bit (pfa cell) 1 = false) :
    World :=
  ⟨heap next cell, own, labelled h₀ h₁⟩

theorem aboveZero (cell : UInt32) :
  AboveZero (state cell)
  := ⟨show (0x101000 : UInt32) ≠ 0 by decide, show (0x102000 : UInt32) ≠ 0 by decide⟩

/-- The memory of the heap. -/
def block : Kmalloc.Block :=
  ⟨0xC0200000, 1024⟩

theorem good_block :
  block.Good 0xC0108000 [⟨0xC0200000, 8192⟩]
  := by
  refine ⟨by decide, by decide, by decide, by decide, ?_⟩
  intro x hx
  exact ⟨_, List.mem_singleton_self _, hx⟩

/-- The heap is free. -/
theorem heapOf_free (cell : UInt32) :
  Kmalloc.HeapOf 0xC0108000 (heap 0xC0200000 cell) [block] []
  := by
  refine ⟨⟨by rfl, by rfl, trivial⟩, ?_, ⟨_, List.mem_cons_self, rfl⟩, by simp, ?_, by simp, by simp, ?_⟩
  · simp [Kmalloc.Block.Gap, Kmalloc.Block.stop, Kmalloc.baseBlock, block]
  · intro b hb
    obtain rfl := List.mem_singleton.mp hb
    exact good_block
  · rfl

/-- The heap is in use. -/
theorem heapOf_live (cell : UInt32) :
  Kmalloc.HeapOf 0xC0108000 (heap 0xC0108000 cell) [] [block]
  := by
  refine ⟨⟨by rfl, trivial⟩, by simp, ⟨_, List.mem_cons_self, rfl⟩, ?_, ?_, by simp, by simp, ?_⟩
  · intro b hb
    obtain rfl := List.mem_singleton.mp hb
    rfl
  · intro b hb
    obtain rfl := List.mem_singleton.mp hb
    exact good_block
  · rfl

theorem run_create :
  ((processCreate noFiles [] 1 (heap 0xC0200000 0x3FFF0000)).map fun (r, h') =>
      (r.isNone, (h'.kernel.page h'.kernel.kernelPdt 0xC0110000).isSome)) = some (true, true)
  := by
  unfold processCreate processDeleteAndFree processDeleteResources
  rw [pdtDelete_eq_fun]
  decide +kernel

theorem run_create_full :
  ((processCreate noFiles [] 1 (heap 0xC0108000 0)).map fun r => r.1.isNone) = some true
  := by
  decide +kernel

/-- There are no frames for a larger heap. -/
theorem refused : Refused [] (state 0)
  := by
  refine Or.inr ⟨by simp [HasBlock], ?_⟩
  rintro ⟨b, -, hfree⟩
  have hbit := hfree.free b le_rfl (Nat.lt_add_of_pos_right (by decide))
  simp [Pfa.bit, state, pfa] at hbit

end OneRegion

/-- In a kernel without free frames whose heap is in use no process is created, and nothing has changed. -/
theorem null_without_effect_noFrames :
  ∃ h', processCreate OneRegion.noFiles [] 1 (OneRegion.heap 0xC0108000 0) = some (none, h') ∧
    NoEffect 0xC0108000 [OneRegion.block] (OneRegion.heap 0xC0108000 0) h'
  := by
  obtain ⟨⟨r, h'⟩, hrun, hnone⟩ := Option.map_eq_some_iff.mp OneRegion.run_create_full
  obtain rfl := Option.isNone_iff_eq_none.mp hnone
  have hheap := OneRegion.heapOf_live 0
  have h₀ : Pfa.bit (OneRegion.pfa 0) 0 = false := by decide
  have h₁ : Pfa.bit (OneRegion.pfa 0) 1 = false := by decide
  refine ⟨h', hrun, (null_without_effect_iff (w := OneRegion.world 0xC0108000 h₀ h₁) (Builds.create [] 1) (by decide)
    (OneRegion.aboveZero 0) ?_ hrun).mpr OneRegion.refused⟩
  exact (hheap.initList_eq (by decide)).symm ▸ hheap

/-- There is no file.  `process_create` returns NULL, and the page of the directory is left mapped. -/
theorem missing_file_leaves_page :
  Labelled (OneRegion.state 0x3FFF0000) OneRegion.own ∧
    Kmalloc.HeapOf 0xC0108000 (OneRegion.heap 0xC0200000 0x3FFF0000) [OneRegion.block] [] ∧
    ∃ h', processCreate OneRegion.noFiles [] 1 (OneRegion.heap 0xC0200000 0x3FFF0000) = some (none, h') ∧
      h'.kernel.page h'.kernel.kernelPdt 0xC0110000 ≠ none ∧
      ¬ NoEffect 0xC0108000 [] (OneRegion.heap 0xC0200000 0x3FFF0000) h'
  := by
  refine ⟨OneRegion.labelled (by decide) (by decide), OneRegion.heapOf_free _, ?_⟩
  obtain ⟨⟨r, h'⟩, hrun, heq⟩ := Option.map_eq_some_iff.mp OneRegion.run_create
  obtain ⟨hnone, hpage⟩ := Prod.mk.inj heq
  obtain rfl := Option.isNone_iff_eq_none.mp hnone
  have hpage' : h'.kernel.page h'.kernel.kernelPdt 0xC0110000 ≠ none := by
    intro hzero
    rw [hzero] at hpage
    simp at hpage
  refine ⟨h', hrun, hpage', fun hno => hpage' ((hno.page_iff _).mpr ?_)⟩
  decide

end Process
