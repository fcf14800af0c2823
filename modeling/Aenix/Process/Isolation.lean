import Aenix.Lib.Trace
import Aenix.Paging.Rights
import Aenix.Process.Exit
import Aenix.Process.Slot

/-!
# Isolation

The kernel runs processes: it creates them from files, clones the one that runs, replaces it or ends it, loads their
directories, takes and frees memory for its heap, and maps memory for drivers; and the process that runs writes to its
memory.  In every state that is reached from one with only the kernel's first page table, no process can access the
kernel half of its address space, and what it can access is its own (`isolation`); and the memory of a process is what
it was, whatever the others do (`memory_undisturbed`).

The programs are no larger than 4 MB, and calls that return -1 or NULL are not among the steps: when memory is
exhausted, `pfa_free` is called with frames that have been freed, or with the address 0.
-/

open Aenix
open Paging hiding Call exec Step

namespace Process

variable {env : Env} {w w' : World} {ps ps' : Ps} {v : UInt32}

/-! ### The system -/

/-- The kernel and the processes that live. -/
structure System where
  heap : Kmalloc.Heap State
  live : List Ps

abbrev System.state (sys : System) : State :=
  sys.heap.kernel

/-- The process whose directory is active. -/
def System.running (sys : System) : Option Ps :=
  sys.live.find? fun ps => ps.pdtPaddr = sys.state.cr3

/-- What can happen. -/
inductive Action
  | create (path : List UInt8) (id : UInt32)
  | clone (id : UInt32)
  | replace (path : List UInt8)
  | exit
  | load (ps : Ps)
  | kmalloc (nbytes : UInt32)
  | kfree (ap : UInt32)
  | map (paddr vaddr size : UInt32)
  | write (v : UInt32) (new : Table)

/-- `none` when a call fails, and when the process that runs may not write to the page. -/
def System.step (env : Env) (sys : System) : Action → Option (Unit × System)
  | .create path id => do
    let (some ps, h) ← processCreate env path id sys.heap | none
    return ((), ⟨h, ps :: sys.live⟩)
  | .clone id => do
    let parent ← sys.running
    let (some child, h) ← processClone env parent id sys.heap | none
    return ((), ⟨h, child :: sys.live⟩)
  | .replace path => do
    let old ← sys.running
    let (some new, h) ← processCreateReplacement env old path sys.heap | none
    let (_, h) ← processDeleteAndFree env old h
    return ((), ⟨h, new :: sys.live.erase old⟩)
  | .exit => do
    let ps ← sys.running
    let (_, h) ← processDeleteResources env ps sys.heap
    return ((), ⟨h, sys.live.erase ps⟩)
  | .load ps => do
    guard (ps ∈ sys.live)
    let s ← pdtLoadProcessPdt sys.state ps.pdt ps.pdtPaddr
    return ((), { sys with heap := { sys.heap with kernel := s } })
  | .kmalloc nbytes => do
    let (_, h) ← kmalloc env nbytes sys.heap
    return ((), { sys with heap := h })
  | .kfree ap => do
    let (_, h) ← kfree env ap sys.heap
    return ((), { sys with heap := h })
  | .map paddr vaddr size => do
    let (_, h) ← mapKernelMemory paddr vaddr size sys.heap
    return ((), { sys with heap := h })
  | .write v new => do
    let ps ← sys.running
    let e ← sys.state.page ps.pdtPaddr v
    guard (sys.state.rights ps.pdtPaddr v = some (true, true))
    return ((), { sys with heap := { sys.heap with kernel := sys.state.fill e.paddr new } })

theorem step_create {sys : System} {path : List UInt8} {id : UInt32} {h' : Kmalloc.Heap State}
    (hrun : processCreate env path id sys.heap = some (some ps, h')) :
  System.step env sys (.create path id) = some ((), ⟨h', ps :: sys.live⟩)
  := by
  simp [System.step, hrun]

theorem step_load {sys : System} {s' : State} (hps : ps ∈ sys.live)
    (hload : pdtLoadProcessPdt sys.state ps.pdt ps.pdtPaddr = some s') :
  System.step env sys (.load ps) = some ((), { sys with heap := { sys.heap with kernel := s' } })
  := by
  simp [System.step, hload, hps, guard]

theorem step_clone {sys : System} {id : UInt32} {child : Ps} {h' : Kmalloc.Heap State} (hps : sys.running = some ps)
    (hrun : processClone env ps id sys.heap = some (some child, h')) :
  System.step env sys (.clone id) = some ((), ⟨h', child :: sys.live⟩)
  := by
  simp [System.step, hps, hrun]

theorem step_exit {sys : System} {u : Unit} {h' : Kmalloc.Heap State} (hps : sys.running = some ps)
    (hrun : processDeleteResources env ps sys.heap = some (u, h')) :
  System.step env sys .exit = some ((), ⟨h', sys.live.erase ps⟩)
  := by
  simp [System.step, hps, hrun]

theorem step_write {sys : System} {e : Entry} {new : Table} (hps : sys.running = some ps)
    (he : sys.state.page ps.pdtPaddr v = some e) (hrights : sys.state.rights ps.pdtPaddr v = some (true, true)) :
  System.step env sys (.write v new) =
    some ((), { sys with heap := { sys.heap with kernel := sys.state.fill e.paddr new } })
  := by
  simp [System.step, hps, he, hrights, guard]

/-- The kernel has one page table, for the kernel only, and no memory for the heap; neither it nor the directory are
frames of the allocator. -/
structure Booted (h : Kmalloc.Heap State) : Prop where
  pfa : Pfa.FrameMap h.kernel.pfa
  pdt_unmanaged : h.kernel.kernelPdt.toNat ∉ h.kernel.pfa.frames
  pt_unmanaged : h.kernel.kernelPt.toNat ∉ h.kernel.pfa.frames
  ne : h.kernel.kernelPdt ≠ h.kernel.kernelPt
  has : ∀ i < 1024, h.kernel.has h.kernel.kernelPdt i ↔ i = kernelPdtIdx
  table : h.kernel.table h.kernel.kernelPdt kernelPdtIdx = h.kernel.kernelPt
  supervisor : (h.kernel.mem h.kernel.kernelPdt kernelPdtIdx).user = false
  acquired : h.acquired = []

/-! ### The invariant -/

/-- The processes that live are whole and have different directories, and the heap is where it says. -/
structure Invariant (w : World) (live : List Ps) : Prop where
  whole : ∀ ps ∈ live, Whole w ps
  apart : live.Pairwise fun ps ps' => ps.pdtPaddr ≠ ps'.pdtPaddr
  heap : ∀ r ∈ w.heap.acquired, w.OnHeap r

/-- A kernel that has been booted uses no frames of the allocator. -/
theorem Booted.labelled {h : Kmalloc.Heap State} (hboot : Booted h) :
  Labelled h.kernel fun _ => none
  := by
  have hused : ∀ {f : UInt32}, f.toNat ∉ h.kernel.pfa.frames → f.toNat ∉ h.kernel.pfa.free :=
    fun hf hin => hf (Pfa.free_subset_frames hin)
  have htable : ∀ i < 1024, h.kernel.has h.kernel.kernelPdt i →
      h.kernel.table h.kernel.kernelPdt i = h.kernel.kernelPt := by
    intro i hi hhas
    rw [(hboot.has i hi).mp hhas, hboot.table]
  refine ⟨hboot.pfa, by simp, hboot.pdt_unmanaged, hboot.pt_unmanaged, ⟨⟨hused hboot.pdt_unmanaged,
    hused hboot.pt_unmanaged, hboot.ne, ?_, ?_, ?_⟩, ?_⟩, ⟨(hboot.has _ (by decide)).mpr rfl, hboot.table⟩, ?_, ?_,
    by simp⟩
  · intro i hi hhas
    rw [htable i hi hhas]
    exact hused hboot.pt_unmanaged
  · intro i hi hhas
    rw [htable i hi hhas]
    exact hboot.ne.symm
  · exact fun i hi j hj hhas hhas' _ => ((hboot.has i hi).mp hhas).trans ((hboot.has j hj).mp hhas').symm
  · exact fun i hi hhas _ => (hboot.has i hi).mp hhas
  · exact fun i hi hhas hne => absurd ((hboot.has i hi).mp hhas) hne
  · intro i hi hhas
    rw [(hboot.has i hi).mp hhas]
    exact hboot.supervisor

theorem Booted.invariant {h : Kmalloc.Heap State} (hboot : Booted h) :
  ∃ w, w.heap = h ∧ Invariant w []
  := by
  refine ⟨⟨h, fun _ => none, hboot.labelled⟩, rfl, by simp, List.Pairwise.nil, ?_⟩
  simp [hboot.acquired]

/-! ### Loading a directory -/

theorem State.loaded_mem (s : State) {d f : UInt32} (hf : f ≠ d) :
  (State.loaded s d).mem f = s.mem f
  := Function.update_of_ne hf _ _

theorem State.loaded_self (s : State) (d : UInt32) :
  (State.loaded s d).mem d = s.kernelCopied d
  := Function.update_self ..

theorem kernelCopied_user {s : State} {d : UInt32} {i : ℕ} (hi : i < kernelPdtIdx) :
  s.kernelCopied d i = s.mem d i
  := by
  rw [State.kernelCopied, if_neg]
  rw [mem_kernelHalf]
  omega

/-- The user half of the directory and its pages stay. -/
theorem loaded_page {s : State} {own : Labels} {d : UInt32} (h : Labelled s own) (hd : own d = some (.pdt d))
    (hv : v < kernelStartVaddr) :
  (State.loaded s d).page d v = s.page d v
  := by
  have hi := virtualToPdtIdx_lt_kernel hv
  have hself : (State.loaded s d).mem d (virtualToPdtIdx v) = s.mem d (virtualToPdtIdx v) := by
    rw [State.loaded_self, kernelCopied_user hi]
  apply State.page_congr hself
  intro hhas
  rw [State.loaded_mem]
  intro heq
  have htable := (h.dirs d hd).table _ hi hhas
  rw [heq, hd] at htable
  simp at htable

/-- The labels fit when a directory of a process has been loaded. -/
theorem Labelled.load {s : State} {own : Labels} {d : UInt32} (h : Labelled s own) (hd : own d = some (.pdt d)) :
  Labelled (State.loaded s d) own
  := by
  have hpdt := State.loaded_mem s (h.ne_pdt hd).symm
  have hmem : ∀ {f t}, own f = some t → t ≠ .pdt d → (State.loaded s d).mem f = s.mem f := by
    intro f t hf ht
    apply State.loaded_mem
    rintro rfl
    rw [hd] at hf
    exact ht (Option.some.inj hf).symm
  refine ⟨h.pfa, h.held, h.pdt_unmanaged, h.pt_unmanaged, h.kernel.congr hpdt subset_rfl rfl, ?_, ?_, ?_, ?_⟩
  · show (State.loaded s d).has s.kernelPdt _ ∧ (State.loaded s d).table s.kernelPdt _ = _
    rw [State.has, State.table, hpdt]
    exact h.first
  · show ∀ i < 1024, (State.loaded s d).has s.kernelPdt i → _ → own ((State.loaded s d).table s.kernelPdt i) = _
    simp only [State.has, State.table, hpdt]
    exact h.kernelTable
  · show ∀ i < 1024, (State.loaded s d).has s.kernelPdt i → ((State.loaded s d).mem s.kernelPdt i).user = false
    simp only [State.has, hpdt]
    exact h.supervisor
  · intro d' hd'
    by_cases heq : d' = d
    · subst heq
      have hself := State.loaded_self s d'
      constructor
      · intro i hi hhas
        rw [State.has, hself, kernelCopied_user hi] at hhas
        rw [State.table, hself, kernelCopied_user hi]
        exact (h.dirs d' hd).table i hi hhas
      · intro v hv e he
        rw [loaded_page h hd hv] at he
        exact (h.dirs d' hd).page v hv e he
      · intro i hi hlt hhas
        rw [State.has, hself, State.kernelCopied] at hhas
        rw [hself, State.kernelCopied]
        split at hhas
        case isTrue hcopy =>
          rw [if_pos hcopy]
          exact h.supervisor i hlt hcopy.2
        case isFalse hnot =>
          rw [if_neg hnot]
          exact (h.dirs d' hd).kernelHalf i hi hlt hhas
    · apply (h.dirs d' hd').congr (hmem hd' (by simpa using heq)) (fun f hf => hmem hf (by simp))
      exact fun _ _ _ hf => hf

/-- The address space of the process and the memory that it maps below the kernel are the same. -/
structure Undisturbed (s s' : State) (ps : Ps) : Prop where
  page : ∀ v < kernelStartVaddr, s'.page ps.pdtPaddr v = s.page ps.pdtPaddr v
  memory : ∀ v < kernelStartVaddr, ∀ e, s.page ps.pdtPaddr v = some e → s'.mem e.paddr = s.mem e.paddr

theorem Undisturbed.trans {s s' s'' : State} (h : Undisturbed s s' ps) (h' : Undisturbed s' s'' ps) :
  Undisturbed s s'' ps
  := by
  constructor
  · intro v hv
    rw [h'.page v hv, h.page v hv]
  · intro v hv e he
    rw [h'.memory v hv e (by rw [h.page v hv, he]), h.memory v hv e he]

/-- The tags of the process's address space. -/
def spaceTags (d : UInt32) : Set Tag :=
  {.pdt d, .table d, .user d}

theorem Whole.undisturbed {new gone : Set Tag} (h : Whole w ps) (hkeeps : Keeps new gone w w')
    (hnew : Disjoint (spaceTags ps.pdtPaddr) new) (hgone : Disjoint (spaceTags ps.pdtPaddr) gone) :
  Undisturbed w.state w'.state ps
  := by
  simp only [spaceTags, Set.disjoint_left, Set.mem_insert_iff, Set.mem_singleton_iff] at hnew hgone
  constructor
  · exact fun v hv => hkeeps.user_page h.own hv ⟨hnew (by simp), hgone (by simp)⟩ ⟨hnew (by simp), hgone (by simp)⟩
  · exact fun v hv e he => hkeeps.contents _ _ (h.user_label hv he) (hnew (by simp)) (hgone (by simp))

namespace Invariant

variable {live : List Ps}

/-- The heap is where it says after a program that leaves its memory alone. -/
theorem heap_keeps {new gone : Set Tag} (h : Invariant w live) (hkeeps : Keeps new gone w w') (hgone : .heap ∉ gone) :
  ∀ r ∈ w'.heap.acquired, w'.OnHeap r
  := by
  intro r hr
  rcases hkeeps.acquired r hr with hold | hon
  · exact hkeeps.onHeap hgone (h.heap r hold)
  · exact hon

theorem ne_of_mem_erase (h : Invariant w live) (hps : ps ∈ live) (hps' : ps' ∈ live.erase ps) :
  ps'.pdtPaddr ≠ ps.pdtPaddr
  := by
  have hnodup : live.Nodup := h.apart.imp fun hne heq => hne (by rw [heq])
  obtain ⟨hne, hmem⟩ := hnodup.mem_erase_iff.mp hps'
  have hsymm : Std.Symm fun p q : Ps => p.pdtPaddr ≠ q.pdtPaddr := ⟨fun _ _ => Ne.symm⟩
  exact h.apart.forall hmem hps hne

/-- Memory is taken for the heap, or pages of the kernel are mapped. -/
theorem quiet (h : Invariant w live) (hkeeps : Keeps {.heap, .kernelTable} ∅ w w') :
  Invariant w' live ∧ ∀ ps ∈ live, Undisturbed w.state w'.state ps
  := by
  refine ⟨⟨fun ps hps => (h.whole ps hps).keeps hkeeps (by simp) (by simp) (by simp), h.apart,
    h.heap_keeps hkeeps (by simp)⟩, fun ps hps => (h.whole ps hps).undisturbed hkeeps ?_ ?_⟩
  · simp [spaceTags]
  · simp

/-- A process has been made. -/
theorem made (h : Invariant w live) (hmade : Made w w' ps) :
  Invariant w' (ps :: live) ∧ ∀ ps' ∈ live, Undisturbed w.state w'.state ps'
  := by
  have hne : ∀ ps' ∈ live, ps.pdtPaddr ≠ ps'.pdtPaddr := by
    intro ps' hps' heq
    have hown := (h.whole ps' hps').own
    rw [← heq, hmade.fresh] at hown
    simp at hown
  refine ⟨⟨List.forall_mem_cons.mpr ⟨hmade.whole, fun ps' hps' => ?_⟩, List.pairwise_cons.mpr ⟨hne, h.apart⟩,
    h.heap_keeps hmade.keeps (by simp)⟩, fun ps' hps' => (h.whole ps' hps').undisturbed hmade.keeps ?_ ?_⟩
  · have hne' := (hne ps' hps').symm
    refine (h.whole ps' hps').keeps hmade.keeps ?_ ?_ ?_
    · simp [childTags, hne']
    · simp [childTags, hne']
    · simp
  · simp [spaceTags, childTags, hne ps' hps']
  · simp [spaceTags]

/-- A process has been deleted. -/
theorem freed {F : Set UInt32} (h : Invariant w live) (hps : ps ∈ live)
    (hfrees : Frees (processTags ps.pdtPaddr) F w w') :
  Invariant w' (live.erase ps) ∧ ∀ ps' ∈ live.erase ps, Undisturbed w.state w'.state ps'
  := by
  have hmem : ∀ ps' ∈ live.erase ps, ps' ∈ live := fun ps' hps' => List.mem_of_mem_erase hps'
  refine ⟨⟨fun ps' hps' => ?_, h.apart.sublist List.erase_sublist, h.heap_keeps hfrees.keeps (by simp [processTags])⟩,
    fun ps' hps' => (h.whole ps' (hmem ps' hps')).undisturbed hfrees.keeps ?_ ?_⟩
  · have hne := h.ne_of_mem_erase hps hps'
    refine (h.whole ps' (hmem ps' hps')).keeps hfrees.keeps ?_ ?_ ?_
    · simp [processTags, hne]
    · simp [processTags]
    · simp [processTags, hne]
  · simp
  · simp [spaceTags, processTags, (h.ne_of_mem_erase hps hps').symm]

/-- A process is deleted and freed. -/
theorem deleted (h : Invariant w live) (env : Env) (hps : ps ∈ live) :
  After (processDeleteAndFree env ps) w.heap fun _ h' => ∃ w', w'.heap = h' ∧ Invariant w' (live.erase ps) ∧
    ∀ ps' ∈ live.erase ps, Undisturbed w.state w'.state ps'
  := by
  refine After.bind (processDeleteResources_frees env (h.whole ps hps).owns) ?_
  rintro - - ⟨w₁, rfl, hfrees⟩
  obtain ⟨hinv₁, hothers₁⟩ := h.freed hps hfrees
  refine After.mono (kfree_spec w₁ env ps.addr) ?_
  rintro - - ⟨w₂, rfl, hkeeps, -⟩
  obtain ⟨hinv₂, hothers₂⟩ := hinv₁.quiet (hkeeps.mono (Set.empty_subset _) subset_rfl)
  exact ⟨w₂, rfl, hinv₂, fun ps' hps' => (hothers₁ ps' hps').trans (hothers₂ ps' hps')⟩

/-- The directory of a process has been loaded. -/
theorem load (h : Invariant w live) (hps : ps ∈ live) {s' : State}
    (hload : pdtLoadProcessPdt w.state ps.pdt ps.pdtPaddr = some s') :
  ∃ w', w'.heap = { w.heap with kernel := s' } ∧ Invariant w' live ∧ ∀ ps' ∈ live, Undisturbed w.state w'.state ps'
  := by
  have hl := w.labelled
  have hwhole := h.whole ps hps
  have hd := hwhole.own
  rw [pdtLoadProcessPdt_eq (hl.ne_pdt hd) hwhole.pdt] at hload
  obtain rfl := Option.some.inj hload
  have hkernel : ∀ u, (State.loaded w.state ps.pdtPaddr).page w.state.kernelPdt u = w.page u := by
    intro u
    apply State.page_congr
    · rw [State.loaded_mem _ (hl.ne_pdt hd).symm]
    · intro hhas
      rw [State.loaded_mem _ (hl.ne_kernelTable hd (by simp) (virtualToPdtIdx_lt u) hhas).symm]
  have hpage : ∀ ps' ∈ live, ∀ u < kernelStartVaddr,
      (State.loaded w.state ps.pdtPaddr).page ps'.pdtPaddr u = w.state.page ps'.pdtPaddr u := by
    intro ps' hps' u hu
    have hown := (h.whole ps' hps').own
    by_cases heq : ps'.pdtPaddr = ps.pdtPaddr
    · rw [heq]
      exact loaded_page hl hd hu
    · apply State.page_congr (by rw [State.loaded_mem _ heq])
      intro hhas
      rw [State.loaded_mem]
      intro htable
      have hlabel := (hl.dirs _ hown).table _ (virtualToPdtIdx_lt_kernel hu) hhas
      rw [htable, hd] at hlabel
      simp at hlabel
  let w' : World := ⟨{ w.heap with kernel := State.loaded w.state ps.pdtPaddr }, w.own, hl.load hd⟩
  have hres : ∀ u, w'.state.resolve u = w.state.resolve u := fun u => congrArg _ (hkernel u)
  refine ⟨w', rfl, ⟨fun ps' hps' => ?_, h.apart, ?_⟩, fun ps' hps' => ⟨hpage ps' hps', ?_⟩⟩
  · refine (h.whole ps' hps').congr (fun _ _ _ hf => hf) (fun u f _ _ _ hu => (hres u).trans hu) (fun i hi => ?_)
      (hpage ps' hps')
    show (State.loaded w.state ps.pdtPaddr).mem ps'.pdtPaddr i = _
    by_cases heq : ps'.pdtPaddr = ps.pdtPaddr
    · rw [heq, State.loaded_self, kernelCopied_user hi]
    · rw [State.loaded_mem _ heq]
  · intro r hr u hu
    obtain ⟨e, he, hown⟩ := h.heap r hr u hu
    exact ⟨e, (hkernel u).trans he, hown⟩
  · intro u hu e he
    apply State.loaded_mem
    intro heq
    have hlabel := (h.whole ps' hps').user_label hu he
    rw [heq, hd] at hlabel
    simp at hlabel

/-- What a process can access is below the kernel. -/
theorem lt_kernel_of_rights (h : Invariant w live) (hps : ps ∈ live) {rw : Bool}
    (hrights : w.state.rights ps.pdtPaddr v = some (rw, true)) :
  v < kernelStartVaddr
  := by
  rw [State.rights, Option.map_eq_some_iff] at hrights
  obtain ⟨e, he, heq⟩ := hrights
  have hhas : w.state.has ps.pdtPaddr (virtualToPdtIdx v) := by
    by_contra hnot
    rw [State.page_of_not_has hnot] at he
    simp at he
  by_contra hle
  have hhalf := (w.labelled.dirs _ (h.whole ps hps).own).kernelHalf _
    (kernelPdtIdx_le_of_le (UInt32.not_lt.mp hle)) (virtualToPdtIdx_lt v) hhas
  simp [hhalf] at heq

/-- A process has written to one of its pages. -/
theorem write (h : Invariant w live) (hps : ps ∈ live) {e : Entry} (hv : v < kernelStartVaddr)
    (he : w.state.page ps.pdtPaddr v = some e) (new : Table) :
  ∃ w', w'.heap = { w.heap with kernel := w.state.fill e.paddr new } ∧ Invariant w' live ∧
    ∀ ps' ∈ live, ps' ≠ ps → Undisturbed w.state w'.state ps'
  := by
  have hwrote : Wrote w.own ps.pdtPaddr w.state (w.state.fill e.paddr new) :=
    (Wrote.refl _ _ _).fill ((h.whole ps hps).user_label hv he) new
  obtain ⟨w', hw', hkeeps, hown, hpage⟩ := hwrote.keeps
  refine ⟨w', hw', ⟨fun ps' hps' => (h.whole ps' hps').keeps hkeeps (by simp) (by simp) (by simp), h.apart,
    h.heap_keeps hkeeps (by simp)⟩, fun ps' hps' hne => (h.whole ps' hps').undisturbed hkeeps ?_ (by simp)⟩
  have hsymm : Std.Symm fun p q : Ps => p.pdtPaddr ≠ q.pdtPaddr := ⟨fun _ _ => Ne.symm⟩
  have hne' := h.apart.forall hps hps' hne.symm
  simp [spaceTags, hne']

end Invariant

/-! ### Steps -/

/-- What the process that runs does to its own memory, or to itself. -/
def Action.Touches (sys : System) (ps : Ps) : Action → Prop
  | .write _ _ => sys.running = some ps
  | .exit => sys.running = some ps
  | .replace _ => sys.running = some ps
  | _ => False

theorem System.running_spec {sys : System} (h : sys.running = some ps) :
  ps ∈ sys.live ∧ sys.state.cr3 = ps.pdtPaddr
  := by
  have hfound := List.find?_some h
  exact ⟨List.mem_of_find?_eq_some h, (of_decide_eq_true hfound).symm⟩

/-- Every step keeps the invariant, and leaves alone the processes that it is not a step of. -/
theorem step_spec (hsmall : Small env.vfs) {sys sys' : System} {a : Action} {u : Unit} (hw : w.heap = sys.heap)
    (h : Invariant w sys.live) (hstep : System.step env sys a = some (u, sys')) :
  ∃ w', w'.heap = sys'.heap ∧ Invariant w' sys'.live ∧
    ∀ ps ∈ sys.live, ¬ a.Touches sys ps → ps ∈ sys'.live ∧ Undisturbed w.state w'.state ps
  := by
  obtain ⟨heap, live⟩ := sys
  obtain rfl : w.heap = heap := hw
  cases a with
  | create path id =>
      obtain ⟨⟨r, h'⟩, hrun, hstep⟩ := Option.bind_eq_some_iff.mp hstep
      cases r with
      | none => simp at hstep
      | some ps =>
      obtain ⟨-, rfl⟩ := Prod.mk.inj (Option.some.inj hstep)
      obtain ⟨w', rfl, hmade, -⟩ := processCreate_made w env hsmall path id _ _ hrun ps rfl
      obtain ⟨hinv, hothers⟩ := h.made hmade
      exact ⟨w', rfl, hinv, fun ps' hps' _ => ⟨List.mem_cons_of_mem _ hps', hothers ps' hps'⟩⟩
  | clone id =>
      obtain ⟨parent, hparent, hstep⟩ := Option.bind_eq_some_iff.mp hstep
      obtain ⟨⟨r, h'⟩, hrun, hstep⟩ := Option.bind_eq_some_iff.mp hstep
      cases r with
      | none => simp at hstep
      | some ps =>
      obtain ⟨-, rfl⟩ := Prod.mk.inj (Option.some.inj hstep)
      obtain ⟨hmem, hcr3⟩ := System.running_spec hparent
      obtain ⟨w', rfl, hmade⟩ := processClone_made env (h.whole parent hmem).toIsProcess hcr3 id _ _ hrun ps rfl
      obtain ⟨hinv, hothers⟩ := h.made hmade
      exact ⟨w', rfl, hinv, fun ps' hps' _ => ⟨List.mem_cons_of_mem _ hps', hothers ps' hps'⟩⟩
  | replace path =>
      obtain ⟨old, hold, hstep⟩ := Option.bind_eq_some_iff.mp hstep
      obtain ⟨⟨r, h₁⟩, hrun, hstep⟩ := Option.bind_eq_some_iff.mp hstep
      cases r with
      | none => simp at hstep
      | some new =>
      obtain ⟨⟨_, h₂⟩, hdelete, hstep⟩ := Option.bind_eq_some_iff.mp hstep
      obtain ⟨-, rfl⟩ := Prod.mk.inj (Option.some.inj hstep)
      obtain ⟨hmem, -⟩ := System.running_spec hold
      obtain ⟨w₁, rfl, hmade⟩ := processCreateReplacement_made w env hsmall old path _ _ hrun new rfl
      obtain ⟨hinv₁, hothers₁⟩ := h.made hmade
      obtain ⟨w₂, rfl, hinv₂, hothers₂⟩ := hinv₁.deleted env (List.mem_cons_of_mem _ hmem) _ _ hdelete
      have hnew : new ≠ old := fun heq => (List.pairwise_cons.mp hinv₁.apart).1 old hmem (by rw [heq])
      have herase : (new :: live).erase old = new :: live.erase old := List.erase_cons_tail (by simpa using hnew)
      rw [herase] at hinv₂ hothers₂
      refine ⟨w₂, rfl, hinv₂, fun ps' hps' hnot => ?_⟩
      have hne : ps' ≠ old := by
        rintro rfl
        exact hnot hold
      have hmem' := List.mem_cons_of_mem new ((List.mem_erase_of_ne hne).mpr hps')
      exact ⟨hmem', (hothers₁ ps' hps').trans (hothers₂ ps' hmem')⟩
  | exit =>
      obtain ⟨ps, hps, hstep⟩ := Option.bind_eq_some_iff.mp hstep
      obtain ⟨⟨_, h'⟩, hrun, hstep⟩ := Option.bind_eq_some_iff.mp hstep
      obtain ⟨-, rfl⟩ := Prod.mk.inj (Option.some.inj hstep)
      obtain ⟨hmem, -⟩ := System.running_spec hps
      obtain ⟨w', rfl, hfrees⟩ := processDeleteResources_frees env (h.whole ps hmem).owns _ _ hrun
      obtain ⟨hinv, hothers⟩ := h.freed hmem hfrees
      refine ⟨w', rfl, hinv, fun ps' hps' hnot => ?_⟩
      have hne : ps' ≠ ps := by
        rintro rfl
        exact hnot hps
      have hmem' := (List.mem_erase_of_ne hne).mpr hps'
      exact ⟨hmem', hothers ps' hmem'⟩
  | load ps =>
      obtain ⟨_, hguard, hstep⟩ := Option.bind_eq_some_iff.mp hstep
      obtain ⟨s', hload, hstep⟩ := Option.bind_eq_some_iff.mp hstep
      obtain ⟨-, rfl⟩ := Prod.mk.inj (Option.some.inj hstep)
      have hps : ps ∈ live := by simpa [guard] using hguard
      obtain ⟨w', hw', hinv, hothers⟩ := h.load hps hload
      exact ⟨w', hw', hinv, fun ps' hps' _ => ⟨hps', hothers ps' hps'⟩⟩
  | kmalloc nbytes =>
      obtain ⟨⟨r, h'⟩, hrun, hstep⟩ := Option.bind_eq_some_iff.mp hstep
      obtain ⟨-, rfl⟩ := Prod.mk.inj (Option.some.inj hstep)
      obtain ⟨w', rfl, hkeeps, -⟩ := kmalloc_spec w env nbytes _ _ hrun
      obtain ⟨hinv, hothers⟩ := h.quiet hkeeps
      exact ⟨w', rfl, hinv, fun ps hps _ => ⟨hps, hothers ps hps⟩⟩
  | kfree ap =>
      obtain ⟨⟨r, h'⟩, hrun, hstep⟩ := Option.bind_eq_some_iff.mp hstep
      obtain ⟨-, rfl⟩ := Prod.mk.inj (Option.some.inj hstep)
      obtain ⟨w', rfl, hkeeps, -⟩ := kfree_spec w env ap _ _ hrun
      obtain ⟨hinv, hothers⟩ := h.quiet (hkeeps.mono (Set.empty_subset _) subset_rfl)
      exact ⟨w', rfl, hinv, fun ps hps _ => ⟨hps, hothers ps hps⟩⟩
  | map paddr vaddr size =>
      rw [System.step] at hstep
      obtain ⟨⟨r, h'⟩, hrun, hstep⟩ := Option.bind_eq_some_iff.mp hstep
      obtain ⟨-, rfl⟩ := Prod.mk.inj (Option.some.inj hstep)
      obtain ⟨w', rfl, hkeeps, -⟩ := mapKernelMemory_spec w paddr vaddr size _ _ hrun
      obtain ⟨hinv, hothers⟩ := h.quiet (hkeeps.mono (by simp) subset_rfl)
      exact ⟨w', rfl, hinv, fun ps hps _ => ⟨hps, hothers ps hps⟩⟩
  | write v new =>
      obtain ⟨ps, hps, hstep⟩ := Option.bind_eq_some_iff.mp hstep
      obtain ⟨e, he, hstep⟩ := Option.bind_eq_some_iff.mp hstep
      obtain ⟨_, hguard, hstep⟩ := Option.bind_eq_some_iff.mp hstep
      obtain ⟨-, rfl⟩ := Prod.mk.inj (Option.some.inj hstep)
      obtain ⟨hmem, -⟩ := System.running_spec hps
      have hrights : w.state.rights ps.pdtPaddr v = some (true, true) := by simpa [guard] using hguard
      obtain ⟨w', hw', hinv, hothers⟩ := h.write hmem (h.lt_kernel_of_rights hmem hrights) he new
      refine ⟨w', hw', hinv, fun ps' hps' hnot => ⟨hps', hothers ps' hps' ?_⟩⟩
      rintro rfl
      exact hnot hps

/-! ### Runs -/

section Runs

variable {h : Kmalloc.Heap State} {sys sys' : System} {tr : List (Trace.Transition System Action Unit)}

/-- The invariant holds in some world of the system. -/
def System.Sound (sys : System) : Prop :=
  ∃ w : World, w.heap = sys.heap ∧ Invariant w sys.live

theorem sound_of_runs (hsmall : Small env.vfs) (hsound : sys.Sound) (hrun : Trace.Runs (System.step env) sys tr sys') :
  sys'.Sound
  := by
  apply hrun.invariant hsound
  rintro x - hstep ⟨w, hw, hinv⟩
  obtain ⟨w', hw', hinv', -⟩ := step_spec hsmall hw hinv hstep
  exact ⟨w', hw', hinv'⟩

/-- The frame is mapped below the kernel in the directory of the process. -/
def System.Maps (sys : System) (ps : Ps) (f : UInt32) : Prop :=
  ∃ v < kernelStartVaddr, ∃ e, sys.state.page ps.pdtPaddr v = some e ∧ e.paddr = f

/-- The frame is on the list of the code or of the stack of the process, is in use, and is used for nothing else. -/
structure System.Exclusive (sys : System) (ps : Ps) (f : UInt32) : Prop where
  listed : f ∈ listFrames ps.image
  used : f.toNat ∉ sys.state.pfa.free
  others : ∀ ps' ∈ sys.live, ps' ≠ ps → f ∉ ps'.frames
  directory : f ≠ sys.state.kernelPdt ∧ ∀ ps' ∈ sys.live, f ≠ ps'.pdtPaddr
  kernelStack : ∀ ps' ∈ sys.live, f ∉ listFrames ps'.kernelStackPaddrs
  kernelTable : ∀ i < 1024, sys.state.has sys.state.kernelPdt i → f ≠ sys.state.table sys.state.kernelPdt i
  table : ∀ ps' ∈ sys.live, ∀ i < kernelPdtIdx, sys.state.has ps'.pdtPaddr i → f ≠ sys.state.table ps'.pdtPaddr i
  heap : ∀ r ∈ sys.heap.acquired, ∀ u : UInt32, r.Contains u.toNat → sys.state.resolve u ≠ some f

theorem Invariant.exclusive {live : List Ps} (h : Invariant w live) (hps : ps ∈ live) {f : UInt32}
    (hmaps : System.Maps ⟨w.heap, live⟩ ps f) :
  System.Exclusive ⟨w.heap, live⟩ ps f
  := by
  obtain ⟨v, hv, e, he, rfl⟩ := hmaps
  have hwhole := h.whole ps hps
  have hlabel := hwhole.user_label hv he
  obtain ⟨q, hq, hin⟩ := hwhole.only v hv e he
  refine ⟨⟨q, hq, hin⟩, (w.labelled.held _ _ hlabel).2, ?_, ⟨w.labelled.ne_pdt hlabel, ?_⟩, ?_, ?_, ?_, ?_⟩
  · intro ps' hps' hne hin'
    have hsymm : Std.Symm fun p q : Ps => p.pdtPaddr ≠ q.pdtPaddr := ⟨fun _ _ => Ne.symm⟩
    have hne' := h.apart.forall hps hps' hne.symm
    rcases (h.whole ps' hps').label hin' with hl | hl | hl
    all_goals
      rw [hlabel] at hl
      simp [hne'] at hl
  · intro ps' hps' heq
    rw [heq, (h.whole ps' hps').own] at hlabel
    simp at hlabel
  · rintro ps' hps' ⟨q', hq', k, hk, heq⟩
    rw [heq, (h.whole ps' hps').kernelStack q' hq' k hk] at hlabel
    simp at hlabel
  · exact fun i hi hhas => w.labelled.ne_kernelTable hlabel (by simp) hi hhas
  · intro ps' hps' i hi hhas heq
    rw [heq, (w.labelled.dirs _ (h.whole ps' hps').own).table i hi hhas] at hlabel
    simp at hlabel
  · intro r hr u hu hres
    obtain ⟨e', he', hown⟩ := h.heap r hr u hu
    rw [State.resolve, ← World.page, he', Option.map_some, Option.some.injEq] at hres
    rw [hres, hlabel] at hown
    simp at hown

/-- What a process may access is what its directory maps below the kernel. -/
theorem Invariant.rights {live : List Ps} (h : Invariant w live) (hps : ps ∈ live) (v : UInt32) :
  (∃ b, w.state.rights ps.pdtPaddr v = some (b, true)) ↔
    v < kernelStartVaddr ∧ (w.state.page ps.pdtPaddr v).isSome
  := by
  constructor
  · rintro ⟨b, hrights⟩
    refine ⟨h.lt_kernel_of_rights hps hrights, ?_⟩
    obtain ⟨e, he, -⟩ := Option.map_eq_some_iff.mp hrights
    rw [he, Option.isSome_some]
  · rintro ⟨hv, hsome⟩
    obtain ⟨e, he⟩ := Option.isSome_iff_exists.mp hsome
    have hopen := (h.whole ps hps).access
    have hhas : w.state.has ps.pdtPaddr (virtualToPdtIdx v) := by
      by_contra hnot
      rw [State.page_of_not_has hnot] at he
      simp at he
    obtain ⟨huser, hwritable⟩ := hopen.slot _ (virtualToPdtIdx_lt_kernel hv) hhas
    obtain ⟨huser', hwritable'⟩ := hopen.page v hv e he
    exact ⟨true, by rw [State.rights, he, Option.map_some, huser, hwritable, huser', hwritable']; rfl⟩

/-- In every state that is reached from one with only the kernel's first page table: a process that lives may access
what its directory maps below the kernel, and nothing else; and the frames that are mapped there are its own. -/
theorem isolation (hsmall : Small env.vfs) (hboot : Booted h)
    (hrun : Trace.Runs (System.step env) ⟨h, []⟩ tr sys) (hps : ps ∈ sys.live) :
  (∀ v, (∃ b, sys.state.rights ps.pdtPaddr v = some (b, true)) ↔
      v < kernelStartVaddr ∧ (sys.state.page ps.pdtPaddr v).isSome) ∧
    ∀ f, sys.Maps ps f → sys.Exclusive ps f
  := by
  have hsound : System.Sound ⟨h, []⟩ := hboot.invariant
  obtain ⟨heap, live⟩ := sys
  obtain ⟨w, rfl, hinv⟩ := sound_of_runs hsmall hsound hrun
  exact ⟨hinv.rights hps, fun f hf => hinv.exclusive hps hf⟩

namespace Boot

theorem booted :
  Booted heap
  := by
  have hhas : ∀ i, heap.kernel.has heap.kernel.kernelPdt i ↔ i = 768 := by
    intro i
    constructor
    · intro hhas
      simp only [State.has, heap, heapOn, state] at hhas
      split_ifs at hhas with h
      · exact h.2
      · simp at hhas
    · rintro rfl
      decide
  refine ⟨?_, by decide, by decide, by decide, fun i _ => hhas i, by decide, by decide, rfl⟩
  constructor
  · simp [heap, heapOn, state]
  · simp [heap, heapOn, state, Frames.Ascending]
  · simp [heap, heapOn, state, oneMb]
  · simp [heap, heapOn, state]
  · simp [heap, heapOn, state]
  · simp [heap, heapOn, state]

theorem small :
  Small files.vfs
  := by
  intro path node size _ hsize
  obtain rfl := Option.some.inj hsize
  decide

/-- The system with the first process, which runs, and its clone. -/
def twins : System :=
  ⟨heapOn taken₈ both, [clone, init]⟩

/-- The first process is made and its directory is loaded. -/
theorem exists_load :
  ∃ tr, Trace.Runs (System.step files) ⟨heap, []⟩ tr ⟨heapOn taken₄ running, [init]⟩
  := by
  have hload : System.step files ⟨heapOn taken₄ whole, [init]⟩ (.load init) =
      some ((), ⟨heapOn taken₄ running, [init]⟩) := step_load (List.mem_singleton_self init) run_load
  exact ⟨_, Trace.Runs.cons (step_create (run_create [])) (Trace.Runs.cons hload Trace.Runs.nil)⟩

theorem sound_running :
  System.Sound ⟨heapOn taken₄ running, [init]⟩
  := by
  obtain ⟨tr, hrun⟩ := exists_load
  have hsound : System.Sound ⟨heap, []⟩ := booted.invariant
  exact sound_of_runs small hsound hrun

/-- It clones itself. -/
theorem exists_run :
  ∃ tr, Trace.Runs (System.step files) ⟨heap, []⟩ tr twins
  := by
  obtain ⟨tr, hrun⟩ := exists_load
  have hrunning : System.running ⟨heapOn taken₄ running, [init]⟩ = some init := by rfl
  have hclone : System.step files ⟨heapOn taken₄ running, [init]⟩ (.clone 2) = some ((), twins) :=
    step_clone hrunning run_clone
  exact ⟨_, hrun.concat hclone⟩

/-- The directory of the clone is loaded, and it writes to the first page of its code. -/
theorem exists_write :
  ∃ sys₁, System.step files twins (.load clone) = some ((), sys₁) ∧ sys₁.running = some clone ∧
    ∃ sys₂, System.step files sys₁ (.write 0 fun _ => Entry.zero) = some ((), sys₂) ∧
      sys₂.state.mem 0x208000 ≠ twins.state.mem 0x208000
  := by
  have hres : both.resolve 0xC0002000 = some 0x207000 := by decide +kernel
  have hload := pdtLoadProcessPdt_eq (by decide) hres
  have hrunning : System.running ⟨heapOn taken₈ (State.loaded both 0x207000), [clone, init]⟩ = some clone := by rfl
  have hpage : (State.loaded both 0x207000).page 0x207000 0 = some (createPtEntry 0x208000 pagingReadWrite pagingPl3) :=
    by decide +kernel
  have hrights : (State.loaded both 0x207000).rights 0x207000 0 = some (true, true) := by decide +kernel
  refine ⟨_, step_load List.mem_cons_self hload, hrunning, _, step_write hrunning hpage hrights, fun heq => ?_⟩
  have hentry := congrFun heq 0
  revert hentry
  decide +kernel

end Boot

/-- The second page of the code is exclusive to the first process, and its copy to the clone. -/
theorem isolation_boot :
  (Boot.twins.Maps Boot.init 0x202000 ∧ Boot.twins.Exclusive Boot.init 0x202000) ∧
    Boot.twins.Maps Boot.clone 0x209000 ∧ Boot.twins.Exclusive Boot.clone 0x209000
  := by
  obtain ⟨tr, hrun⟩ := Boot.exists_run
  have hinit : Boot.twins.Maps Boot.init 0x202000 :=
    ⟨0x1000, by decide, createPtEntry 0x202000 pagingReadWrite pagingPl3, by decide +kernel, by decide⟩
  have hclone : Boot.twins.Maps Boot.clone 0x209000 :=
    ⟨0x1000, by decide, createPtEntry 0x209000 pagingReadWrite pagingPl3, by decide +kernel, by decide⟩
  have hmem : Boot.init ∈ Boot.twins.live ∧ Boot.clone ∈ Boot.twins.live := by simp [Boot.twins]
  exact ⟨⟨hinit, (isolation Boot.small Boot.booted hrun hmem.1).2 _ hinit⟩,
    hclone, (isolation Boot.small Boot.booted hrun hmem.2).2 _ hclone⟩

/-- From every state that is reached on, the address space of a process and its memory stay what they are as long as
the process itself neither writes nor ends, whatever else happens: other processes are made, cloned from this one
or others, ended and replaced, write to their memory, and the kernel takes memory for its heap. -/
theorem memory_undisturbed (hsmall : Small env.vfs) (hboot : Booted h)
    {before : List (Trace.Transition System Action Unit)} (hbefore : Trace.Runs (System.step env) ⟨h, []⟩ before sys)
    (hrun : Trace.Runs (System.step env) sys tr sys') (hps : ps ∈ sys.live)
    (hidle : ∀ x ∈ tr, ¬ x.event.Touches x.before ps) :
  ps ∈ sys'.live ∧ Undisturbed sys.state sys'.state ps
  := by
  have hboot' : System.Sound ⟨h, []⟩ := hboot.invariant
  have hsound := sound_of_runs hsmall hboot' hbefore
  suffices hall : sys'.Sound ∧ ps ∈ sys'.live ∧ Undisturbed sys.state sys'.state ps from hall.2
  apply hrun.invariant (I := fun sys' => sys'.Sound ∧ ps ∈ sys'.live ∧ Undisturbed sys.state sys'.state ps)
  · exact ⟨hsound, hps, fun _ _ => rfl, fun _ _ _ _ => rfl⟩
  · rintro x hx hstep ⟨⟨w, hw, hinv⟩, hmem, hsame⟩
    obtain ⟨w', hw', hinv', hothers⟩ := step_spec hsmall hw hinv hstep
    obtain ⟨hmem', hsame'⟩ := hothers ps hmem (hidle x hx)
    rw [World.state, World.state, hw, hw'] at hsame'
    exact ⟨⟨w', hw', hinv'⟩, hmem', hsame.trans hsame'⟩

/-- The clone is loaded and writes to its memory; that of the first process stays. -/
theorem memory_undisturbed_boot :
  ∃ sys₁ sys₂ : System, System.step Boot.files Boot.twins (.load Boot.clone) = some ((), sys₁) ∧
    System.step Boot.files sys₁ (.write 0 fun _ => Entry.zero) = some ((), sys₂) ∧
    sys₂.state.mem 0x208000 ≠ Boot.twins.state.mem 0x208000 ∧ Undisturbed Boot.twins.state sys₂.state Boot.init
  := by
  obtain ⟨tr, hrun⟩ := Boot.exists_run
  obtain ⟨sys₁, hload, hrunning, sys₂, hwrite, hmem⟩ := Boot.exists_write
  refine ⟨sys₁, sys₂, hload, hwrite, hmem, ?_⟩
  refine (memory_undisturbed Boot.small Boot.booted hrun (Trace.Runs.cons hload (Trace.Runs.cons hwrite Trace.Runs.nil))
    (by simp [Boot.twins]) ?_).2
  intro x hx
  rcases List.mem_pair.mp hx with rfl | rfl
  · simp [Action.Touches]
  · simp only [Action.Touches, hrunning]
    decide

end Runs

end Process
