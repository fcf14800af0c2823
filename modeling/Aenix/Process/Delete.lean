import Aenix.Process.Standing

/-!
# Deleting a process

`IS_ENTRY_PAGE_TABLE` holds of no present entry, so that `pdt_delete` frees no page table; and
`process_delete_resources` leaves the page of the kernel where the directory is mapped, be the process complete
(`Alive.deleted`) or not (`processDeleteAndFree_resolve`).
-/

open Aenix
open Paging hiding Call exec Step

namespace Process

variable {s s' : State} {ps : Ps} {h : Kmalloc.Heap State} {f p : UInt32} {pfa : Pfa.State}

/-! ### Processes that can be deleted -/

/-- A frame of the allocator that is in use, but not for the kernel's directory or its page tables. -/
structure Held (s : State) (f : UInt32) : Prop where
  managed : f.toNat ∈ s.pfa.frames
  used : f.toNat ∉ s.pfa.free
  ne_pdt : f ≠ s.kernelPdt
  ne_pt : f ≠ s.kernelPt
  ne_table : ∀ i < 1024, s.has s.kernelPdt i → f ≠ s.table s.kernelPdt i

/-- The kernel is in order, and has the directory of the process and its stack mapped to different frames that are
not the kernel's own. -/
structure Alive (s : State) (ps : Ps) : Prop where
  kernel : KernelState s
  pdt : s.resolve ps.pdt = some ps.pdtPaddr
  pdt_tmp : ¬ IsTmp ps.pdt
  pdt_held : Held s ps.pdtPaddr
  stack : ∃ a p, ps.kernelStackPaddrs = [⟨a, p, 1⟩] ∧ s.resolve ps.kernelStackStartVaddr = some p ∧
    p ≠ ps.pdtPaddr ∧ Held s p
  stack_tmp : ¬ IsTmp ps.kernelStackStartVaddr

theorem Labelled.held_of_label {own : Labels} {t : Tag} (h : Labelled s own) (hf : own f = some t)
    (ht : t ≠ .kernelTable) :
  Held s f
  := by
  obtain ⟨hmanaged, hused⟩ := h.held f t hf
  exact ⟨hmanaged, hused, h.ne_pdt hf, h.ne_pt hf, fun i hi hhas => h.ne_kernelTable hf ht hi hhas⟩

theorem Standing.alive {w : World} (h : Standing w ps) :
  Alive w.state ps
  := by
  obtain ⟨a, p, hlist, hown, hres⟩ := h.stack
  have hpdt := h.pdt.dir.own
  refine ⟨w.labelled.kernelState, h.pdt.pdt, h.pdt_tmp, w.labelled.held_of_label hpdt (by simp),
    ⟨a, p, hlist, hres, ?_, w.labelled.held_of_label hown (by simp)⟩, h.stack_tmp⟩
  rintro rfl
  rw [hpdt] at hown
  simp at hown

/-! ### Freeing -/

/-- The kernel stays in order when a frame is freed that it does not use itself. -/
theorem Held.kernelState (hf : Held s f) (hs : KernelState s) (hmap : Pfa.SameMap s.pfa pfa)
    (hfree : pfa.free = insert f.toNat s.pfa.free) :
  KernelState { s with pfa := pfa }
  := by
  have hused : ∀ g : UInt32, g ≠ f → g.toNat ∉ s.pfa.free → g.toNat ∉ pfa.free := by
    intro g hne hg hin
    rw [hfree] at hin
    exact hin.elim (fun heq => hne (UInt32.toNat_inj.mp heq)) hg
  obtain ⟨hpfa, ⟨⟨hpdt, hpt, hne, htable, hself, hinj⟩, htmp⟩, hmanaged⟩ := hs
  refine ⟨hmap.frameMap hpfa, ⟨⟨?_, ?_, hne, ?_, hself, hinj⟩, htmp⟩, ?_⟩
  · exact hused _ hf.ne_pdt.symm hpdt
  · exact hused _ hf.ne_pt.symm hpt
  · exact fun i hi hhas => hused _ (hf.ne_table i hi hhas).symm (htable i hi hhas)
  · intro i hi hidx hhas
    rw [hmap.frames]
    exact hmanaged i hi hidx hhas

theorem Held.free (h : Held s p) (hne : p ≠ f) (hmap : Pfa.SameMap s.pfa pfa)
    (hfree : pfa.free = insert f.toNat s.pfa.free) :
  Held { s with pfa := pfa } p
  := by
  refine ⟨?_, ?_, h.ne_pdt, h.ne_pt, h.ne_table⟩
  · rw [hmap.frames]
    exact h.managed
  · rw [hfree]
    exact fun hin => hin.elim (fun heq => hne (UInt32.toNat_inj.mp heq)) h.used

/-- `pdt_delete` frees no page table. -/
theorem pdtDeleteTables_eq (s : State) (d : UInt32) :
  pdtDeleteTables s d = s
  := by
  simp [pdtDeleteTables, isEntryPageTable_eq_not]

/-- `pdt_delete` frees the frame that the page of the directory is mapped to. -/
theorem pdtDelete_eq (s : State) (pdt : UInt32) :
  pdtDelete s pdt = (s.resolve pdt).map fun _ =>
    { (getPdtPaddr s pdt).2 with pfa := Pfa.pfaFree (getPdtPaddr s pdt).2.pfa (getPdtPaddr s pdt).1 }
  := by
  simp only [pdtDelete, pdtDeleteTables_eq]

theorem pdtDelete_eq_fun :
  pdtDelete = fun s pdt => (s.resolve pdt).map fun _ =>
    { (getPdtPaddr s pdt).2 with pfa := Pfa.pfaFree (getPdtPaddr s pdt).2.pfa (getPdtPaddr s pdt).1 }
  := by
  funext s pdt
  exact pdtDelete_eq s pdt

/-- `pdt_delete` does not write to memory. -/
theorem pdtDelete_state {pdt : UInt32} (hrun : pdtDelete s pdt = some s') :
  ∃ pfa, s' = { s with pfa := pfa }
  := by
  rw [pdtDelete_eq] at hrun
  obtain ⟨d, -, rfl⟩ := Option.map_eq_some_iff.mp hrun
  simp only [getPdtPaddr, restore_map]
  exact ⟨_, rfl⟩

theorem dvd_of_resolve {v : UInt32} (hres : s.resolve v = some f) :
  4096 ∣ f.toNat
  := by
  obtain ⟨e, -, rfl⟩ := Option.map_eq_some_iff.mp hres
  exact e.dvd_paddr

theorem Held.pfaFree (hs : KernelState s) (hf : Held s f) (hdvd : 4096 ∣ f.toNat) :
  Pfa.SameMap s.pfa (Pfa.pfaFree s.pfa f) ∧ (Pfa.pfaFree s.pfa f).free = insert f.toNat s.pfa.free
  := by
  rw [← frameOf_of_dvd hdvd]
  apply hs.pfa.pfaFree_free
  · rw [frameOf_of_dvd hdvd]
    exact hf.managed
  · rw [frameOf_of_dvd hdvd]
    exact hf.used

/-- `pdt_delete` of a directory that is not mapped at the temporary page frees it. -/
theorem pdtDelete_run {pdt : UInt32} (hs : KernelState s) (hres : s.resolve pdt = some f) (htmp : ¬ IsTmp pdt) :
  pdtDelete s pdt = some { s with pfa := Pfa.pfaFree s.pfa f }
  := by
  have hget : getPdtPaddr s pdt = (f, s) := by
    apply getPdtPaddr_spec hres
    intro htable hidx
    have hhas : s.has s.kernelPdt (virtualToPdtIdx pdt) := by
      by_contra hnot
      rw [State.resolve, State.page_of_not_has hnot] at hres
      simp at hres
    exact htmp ⟨hs.dir.table_pt _ (virtualToPdtIdx_lt _) hhas htable, hidx⟩
  rw [pdtDelete_eq, hres, Option.map_some, hget]

/-- `pdt_delete` frees the directory. -/
theorem Alive.pdtDelete (hs : Alive s ps) :
  pdtDelete s ps.pdt = some { s with pfa := Pfa.pfaFree s.pfa ps.pdtPaddr }
  := pdtDelete_run hs.kernel hs.pdt hs.pdt_tmp

/-- `pfa_free_cont` and `kfree` in a round of `delete_paddr_list`. -/
theorem freeElement_kernel (env : Env) (e : PaddrEle) (h : Kmalloc.Heap State) :
  After (do pfaFreeCont e.paddr e.count; kfree env e.addr) h fun _ h' =>
    h'.kernel = { h.kernel with pfa := Pfa.pfaFreeCont h.kernel.pfa e.paddr e.count }
  := by
  refine After.bind (P := fun _ h₁ => h₁.kernel =
    { h.kernel with pfa := Pfa.pfaFreeCont h.kernel.pfa e.paddr e.count }) ?_ ?_
  · intro _ h₁ hrun
    rw [← (Prod.mk.inj (Option.some.inj hrun)).2]
  · intro _ h₁ hfree _ h₂ hrun
    obtain ⟨h', hkfree, heq⟩ := Option.map_eq_some_iff.mp hrun
    rw [← (Prod.mk.inj heq).2, (Kmalloc.kfree_kernel hkfree).1, hfree]

theorem deletePaddrList_cons (env : Env) (e : PaddrEle) (es : List PaddrEle) (n : UInt32) :
  deletePaddrList env (e :: es) n = (do
    (do pfaFreeCont e.paddr e.count; kfree env e.addr)
    deletePaddrList env es (n + e.count))
  := by
  rw [deletePaddrList, bind_assoc]

/-- Freeing a list of frames does not write to memory. -/
theorem deletePaddrList_kernel (env : Env) (es : List PaddrEle) (n : UInt32) (h : Kmalloc.Heap State) :
  After (deletePaddrList env es n) h fun _ h' => ∃ pfa, h'.kernel = { h.kernel with pfa := pfa }
  := by
  induction es generalizing n h with
  | nil => exact After.pure ⟨h.kernel.pfa, rfl⟩
  | cons e es ih =>
      rw [deletePaddrList_cons]
      refine After.bind (freeElement_kernel env e h) ?_
      intro _ h₁ hfree
      refine After.mono (ih _ h₁) ?_
      rintro _ h₂ ⟨pfa, heq⟩
      exact ⟨pfa, by rw [heq, hfree]⟩

/-- A list with one frame. -/
theorem deletePaddrList_one (env : Env) (a p : UInt32) (h : Kmalloc.Heap State) :
  After (deletePaddrList env [⟨a, p, 1⟩] 0) h fun r h' => r = 4096 ∧
    h'.kernel = { h.kernel with pfa := Pfa.pfaFree h.kernel.pfa p }
  := by
  rw [deletePaddrList_cons]
  refine After.bind (freeElement_kernel env _ h) ?_
  intro _ h₁ hfree
  refine After.pure ⟨(by decide : (0 + 1) * fourKb = 4096), ?_⟩
  rw [hfree]
  simp [Pfa.pfaFreeCont]

/-! ### What is left -/

/-- The pages of the kernel at and above the directory of a process stay when its stack is unmapped. -/
theorem unmap_stack_page (hs : KernelState s) {u v r : UInt32} {n : ℕ} (hu : s.resolve u = some f)
    (hv : s.resolve v = some p) (hne : p ≠ f) (htmp : ¬ IsTmp v)
    (hrun : pdtUnmapKernelMemory n s v 4096 = some (r, s')) :
  s'.resolve u = some f
  := by
  have hone : pages 4096 = 1 := by decide
  have hhas : s.has s.kernelPdt (virtualToPdtIdx v) := by
    by_contra hnot
    rw [State.resolve, State.page_of_not_has hnot] at hv
    simp at hv
  have hlt := virtualToPtIdx_lt v
  have hvars := (pdtUnmapMemory_spec hs.pfa hs.dir hs.managed hrun).vars
  rw [State.resolve, hvars.kernelPdt, pdtUnmapMemory_outside hs.dir hhas (by omega) (by omega) ?_ hrun, ← State.resolve]
  · exact hu
  · -- the pages have different frames
    intro hoff
    have hsame := (pageOff_lt_iff (by omega)).mp hoff
    have hidx : virtualToPtIdx u = virtualToPtIdx v := by omega
    rw [State.resolve, State.page, hsame.1, hidx, ← State.page, ← State.resolve, hv] at hu
    exact hne (Option.some.inj hu)
  · intro hi
    by_contra hgt
    exact htmp ⟨hi, by rw [kernelTmpPtIdx] at hgt ⊢; omega⟩

/-- Deleting the code and the stack of a process does not write to memory. -/
theorem deleteImage_resolve {u : UInt32} (env : Env) (ps : Ps) (hu : h.kernel.resolve u = some f) :
  After (do
    let _ ← deletePaddrList env ps.codePaddrs 0
    let _ ← deletePaddrList env ps.stackPaddrs 0) h fun _ h' => h'.kernel.resolve u = some f
  := by
  refine After.bind (deletePaddrList_kernel env ps.codePaddrs 0 h) ?_
  rintro _ h₁ ⟨pfa₁, hkernel₁⟩
  refine After.bind (deletePaddrList_kernel env ps.stackPaddrs 0 h₁) ?_
  rintro _ h₂ ⟨pfa₂, hkernel₂⟩
  apply After.pure
  rw [hkernel₂, hkernel₁]
  exact hu

/-- The kernel still has the directory mapped when the resources of the process have been deleted. -/
theorem Alive.deleted (hs : Alive h.kernel ps) (env : Env) :
  After (processDeleteResources env ps) h fun _ h' => h'.kernel.resolve ps.pdt = some ps.pdtPaddr
  := by
  obtain ⟨a, p, hlist, hstack, hne, hheld⟩ := hs.stack
  have hrest : ∀ h₁ : Kmalloc.Heap State, KernelState h₁.kernel → Held h₁.kernel p →
      h₁.kernel.resolve ps.pdt = some ps.pdtPaddr → h₁.kernel.resolve ps.kernelStackStartVaddr = some p →
      After (do
        if ps.kernelStackStartVaddr ≠ 0 then
          let size ← deletePaddrList env ps.kernelStackPaddrs 0
          let _ ← unmapKernelMemory env ps.kernelStackStartVaddr size
        let _ ← deletePaddrList env ps.codePaddrs 0
        let _ ← deletePaddrList env ps.stackPaddrs 0) h₁ fun _ h' => h'.kernel.resolve ps.pdt = some ps.pdtPaddr := by
    intro h₁ hkernel hheld₁ hpdt hstack₁
    dsimp only
    refine After.ite (fun _ => ?_) fun _ => deleteImage_resolve env ps hpdt
    rw [hlist]
    refine After.bind (deletePaddrList_one env a p h₁) ?_
    rintro size h₂ ⟨rfl, hkernel₂⟩
    obtain ⟨hmap, hfree⟩ := hheld₁.pfaFree hkernel (dvd_of_resolve hstack₁)
    refine After.bind (P := fun _ h₃ => h₃.kernel.resolve ps.pdt = some ps.pdtPaddr) ?_
      fun _ h₃ h => deleteImage_resolve env ps h
    intro r h₃ hrun
    obtain ⟨⟨r', s₃⟩, hunmap, heq⟩ := Option.map_eq_some_iff.mp hrun
    rw [← (Prod.mk.inj heq).2]
    rw [hkernel₂] at hunmap
    exact unmap_stack_page (hheld₁.kernelState hkernel hmap hfree) hpdt hstack₁ hne hs.stack_tmp hunmap
  unfold processDeleteResources
  refine After.ite (fun _ => ?_) fun _ => hrest h hs.kernel hheld hs.pdt hstack
  refine After.bind (P := fun _ h₁ => h₁.kernel = { h.kernel with pfa := Pfa.pfaFree h.kernel.pfa ps.pdtPaddr }) ?_ ?_
  · intro _ h₁ hrun
    obtain ⟨⟨_, s₁⟩, hdelete, heq⟩ := Option.map_eq_some_iff.mp hrun
    simp only [hs.pdtDelete, Option.map_some] at hdelete
    rw [← (Prod.mk.inj heq).2, ← (Prod.mk.inj (Option.some.inj hdelete)).2]
  · intro _ h₁ hkernel₁
    obtain ⟨hmap, hfree⟩ := hs.pdt_held.pfaFree hs.kernel (dvd_of_resolve hs.pdt)
    apply hrest h₁
    · rw [hkernel₁]
      exact hs.pdt_held.kernelState hs.kernel hmap hfree
    · rw [hkernel₁]
      exact hheld.free hne hmap hfree
    · rw [hkernel₁]
      exact hs.pdt
    · rw [hkernel₁]
      exact hstack

/-- `process_delete_and_free` of a process without a stack in the kernel does not write to memory. -/
theorem processDeleteAndFree_resolve {u : UInt32} (env : Env) (hstack : ps.kernelStackStartVaddr = 0)
    (hu : h.kernel.resolve u = some f) :
  After (processDeleteAndFree env ps) h fun _ h' => h'.kernel.resolve u = some f
  := by
  unfold processDeleteAndFree processDeleteResources
  refine After.bind (P := fun _ h₁ => h₁.kernel.resolve u = some f) ?_ ?_
  · have himage : ∀ h₁ : Kmalloc.Heap State, h₁.kernel.resolve u = some f → After (do
        if ps.kernelStackStartVaddr ≠ 0 then
          let size ← deletePaddrList env ps.kernelStackPaddrs 0
          let _ ← unmapKernelMemory env ps.kernelStackStartVaddr size
        let _ ← deletePaddrList env ps.codePaddrs 0
        let _ ← deletePaddrList env ps.stackPaddrs 0) h₁ fun _ h' => h'.kernel.resolve u = some f := by
      intro h₁ hu₁
      rw [if_neg (not_not.mpr hstack)]
      exact deleteImage_resolve env ps hu₁
    refine After.ite (fun _ => ?_) fun _ => himage h hu
    refine After.bind (P := fun _ h₁ => h₁.kernel.resolve u = some f) ?_ fun _ h₁ => himage h₁
    intro _ h₁ hrun
    obtain ⟨⟨_, s₁⟩, hdelete, heq⟩ := Option.map_eq_some_iff.mp hrun
    obtain ⟨s₂, hdelete, heq'⟩ := Option.map_eq_some_iff.mp hdelete
    obtain ⟨pfa, rfl⟩ := pdtDelete_state hdelete
    rw [← (Prod.mk.inj heq).2, ← (Prod.mk.inj heq').2]
    exact hu
  · intro _ h₁ hu₁
    refine After.mono (kfree_resolve env ps.addr u h₁) ?_
    exact fun _ h₂ hres => hres.trans hu₁

/-- A complete process is deleted and freed. -/
theorem Alive.freed (hs : Alive h.kernel ps) (env : Env) :
  After (processDeleteAndFree env ps) h fun _ h' => h'.kernel.resolve ps.pdt = some ps.pdtPaddr
  := by
  refine After.bind (hs.deleted env) ?_
  intro _ h₁ hres
  refine After.mono (kfree_resolve env ps.addr ps.pdt h₁) ?_
  exact fun _ h₂ hres' => hres'.trans hres

end Process
