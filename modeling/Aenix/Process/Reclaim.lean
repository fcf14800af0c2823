import Aenix.Process.Built

/-!
# What deleting a process leaves

`process_delete_resources` does not undo what was done to build a process: whatever process has been built, the kernel
still has its directory mapped (`process_never_reclaimed`).
-/

open Aenix
open Paging hiding Call exec Step

namespace Process

variable {s s' : State} {ps : Ps} {env : Env} {h h₁ h₂ : Kmalloc.Heap State}

/-! ### The life of a process -/

/-- Loading the directory of a process writes to that directory only. -/
theorem Alive.load (hs : Alive s ps) (hload : pdtLoadProcessPdt s ps.pdt ps.pdtPaddr = some s') :
  Alive s' ps
  := by
  obtain ⟨a, p, hlist, hstack, hne, hheld⟩ := hs.stack
  have hpdt := hs.pdt_held.ne_pdt
  rw [pdtLoadProcessPdt, hs.pdt, Option.map_some, copyKernelEntries_eq hpdt] at hload
  obtain rfl := Option.some.inj hload
  have hmem : ∀ f, f ≠ ps.pdtPaddr → Function.update s.mem ps.pdtPaddr (s.kernelCopied ps.pdtPaddr) f = s.mem f :=
    fun f hf => Function.update_of_ne hf _ _
  have hdir := hmem _ hpdt.symm
  have hresolve : ∀ v, (pdtSet (s.fill ps.pdtPaddr (s.kernelCopied ps.pdtPaddr)) ps.pdtPaddr).resolve v =
      s.resolve v := by
    intro v
    simp only [State.resolve]
    congr 1
    apply State.page_congr (congrFun hdir _)
    intro hhas
    exact congrFun (hmem _ (hs.pdt_held.ne_table _ (virtualToPdtIdx_lt v) hhas).symm) _
  have hkept : ∀ {f}, Held s f → Held (pdtSet (s.fill ps.pdtPaddr (s.kernelCopied ps.pdtPaddr)) ps.pdtPaddr) f := by
    intro f hf
    refine ⟨hf.managed, hf.used, hf.ne_pdt, hf.ne_pt, ?_⟩
    simp only [pdtSet, State.fill, State.has, State.table, hdir]
    exact hf.ne_table
  refine ⟨⟨hs.kernel.pfa, hs.kernel.dir.congr hdir subset_rfl rfl, ?_⟩, ?_, hs.pdt_tmp, hkept hs.pdt_held,
    ⟨a, p, hlist, ?_, hne, hkept hheld⟩, hs.stack_tmp⟩
  · intro i hi hidx
    simp only [pdtSet, State.fill, State.has, State.table, hdir]
    exact hs.kernel.managed i hi hidx
  · rw [hresolve]
    exact hs.pdt
  · rw [hresolve]
    exact hstack

/-- The heap after the process was built, its directory has been loaded any number of times, and whatever leaves the
process alive has happened. -/
inductive Later (ps : Ps) (h : Kmalloc.Heap State) : Kmalloc.Heap State → Prop
  | built : Later ps h h
  | load {h' : Kmalloc.Heap State} {s : State} (hlater : Later ps h h')
      (hload : pdtLoadProcessPdt h'.kernel ps.pdt ps.pdtPaddr = some s) : Later ps h { h' with kernel := s }
  | other {h' h'' : Kmalloc.Heap State} (hlater : Later ps h h')
      (halive : Alive h'.kernel ps → Alive h''.kernel ps) : Later ps h h''

/-- A process that has been built is alive later. -/
theorem Later.alive (hlater : Later ps h₁ h) (hbuilt : Built env ps h₁) :
  Alive h.kernel ps
  := by
  induction hlater with
  | built =>
      obtain ⟨⟨w, rfl, hstanding⟩, -⟩ := hbuilt.standing
      exact hstanding.alive
  | load _ hload ih => exact ih.load hload
  | other _ halive ih => exact halive ih

/-- What deleting the resources of a process is to do: of the frames, those of the process and the page tables of its
user half become free, and the kernel no longer has its directory and its stack mapped. -/
structure Reclaimed (s s' : State) (ps : Ps) : Prop where
  freed : ∀ f : UInt32, f.toNat ∈ s'.pfa.free ↔ f.toNat ∈ s.pfa.free ∨ f ∈ ps.frames ∨
    ∃ i < kernelPdtIdx, s.has ps.pdtPaddr i ∧ f = s.table ps.pdtPaddr i
  kernelTable : ∀ i < 1024, s.has s.kernelPdt i → (s.table s.kernelPdt i).toNat ∉ s'.pfa.free
  pdt : s'.resolve ps.pdt = none
  kernelStack : s'.resolve ps.kernelStackStartVaddr = none

/-- Whatever process has been built and whatever has happened since, `process_delete_resources` does not reclaim
it. -/
theorem process_never_reclaimed (hbuilt : Built env ps h₁) (hlater : Later ps h₁ h₂) :
  ¬ ∃ h₃, processDeleteResources env ps h₂ = some ((), h₃) ∧ Reclaimed h₂.kernel h₃.kernel ps
  := by
  rintro ⟨h₃, hrun, hreclaimed⟩
  have hpdt : h₃.kernel.resolve ps.pdt = some ps.pdtPaddr := (hlater.alive hbuilt).deleted env () h₃ hrun
  rw [hreclaimed.pdt] at hpdt
  simp at hpdt

namespace OneFrame

/-- A kernel with sixteen frames, of which a process has the first four: its directory, the page table and the
frame of its code, and its stack in the kernel. -/
def state : State where
  pfa := ⟨fun i => if i = 0 then 0x0FFF0000 else 0, 16, [⟨0x200000, 0x10000⟩]⟩
  mem := fun f i =>
    if f = 0x101000 ∧ i = 768 then createPdtEntry 0x102000 ps4Kb pagingReadWrite pagingPl0
    else if f = 0x102000 ∧ i = 0 then createPtEntry 0x200000 pagingReadWrite pagingPl0
    else if f = 0x102000 ∧ i = 1 then createPtEntry 0x203000 pagingReadWrite pagingPl0
    else if f = 0x200000 ∧ i = 0 then createPdtEntry 0x201000 ps4Kb pagingReadWrite pagingPl3
    else if f = 0x201000 ∧ i = 0 then createPtEntry 0x202000 pagingReadWrite pagingPl3
    else Entry.zero
  kernelPdt := 0x101000
  kernelPt := 0x102000
  cr3 := 0x200000

/-- The heap, with one free block. -/
def heap : Kmalloc.Heap State where
  mem := fun a => if a = 0xC0108000 then ⟨0xD0000000, 0⟩ else ⟨0xC0108000, 1024⟩
  freep := 0xC0108000
  acquired := []
  kernel := state

/-- What the frames are used for. -/
def own : Labels := fun f =>
  if f = 0x200000 then some (.pdt 0x200000)
  else if f = 0x201000 then some (.table 0x200000)
  else if f = 0x202000 then some (.user 0x200000)
  else if f = 0x203000 then some (.kernelStack 0x200000)
  else none

theorem own_eq_some {f : UInt32} {t : Tag} (h : own f = some t) :
  (f = 0x200000 ∧ t = .pdt 0x200000) ∨ (f = 0x201000 ∧ t = .table 0x200000) ∨
    (f = 0x202000 ∧ t = .user 0x200000) ∨ (f = 0x203000 ∧ t = .kernelStack 0x200000)
  := by
  simp only [own] at h
  split_ifs at h with h₁ h₂ h₃ h₄
  · exact Or.inl ⟨h₁, (Option.some.inj h).symm⟩
  · exact Or.inr (Or.inl ⟨h₂, (Option.some.inj h).symm⟩)
  · exact Or.inr (Or.inr (Or.inl ⟨h₃, (Option.some.inj h).symm⟩))
  · exact Or.inr (Or.inr (Or.inr ⟨h₄, (Option.some.inj h).symm⟩))

/-- The entries that are there. -/
theorem has_state {f : UInt32} {i : ℕ} (h : state.has f i) :
  (f = 0x101000 ∧ i = 768) ∨ f = 0x102000 ∨ (f = 0x200000 ∧ i = 0) ∨ (f = 0x201000 ∧ i = 0)
  := by
  simp only [State.has, state] at h
  split_ifs at h with h₁ h₂ h₃ h₄ h₅
  · exact Or.inl h₁
  · exact Or.inr (Or.inl h₂.1)
  · exact Or.inr (Or.inl h₃.1)
  · exact Or.inr (Or.inr (Or.inl h₄))
  · exact Or.inr (Or.inr (Or.inr h₅))
  · simp at h

theorem frameMap :
  Pfa.FrameMap state.pfa
  := by
  constructor
  · simp [state]
  · simp [state, Frames.Ascending]
  · simp [state, oneMb]
  · simp [state]
  · simp [state]
  · simp [state]

theorem labelled :
  Labelled state own
  := by
  have hunmanaged : ∀ f : UInt32, f.toNat ∉ state.pfa.frames → f.toNat ∉ state.pfa.free :=
    fun f hf hin => hf (Pfa.free_subset_frames hin)
  have hheld : ∀ i f, state.pfa.frames[i]? = some f → Pfa.bit state.pfa i = false →
      f ∈ state.pfa.frames ∧ f ∉ state.pfa.free := by
    intro i f hf hbit
    rw [frameMap.mem_free_iff hf, hbit]
    exact ⟨List.mem_of_getElem? hf, by simp⟩
  have hpdt : ∀ {i}, state.has state.kernelPdt i → i = 768 := by
    intro i hhas
    rcases has_state hhas with ⟨-, hi⟩ | hf | ⟨hf, -⟩ | ⟨hf, -⟩
    · exact hi
    · exact absurd hf (by decide)
    · exact absurd hf (by decide)
    · exact absurd hf (by decide)
  have hpt : state.table state.kernelPdt 768 = 0x102000 := by decide
  have hunused : (0x102000 : UInt32).toNat ∉ state.pfa.free := hunmanaged _ (by decide)
  refine ⟨frameMap, ?_, by decide, by decide, ⟨⟨hunmanaged _ (by decide), hunused, by decide, ?_, ?_, ?_⟩, ?_⟩,
    ⟨by decide, by decide⟩, ?_, ?_, ?_⟩
  · intro f t hf
    rcases own_eq_some hf with ⟨rfl, -⟩ | ⟨rfl, -⟩ | ⟨rfl, -⟩ | ⟨rfl, -⟩
    · exact hheld 0 _ (by decide) (by decide)
    · exact hheld 1 _ (by decide) (by decide)
    · exact hheld 2 _ (by decide) (by decide)
    · exact hheld 3 _ (by decide) (by decide)
  · intro i _ hhas
    rw [hpdt hhas, hpt]
    exact hunused
  · intro i _ hhas
    rw [hpdt hhas]
    decide
  · intro i _ j _ hhas hhas' _
    rw [hpdt hhas, hpdt hhas']
  · exact fun i _ hhas _ => hpdt hhas
  · exact fun i _ hhas hne => absurd (hpdt hhas) hne
  · intro i _ hhas
    rw [hpdt hhas]
    decide
  · intro d hd
    rcases own_eq_some hd with ⟨rfl, -⟩ | ⟨-, hd⟩ | ⟨-, hd⟩ | ⟨-, hd⟩
    · have hdir : ∀ {i}, state.has 0x200000 i → i = 0 := by
        intro i hhas
        rcases has_state hhas with ⟨hf, -⟩ | hf | ⟨-, hi⟩ | ⟨hf, -⟩
        · exact absurd hf (by decide)
        · exact absurd hf (by decide)
        · exact hi
        · exact absurd hf (by decide)
      constructor
      · intro i _ hhas
        rw [hdir hhas]
        decide
      · intro v _ e he
        by_cases hhas : state.has 0x200000 (virtualToPdtIdx v)
        · rw [State.page_of_has hhas, hdir hhas] at he
          obtain ⟨hentry, he⟩ := Option.ite_none_right_eq_some.mp he
          rw [← Option.some.inj he]
          rcases has_state hentry with ⟨hf, -⟩ | hf | ⟨hf, -⟩ | ⟨-, hi⟩
          · exact absurd hf (by decide)
          · exact absurd hf (by decide)
          · exact absurd hf (by decide)
          · rw [hi]
            decide
        · rw [State.page_of_not_has hhas] at he
          simp at he
      · intro i hle _ hhas
        rw [hdir hhas, kernelPdtIdx] at hle
        omega
    all_goals simp at hd

/-- The kernel with these labels. -/
def world : World :=
  ⟨heap, own, labelled⟩

/-! The states that the call goes through, with the entries that are written in each. -/

/-- Entries written one after the other. -/
def edits (s : State) (es : List (UInt32 × ℕ × Entry)) : State :=
  es.foldl (fun s x => s.set x.1 x.2.1 x.2.2) s

/-- The temporary mapping of the page table of the kernel. -/
def tmpSet : UInt32 × ℕ × Entry :=
  (0x102000, 1023, createPtEntry 0x102000 pagingReadWrite pagingPl0)

/-- The temporary mapping as it was. -/
def tmpReset : UInt32 × ℕ × Entry :=
  (0x102000, 1023, Entry.zero)

/-- The frame with index `i` is taken. -/
def taken (s : State) (i : UInt32) : State :=
  { s with pfa := Pfa.toggleBits s.pfa i 1 }

/-- The page table of the kernel is searched. -/
def searched (s : State) : State :=
  edits s [tmpSet, tmpReset]

/-- Entry `i` of the page table of the kernel is set. -/
def edited (s : State) (i : ℕ) (e : Entry) : State :=
  edits s [tmpSet, (0x102000, i, e), tmpReset]

/-- The directory of the child is frame `0x204000`. -/
def created : State :=
  (edited (searched (taken state 4)) 2 (createPtEntry 0x204000 pagingReadWrite pagingPl0)).fill 0x204000
    fun _ => Entry.zero

/-- Frame `0x205000` is mapped in the kernel. -/
def mapped : State :=
  edited (searched (taken created 5)) 3 (createPtEntry 0x205000 pagingReadWrite pagingPl0)

/-- The heap after room for the child was taken. -/
def heapOn (s : State) : Kmalloc.Heap State where
  mem := Kmalloc.setSize (Kmalloc.setSize heap.mem 0xD0000000 972) 0xD0001E60 52
  freep := 0xC0108000
  acquired := []
  kernel := s

theorem run_load (ps : Ps) :
  processLoadPdt ps (heapOn state) =
    some (some { ps with pdt := 0xC0002000, pdtPaddr := 0x204000 }, heapOn created)
  := by
  have hcreate : paging pdtCreate (heapOn state) = some ((0xC0002000, 0x204000), heapOn created) := by rfl
  rw [processLoadPdt, bind_run hcreate]
  rfl

end OneFrame

namespace OneFile

open OneFrame

/-- A file of one byte is found at every path. -/
def files : Env where
  base := 0xC0108000
  rounds := 3
  vfs := ⟨fun _ => 0, fun _ => some ⟨0, 0⟩, fun _ => some 1, fun _ n _ => (n, fun _ _ => Entry.zero)⟩

/-- The file has been read. -/
def filled : State :=
  mapped.fill 0x205000 fun _ => Entry.zero

/-- The frame has been unmapped. -/
def unmapped : State :=
  edited filled 3 Entry.zero

/-- The code has been mapped, with a new page table in frame `0x206000`. -/
def withCode : State :=
  edits ((edits (taken unmapped 6) [(0x102000, 1023, createPtEntry 0x206000 pagingReadWrite pagingPl0)]).fill 0x206000
    fun _ => Entry.zero) [(0x206000, 0, createPtEntry 0x205000 pagingReadWrite pagingPl3),
      (0x204000, 0, createPdtEntry 0x206000 ps4Kb pagingReadWrite pagingPl3), tmpReset]

/-- The heap after room for an element of the list was taken. -/
def heapWithCode : Kmalloc.Heap State :=
  { heapOn withCode with mem := Kmalloc.setSize (Kmalloc.setSize (heapOn withCode).mem 0xD0000000 969) 0xD0001E48 3 }

theorem run_loadCode (ps : Ps) (hps : ps.pdt = 0xC0002000) :
  processLoadCode files ps [] 0 (heapOn created) = some (some { ps with
    codePaddrs := [⟨0xD0001E50, 0x205000, 1⟩], userMode := { ps.userMode with eip := 0 }, codeStartVaddr := 0 },
    heapWithCode)
  := by
  have hlookup : vfsLookup files [] (heapOn created) = some (some ⟨0, 0⟩, heapOn created) := by rfl
  have halloc : pfaAllocate 1 (heapOn created) = some (0x205000, heapOn (taken created 5)) := by rfl
  have hfind : findNextVaddr 1 (heapOn (taken created 5)) =
      some (0xC0003000, heapOn (searched (taken created 5))) := by rfl
  have hmap : mapKernelMemory 0x205000 0xC0003000 1 (heapOn (searched (taken created 5))) =
      some (4096, heapOn mapped) := by rfl
  have hread : vfsRead files ⟨0, 0⟩ 0xC0003000 1 (heapOn mapped) = some (1, heapOn filled) := by rfl
  have hunmap : unmapKernelMemory files 0xC0003000 1 (heapOn filled) = some (4096, heapOn unmapped) := by rfl
  have hmemory : mapMemory 0xC0002000 0x205000 0 1 (heapOn unmapped) = some (4096, heapOn withCode) := by rfl
  have hkmalloc : kmalloc files paddrEleSize (heapOn withCode) = some (0xD0001E50, heapWithCode) := by rfl
  rw [processLoadCode, bind_run hlookup, hps]
  dsimp only
  rw [show files.vfs.fileSize ⟨0, 0⟩ = some 1 from rfl]
  dsimp only
  rw [show divCeil 1 fourKb = 1 by decide, bind_run halloc, if_neg (by decide), bind_run hfind, if_neg (by decide),
    bind_run hmap, if_neg (by decide), bind_run hread, if_neg (by decide), bind_run hunmap, bind_run hmemory,
    if_neg (by decide), bind_run hkmalloc, if_neg (by decide)]
  rfl

theorem run_create :
  ((processCreate files [] 2 heap).map fun r => r.1.isSome) = some true
  := by
  have halloc : kmalloc files psSize heap = some (0xD0001E68, heapOn state) := by rfl
  rw [processCreate, bind_run halloc, if_neg (by decide), bind_run (run_load _)]
  dsimp only
  rw [bind_run (run_loadCode _ rfl)]
  decide +kernel

theorem exists_process :
  ∃ ps h, processCreate files [] 2 heap = some (some ps, h) ∧ Built files ps h
  := by
  obtain ⟨⟨r, h⟩, hrun, hsome⟩ := Option.map_eq_some_iff.mp run_create
  obtain ⟨ps, rfl⟩ := Option.isSome_iff_exists.mp hsome
  exact ⟨ps, h, hrun, Built.create (w := world) hrun⟩

end OneFile

/-- A process that is created and deleted at once is not reclaimed: when the call returns, the kernel still has the
directory mapped. -/
theorem created_process_not_reclaimed :
  ∃ ps h₁, processCreate OneFile.files [] 2 OneFrame.heap = some (some ps, h₁) ∧ ∀ h₂,
    processDeleteResources OneFile.files ps h₁ = some ((), h₂) →
      h₂.kernel.resolve ps.pdt = some ps.pdtPaddr ∧ ¬ Reclaimed h₁.kernel h₂.kernel ps
  := by
  obtain ⟨ps, h₁, hrun, hbuilt⟩ := OneFile.exists_process
  refine ⟨ps, h₁, hrun, fun h₂ hdelete => ?_⟩
  have hpdt : h₂.kernel.resolve ps.pdt = some ps.pdtPaddr :=
    (Later.built.alive hbuilt).deleted OneFile.files () h₂ hdelete
  refine ⟨hpdt, fun hreclaimed => ?_⟩
  rw [hreclaimed.pdt] at hpdt
  simp at hpdt

/-- The process is created and its directory is loaded. -/
theorem process_never_reclaimed_oneFile :
  ∃ ps h₁ s, processCreate OneFile.files [] 2 OneFrame.heap = some (some ps, h₁) ∧
    pdtLoadProcessPdt h₁.kernel ps.pdt ps.pdtPaddr = some s ∧
    ¬ ∃ h₃, processDeleteResources OneFile.files ps { h₁ with kernel := s } = some ((), h₃) ∧ Reclaimed s h₃.kernel ps
  := by
  obtain ⟨ps, h₁, hrun, hbuilt⟩ := OneFile.exists_process
  have hload : pdtLoadProcessPdt h₁.kernel ps.pdt ps.pdtPaddr =
      some (pdtSet (copyKernelEntries h₁.kernel ps.pdtPaddr) ps.pdtPaddr) := by
    rw [pdtLoadProcessPdt, (Later.built.alive hbuilt).pdt, Option.map_some]
  exact ⟨ps, h₁, _, hrun, hload, process_never_reclaimed hbuilt (Later.load Later.built hload)⟩

end Process
