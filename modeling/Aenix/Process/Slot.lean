import Aenix.Paging.Slot
import Aenix.Process.Copy

/-!
# Calls within one slot

What the calls of `process.c` that map and unmap memory return and leave behind, when their ranges lie within one
slot: equations, by which a run can be followed from one state to the next.  As an example, the first process is
created from a file of two pages, its directory is loaded, and it is cloned.
-/

open Aenix
open Paging hiding Call exec Step

namespace Process

section

variable {env : Env} {h : Kmalloc.Heap State} {s s₁ : State} {d t i v n p pdt paddr vaddr size : UInt32}

/-- The `n` frames with the indices from `i` on are taken. -/
def held (s : State) (i n : UInt32) : State :=
  { s with pfa := Pfa.toggleBits s.pfa i n }

/-- The range lies in the first slot of the kernel, before the temporary mapping. -/
def InFirstSlot (s : State) (vaddr size : UInt32) : Prop :=
  s.has s.kernelPdt kernelPdtIdx ∧ s.table s.kernelPdt kernelPdtIdx = s.kernelPt ∧ s.kernelPt ≠ s.kernelPdt ∧
    virtualToPdtIdx vaddr = kernelPdtIdx ∧ 0 < pages size ∧ virtualToPtIdx vaddr + pages size ≤ kernelTmpPtIdx

instance (s : State) (vaddr size : UInt32) : Decidable (InFirstSlot s vaddr size) :=
  inferInstanceAs (Decidable (_ ∧ _))

/-- The pages of the range are not mapped in the page table of the kernel. -/
def VacantIn (s : State) (vaddr size : UInt32) : Prop :=
  ∀ k < pages size, (s.mem s.kernelPt (virtualToPtIdx vaddr + k)).isEntryPresent = false

instance (s : State) (vaddr size : UInt32) : Decidable (VacantIn s vaddr size) :=
  inferInstanceAs (Decidable (∀ k < pages size, _))

/-- The pages of the range are mapped in the page table of the kernel. -/
def withPages (s : State) (paddr vaddr size : UInt32) : State :=
  s.fillPages s.kernelPt (virtualToPtIdx vaddr) (pages size) paddr pagingReadWrite pagingPl0

/-- The pages of the range are unmapped in the page table of the kernel. -/
def withoutPages (s : State) (vaddr size : UInt32) : State :=
  s.clearPages s.kernelPt (virtualToPtIdx vaddr) (pages size)

/-- The directory in frame `d` has a new page table in frame `t`, with index `i`, in which the range is mapped. -/
def withTable (s : State) (i d t paddr vaddr size : UInt32) : State :=
  (held s i 1).withTable d (virtualToPdtIdx vaddr) (virtualToPtIdx vaddr) (pages size) t paddr pagingReadWrite
    pagingPl3

/-- A new directory in frame `d`, with index `i`, is mapped at `v`. -/
def withDir (s : State) (i d v : UInt32) : State :=
  (withPages (held s i 1) d v pdtSize).fill d fun _ => Entry.zero

theorem findNextVaddr_eq (hv : (pdtKernelFindNextVaddr h.kernel size).1 = v) :
  findNextVaddr size h = some (v, h)
  := by
  obtain ⟨v', hfind, -⟩ := pdtKernelFindNextVaddr_spec h.kernel size
  rw [hfind] at hv
  subst hv
  simp only [findNextVaddr, paging, hfind, Option.map_some]

theorem pdtMapKernelMemory_eq (hslot : InFirstSlot s vaddr size) (hvacant : VacantIn s vaddr size) :
  pdtMapKernelMemory s paddr vaddr size pagingReadWrite pagingPl0 =
    (UInt32.ofNat (pages size) * fourKb, withPages s paddr vaddr size)
  := by
  obtain ⟨hhas, ht, hne, hidx, hpos, hfits⟩ := hslot
  apply pdtMapMemory_has hpos (by rwa [hidx]) (by rwa [hidx]) hne hne.symm (hfits.trans (by decide))
    (fun _ => hfits) hvacant

theorem mapKernelMemory_eq (hslot : InFirstSlot h.kernel vaddr size) (hvacant : VacantIn h.kernel vaddr size) :
  mapKernelMemory paddr vaddr size h =
    some (UInt32.ofNat (pages size) * fourKb, { h with kernel := withPages h.kernel paddr vaddr size })
  := by
  simp only [mapKernelMemory, paging, pdtMapKernelMemory_eq hslot hvacant, Option.map_some]

theorem unmapKernelMemory_eq (henv : 2 ≤ env.rounds) (hslot : InFirstSlot h.kernel vaddr size)
    (hend : vaddr.toNat + 4096 * pages size < 2 ^ 32) :
  unmapKernelMemory env vaddr size h =
    some (UInt32.ofNat (pages size) * fourKb, { h with kernel := withoutPages h.kernel vaddr size })
  := by
  obtain ⟨hhas, ht, hne, hidx, hpos, hfits⟩ := hslot
  have hunmap := pdtUnmapMemory_has (t := h.kernel.kernelPt) henv hpos (by rwa [hidx]) (by rwa [hidx])
    (fun _ => hidx) (Nat.lt_succ_of_le hfits) hend
  simp only [unmapKernelMemory, paging, pdtUnmapKernelMemory, hunmap, Option.map_some, withoutPages]

/-- A range below the kernel is mapped in a new page table. -/
theorem mapMemory_eq (hd : h.kernel.resolve pdt = some d)
    (hpfa : Pfa.pfaAllocate h.kernel.pfa 1 = (t, Pfa.toggleBits h.kernel.pfa i 1))
    (hslot : ¬ h.kernel.has d (virtualToPdtIdx vaddr) ∧ virtualToPdtIdx vaddr ≠ kernelPdtIdx ∧ 0 < pages size ∧
      virtualToPtIdx vaddr + pages size ≤ 1024)
    (ht : t ≠ 0 ∧ 4096 ∣ t.toNat ∧ t ≠ d ∧ t ≠ h.kernel.kernelPt ∧ d ≠ h.kernel.kernelPt) :
  mapMemory pdt paddr vaddr size h =
    some (UInt32.ofNat (pages size) * fourKb, { h with kernel := withTable h.kernel i d t paddr vaddr size })
  := by
  obtain ⟨hzero, hdvd, htd, htpt, hdpt⟩ := ht
  obtain ⟨hhas, hidx, hpos, hfits⟩ := hslot
  have hmap : pdtMapMemory h.kernel d paddr vaddr size pagingReadWrite pagingPl3 =
      (UInt32.ofNat (pages size) * fourKb, withTable h.kernel i d t paddr vaddr size) :=
    pdtMapMemory_frame hpos hhas hpfa hzero hdvd htd htpt hdpt hfits fun heq => absurd heq hidx
  simp only [mapMemory, paging, hd, hmap, Option.map_some]

theorem processLoadPdt_eq {ps : Ps} (hpfa : Pfa.pfaAllocate h.kernel.pfa 1 = (d, Pfa.toggleBits h.kernel.pfa i 1))
    (hv : (pdtKernelFindNextVaddr (held h.kernel i 1) pdtSize).1 = v) (hne : ¬ (v = 0 ∨ d = 0))
    (hslot : InFirstSlot (held h.kernel i 1) v pdtSize) (hvacant : VacantIn (held h.kernel i 1) v pdtSize)
    (hd : (withPages (held h.kernel i 1) d v pdtSize).resolve v = some d) :
  processLoadPdt ps h = some (some { ps with pdt := v, pdtPaddr := d }, { h with kernel := withDir h.kernel i d v })
  := by
  obtain ⟨v', hfind, -⟩ := pdtKernelFindNextVaddr_spec (held h.kernel i 1) pdtSize
  rw [hfind] at hv
  subst hv
  have hcreate : pdtCreate h.kernel = some ((v', d), withDir h.kernel i d v') := by
    simp only [pdtCreate, hpfa]
    rw [← held, hfind, pdtMapKernelMemory_eq hslot hvacant]
    exact congrArg (Option.map _) hd
  have hpaging : paging pdtCreate h = some ((v', d), { h with kernel := withDir h.kernel i d v' }) := by
    simp only [paging, hcreate, Option.map_some]
  rw [processLoadPdt, bind_run hpaging]
  dsimp only
  rw [if_neg hne]
  rfl

theorem pfaAllocate_eq (hpfa : Pfa.pfaAllocate h.kernel.pfa n = (p, Pfa.toggleBits h.kernel.pfa i n)) :
  pfaAllocate n h = some (p, { h with kernel := held h.kernel i n })
  := by
  simp only [pfaAllocate, paging, hpfa, Option.map_some, held]

theorem processLoadKernelStack_eq {ps : Ps} {h' : Kmalloc.Heap State} {pe top : UInt32}
    (hpfa : Pfa.pfaAllocate h.kernel.pfa 1 = (p, Pfa.toggleBits h.kernel.pfa i 1))
    (hv : (pdtKernelFindNextVaddr (held h.kernel i 1) 4096).1 = v) (hne : p ≠ 0 ∧ v ≠ 0 ∧ pe ≠ 0)
    (htop : v + 4096 - 4 = top)
    (hslot : InFirstSlot (held h.kernel i 1) v 4096) (hvacant : VacantIn (held h.kernel i 1) v 4096)
    (hkmalloc : kmalloc env paddrEleSize { h with kernel := withPages (held h.kernel i 1) p v 4096 } = some (pe, h')) :
  processLoadKernelStack env ps h = some (some { ps with
    kernelStackPaddrs := [⟨pe, p, 1⟩], kernelStackStartVaddr := top }, h')
  := by
  subst htop
  have hmap : mapKernelMemory p v 4096 { h with kernel := held h.kernel i 1 } =
      some (4096, { h with kernel := withPages (held h.kernel i 1) p v 4096 }) := mapKernelMemory_eq hslot hvacant
  rw [processLoadKernelStack, show divCeil kernelStackSize fourKb = 1 by decide]
  dsimp only
  rw [bind_run (pfaAllocate_eq hpfa), if_neg hne.1, show (1 : UInt32) * fourKb = 4096 from rfl,
    bind_run (findNextVaddr_eq hv), if_neg hne.2.1, bind_run hmap, if_neg (by decide), bind_run hkmalloc,
    if_neg hne.2.2]
  rfl

/-! ### Copying pages -/

/-- One more page is copied. -/
theorem memcpyPages_succ {dest src f g : UInt32} {m : ℕ} (hs : memcpyPages dest src m s = some s₁)
    (hf : s₁.resolve (nthPage dest m) = some f)
    (hg : (s₁.page s₁.cr3 (nthPage src m)).map Entry.paddr = some g) :
  memcpyPages dest src (m + 1) s = some (s₁.fill f (s₁.mem g))
  := by
  obtain ⟨e, he, rfl⟩ := Option.map_eq_some_iff.mp hg
  simp [memcpyPages, hs, hf, he]

/-- Frames are taken and filled. -/
theorem copyFrames_eq (henv : 2 ≤ env.rounds)
    (hpfa : Pfa.pfaAllocate h.kernel.pfa n = (p, Pfa.toggleBits h.kernel.pfa i n))
    (hv : (pdtKernelFindNextVaddr (held h.kernel i n) (n * fourKb)).1 = v) (hne : p ≠ 0 ∧ v ≠ 0)
    (hbytes : UInt32.ofNat (pages (n * fourKb)) * fourKb = n * fourKb)
    (hslot : InFirstSlot (held h.kernel i n) v (n * fourKb))
    (hvacant : VacantIn (held h.kernel i n) v (n * fourKb))
    (hcopy : memcpyPages v vaddr (pages (n * fourKb)) (withPages (held h.kernel i n) p v (n * fourKb)) = some s₁)
    (hslot₁ : InFirstSlot s₁ v (n * fourKb)) (hend : v.toNat + 4096 * pages (n * fourKb) < 2 ^ 32) :
  copyFrames env vaddr n h = some (p, { h with kernel := withoutPages s₁ v (n * fourKb) })
  := by
  have hmap : mapKernelMemory p v (n * fourKb) { h with kernel := held h.kernel i n } =
      some (UInt32.ofNat (pages (n * fourKb)) * fourKb,
        { h with kernel := withPages (held h.kernel i n) p v (n * fourKb) }) := mapKernelMemory_eq hslot hvacant
  rw [hbytes] at hmap
  have hmemcpy : memcpy v vaddr (n * fourKb)
      { h with kernel := withPages (held h.kernel i n) p v (n * fourKb) } = some ((), { h with kernel := s₁ }) := by
    simp only [memcpy, paging, hcopy, Option.map_some]
  have hunmap := unmapKernelMemory_eq (h := { h with kernel := s₁ }) henv hslot₁ hend
  rw [copyFrames, bind_run (pfaAllocate_eq hpfa), if_neg hne.1, bind_run (findNextVaddr_eq hv), if_neg hne.2,
    bind_run hmap, if_neg (UInt32.lt_irrefl _), bind_run hmemcpy, bind_run hunmap]
  rfl

/-- A list of one element is copied. -/
theorem processCopyPaddrList_one {h₁ h₂ h₃ : Kmalloc.Heap State} {a pe src : UInt32}
    (hcopy : copyFrames env vaddr n h = some (p, h₁)) (hkmalloc : kmalloc env paddrEleSize h₁ = some (pe, h₂))
    (hmap : mapMemory pdt p vaddr (n * fourKb) h₂ = some (n * fourKb, h₃)) (hne : p ≠ 0 ∧ pe ≠ 0) :
  processCopyPaddrList env pdt vaddr [⟨a, src, n⟩] [] h = some ((true, [⟨pe, p, n⟩]), h₃)
  := by
  rw [processCopyPaddrList_cons, bind_run hcopy, if_neg hne.1, bind_run hkmalloc, if_neg hne.2]
  dsimp only
  rw [bind_run hmap, if_neg (UInt32.lt_irrefl _)]
  rfl

/-- There are no descriptors to copy. -/
theorem processCopyFileDescriptors_none (env : Env) (n : ℕ) (h : Kmalloc.Heap State) :
  processCopyFileDescriptors env (List.replicate n none) h = some (some (List.replicate n none), h)
  := by
  induction n with
  | zero => rfl
  | succ n ih =>
      rw [List.replicate_succ, processCopyFileDescriptors, bind_run ih]
      rfl

/-! ### Loading a directory -/

/-- The state after the entries of the kernel have been copied to the directory in frame `d`, which is active. -/
def State.loaded (s : State) (d : UInt32) : State :=
  pdtSet (s.fill d (s.kernelCopied d)) d

theorem pdtLoadProcessPdt_eq (hne : d ≠ s.kernelPdt) (hres : s.resolve pdt = some d) :
  pdtLoadProcessPdt s pdt d = some (State.loaded s d)
  := by
  rw [pdtLoadProcessPdt, hres, Option.map_some, copyKernelEntries_eq hne, State.loaded]

end

/-! ### The first two processes -/

namespace Boot

/-- A file of two pages is found at every path. -/
def files : Env where
  base := 0xC0108000
  rounds := 3
  vfs := ⟨fun _ => 0, fun _ => some ⟨0, 0⟩, fun _ => some 5000,
    fun _ n _ => (n, fun k _ => createPtEntry (UInt32.ofNat k * fourKb) pagingReadWrite pagingPl3)⟩

/-- The heap in which the blocks have been taken from the tail end of the free block; they are given with their
units and with those that are left. -/
def heapOn (blocks : List (UInt32 × UInt32 × UInt32)) (s : State) : Kmalloc.Heap State where
  mem := blocks.foldl (fun m x => Kmalloc.setSize (Kmalloc.setSize m 0xD0000000 x.2.2) x.1 x.2.1)
    fun a => if a = 0xC0108000 then ⟨0xD0000000, 0⟩ else ⟨0xC0108000, 1024⟩
  freep := 0xC0108000
  acquired := []
  kernel := s

/-- A kernel with sixteen frames, none of which is used. -/
def state : State where
  pfa := ⟨fun i => if i = 0 then 0xFFFF0000 else 0, 16, [⟨0x200000, 0x10000⟩]⟩
  mem := fun f i =>
    if f = 0x101000 ∧ i = 768 then createPdtEntry 0x102000 ps4Kb pagingReadWrite pagingPl0 else Entry.zero
  kernelPdt := 0x101000
  kernelPt := 0x102000
  cr3 := 0x101000

/-- The heap before. -/
def heap : Kmalloc.Heap State :=
  heapOn [] state

/-! The blocks of the heap that the first process takes: for itself, and for the elements of its lists. -/

abbrev taken₁ : List (UInt32 × UInt32 × UInt32) := [(0xD0001E60, 52, 972)]

abbrev taken₂ : List (UInt32 × UInt32 × UInt32) := taken₁ ++ [(0xD0001E48, 3, 969)]

abbrev taken₃ : List (UInt32 × UInt32 × UInt32) := taken₂ ++ [(0xD0001E30, 3, 966)]

abbrev taken₄ : List (UInt32 × UInt32 × UInt32) := taken₃ ++ [(0xD0001E18, 3, 963)]

/-! The states that its creation goes through. -/

/-- The directory is frame `0x200000`. -/
def created : State := withDir state 0 0x200000 0xC0000000

/-- Two frames for the code are mapped in the kernel. -/
def mapped : State := withPages (held created 1 2) 0x201000 0xC0001000 5000

/-- Page `k` of the file. -/
def page (k : ℕ) : Table := fun _ => createPtEntry (UInt32.ofNat k * fourKb) pagingReadWrite pagingPl3

/-- The file has been read. -/
def filled : State := (mapped.fill 0x201000 (page 0)).fill 0x202000 (page 1)

/-- The frames have been unmapped. -/
def unmapped : State := withoutPages filled 0xC0001000 5000

/-- The code has been mapped. -/
def withCode : State := withTable unmapped 3 0x200000 0x203000 0x201000 0 5000

/-- The stack has been mapped. -/
def withStack : State := withTable (held withCode 4 1) 5 0x200000 0x205000 0x204000 0xBFFFF000 4096

/-- The kernel stack has been mapped. -/
def whole : State := withPages (held withStack 6 1) 0x206000 0xC0001000 4096

/-- The first process. -/
def init : Ps :=
  let ps := processInit 0xD0001E68 1
  let userMode := { ps.userMode with eip := 0, esp := procInitialEsp }
  { ps with
    pdt := 0xC0000000
    pdtPaddr := 0x200000
    userMode := userMode
    current := userMode
    kernelStackStartVaddr := 0xC0001FFC
    codePaddrs := [⟨0xD0001E50, 0x201000, 2⟩]
    stackPaddrs := [⟨0xD0001E38, 0x204000, 1⟩]
    kernelStackPaddrs := [⟨0xD0001E20, 0x206000, 1⟩] }

theorem run_loadCode (ps : Ps) (hps : ps.pdt = 0xC0000000) (path : List UInt8) :
  processLoadCode files ps path 0 (heapOn taken₁ created) = some (some { ps with
    codePaddrs := [⟨0xD0001E50, 0x201000, 2⟩], userMode := { ps.userMode with eip := 0 }, codeStartVaddr := 0 },
    heapOn taken₂ withCode)
  := by
  have hlookup : vfsLookup files path (heapOn taken₁ created) = some (some ⟨0, 0⟩, heapOn taken₁ created) := by rfl
  have halloc : pfaAllocate 2 (heapOn taken₁ created) = some (0x201000, heapOn taken₁ (held created 1 2)) := by rfl
  have hfind : findNextVaddr 5000 (heapOn taken₁ (held created 1 2)) =
      some (0xC0001000, heapOn taken₁ (held created 1 2)) := findNextVaddr_eq (by decide +kernel)
  have hmap : mapKernelMemory 0x201000 0xC0001000 5000 (heapOn taken₁ (held created 1 2)) =
      some (8192, heapOn taken₁ mapped) := mapKernelMemory_eq (by decide +kernel) (by decide +kernel)
  have hread : vfsRead files ⟨0, 0⟩ 0xC0001000 5000 (heapOn taken₁ mapped) = some (5000, heapOn taken₁ filled) := by
    rfl
  have hunmap : unmapKernelMemory files 0xC0001000 5000 (heapOn taken₁ filled) = some (8192, heapOn taken₁ unmapped) :=
    unmapKernelMemory_eq (by decide) (by decide +kernel) (by decide +kernel)
  have hmemory : mapMemory 0xC0000000 0x201000 0 5000 (heapOn taken₁ unmapped) =
      some (8192, heapOn taken₁ withCode) :=
    mapMemory_eq (by decide +kernel) (by rfl) (by decide +kernel) (by decide +kernel)
  have hkmalloc : kmalloc files paddrEleSize (heapOn taken₁ withCode) = some (0xD0001E50, heapOn taken₂ withCode) := by
    rfl
  rw [processLoadCode, bind_run hlookup, hps]
  dsimp only
  rw [show files.vfs.fileSize ⟨0, 0⟩ = some 5000 from rfl]
  dsimp only
  rw [show divCeil 5000 fourKb = 2 by decide, bind_run halloc, if_neg (by decide), bind_run hfind, if_neg (by decide),
    bind_run hmap, if_neg (by decide), bind_run hread, if_neg (by decide), bind_run hunmap, bind_run hmemory,
    if_neg (by decide), bind_run hkmalloc, if_neg (by decide)]
  rfl

theorem run_loadStack (ps : Ps) (hps : ps.pdt = 0xC0000000) :
  processLoadStack files ps (heapOn taken₂ withCode) = some (some { ps with
    stackPaddrs := [⟨0xD0001E38, 0x204000, 1⟩], stackStartVaddr := procInitialStackVaddr,
    userMode := { ps.userMode with esp := procInitialEsp } }, heapOn taken₃ withStack)
  := by
  have halloc : pfaAllocate 1 (heapOn taken₂ withCode) = some (0x204000, heapOn taken₂ (held withCode 4 1)) := by rfl
  have hmemory : mapMemory 0xC0000000 0x204000 0xBFFFF000 4096 (heapOn taken₂ (held withCode 4 1)) =
      some (4096, heapOn taken₂ withStack) :=
    mapMemory_eq (by decide +kernel) (by rfl) (by decide +kernel) (by decide +kernel)
  have hkmalloc : kmalloc files paddrEleSize (heapOn taken₂ withStack) =
      some (0xD0001E38, heapOn taken₃ withStack) := by rfl
  rw [processLoadStack, show divCeil procInitialStackSize fourKb = 1 by decide]
  dsimp only
  rw [bind_run halloc, if_neg (by decide), hps, show (1 : UInt32) * fourKb = 4096 from rfl, bind_run hmemory,
    if_neg (by decide), bind_run hkmalloc, if_neg (by decide)]
  rfl

/-- The first process is created. -/
theorem run_create (path : List UInt8) :
  processCreate files path 1 heap = some (some init, heapOn taken₄ whole)
  := by
  have halloc : kmalloc files psSize heap = some (0xD0001E68, heapOn taken₁ state) := by rfl
  have hpdt : ∀ ps, processLoadPdt ps (heapOn taken₁ state) =
      some (some { ps with pdt := 0xC0000000, pdtPaddr := 0x200000 }, heapOn taken₁ created) := fun ps =>
    processLoadPdt_eq (by rfl) (by decide +kernel) (by decide) (by decide +kernel) (by decide +kernel)
      (by decide +kernel)
  have hkernelStack : ∀ ps, processLoadKernelStack files ps (heapOn taken₃ withStack) = some (some { ps with
      kernelStackPaddrs := [⟨0xD0001E20, 0x206000, 1⟩], kernelStackStartVaddr := 0xC0001FFC }, heapOn taken₄ whole) :=
    fun ps => processLoadKernelStack_eq (i := 6) (v := 0xC0001000) (by rfl) (by decide +kernel) (by decide) (by decide)
      (by decide +kernel) (by decide +kernel) (by rfl)
  rw [processCreate, bind_run halloc, if_neg (by decide), bind_run (hpdt _)]
  dsimp only
  rw [bind_run (run_loadCode _ rfl path)]
  dsimp only
  rw [bind_run (run_loadStack _ rfl)]
  dsimp only
  rw [bind_run (hkernelStack _)]
  rfl

/-! Its directory is loaded, and it is cloned.  The clone takes four more blocks. -/

abbrev taken₅ : List (UInt32 × UInt32 × UInt32) := taken₄ ++ [(0xD0001C78, 52, 911)]

abbrev taken₆ : List (UInt32 × UInt32 × UInt32) := taken₅ ++ [(0xD0001C60, 3, 908)]

abbrev taken₇ : List (UInt32 × UInt32 × UInt32) := taken₆ ++ [(0xD0001C48, 3, 905)]

abbrev taken₈ : List (UInt32 × UInt32 × UInt32) := taken₇ ++ [(0xD0001C30, 3, 902)]

/-- The directory of the first process is active. -/
def running : State := State.loaded whole 0x200000

/-- The directory of the clone is frame `0x207000`. -/
def created' : State := withDir running 7 0x207000 0xC0002000

/-- The code is copied to two frames that are mapped in the kernel. -/
def codeCopied : State :=
  let s := withPages (held created' 8 2) 0x208000 0xC0003000 8192
  let s := s.fill 0x208000 (s.mem 0x201000)
  s.fill 0x209000 (s.mem 0x202000)

def withCode' : State :=
  withTable (withoutPages codeCopied 0xC0003000 8192) 10 0x207000 0x20A000 0x208000 0 8192

/-- The stack is copied. -/
def stackCopied : State :=
  let s := withPages (held withCode' 11 1) 0x20B000 0xC0003000 4096
  s.fill 0x20B000 (s.mem 0x204000)

def withStack' : State :=
  withTable (withoutPages stackCopied 0xC0003000 4096) 12 0x207000 0x20C000 0x20B000 0xBFFFF000 4096

/-- Both processes are there. -/
def both : State := withPages (held withStack' 13 1) 0x20D000 0xC0003000 4096

/-- The clone. -/
def clone : Ps :=
  { processInit 0xD0001C80 2 with
    parentId := 1
    userMode := init.userMode
    pdt := 0xC0002000
    pdtPaddr := 0x207000
    kernelStackStartVaddr := 0xC0003FFC
    codePaddrs := [⟨0xD0001C68, 0x208000, 2⟩]
    stackPaddrs := [⟨0xD0001C50, 0x20B000, 1⟩]
    kernelStackPaddrs := [⟨0xD0001C38, 0x20D000, 1⟩] }

theorem run_load :
  pdtLoadProcessPdt whole 0xC0000000 0x200000 = some running
  := pdtLoadProcessPdt_eq (by decide) (by decide +kernel)

theorem run_copyCode :
  processCopyPaddrList files 0xC0002000 0 [⟨0xD0001E50, 0x201000, 2⟩] [] (heapOn taken₅ created') =
    some ((true, [⟨0xD0001C68, 0x208000, 2⟩]), heapOn taken₆ withCode')
  := by
  have hcopy : memcpyPages 0xC0003000 0 2 (withPages (held created' 8 2) 0x208000 0xC0003000 8192) =
      some codeCopied :=
    memcpyPages_succ (memcpyPages_succ rfl (by decide +kernel) (by decide +kernel)) (by decide +kernel)
      (by decide +kernel)
  have hframes : copyFrames files 0 2 (heapOn taken₅ created') =
      some (0x208000, heapOn taken₅ (withoutPages codeCopied 0xC0003000 8192)) :=
    copyFrames_eq (by decide) (by rfl) (by decide +kernel) (by decide) (by decide) (by decide +kernel)
      (by decide +kernel) hcopy (by decide +kernel) (by decide +kernel)
  have hmap : mapMemory 0xC0002000 0x208000 0 8192 (heapOn taken₆ (withoutPages codeCopied 0xC0003000 8192)) =
      some (8192, heapOn taken₆ withCode') :=
    mapMemory_eq (by decide +kernel) (by rfl) (by decide +kernel) (by decide +kernel)
  exact processCopyPaddrList_one hframes (by rfl) hmap (by decide)

theorem run_copyStack :
  processCopyPaddrList files 0xC0002000 0xBFFFF000 [⟨0xD0001E38, 0x204000, 1⟩] [] (heapOn taken₆ withCode') =
    some ((true, [⟨0xD0001C50, 0x20B000, 1⟩]), heapOn taken₇ withStack')
  := by
  have hcopy : memcpyPages 0xC0003000 0xBFFFF000 1 (withPages (held withCode' 11 1) 0x20B000 0xC0003000 4096) =
      some stackCopied :=
    memcpyPages_succ rfl (by decide +kernel) (by decide +kernel)
  have hframes : copyFrames files 0xBFFFF000 1 (heapOn taken₆ withCode') =
      some (0x20B000, heapOn taken₆ (withoutPages stackCopied 0xC0003000 4096)) :=
    copyFrames_eq (by decide) (by rfl) (by decide +kernel) (by decide) (by decide) (by decide +kernel)
      (by decide +kernel) hcopy (by decide +kernel) (by decide +kernel)
  have hmap : mapMemory 0xC0002000 0x20B000 0xBFFFF000 4096
      (heapOn taken₇ (withoutPages stackCopied 0xC0003000 4096)) = some (4096, heapOn taken₇ withStack') :=
    mapMemory_eq (by decide +kernel) (by rfl) (by decide +kernel) (by decide +kernel)
  exact processCopyPaddrList_one hframes (by rfl) hmap (by decide)

/-- The first process is cloned. -/
theorem run_clone :
  processClone files init 2 (heapOn taken₄ running) = some (some clone, heapOn taken₈ both)
  := by
  have halloc : kmalloc files psSize (heapOn taken₄ running) = some (0xD0001C80, heapOn taken₅ running) := by rfl
  have hpdt : ∀ ps, processLoadPdt ps (heapOn taken₅ running) =
      some (some { ps with pdt := 0xC0002000, pdtPaddr := 0x207000 }, heapOn taken₅ created') := fun ps =>
    processLoadPdt_eq (by rfl) (by decide +kernel) (by decide) (by decide +kernel) (by decide +kernel)
      (by decide +kernel)
  have hkernelStack : ∀ ps, processLoadKernelStack files ps (heapOn taken₇ withStack') = some (some { ps with
      kernelStackPaddrs := [⟨0xD0001C38, 0x20D000, 1⟩], kernelStackStartVaddr := 0xC0003FFC }, heapOn taken₈ both) :=
    fun ps => processLoadKernelStack_eq (i := 13) (v := 0xC0003000) (by rfl) (by decide +kernel) (by decide) (by decide)
      (by decide +kernel) (by decide +kernel) (by rfl)
  rw [processClone, bind_run halloc, if_neg (by decide), bind_run (hpdt _)]
  dsimp only [init]
  rw [show (processInit 0xD0001E68 1).codeStartVaddr = 0 from rfl, bind_run run_copyCode]
  dsimp only
  rw [if_neg (by decide), show (processInit 0xD0001E68 1).stackStartVaddr = 0xBFFFF000 from rfl,
    bind_run run_copyStack]
  dsimp only
  rw [if_neg (by decide), bind_run (hkernelStack _)]
  dsimp only
  rw [show (processInit 0xD0001E68 1).fileDescriptors = List.replicate processMaxNumFd none from rfl,
    bind_run (processCopyFileDescriptors_none files _ _)]
  rfl

end Boot

end Process
