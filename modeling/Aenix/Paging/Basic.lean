import Aenix.Lib.Loop
import Aenix.Pfa.Ownership
import Aenix.Paging.Entry

/-!
# Page directories and page tables

`paging.c` edits page directories and page tables.  The directories it edits are mapped in
the kernel; page tables are not, and are mapped one at a time at `KERNEL_TMP_VADDR`, through
the last entry of the first kernel page table `kernel_pt`.

Physical memory is modelled by frames of 1024 entries.  A page directory is given by its
frame; a pointer to it, which is a virtual address of the kernel, is resolved by `kernel_pdt`,
as `get_pdt_paddr` does (`State.resolve`).  The first kernel page table and `kernel_pdt`
itself lie in the kernel image and are always mapped.  Flushing the translation buffer has no
counterpart.
-/

open Aenix

namespace Paging

/-- A frame read as a page directory or a page table. -/
abbrev Table := ℕ → Entry

/-- The state of paging: the page frame allocator, the frames by physical address, the frames
of `kernel_pdt` and `kernel_pt`, and the directory that the processor uses. -/
structure State where
  pfa : Pfa.State
  mem : UInt32 → Table
  kernelPdt : UInt32
  kernelPt : UInt32
  cr3 : UInt32

/-- Entry `i` of a frame set to `e`. -/
def State.set (s : State) (f : UInt32) (i : ℕ) (e : Entry) : State :=
  { s with mem := Function.update s.mem f (Function.update (s.mem f) i e) }

/-- The contents of a frame set to `t`. -/
def State.fill (s : State) (f : UInt32) (t : Table) : State :=
  { s with mem := Function.update s.mem f t }

/-! ### The temporary mapping -/

/-- `kernel_get_temporary_entry`. -/
def kernelGetTemporaryEntry (s : State) : Entry :=
  s.mem s.kernelPt kernelTmpPtIdx

/-- `kernel_set_temporary_entry`. -/
def kernelSetTemporaryEntry (s : State) (entry : Entry) : State :=
  s.set s.kernelPt kernelTmpPtIdx entry

/-- `kernel_map_temporary_memory`. -/
def kernelMapTemporaryMemory (s : State) (paddr : UInt32) : State :=
  s.set s.kernelPt kernelTmpPtIdx (createPtEntry paddr pagingReadWrite pagingPl0)

/-- The frame mapped at `KERNEL_TMP_VADDR`. -/
def State.tmpFrame (s : State) : UInt32 :=
  (kernelGetTemporaryEntry s).paddr

/-- `pt[i]`, for the table `pt` at `KERNEL_TMP_VADDR`. -/
def State.tmp (s : State) (i : ℕ) : Entry :=
  s.mem s.tmpFrame i

/-- `pt[i] = e`, for the table `pt` at `KERNEL_TMP_VADDR`. -/
def State.setTmp (s : State) (i : ℕ) (e : Entry) : State :=
  s.set s.tmpFrame i e

/-! ### Virtual addresses -/

/-- The page table entry that directory `d` gives for a virtual address. -/
def State.page (s : State) (d vaddr : UInt32) : Option Entry :=
  let pde := s.mem d (virtualToPdtIdx vaddr)
  let pte := s.mem pde.paddr (virtualToPtIdx vaddr)
  if pde.isEntryPresent && pte.isEntryPresent then some pte else none

/-- The frame at a virtual address of the kernel; an access to it faults when there is none. -/
def State.resolve (s : State) (vaddr : UInt32) : Option UInt32 :=
  (s.page s.kernelPdt vaddr).map Entry.paddr

/-- `get_pdt_paddr`. -/
def getPdtPaddr (s : State) (pdt : UInt32) : UInt32 × State :=
  let kptPaddr := (s.mem s.kernelPdt (virtualToPdtIdx pdt)).paddr
  let prevTmpEntry := kernelGetTemporaryEntry s
  let s := kernelMapTemporaryMemory s kptPaddr
  let pdtPaddr := (s.tmp (virtualToPtIdx pdt)).paddr
  (pdtPaddr, kernelSetTemporaryEntry s prevTmpEntry)

/-- The loop of `pt_kernel_find_next_vaddr` over the last `n` entries. -/
def ptKernelFindNextVaddrFrom (s : State) (pdtIdx : ℕ) (numToFind : UInt32) :
    ℕ → UInt32 → ℕ → UInt32
  | 0, _, _ => 0
  | n + 1, numFound, orgI =>
    let i := 1023 - n
    if (s.tmp i).isEntryPresent ∨ (pdtIdx = kernelPdtIdx ∧ i = kernelTmpPtIdx) then
      ptKernelFindNextVaddrFrom s pdtIdx numToFind n 0 orgI
    else
      let orgI := if numFound = 0 then i else orgI
      if numFound + 1 = numToFind then
        pdtIdxToVirtual pdtIdx ||| ptIdxToVirtual orgI
      else
        ptKernelFindNextVaddrFrom s pdtIdx numToFind n (numFound + 1) orgI

/-- `pt_kernel_find_next_vaddr`, for the table at `KERNEL_TMP_VADDR`. -/
def ptKernelFindNextVaddr (s : State) (pdtIdx : ℕ) (size : UInt32) : UInt32 :=
  ptKernelFindNextVaddrFrom s pdtIdx (alignUp size fourKb / fourKb) 1024 0 0

/-- A round of the loop of `pdt_kernel_find_next_vaddr`. -/
def findInSlot (s : State) (pdtIdx : ℕ) (size : UInt32) : UInt32 × State :=
  if (s.mem s.kernelPdt pdtIdx).isEntryPresent then
    let tmpEntry := kernelGetTemporaryEntry s
    let s := kernelMapTemporaryMemory s (s.mem s.kernelPdt pdtIdx).paddr
    let vaddr := ptKernelFindNextVaddr s pdtIdx size
    (vaddr, kernelSetTemporaryEntry s tmpEntry)
  else
    (pdtIdxToVirtual pdtIdx, s)

/-- The loop of `pdt_kernel_find_next_vaddr` over the last `n` entries of `kernel_pdt`. -/
def pdtKernelFindNextVaddrFrom (size : UInt32) : ℕ → State → UInt32 × State
  | 0, s => (0, s)
  | n + 1, s =>
    let (vaddr, s) := findInSlot s (1023 - n) size
    if vaddr ≠ 0 then (vaddr, s) else pdtKernelFindNextVaddrFrom size n s

/-- `pdt_kernel_find_next_vaddr`. -/
def pdtKernelFindNextVaddr (s : State) (size : UInt32) : UInt32 × State :=
  pdtKernelFindNextVaddrFrom size 256 s

/-! ### Mapping -/

/-- The loop of `pt_map_memory` over the last `n` entries, from entry `ptIdx` on. -/
def ptMapMemoryFrom (pdtIdx : ℕ) (size : UInt32) (rw pl : UInt8) :
    ℕ → State → ℕ → UInt32 → UInt32 → UInt32 × State
  | 0, s, _, _, mappedSize => (mappedSize, s)
  | n + 1, s, ptIdx, paddr, mappedSize =>
    if mappedSize < size then
      if (s.tmp ptIdx).isEntryPresent then
        (mappedSize, s)
      else if pdtIdx = kernelPdtIdx ∧ ptIdx = kernelTmpPtIdx then
        (mappedSize, s)
      else
        ptMapMemoryFrom pdtIdx size rw pl n (s.setTmp ptIdx (createPtEntry paddr rw pl))
          (ptIdx + 1) (paddr + fourKb) (mappedSize + fourKb)
    else
      (mappedSize, s)

/-- `pt_map_memory`, for the table at `KERNEL_TMP_VADDR`. -/
def ptMapMemory (s : State) (pdtIdx : ℕ) (paddr vaddr size : UInt32) (rw pl : UInt8) :
    UInt32 × State :=
  let ptIdx := virtualToPtIdx vaddr
  ptMapMemoryFrom pdtIdx size rw pl (1024 - ptIdx) s ptIdx paddr 0

/-- The first lines of a round of `pdt_map_memory`: the page table for entry `pdtIdx` of the
directory, or a new one, is mapped at `KERNEL_TMP_VADDR`.  `none` when there is no frame. -/
def openTable (s : State) (d : UInt32) (pdtIdx : ℕ) : Option UInt32 × State :=
  if (s.mem d pdtIdx).isEntryPresent then
    let ptPaddr := (s.mem d pdtIdx).paddr
    (some ptPaddr, kernelMapTemporaryMemory s ptPaddr)
  else
    let (ptPaddr, pfa) := Pfa.pfaAllocate s.pfa 1
    if ptPaddr = 0 then
      (none, { s with pfa := pfa })
    else
      let s := kernelMapTemporaryMemory { s with pfa := pfa } ptPaddr
      (some ptPaddr, s.fill s.tmpFrame fun _ => Entry.zero)

/-- A round of the loop of `pdt_map_memory`.  The result is the size mapped in it, and 0 when
the function returns 0. -/
def mapRound (s : State) (d paddr vaddr size : UInt32) (rw pl : UInt8) : UInt32 × State :=
  let pdtIdx := virtualToPdtIdx vaddr
  let tmpEntry := kernelGetTemporaryEntry s
  match openTable s d pdtIdx with
  | (none, s) => (0, s)
  | (some ptPaddr, s) =>
    let (mappedSize, s) := ptMapMemory s pdtIdx paddr vaddr size rw pl
    if mappedSize = 0 then
      (0, kernelSetTemporaryEntry s tmpEntry)
    else
      let s :=
        if (s.mem d pdtIdx).isEntryPresent then s
        else s.set d pdtIdx (createPdtEntry ptPaddr ps4Kb rw pl)
      (mappedSize, kernelSetTemporaryEntry s tmpEntry)

/-- The loop of `pdt_map_memory`.  Each round maps a page at least, so that as many rounds
as pages suffice. -/
def pdtMapMemoryFrom (d : UInt32) (rw pl : UInt8) :
    ℕ → State → UInt32 → UInt32 → UInt32 → UInt32 → UInt32 × State
  | 0, s, _, _, _, totalMappedSize => (totalMappedSize, s)
  | n + 1, s, paddr, vaddr, size, totalMappedSize =>
    if size = 0 then
      (totalMappedSize, s)
    else
      let (mappedSize, s) := mapRound s d paddr vaddr size rw pl
      if mappedSize = 0 then
        (0, s)
      else
        pdtMapMemoryFrom d rw pl n s (paddr + mappedSize) (vaddr + mappedSize)
          (size - mappedSize) (totalMappedSize + mappedSize)

/-- `pdt_map_memory`, for the directory in frame `d`. -/
def pdtMapMemory (s : State) (d paddr vaddr size : UInt32) (rw pl : UInt8) : UInt32 × State :=
  let size := alignUp size fourKb
  pdtMapMemoryFrom d rw pl (size / fourKb).toNat s paddr vaddr size 0

/-- `pdt_map_kernel_memory`. -/
def pdtMapKernelMemory (s : State) (paddr vaddr size : UInt32) (rw pl : UInt8) :
    UInt32 × State :=
  pdtMapMemory s s.kernelPdt paddr vaddr size rw pl

/-! ### Unmapping -/

/-- The loop of `pt_unmap_memory` over the last `n` entries, from entry `ptIdx` on. -/
def ptUnmapMemoryFrom (pdtIdx : ℕ) (size : UInt32) : ℕ → State → ℕ → UInt32 → UInt32 × State
  | 0, s, _, freedSize => (freedSize, s)
  | n + 1, s, ptIdx, freedSize =>
    if freedSize < size then
      if pdtIdx = kernelPdtIdx ∧ ptIdx = kernelTmpPtIdx then
        (freedSize, s)
      else
        let s := if (s.tmp ptIdx).isEntryPresent then s.setTmp ptIdx Entry.zero else s
        ptUnmapMemoryFrom pdtIdx size n s (ptIdx + 1) (freedSize + fourKb)
    else
      (freedSize, s)

/-- `pt_unmap_memory`, for the table at `KERNEL_TMP_VADDR`. -/
def ptUnmapMemory (s : State) (pdtIdx : ℕ) (vaddr size : UInt32) : UInt32 × State :=
  let ptIdx := virtualToPtIdx vaddr
  ptUnmapMemoryFrom pdtIdx size (1024 - ptIdx) s ptIdx 0

/-- The part of a round of `pdt_unmap_memory` for a page table that is present: the table is
edited, and freed when `PDT_ENTRY_SIZE` bytes were unmapped. -/
def unmapRound (s : State) (d vaddr size : UInt32) : UInt32 × State :=
  let pdtIdx := virtualToPdtIdx vaddr
  let ptPaddr := (s.mem d pdtIdx).paddr
  let tmpEntry := kernelGetTemporaryEntry s
  let (freedSize, s) := ptUnmapMemory (kernelMapTemporaryMemory s ptPaddr) pdtIdx vaddr size
  let s := kernelSetTemporaryEntry s tmpEntry
  if freedSize = fourMb ∧ pdtIdx ≠ kernelPdtIdx then
    (freedSize, { s with pfa := Pfa.pfaFree s.pfa ptPaddr }.set d pdtIdx Entry.zero)
  else
    (freedSize, s)

/-- The variables of the loop of `pdt_unmap_memory`. -/
structure Unmapping where
  vaddr : UInt32
  freedSize : UInt32
  state : State

/-- A round of the loop of `pdt_unmap_memory`. -/
def pdtUnmapMemoryBody (d size endVaddr : UInt32) (u : Unmapping) : Unmapping ⊕ (UInt32 × State) :=
  if u.vaddr < endVaddr then
    if (u.state.mem d (virtualToPdtIdx u.vaddr)).isEntryPresent then
      let (freedSize, s) := unmapRound u.state d u.vaddr size
      .inl ⟨u.vaddr + freedSize, freedSize, s⟩
    else
      .inl { u with vaddr := alignUp u.vaddr fourMb }
  else
    .inr (u.freedSize, u.state)

/-- `pdt_unmap_memory`, for the directory in frame `d`, with at most `n` rounds of its loop. -/
def pdtUnmapMemory (n : ℕ) (s : State) (d vaddr size : UInt32) : Option (UInt32 × State) :=
  let size := alignUp size fourKb
  Loop.run (pdtUnmapMemoryBody d size (vaddr + size)) n ⟨vaddr, 0, s⟩

/-- `pdt_unmap_kernel_memory`. -/
def pdtUnmapKernelMemory (n : ℕ) (s : State) (vaddr size : UInt32) : Option (UInt32 × State) :=
  pdtUnmapMemory n s s.kernelPdt vaddr size

/-! ### Directories of processes -/

/-- `PDT_SIZE`. -/
abbrev pdtSize : UInt32 := 4096

/-- `pdt_create`: the pointer to the directory, 0 on failure, with `*out_paddr`.  `none` when
clearing the directory faults. -/
def pdtCreate (s : State) : Option ((UInt32 × UInt32) × State) :=
  let (pdtPaddr, pfa) := Pfa.pfaAllocate s.pfa 1
  let (pdtVaddr, s) := pdtKernelFindNextVaddr { s with pfa := pfa } pdtSize
  let (size, s) := pdtMapKernelMemory s pdtPaddr pdtVaddr pdtSize pagingReadWrite pagingPl0
  if size < pdtSize then
    some ((0, 0), { s with pfa := Pfa.pfaFree s.pfa pdtPaddr })
  else
    (s.resolve pdtVaddr).map fun d => ((pdtVaddr, pdtPaddr), s.fill d fun _ => Entry.zero)

/-- The loop of `pdt_delete`, over the entries of the directory in frame `d`. -/
def pdtDeleteTables (s : State) (d : UInt32) : State :=
  (List.range 1024).foldl (fun s i =>
    if (s.mem d i).isEntryPresent && (s.mem d i).isEntryPageTable then
      { s with pfa := Pfa.pfaFree s.pfa (s.mem d i).paddr }
    else
      s) s

/-- `pdt_delete`.  `none` when an access to the directory faults. -/
def pdtDelete (s : State) (pdt : UInt32) : Option State :=
  (s.resolve pdt).map fun d =>
    let (pdtPaddr, s) := getPdtPaddr (pdtDeleteTables s d) pdt
    { s with pfa := Pfa.pfaFree s.pfa pdtPaddr }

/-- The loop of `pdt_load_process_pdt`, over the kernel half of the directory in frame `d`. -/
def copyKernelEntries (s : State) (d : UInt32) : State :=
  (List.range' kernelPdtIdx 256).foldl (fun s i =>
    if (s.mem s.kernelPdt i).isEntryPresent then s.set d i (s.mem s.kernelPdt i) else s) s

/-- `pdt_set`. -/
def pdtSet (s : State) (pdtPaddr : UInt32) : State :=
  { s with cr3 := pdtPaddr &&& 0xFFFFF000 }

/-- `pdt_load_process_pdt`.  `none` when an access to the directory faults. -/
def pdtLoadProcessPdt (s : State) (pdt pdtPaddr : UInt32) : Option State :=
  (s.resolve pdt).map fun d => pdtSet (copyKernelEntries s d) pdtPaddr

end Paging
