import Aenix.Lib.Frames
import Aenix.Lib.Loop
import Aenix.Mem

/-!
# The kernel heap

`kmalloc.c` is the allocator of Kernighan and Ritchie: a circular list of free blocks through
the static header `base`, with a roving start pointer `freep`.  A block is a header and the
header-sized units after it; its size counts both.

Memory is modelled by the headers in it.  All headers of blocks are aligned to their size of
8 bytes, so two of them never overlap in part.  The page frames and the virtual addresses
behind the heap come from other parts of the kernel, which are a parameter (`Kernel`).
-/

open Aenix

namespace Kmalloc

/-- `struct header`. -/
structure Header where
  next : UInt32
  size : UInt32
  deriving DecidableEq, Repr

/-- `sizeof(header_t)`. -/
def headerSize : UInt32 := 8

/-- `MIN_BLOCK_SIZE`. -/
def minBlockSize : UInt32 := 1024

/-- The functions of the kernel that the heap calls, on the state `K` of the rest of the
kernel: `pfa_allocate`, `pdt_kernel_find_next_vaddr` and `pdt_map_kernel_memory` with the
rights of the heap.  `contents` is what the memory holds that is mapped by the latter. -/
structure Kernel (K : Type) where
  pfaAllocate : UInt32 → K → UInt32 × K
  pdtKernelFindNextVaddr : UInt32 → K → UInt32 × K
  pdtMapKernelMemory : UInt32 → UInt32 → UInt32 → K → UInt32 × K
  contents : K → UInt32 → Header

/-- The headers in memory, the static variable `freep`, and the rest of the kernel.
`acquired` records the regions given to the heap. -/
structure Heap (K : Type) where
  mem : UInt32 → Header
  freep : UInt32
  acquired : List Frames.Region
  kernel : K

/-- `p->next = q`. -/
def setNext (mem : UInt32 → Header) (p q : UInt32) : UInt32 → Header :=
  Function.update mem p { mem p with next := q }

/-- `p->size = n`. -/
def setSize (mem : UInt32 → Header) (p n : UInt32) : UInt32 → Header :=
  Function.update mem p { mem p with size := n }

/-- `p + n` for a pointer to headers. -/
def offset (p n : UInt32) : UInt32 :=
  p + n * headerSize

variable {K : Type}

/-! ### Freeing -/

/-- A round of the loop of `kfree`, which looks for the place of the block `bp`. -/
def kfreeBody (mem : UInt32 → Header) (bp p : UInt32) : UInt32 ⊕ UInt32 :=
  if bp > p ∧ bp < (mem p).next then
    .inr p
  else if p ≥ (mem p).next ∧ (bp > p ∨ bp < (mem p).next) then
    .inr p
  else
    .inl (mem p).next

/-- Joining the block `bp` to the block after `p`, or linking to it. -/
def joinUpper (mem : UInt32 → Header) (bp p : UInt32) : UInt32 → Header :=
  if offset bp (mem bp).size = (mem p).next then
    let mem := setSize mem bp ((mem bp).size + (mem (mem p).next).size)
    setNext mem bp (mem (mem p).next).next
  else
    setNext mem bp (mem p).next

/-- Joining the block `bp` to the block `p`, or linking `p` to it. -/
def joinLower (mem : UInt32 → Header) (bp p : UInt32) : UInt32 → Header :=
  if offset p (mem p).size = bp then
    let mem := setSize mem p ((mem p).size + (mem bp).size)
    setNext mem p (mem bp).next
  else
    setNext mem p bp

/-- `kfree`, with at most `n` rounds of its loop. -/
def kfree (n : ℕ) (s : Heap K) (ap : UInt32) : Option (Heap K) :=
  if ap = 0 then
    some s
  else
    let bp := ap - headerSize
    (Loop.run (kfreeBody s.mem bp) n s.freep).map fun p =>
      { s with mem := joinLower (joinUpper s.mem bp p) bp p, freep := p }

/-! ### Growing the heap -/

variable (kernel : Kernel K)

/-- The number of page frames that `acquire_more_heap` asks for. -/
def heapFrames (nunits : UInt32) : UInt32 :=
  divCeil ((if nunits < minBlockSize then minBlockSize else nunits) * headerSize) fourKb

/-- The variable `bytes` of `acquire_more_heap`. -/
def heapBytes (nunits : UInt32) : UInt32 :=
  heapFrames nunits * fourKb

/-- The part of `acquire_more_heap` before the new block is set up: the virtual address of
new memory, unless one of the calls fails. -/
def backing (nunits : UInt32) (k : K) : Option UInt32 × K :=
  let (paddr, k) := kernel.pfaAllocate (heapFrames nunits) k
  if paddr = 0 then
    (none, k)
  else
    let (vaddr, k) := kernel.pdtKernelFindNextVaddr (heapBytes nunits) k
    if vaddr = 0 then
      (none, k)
    else
      let (mappedMem, k) := kernel.pdtMapKernelMemory paddr vaddr (heapBytes nunits) k
      if mappedMem < heapBytes nunits then (none, k) else (some vaddr, k)

/-- Memory in which the `bytes` bytes from `vaddr` on are replaced. -/
def overlay (mem contents : UInt32 → Header) (vaddr bytes : UInt32) : UInt32 → Header :=
  fun a => if a - vaddr < bytes then contents a else mem a

/-- The heap with a new region of memory, whose first header holds its size. -/
def addRegion (s : Heap K) (vaddr bytes : UInt32) (k : K) : Heap K :=
  { s with
    mem := setSize (overlay s.mem (kernel.contents k) vaddr bytes) vaddr (bytes / headerSize)
    acquired := ⟨vaddr.toNat, bytes.toNat⟩ :: s.acquired
    kernel := k }

/-- `acquire_more_heap`, with at most `n` rounds of the loop of `kfree`. -/
def acquireMoreHeap (n : ℕ) (s : Heap K) (nunits : UInt32) : Option (UInt32 × Heap K) :=
  match backing kernel nunits s.kernel with
  | (none, k) => some (0, { s with kernel := k })
  | (some vaddr, k) =>
    (kfree n (addRegion kernel s vaddr (heapBytes nunits) k) (offset vaddr 1)).map fun s =>
      (s.freep, s)

/-! ### Allocating -/

/-- The variables `prevp` and `p` of `kmalloc`, with the heap. -/
structure Cursor (K : Type) where
  prevp : UInt32
  p : UInt32
  heap : Heap K

/-- Taking the block `p` after `prevp`, which is exactly large enough. -/
def takeExact (s : Heap K) (prevp p : UInt32) : UInt32 × Heap K :=
  (offset p 1, { s with mem := setNext s.mem prevp (s.mem p).next, freep := prevp })

/-- Taking `nunits` units from the tail end of the block `p`. -/
def takeTail (s : Heap K) (prevp p nunits : UInt32) : UInt32 × Heap K :=
  let mem := setSize s.mem p ((s.mem p).size - nunits)
  let q := offset p (mem p).size
  (offset q 1, { s with mem := setSize mem q nunits, freep := prevp })

/-- A round of the loop of `kmalloc`.  It leaves with `none` when the loop of `kfree` has run
out of its rounds. -/
def kmallocBody (n : ℕ) (nunits : UInt32) (c : Cursor K) : Cursor K ⊕ Option (UInt32 × Heap K) :=
  let s := c.heap
  if (s.mem c.p).size ≥ nunits then
    if (s.mem c.p).size = nunits then
      .inr (some (takeExact s c.prevp c.p))
    else
      .inr (some (takeTail s c.prevp c.p nunits))
  else if c.p = s.freep then
    match acquireMoreHeap kernel n s nunits with
    | none => .inr none
    | some (p, s) => if p = 0 then .inr (some (0, s)) else .inl ⟨p, (s.mem p).next, s⟩
  else
    .inl ⟨c.p, (s.mem c.p).next, s⟩

/-- The first lines of `kmalloc`, which set up an empty list. -/
def initList (base : UInt32) (s : Heap K) : Heap K :=
  if s.freep = 0 then
    { s with mem := setSize (setNext s.mem base base) base 0, freep := base }
  else
    s

@[simp]
theorem initList_kernel (base : UInt32) (s : Heap K) :
  (initList base s).kernel = s.kernel
  := by
  rw [initList]
  split
  · rfl
  · rfl

@[simp]
theorem initList_acquired (base : UInt32) (s : Heap K) :
  (initList base s).acquired = s.acquired
  := by
  rw [initList]
  split
  · rfl
  · rfl

/-- The variable `nunits` of `kmalloc`. -/
def unitsFor (nbytes : UInt32) : UInt32 :=
  (nbytes + headerSize - 1) / headerSize + 1

/-- `kmalloc`, with at most `n` rounds of its loop and of that of `kfree`. -/
def kmalloc (base : UInt32) (n : ℕ) (s : Heap K) (nbytes : UInt32) : Option (UInt32 × Heap K) :=
  if nbytes = 0 then
    some (0, s)
  else
    let s := initList base s
    (Loop.run (kmallocBody kernel n (unitsFor nbytes)) n ⟨s.freep, (s.mem s.freep).next, s⟩).join

end Kmalloc
