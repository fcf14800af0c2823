import Aenix.Kmalloc.Basic
import Aenix.Paging.Rounds
import Aenix.Process.Registers

/-!
# Processes

`process.c` builds processes and takes them apart.  It works on the state of the kernel heap,
which comprises that of paging and of the page frame allocator; a process is a value of type
`Ps`, in which the lists of `paddr_ele_t` are lists of their elements.

Programs fail to return (`none`) when one of the loops with a limit has not come to its end, and
when memory is accessed at an address that has no page.  Virtual addresses of the kernel are
resolved by `kernel_pdt`, those of a process by the active directory.  The file systems are a
parameter (`Vfs`).  The contents of heap blocks other than the elements of `Ps` are not
modelled; in particular, the path that `vfs_lookup` copies is not, and neither is what becomes
of the copy when `kmalloc` returns NULL, which `vfs_lookup` does not check.
-/

open Aenix
open Paging

namespace Process

/-- `struct vnode`. -/
structure Vnode where
  vOp : UInt32
  vData : UInt32
  deriving DecidableEq, Repr

/-- The mounted file systems, as far as `process.c` uses them: the number of bytes that
`vfs_lookup` allocates for its copy of a path (0 when it returns before), the vnode that it
finds, the size of a file, and what reading a file returns and leaves in the pages of the buffer,
given what they held. -/
structure Vfs where
  copied : List UInt8 → UInt32
  lookup : List UInt8 → Option Vnode
  fileSize : Vnode → Option UInt32
  read : Vnode → UInt32 → (ℕ → Table) → UInt32 × (ℕ → Table)

/-- The address of the static header `base` of `kmalloc.c`, a limit for the loops, and the file
systems. -/
structure Env where
  base : UInt32
  rounds : ℕ
  vfs : Vfs

/-- `struct paddr_ele`, with its own address. -/
structure PaddrEle where
  addr : UInt32
  paddr : UInt32
  count : UInt32
  deriving DecidableEq, Repr

/-- A vnode that an element of `file_descriptors` points to, with its address. -/
structure Fd where
  addr : UInt32
  vnode : Vnode
  deriving DecidableEq, Repr

/-- `struct ps`, with its own address. -/
structure Ps where
  addr : UInt32
  id : UInt32
  parentId : UInt32
  pdt : UInt32
  pdtPaddr : UInt32
  current : Registers
  userMode : Registers
  kernelStackStartVaddr : UInt32
  stackStartVaddr : UInt32
  codeStartVaddr : UInt32
  fileDescriptors : List (Option Fd)
  codePaddrs : List PaddrEle
  stackPaddrs : List PaddrEle
  kernelStackPaddrs : List PaddrEle
  deriving DecidableEq

/-- `sizeof(ps_t)`. -/
abbrev psSize : UInt32 := 404

/-- `sizeof(paddr_ele_t)`. -/
abbrev paddrEleSize : UInt32 := 12

/-- `sizeof(vnode_t)`. -/
abbrev vnodeSize : UInt32 := 8

/-- `PROCESS_MAX_NUM_FD`. -/
abbrev processMaxNumFd : ℕ := 64

/-- `KERNEL_STACK_SIZE`. -/
abbrev kernelStackSize : UInt32 := fourKb

/-- `PROC_INITIAL_STACK_SIZE`. -/
abbrev procInitialStackSize : UInt32 := 1

/-- `PROC_INITIAL_STACK_VADDR`. -/
abbrev procInitialStackVaddr : UInt32 := 0xBFFFF000

/-- `PROC_INITIAL_ESP`. -/
abbrev procInitialEsp : UInt32 := 0xBFFFFFFC

/-! ### Calls of the other parts of the kernel -/

/-- The word of an entry. -/
def word (e : Entry) : UInt32 :=
  e.config.toUInt32 ||| (e.middle.toUInt32 <<< 8) ||| (e.highAddr.toUInt32 <<< 16)

/-- The word at a virtual address of the kernel. -/
def wordAt (s : State) (a : UInt32) : UInt32 :=
  match s.resolve a with
  | some f => word (s.mem f ((a % fourKb) / 4).toNat)
  | none => 0

/-- The functions that `kmalloc` calls. -/
def kernel : Kmalloc.Kernel State where
  pfaAllocate := fun num s =>
    let (paddr, pfa) := Pfa.pfaAllocate s.pfa num
    (paddr, { s with pfa := pfa })
  pdtKernelFindNextVaddr := fun size s => pdtKernelFindNextVaddr s size
  pdtMapKernelMemory := fun paddr vaddr size s =>
    pdtMapKernelMemory s paddr vaddr size pagingReadWrite pagingPl0
  contents := fun s a => ⟨wordAt s a, wordAt s (a + 4)⟩

/-- Programs on the state of the kernel. -/
abbrev Kern := StateT (Kmalloc.Heap State) Option

/-- A program on the state of paging. -/
def paging {α : Type} (f : State → Option (α × State)) : Kern α := fun h =>
  (f h.kernel).map fun (a, s) => (a, { h with kernel := s })

/-- `kmalloc`. -/
def kmalloc (env : Env) (nbytes : UInt32) : Kern UInt32 := fun h =>
  Kmalloc.kmalloc kernel env.base env.rounds h nbytes

/-- `kfree`. -/
def kfree (env : Env) (ap : UInt32) : Kern Unit := fun h =>
  (Kmalloc.kfree env.rounds h ap).map fun h => ((), h)

/-- `pfa_allocate`. -/
def pfaAllocate (num : UInt32) : Kern UInt32 :=
  paging fun s =>
    let (paddr, pfa) := Pfa.pfaAllocate s.pfa num
    some (paddr, { s with pfa := pfa })

/-- `pfa_free_cont`. -/
def pfaFreeCont (paddr n : UInt32) : Kern Unit :=
  paging fun s => some ((), { s with pfa := Pfa.pfaFreeCont s.pfa paddr n })

/-- `pdt_kernel_find_next_vaddr`. -/
def findNextVaddr (size : UInt32) : Kern UInt32 :=
  paging fun s => some (pdtKernelFindNextVaddr s size)

/-- `pdt_map_kernel_memory`, with the rights that `process.c` asks for. -/
def mapKernelMemory (paddr vaddr size : UInt32) : Kern UInt32 :=
  paging fun s => some (pdtMapKernelMemory s paddr vaddr size pagingReadWrite pagingPl0)

/-- `pdt_unmap_kernel_memory`. -/
def unmapKernelMemory (env : Env) (vaddr size : UInt32) : Kern UInt32 :=
  paging fun s => pdtUnmapKernelMemory env.rounds s vaddr size

/-- `pdt_map_memory` for the directory at `pdt`, with the rights that `process.c` asks for. -/
def mapMemory (pdt paddr vaddr size : UInt32) : Kern UInt32 :=
  paging fun s =>
    (s.resolve pdt).map fun d => pdtMapMemory s d paddr vaddr size pagingReadWrite pagingPl3

/-- The page that is `k` pages after that of `vaddr`. -/
abbrev nthPage (vaddr : UInt32) (k : ℕ) : UInt32 :=
  vaddr + UInt32.ofNat k * fourKb

/-- The pages from `vaddr` on are overwritten with the contents `new` of `n` pages. -/
def writePages (vaddr : UInt32) (new : ℕ → Table) : ℕ → State → Option State
  | 0, s => some s
  | n + 1, s => do
    let s ← writePages vaddr new n s
    let f ← s.resolve (nthPage vaddr n)
    return s.fill f (new n)

/-- The contents of the pages from `vaddr` on. -/
def readPages (s : State) (vaddr : UInt32) (k : ℕ) : Table :=
  match s.resolve (nthPage vaddr k) with
  | some f => s.mem f
  | none => fun _ => Entry.zero

/-- `vfs_read` into a buffer at a virtual address of the kernel. -/
def vfsRead (env : Env) (node : Vnode) (buf count : UInt32) : Kern UInt32 :=
  paging fun s =>
    let (r, new) := env.vfs.read node count (readPages s buf)
    (writePages buf new (pages count) s).map fun s => (r, s)

/-- `memcpy` of `n` pages from the addresses of the process from `src` on to those of the kernel
from `dest` on. -/
def memcpyPages (dest src : UInt32) : ℕ → State → Option State
  | 0, s => some s
  | n + 1, s => do
    let s ← memcpyPages dest src n s
    let f ← s.resolve (nthPage dest n)
    let e ← s.page s.cr3 (nthPage src n)
    return s.fill f (s.mem e.paddr)

/-- `memcpy` from addresses of the process to addresses of the kernel. -/
def memcpy (dest src count : UInt32) : Kern Unit :=
  paging fun s => (memcpyPages dest src (pages count) s).map fun s => ((), s)

/-- `vfs_lookup`. -/
def vfsLookup (env : Env) (path : List UInt8) : Kern (Option Vnode) := do
  let p ← kmalloc env (env.vfs.copied path)
  kfree env p
  return env.vfs.lookup path

/-! ### Loading -/

/-- `process_load_code`.  The result is the process, or `none` when -1 is returned. -/
def processLoadCode (env : Env) (ps : Ps) (path : List UInt8) (vaddr : UInt32) :
    Kern (Option Ps) := do
  let some node ← vfsLookup env path | return none
  let some fileSize := env.vfs.fileSize node | return none
  let pfs := divCeil fileSize fourKb
  let paddr ← pfaAllocate pfs
  if paddr = 0 then
    return none
  let kernelVaddr ← findNextVaddr fileSize
  if kernelVaddr = 0 then
    return none
  let mappedMemorySize ← mapKernelMemory paddr kernelVaddr fileSize
  if mappedMemorySize < fileSize then
    let _ ← unmapKernelMemory env kernelVaddr fileSize
    return none
  let count ← vfsRead env node kernelVaddr fileSize
  if count ≠ fileSize then
    let _ ← unmapKernelMemory env kernelVaddr fileSize
    return none
  let _ ← unmapKernelMemory env kernelVaddr fileSize
  let mappedMemorySize ← mapMemory ps.pdt paddr vaddr fileSize
  if mappedMemorySize < fileSize then
    return none
  let codePaddrs ← kmalloc env paddrEleSize
  if codePaddrs = 0 then
    return none
  return some { ps with
    codePaddrs := [⟨codePaddrs, paddr, pfs⟩]
    userMode := { ps.userMode with eip := vaddr }
    codeStartVaddr := vaddr }

/-- `process_load_stack`. -/
def processLoadStack (env : Env) (ps : Ps) : Kern (Option Ps) := do
  let pfs := divCeil procInitialStackSize fourKb
  let paddr ← pfaAllocate pfs
  if paddr = 0 then
    return none
  let bytes := pfs * fourKb
  let mappedMemorySize ← mapMemory ps.pdt paddr procInitialStackVaddr bytes
  if mappedMemorySize < bytes then
    return none
  let stackPaddrs ← kmalloc env paddrEleSize
  if stackPaddrs = 0 then
    return none
  return some { ps with
    stackPaddrs := [⟨stackPaddrs, paddr, pfs⟩]
    stackStartVaddr := procInitialStackVaddr
    userMode := { ps.userMode with esp := procInitialEsp } }

/-- `process_load_kernel_stack`. -/
def processLoadKernelStack (env : Env) (ps : Ps) : Kern (Option Ps) := do
  let pfs := divCeil kernelStackSize fourKb
  let paddr ← pfaAllocate pfs
  if paddr = 0 then
    return none
  let bytes := pfs * fourKb
  let vaddr ← findNextVaddr bytes
  if vaddr = 0 then
    return none
  let mappedMemorySize ← mapKernelMemory paddr vaddr bytes
  if mappedMemorySize ≠ bytes then
    return none
  let kernelStackPaddrs ← kmalloc env paddrEleSize
  if kernelStackPaddrs = 0 then
    return none
  return some { ps with
    kernelStackPaddrs := [⟨kernelStackPaddrs, paddr, pfs⟩]
    kernelStackStartVaddr := vaddr + bytes - 4 }

/-- `process_load_pdt`. -/
def processLoadPdt (ps : Ps) : Kern (Option Ps) := do
  let (pdt, paddr) ← paging pdtCreate
  if pdt = 0 ∨ paddr = 0 then
    return none
  return some { ps with pdt := pdt, pdtPaddr := paddr }

/-! ### Deleting -/

/-- `delete_paddr_list`, with the frames counted before. -/
def deletePaddrList (env : Env) : List PaddrEle → UInt32 → Kern UInt32
  | [], size => return size * fourKb
  | e :: es, size => do
    pfaFreeCont e.paddr e.count
    kfree env e.addr
    deletePaddrList env es (size + e.count)

/-- `process_delete_resources`. -/
def processDeleteResources (env : Env) (ps : Ps) : Kern Unit := do
  if ps.pdt ≠ 0 then
    paging fun s => (pdtDelete s ps.pdt).map fun s => ((), s)
  if ps.kernelStackStartVaddr ≠ 0 then
    let size ← deletePaddrList env ps.kernelStackPaddrs 0
    let _ ← unmapKernelMemory env ps.kernelStackStartVaddr size
  let _ ← deletePaddrList env ps.codePaddrs 0
  let _ ← deletePaddrList env ps.stackPaddrs 0

/-- `process_delete_and_free`. -/
def processDeleteAndFree (env : Env) (ps : Ps) : Kern Unit := do
  processDeleteResources env ps
  kfree env ps.addr

/-! ### Creating -/

/-- The registers after `memset` to 0. -/
def Registers.zero : Registers := ⟨0, 0, 0, 0, 0, 0, 0, 0, 0, 0, 0, 0⟩

/-- `process_init`, for the `ps_t` at `addr`. -/
def processInit (addr id : UInt32) : Ps where
  addr := addr
  id := id
  parentId := 0
  pdt := 0
  pdtPaddr := 0
  current := Registers.zero
  -- `SEGSEL_USER_SPACE_DS | 0x03`, `REG_EFLAGS_DEFAULT` and `SEGSEL_USER_SPACE_CS | 0x03`
  userMode := { Registers.zero with ss := 0x20 ||| 0x03, eflags := 0x202, cs := 0x18 ||| 0x03 }
  kernelStackStartVaddr := 0
  stackStartVaddr := procInitialStackVaddr
  codeStartVaddr := 0
  fileDescriptors := List.replicate processMaxNumFd none
  codePaddrs := []
  stackPaddrs := []
  kernelStackPaddrs := []

/-- `process_create`.  `none` stands for NULL. -/
def processCreate (env : Env) (path : List UInt8) (id : UInt32) : Kern (Option Ps) := do
  let addr ← kmalloc env psSize
  if addr = 0 then
    return none
  let ps := processInit addr id
  let some ps' ← processLoadPdt ps | do
    processDeleteAndFree env ps
    return none
  let ps := ps'
  let some ps' ← processLoadCode env ps path 0 | do
    processDeleteAndFree env ps
    return none
  let ps := ps'
  let some ps' ← processLoadStack env ps | do
    processDeleteAndFree env ps
    return none
  let ps := ps'
  let some ps' ← processLoadKernelStack env ps | do
    processDeleteAndFree env ps
    return none
  let ps := ps'
  return some { ps with current := ps.userMode }

/-- `process_copy_file_descriptors`: the descriptors of the copy, or `none` when -1 is returned. -/
def processCopyFileDescriptors (env : Env) : List (Option Fd) → Kern (Option (List (Option Fd)))
  | [] => return some []
  | none :: fds => do
    let copies ← processCopyFileDescriptors env fds
    return copies.map (none :: ·)
  | some fd :: fds => do
    let copy ← kmalloc env vnodeSize
    if copy = 0 then
      return none
    let copies ← processCopyFileDescriptors env fds
    return copies.map (some ⟨copy, fd.vnode⟩ :: ·)

/-- `process_create_replacement`. -/
def processCreateReplacement (env : Env) (parent : Ps) (path : List UInt8) : Kern (Option Ps) := do
  let some child ← processCreate env path parent.id | return none
  let child := { child with parentId := parent.parentId }
  let some fds ← processCopyFileDescriptors env parent.fileDescriptors | do
    processDeleteAndFree env child
    return none
  return some { child with fileDescriptors := fds }

/-- `process_copy_paddr_list`: whether 0 is returned, and the list `to`.  An element that could
not be mapped is freed but stays in the list. -/
def processCopyPaddrList (env : Env) (pdt : UInt32) :
    UInt32 → List PaddrEle → List PaddrEle → Kern (Bool × List PaddrEle)
  | _, [], dest => return (true, dest)
  | vaddr, p :: ps, dest => do
    let paddr ← pfaAllocate p.count
    if paddr = 0 then
      return (false, dest)
    let bytes := p.count * fourKb
    let kernelVaddr ← findNextVaddr bytes
    if kernelVaddr = 0 then
      pfaFreeCont paddr p.count
      return (false, dest)
    let mapped ← mapKernelMemory paddr kernelVaddr bytes
    if mapped < bytes then
      let _ ← unmapKernelMemory env kernelVaddr bytes
      pfaFreeCont paddr p.count
      return (false, dest)
    memcpy kernelVaddr vaddr bytes
    let _ ← unmapKernelMemory env kernelVaddr bytes
    let pe ← kmalloc env paddrEleSize
    if pe = 0 then
      pfaFreeCont paddr p.count
      return (false, dest)
    let dest := dest ++ [⟨pe, paddr, p.count⟩]
    let mapped ← mapMemory pdt paddr vaddr bytes
    if mapped < bytes then
      kfree env pe
      pfaFreeCont paddr p.count
      return (false, dest)
    processCopyPaddrList env pdt (vaddr + bytes) ps dest

/-- `process_clone`. -/
def processClone (env : Env) (parent : Ps) (id : UInt32) : Kern (Option Ps) := do
  let addr ← kmalloc env psSize
  if addr = 0 then
    return none
  let child := { processInit addr id with parentId := parent.id, userMode := parent.userMode }
  let some child' ← processLoadPdt child | do
    processDeleteAndFree env child
    return none
  let child := { child' with codeStartVaddr := parent.codeStartVaddr }
  let (ok, code) ← processCopyPaddrList env child.pdt parent.codeStartVaddr parent.codePaddrs []
  let child := { child with codePaddrs := code }
  if !ok then
    processDeleteAndFree env child
    return none
  let child := { child with stackStartVaddr := parent.stackStartVaddr }
  let (ok, stack) ← processCopyPaddrList env child.pdt parent.stackStartVaddr parent.stackPaddrs []
  let child := { child with stackPaddrs := stack }
  if !ok then
    processDeleteAndFree env child
    return none
  let some child' ← processLoadKernelStack env child | do
    processDeleteAndFree env child
    return none
  let child := child'
  let some fds ← processCopyFileDescriptors env parent.fileDescriptors | do
    processDeleteAndFree env child
    return none
  return some { child with fileDescriptors := fds }

end Process
