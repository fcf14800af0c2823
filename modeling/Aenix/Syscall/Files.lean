import Aenix.Kmalloc.Safety
import Aenix.Lib.After
import Aenix.Process.Basic
import Aenix.Syscall.Entry
import Aenix.Vfs.Basic

/-!
# System calls for files

`sys_open`, `sys_read` and `sys_write` work on the table `file_descriptors` of the calling process, whose
elements are pointers to vnodes, NULL when they are not in use.  Memory is given by what is stored in it: the
words of the table and around it, the vnodes at their addresses, and the heap; these parts do not overlap.
What is at the address NULL is memory like any other.  The indices at which the table is accessed and the calls
of the operations of vnodes are recorded.

`sys_read` compares the descriptor with the size of the table, and `sys_write` does not: descriptors are
checked except by `sys_write` with a descriptor past the end of the table (`descriptors_validated_iff`).
-/

open Process (Vnode vnodeSize processMaxNumFd)

namespace Syscall

/-- A call of an operation of a vnode: the pointer to the vnode, and the other arguments. -/
inductive VnodeCall
  | vnOpen (vnode : UInt32)
  | vnRead (vnode buf count : UInt32)
  | vnWrite (vnode str len : UInt32)
  deriving DecidableEq

/-- The vnode whose operation is called. -/
def VnodeCall.vnode : VnodeCall → UInt32
  | .vnOpen vnode => vnode
  | .vnRead vnode _ _ => vnode
  | .vnWrite vnode _ _ => vnode

/-- The operations of the vnodes: `vn_lookup`, and what the others return and do to the rest of the kernel.
None of them uses the heap or the table of a process. -/
structure Ops (K : Type) extends Vfs.Vnodeops Vnode where
  run : VnodeCall → Vnode → K → UInt32 × K

/-- The heap, the words and the vnodes in memory, the indices at which `file_descriptors` has been accessed,
and the calls of operations of vnodes. -/
structure Files (K : Type) where
  client : Kmalloc.Client K
  mem : UInt32 → UInt32
  nodes : UInt32 → Vnode
  accessed : List UInt32
  calls : List VnodeCall

/-- The functions below the heap, the address of the static header `base` of `kmalloc.c`, a limit for the
loops of the heap, the file systems, and the address of `file_descriptors` of the calling process. -/
structure Env (K : Type) where
  kernel : Kmalloc.Kernel K
  base : UInt32
  rounds : ℕ
  ops : Ops K
  vfsList : List (Vfs.VfsT Vnode)
  fds : UInt32

/-- The words and the strings in the memory of the calling process. -/
structure User where
  mem : UInt32 → UInt32
  str : UInt32 → Vfs.Str

/-- Programs that work with files. -/
abbrev Prog (K : Type) := StateT (Files K) Option

section Code

variable {K : Type} (env : Env K) (user : User)

/-- The address of `file_descriptors[fd].vnode`. -/
def Env.slot (fd : UInt32) : UInt32 :=
  env.fds + 4 * fd

/-- Reading `file_descriptors[fd].vnode`. -/
def loadDescriptor (fd : UInt32) : Prog K UInt32 := fun s =>
  some (s.mem (env.slot fd), { s with accessed := s.accessed ++ [fd] })

/-- Writing `file_descriptors[fd].vnode`. -/
def storeDescriptor (fd vnode : UInt32) : Prog K Unit := fun s =>
  some ((), { s with
    mem := Function.update s.mem (env.slot fd) vnode
    accessed := s.accessed ++ [fd] })

/-- A call of an operation of a vnode. -/
def callVnode (c : VnodeCall) : Prog K UInt32 := fun s =>
  let (r, k) := env.ops.run c (s.nodes c.vnode) s.client.heap.kernel
  some (r, { s with
    client := { s.client with heap := { s.client.heap with kernel := k } }
    calls := s.calls ++ [c] })

/-- A call of the heap. -/
def heapCall (x : Kmalloc.Call) : Prog K UInt32 := fun s =>
  (Kmalloc.exec env.kernel env.base env.rounds s.client x).map fun (r, client) =>
    (r, { s with client := client })

/-- `kmalloc`. -/
def kmalloc (nbytes : UInt32) : Prog K UInt32 :=
  heapCall env (.kmalloc nbytes)

/-- `kfree`. -/
def kfree (ap : UInt32) : Prog K Unit := do
  let _ ← heapCall env (.kfree ap)

/-- The last lines of `sys_read` and `sys_write`: the vnode of the descriptor, if there is one, gets the call
`op`. -/
def callDescriptor (fd : UInt32) (op : UInt32 → VnodeCall) : Prog K UInt32 := do
  let vnode ← loadDescriptor env fd
  if vnode = 0 then
    return -1
  callVnode env (op vnode)

/-- `sys_read`. -/
def sysRead : Handler (Files K) := fun _syscall stack =>
  show Prog K UInt32 from do
    let fd := user.mem stack
    let buf := user.mem (stack + 4)
    let count := user.mem (stack + 8)
    if processMaxNumFd ≤ fd.toNat then
      return -1
    callDescriptor env fd fun vnode => .vnRead vnode buf count

/-- `sys_write`. -/
def sysWrite : Handler (Files K) := fun _syscall stack =>
  show Prog K UInt32 from do
    let fd := user.mem stack
    let str := user.mem (stack + 4)
    let len := user.mem (stack + 8)
    callDescriptor env fd fun vn => .vnWrite vn str len

/-- The loop of `get_next_fd` over the `n` elements from `i` on. -/
def getNextFdFrom : ℕ → UInt32 → Prog K UInt32
  | 0, _ => return -1
  | n + 1, i => do
    let vnode ← loadDescriptor env i
    if vnode = 0 then
      return i
    getNextFdFrom n (i + 1)

/-- `get_next_fd`, for the table of the calling process. -/
def getNextFd : Prog K UInt32 :=
  getNextFdFrom env processMaxNumFd 0

/-- The loop of `vfs_lookup`, from `vnode` on. -/
def walk (vnode : Vnode) (path : Vfs.Str) (res : UInt32) : Prog K Int := fun s =>
  let (ret, v) := Vfs.walkFrom env.ops.toVnodeops path.length vnode path 0 (s.nodes res)
  some (ret, { s with nodes := Function.update s.nodes res v })

/-- `vfs_lookup`, with the copy of the rest of the path.  It fails to return when it uses the variable `root`
without a value. -/
def vfsLookup (path : Vfs.Str) (res : UInt32) : Prog K Int := do
  if path.length < 1 then
    return -1
  if path.head? ≠ some Vfs.slash then
    return -1
  let some (root, path) := Vfs.selected env.vfsList path | failure
  let some vnode := root.vfsRoot | return -1
  if path.length = 0 then
    modify fun s => { s with nodes := Function.update s.nodes res vnode }
    return 0
  let orgp ← kmalloc env (UInt32.ofNat (path.length + 1))
  let ret ← walk env vnode path res
  kfree env orgp
  return ret

/-- `sys_open`. -/
def sysOpen : Handler (Files K) := fun _syscall stack =>
  show Prog K UInt32 from do
    let path := user.str (user.mem stack)
    let vnode ← kmalloc env vnodeSize
    if (← vfsLookup env path vnode) ≠ 0 then
      return -1
    let fd ← getNextFd env
    if fd = -1 then
      kfree env vnode
      return -1
    if (← callVnode env (.vnOpen vnode)) ≠ 0 then
      kfree env vnode
      return -1
    storeDescriptor env fd vnode
    return fd

end Code

/-! ### What the calls check -/

/-- The system calls that take or return a descriptor. -/
inductive FileCall
  | sysOpen
  | sysRead
  | sysWrite
  deriving DecidableEq

variable {K : Type} (env : Env K) (user : User) (s : Files K)

/-- The descriptor is that of an open file. -/
def IsOpen (fd : UInt32) : Prop :=
  fd.toNat < processMaxNumFd ∧ s.mem (env.slot fd) ≠ 0

/-- `file_descriptors` has been accessed within its bounds only. -/
def Within (s s' : Files K) : Prop :=
  ∃ fds, s'.accessed = s.accessed ++ fds ∧ ∀ fd ∈ fds, fd.toNat < processMaxNumFd

/-- What is promised of a call with the descriptor `fd`, which is to call the operation `op`: when it returns
`r`, the operation of the vnode of `fd` has been called if the descriptor is that of an open file, and no
operation otherwise. -/
structure Checked (fd : UInt32) (op : UInt32 → VnodeCall) (r : UInt32) (s' : Files K) : Prop where
  within : Within s s'
  closed : ¬ IsOpen env s fd → r = -1 ∧ s'.calls = s.calls
  opened : IsOpen env s fd →
    s'.calls = s.calls ++ [op (s.mem (env.slot fd))] ∧
      r = (env.ops.run (op (s.mem (env.slot fd))) (s.nodes (op (s.mem (env.slot fd))).vnode)
        s.client.heap.kernel).1

/-- What is promised of `sys_open`: it stores only into an empty element of the table, and returns the index. -/
structure Stored (r : UInt32) (s' : Files K) : Prop where
  within : Within s s'
  stored : s'.mem = s.mem ∨ (r.toNat < processMaxNumFd ∧ s.mem (env.slot r) = 0 ∧
    ∃ vnode, s'.mem = Function.update s.mem (env.slot r) vnode)

/-- What is promised of a system call with the given arguments on the user stack. -/
def Validated (syscall stack : UInt32) : FileCall → Prop
  | .sysOpen => ∀ r s', sysOpen env user syscall stack s = some (r, s') → Stored env s r s'
  | .sysRead => ∃ r s', sysRead env user syscall stack s = some (r, s') ∧
    Checked env s (user.mem stack)
      (fun vnode => .vnRead vnode (user.mem (stack + 4)) (user.mem (stack + 8))) r s'
  | .sysWrite => ∃ r s', sysWrite env user syscall stack s = some (r, s') ∧
    Checked env s (user.mem stack)
      (fun vnode => .vnWrite vnode (user.mem (stack + 4)) (user.mem (stack + 8))) r s'

variable {env user s} {s' s'' : Files K} {fd syscall stack : UInt32}

theorem Within.refl (s : Files K) :
  Within s s
  := ⟨[], by simp, by simp⟩

theorem Within.trans (h : Within s s') (h' : Within s' s'') :
  Within s s''
  := by
  obtain ⟨fds, haccessed, hin⟩ := h
  obtain ⟨fds', haccessed', hin'⟩ := h'
  refine ⟨fds ++ fds', by rw [haccessed', haccessed, List.append_assoc], ?_⟩
  intro i hi
  rcases List.mem_append.mp hi with hi | hi
  · apply hin i hi
  · apply hin' i hi

/-- The accesses that a call has made are determined. -/
theorem within_singleton_iff (haccessed : s'.accessed = s.accessed ++ [fd]) :
  Within s s' ↔ fd.toNat < processMaxNumFd
  := by
  constructor
  · rintro ⟨fds, heq, hin⟩
    rw [haccessed] at heq
    exact hin fd (List.append_cancel_left heq ▸ List.mem_singleton_self fd)
  · intro hlt
    refine ⟨[fd], haccessed, ?_⟩
    intro i hi
    rwa [List.mem_singleton.mp hi]

/-! ### Reading and writing -/

theorem callDescriptor_eq (s : Files K) (fd : UInt32) (op : UInt32 → VnodeCall) :
  callDescriptor env fd op s =
    if s.mem (env.slot fd) = 0 then
      some (-1, { s with accessed := s.accessed ++ [fd] })
    else
      callVnode env (op (s.mem (env.slot fd))) { s with accessed := s.accessed ++ [fd] }
  := by
  by_cases hnull : s.mem (env.slot fd) = 0
  · rw [if_pos hnull]
    simp only [callDescriptor, loadDescriptor, bind, StateT.bind, Option.bind_some, hnull]
    rfl
  · rw [if_neg hnull]
    simp only [callDescriptor, loadDescriptor, bind, StateT.bind, Option.bind_some, if_neg hnull]

theorem callDescriptor_checked (env : Env K) (s : Files K) (fd : UInt32) (op : UInt32 → VnodeCall) :
  ∃ r s', callDescriptor env fd op s = some (r, s') ∧ s'.accessed = s.accessed ++ [fd] ∧
    (fd.toNat < processMaxNumFd → Checked env s fd op r s')
  := by
  rw [callDescriptor_eq]
  by_cases hnull : s.mem (env.slot fd) = 0
  · rw [if_pos hnull]
    refine ⟨_, _, rfl, rfl, ?_⟩
    intro hlt
    exact ⟨(within_singleton_iff rfl).mpr hlt, fun _ => ⟨rfl, rfl⟩, fun hopen => absurd hnull hopen.2⟩
  · rw [if_neg hnull]
    refine ⟨_, _, rfl, rfl, ?_⟩
    intro hlt
    refine ⟨(within_singleton_iff rfl).mpr hlt, ?_, fun _ => ⟨rfl, rfl⟩⟩
    exact fun hclosed => absurd ⟨hlt, hnull⟩ hclosed

theorem sysRead_validated (env : Env K) (user : User) (s : Files K) (syscall stack : UInt32) :
  Validated env user s syscall stack .sysRead
  := by
  by_cases hbad : processMaxNumFd ≤ (user.mem stack).toNat
  · refine ⟨-1, s, ?_, Within.refl s, fun _ => ⟨rfl, rfl⟩, fun hopen => ?_⟩
    · simp only [sysRead, if_pos hbad]
      rfl
    · exact absurd hopen.1 (by omega)
  · obtain ⟨r, s', hrun, -, hchecked⟩ := callDescriptor_checked env s (user.mem stack)
      (fun vnode => .vnRead vnode (user.mem (stack + 4)) (user.mem (stack + 8)))
    refine ⟨r, s', ?_, hchecked (by omega)⟩
    simp only [sysRead, if_neg hbad]
    apply hrun

/-- `sys_write` accesses the table at whatever index it is given. -/
theorem sysWrite_validated_iff :
  Validated env user s syscall stack .sysWrite ↔ (user.mem stack).toNat < processMaxNumFd
  := by
  obtain ⟨r, s', hrun, haccessed, hchecked⟩ := callDescriptor_checked env s (user.mem stack)
    (fun vnode => .vnWrite vnode (user.mem (stack + 4)) (user.mem (stack + 8)))
  constructor
  · rintro ⟨r', s'', hrun', hchecked'⟩
    obtain ⟨rfl, rfl⟩ := Prod.mk.inj (Option.some.inj (hrun.symm.trans hrun'))
    exact (within_singleton_iff haccessed).mp hchecked'.within
  · intro hlt
    exact ⟨r, s', hrun, hchecked hlt⟩

/-! ### Opening -/

/-- A part of `sys_open` leaves the table as it is, and accesses it within its bounds. -/
structure Quiet (s s' : Files K) : Prop where
  within : Within s s'
  mem : s'.mem = s.mem

theorem Quiet.refl (s : Files K) :
  Quiet s s
  := ⟨Within.refl s, rfl⟩

theorem Quiet.trans (h : Quiet s s') (h' : Quiet s' s'') :
  Quiet s s''
  := ⟨h.within.trans h'.within, h'.mem.trans h.mem⟩

/-- Parts of the state other than the table and what is recorded of it. -/
theorem Quiet.of_eq (haccessed : s'.accessed = s.accessed) (hmem : s'.mem = s.mem) :
  Quiet s s'
  := ⟨⟨[], by simp [haccessed], by simp⟩, hmem⟩

theorem heapCall_quiet (s : Files K) (x : Kmalloc.Call) :
  After (heapCall env x) s fun _ s' => Quiet s s'
  := by
  intro r s' hrun
  obtain ⟨_, _, heq⟩ := Option.map_eq_some_iff.mp hrun
  obtain ⟨-, rfl⟩ := Prod.mk.inj heq
  exact Quiet.of_eq rfl rfl

theorem kfree_quiet (s : Files K) (ap : UInt32) :
  After (kfree env ap) s fun _ s' => Quiet s s'
  := (heapCall_quiet s _).bind fun _ _ hquiet => After.pure hquiet

theorem callVnode_quiet (s : Files K) (c : VnodeCall) :
  After (callVnode env c) s fun _ s' => Quiet s s'
  := by
  intro r s' hrun
  obtain ⟨-, rfl⟩ := Prod.mk.inj (Option.some.inj hrun)
  exact Quiet.of_eq rfl rfl

theorem walk_quiet (s : Files K) (vnode : Vnode) (path : Vfs.Str) (res : UInt32) :
  After (walk env vnode path res) s fun _ s' => Quiet s s'
  := by
  intro r s' hrun
  obtain ⟨-, rfl⟩ := Prod.mk.inj (Option.some.inj hrun)
  exact Quiet.of_eq rfl rfl

theorem loadDescriptor_quiet (s : Files K) (hlt : fd.toNat < processMaxNumFd) :
  After (loadDescriptor env fd) s fun vnode s' => Quiet s s' ∧ vnode = s.mem (env.slot fd)
  := by
  intro r s' hrun
  obtain ⟨rfl, rfl⟩ := Prod.mk.inj (Option.some.inj hrun)
  exact ⟨⟨(within_singleton_iff rfl).mpr hlt, rfl⟩, rfl⟩

/-- The loop of `get_next_fd` finds an empty element, or none. -/
theorem getNextFdFrom_spec (s : Files K) {n : ℕ} {i : UInt32} (hi : i.toNat + n = processMaxNumFd) :
  After (getNextFdFrom env n i) s fun fd s' =>
    Quiet s s' ∧ (fd = -1 ∨ (fd.toNat < processMaxNumFd ∧ s.mem (env.slot fd) = 0))
  := by
  induction n generalizing s i with
  | zero => exact After.pure ⟨Quiet.refl s, Or.inl rfl⟩
  | succ n ih =>
      have hlt : i.toNat < processMaxNumFd := by omega
      refine After.bind (loadDescriptor_quiet s hlt) ?_
      rintro vnode s₁ ⟨hquiet, rfl⟩
      refine After.ite ?_ ?_
      · intro hnull
        exact After.pure ⟨hquiet, Or.inr ⟨hlt, hnull⟩⟩
      · intro _
        have hnext : (i + 1).toNat + n = processMaxNumFd := by
          rw [processMaxNumFd] at hi hlt ⊢
          rw [UInt32.toNat_add, UInt32.toNat_one]
          omega
        refine (ih s₁ hnext).mono ?_
        rintro fd s₂ ⟨hquiet', hfound⟩
        rw [hquiet.mem] at hfound
        exact ⟨hquiet.trans hquiet', hfound⟩

theorem vfsLookup_quiet (s : Files K) (path : Vfs.Str) (res : UInt32) :
  After (vfsLookup env path res) s fun _ s' => Quiet s s'
  := by
  refine After.ite (fun _ => After.pure (Quiet.refl s)) fun _ => ?_
  refine After.ite (fun _ => After.pure (Quiet.refl s)) fun _ => ?_
  split
  case h_2 => exact fun _ _ hrun => by simp [failure, Alternative.failure, StateT.failure] at hrun
  case h_1 root path _ =>
    split
    case h_2 => exact After.pure (Quiet.refl s)
    case h_1 vnode _ =>
      refine After.ite ?_ ?_
      · intro _ r s' hrun
        obtain ⟨-, rfl⟩ := Prod.mk.inj (Option.some.inj hrun)
        exact Quiet.of_eq rfl rfl
      · intro _
        refine After.bind (heapCall_quiet s _) ?_
        intro orgp s₁ hquiet₁
        refine After.bind (walk_quiet s₁ _ _ _) ?_
        intro ret s₂ hquiet₂
        refine After.bind (kfree_quiet s₂ _) ?_
        intro _ s₃ hquiet₃
        exact After.pure (hquiet₁.trans (hquiet₂.trans hquiet₃))

/-- `sys_open` stores into an empty element, and returns its index. -/
theorem sysOpen_stored (s : Files K) (syscall stack : UInt32) :
  After (sysOpen env user syscall stack) s fun r s' => Stored env s r s'
  := by
  have hnone : ∀ {r s'}, Quiet s s' → Stored env s r s' :=
    fun hquiet => ⟨hquiet.within, Or.inl hquiet.mem⟩
  refine After.bind (heapCall_quiet s _) ?_
  intro vnode s₁ hquiet₁
  refine After.bind (vfsLookup_quiet s₁ _ _) ?_
  intro ret s₂ hquiet₂
  have hquiet₂ := hquiet₁.trans hquiet₂
  refine After.ite (fun _ => After.pure (hnone hquiet₂)) fun _ => ?_
  refine After.bind (getNextFdFrom_spec s₂ rfl) ?_
  rintro fd s₃ ⟨hquiet₃, hfound⟩
  rw [hquiet₂.mem] at hfound
  have hquiet₃ := hquiet₂.trans hquiet₃
  refine After.ite ?_ fun hfd => ?_
  · intro _
    refine After.bind (kfree_quiet s₃ _) ?_
    exact fun _ s' hquiet => After.pure (hnone (hquiet₃.trans hquiet))
  · refine After.bind (callVnode_quiet s₃ _) ?_
    intro ret s₄ hquiet₄
    have hquiet₄ := hquiet₃.trans hquiet₄
    refine After.ite ?_ fun _ => ?_
    · intro _
      refine After.bind (kfree_quiet s₄ _) ?_
      exact fun _ s' hquiet => After.pure (hnone (hquiet₄.trans hquiet))
    · obtain ⟨hlt, hnull⟩ := hfound.resolve_left hfd
      intro r s' hrun
      obtain ⟨rfl, rfl⟩ := Prod.mk.inj (Option.some.inj hrun)
      refine ⟨hquiet₄.within.trans ?_, Or.inr ⟨hlt, hnull, vnode, ?_⟩⟩
      · exact (within_singleton_iff rfl).mpr hlt
      · exact congrArg (Function.update · _ _) hquiet₄.mem

/-- The descriptor of a system call is checked, except by `sys_write` when it is past the end of the table. -/
theorem descriptors_validated_iff (env : Env K) (user : User) (s : Files K) (syscall stack : UInt32)
    (c : FileCall) :
  Validated env user s syscall stack c ↔
    (c = .sysWrite → (user.mem stack).toNat < processMaxNumFd)
  := by
  cases c with
  | sysOpen => exact ⟨fun _ h => by simp at h, fun _ => sysOpen_stored s syscall stack⟩
  | sysRead => exact ⟨fun _ h => by simp at h, fun _ => sysRead_validated env user s syscall stack⟩
  | sysWrite => exact sysWrite_validated_iff.trans ⟨fun h _ => h, fun h => h rfl⟩

/-- Devices without names, which take whatever is written to them. -/
def nameless : Ops Unit where
  vnLookup := fun _ _ out => (-1, out)
  run
    | .vnOpen _, _, k => (0, k)
    | .vnRead _ _ _, _, k => (0, k)
    | .vnWrite _ _ len, _, k => (len, k)

/-- A kernel with nothing mounted but `/`. -/
def rootOnly : Env Unit where
  kernel := Kmalloc.oneRegion
  base := 0xC0100000
  rounds := 8
  ops := nameless
  vfsList := [⟨[Vfs.slash], some ⟨1, 2⟩⟩]
  fds := 0xD0000100

/-- A process without open files.  The word after the table is `code_paddrs.start`. -/
def noFiles : Files Unit where
  client := Kmalloc.emptyHeap
  mem := fun a => if a = 0xD0000200 then 0xD0000300 else 0
  nodes := fun _ => ⟨0x400000, 1⟩
  accessed := []
  calls := []

/-- A program that writes 3 characters to descriptor 64. -/
def writes64 : User where
  mem := fun a => if a = 0x1000 then 64 else if a = 0x1004 then 0x2000 else 3
  str := fun _ => []

/-- `sys_write` takes `code_paddrs.start` for the pointer to a vnode, and calls its operation. -/
theorem descriptor_64_written :
  (sysWrite rootOnly writes64 2 0x1000 noFiles).map (fun r => (r.2.accessed, r.2.calls)) =
      some ([64], [.vnWrite 0xD0000300 0x2000 3]) ∧
    ¬ Validated rootOnly writes64 noFiles 2 0x1000 .sysWrite
  := by
  refine ⟨rfl, ?_⟩
  rw [sysWrite_validated_iff]
  decide

end Syscall
