import Aenix.Process.Registers

/-!
# Entering and leaving a system call

A system call is the interrupt `0xAE`.  The registers of the caller travel through four
layouts: the words the processor and `handle_syscall` push, `struct cpu_state` and
`struct stack_state` as the C code reads those words, `struct registers` in which it keeps
them, and the offsets at which `run_process_in_user_mode` loads them again.

`handle_syscall` pushes `eax, ecx, edx, ebx, esp, ebp, esi, edi`, while `struct cpu_state`
ends in `edx, ecx, ebx, eax, esp`; so what returns in `ebx`, `ecx` and `edx` is what was in
`edx`, in `ebx` and in the stack pointer of the kernel.
-/

open IA32 Process

namespace Syscall

/-- `struct cpu_state`. -/
structure CpuState where
  edi : UInt32
  esi : UInt32
  ebp : UInt32
  edx : UInt32
  ecx : UInt32
  ebx : UInt32
  eax : UInt32
  esp : UInt32

/-- `struct stack_state`. -/
structure StackState where
  eip : UInt32
  cs : UInt32
  eflags : UInt32
  userEsp : UInt32
  userSs : UInt32

/-- The packed `struct cpu_state` at `p`. -/
def CpuState.read (mem : UInt32 → UInt32) (p : UInt32) : CpuState where
  edi := mem p
  esi := mem (p + 4)
  ebp := mem (p + 8)
  edx := mem (p + 12)
  ecx := mem (p + 16)
  ebx := mem (p + 20)
  eax := mem (p + 24)
  esp := mem (p + 28)

/-- The packed `struct stack_state` at `p`. -/
def StackState.read (mem : UInt32 → UInt32) (p : UInt32) : StackState where
  eip := mem p
  cs := mem (p + 4)
  eflags := mem (p + 8)
  userEsp := mem (p + 12)
  userSs := mem (p + 16)

/-- What `update_user_mode_registers` writes to `ps->user_mode`. -/
def updateUserModeRegisters (cs : CpuState) (es : StackState) : Registers where
  eax := cs.eax
  ebx := cs.ebx
  ecx := cs.ecx
  edx := cs.edx
  ebp := cs.ebp
  esi := cs.esi
  edi := cs.edi
  eflags := es.eflags
  eip := es.eip
  esp := es.userEsp
  ss := es.userSs
  cs := es.cs

/-- `NUM_SYSCALLS`. -/
def numSyscalls : ℕ := 8

/-- A system call handler: from its number, the address of its arguments on the user stack
and the kernel to its result and the kernel, or to nothing when it does not return.  No
handler that returns writes the `user_mode` registers of the calling process. -/
abbrev Handler (K : Type) := UInt32 → UInt32 → K → Option (UInt32 × K)

/-- A user process at an `int 0xAE` instruction; `eip` is the instruction after it. -/
structure UserCpu extends Cpu where
  user : cs &&& 3 = 3

variable {K : Type} (handlers : Fin numSyscalls → Handler K) (userMem : UInt32 → UInt32)

/-- The choice of the handler in `syscall_handle_interrupt`, and its result; the result of
a bad number is `-1`. -/
def dispatch (userEsp : UInt32) (k : K) : Option (UInt32 × K) :=
  let syscall := userMem userEsp
  if h : syscall.toNat < numSyscalls then
    handlers ⟨syscall.toNat, h⟩ syscall (userEsp + 4) k
  else
    some (-1, k)

/-- `syscall_handle_interrupt`, where `p` is the address of the `user_mode` registers of the
calling process: the pointer it returns, and memory and the kernel after it. -/
def syscallHandleInterrupt (p : UInt32) (cpuState : CpuState) (execState : StackState)
    (data : UInt32 → UInt32) (k : K) : Option (UInt32 × (UInt32 → UInt32) × K) := do
  let data := (updateUserModeRegisters cpuState execState).store data p
  let (eax, k) ← dispatch handlers userMem execState.userEsp k
  return (p, Function.update data p eax, k)

/-- The registers `handle_syscall` pushes. -/
def pushRegisters : List Instr :=
  [.push .eax, .push .ecx, .push .edx, .push .ebx, .push .esp, .push .ebp, .push .esi,
    .push .edi]

/-- From `int 0xAE` through `handle_syscall` to the `iret` of `run_process_in_user_mode`.
`esp0` is the kernel stack in the task state segment, `entry` the address of
`handle_syscall`, and `next₁` and `next₂` are the return addresses of its two calls. -/
def handleSyscall (p esp0 entry next₁ next₂ : UInt32) (c : Cpu) (k : K) :
    Option (Cpu × K) := do
  let c := interrupt esp0 0x10 0x08 entry c
  let c := exec c pushRegisters
  let c := exec c [.call next₁]
  let (eax, data, k) ← syscallHandleInterrupt handlers userMem p
    (CpuState.read c.stack (c.reg .esp + 4)) (StackState.read c.stack (c.reg .esp + 36))
    c.data k
  let c := { c.drop.set .eax eax with data := data }
  let c := exec c [.push .eax, .call next₂]
  let c := exec c runProcessInUserMode
  return (iret c, k)

/-! ### What the caller gets back -/

variable {handlers userMem} (p esp0 entry next₁ next₂ : UInt32)

/-- The registers of the caller as `syscall_handle_interrupt` reads them, apart from `eax`:
`ebx` is the old `edx`, `ecx` the old `ebx`, and `edx` the stack pointer of the kernel at
the fifth push. -/
def asRead (c : Cpu) : Registers :=
  { ofCpu c with ebx := c.reg .edx, ecx := c.reg .ebx, edx := esp0 - 36 }

/-- The words on the kernel stack when `syscall_handle_interrupt` is called, as it reads
them. -/
theorem read_pushRegisters (c : Cpu) :
  let c' := exec (exec (interrupt esp0 0x10 0x08 entry c) pushRegisters) [.call next₁]
  updateUserModeRegisters (CpuState.read c'.stack (c'.reg .esp + 4))
      (StackState.read c'.stack (c'.reg .esp + 36))
    = { asRead esp0 c with eax := c.reg .ecx }
  := by
  simp [pushRegisters, step, interrupt, sub_sub, sub_add, updateUserModeRegisters,
    CpuState.read, StackState.read, ofCpu, asRead]

/-- When the handler returns `eax`, the system call returns to the caller with `eax` and
the registers `asRead`. -/
theorem handleSyscall_registers (c : UserCpu) {k k' : K} {eax : UInt32}
    (h : dispatch handlers userMem (c.reg .esp) k = some (eax, k')) :
  ∃ c', handleSyscall handlers userMem p esp0 entry next₁ next₂ c.toCpu k = some (c', k') ∧
    ofCpu c' = { asRead esp0 c.toCpu with eax := eax }
  := by
  have hcs : c.cs &&& 3 ≠ 0 := by
    rw [c.user]
    decide
  have hread := read_pushRegisters esp0 entry next₁ c.toCpu
  generalize hm : exec (exec (interrupt esp0 0x10 0x08 entry c.toCpu) pushRegisters)
    [.call next₁] = m at hread
  have hesp : (StackState.read m.stack (m.reg .esp + 36)).userEsp = c.reg .esp :=
    congrArg Registers.esp hread
  -- the registers lie at `p` when `run_process_in_user_mode` is called
  have hstore := (Registers.store_at m.data p { asRead esp0 c.toCpu with eax := c.reg .ecx })
  refine ⟨_, by
    simp only [handleSyscall, syscallHandleInterrupt, hm, hesp, h, hread]
    rfl, ?_⟩
  apply runProcessInUserMode_spec (p := p)
  · simp only [exec_cons, exec_nil, step, Cpu.push_stack, Cpu.push_reg_esp, Cpu.set_reg]
    grind
  · exact hstore.update_eax eax
  · apply hcs

/-- A system call whose handler returns `eax` leaves every register of the caller other
than `eax` as it was exactly when `ebx`, `ecx` and `edx` already held the stack pointer the
kernel has at the fifth push of `handle_syscall`. -/
theorem handle_syscall_preserves_iff (c : UserCpu) {k k' : K} {eax : UInt32}
    (h : dispatch handlers userMem (c.reg .esp) k = some (eax, k')) :
  ∃ c', handleSyscall handlers userMem p esp0 entry next₁ next₂ c.toCpu k = some (c', k') ∧
    (ofCpu c' = { ofCpu c.toCpu with eax := eax } ↔
      c.reg .ebx = esp0 - 36 ∧ c.reg .ecx = esp0 - 36 ∧ c.reg .edx = esp0 - 36)
  := by
  obtain ⟨c', hc', hregs⟩ := handleSyscall_registers p esp0 entry next₁ next₂ c h
  use c', hc'
  rw [hregs]
  simp only [asRead, ofCpu, Registers.mk.injEq, true_and, and_true]
  constructor
  · rintro ⟨hbx, hcx, hdx⟩
    rw [← hcx, ← hbx, hdx]
    exact ⟨rfl, rfl, rfl⟩
  · rintro ⟨hbx, hcx, hdx⟩
    rw [hbx, hcx, hdx]
    exact ⟨rfl, rfl, rfl⟩

/-- A caller with `1`, `2`, `3` in `ebx`, `ecx`, `edx`. -/
def caller : UserCpu where
  reg
    | .ebx => 1
    | .ecx => 2
    | .edx => 3
    | .esp => 0xBFFFFF00
    | _ => 0
  seg _ := 0x23
  eip := 0x100
  eflags := 0x202
  cs := 0x1B
  ss := 0x23
  stack _ := 0
  data _ := 0
  user := rfl

/-- A kernel in which no handler returns, so that only a bad number does. -/
def noHandlers : Fin numSyscalls → Handler Unit :=
  fun _ _ _ _ => none

theorem handle_syscall_preserves_iff_caller :
  dispatch noHandlers (fun _ => 99) (caller.reg .esp) () = some (-1, ()) ∧
    ∃ c', handleSyscall noHandlers (fun _ => 99) 0xC0300000 0xC0200FFC 0xC0100000 0xC0100010
        0xC0100018 caller.toCpu () = some (c', ()) ∧
      (ofCpu c' = { ofCpu caller.toCpu with eax := -1 } ↔
        caller.reg .ebx = (0xC0200FFC : UInt32) - 36 ∧
          caller.reg .ecx = (0xC0200FFC : UInt32) - 36 ∧
          caller.reg .edx = (0xC0200FFC : UInt32) - 36)
  := ⟨rfl, handle_syscall_preserves_iff _ _ _ _ _ caller rfl⟩

/-- A caller that makes the system call `99` gets its `edx` back in `ebx`, its `ebx` in
`ecx`, and a kernel address in `edx`. -/
theorem handle_syscall_changes_registers :
  (handleSyscall noHandlers (fun _ => 99) 0xC0300000 0xC0200FFC 0xC0100000 0xC0100010
        0xC0100018 caller.toCpu ()).map (fun r => ofCpu r.1)
      = some { ofCpu caller.toCpu with eax := -1, ebx := 3, ecx := 1, edx := 0xC0200FD8 } ∧
    ¬ ∃ c', handleSyscall noHandlers (fun _ => 99) 0xC0300000 0xC0200FFC 0xC0100000
        0xC0100010 0xC0100018 caller.toCpu () = some (c', ()) ∧
      ofCpu c' = { ofCpu caller.toCpu with eax := -1 }
  := by
  have hregs : (handleSyscall noHandlers (fun _ => 99) 0xC0300000 0xC0200FFC 0xC0100000
      0xC0100010 0xC0100018 caller.toCpu ()).map (fun r => ofCpu r.1)
      = some { ofCpu caller.toCpu with eax := -1, ebx := 3, ecx := 1, edx := 0xC0200FD8 } := by
    decide
  use hregs
  rintro ⟨c', hc', hsame⟩
  rw [hc', Option.map_some, hsame] at hregs
  exact absurd hregs (by decide)

end Syscall
