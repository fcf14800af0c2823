import Aenix.Process.Basic
import Aenix.Syscall.Entry

/-!
# The timer interrupt and the saved registers

When the timer interrupts a process, `common_interrupt_handler` pushes the registers in the layout of
`struct cpu_state`, above which lie the words of `struct idt_info` and those the processor has
pushed.  The processor pushes `esp` and `ss` only when it comes from user mode, so `scheduler.c` saves
the registers of a process in two ways, and there are two routines in `scheduler_asm.s` that restore
them.
-/

open IA32 Process Syscall

namespace Scheduler

/-- `SEGSEL_KERNEL_CS`. -/
abbrev segselKernelCs : UInt32 := 0x08

/-- `SEGSEL_KERNEL_DS`. -/
abbrev segselKernelDs : UInt32 := 0x10

/-- `SEGSEL_USER_SPACE_CS | 0x03`. -/
abbrev userCs : UInt32 := 0x18 ||| 0x03

@[simp]
theorem userCs_level :
  userCs &&& 3 ≠ 0
  := by
  decide

@[simp]
theorem segselKernelCs_level :
  segselKernelCs &&& 3 = 0
  := by
  decide

@[simp]
theorem userCs_ne :
  userCs ≠ segselKernelCs
  := by
  decide

/-- `PIT_INT_IDX`. -/
abbrev pitIntIdx : UInt32 := 32

/-! ### The handler -/

/-- `interrupt_handler_32` and `common_interrupt_handler`, up to the call of `interrupt_handler`;
`next` is the return address. -/
def commonInterruptHandler (next : UInt32) : List Instr :=
  [ .pushImm 0,
    .pushImm pitIntIdx,
    .push .esp,
    .addTop 8,
    .push .eax,
    .push .ebx,
    .push .ecx,
    .push .edx,
    .push .ebp,
    .push .esi,
    .push .edi,
    .call next ]

/-- `common_interrupt_handler` after the call, up to `iret`. -/
def commonInterruptHandlerEnd : List Instr :=
  [ .pop .edi,
    .pop .esi,
    .pop .ebp,
    .pop .edx,
    .pop .ecx,
    .pop .ebx,
    .pop .eax,
    .pop .esp ]

/-- `scheduler_copy_common_registers`. -/
def schedulerCopyCommonRegisters (r : Registers) (cpu : CpuState) (stack : StackState) : Registers :=
  { r with
    eax := cpu.eax
    ebx := cpu.ebx
    ecx := cpu.ecx
    edx := cpu.edx
    ebp := cpu.ebp
    esi := cpu.esi
    edi := cpu.edi
    eip := stack.eip
    eflags := stack.eflags
    cs := stack.cs }

/-- `scheduler_update_user_registers`. -/
def schedulerUpdateUserRegisters (ps : Ps) (cpu : CpuState) (stack : StackState) : Ps :=
  let userMode := { schedulerCopyCommonRegisters ps.userMode cpu stack with
    esp := stack.userEsp
    ss := stack.userSs }
  { ps with userMode := userMode, current := userMode }

/-- `scheduler_update_kernel_registers`. -/
def schedulerUpdateKernelRegisters (ps : Ps) (cpu : CpuState) (stack : StackState) : Ps :=
  { ps with
    current := { schedulerCopyCommonRegisters ps.current cpu stack with
      esp := cpu.esp + 12
      ss := segselKernelDs } }

/-- The choice between the two in `scheduler_schedule_on_intterupt`. -/
def updateRegisters (ps : Ps) (cpu : CpuState) (stack : StackState) : Ps :=
  if stack.cs = userCs then
    schedulerUpdateUserRegisters ps cpu stack
  else
    schedulerUpdateKernelRegisters ps cpu stack

/-- The processor at the call of `interrupt_handler`, after a timer interrupt.  `esp0` is the kernel
stack in the task state segment and `entry` the address of `interrupt_handler_32`. -/
def timerInterrupt (esp0 entry next : UInt32) (c : Cpu) : Cpu :=
  IA32.exec (trap esp0 segselKernelDs segselKernelCs entry c) (commonInterruptHandler next)

/-- The argument `state` of `interrupt_handler`, on the stack at its call. -/
def cpuStateArg (c : Cpu) : CpuState :=
  CpuState.read c.stack (c.reg .esp + 4)

/-- Its argument `exec`, which lies above `state` and `info`. -/
def stackStateArg (c : Cpu) : StackState :=
  StackState.read c.stack (c.reg .esp + 44)

/-- The return of `interrupt_handler` and the rest of `common_interrupt_handler`. -/
def endOfInterrupt (c : Cpu) : Cpu :=
  iret (IA32.exec c.drop commonInterruptHandlerEnd)

/-- `run_process_in_kernel_mode` or `run_process_in_user_mode` with `&ps->current`, as
`scheduler_schedule` chooses; `next` is the return address of the call. -/
def runProcess (next : UInt32) (ps : Ps) (c : Cpu) : Cpu :=
  -- `current` is the fifth word of `struct ps`
  let p := ps.addr + 16
  let c := { c with data := ps.current.store c.data p }
  let c := IA32.exec c [.pushImm p, .call next]
  if ps.current.cs = segselKernelCs then
    iret (IA32.exec c runProcessInKernelMode)
  else
    iret (IA32.exec c runProcessInUserMode)

/-! ### What is saved -/

/-- A processor in user mode, or in kernel mode. -/
def HasMode (c : Cpu) : Prop :=
  c.cs = userCs ∨ c.cs = segselKernelCs

/-- What `interrupt_handler` finds in `state`: the registers, and the address of the words that the
processor has pushed. -/
theorem cpuStateArg_commonInterruptHandler (c : Cpu) (next : UInt32) :
  cpuStateArg (IA32.exec c (commonInterruptHandler next)) =
    { edi := c.reg .edi
      esi := c.reg .esi
      ebp := c.reg .ebp
      edx := c.reg .edx
      ecx := c.reg .ecx
      ebx := c.reg .ebx
      eax := c.reg .eax
      esp := c.reg .esp }
  := by
  simp [commonInterruptHandler, step, sub_sub, sub_add, cpuStateArg, CpuState.read, Cpu.top]

theorem add_eq_sub_iff {e k m : UInt32} :
  e + k = e - m ↔ k + m = 0
  := by
  rw [eq_sub_iff_add_eq, add_assoc, add_eq_left]

theorem eq_sub_iff {e m : UInt32} :
  e = e - m ↔ m = 0
  := by
  rw [eq_sub_iff_add_eq, add_eq_left]

/-- What it finds in `exec`: these words. -/
theorem stackStateArg_commonInterruptHandler (c : Cpu) (next : UInt32) :
  stackStateArg (IA32.exec c (commonInterruptHandler next)) = StackState.read c.stack (c.reg .esp)
  := by
  simp [commonInterruptHandler, step, sub_sub, stackStateArg, StackState.read, add_eq_sub_iff, eq_sub_iff]

theorem trap_user {c : Cpu} (hc : c.cs = userCs) (esp0 ss0 cs0 entry : UInt32) :
  trap esp0 ss0 cs0 entry c = interrupt esp0 ss0 cs0 entry c
  := by
  rw [trap, hc, if_neg userCs_level]

section Saved

variable (esp0 entry next : UInt32) (ps : Ps) {c : Cpu}

/-- From user mode, both sets of registers become those at the interrupt. -/
theorem updateRegisters_user (hc : c.cs = userCs) :
  let c' := timerInterrupt esp0 entry next c
  updateRegisters ps (cpuStateArg c') (stackStateArg c') =
    { ps with userMode := ofCpu c, current := ofCpu c }
  := by
  have hread : StackState.read (interrupt esp0 segselKernelDs segselKernelCs entry c).stack
      ((interrupt esp0 segselKernelDs segselKernelCs entry c).reg .esp) =
      ⟨c.eip, c.cs, c.eflags, c.reg .esp, c.ss⟩ := by
    simp [interrupt, StackState.read, sub_sub, sub_add]
  simp only [timerInterrupt, trap_user hc, cpuStateArg_commonInterruptHandler,
    stackStateArg_commonInterruptHandler, hread, updateRegisters, hc, if_pos,
    schedulerUpdateUserRegisters, schedulerCopyCommonRegisters]
  simp [interrupt, ofCpu, hc]

/-- From kernel mode, `current` becomes the registers at the interrupt, and `user_mode` stays. -/
theorem updateRegisters_kernel (hc : c.cs = segselKernelCs) :
  let c' := timerInterrupt esp0 entry next c
  updateRegisters ps (cpuStateArg c') (stackStateArg c') =
    { ps with current := { ofCpu c with ss := segselKernelDs } }
  := by
  have htrap : c.cs &&& 3 = 0 := by rw [hc, segselKernelCs_level]
  generalize hm : trap esp0 segselKernelDs segselKernelCs entry c = m
  have hesp : m.reg .esp = c.reg .esp - 12 := by
    simp [← hm, trap, htrap, sub_sub]
  have hread : m.stack (m.reg .esp) = c.eip ∧ m.stack (m.reg .esp + 4) = c.cs ∧
      m.stack (m.reg .esp + 8) = c.eflags := by
    simp [← hm, trap, htrap, sub_sub, sub_add]
  have hreg : ∀ r, r ≠ .esp → m.reg r = c.reg r := by
    intro r hr
    simp [← hm, trap, htrap, hr]
  obtain ⟨heip, hcs, heflags⟩ := hread
  simp only [timerInterrupt, hm, cpuStateArg_commonInterruptHandler,
    stackStateArg_commonInterruptHandler, updateRegisters, StackState.read, heip, hcs, heflags, hc,
    schedulerUpdateKernelRegisters, schedulerCopyCommonRegisters]
  rw [if_neg userCs_ne.symm]
  simp [ofCpu, hc, hreg, hesp]

end Saved

/-! ### What is restored -/

theorem pushed_pointer (c : Cpu) (p next : UInt32) :
  (IA32.exec c [.pushImm p, .call next]).stack ((IA32.exec c [.pushImm p, .call next]).reg .esp + 4) = p
  := by
  simp [step, sub_sub, sub_add]

/-- A process that is run with registers of user mode runs with exactly these registers. -/
theorem runProcess_user (next : UInt32) {ps : Ps} (c : Cpu) (hcs : ps.current.cs = userCs) :
  ofCpu (runProcess next ps c) = ps.current
  := by
  rw [runProcess, if_neg (hcs ▸ userCs_ne)]
  apply runProcessInUserMode_spec (pushed_pointer _ _ _)
  · apply Registers.store_at
  · apply hcs ▸ userCs_level

/-- A process that is run with registers of kernel mode runs with exactly these registers, apart from
`ss`. -/
theorem runProcess_kernel (next : UInt32) {ps : Ps} (c : Cpu)
    (hcs : ps.current.cs = segselKernelCs) :
  ofCpu (runProcess next ps c) = { ps.current with ss := c.ss }
  := by
  rw [runProcess, if_pos hcs]
  apply runProcessInKernelMode_spec (pushed_pointer _ _ _)
  · apply Registers.store_at
  · apply hcs ▸ segselKernelCs_level

/-- The registers after `iret`, which finds a `struct stack_state` on the stack. -/
theorem ofCpu_iret (c : Cpu) :
  ofCpu (iret c) =
    let es := StackState.read c.stack (c.reg .esp)
    let r := { ofCpu c with eip := es.eip, cs := es.cs, eflags := es.eflags }
    if es.cs &&& 3 = 0 then { r with esp := c.reg .esp + 12 }
    else { r with esp := es.userEsp, ss := es.userSs }
  := by
  simp only [iret, Cpu.top, Cpu.drop, Cpu.set_reg, Cpu.set_stack, Function.update_self, add_assoc,
    StackState.read]
  split
  case isTrue h =>
    simp [ofCpu, h]
    rfl
  case isFalse h => simp [ofCpu, h]

/-- `common_interrupt_handler` leaves the registers as they were at its beginning, and `iret` finds
the words that the processor has pushed. -/
theorem endOfInterrupt_commonInterruptHandler (c : Cpu) (next : UInt32) :
  ofCpu (endOfInterrupt (IA32.exec c (commonInterruptHandler next))) = ofCpu (iret c)
  := by
  generalize hm : IA32.exec (IA32.exec c (commonInterruptHandler next)).drop commonInterruptHandlerEnd = m
  have hreg : m.reg = c.reg := by
    funext r
    cases r
    all_goals
      simp [← hm, commonInterruptHandler, commonInterruptHandlerEnd, step, Cpu.top, Cpu.drop,
        sub_sub, sub_add]
  have hread : StackState.read m.stack (m.reg .esp) = StackState.read c.stack (c.reg .esp) := by
    rw [hreg]
    simp [← hm, commonInterruptHandler, commonInterruptHandlerEnd, step, Cpu.drop, sub_sub,
      add_eq_sub_iff, eq_sub_iff, StackState.read]
  have hss : m.ss = c.ss := by
    rw [← hm]
    rfl
  rw [endOfInterrupt, hm, ofCpu_iret, ofCpu_iret, hread, hreg]
  simp [ofCpu, hreg, hss]

end Scheduler
