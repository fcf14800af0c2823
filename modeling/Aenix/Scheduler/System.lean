import Aenix.Lib.Trace
import Aenix.Scheduler.Interrupt
import Aenix.Scheduler.ProcessList

/-!
# The scheduler and the system calls

The process at the head of the runnable list is the one that runs.  It computes, is interrupted by
the timer, and makes system calls; the kernel then keeps its registers and runs another process.
System calls run with interrupts enabled, so the timer may interrupt them as well: what they do to
the lists of processes is divided into the steps between which another process can run.  A search
through a list is one step, and so is an insertion; `Insertion` divides the insertion in `sys_fork`
further.

The lists hold the processes themselves, in the order of the elements of `ProcessList`.  The only
process can be taken out as well: `scheduler_remove_process` then stores through the null pointer, and
page 0 is the first page of the code of that process, which it may write.  What the kernel computes
between the steps is not modelled; the processor may be in any state of kernel mode after it
(`Event.compute`).  Page directories are not modelled either.
-/

open IA32 Process Syscall

namespace Scheduler

/-- How far a process is in a system call, as its kernel stack remembers it. -/
inductive Phase where
  /-- not in a system call -/
  | user
  /-- in a system call that has not come to one of the steps below -/
  | syscall
  /-- in `sys_fork`, with the value of `new_pid` -/
  | cloning (newPid : UInt32)
  /-- in `sys_fork`, with the value of `new` -/
  | adding (new : Ps)
  /-- in the loop of `sys_wait` -/
  | waiting
  deriving DecidableEq

/-- A runnable process. -/
structure Thread where
  ps : Ps
  phase : Phase
  deriving DecidableEq

/-- The processor, the kernel stack in the task state segment, the variable `ms`, and the lists of
processes. -/
structure System where
  cpu : Cpu
  esp0 : UInt32
  ms : UInt32
  runnable : List Thread
  zombies : List Ps

/-- What can be seen of a step: the process that `scheduler_schedule` runs, the process to which
`sys_wait` returns and the value it returns, a process that exits and one that `process_clone`
creates. -/
structure Effect where
  dispatched : Option Ps := none
  waitReturned : Option (UInt32 × UInt32) := none
  exited : Option Ps := none
  created : Option Ps := none

/-- Addresses in the kernel's code: two entries of the interrupt table, and the return addresses of
calls. -/
structure Code where
  interruptHandler32 : UInt32
  afterInterruptHandler : UInt32
  handleSyscall : UInt32
  afterSyscallHandleInterrupt : UInt32
  afterRunProcessInUserMode : UInt32
  afterRunProcess : UInt32

/-- `SCHEDULER_PIT_INTERVAL`. -/
abbrev schedulerPitInterval : UInt32 := 2

/-- `SCHEDULER_TIME_SLICE`. -/
abbrev schedulerTimeSlice : UInt32 := 5 * schedulerPitInterval

variable (code : Code)

/-! ### The lists -/

/-- `max_id_in_ps_list`. -/
def maxIdInPsList (pss : List Ps) : UInt32 :=
  pss.foldl (fun max ps => if ps.id ≥ max then ps.id else max) 0

/-- The processes of the runnable list. -/
def System.pss (s : System) : List Ps := s.runnable.map Thread.ps

/-- `scheduler_next_pid`. -/
def schedulerNextPid (s : System) : UInt32 :=
  max (maxIdInPsList s.pss) (maxIdInPsList s.zombies) + 1

/-- `scheduler_has_any_child_terminated`. -/
def schedulerHasAnyChildTerminated (s : System) (parent : Ps) : Bool :=
  s.zombies.any fun ps => ps.parentId == parent.id

/-- `scheduler_num_children`. -/
def schedulerNumChildren (s : System) (pid : UInt32) : ℕ :=
  s.zombies.countP (fun ps => ps.parentId == pid) + s.pss.countP (fun ps => ps.parentId == pid)

/-- `disable_interrupts`. -/
def disableInterrupts (c : Cpu) : Cpu := { c with eflags := c.eflags &&& 0xFFFFFDFF }

/-- `scheduler_remove_process` of the runnable list, when it finds the process. -/
def removeProcess (pid : UInt32) (ts : List Thread) : List Thread :=
  ts.eraseP fun t => t.ps.id == pid

/-- `scheduler_add_process`; `kmalloc` returns NULL unless `ele`. -/
def addProcess {α : Type} (ele : Bool) (a : α) (pss : List α) : List α :=
  if ele then pss ++ [a] else pss

/-- `scheduler_get_and_rotate_runnable_process`, as far as the list goes. -/
def rotate : List Thread → List Thread
  | [] => []
  | t :: ts => ts ++ [t]

/-- `scheduler_schedule` when the list has been rotated: the process it runs, and the system after it.
Without a process it returns. -/
def runFirst (s : System) : Option Ps × System :=
  match s.runnable with
  | [] => (none, s)
  | t :: _ =>
    (some t.ps, { s with
      esp0 := t.ps.kernelStackStartVaddr
      cpu := runProcess code.afterRunProcess t.ps s.cpu })

/-- `scheduler_schedule`. -/
def schedulerSchedule (s : System) : Option Ps × System :=
  runFirst code { s with runnable := rotate s.runnable }

/-! ### Interrupts and system calls

`t` is the current process and `ts` are the others.
-/

section Current

variable (s : System) (t : Thread) (ts : List Thread)

/-- A timer interrupt: `scheduler_handle_pit_interrupt` and, when a time slice is over,
`scheduler_schedule_on_intterupt`. -/
def schedulerHandlePitInterrupt : Option Ps × System :=
  let c := timerInterrupt s.esp0 code.interruptHandler32 code.afterInterruptHandler s.cpu
  let ms := s.ms + schedulerPitInterval
  if ms ≥ schedulerTimeSlice then
    let ps := updateRegisters t.ps (cpuStateArg c) (stackStateArg c)
    schedulerSchedule code { s with cpu := c, ms := 0, runnable := { t with ps := ps } :: ts }
  else
    (none, { s with cpu := endOfInterrupt c, ms := ms })

/-- The processor at the call of `syscall_handle_interrupt`, after `int 0xAE`. -/
def syscallInterrupt (esp0 : UInt32) (c : Cpu) : Cpu :=
  let c := interrupt esp0 segselKernelDs segselKernelCs code.handleSyscall c
  IA32.exec (IA32.exec c pushRegisters) [.call code.afterSyscallHandleInterrupt]

/-- `syscall_handle_interrupt` up to the call of the handler. -/
def enterSyscall : System :=
  let c := syscallInterrupt code s.esp0 s.cpu
  let userMode := updateUserModeRegisters (CpuState.read c.stack (c.reg .esp + 4))
    (StackState.read c.stack (c.reg .esp + 36))
  { s with cpu := c, runnable := ⟨{ t.ps with userMode := userMode }, .syscall⟩ :: ts }

/-- The end of `syscall_handle_interrupt` and of `handle_syscall`, when the handler has returned
`eax`. -/
def leaveSyscall (eax : UInt32) : System :=
  let ps := { t.ps with userMode := { t.ps.userMode with eax := eax } }
  -- `user_mode` is the word of index 16 in `struct ps`
  let p := ps.addr + 64
  let c := { s.cpu with data := ps.userMode.store s.cpu.data p }
  let c := IA32.exec c [.pushImm p, .call code.afterRunProcessInUserMode]
  { s with cpu := iret (IA32.exec c runProcessInUserMode), runnable := ⟨ps, .user⟩ :: ts }

/-- `sys_yield`. -/
def sysYield : Option Ps × System :=
  let userMode := { t.ps.userMode with eax := 0 }
  let ps := { t.ps with userMode := userMode, current := userMode }
  schedulerSchedule code { s with runnable := ⟨ps, .user⟩ :: ts }

/-- `switch_to_kernel_stack`, and `scheduler_remove_process` in the continuation it calls. -/
def removeCurrent : System :=
  { s with cpu := disableInterrupts s.cpu, runnable := removeProcess t.ps.id (t :: ts) }

/-- `continue_exit` from `process_delete_resources` on, when `ps` has been taken out. -/
def finishExit (s : System) (ps : Ps) (ele : Bool) : Option Ps × System :=
  schedulerSchedule code { s with zombies := addProcess ele ps s.zombies }

/-- `continue_execve` from `process_delete_resources` on, when the old process has been taken out. -/
def finishExecve (s : System) (new : Ps) (ele : Bool) : Option Ps × System :=
  schedulerSchedule code { s with runnable := addProcess ele ⟨new, .user⟩ s.runnable }

/-- `continue_exit`, called by `switch_to_kernel_stack`. -/
def continueExit (ele : Bool) : Option Ps × System :=
  finishExit code (removeCurrent s t ts) t.ps ele

/-- `continue_execve`, called by `switch_to_kernel_stack`. -/
def continueExecve (new : Ps) (ele : Bool) : Option Ps × System :=
  finishExecve code (removeCurrent s t ts) new ele

/-- `snapshot_and_schedule` up to `scheduler_schedule`: the registers it stores, given those that were
there.  The segment registers fill the lower halves only. -/
def snapshot (r : Registers) (c : Cpu) : Registers where
  eax := 0
  ebx := c.reg .ebx
  ecx := c.reg .ecx
  edx := c.reg .edx
  ebp := c.reg .ebp
  esi := c.reg .esi
  edi := c.reg .edi
  ss := (r.ss &&& 0xFFFF0000) ||| (c.ss &&& 0x0000FFFF)
  esp := c.reg .esp + 4
  eflags := c.eflags &&& 0xFFFFFDFF
  cs := (r.cs &&& 0xFFFF0000) ||| (c.cs &&& 0x0000FFFF)
  eip := c.top

/-- A round of the loop of `sys_wait` when no child has terminated. -/
def blockWait : Option Ps × System :=
  let ps := { t.ps with current := snapshot t.ps.current s.cpu }
  schedulerSchedule code { s with runnable := ⟨ps, .waiting⟩ :: ts }

end Current

/-! ### Steps -/

/-- What can happen. -/
inductive Event where
  /-- the current process, or the kernel for it, executes instructions -/
  | compute (c : Cpu)
  /-- the timer interrupts the processor -/
  | tick
  /-- the current process makes a system call -/
  | enter
  /-- a handler that has no other effect here returns: `sys_open`, `sys_read`, `sys_write`, or
  `sys_execve` when it fails -/
  | leave (eax : UInt32)
  /-- `sys_yield` -/
  | yield
  /-- `scheduler_next_pid` in `sys_fork` -/
  | nextPid
  /-- `process_clone` in `sys_fork`, which returns NULL or a new process -/
  | clone (new : Option Ps)
  /-- `scheduler_add_runnable_process` in `sys_fork`, and its return -/
  | addRunnable (ele : Bool)
  /-- the end of `sys_execve`, when `process_create_replacement` has returned `new` -/
  | execve (new : Ps) (ele : Bool)
  /-- `sys_exit` -/
  | exit (ele : Bool)
  /-- the beginning of `sys_wait` -/
  | wait
  /-- a round of the loop of `sys_wait` -/
  | poll

/-- The addresses of the processes that a process holds outside of the lists. -/
def Phase.addrs : Phase → List UInt32
  | .adding new => [new.addr]
  | _ => []

/-- The addresses of all `ps_t`. -/
def System.addrs (s : System) : List UInt32 :=
  s.runnable.flatMap (fun t => t.ps.addr :: t.phase.addrs) ++ s.zombies.map Ps.addr

/-- The processor may be in user mode when the process is not in a system call, and in kernel mode
always: an interrupt other than that of the timer may be handled. -/
def mayRun (phase : Phase) (c : Cpu) : Bool :=
  c.cs == segselKernelCs || (c.cs == userCs && phase == .user)

/-- `process_clone` has made `new` from `parent`, at an address that is not in use. -/
def isClone (s : System) (parent : Ps) (newPid : UInt32) (new : Ps) : Bool :=
  new.id == newPid && new.parentId == parent.id && new.userMode == parent.userMode &&
    !s.addrs.contains new.addr

/-- `process_create_replacement` has made `new` for `old`, at an address that is not in use. -/
def isReplacement (s : System) (old new : Ps) : Bool :=
  new.id == old.id && new.parentId == old.parentId && new.current == new.userMode &&
    new.userMode.cs == userCs && !s.addrs.contains new.addr

/-- The step that the current process `t` takes. -/
def stepOf (s : System) (t : Thread) (ts : List Thread) : Event → Option (Effect × System)
  | .compute c =>
    if mayRun t.phase c then some ({}, { s with cpu := c }) else none
  | .tick =>
    -- the interrupt flag
    if s.cpu.eflags &&& 0x200 ≠ 0 then
      let (p, s) := schedulerHandlePitInterrupt code s t ts
      some ({ dispatched := p }, s)
    else
      none
  | .enter =>
    if t.phase = .user ∧ s.cpu.cs = userCs then some ({}, enterSyscall code s t ts) else none
  | .leave eax =>
    if t.phase = .syscall then some ({}, leaveSyscall code s t ts eax) else none
  | .yield =>
    if t.phase = .syscall then
      let (p, s) := sysYield code s t ts
      some ({ dispatched := p }, s)
    else
      none
  | .nextPid =>
    if t.phase = .syscall then
      some ({}, { s with runnable := { t with phase := .cloning (schedulerNextPid s) } :: ts })
    else
      none
  | .clone new =>
    match t.phase, new with
    | .cloning _, none => some ({}, leaveSyscall code s t ts (-1))
    | .cloning newPid, some new =>
      if isClone s t.ps newPid new then
        let userMode := { new.userMode with eax := 0 }
        let new := { new with userMode := userMode, current := userMode }
        some ({ created := some new }, { s with runnable := { t with phase := .adding new } :: ts })
      else
        none
    | _, _ => none
  | .addRunnable ele =>
    match t.phase with
    | .adding new =>
      let s := leaveSyscall code s t ts new.id
      some ({}, { s with runnable := addProcess ele ⟨new, .user⟩ s.runnable })
    | _ => none
  | .execve new ele =>
    if t.phase = .syscall ∧ isReplacement s t.ps new then
      let (p, s) := continueExecve code s t ts new ele
      some ({ dispatched := p }, s)
    else
      none
  | .exit ele =>
    if t.phase = .syscall then
      let (p, s) := continueExit code s t ts ele
      some ({ dispatched := p, exited := some t.ps }, s)
    else
      none
  | .wait =>
    if t.phase = .syscall then
      if schedulerNumChildren s t.ps.id = 0 then
        some ({ waitReturned := some (t.ps.id, -1) }, leaveSyscall code s t ts (-1))
      else
        some ({}, { s with runnable := { t with phase := .waiting } :: ts })
    else
      none
  | .poll =>
    if t.phase = .waiting then
      if schedulerHasAnyChildTerminated s t.ps then
        some ({ waitReturned := some (t.ps.id, 0) }, leaveSyscall code s t ts 0)
      else
        let (p, s) := blockWait code s t ts
        some ({ dispatched := p }, s)
    else
      none

/-- A step of the system.  Without a process the kernel stays in a loop, with interrupts disabled. -/
def step (s : System) (e : Event) : Option (Effect × System) :=
  match s.runnable with
  | [] => none
  | t :: ts => stepOf code s t ts e

/-- The system when `start_init` has run `init`, the process `ps` that `process_create` has made with
the first process id. -/
def boot (c : Cpu) (ms : UInt32) (ps : Ps) : System where
  cpu := runProcess code.afterRunProcess ps c
  esp0 := ps.kernelStackStartVaddr
  ms := ms
  runnable := [⟨ps, .user⟩]
  zombies := []

/-! ### A small system -/

/-- Some addresses. -/
def someCode : Code where
  interruptHandler32 := 0xC0101000
  afterInterruptHandler := 0xC0101020
  handleSyscall := 0xC0102000
  afterSyscallHandleInterrupt := 0xC0102010
  afterRunProcessInUserMode := 0xC0102020
  afterRunProcess := 0xC0103000

/-- A processor in user mode, with interrupts enabled. -/
def userCpu : Cpu where
  reg r := if r = .esp then 0xBFFFFF00 else 0
  seg _ := 0x23
  eip := 0x100
  eflags := 0x202
  cs := userCs
  ss := 0x23
  stack _ := 0
  data _ := 0

/-- A process as `process_create` makes it. -/
def somePs (addr id parentId : UInt32) : Ps :=
  let ps := processInit addr id
  { ps with
    parentId := parentId
    current := ps.userMode
    kernelStackStartVaddr := addr + 0x100FFC }

/-- The child that `process_clone` makes when the process at `parentAddr` calls `sys_fork` from
`userCpu`. -/
def someChild (addr id parentAddr parentId : UInt32) : Ps :=
  { somePs addr id parentId with
    userMode := { asRead (parentAddr + 0x100FFC) userCpu with eax := 0 } }

/-- `init` at the start. -/
def someBoot : System := boot someCode userCpu 0 (somePs 0xC0400000 1 0)

/-- `init` calls `sys_fork` and gets a child at 0xC0410000. -/
def forkEvents : List Event :=
  [.compute userCpu, .enter, .nextPid, .clone (some (someChild 0xC0410000 2 0xC0400000 1)),
    .addRunnable true]

/-- A process calls `sys_yield`. -/
def yieldEvents : List Event := [.compute userCpu, .enter, .yield]

end Scheduler
