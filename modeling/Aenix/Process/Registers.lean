import Aenix.Lib.IA32

/-!
# Saved registers

`struct registers` of `process.h`, in which the kernel keeps the registers of a process, and
its layout in memory: the assembly routines address its fields by offset.
-/

open IA32

namespace Process

/-- `struct registers`. -/
structure Registers where
  eax : UInt32
  ebx : UInt32
  ecx : UInt32
  edx : UInt32
  ebp : UInt32
  esi : UInt32
  edi : UInt32
  ss : UInt32
  esp : UInt32
  eflags : UInt32
  cs : UInt32
  eip : UInt32
  deriving DecidableEq, Repr

/-- The words of a packed `struct registers`, in order. -/
def Registers.words (r : Registers) : List UInt32 :=
  [r.eax, r.ebx, r.ecx, r.edx, r.ebp, r.esi, r.edi, r.ss, r.esp, r.eflags, r.cs, r.eip]

/-- Memory with the given words stored from `p` on. -/
def storeWords (data : UInt32 → UInt32) (p : UInt32) (ws : List UInt32) (a : UInt32) :
    UInt32 :=
  if (a - p) % 4 = 0 then ws.getD ((a - p) / 4).toNat (data a) else data a

/-- `*p = r` for a pointer `p` to a `struct registers`. -/
def Registers.store (r : Registers) (data : UInt32 → UInt32) (p : UInt32) :
    UInt32 → UInt32 :=
  storeWords data p r.words

/-- The registers a process runs with. -/
def ofCpu (c : Cpu) : Registers where
  eax := c.reg .eax
  ebx := c.reg .ebx
  ecx := c.reg .ecx
  edx := c.reg .edx
  ebp := c.reg .ebp
  esi := c.reg .esi
  edi := c.reg .edi
  ss := c.ss
  esp := c.reg .esp
  eflags := c.eflags
  cs := c.cs
  eip := c.eip

/-- `run_process_in_user_mode` of `scheduler_asm.s`, up to `iret`. -/
def runProcessInUserMode : List Instr :=
  [ .cli,
    .mov .eax .esp 4,
    .mov .ebx .eax 4,
    .mov .ecx .eax 8,
    .mov .edx .eax 12,
    .mov .ebp .eax 16,
    .mov .esi .eax 20,
    .mov .edi .eax 24,
    .pushMem .eax 28,
    .pushMem .eax 32,
    .pushMem .eax 36,
    .pushMem .eax 40,
    .pushMem .eax 44,
    .push .ecx,
    .movLow .ecx .eax 28,
    .movSeg .ds .ecx,
    .movSeg .gs .ecx,
    .movSeg .es .ecx,
    .movSeg .fs .ecx,
    .pop .ecx,
    .mov .eax .eax 0 ]

/-- `run_process_in_kernel_mode` of `scheduler_asm.s`, up to `iret`. -/
def runProcessInKernelMode : List Instr :=
  [ .cli,
    .mov .eax .esp 4,
    .mov .ebx .eax 4,
    .mov .ecx .eax 8,
    .mov .edx .eax 12,
    .mov .ebp .eax 16,
    .mov .esi .eax 20,
    .mov .edi .eax 24,
    .mov .esp .eax 32,
    .pushMem .eax 36,
    .pushMem .eax 40,
    .pushMem .eax 44,
    .mov .eax .eax 0 ]

/-! ### The layout -/

/-- The `struct registers` at `p` holds `r`: each field lies at its offset. -/
structure Registers.At (r : Registers) (data : UInt32 → UInt32) (p : UInt32) : Prop where
  eax : data p = r.eax
  ebx : data (p + 4) = r.ebx
  ecx : data (p + 8) = r.ecx
  edx : data (p + 12) = r.edx
  ebp : data (p + 16) = r.ebp
  esi : data (p + 20) = r.esi
  edi : data (p + 24) = r.edi
  ss : data (p + 28) = r.ss
  esp : data (p + 32) = r.esp
  eflags : data (p + 36) = r.eflags
  cs : data (p + 40) = r.cs
  eip : data (p + 44) = r.eip

theorem storeWords_apply (data : UInt32 → UInt32) (p : UInt32) (ws : List UInt32)
    (a : UInt32) :
  storeWords data p ws (p + a) = if a % 4 = 0 then ws.getD (a / 4).toNat (data (p + a))
    else data (p + a)
  := by
  simp [storeWords]

theorem Registers.store_at (data : UInt32 → UInt32) (p : UInt32) (r : Registers) :
  r.At (r.store data p) p
  := by
  constructor
  · simp [store, storeWords, words]
  all_goals
    rw [store, storeWords_apply]
    rfl

/-- Writing the first field of the `struct registers` at `p`. -/
theorem Registers.At.update_eax {data : UInt32 → UInt32} {p : UInt32} {r : Registers}
    (h : r.At data p) (eax : UInt32) :
  Registers.At { r with eax := eax } (Function.update data p eax) p
  := by
  constructor
  · simp
  all_goals
    rw [Function.update_of_ne (by simp)]
  exacts [h.ebx, h.ecx, h.edx, h.ebp, h.esi, h.edi, h.ss, h.esp, h.eflags, h.cs, h.eip]

/-- `run_process_in_user_mode`, called with the address of a `struct registers` that holds
the registers of a user process, leaves the kernel with exactly these registers. -/
theorem runProcessInUserMode_spec {c : Cpu} {p : UInt32} {r : Registers}
    (hp : c.stack (c.reg .esp + 4) = p) (hr : r.At c.data p) (hcs : r.cs &&& 3 ≠ 0) :
  ofCpu (iret (exec c runProcessInUserMode)) = r
  := by
  simp [runProcessInUserMode, step, Cpu.load, hp, iret, Cpu.top, Cpu.drop, sub_sub, sub_add,
    hr.eax, hr.ebx, hr.ecx, hr.edx, hr.ebp, hr.esi, hr.edi, hr.ss, hr.esp, hr.eflags, hr.cs,
    hr.eip, hcs, ofCpu]

/-- `run_process_in_kernel_mode`, called with the address of a `struct registers` that holds
registers in kernel mode, leaves with these registers; `ss` stays what it was. -/
theorem runProcessInKernelMode_spec {c : Cpu} {p : UInt32} {r : Registers}
    (hp : c.stack (c.reg .esp + 4) = p) (hr : r.At c.data p) (hcs : r.cs &&& 3 = 0) :
  ofCpu (iret (exec c runProcessInKernelMode)) = { r with ss := c.ss }
  := by
  simp [runProcessInKernelMode, step, Cpu.load, hp, iret, Cpu.top, Cpu.drop, sub_sub, sub_add,
    hr.eax, hr.ebx, hr.ecx, hr.edx, hr.ebp, hr.esi, hr.edi, hr.esp, hr.eflags, hr.cs,
    hr.eip, hcs, ofCpu]
  rfl

end Process
