import Mathlib.Data.UInt
import Mathlib.Tactic

/-!
# A fragment of the IA-32 architecture

The general and segment registers, the instruction pointer and the flags of a processor, a
stack addressed through `esp` and data addressed through the other registers.  A word of
memory is what lies at an address; words are only ever accessed whole.

The instructions are those that move words between registers and memory.  `interrupt` is
what the processor does when an interrupt goes through a trap gate, and `iret` is the way
back: both change the stack when they change the privilege level, which is held in the two
lowest bits of `cs`.
-/

namespace IA32

/-- The general registers. -/
inductive Reg where
  | eax | ebx | ecx | edx | ebp | esi | edi | esp
  deriving DecidableEq, Repr

/-- The data segment registers. -/
inductive Seg where
  | ds | es | fs | gs
  deriving DecidableEq, Repr

/-- The state of the processor and of the memory it addresses. -/
structure Cpu where
  reg : Reg → UInt32
  seg : Seg → UInt32
  eip : UInt32
  eflags : UInt32
  cs : UInt32
  ss : UInt32
  stack : UInt32 → UInt32
  data : UInt32 → UInt32

/-- The instructions. -/
inductive Instr where
  /-- `push r` -/
  | push (r : Reg)
  /-- `push DWORD w` -/
  | pushImm (w : UInt32)
  /-- `push DWORD [base+offset]` -/
  | pushMem (base : Reg) (offset : UInt32)
  /-- `pop r` -/
  | pop (r : Reg)
  /-- `mov r, [base+offset]` -/
  | mov (r base : Reg) (offset : UInt32)
  /-- `mov r, [base+offset]` for the lower half of `r` -/
  | movLow (r base : Reg) (offset : UInt32)
  /-- `mov s, r` for the lower half of `r` -/
  | movSeg (s : Seg) (r : Reg)
  /-- `call`, with the address of the next instruction -/
  | call (next : UInt32)
  /-- `add DWORD [esp], w` -/
  | addTop (w : UInt32)
  /-- `cli` -/
  | cli

namespace Cpu

/-- The word at `[base+offset]`. -/
def load (c : Cpu) (base : Reg) (offset : UInt32) : UInt32 :=
  if base = .esp then c.stack (c.reg .esp + offset) else c.data (c.reg base + offset)

/-- A register set to a value. -/
def set (c : Cpu) (r : Reg) (w : UInt32) : Cpu :=
  { c with reg := Function.update c.reg r w }

/-- A word pushed onto the stack. -/
def push (c : Cpu) (w : UInt32) : Cpu :=
  { c with
    reg := Function.update c.reg .esp (c.reg .esp - 4)
    stack := Function.update c.stack (c.reg .esp - 4) w }

/-- The word on top of the stack. -/
def top (c : Cpu) : UInt32 := c.stack (c.reg .esp)

/-- The stack with its top word dropped. -/
def drop (c : Cpu) : Cpu :=
  c.set .esp (c.reg .esp + 4)

end Cpu

/-- One instruction. -/
def step (c : Cpu) : Instr → Cpu
  | .push r => c.push (c.reg r)
  | .pushImm w => c.push w
  | .pushMem base offset => c.push (c.load base offset)
  | .pop r => c.drop.set r c.top
  | .mov r base offset => c.set r (c.load base offset)
  | .movLow r base offset =>
    c.set r ((c.reg r &&& 0xFFFF0000) ||| (c.load base offset &&& 0x0000FFFF))
  | .movSeg s r => { c with seg := Function.update c.seg s (c.reg r &&& 0x0000FFFF) }
  | .call next => c.push next
  | .addTop w => { c with stack := Function.update c.stack (c.reg .esp) (c.top + w) }
  | .cli => { c with eflags := c.eflags &&& 0xFFFFFDFF }

/-- A sequence of instructions. -/
def exec (c : Cpu) (is : List Instr) : Cpu :=
  is.foldl step c

/-- An interrupt from user mode through a trap gate to the handler at `handler`, with the
kernel stack `ss0:esp0` of the task state segment and the code segment `cs0` of the gate. -/
def interrupt (esp0 ss0 cs0 handler : UInt32) (c : Cpu) : Cpu :=
  let c' : Cpu := c.set .esp esp0
  let c' := c'.push c.ss
  let c' := c'.push (c.reg .esp)
  let c' := c'.push c.eflags
  let c' := c'.push c.cs
  let c' := c'.push c.eip
  { c' with eip := handler, cs := cs0, ss := ss0, eflags := c.eflags &&& 0xFFFCBEFF }

/-- An interrupt through a trap gate.  From kernel mode, the stack stays the same one and the
processor pushes neither `ss` nor `esp`. -/
def trap (esp0 ss0 cs0 handler : UInt32) (c : Cpu) : Cpu :=
  if c.cs &&& 3 = 0 then
    let c' := c.push c.eflags
    let c' := c'.push c.cs
    let c' := c'.push c.eip
    { c' with eip := handler, cs := cs0, eflags := c.eflags &&& 0xFFFCBEFF }
  else
    interrupt esp0 ss0 cs0 handler c

/-- `iret` in kernel mode: `eip`, `cs` and `eflags` are taken from the stack, and `esp` and
`ss` too when the code segment is one of a lower privilege level. -/
def iret (c : Cpu) : Cpu :=
  let eip := c.top
  let c := c.drop
  let cs := c.top
  let c := c.drop
  let eflags := c.top
  let c := c.drop
  let c := { c with eip := eip, cs := cs, eflags := eflags }
  if cs &&& 3 = 0 then
    c
  else
    let esp := c.top
    let c := c.drop
    let ss := c.top
    { c.set .esp esp with ss := ss }

/-! ### Symbolic execution -/

variable (c : Cpu)

@[simp]
theorem exec_nil :
  exec c [] = c
  := rfl

@[simp]
theorem exec_cons (i : Instr) (is : List Instr) :
  exec c (i :: is) = exec (step c i) is
  := rfl

namespace Cpu

@[simp]
theorem set_reg (r : Reg) (w : UInt32) :
  (c.set r w).reg = Function.update c.reg r w
  := rfl

@[simp]
theorem set_stack (r : Reg) (w : UInt32) :
  (c.set r w).stack = c.stack
  := rfl

@[simp]
theorem set_data (r : Reg) (w : UInt32) :
  (c.set r w).data = c.data
  := rfl

@[simp]
theorem set_eip (r : Reg) (w : UInt32) :
  (c.set r w).eip = c.eip
  := rfl

@[simp]
theorem set_eflags (r : Reg) (w : UInt32) :
  (c.set r w).eflags = c.eflags
  := rfl

@[simp]
theorem set_cs (r : Reg) (w : UInt32) :
  (c.set r w).cs = c.cs
  := rfl

@[simp]
theorem push_reg_esp (w : UInt32) :
  (c.push w).reg .esp = c.reg .esp - 4
  := by
  simp [push]

@[simp]
theorem push_reg_of_ne {r : Reg} (h : r ≠ .esp) (w : UInt32) :
  (c.push w).reg r = c.reg r
  := by
  simp [push, h]

@[simp]
theorem push_stack (w a : UInt32) :
  (c.push w).stack a = if a = c.reg .esp - 4 then w else c.stack a
  := by
  simp [push, Function.update_apply]

@[simp]
theorem push_data (w : UInt32) :
  (c.push w).data = c.data
  := rfl

end Cpu

end IA32
