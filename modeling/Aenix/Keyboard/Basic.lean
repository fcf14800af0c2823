import Mathlib.Data.UInt
import Mathlib.Tactic

/-!
# The keyboard driver

`keyboard.c` stores scan codes in a circular buffer.  The interrupt handler writes at `tail` and
counts the codes, `kbd_read` reads at `head`; pointers into the buffer are given by their offsets.
An interrupt may occur between any two steps of `kbd_read`, which is therefore given by single
steps; the handler itself is not interrupted.

Characters are bytes, and `-1` is the byte `0xFF`.
-/

namespace Keyboard

/-- `KBD_BUFFER_SIZE`. -/
abbrev kbdBufferSize : ℕ := 512

/-- `struct kbd_buffer`. -/
structure KbdBuffer where
  buffer : ℕ → UInt8
  head : ℕ
  tail : ℕ
  count : UInt32

/-- The variables `is_lshift_down`, `is_rshift_down` and `is_caps_lock_pressed`. -/
structure Modifiers where
  isLshiftDown : Bool
  isRshiftDown : Bool
  isCapsLockPressed : Bool
  deriving DecidableEq, Repr

/-! ### Scan codes -/

/-- `KBD_SC_LSHIFT`. -/
abbrev kbdScLshift : UInt8 := 0x2a

/-- `KBD_SC_RSHIFT`. -/
abbrev kbdScRshift : UInt8 := 0x36

/-- `KBD_SC_CAPSLOCK`. -/
abbrev kbdScCapslock : UInt8 := 0x3a

/-- The scan codes for which `kbd_scan_code_to_ascii` has a character, with that character. -/
def characters : List (UInt8 × UInt8) :=
  -- letters
  [(0x1e, 0x61), (0x30, 0x62), (0x2e, 0x63), (0x20, 0x64), (0x12, 0x65), (0x21, 0x66),
    (0x22, 0x67), (0x23, 0x68), (0x17, 0x69), (0x24, 0x6a), (0x25, 0x6b), (0x26, 0x6c),
    (0x32, 0x6d), (0x31, 0x6e), (0x18, 0x6f), (0x19, 0x70), (0x10, 0x71), (0x13, 0x72),
    (0x1f, 0x73), (0x14, 0x74), (0x16, 0x75), (0x2f, 0x76), (0x11, 0x77), (0x2d, 0x78),
    (0x15, 0x79), (0x2c, 0x7a),
    -- digits
    (0x0b, 0x30), (0x02, 0x31), (0x03, 0x32), (0x04, 0x33), (0x05, 0x34), (0x06, 0x35),
    (0x07, 0x36), (0x08, 0x37), (0x09, 0x38), (0x0a, 0x39),
    -- enter, space, backspace, dash, equals, the brackets, backslash
    (0x1c, 0x0a), (0x39, 0x20), (0x0e, 0x08), (0x0c, 0x2d), (0x0d, 0x3d), (0x1a, 0x5b),
    (0x1b, 0x5d), (0x2b, 0x5c),
    -- semicolon, quote, comma, dot, slash, backquote, tab
    (0x27, 0x3b), (0x28, 0x27), (0x33, 0x2c), (0x34, 0x2e), (0x35, 0x2f), (0x29, 0x60),
    (0x0f, 0x09)]

/-- The characters other than letters that `handle_shift` replaces, with their replacement. -/
def shifted : List (UInt8 × UInt8) :=
  -- digits
  [(0x30, 0x29), (0x31, 0x21), (0x32, 0x40), (0x33, 0x23), (0x34, 0x24), (0x35, 0x25),
    (0x36, 0x5e), (0x37, 0x26), (0x38, 0x2a), (0x39, 0x28),
    -- dash, equals, the brackets, backslash, semicolon, quote, comma, dot, slash, backquote
    (0x2d, 0x5f), (0x3d, 0x2b), (0x5b, 0x7b), (0x5d, 0x7d), (0x5c, 0x7c), (0x3b, 0x3a),
    (0x27, 0x22), (0x2c, 0x3c), (0x2e, 0x3e), (0x2f, 0x3f), (0x60, 0x7e)]

/-- `handle_caps_lock`. -/
def handleCapsLock (ch : UInt8) : UInt8 :=
  if 0x61 ≤ ch ∧ ch ≤ 0x7a then ch + 0x41 - 0x61 else ch

/-- `handle_shift`. -/
def handleShift (ch : UInt8) : UInt8 :=
  if 0x61 ≤ ch ∧ ch ≤ 0x7a then ch + 0x41 - 0x61 else (shifted.lookup ch).getD ch

/-- `kbd_scan_code_to_ascii`. -/
def kbdScanCodeToAscii (m : Modifiers) (scanCode : UInt8) : UInt8 × Modifiers :=
  if scanCode &&& 0x80 ≠ 0 then
    -- a key is released
    let scanCode := scanCode &&& 0x7F
    if scanCode = kbdScLshift then (0xFF, { m with isLshiftDown := !m.isLshiftDown })
    else if scanCode = kbdScRshift then (0xFF, { m with isRshiftDown := !m.isRshiftDown })
    else if scanCode = kbdScCapslock then
      (0xFF, { m with isCapsLockPressed := !m.isCapsLockPressed })
    else (0xFF, m)
  else
    let finish := fun (ch : UInt8) (m : Modifiers) =>
      let ch := if m.isCapsLockPressed then handleCapsLock ch else ch
      let ch := if m.isLshiftDown || m.isRshiftDown then handleShift ch else ch
      (ch, m)
    if scanCode = kbdScLshift then finish 0xFF { m with isLshiftDown := !m.isLshiftDown }
    else if scanCode = kbdScRshift then finish 0xFF { m with isRshiftDown := !m.isRshiftDown }
    else
      match characters.lookup scanCode with
      | some ch => finish ch m
      | none => (0xFF, m)

/-! ### The interrupt handler -/

/-- A pointer into the buffer after the test for its end. -/
def wrap (p : ℕ) : ℕ :=
  if p = kbdBufferSize then 0 else p

/-- `keyboard_handle_interrupt`, for the scan code at the data port. -/
def keyboardHandleInterrupt (b : KbdBuffer) (scanCode : UInt8) : KbdBuffer :=
  if b.count < 512 then
    { b with
      buffer := Function.update b.buffer b.tail scanCode
      tail := wrap (b.tail + 1)
      count := b.count + 1 }
  else
    b

/-! ### Reading -/

/-- Where a call of `kbd_read` stands: before the test of its outer loop, before that of its inner
loop, before a code is taken out, before the test for the end of the buffer, and before the
character is stored. -/
inductive Pc
  | outer
  | inner
  | take
  | wrap (ch : UInt8)
  | store (ch : UInt8)
  deriving DecidableEq, Repr

/-- The variables of a call of `kbd_read`: where it stands, `count`, `i`, and the writes to
`b` so far. -/
structure Call where
  pc : Pc
  count : UInt32
  i : ℕ
  writes : List (ℕ × UInt8)

/-- The driver, and the call of `kbd_read` that is running, if there is one. -/
structure State where
  kbd : KbdBuffer
  modifiers : Modifiers
  call : Option Call

/-- `kbd_init`, with whatever the buffer holds. -/
def kbdInit (buffer : ℕ → UInt8) : State where
  kbd := ⟨buffer, 0, 0, 0⟩
  modifiers := ⟨false, false, false⟩
  call := none

/-- A step of `kbd_read`. -/
def kbdReadStep (s : State) (c : Call) : State :=
  match c.pc with
  | .outer => { s with call := if c.count > 0 then some { c with pc := .inner } else none }
  | .inner =>
    { s with call := some { c with pc := if s.kbd.head ≠ s.kbd.tail then .take else .outer } }
  | .take =>
    let (ch, modifiers) := kbdScanCodeToAscii s.modifiers (s.kbd.buffer s.kbd.head)
    { kbd := { s.kbd with head := s.kbd.head + 1 }
      modifiers := modifiers
      call := some { c with pc := .wrap ch } }
  | .wrap ch =>
    { s with
      kbd := { s.kbd with head := wrap s.kbd.head }
      call := some { c with pc := .store ch } }
  | .store ch =>
    { s with
      call := some <|
        if ch ≠ 0xFF then
          { c with pc := .inner, i := c.i + 1, count := c.count - 1, writes := c.writes ++ [(c.i, ch)] }
        else
          { c with pc := .inner } }

/-- What may happen next: a scan code arrives, `kbd_read` is called, or a call of it goes on. -/
inductive Event
  | interrupt (scanCode : UInt8)
  | read (count : UInt32)
  | step
  deriving DecidableEq, Repr

/-- The state after an event.  One call of `kbd_read` runs at a time. -/
def exec (s : State) : Event → State
  | .interrupt scanCode => { s with kbd := keyboardHandleInterrupt s.kbd scanCode }
  | .read count =>
    match s.call with
    | none => { s with call := some ⟨.outer, count, 0, []⟩ }
    | some _ => s
  | .step =>
    match s.call with
    | none => s
    | some c => kbdReadStep s c

end Keyboard
