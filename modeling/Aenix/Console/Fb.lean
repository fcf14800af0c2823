import Mathlib.Tactic

/-!
# The frame buffer

`fb.c` writes characters to the frame buffer, which has 25 rows of 80 cells, and a cell has two bytes: its
character and its attribute.  The memory is given by the bytes from `fb` on, and a cell by its offset
there.  Beside the variables of the source the state holds the cells that have been written and what
has been sent to the ports of the cursor.
-/

namespace Console

/-- `FB_NUM_COLS`. -/
abbrev fbNumCols : ℕ := 80

/-- `FB_NUM_ROWS`. -/
abbrev fbNumRows : ℕ := 25

/-- `FB_CURSOR_DATA_PORT`. -/
abbrev fbCursorDataPort : UInt16 := 0x3D5

/-- `FB_CURSOR_INDEX_PORT`. -/
abbrev fbCursorIndexPort : UInt16 := 0x3D4

/-- `FB_HIGH_BYTE`. -/
abbrev fbHighByte : UInt8 := 14

/-- `FB_LOW_BYTE`. -/
abbrev fbLowByte : UInt8 := 15

/-- `BLACK_ON_WHITE`. -/
abbrev blackOnWhite : UInt8 := 0x0F

/-- `FB_BACKSPACE_ASCII`. -/
abbrev fbBackspaceAscii : UInt8 := 8

/-- `'\n'`. -/
abbrev newline : UInt8 := 0x0A

/-- `'\t'`. -/
abbrev tab : UInt8 := 0x09

/-- `' '`. -/
abbrev space : UInt8 := 0x20

/-- The memory from `fb` on and `cursor_pos`, with the cells that have been written and the bytes that
have been sent to ports. -/
structure Fb where
  mem : ℕ → UInt8
  cursorPos : UInt16
  written : List ℕ
  sent : List (UInt16 × UInt8)

/-- `TO_ADDRESS`, from `fb` on. -/
def toAddress (row col : ℕ) : ℕ :=
  2 * (row * fbNumCols + col)

/-- `read_cell`. -/
def readCell (s : Fb) (row col : ℕ) : UInt8 :=
  s.mem (toAddress row col)

/-- `write_cell`. -/
def writeCell (s : Fb) (cell : ℕ) (b : UInt8) : Fb :=
  { s with
    mem := Function.update (Function.update s.mem cell b) (cell + 1) blackOnWhite
    written := s.written ++ [cell] }

/-- `write_at`. -/
def writeAt (s : Fb) (b : UInt8) (row col : ℕ) : Fb :=
  writeCell s (toAddress row col) b

/-- `set_cursor`. -/
def setCursor (s : Fb) (loc : UInt16) : Fb :=
  { s with
    sent := s.sent ++
      [(fbCursorIndexPort, fbHighByte), (fbCursorDataPort, (loc >>> 8).toUInt8),
        (fbCursorIndexPort, fbLowByte), (fbCursorDataPort, loc.toUInt8)] }

/-- `cursor_pos` is assigned and given to `set_cursor`. -/
def moveTo (s : Fb) (loc : UInt16) : Fb :=
  setCursor { s with cursorPos := loc } loc

/-- `move_cursor_forward`. -/
def moveCursorForward (s : Fb) : Fb :=
  moveTo s (s.cursorPos + 1)

/-- `move_cursor_back`. -/
def moveCursorBack (s : Fb) : Fb :=
  if s.cursorPos ≠ 0 then moveTo s (s.cursorPos - 1) else s

/-- `move_cursor_down`. -/
def moveCursorDown (s : Fb) : Fb :=
  moveTo s (s.cursorPos + 80)

/-- `move_cursor_start`. -/
def moveCursorStart (s : Fb) : Fb :=
  moveTo s (s.cursorPos - s.cursorPos % 80)

/-- `fb_move_cursor`. -/
def fbMoveCursor (s : Fb) (row col : UInt16) : Fb :=
  moveTo s (row * 80 + col)

/-- The inner loop of `scroll`, for its row `r`. -/
def copyUp (s : Fb) (r : ℕ) : Fb :=
  (List.range fbNumCols).foldl (fun s c => writeAt s (readCell s r c) (r - 1) c) s

/-- The row `r` is filled with blanks. -/
def clearRow (s : Fb) (r : ℕ) : Fb :=
  (List.range fbNumCols).foldl (fun s c => writeAt s space r c) s

/-- `scroll`. -/
def scroll (s : Fb) : Fb :=
  clearRow ((List.range' 1 (fbNumRows - 1)).foldl copyUp s) (fbNumRows - 1)

/-- The last lines of `fb_put_b`. -/
def scrollAtEnd (s : Fb) : Fb :=
  if s.cursorPos ≥ 80 * 25 then fbMoveCursor (scroll s) 24 0 else s

/-- `fb_put_b`. -/
def fbPutB (s : Fb) (b : UInt8) : Fb :=
  let s :=
    if b ≠ newline ∧ b ≠ tab ∧ b ≠ fbBackspaceAscii then writeCell s (2 * s.cursorPos.toNat) b else s
  let s :=
    if b = newline then
      moveCursorStart (moveCursorDown s)
    else if b = fbBackspaceAscii then
      let s := moveCursorBack s
      writeCell s (2 * s.cursorPos.toNat) space
    else if b = tab then
      (List.range 4).foldl (fun s _ => fbPutB s space) s
    else
      moveCursorForward s
  scrollAtEnd s
termination_by if b = tab then 1 else 0
decreasing_by
  rw [if_pos ‹b = tab›]
  decide

/-- `fb_put_s`, for the bytes from `s` on. -/
def fbPutS (s : Fb) : List UInt8 → Fb
  | [] => s
  | b :: str => if b ≠ 0 then fbPutS (fbPutB s b) str else s

/-- `fb_clear`. -/
def fbClear (s : Fb) : Fb :=
  fbMoveCursor ((List.range fbNumRows).foldl clearRow s) 0 0

/-! ### Bytes -/

theorem fbPutB_newline (s : Fb) :
  fbPutB s newline = scrollAtEnd (moveCursorStart (moveCursorDown s))
  := by
  rw [fbPutB, if_pos rfl, if_neg (by decide)]

theorem fbPutB_backspace (s : Fb) :
  fbPutB s fbBackspaceAscii =
    scrollAtEnd (writeCell (moveCursorBack s) (2 * (moveCursorBack s).cursorPos.toNat) space)
  := by
  rw [fbPutB, if_neg (by decide), if_pos rfl, if_neg (by decide)]

theorem fbPutB_tab (s : Fb) :
  fbPutB s tab = scrollAtEnd (fbPutB (fbPutB (fbPutB (fbPutB s space) space) space) space)
  := by
  rw [fbPutB, if_neg (by decide), if_neg (by decide), if_pos rfl, if_neg (by decide)]
  rfl

theorem fbPutB_other (s : Fb) {b : UInt8} (hb : b ≠ newline ∧ b ≠ tab ∧ b ≠ fbBackspaceAscii) :
  fbPutB s b = scrollAtEnd (moveCursorForward (writeCell s (2 * s.cursorPos.toNat) b))
  := by
  rw [fbPutB, if_neg hb.1, if_neg hb.2.2, if_neg hb.2.1, if_pos hb]

/-! ### Cells -/

/-- The character and the attribute of each cell, in the order of the cells. -/
def Fb.cells (s : Fb) (k : ℕ) : UInt8 × UInt8 :=
  (s.mem (2 * k), s.mem (2 * k + 1))

variable (s : Fb)

@[simp] theorem moveTo_cells (loc : UInt16) :
  (moveTo s loc).cells = s.cells
  := rfl

@[simp] theorem moveTo_written (loc : UInt16) :
  (moveTo s loc).written = s.written
  := rfl

@[simp] theorem moveTo_cursorPos (loc : UInt16) :
  (moveTo s loc).cursorPos = loc
  := rfl

@[simp] theorem writeCell_cursorPos (cell : ℕ) (b : UInt8) :
  (writeCell s cell b).cursorPos = s.cursorPos
  := rfl

@[simp] theorem writeCell_written (cell : ℕ) (b : UInt8) :
  (writeCell s cell b).written = s.written ++ [cell]
  := rfl

@[simp] theorem writeCell_cells (k : ℕ) (b : UInt8) :
  (writeCell s (2 * k) b).cells = Function.update s.cells k (b, blackOnWhite)
  := by
  funext j
  by_cases hj : j = k
  · simp [Fb.cells, writeCell, hj]
  · simp [Fb.cells, writeCell, Function.update_apply, hj]
    omega

@[simp] theorem writeAt_cells (b : UInt8) (row col : ℕ) :
  (writeAt s b row col).cells = Function.update s.cells (row * fbNumCols + col) (b, blackOnWhite)
  := writeCell_cells s _ b

theorem readCell_eq (row col : ℕ) :
  readCell s row col = (s.cells (row * fbNumCols + col)).1
  := rfl

/-- The cells after a row has been filled up to its `n`th cell with what `f` gives, when `f` does not depend
on the cells that are filled. -/
theorem fillRow_cells (f : Fb → ℕ → UInt8) (v : ℕ → UInt8) (row n : ℕ)
    (hf : ∀ s' : Fb, (∀ k, row * fbNumCols + n ≤ k → s'.cells k = s.cells k) →
      ∀ c < n, f s' c = v c) :
  ((List.range n).foldl (fun s c => writeAt s (f s c) row c) s).cells =
    fun k => if row * fbNumCols ≤ k ∧ k < row * fbNumCols + n
      then (v (k - row * fbNumCols), blackOnWhite) else s.cells k
  := by
  induction n with
  | zero =>
      funext k
      rw [if_neg (by omega)]
      rfl
  | succ n ih =>
      have hn := ih fun s' hs' c hc => hf s' (fun k hk => hs' k (by omega)) c (by omega)
      rw [List.range_succ, List.foldl_concat, writeAt_cells]
      have hv : f ((List.range n).foldl (fun s c => writeAt s (f s c) row c) s) n = v n := by
        apply hf _ _ n (Nat.lt_succ_self n)
        intro k hk
        rw [hn]
        exact if_neg (by omega)
      funext k
      rw [hv, hn, Function.update_apply]
      by_cases hlast : k = row * fbNumCols + n
      · rw [if_pos hlast, if_pos (by omega), hlast, Nat.add_sub_cancel_left]
      · rw [if_neg hlast]
        congr 1
        apply propext
        omega

/-- A row of cells. -/
def IsRow (r k : ℕ) : Prop :=
  r * fbNumCols ≤ k ∧ k < (r + 1) * fbNumCols

instance (r k : ℕ) : Decidable (IsRow r k) :=
  inferInstanceAs (Decidable (r * fbNumCols ≤ k ∧ k < (r + 1) * fbNumCols))

theorem clearRow_cells (r : ℕ) :
  (clearRow s r).cells = fun k => if IsRow r k then (space, blackOnWhite) else s.cells k
  := by
  rw [clearRow, fillRow_cells s (fun _ _ => space) (fun _ => space) r fbNumCols (fun _ _ _ _ => rfl)]
  funext k
  simp only [IsRow, Nat.succ_mul]

theorem copyUp_cells (r : ℕ) :
  (copyUp s (r + 1)).cells =
    fun k => if IsRow r k then ((s.cells (k + fbNumCols)).1, blackOnWhite) else s.cells k
  := by
  rw [copyUp, Nat.add_sub_cancel,
    fillRow_cells s (fun s c => readCell s (r + 1) c) (fun c => readCell s (r + 1) c) r fbNumCols]
  · funext k
    simp only [IsRow, Nat.succ_mul, readCell_eq]
    split
    case isTrue hrow =>
      congr 3
      omega
    case isFalse => rfl
  · intro s' hs' c _
    rw [readCell_eq, readCell_eq, hs']
    rw [Nat.succ_mul]
    omega

/-- The first `n` rows have been replaced by those below them. -/
theorem copyUps_cells (n : ℕ) :
  ((List.range' 1 n).foldl copyUp s).cells =
    fun k => if k < n * fbNumCols then ((s.cells (k + fbNumCols)).1, blackOnWhite) else s.cells k
  := by
  induction n with
  | zero => simp
  | succ n ih =>
      rw [List.range'_1_concat, List.foldl_concat, Nat.add_comm 1 n, copyUp_cells]
      funext k
      simp only [ih, IsRow, Nat.succ_mul]
      by_cases hrow : n * fbNumCols ≤ k
      · by_cases hlast : k < n * fbNumCols + fbNumCols
        · rw [if_pos ⟨hrow, hlast⟩, if_neg (by omega), if_pos hlast]
        · rw [if_neg (by omega), if_neg (by omega), if_neg hlast]
      · rw [if_neg (by omega), if_pos (by omega), if_pos (by omega)]

/-- `scroll` moves the rows up by one, and blanks the last one. -/
theorem scroll_cells (k : ℕ) (hk : k < fbNumRows * fbNumCols) :
  (scroll s).cells k =
    if k < (fbNumRows - 1) * fbNumCols then ((s.cells (k + fbNumCols)).1, blackOnWhite)
    else (space, blackOnWhite)
  := by
  rw [scroll, clearRow_cells, copyUps_cells]
  simp only [IsRow, Nat.sub_add_cancel (show 1 ≤ fbNumRows by decide)]
  by_cases hlast : k < (fbNumRows - 1) * fbNumCols
  · rw [if_neg (by omega), if_pos hlast, if_pos hlast]
  · rw [if_pos ⟨by omega, hk⟩, if_neg hlast]

/-- `fb_clear` blanks all cells. -/
theorem clearRows_cells (n : ℕ) :
  ((List.range n).foldl clearRow s).cells =
    fun k => if k < n * fbNumCols then (space, blackOnWhite) else s.cells k
  := by
  induction n with
  | zero => simp
  | succ n ih =>
      rw [List.range_succ, List.foldl_concat, clearRow_cells]
      funext k
      simp only [ih, IsRow, Nat.succ_mul]
      by_cases hrow : n * fbNumCols ≤ k
      · by_cases hlast : k < n * fbNumCols + fbNumCols
        · rw [if_pos ⟨hrow, hlast⟩, if_pos hlast]
        · rw [if_neg (by omega), if_neg (by omega), if_neg hlast]
      · rw [if_neg (by omega), if_pos (by omega), if_pos (by omega)]

end Console
