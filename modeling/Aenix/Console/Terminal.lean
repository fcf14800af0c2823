import Aenix.Console.Fb

/-!
# The console as a terminal

The frame buffer shows the last 25 rows of a terminal whose paper is endless.  A row of the terminal
has 80 cells, and its cells are numbered in reading order, from the first row on; `base` is the row that is shown
first.  The console goes along with the terminal for every sequence of bytes (`fb_shows_terminal`).
-/

namespace Console

/-- The cells of a terminal, the position where the next character goes, and the first row that is shown. -/
structure Terminal where
  cell : ℕ → UInt8
  pos : ℕ
  base : ℕ

/-- The end of the rows that are shown. -/
def Terminal.bottom (t : Terminal) : ℕ :=
  (t.base + fbNumRows) * fbNumCols

/-- Nothing has been written. -/
def Terminal.blank : Terminal :=
  ⟨fun _ => space, 0, 0⟩

/-- When the position has reached the row below those that are shown, that row is shown as well. -/
def Terminal.advance (t : Terminal) : Terminal :=
  if t.pos = t.bottom then { t with base := t.base + 1 } else t

/-- A character is stored at the position. -/
def Terminal.store (t : Terminal) (b : UInt8) : Terminal :=
  Terminal.advance { t with cell := Function.update t.cell t.pos b, pos := t.pos + 1 }

/-- The position moves to the start of the next row. -/
def Terminal.newline (t : Terminal) : Terminal :=
  Terminal.advance { t with pos := (t.pos / fbNumCols + 1) * fbNumCols }

/-- The position steps back, but not out of the rows that are shown, and the cell there is blanked. -/
def Terminal.backspace (t : Terminal) : Terminal :=
  let pos := if t.pos = t.base * fbNumCols then t.pos else t.pos - 1
  { t with cell := Function.update t.cell pos space, pos := pos }

/-- A byte is written to the terminal. -/
def Terminal.put (t : Terminal) (b : UInt8) : Terminal :=
  if b = Console.newline then t.newline
  else if b = tab then (((t.store space).store space).store space).store space
  else if b = fbBackspaceAscii then t.backspace
  else t.store b

/-- Cells have been written in the frame buffer only. -/
def Within (s : Fb) : Prop :=
  ∀ cell ∈ s.written, ∃ r < fbNumRows, ∃ c < fbNumCols, cell = toAddress r c

/-- The console shows the rows of the terminal from `base` on, and its cursor is at the position of the
terminal; nothing has been written outside the frame buffer. -/
structure Shows (s : Fb) (t : Terminal) : Prop where
  inside : s.cursorPos.toNat < fbNumCols * fbNumRows
  cursor : t.base * fbNumCols + s.cursorPos.toNat = t.pos
  characters : ∀ r < fbNumRows, ∀ c < fbNumCols,
    s.mem (toAddress r c) = t.cell ((t.base + r) * fbNumCols + c)
  attributes : ∀ r < fbNumRows, ∀ c < fbNumCols, s.mem (toAddress r c + 1) = blackOnWhite
  blank : ∀ k, t.bottom ≤ k → t.cell k = space
  within : Within s

/-! ### Writing inside the frame buffer -/

variable {s : Fb} {t : Terminal}

theorem Within.writeAt (h : Within s) (b : UInt8) {r c : ℕ} (hr : r < fbNumRows) (hc : c < fbNumCols) :
  Within (writeAt s b r c)
  := by
  intro cell hcell
  rw [Console.writeAt, writeCell_written, List.mem_append, List.mem_singleton] at hcell
  rcases hcell with hcell | heq
  · exact h cell hcell
  · exact ⟨r, hr, c, hc, heq⟩

/-- Every cell of the frame buffer has a row and a column. -/
theorem address_of_lt {k : ℕ} (hk : k < fbNumRows * fbNumCols) :
  ∃ r < fbNumRows, ∃ c < fbNumCols, k = r * fbNumCols + c
  := by
  refine ⟨k / fbNumCols, ?_, k % fbNumCols, ?_, ?_⟩
  · exact Nat.div_lt_of_lt_mul (by rwa [Nat.mul_comm])
  · exact Nat.mod_lt _ (by decide)
  · rw [Nat.mul_comm, Nat.div_add_mod]

theorem Within.writeCell (h : Within s) (b : UInt8) {k : ℕ} (hk : k < fbNumRows * fbNumCols) :
  Within (writeCell s (2 * k) b)
  := by
  obtain ⟨r, hr, c, hc, rfl⟩ := address_of_lt hk
  exact h.writeAt b hr hc

theorem Within.moveTo (h : Within s) (loc : UInt16) :
  Within (moveTo s loc)
  := h

theorem Within.fillRow (h : Within s) (f : Fb → ℕ → UInt8) {r : ℕ} (hr : r < fbNumRows) :
  Within ((List.range fbNumCols).foldl (fun s c => Console.writeAt s (f s c) r c) s)
  := by
  apply List.foldlRecOn _ _ h
  intro s' hs' c hc
  exact hs'.writeAt _ hr (List.mem_range.mp hc)

theorem Within.clearRow (h : Within s) {r : ℕ} (hr : r < fbNumRows) :
  Within (clearRow s r)
  := h.fillRow (fun _ _ => space) hr

theorem Within.copyUp (h : Within s) {r : ℕ} (hr : r - 1 < fbNumRows) :
  Within (copyUp s r)
  := h.fillRow (fun s c => readCell s r c) hr

theorem Within.scroll (h : Within s) :
  Within (scroll s)
  := by
  have hcopied : Within ((List.range' 1 (fbNumRows - 1)).foldl Console.copyUp s) := by
    apply List.foldlRecOn _ _ h
    intro s' hs' r hr
    have hrow := (List.mem_range'_1.mp hr).2
    simp only [fbNumRows] at hrow
    exact hs'.copyUp (by simp only [fbNumRows]; omega)
  exact hcopied.clearRow (by decide)

/-! ### Bytes other than tabs -/

/-- The console goes along with the terminal, and the cursor may be just below the last row. -/
structure Near (s : Fb) (t : Terminal) : Prop where
  inside : s.cursorPos.toNat ≤ fbNumRows * fbNumCols
  cursor : t.base * fbNumCols + s.cursorPos.toNat = t.pos
  cells : ∀ k < fbNumRows * fbNumCols, s.cells k = (t.cell (t.base * fbNumCols + k), blackOnWhite)
  blank : ∀ k, t.bottom ≤ k → t.cell k = space
  within : Within s

theorem Shows.near (h : Shows s t) :
  Near s t
  := by
  refine ⟨h.inside.le, h.cursor, ?_, h.blank, h.within⟩
  intro k hk
  obtain ⟨r, hr, c, hc, rfl⟩ := address_of_lt hk
  have hchar := h.characters r hr c hc
  rw [Nat.add_mul, Nat.add_assoc] at hchar
  exact Prod.ext hchar (h.attributes r hr c hc)

theorem Near.shows (h : Near s t) (hinside : s.cursorPos.toNat < fbNumRows * fbNumCols) :
  Shows s t
  := by
  have hlt : ∀ r < fbNumRows, ∀ c < fbNumCols, r * fbNumCols + c < fbNumRows * fbNumCols := by
    simp only [fbNumRows, fbNumCols]
    omega
  refine ⟨hinside, h.cursor, ?_, ?_, h.blank, h.within⟩
  · intro r hr c hc
    have hcell := congrArg Prod.fst (h.cells _ (hlt r hr c hc))
    rw [Nat.add_mul, Nat.add_assoc]
    exact hcell
  · intro r hr c hc
    exact congrArg Prod.snd (h.cells _ (hlt r hr c hc))

/-- `scroll` is followed by a move to the start of the last row. -/
theorem cursorPos_lastRow (s : Fb) :
  (fbMoveCursor s 24 0).cursorPos.toNat = (fbNumRows - 1) * fbNumCols
  := rfl

/-- Scrolling shows the row below. -/
theorem Near.scroll (h : Near s t) (hpos : t.pos = t.bottom) :
  Near (fbMoveCursor (scroll s) 24 0) { t with base := t.base + 1 }
  := by
  constructor
  case inside =>
    rw [cursorPos_lastRow]
    decide
  case cursor =>
    rw [cursorPos_lastRow, hpos, Terminal.bottom]
    simp only [fbNumRows, fbNumCols]
    omega
  case cells =>
    intro k hk
    rw [fbMoveCursor, moveTo_cells, scroll_cells s k hk]
    by_cases hshown : k < (fbNumRows - 1) * fbNumCols
    · have hbelow : k + fbNumCols < fbNumRows * fbNumCols := by
        simp only [fbNumRows, fbNumCols] at hshown ⊢
        omega
      have hindex : t.base * fbNumCols + (k + fbNumCols) = (t.base + 1) * fbNumCols + k := by
        rw [Nat.succ_mul, Nat.add_assoc, Nat.add_comm k]
      rw [if_pos hshown, h.cells _ hbelow, hindex]
    · have hbelow : t.bottom ≤ (t.base + 1) * fbNumCols + k := by
        simp only [Terminal.bottom, fbNumRows, fbNumCols] at hshown ⊢
        omega
      rw [if_neg hshown, h.blank _ hbelow]
  case blank =>
    intro k hk
    have hbottom : t.bottom ≤ Terminal.bottom { t with base := t.base + 1 } :=
      Nat.mul_le_mul_right _ (Nat.add_le_add_right (Nat.le_succ _) _)
    exact h.blank k (hbottom.trans hk)
  case within =>
    exact h.within.scroll.moveTo _

/-- At the end of the frame buffer the console is scrolled. -/
theorem Near.scrollAtEnd (h : Near s t) :
  Shows (scrollAtEnd s) t.advance
  := by
  have hcursor := h.cursor
  have hinside := h.inside
  have hge : s.cursorPos ≥ 80 * 25 ↔ ¬ s.cursorPos.toNat < fbNumRows * fbNumCols := by
    rw [ge_iff_le, UInt16.le_iff_toNat_le, not_lt]
    rfl
  have hpos : t.pos = t.bottom ↔ ¬ s.cursorPos.toNat < fbNumRows * fbNumCols := by
    rw [← hcursor, Terminal.bottom, Nat.add_mul]
    omega
  rw [Console.scrollAtEnd, Terminal.advance]
  by_cases hlt : s.cursorPos.toNat < fbNumRows * fbNumCols
  · rw [if_neg (by rwa [hge, not_not]), if_neg (by rwa [hpos, not_not])]
    exact h.shows hlt
  · rw [if_pos (hge.mpr hlt), if_pos (hpos.mpr hlt)]
    apply (h.scroll (hpos.mpr hlt)).shows
    rw [cursorPos_lastRow]
    decide

/-- Nothing is scrolled while the cursor is in the frame buffer. -/
theorem Shows.scrollAtEnd_eq (h : Shows s t) :
  Console.scrollAtEnd s = s
  := by
  apply if_neg
  rw [ge_iff_le, UInt16.le_iff_toNat_le, not_le]
  exact h.inside

/-- The row of the position. -/
theorem Shows.pos_div (h : Shows s t) :
  t.pos / fbNumCols = t.base + s.cursorPos.toNat / fbNumCols
  := by
  rw [← h.cursor, Nat.add_comm, Nat.add_mul_div_right _ _ (by decide), Nat.add_comm]

/-- A character is stored at the cursor. -/
theorem Near.writeCell (h : Near s t) (hinside : s.cursorPos.toNat < fbNumRows * fbNumCols) (b : UInt8) :
  Near (writeCell s (2 * s.cursorPos.toNat) b) ⟨Function.update t.cell t.pos b, t.pos, t.base⟩
  := by
  constructor
  case inside => exact h.inside
  case cursor => exact h.cursor
  case cells =>
    intro k hk
    simp only [writeCell_cells, Function.update_apply, ← h.cursor, Nat.add_left_cancel_iff, h.cells k hk]
    split
    case isTrue => rfl
    case isFalse => rfl
  case blank =>
    intro k hk
    have hne : k ≠ t.pos := by
      simp only [Terminal.bottom, Nat.add_mul] at hk
      rw [← h.cursor]
      omega
    simp only [Function.update_of_ne hne]
    exact h.blank k hk
  case within => exact h.within.writeCell b hinside

/-- The cursor and the position move along with each other. -/
theorem Near.move {s' : Fb} (h : Near s t) (hcells : s'.cells = s.cells) (hwritten : s'.written = s.written)
    {pos : ℕ} (hpos : t.base * fbNumCols + s'.cursorPos.toNat = pos)
    (hinside : s'.cursorPos.toNat ≤ fbNumRows * fbNumCols) :
  Near s' { t with pos := pos }
  := by
  refine ⟨hinside, hpos, ?_, h.blank, ?_⟩
  · rw [hcells]
    exact h.cells
  · rw [Within, hwritten]
    exact h.within

theorem Shows.store (h : Shows s t) {b : UInt8} (hb : b ≠ newline ∧ b ≠ tab ∧ b ≠ fbBackspaceAscii) :
  Shows (fbPutB s b) (t.store b)
  := by
  have hinside : s.cursorPos.toNat < 2000 := h.inside
  have hsucc : (s.cursorPos + 1).toNat = s.cursorPos.toNat + 1 := by
    rw [UInt16.toNat_add, UInt16.toNat_one, Nat.mod_eq_of_lt (by omega)]
  rw [fbPutB_other s hb]
  have hwritten := h.near.writeCell hinside b
  apply Near.scrollAtEnd
  apply hwritten.move
  · rfl
  · rfl
  · rw [moveCursorForward, moveTo_cursorPos, writeCell_cursorPos, hsucc, ← Nat.add_assoc, h.cursor]
  · rw [moveCursorForward, moveTo_cursorPos, writeCell_cursorPos, hsucc]
    exact hinside

theorem Shows.newline (h : Shows s t) :
  Shows (fbPutB s newline) t.newline
  := by
  have hinside : s.cursorPos.toNat < 2000 := h.inside
  have hdown : (s.cursorPos + 80).toNat = s.cursorPos.toNat + 80 := by
    rw [UInt16.toNat_add, Nat.mod_eq_of_lt]
    · rfl
    · exact (Nat.add_lt_add_right hinside 80).trans (by decide)
  have hstart : (s.cursorPos + 80 - (s.cursorPos + 80) % 80).toNat = (s.cursorPos.toNat / 80 + 1) * 80 := by
    have hmod : ((s.cursorPos + 80) % 80).toNat = (s.cursorPos.toNat + 80) % 80 := by
      rw [UInt16.toNat_mod, hdown]
      rfl
    rw [UInt16.toNat_sub_of_le, hmod, hdown]
    · omega
    · rw [UInt16.le_iff_toNat_le, hmod]
      exact hdown ▸ Nat.mod_le _ _
  rw [fbPutB_newline]
  apply Near.scrollAtEnd
  apply h.near.move
  · rfl
  · rfl
  · rw [h.pos_div, moveCursorStart, moveCursorDown, moveTo_cursorPos, moveTo_cursorPos, hstart]
    simp only [fbNumCols]
    omega
  · rw [moveCursorStart, moveCursorDown, moveTo_cursorPos, moveTo_cursorPos, hstart]
    simp only [fbNumRows, fbNumCols]
    omega

/-- The cursor steps back along with the position. -/
theorem Shows.back (h : Shows s t) :
  Near (moveCursorBack s) { t with pos := if t.pos = t.base * fbNumCols then t.pos else t.pos - 1 } ∧
    (moveCursorBack s).cursorPos.toNat < fbNumRows * fbNumCols
  := by
  have hinside := h.inside
  have hcursor := h.cursor
  by_cases hzero : s.cursorPos = 0
  · have hpos : t.pos = t.base * fbNumCols := by
      rw [← hcursor, hzero]
      rfl
    rw [moveCursorBack, if_neg (not_not.mpr hzero), if_pos hpos]
    exact ⟨h.near, hinside⟩
  · have hone : 1 ≤ s.cursorPos.toNat := by
      rw [Nat.one_le_iff_ne_zero, ne_eq, ← UInt16.toNat_zero, UInt16.toNat_inj]
      exact hzero
    have hpred : (s.cursorPos - 1).toNat = s.cursorPos.toNat - 1 := by
      rw [UInt16.toNat_sub_of_le, UInt16.toNat_one]
      rwa [UInt16.le_iff_toNat_le]
    have hpos : t.pos ≠ t.base * fbNumCols := by omega
    rw [moveCursorBack, if_pos hzero, if_neg hpos]
    constructor
    · apply h.near.move
      · rfl
      · rfl
      · rw [moveTo_cursorPos, hpred]
        omega
      · rw [moveTo_cursorPos, hpred]
        exact (Nat.sub_le _ _).trans hinside.le
    · rw [moveTo_cursorPos, hpred]
      exact (Nat.sub_le _ _).trans_lt hinside

theorem Shows.backspace (h : Shows s t) :
  Shows (fbPutB s fbBackspaceAscii) t.backspace
  := by
  obtain ⟨hback, hinside⟩ := h.back
  have hblanked := (hback.writeCell hinside space).shows hinside
  rw [fbPutB_backspace, hblanked.scrollAtEnd_eq]
  exact hblanked

theorem Shows.put (h : Shows s t) (b : UInt8) :
  Shows (fbPutB s b) (t.put b)
  := by
  rw [Terminal.put]
  by_cases hnewline : b = Console.newline
  · rw [if_pos hnewline, hnewline]
    exact h.newline
  rw [if_neg hnewline]
  by_cases htab : b = tab
  · have hspace : space ≠ Console.newline ∧ space ≠ tab ∧ space ≠ fbBackspaceAscii := by decide
    have hspaces := (((h.store hspace).store hspace).store hspace).store hspace
    rw [if_pos htab, htab, fbPutB_tab, hspaces.scrollAtEnd_eq]
    exact hspaces
  rw [if_neg htab]
  by_cases hback : b = fbBackspaceAscii
  · rw [if_pos hback, hback]
    exact h.backspace
  · rw [if_neg hback]
    exact h.store ⟨hnewline, htab, hback⟩

/-! ### Sequences of bytes -/

/-- `fb_clear` shows a blank terminal. -/
theorem shows_blank (mem : ℕ → UInt8) (cursorPos : UInt16) :
  Shows (fbClear ⟨mem, cursorPos, [], []⟩) Terminal.blank
  := by
  have hcursor : (fbClear ⟨mem, cursorPos, [], []⟩).cursorPos.toNat = 0 := by
    rw [fbClear, fbMoveCursor, moveTo_cursorPos]
    rfl
  apply Near.shows
  · constructor
    case inside =>
      rw [hcursor]
      exact Nat.zero_le _
    case cursor =>
      rw [hcursor]
      rfl
    case cells =>
      intro k hk
      rw [fbClear, fbMoveCursor, moveTo_cells, clearRows_cells]
      exact if_pos hk
    case blank => exact fun _ _ => rfl
    case within =>
      have hstart : Within ⟨mem, cursorPos, [], []⟩ := by simp [Within]
      apply Within.moveTo
      apply List.foldlRecOn _ _ hstart
      intro s hs r hr
      exact hs.clearRow (List.mem_range.mp hr)
  · rw [hcursor]
    decide

/-- The console goes along with the terminal. -/
theorem Shows.foldl (h : Shows s t) (bytes : List UInt8) :
  Shows (bytes.foldl fbPutB s) (bytes.foldl Terminal.put t)
  := by
  induction bytes generalizing s t with
  | nil => exact h
  | cons b bytes ih => exact ih (h.put b)

/-- `fb_put_s` writes the bytes of a string up to its end. -/
theorem fbPutS_eq (s : Fb) (str : List UInt8) :
  fbPutS s str = (str.takeWhile (· ≠ 0)).foldl fbPutB s
  := by
  induction str generalizing s with
  | nil => rfl
  | cons b str ih =>
      rw [fbPutS]
      by_cases hb : b ≠ 0
      · rw [if_pos hb, ih, List.takeWhile_cons_of_pos (by simpa using hb)]
        rfl
      · rw [if_neg hb, List.takeWhile_cons_of_neg (by simpa using hb)]
        rfl

/-- A call of `fb_put_b` or `fb_put_s`. -/
inductive Call
  | putB (b : UInt8)
  | putS (str : List UInt8)

/-- What a call does. -/
def Call.exec (s : Fb) : Call → Fb
  | .putB b => fbPutB s b
  | .putS str => fbPutS s str

/-- The bytes that a call writes. -/
def Call.bytes : Call → List UInt8
  | .putB b => [b]
  | .putS str => str.takeWhile (· ≠ 0)

theorem calls_eq (s : Fb) (calls : List Call) :
  calls.foldl Call.exec s = (calls.flatMap Call.bytes).foldl fbPutB s
  := by
  induction calls generalizing s with
  | nil => rfl
  | cons c calls ih =>
      rw [List.foldl_cons, ih, List.flatMap_cons, List.foldl_append]
      congr 1
      cases c with
      | putB b => rfl
      | putS str => exact fbPutS_eq s str

/-- After `fb_clear`, the console shows the terminal to which the bytes are written, whatever bytes
they are; and calls of `fb_put_b` and `fb_put_s` write the bytes of the calls. -/
theorem fb_shows_terminal (mem : ℕ → UInt8) (cursorPos : UInt16) :
  (∀ bytes : List UInt8,
      Shows (bytes.foldl fbPutB (fbClear ⟨mem, cursorPos, [], []⟩))
        (bytes.foldl Terminal.put Terminal.blank)) ∧
    ∀ calls : List Call,
      calls.foldl Call.exec (fbClear ⟨mem, cursorPos, [], []⟩) =
        (calls.flatMap Call.bytes).foldl fbPutB (fbClear ⟨mem, cursorPos, [], []⟩)
  := ⟨(shows_blank mem cursorPos).foldl, calls_eq _⟩

end Console
