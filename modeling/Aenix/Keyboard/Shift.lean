import Aenix.Keyboard.Basic

/-!
# The shift keys

`is_lshift_down` and `is_rshift_down` are toggled by every code of their key, by those of a press and by
those of a release.  A keyboard repeats the code of the press for as long as a key is held, so a shift key
that is held longer counts as released at every other repetition.  The flags follow the keys in exactly
those sequences of codes in which the presses and the releases of either shift key alternate
(`shift_follows_iff`).
-/

namespace Keyboard

/-- The modifiers after a sequence of scan codes, from the initial ones on. -/
def modifiersAfter (codes : List UInt8) : Modifiers :=
  codes.foldl (fun m sc => (kbdScanCodeToAscii m sc).2) ⟨false, false, false⟩

@[simp] theorem modifiersAfter_nil :
  modifiersAfter [] = ⟨false, false, false⟩
  := rfl

@[simp] theorem modifiersAfter_concat (codes : List UInt8) (sc : UInt8) :
  modifiersAfter (codes ++ [sc]) = (kbdScanCodeToAscii (modifiersAfter codes) sc).2
  := by
  rw [modifiersAfter, List.foldl_concat]
  rfl

/-- A code of a key, whether of its press or of its release. -/
def IsCodeOf (key sc : UInt8) : Prop :=
  sc &&& 0x7F = key

instance (key sc : UInt8) : Decidable (IsCodeOf key sc) :=
  inferInstanceAs (Decidable (sc &&& 0x7F = key))

/-- The last code of the key is that of a press. -/
def Down (key : UInt8) (codes : List UInt8) : Prop :=
  (codes.filter (IsCodeOf key ·)).getLast? = some key

instance (key : UInt8) (codes : List UInt8) : Decidable (Down key codes) :=
  inferInstanceAs (Decidable ((codes.filter (IsCodeOf key ·)).getLast? = some key))

/-- One of the two shift keys is down. -/
def ShiftDown (codes : List UInt8) : Prop :=
  Down kbdScLshift codes ∨ Down kbdScRshift codes

/-- A letter, as the keys show them. -/
def IsLetter (ch : UInt8) : Prop :=
  0x61 ≤ ch ∧ ch ≤ 0x7a

instance (ch : UInt8) : Decidable (IsLetter ch) :=
  inferInstanceAs (Decidable (0x61 ≤ ch ∧ ch ≤ 0x7a))

/-- After `codes`, the flags say which shift keys are down, and a key with a character gives it in its
shifted form exactly when a shift key is down, or caps lock is on and it is a letter. -/
structure Follows (codes : List UInt8) : Prop where
  lshift : (modifiersAfter codes).isLshiftDown ↔ Down kbdScLshift codes
  rshift : (modifiersAfter codes).isRshiftDown ↔ Down kbdScRshift codes
  shifted : ∀ sc ch, characters.lookup sc = some ch →
    (ShiftDown codes ∨ (modifiersAfter codes).isCapsLockPressed ∧ IsLetter ch) →
    (kbdScanCodeToAscii (modifiersAfter codes) sc).1 = handleShift ch
  plain : ∀ sc ch, characters.lookup sc = some ch →
    ¬ (ShiftDown codes ∨ (modifiersAfter codes).isCapsLockPressed ∧ IsLetter ch) →
    (kbdScanCodeToAscii (modifiersAfter codes) sc).1 = ch

/-- The code of a press comes when the key is up, and that of a release when it is down. -/
def Alternates (key : UInt8) (codes : List UInt8) : Prop :=
  ∀ p sc, p ++ [sc] <+: codes → IsCodeOf key sc → (sc = key ↔ ¬ Down key p)

/-! ### Codes of a key -/

variable {key sc : UInt8} {codes : List UInt8}

@[simp] theorem not_down_nil :
  ¬ Down key []
  := by simp [Down]

theorem down_concat (h : IsCodeOf key sc) :
  Down key (codes ++ [sc]) ↔ sc = key
  := by simp [Down, List.filter_append, h]

theorem down_concat_other (h : ¬ IsCodeOf key sc) :
  Down key (codes ++ [sc]) ↔ Down key codes
  := by simp [Down, List.filter_append, h]

theorem Alternates.of_prefix {p : List UInt8} (h : Alternates key codes) (hp : p <+: codes) :
  Alternates key p
  := fun q sc hq => h q sc (hq.trans hp)

/-- The code of a press is the number of its key. -/
theorem press_and_mask (h : sc &&& 0x80 = 0) :
  sc &&& 0x7F = sc
  := by
  have hall : ∀ k : Fin 256, UInt8.ofNat k &&& 0x80 = 0 → UInt8.ofNat k &&& 0x7F = UInt8.ofNat k := by
    decide +kernel
  simpa using hall ⟨sc.toNat, sc.toNat_lt⟩ (by simpa using h)

/-! ### What a scan code does -/

/-- The flag of a shift key is toggled by the codes of that key, and by no others. -/
theorem scan_toggles (m : Modifiers) (sc : UInt8) :
  (kbdScanCodeToAscii m sc).2.isLshiftDown = (m.isLshiftDown ^^ IsCodeOf kbdScLshift sc) ∧
    (kbdScanCodeToAscii m sc).2.isRshiftDown = (m.isRshiftDown ^^ IsCodeOf kbdScRshift sc)
  := by
  have hne : kbdScRshift ≠ kbdScLshift := by decide
  by_cases hpress : sc &&& 0x80 = 0
  · have hmask := press_and_mask hpress
    by_cases hl : sc = kbdScLshift
    · subst hl
      simp [kbdScanCodeToAscii, IsCodeOf, hpress, hmask, hne.symm]
    · by_cases hr : sc = kbdScRshift
      · subst hr
        simp [kbdScanCodeToAscii, IsCodeOf, hpress, hmask, hne]
      · cases hch : characters.lookup sc <;>
          simp [kbdScanCodeToAscii, IsCodeOf, hpress, hmask, hl, hr, hch]
  · by_cases hl : sc &&& 0x7F = kbdScLshift
    · simp [kbdScanCodeToAscii, IsCodeOf, hpress, hl, hne.symm]
    · by_cases hr : sc &&& 0x7F = kbdScRshift
      · simp [kbdScanCodeToAscii, IsCodeOf, hpress, hr, hne]
      · simp only [kbdScanCodeToAscii, IsCodeOf, if_pos hpress, hl, hr, if_false]
        by_cases hc : sc &&& 0x7F = kbdScCapslock
        · simp [hc]
        · simp [hc]

/-- The codes with a character are those of presses, and not those of the shift keys; the shifted form of a
character is not changed by caps lock. -/
theorem characters_spec :
  ∀ e ∈ characters, e.1 &&& 0x80 = 0 ∧ e.1 ≠ kbdScLshift ∧ e.1 ≠ kbdScRshift ∧
    handleShift (handleCapsLock e.2) = handleShift e.2
  := by
  have hall : characters.all (fun e => e.1 &&& 0x80 = 0 ∧ e.1 ≠ kbdScLshift ∧ e.1 ≠ kbdScRshift ∧
      handleShift (handleCapsLock e.2) = handleShift e.2) = true := by decide
  intro e he
  exact of_decide_eq_true (List.all_eq_true.mp hall e he)

theorem handleCapsLock_letter {ch : UInt8} (h : IsLetter ch) :
  handleCapsLock ch = handleShift ch
  := by
  unfold IsLetter at h
  rw [handleCapsLock, if_pos h, handleShift, if_pos h]

theorem handleCapsLock_other {ch : UInt8} (h : ¬ IsLetter ch) :
  handleCapsLock ch = ch
  := if_neg h

/-- The character of a key. -/
theorem scan_character (m : Modifiers) {ch : UInt8} (hch : characters.lookup sc = some ch) :
  (kbdScanCodeToAscii m sc).1 =
    if (m.isLshiftDown ∨ m.isRshiftDown) ∨ m.isCapsLockPressed ∧ IsLetter ch then handleShift ch else ch
  := by
  have hmem : (sc, ch) ∈ characters := by
    obtain ⟨front, rest, heq, -⟩ := List.lookup_eq_some_iff.mp hch
    simp [heq]
  obtain ⟨hpress, hl, hr, hcaps⟩ := characters_spec _ hmem
  dsimp only at hpress hl hr hcaps
  simp only [kbdScanCodeToAscii, if_neg (not_not.mpr hpress), if_neg hl, if_neg hr, hch]
  by_cases hshift : m.isLshiftDown ∨ m.isRshiftDown
  · rw [if_pos (by simpa using hshift), if_pos (Or.inl hshift)]
    split
    case isTrue => exact hcaps
    case isFalse => rfl
  · rw [if_neg (by simpa using hshift)]
    by_cases hon : m.isCapsLockPressed
    · by_cases hletter : IsLetter ch
      · rw [if_pos hon, if_pos (Or.inr ⟨hon, hletter⟩), handleCapsLock_letter hletter]
      · rw [if_pos hon, if_neg (by tauto), handleCapsLock_other hletter]
    · rw [if_neg hon, if_neg (by tauto)]

/-! ### Sequences of codes -/

/-- While the codes of a key alternate, its flag says whether it is down. -/
theorem toggled_iff_down (flag : Modifiers → Bool) (hinit : flag ⟨false, false, false⟩ = false)
    (hflag : ∀ m sc, flag (kbdScanCodeToAscii m sc).2 = (flag m ^^ IsCodeOf key sc))
    (halternates : Alternates key codes) :
  flag (modifiersAfter codes) ↔ Down key codes
  := by
  induction codes using List.reverseRecOn with
  | nil => simp [hinit]
  | append_singleton codes sc ih =>
      have hcodes := ih (halternates.of_prefix (List.prefix_append _ _))
      rw [modifiersAfter_concat, hflag]
      by_cases hcode : IsCodeOf key sc
      · have hsc := halternates codes sc List.prefix_rfl hcode
        rw [down_concat hcode, hsc, ← hcodes]
        simp [hcode]
      · rw [down_concat_other hcode, ← hcodes]
        simp [hcode]

/-- When the flag of a key says whether it is down, throughout a sequence of codes, the codes of the key
alternate. -/
theorem alternates_of_toggled (flag : Modifiers → Bool)
    (hflag : ∀ m sc, flag (kbdScanCodeToAscii m sc).2 = (flag m ^^ IsCodeOf key sc))
    (hdown : ∀ p, p <+: codes → (flag (modifiersAfter p) ↔ Down key p)) :
  Alternates key codes
  := by
  intro p sc hp hcode
  have hbefore := hdown p ((List.prefix_append p [sc]).trans hp)
  have hafter := hdown _ hp
  rw [modifiersAfter_concat, hflag, down_concat hcode] at hafter
  rw [← hafter, ← hbefore]
  simp [hcode]

/-- While the codes of either shift key alternate, the modifiers and the characters follow the keys. -/
theorem follows_of_alternates (hl : Alternates kbdScLshift codes) (hr : Alternates kbdScRshift codes) :
  Follows codes
  := by
  have hlshift := toggled_iff_down Modifiers.isLshiftDown rfl (fun m sc => (scan_toggles m sc).1) hl
  have hrshift := toggled_iff_down Modifiers.isRshiftDown rfl (fun m sc => (scan_toggles m sc).2) hr
  refine ⟨hlshift, hrshift, ?_, ?_⟩
  · intro sc ch hch hdown
    rw [ShiftDown, ← hlshift, ← hrshift] at hdown
    rw [scan_character _ hch, if_pos hdown]
  · intro sc ch hch hup
    rw [ShiftDown, ← hlshift, ← hrshift] at hup
    rw [scan_character _ hch, if_neg hup]

/-- The shift state and the characters follow the keys throughout a sequence of scan codes exactly when
the presses and the releases of either shift key alternate. -/
theorem shift_follows_iff (codes : List UInt8) :
  (∀ p, p <+: codes → Follows p) ↔ Alternates kbdScLshift codes ∧ Alternates kbdScRshift codes
  := by
  constructor
  · intro hfollows
    constructor
    · exact alternates_of_toggled Modifiers.isLshiftDown (fun m sc => (scan_toggles m sc).1)
        fun p hp => (hfollows p hp).lshift
    · exact alternates_of_toggled Modifiers.isRshiftDown (fun m sc => (scan_toggles m sc).2)
        fun p hp => (hfollows p hp).rshift
  · rintro ⟨hl, hr⟩ p hp
    exact follows_of_alternates (hl.of_prefix hp) (hr.of_prefix hp)

/-- A left shift key that is held until its code is repeated counts as released, and `a` is not shifted. -/
theorem held_shift_released :
  Down kbdScLshift [0x2a, 0x2a] ∧
    (modifiersAfter [0x2a, 0x2a]).isLshiftDown = false ∧
    (kbdScanCodeToAscii (modifiersAfter [0x2a, 0x2a]) 0x1e).1 = 0x61 ∧
    ¬ ∀ codes, Follows codes
  := by
  have hdown : Down kbdScLshift [0x2a, 0x2a] := by decide
  have hflag : (modifiersAfter [0x2a, 0x2a]).isLshiftDown = false := by decide
  refine ⟨hdown, hflag, by decide, ?_⟩
  intro hfollows
  have hset := (hfollows [0x2a, 0x2a]).lshift.mpr hdown
  exact Bool.noConfusion (hset.symm.trans hflag)

end Keyboard
