import Aenix.Console.Terminal
import Aenix.Lib.Digits
import Aenix.Lib.Loop

/-!
# Numbers on the console and in the log

`fb_put_ui` and `log_ui` are the same loops, the former for `fb_put_b` and the latter for `serial_write`;
`fb_put_ui_hex` and `log_hex` find the digits in different ways.  The serial line is given by the bytes
that have been written to it.  The loops run for at most a given number of rounds; eleven always
suffice, and both printers give the same characters (`numbers_agree`).
-/

open Digits

namespace Console

/-- `serial_write`, once the transmitter is ready. -/
def serialWrite (line : List UInt8) (data : UInt8) : List UInt8 :=
  line ++ [data]

/-! ### Decimal numbers -/

/-- A round of the loop of `fb_put_ui` and `log_ui` that looks for the largest power of ten. -/
def powerBody (i : UInt32) (n : UInt32) : UInt32 ⊕ UInt32 :=
  if n * 10 ≤ i then .inl (n * 10) else .inr n

/-- The power of ten with which `fb_put_ui` and `log_ui` begin. -/
def firstPower (rounds : ℕ) (i : UInt32) : Option UInt32 :=
  if i ≥ 1000000000 then some 1000000000 else Loop.run (powerBody i) rounds 1

/-- The variables `n` and `i`, and where the characters are written. -/
structure Ui (σ : Type) where
  n : UInt32
  i : UInt32
  out : σ

variable {σ : Type}

/-- A round of the loop of `fb_put_ui` and `log_ui` that writes the digits. -/
def digitBody (put : σ → UInt8 → σ) (u : Ui σ) : Ui σ ⊕ σ :=
  if u.n > 0 then
    let digit := u.i / u.n
    .inl ⟨u.n / 10, u.i % u.n, put u.out (0x30 + digit).toUInt8⟩
  else
    .inr u.out

/-- The common text of `fb_put_ui` and `log_ui`. -/
def putUi (put : σ → UInt8 → σ) (rounds : ℕ) (out : σ) (i : UInt32) : Option σ := do
  let n ← firstPower rounds i
  Loop.run (digitBody put) rounds ⟨n, i, out⟩

/-- `fb_put_ui`. -/
def fbPutUi (rounds : ℕ) (s : Fb) (i : UInt32) : Option Fb :=
  putUi fbPutB rounds s i

/-- `log_ui`. -/
def logUi (rounds : ℕ) (line : List UInt8) (i : UInt32) : Option (List UInt8) :=
  putUi serialWrite rounds line i

/-! ### Hexadecimal numbers -/

/-- `"0123456789ABCDEF"`. -/
def hexChars : List UInt8 :=
  [0x30, 0x31, 0x32, 0x33, 0x34, 0x35, 0x36, 0x37, 0x38, 0x39, 0x41, 0x42, 0x43, 0x44, 0x45, 0x46]

/-- The character of the lowest four bits of a number. -/
def hexChar (i : UInt32) : UInt8 :=
  hexChars.getD (i &&& 0x0F).toNat 0

/-- `fb_put_ui_hex`. -/
def fbPutUiHex (s : Fb) (n : UInt32) : Fb :=
  let s := fbPutS s [0x30, 0x78, 0]
  (List.range 8).reverse.foldl (fun s i => fbPutB s (hexChar (n >>> UInt32.ofNat (i * 4)))) s

/-- A round of the loop of `log_hex` that looks for the first digit. -/
def nibbleBody (i : UInt32) (n : UInt32) : UInt32 ⊕ UInt32 :=
  if 1 <<< (n + 4) ≤ i then .inl (n + 4) else .inr n

/-- The shift with which `log_hex` begins. -/
def firstNibble (rounds : ℕ) (i : UInt32) : Option UInt32 :=
  if i ≥ 0x10000000 then some 28 else Loop.run (nibbleBody i) rounds 0

/-- A round of the loop of `log_hex` that writes zeros, with `min_digits` and the serial line. -/
def padBody (n : UInt32) (u : UInt32 × List UInt8) : UInt32 × List UInt8 ⊕ List UInt8 :=
  if u.1 > n then .inl (u.1 - 4, serialWrite u.2 0x30) else .inr u.2

/-- A round of the last loop of `log_hex`, with `n` and the serial line. -/
def hexBody (i : UInt32) (u : UInt32 × List UInt8) : UInt32 × List UInt8 ⊕ List UInt8 :=
  let line := serialWrite u.2 (hexChar (i >>> u.1))
  if u.1 = 0 then .inr line else .inl (u.1 - 4, line)

/-- `log_hex`. -/
def logHex (rounds : ℕ) (line : List UInt8) (i : UInt32) : Option (List UInt8) := do
  let minDigits : UInt32 := 8
  let n ← firstNibble rounds i
  let line := serialWrite (serialWrite line 0x30) 0x78
  let minDigits := if minDigits > 0 then minDigits - 1 else minDigits
  let line ← Loop.run (padBody n) rounds (minDigits <<< 2, line)
  Loop.run (hexBody i) rounds (n, line)

/-! ### Representations -/

/-- The character of a digit, with upper-case letters. -/
def digitChar (d : ℕ) : UInt8 :=
  if d < 10 then 0x30 + UInt8.ofNat d else 0x41 + UInt8.ofNat (d - 10)

/-- The decimal representation, without leading zeros. -/
def decimal (i : UInt32) : List UInt8 :=
  (numeral 10 i.toNat).map digitChar

/-- `0x` and eight hexadecimal digits. -/
def hexadecimal (i : UInt32) : List UInt8 :=
  0x30 :: 0x78 :: (places 16 8 i.toNat).map digitChar

/-! ### The decimal digits -/

variable {i n : UInt32} {k : ℕ}

theorem toNat_mul_ten (hk : k ≤ 8) (hn : n.toNat = 10 ^ k) :
  (n * 10).toNat = 10 ^ (k + 1)
  := by
  have hbound : 10 ^ (k + 1) ≤ 10 ^ 9 := Nat.pow_le_pow_right (by decide) (by omega)
  rw [UInt32.toNat_mul, hn, pow_succ]
  apply Nat.mod_eq_of_lt
  rw [pow_succ] at hbound
  exact hbound.trans_lt (by decide)

/-- The loop finds the largest power of ten that is not greater than `i`, and 1 for 0. -/
theorem powerBody_run (hi : i.toNat < 10 ^ 9) (m : ℕ) (hk : k + m = 8) (hn : n.toNat = 10 ^ k)
    (hle : 10 ^ k ≤ i.toNat ∨ k = 0) :
  ∃ j ≤ 8, ∃ r, Loop.run (powerBody i) (m + 1) n = some r ∧ r.toNat = 10 ^ j ∧
    i.toNat < 10 ^ (j + 1) ∧ (10 ^ j ≤ i.toNat ∨ j = 0)
  := by
  induction m generalizing k n with
  | zero =>
      obtain rfl : k = 8 := hk
      have hleave : powerBody i n = .inr n := by
        apply if_neg
        rw [UInt32.le_iff_toNat_le, toNat_mul_ten le_rfl hn]
        omega
      exact ⟨8, le_rfl, n, Loop.run_leave hleave 0, hn, hi, hle⟩
  | succ m ih =>
      have hten := toNat_mul_ten (by omega) hn
      by_cases hge : 10 ^ (k + 1) ≤ i.toNat
      · have hcontinue : powerBody i n = .inl (n * 10) := by
          apply if_pos
          rwa [UInt32.le_iff_toNat_le, hten]
        rw [Loop.run_continue hcontinue]
        exact ih (by omega) hten (Or.inl hge)
      · have hleave : powerBody i n = .inr n := by
          apply if_neg
          rwa [UInt32.le_iff_toNat_le, hten]
        exact ⟨k, by omega, n, Loop.run_leave hleave _, hn, by omega, hle⟩

/-- The character of a decimal digit. -/
theorem decimalDigit_eq {digit : UInt32} (h : digit.toNat < 10) :
  (0x30 + digit).toUInt8 = digitChar digit.toNat
  := by
  rw [digitChar, if_pos h, UInt32.toUInt8_add]
  congr 1

variable (put : σ → UInt8 → σ)

/-- A round writes the digit of `n`. -/
theorem digitBody_round (out : σ) (hn : n.toNat = 10 ^ k) (hi : i.toNat < 10 ^ (k + 1)) :
  digitBody put ⟨n, i, out⟩ = .inl ⟨n / 10, i % n, put out (digitChar (i.toNat / 10 ^ k % 10))⟩
  := by
  have hpos : n > 0 := by
    rw [gt_iff_lt, UInt32.lt_iff_toNat_lt, hn]
    exact Nat.pow_pos (by decide)
  have hdigit : (i / n).toNat = i.toNat / 10 ^ k := by rw [UInt32.toNat_div, hn]
  have hlt : i.toNat / 10 ^ k < 10 := by
    apply Nat.div_lt_of_lt_mul
    rwa [← pow_succ]
  simp only [digitBody, if_pos hpos]
  rw [decimalDigit_eq (by rwa [hdigit]), hdigit, Nat.mod_eq_of_lt hlt]

/-- From a power of ten on, the digits are written. -/
theorem digitBody_run (out : σ) (hn : n.toNat = 10 ^ k) (hi : i.toNat < 10 ^ (k + 1)) :
  Loop.run (digitBody put) (k + 2) ⟨n, i, out⟩ =
    some (((places 10 (k + 1) i.toNat).map digitChar).foldl put out)
  := by
  induction k generalizing n i out with
  | zero =>
      have hzero : n / 10 = 0 := by
        rw [← UInt32.toNat_inj, UInt32.toNat_div, hn]
        rfl
      have hleave : digitBody put ⟨n / 10, i % n, put out (digitChar (i.toNat / 10 ^ 0 % 10))⟩ =
          .inr (put out (digitChar (i.toNat / 10 ^ 0 % 10))) := by
        apply if_neg
        simp [hzero]
      rw [Loop.run_continue (digitBody_round put out hn hi), Loop.run_leave hleave]
      rfl
  | succ k ih =>
      have hnext : (n / 10).toNat = 10 ^ k := by
        rw [UInt32.toNat_div, hn, pow_succ]
        exact Nat.mul_div_cancel _ (by decide)
      have hrest : (i % n).toNat = i.toNat % 10 ^ (k + 1) := by rw [UInt32.toNat_mod, hn]
      have hlt : (i % n).toNat < 10 ^ (k + 1) := by
        rw [hrest]
        exact Nat.mod_lt _ (Nat.pow_pos (by decide))
      rw [Loop.run_continue (digitBody_round put out hn hi), ih _ hnext hlt, hrest, places_mod le_rfl]
      rfl

/-- The first power of ten is that of the first digit. -/
theorem firstPower_spec (rounds : ℕ) (i : UInt32) :
  ∃ j ≤ 9, ∃ r, firstPower (rounds + 11) i = some r ∧ r.toNat = 10 ^ j ∧
    i.toNat < 10 ^ (j + 1) ∧ (10 ^ j ≤ i.toNat ∨ j = 0)
  := by
  by_cases hlarge : i ≥ 1000000000
  · have hle : 10 ^ 9 ≤ i.toNat := by
      rwa [ge_iff_le, UInt32.le_iff_toNat_le] at hlarge
    exact ⟨9, le_rfl, 1000000000, if_pos hlarge, rfl, i.toNat_lt.trans (by decide), Or.inl hle⟩
  · have hlt : i.toNat < 10 ^ 9 := by
      rwa [ge_iff_le, UInt32.le_iff_toNat_le, not_le] at hlarge
    have hone : (1 : UInt32).toNat = 10 ^ 0 := rfl
    obtain ⟨j, hj, r, hrun, hspec⟩ := powerBody_run hlt 8 (Nat.zero_add 8) hone (Or.inr rfl)
    refine ⟨j, by omega, r, ?_, hspec⟩
    rw [firstPower, if_neg hlarge]
    exact Loop.run_mono hrun (by omega)

/-- `fb_put_ui` and `log_ui` write the decimal representation. -/
theorem putUi_eq (rounds : ℕ) (out : σ) (i : UInt32) :
  putUi put (rounds + 11) out i = some ((decimal i).foldl put out)
  := by
  obtain ⟨j, hj, r, heq, hr, hlt, hle⟩ := firstPower_spec rounds i
  rw [putUi, heq, Option.bind_eq_bind, Option.bind_some, decimal,
    ← places_eq_numeral (by decide) hlt hle]
  exact Loop.run_mono (digitBody_run put out hr hlt) (by omega)

/-! ### The hexadecimal digits -/

theorem foldl_serialWrite (line bytes : List UInt8) :
  bytes.foldl serialWrite line = line ++ bytes
  := by
  induction bytes generalizing line with
  | nil => simp
  | cons b bytes ih => rw [List.foldl_cons, ih, serialWrite, List.append_assoc, List.singleton_append]

/-- The character of the lowest four bits. -/
theorem hexChar_eq (i : UInt32) :
  hexChar i = digitChar (i.toNat % 16)
  := by
  have hall : ∀ d < 16, hexChars.getD d 0 = digitChar d := by decide
  have hmask : (i &&& 0x0F).toNat = i.toNat % 16 := Nat.and_two_pow_sub_one_eq_mod i.toNat 4
  rw [hexChar, hmask]
  exact hall _ (Nat.mod_lt _ (by decide))

/-- The character of a place. -/
theorem hexChar_shift (i : UInt32) (hn : n.toNat = 4 * k) (hk : k < 8) :
  hexChar (i >>> n) = digitChar (i.toNat / 16 ^ k % 16)
  := by
  have hbound : 4 * k < 32 := by omega
  rw [hexChar_eq, UInt32.toNat_shiftRight, hn, Nat.mod_eq_of_lt hbound, Nat.shiftRight_eq_div_pow, pow_mul]
  rfl

/-- The loop of `fb_put_ui_hex`. -/
theorem foldl_hexChar (put : σ → UInt8 → σ) (out : σ) (i : UInt32) (hk : k ≤ 8) :
  (List.range k).reverse.foldl (fun out j => put out (hexChar (i >>> UInt32.ofNat (j * 4)))) out =
    ((places 16 k i.toNat).map digitChar).foldl put out
  := by
  induction k generalizing out with
  | zero => rfl
  | succ k ih =>
      have hshift : (UInt32.ofNat (k * 4)).toNat = 4 * k := by
        rw [UInt32.toNat_ofNat', Nat.mod_eq_of_lt (by omega), Nat.mul_comm]
      rw [List.range_succ, List.reverse_concat, List.foldl_cons, hexChar_shift i hshift hk,
        ih _ (by omega)]
      rfl

theorem toNat_add_four (hn : n.toNat = 4 * k) (hk : k ≤ 6) :
  (n + 4).toNat = 4 * (k + 1)
  := by
  rw [UInt32.toNat_add, hn]
  apply Nat.mod_eq_of_lt
  exact (Nat.add_le_add_right (Nat.mul_le_mul_left 4 hk) 4).trans_lt (by decide)

/-- The power of 16 with which the loop compares. -/
theorem toNat_one_shift (hn : n.toNat = 4 * k) (hk : k ≤ 6) :
  ((1 : UInt32) <<< (n + 4)).toNat = 16 ^ (k + 1)
  := by
  have hbound : 4 * (k + 1) < 32 := by omega
  have hpow : 16 ^ (k + 1) ≤ 16 ^ 7 := Nat.pow_le_pow_right (by decide) (by omega)
  have hsixteen : 2 ^ (4 * (k + 1)) = 16 ^ (k + 1) := by
    rw [pow_mul]
    rfl
  rw [UInt32.toNat_shiftLeft, toNat_add_four hn hk, Nat.mod_eq_of_lt hbound, Nat.shiftLeft_eq, UInt32.toNat_one,
    Nat.one_mul, hsixteen]
  exact Nat.mod_eq_of_lt (hpow.trans_lt (by decide))

/-- The loop finds a place above which all digits are zeros. -/
theorem nibbleBody_run (hi : i.toNat < 16 ^ 7) (m : ℕ) (hk : k + m = 6) (hn : n.toNat = 4 * k) :
  ∃ j ≤ 6, ∃ r, Loop.run (nibbleBody i) (m + 1) n = some r ∧ r.toNat = 4 * j ∧ i.toNat < 16 ^ (j + 1)
  := by
  have hpower := toNat_one_shift hn (by omega)
  induction m generalizing k n with
  | zero =>
      obtain rfl : k = 6 := hk
      have hleave : nibbleBody i n = .inr n := by
        apply if_neg
        rwa [UInt32.le_iff_toNat_le, hpower, not_le]
      exact ⟨6, le_rfl, n, Loop.run_leave hleave 0, hn, hi⟩
  | succ m ih =>
      by_cases hge : 16 ^ (k + 1) ≤ i.toNat
      · have hcontinue : nibbleBody i n = .inl (n + 4) := by
          apply if_pos
          rwa [UInt32.le_iff_toNat_le, hpower]
        have hnext := toNat_add_four hn (by omega)
        rw [Loop.run_continue hcontinue]
        exact ih (by omega) hnext (toNat_one_shift hnext (by omega))
      · have hleave : nibbleBody i n = .inr n := by
          apply if_neg
          rwa [UInt32.le_iff_toNat_le, hpower]
        exact ⟨k, by omega, n, Loop.run_leave hleave _, hn, by omega⟩

theorem firstNibble_spec (rounds : ℕ) (i : UInt32) :
  ∃ j ≤ 7, ∃ r, firstNibble (rounds + 11) i = some r ∧ r.toNat = 4 * j ∧ i.toNat < 16 ^ (j + 1)
  := by
  by_cases hlarge : i ≥ 0x10000000
  · exact ⟨7, le_rfl, 28, if_pos hlarge, rfl, i.toNat_lt⟩
  · have hlt : i.toNat < 16 ^ 7 := by
      rwa [ge_iff_le, UInt32.le_iff_toNat_le, not_le] at hlarge
    have hzero : (0 : UInt32).toNat = 4 * 0 := rfl
    obtain ⟨j, hj, r, hrun, hspec⟩ := nibbleBody_run hlt 6 (Nat.zero_add 6) hzero
    refine ⟨j, by omega, r, ?_, hspec⟩
    rw [firstNibble, if_neg hlarge]
    exact Loop.run_mono hrun (by omega)

theorem toNat_sub_four (hn : n.toNat = 4 * (k + 1)) :
  (n - 4).toNat = 4 * k
  := by
  have hfour : (4 : UInt32).toNat = 4 := rfl
  rw [UInt32.toNat_sub_of_le, hn, hfour]
  · omega
  · rw [UInt32.le_iff_toNat_le, hn, hfour]
    omega

/-- Zeros are written from one place to another. -/
theorem padBody_run (line : List UInt8) {d : UInt32} (hn : n.toNat = 4 * k) (m : ℕ)
    (hd : d.toNat = 4 * (k + m)) :
  Loop.run (padBody n) (m + 1) (d, line) = some (line ++ List.replicate m 0x30)
  := by
  induction m generalizing d line with
  | zero =>
      have hleave : padBody n (d, line) = .inr line := by
        apply if_neg
        rw [gt_iff_lt, UInt32.lt_iff_toNat_lt, hn, hd]
        simp
      rw [Loop.run_leave hleave]
      simp
  | succ m ih =>
      have hcontinue : padBody n (d, line) = .inl (d - 4, serialWrite line 0x30) := by
        apply if_pos
        rw [gt_iff_lt, UInt32.lt_iff_toNat_lt, hn, hd]
        omega
      rw [Loop.run_continue hcontinue, ih _ (toNat_sub_four hd), serialWrite, List.append_assoc,
        List.singleton_append, List.replicate_succ]

/-- The digits are written from a place on. -/
theorem hexBody_run (line : List UInt8) (i : UInt32) (hn : n.toNat = 4 * k) (hk : k ≤ 7) :
  Loop.run (hexBody i) (k + 1) (n, line) = some (line ++ (places 16 (k + 1) i.toNat).map digitChar)
  := by
  have hchar := hexChar_shift i hn (by omega)
  induction k generalizing n line with
  | zero =>
      have hzero : n = 0 := by rw [← UInt32.toNat_inj, hn, UInt32.toNat_zero]
      have hleave : hexBody i (n, line) = .inr (serialWrite line (hexChar (i >>> n))) := if_pos hzero
      rw [Loop.run_leave hleave, hchar]
      rfl
  | succ k ih =>
      have hne : n ≠ 0 := by
        rintro rfl
        rw [UInt32.toNat_zero] at hn
        omega
      have hcontinue : hexBody i (n, line) = .inl (n - 4, serialWrite line (hexChar (i >>> n))) := if_neg hne
      have hnext := toNat_sub_four hn
      rw [Loop.run_continue hcontinue, ih _ hnext (by omega) (hexChar_shift i hnext (by omega)), hchar,
        serialWrite, List.append_assoc, List.singleton_append]
      rfl

theorem fbPutUiHex_eq (s : Fb) (i : UInt32) :
  fbPutUiHex s i = (hexadecimal i).foldl fbPutB s
  := by
  rw [fbPutUiHex, fbPutS_eq, foldl_hexChar fbPutB _ i le_rfl, ← List.foldl_append]
  rfl

theorem logHex_eq (rounds : ℕ) (line : List UInt8) (i : UInt32) :
  logHex (rounds + 11) line i = some (line ++ hexadecimal i)
  := by
  obtain ⟨j, hj, r, hfirst, hr, hlt⟩ := firstNibble_spec rounds i
  obtain ⟨m, hm⟩ : ∃ m, j + m = 7 := ⟨7 - j, by omega⟩
  have hpad : ∀ line, Loop.run (padBody r) (rounds + 11) (28, line) = some (line ++ List.replicate m 0x30) := by
    intro line
    have hd : (28 : UInt32).toNat = 4 * (j + m) := by
      rw [hm]
      rfl
    exact Loop.run_mono (padBody_run line hr m hd) (by omega)
  have hdigits : ∀ line, Loop.run (hexBody i) (rounds + 11) (r, line) =
      some (line ++ (places 16 (j + 1) i.toNat).map digitChar) := by
    intro line
    exact Loop.run_mono (hexBody_run line i hr hj) (by omega)
  have hplaces : places 16 8 i.toNat = List.replicate m 0 ++ places 16 (j + 1) i.toNat := by
    rw [← places_of_lt (by decide) m hlt]
    congr 1
    omega
  have hmin : (if (8 : UInt32) > 0 then 8 - 1 else 8 : UInt32) <<< 2 = 28 := by decide
  simp only [logHex, hfirst, Option.bind_eq_bind, Option.bind_some, hmin, hpad, hdigits, serialWrite]
  rw [hexadecimal, hplaces, List.map_append, List.map_replicate]
  simp [digitChar]

/-- For every number, `fb_put_ui` and `log_ui` write its decimal representation, and `fb_put_ui_hex` and
`log_hex` write `0x` and its eight hexadecimal digits. -/
theorem numbers_agree (rounds : ℕ) (s : Fb) (line : List UInt8) (i : UInt32) :
  fbPutUi (rounds + 11) s i = some ((decimal i).foldl fbPutB s) ∧
    logUi (rounds + 11) line i = some (line ++ decimal i) ∧
    fbPutUiHex s i = (hexadecimal i).foldl fbPutB s ∧
    logHex (rounds + 11) line i = some (line ++ hexadecimal i)
  := by
  refine ⟨putUi_eq fbPutB rounds s i, ?_, fbPutUiHex_eq s i, logHex_eq rounds line i⟩
  rw [logUi, putUi_eq, foldl_serialWrite]

end Console
