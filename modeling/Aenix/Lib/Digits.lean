import Mathlib.Data.Nat.Digits.Defs
import Mathlib.Tactic

/-!
# Digits

The digits of a number, the most significant first: a given number of places (`Digits.places`), as they
are written from a power of the base on, and the numeral, which has no leading zeros
(`Digits.numeral`).
-/

namespace Digits

/-- The last `k` digits. -/
def places (b : ℕ) : ℕ → ℕ → List ℕ
  | 0, _ => []
  | k + 1, n => n / b ^ k % b :: places b k n

/-- The digits without leading zeros, and a single zero for zero. -/
def numeral (b n : ℕ) : List ℕ :=
  if n = 0 then [0] else (Nat.digits b n).reverse

variable {b k n : ℕ}

/-- The digits further to the left do not matter. -/
theorem places_mod {m : ℕ} (h : k ≤ m) :
  places b k (n % b ^ m) = places b k n
  := by
  induction k with
  | zero => rfl
  | succ k ih =>
      have hpow : b ^ m = b ^ k * (b * b ^ (m - (k + 1))) := by
        rw [← pow_succ', ← pow_add]
        congr 1
        omega
      rw [places, places, ih (by omega)]
      congr 1
      rw [hpow, Nat.mod_mul_right_div_self, Nat.mod_mul_right_mod]

theorem places_concat (b k n : ℕ) :
  places b (k + 1) n = places b k (n / b) ++ [n % b]
  := by
  induction k with
  | zero => simp [places]
  | succ k ih =>
      rw [places, ih, places, List.cons_append, pow_succ', Nat.div_div_eq_div_mul]

/-- Of a small number, the first places are zeros. -/
theorem places_of_lt (hb : 0 < b) (m : ℕ) (h : n < b ^ k) :
  places b (m + k) n = List.replicate m 0 ++ places b k n
  := by
  induction m with
  | zero => simp
  | succ m ih =>
      have hlt : n < b ^ (m + k) := h.trans_le (Nat.pow_le_pow_right hb (Nat.le_add_left k m))
      rw [Nat.succ_add, places, Nat.div_eq_of_lt hlt, Nat.zero_mod, ih, List.replicate_succ, List.cons_append]

/-- As many places as there are digits. -/
theorem places_eq_numeral (hb : 1 < b) (hlt : n < b ^ (k + 1)) (hle : b ^ k ≤ n ∨ k = 0) :
  places b (k + 1) n = numeral b n
  := by
  induction k generalizing n with
  | zero =>
      rw [pow_one] at hlt
      rw [places_concat, places, numeral, Nat.mod_eq_of_lt hlt]
      split
      case isTrue hzero => rw [hzero]; rfl
      case isFalse hpos => rw [Nat.digits_of_lt b n hpos hlt]; rfl
  | succ k ih =>
      have hge : b ^ (k + 1) ≤ n := by tauto
      have hquot : b ^ k ≤ n / b := by
        rw [Nat.le_div_iff_mul_le (by omega), ← pow_succ]
        exact hge
      have hquot_ne : n / b ≠ 0 := by
        have hpow : 0 < b ^ k := Nat.pow_pos (by omega)
        omega
      have hne : n ≠ 0 := by
        rintro rfl
        simp at hquot_ne
      have hquot_lt : n / b < b ^ (k + 1) := by
        rw [Nat.div_lt_iff_lt_mul (by omega), ← pow_succ]
        exact hlt
      rw [places_concat, ih hquot_lt (Or.inl hquot), numeral, numeral, if_neg hquot_ne, if_neg hne,
        Nat.digits_def' hb (Nat.pos_of_ne_zero hne), List.reverse_cons]

end Digits
