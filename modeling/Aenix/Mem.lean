import Mathlib.Tactic

/-!
# Constants and word arithmetic

The constants of `constants.h`, and the functions of `mem.c` and `math.c`, on 32-bit words.
-/

namespace Aenix

/-- `FOUR_KB`, the size of a page. -/
abbrev fourKb : UInt32 := 0x1000

/-- `ONE_MB`. -/
abbrev oneMb : UInt32 := 0x100000

/-- `FOUR_MB`, the memory one page table covers. -/
abbrev fourMb : UInt32 := 0x400000

/-- `KERNEL_START_VADDR`. -/
abbrev kernelStartVaddr : UInt32 := 0xC0000000

@[simp]
theorem toNat_fourKb :
  fourKb.toNat = 4096
  := rfl

@[simp]
theorem toNat_oneMb :
  oneMb.toNat = 0x100000
  := rfl

@[simp]
theorem toNat_fourMb :
  fourMb.toNat = 0x400000
  := rfl

/-- `align_up`. -/
def alignUp (n a : UInt32) : UInt32 :=
  let m := n % a
  if m = 0 then n else n + (a - m)

/-- `align_down`. -/
def alignDown (n a : UInt32) : UInt32 :=
  n - n % a

/-- `div_ceil`. -/
def divCeil (num den : UInt32) : UInt32 :=
  (num - 1) / den + 1

/-- `minu`. -/
def minu (a b : UInt32) : UInt32 :=
  if a < b then a else b

/-- `maxu`. -/
def maxu (a b : UInt32) : UInt32 :=
  if a > b then a else b

/-- `align_up` rounds up to a multiple, on 32-bit words. -/
theorem toNat_alignUp_eq (n : UInt32) {a : UInt32} (ha : 0 < a.toNat) :
  (alignUp n a).toNat = (n.toNat + (a.toNat - 1)) / a.toNat * a.toNat % 2 ^ 32
  := by
  have hlt := n.toNat_lt
  have hmod : (n % a).toNat = n.toNat % a.toNat := UInt32.toNat_mod n a
  have hdiv := Nat.div_add_mod n.toNat a.toNat
  have hrem := Nat.mod_lt n.toNat ha
  rw [alignUp]
  split
  case isTrue hzero =>
    rw [hzero, UInt32.toNat_zero] at hmod
    have hquot : (n.toNat + (a.toNat - 1)) / a.toNat = n.toNat / a.toNat := by
      apply Nat.div_eq_of_lt_le
      · rw [Nat.mul_comm]
        omega
      · rw [Nat.succ_mul, Nat.mul_comm]
        omega
    rw [hquot, Nat.mul_comm]
    omega
  case isFalse hne =>
    have hpos : n.toNat % a.toNat ≠ 0 := by
      rw [← hmod]
      exact fun heq => hne (UInt32.toNat_inj.mp heq)
    have hsub : (a - n % a).toNat = a.toNat - n.toNat % a.toNat := by
      rw [UInt32.toNat_sub_of_le, hmod]
      rw [UInt32.le_iff_toNat_le, hmod]
      omega
    have hquot : (n.toNat + (a.toNat - 1)) / a.toNat = n.toNat / a.toNat + 1 := by
      apply Nat.div_eq_of_lt_le
      · rw [Nat.succ_mul, Nat.mul_comm]
        omega
      · rw [Nat.succ_mul, Nat.succ_mul, Nat.mul_comm]
        omega
    rw [UInt32.toNat_add, hsub, hquot, Nat.succ_mul, Nat.mul_comm (n.toNat / a.toNat)]
    congr 1
    omega

/-- For a positive number below the limit, `div_ceil` rounds the quotient up. -/
theorem toNat_divCeil {num den : UInt32} (h : 0 < num.toNat) :
  (divCeil num den).toNat = (num.toNat - 1) / den.toNat + 1
  := by
  have hlt := num.toNat_lt
  have hnum : (num - 1).toNat = num.toNat - 1 := by
    rw [UInt32.toNat_sub, UInt32.toNat_one]
    omega
  have hdiv : (num.toNat - 1) / den.toNat ≤ num.toNat - 1 := Nat.div_le_self _ _
  rw [divCeil, UInt32.toNat_add, UInt32.toNat_div, hnum, UInt32.toNat_one]
  apply Nat.mod_eq_of_lt
  omega

end Aenix
