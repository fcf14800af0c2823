import Mathlib.Data.List.GetD
import Mathlib.Data.Nat.Bitwise
import Mathlib.Data.Set.Function
import Mathlib.Tactic

/-!
# Byte memory

A memory is a function from addresses to bytes.  Lists of bytes, bytes and little-endian words are
stored in it and loaded from it, and what an operation leaves alone is said with `Set.EqOn`.  Strings
end at the first zero byte.
-/

namespace Bytes

/-- A memory of bytes. -/
abbrev Memory := ℕ → UInt8

/-! ### Lists of bytes -/

/-- The bytes `bs` are stored from the address `a` on. -/
def store (m : Memory) (a : ℕ) (bs : List UInt8) : Memory :=
  fun x => if a ≤ x then bs.getD (x - a) (m x) else m x

/-- The `n` bytes from the address `a` on. -/
def load (m : Memory) (a n : ℕ) : List UInt8 :=
  (List.range n).map fun i => m (a + i)

theorem store_of_lt {m : Memory} {a x : ℕ} {bs : List UInt8} (h : x < a) :
  store m a bs x = m x
  := by
  rw [store, if_neg (by omega)]

theorem store_of_ge {m : Memory} {a x : ℕ} {bs : List UInt8} (h : a + bs.length ≤ x) :
  store m a bs x = m x
  := by
  rw [store, if_pos (by omega), List.getD_eq_default _ _ (by omega)]

@[simp]
theorem store_add {m : Memory} {a i : ℕ} {bs : List UInt8} (h : i < bs.length) :
  store m a bs (a + i) = bs[i]
  := by
  rw [store, if_pos (by omega), Nat.add_sub_cancel_left, List.getD_eq_getElem _ _ h]

/-- A store changes nothing but the bytes it stores. -/
theorem store_eqOn (m : Memory) (a : ℕ) (bs : List UInt8) :
  Set.EqOn (store m a bs) m (Set.Ico a (a + bs.length))ᶜ
  := by
  intro x hx
  rw [Set.mem_compl_iff, Set.mem_Ico, not_and_or, not_le, not_lt] at hx
  rcases hx with hx | hx
  · apply store_of_lt hx
  · apply store_of_ge hx

theorem store_zeros (m : Memory) {a n x : ℕ} (h : x ∈ Set.Ico a (a + n)) :
  store m a (List.replicate n 0) x = 0
  := by
  rw [Set.mem_Ico] at h
  obtain ⟨i, rfl⟩ := Nat.exists_eq_add_of_le h.1
  rw [store_add (by rw [List.length_replicate]; omega), List.getElem_replicate]

@[simp]
theorem store_nil (m : Memory) (a : ℕ) :
  store m a [] = m
  := by
  funext x
  simp [store]

/-- Two stores in a row are one. -/
theorem store_append (m : Memory) (a : ℕ) (bs cs : List UInt8) :
  store (store m a bs) (a + bs.length) cs = store m a (bs ++ cs)
  := by
  funext x
  rcases lt_or_ge x (a + bs.length) with hx | hx
  · rw [store_of_lt hx]
    rcases lt_or_ge x a with hx' | hx'
    · rw [store_of_lt hx', store_of_lt hx']
    · obtain ⟨i, rfl⟩ := Nat.exists_eq_add_of_le hx'
      rw [store_add (by omega), store_add (by simp; omega), List.getElem_append_left]
  · obtain ⟨i, rfl⟩ := Nat.exists_eq_add_of_le hx
    rcases lt_or_ge i cs.length with hi | hi
    · rw [store_add hi, add_assoc, store_add (by simp; omega), List.getElem_append_right (by omega)]
      simp
    · rw [store_of_ge (by omega), store_of_ge hx, store_of_ge (by simp; omega)]

@[simp]
theorem length_load (m : Memory) (a n : ℕ) :
  (load m a n).length = n
  := by
  simp [load]

theorem load_congr {m m' : Memory} {a n : ℕ} (h : Set.EqOn m m' (Set.Ico a (a + n))) :
  load m a n = load m' a n
  := by
  apply List.map_congr_left
  intro i hi
  rw [List.mem_range] at hi
  apply h
  constructor <;> omega

theorem load_store (m : Memory) (a : ℕ) (bs : List UInt8) :
  load (store m a bs) a bs.length = bs
  := by
  apply List.ext_getElem
  · simp
  · intro i _ hi
    simp [load, hi]

/-- What is loaded from two adjacent pieces of memory. -/
theorem load_add (m : Memory) (a n k : ℕ) :
  load m a (n + k) = load m a n ++ load m (a + n) k
  := by
  simp [load, List.range_add, add_assoc]

/-- A part of what is loaded. -/
theorem load_slice {m : Memory} {a n : ℕ} {bs : List UInt8} (h : load m a n = bs) {i k : ℕ}
    (hik : i + k ≤ n) :
  load m (a + i) k = (bs.drop i).take k
  := by
  obtain ⟨j, rfl⟩ := Nat.exists_eq_add_of_le hik
  rw [← h, add_assoc, load_add, List.drop_left' (length_load m a i), load_add,
    List.take_left' (length_load m (a + i) k)]

/-! ### Words -/

/-- The little-endian word of 16 bits at an address. -/
def load16 (m : Memory) (a : ℕ) : UInt16 :=
  (m a).toUInt16 ||| (m (a + 1)).toUInt16 <<< 8

/-- The bytes of a word of 16 bits. -/
def bytes16 (v : UInt16) : List UInt8 := [v.toUInt8, (v >>> 8).toUInt8]

/-- A little-endian word of 16 bits is stored at an address. -/
def store16 (m : Memory) (a : ℕ) (v : UInt16) : Memory := store m a (bytes16 v)

/-- The little-endian word of 32 bits at an address. -/
def load32 (m : Memory) (a : ℕ) : UInt32 :=
  (load16 m a).toUInt32 ||| (load16 m (a + 2)).toUInt32 <<< 16

/-- A little-endian word of 32 bits is stored at an address. -/
def store32 (m : Memory) (a : ℕ) (v : UInt32) : Memory :=
  store m a (bytes16 v.toUInt16 ++ bytes16 (v >>> 16).toUInt16)

/-- A number made of a low and a high part. -/
theorem lor_shiftLeft {k low high : ℕ} (h : low < 2 ^ k) :
  low ||| high <<< k = low + 2 ^ k * high
  := by
  rw [Nat.lor_comm, ← Nat.shiftLeft_add_eq_or_of_lt h, Nat.shiftLeft_eq]
  ring

theorem load16_bytes16 {m : Memory} {a : ℕ} {v : UInt16} (h : load m a 2 = bytes16 v) :
  load16 m a = v
  := by
  obtain ⟨hlow, hhigh⟩ : m a = v.toUInt8 ∧ m (a + 1) = (v >>> 8).toUInt8 := by
    simpa [load, bytes16, List.range_succ] using h
  apply UInt16.toNat_inj.mp
  have hv := v.toNat_lt
  rw [load16, hlow, hhigh, UInt16.toNat_or, UInt16.toNat_shiftLeft, UInt8.toNat_toUInt16,
    UInt8.toNat_toUInt16, UInt16.toNat_toUInt8, UInt16.toNat_toUInt8, UInt16.toNat_shiftRight,
    UInt16.toNat_ofNat, Nat.shiftRight_eq_div_pow]
  rw [show 8 % 2 ^ 16 % 16 = 8 by rfl, Nat.mod_eq_of_lt (b := 2 ^ 16), lor_shiftLeft (by omega)]
  · omega
  · rw [Nat.shiftLeft_eq]
    omega

@[simp]
theorem load16_store16 (m : Memory) (a : ℕ) (v : UInt16) :
  load16 (store16 m a v) a = v
  := load16_bytes16 (load_store m a (bytes16 v))

@[simp]
theorem load32_store32 (m : Memory) (a : ℕ) (v : UInt32) :
  load32 (store32 m a v) a = v
  := by
  have hload : load (store32 m a v) a (2 + 2) = bytes16 v.toUInt16 ++ bytes16 (v >>> 16).toUInt16 :=
    load_store m a _
  rw [load_add] at hload
  obtain ⟨hlow, hhigh⟩ := List.append_inj hload (by simp [bytes16])
  apply UInt32.toNat_inj.mp
  have hv := v.toNat_lt
  rw [load32, load16_bytes16 hlow, load16_bytes16 hhigh, UInt32.toNat_or, UInt32.toNat_shiftLeft,
    UInt16.toNat_toUInt32, UInt16.toNat_toUInt32, UInt32.toNat_toUInt16, UInt32.toNat_toUInt16,
    UInt32.toNat_shiftRight, UInt32.toNat_ofNat, Nat.shiftRight_eq_div_pow]
  rw [show 16 % 2 ^ 32 % 32 = 16 by rfl, Nat.mod_eq_of_lt (b := 2 ^ 32), lor_shiftLeft (by omega)]
  · omega
  · rw [Nat.shiftLeft_eq]
    omega

theorem load16_congr {m m' : Memory} {a : ℕ} (h : Set.EqOn m m' (Set.Ico a (a + 2))) :
  load16 m a = load16 m' a
  := by
  rw [load16, load16, h (x := a) (by simp), h (x := a + 1) (by simp)]

theorem load32_congr {m m' : Memory} {a : ℕ} (h : Set.EqOn m m' (Set.Ico a (a + 4))) :
  load32 m a = load32 m' a
  := by
  rw [load32, load32, load16_congr (h.mono _), load16_congr (h.mono _)]
  · apply Set.Ico_subset_Ico <;> omega
  · apply Set.Ico_subset_Ico <;> omega

/-- A store elsewhere does not change a word. -/
theorem load16_store {m : Memory} {a b : ℕ} {bs : List UInt8} (h : a + 2 ≤ b ∨ b + bs.length ≤ a) :
  load16 (store m b bs) a = load16 m a
  := by
  apply load16_congr
  apply (store_eqOn m b bs).mono
  intro x hx
  rw [Set.mem_Ico] at hx
  rw [Set.mem_compl_iff, Set.mem_Ico]
  omega

theorem load16_zero {m : Memory} {a : ℕ} (h : ∀ x ∈ Set.Ico a (a + 2), m x = 0) :
  load16 m a = 0
  := by
  rw [load16, h a (by simp), h (a + 1) (by simp)]
  rfl

/-! ### Bits -/

/-- Bit `k` of a word is bit `k % 8` of its byte `k / 8`. -/
theorem testBit_load16 (m : Memory) (a : ℕ) {k : ℕ} (hk : k < 16) :
  (load16 m a).toNat.testBit k = (m (a + k / 8)).toNat.testBit (k % 8)
  := by
  have hlow : (m a).toNat < 2 ^ 8 := (m a).toNat_lt
  have hword : (load16 m a).toNat = 2 ^ 8 * (m (a + 1)).toNat + (m a).toNat := by
    have hhigh := (m (a + 1)).toNat_lt
    rw [load16, UInt16.toNat_or, UInt16.toNat_shiftLeft, UInt8.toNat_toUInt16, UInt8.toNat_toUInt16,
      show UInt16.toNat 8 % 16 = 8 from rfl, Nat.mod_eq_of_lt, lor_shiftLeft hlow, add_comm]
    rw [Nat.shiftLeft_eq]
    omega
  rw [hword, Nat.testBit_two_pow_mul_add _ hlow]
  split
  case isTrue hlt => rw [Nat.div_eq_of_lt hlt, Nat.mod_eq_of_lt hlt, add_zero]
  case isFalse hge =>
    rw [show k / 8 = 1 by omega, show k % 8 = k - 8 by omega]

theorem testBit_load32 (m : Memory) (a : ℕ) {k : ℕ} (hk : k < 32) :
  (load32 m a).toNat.testBit k = (m (a + k / 8)).toNat.testBit (k % 8)
  := by
  have hlow : (load16 m a).toNat < 2 ^ 16 := (load16 m a).toNat_lt
  have hword : (load32 m a).toNat = 2 ^ 16 * (load16 m (a + 2)).toNat + (load16 m a).toNat := by
    have hhigh := (load16 m (a + 2)).toNat_lt
    rw [load32, UInt32.toNat_or, UInt32.toNat_shiftLeft, UInt16.toNat_toUInt32, UInt16.toNat_toUInt32,
      show UInt32.toNat 16 % 32 = 16 from rfl, Nat.mod_eq_of_lt, lor_shiftLeft hlow, add_comm]
    rw [Nat.shiftLeft_eq]
    omega
  rw [hword, Nat.testBit_two_pow_mul_add _ hlow]
  split
  case isTrue hlt => rw [testBit_load16 m a hlt]
  case isFalse hge =>
    rw [testBit_load16 m (a + 2) (by omega), show k / 8 = (k - 16) / 8 + 2 by omega,
      show k % 8 = (k - 16) % 8 by omega, add_assoc, add_comm 2]

/-! ### Strings -/

/-- The string at an address, when it is shorter than `n`. -/
def cString (m : Memory) : ℕ → ℕ → Option (List UInt8)
  | 0, _ => none
  | n + 1, a => if m a = 0 then some [] else (cString m n (a + 1)).map (m a :: ·)

theorem cString_of_load {m : Memory} {bs : List UInt8} {a n : ℕ} (hzero : 0 ∉ bs)
    (h : load m a (bs.length + 1) = bs ++ [0]) (hn : bs.length < n) :
  cString m n a = some bs
  := by
  induction bs generalizing a n with
  | nil =>
      obtain ⟨n, rfl⟩ := Nat.exists_eq_add_of_lt hn
      have h0 : m a = 0 := by simpa [load] using h
      simp [cString, h0]
  | cons b bs ih =>
      obtain ⟨n, rfl⟩ := Nat.exists_eq_add_of_lt hn
      rw [List.mem_cons, not_or] at hzero
      rw [List.length_cons, Nat.add_comm _ 1, load_add, List.cons_append] at h
      obtain ⟨hb, hbs⟩ : m a = b ∧ load m (a + 1) (bs.length + 1) = bs ++ [0] := by
        simpa [load] using h
      rw [cString, if_neg (by rw [hb]; exact Ne.symm hzero.1),
        ih hzero.2 hbs (by simp; omega), hb]
      rfl

/-- The bytes that `strncpy` of `bs` writes: at most `n`, filled up with zeros. -/
def strncpy (bs : List UInt8) (n : ℕ) : List UInt8 :=
  bs.take n ++ List.replicate (n - bs.length) 0

@[simp]
theorem length_strncpy (bs : List UInt8) (n : ℕ) :
  (strncpy bs n).length = n
  := by
  simp [strncpy]
  omega

end Bytes
