import Aenix.Mem
import Mathlib.Data.UInt

/-!
# Entries of page directories and page tables

`struct pde` and `struct pte` of `paging.c` have the same layout: a byte of flags and the
upper 20 bits of a physical address, of which the lowest 4 are in the upper half of the
middle byte.  One type stands for both.

A virtual address selects an entry of a page directory by its upper 10 bits, and an entry of
a page table by the 10 bits after them.
-/

open Aenix

namespace Paging

/-- `struct pde` and `struct pte`. -/
structure Entry where
  config : UInt8
  middle : UInt8
  highAddr : UInt16
  deriving DecidableEq, Repr

/-- The entry with all bytes 0. -/
def Entry.zero : Entry := ⟨0, 0, 0⟩

/-- `PAGING_READ_WRITE`. -/
abbrev pagingReadWrite : UInt8 := 1

/-- `PAGING_PL0`. -/
abbrev pagingPl0 : UInt8 := 0

/-- `PAGING_PL3`. -/
abbrev pagingPl3 : UInt8 := 1

/-- `PS_4KB`. -/
abbrev ps4Kb : UInt8 := 0

/-- `VIRTUAL_TO_PDT_IDX`. -/
def virtualToPdtIdx (a : UInt32) : ℕ := ((a >>> 22) &&& 0x3FF).toNat

/-- `VIRTUAL_TO_PT_IDX`. -/
def virtualToPtIdx (a : UInt32) : ℕ := ((a >>> 12) &&& 0x3FF).toNat

/-- `PDT_IDX_TO_VIRTUAL`. -/
def pdtIdxToVirtual (i : ℕ) : UInt32 := UInt32.ofNat i <<< 22

/-- `PT_IDX_TO_VIRTUAL`. -/
def ptIdxToVirtual (i : ℕ) : UInt32 := UInt32.ofNat i <<< 12

/-- `KERNEL_PDT_IDX`, which is also `KERNEL_PT_PDT_IDX`. -/
abbrev kernelPdtIdx : ℕ := 768

/-- `KERNEL_TMP_PT_IDX`. -/
abbrev kernelTmpPtIdx : ℕ := 1023

/-- `IS_ENTRY_PRESENT`.  The macro joins `config` and `0x01` by `&&`, not by `&`. -/
def Entry.isEntryPresent (e : Entry) : Bool := e.config != 0 && (0x01 : UInt8) != 0

/-- `IS_ENTRY_PAGE_TABLE`.  The macro joins `config` and `0x80` by `&&`, not by `&`. -/
def Entry.isEntryPageTable (e : Entry) : Bool := (e.config != 0 && (0x80 : UInt8) != 0) == false

/-- `get_pt_paddr` and `get_pf_paddr`, for the entry they read. -/
def Entry.paddr (e : Entry) : UInt32 :=
  (e.highAddr.toUInt32 <<< 16) ||| ((e.middle &&& 0xF0).toUInt32 <<< 8)

/-- The entry for a physical address with the given flags. -/
def entryFor (config : UInt8) (addr : UInt32) : Entry where
  config := config
  middle := ((addr >>> 12) &&& 0xF).toUInt8 <<< 4
  highAddr := ((addr >>> 16) &&& 0xFFFF).toUInt16

/-- The entry that `create_pdt_entry` writes. -/
def createPdtEntry (addr : UInt32) (ps rw pl : UInt8) : Entry :=
  entryFor (((ps &&& 0x01) <<< 7) ||| ((0x01 : UInt8) <<< 3) ||| ((pl &&& 0x01) <<< 2) |||
    ((rw &&& 0x01) <<< 1) ||| 0x01) addr

/-- The entry that `create_pt_entry` writes. -/
def createPtEntry (addr : UInt32) (rw pl : UInt8) : Entry :=
  entryFor (((0x01 : UInt8) <<< 3) ||| ((0x01 &&& pl) <<< 2) ||| ((0x01 &&& rw) <<< 1) ||| 0x01) addr

/-- The flag U/S of an entry, which the processor checks. -/
def Entry.user (e : Entry) : Bool := e.config &&& 4 != 0

/-- The flag R/W of an entry, which the processor checks. -/
def Entry.writable (e : Entry) : Bool := e.config &&& 2 != 0

/-! ### Addresses in entries -/

theorem paddr_entryFor (config : UInt8) (addr : UInt32) :
  (entryFor config addr).paddr = addr &&& 0xFFFFF000
  := by
  apply UInt32.toNat_inj.mp
  apply Nat.eq_of_testBit_eq
  intro i
  rcases Nat.lt_or_ge i 32 with hi | hi
  · simp only [Entry.paddr, entryFor, UInt32.toNat_or, UInt32.toNat_shiftLeft,
      UInt16.toNat_toUInt32, UInt32.toNat_toUInt16, UInt8.toNat_toUInt32, UInt8.toNat_and,
      UInt8.toNat_shiftLeft, UInt32.toNat_toUInt8, UInt32.toNat_and, UInt32.toNat_shiftRight,
      Nat.testBit_or, Nat.testBit_and, Nat.testBit_mod_two_pow, Nat.testBit_shiftLeft,
      Nat.testBit_shiftRight, UInt32.reduceToNat, UInt8.reduceToNat, Nat.reduceMod]
    interval_cases i <;> simp [Nat.testBit]
  · have hlt : ∀ w : UInt32, w.toNat.testBit i = false := fun w =>
      Nat.testBit_lt_two_pow (w.toNat_lt.trans_le (Nat.pow_le_pow_right (by decide) hi))
    rw [hlt, hlt]

theorem toNat_and_mask (a : UInt32) :
  (a &&& 0xFFFFF000).toNat = a.toNat / 4096 * 4096
  := by
  apply Nat.eq_of_testBit_eq
  intro i
  have hpow : a.toNat / 4096 * 4096 = (a.toNat >>> 12) <<< 12 := by
    rw [Nat.shiftRight_eq_div_pow, Nat.shiftLeft_eq]
  rw [hpow, UInt32.toNat_and, Nat.testBit_and, Nat.testBit_shiftLeft, Nat.testBit_shiftRight]
  rcases Nat.lt_or_ge i 32 with hi | hi
  · interval_cases i <;> simp [Nat.testBit]
  · have hlt : a.toNat.testBit i = false :=
      Nat.testBit_lt_two_pow (a.toNat_lt.trans_le (Nat.pow_le_pow_right (by decide) hi))
    rw [show 12 + (i - 12) = i by omega, hlt]
    simp

/-- The address in an entry is that of a frame. -/
theorem Entry.dvd_paddr (e : Entry) :
  4096 ∣ e.paddr.toNat
  := by
  have hmask : (e.paddr &&& 0xFFFFF000).toNat = e.paddr.toNat := by
    apply Nat.eq_of_testBit_eq
    intro i
    rcases Nat.lt_or_ge i 32 with hi | hi
    · simp only [Entry.paddr, UInt32.toNat_or, UInt32.toNat_shiftLeft, UInt16.toNat_toUInt32,
        UInt8.toNat_toUInt32, UInt8.toNat_and, UInt32.toNat_and, Nat.testBit_or, Nat.testBit_and,
        Nat.testBit_mod_two_pow, Nat.testBit_shiftLeft, UInt32.reduceToNat, UInt8.reduceToNat,
        Nat.reduceMod]
      interval_cases i <;> simp [Nat.testBit]
    · have hlt : ∀ w : UInt32, w.toNat.testBit i = false := fun w =>
        Nat.testBit_lt_two_pow (w.toNat_lt.trans_le (Nat.pow_le_pow_right (by decide) hi))
      rw [hlt, hlt]
  rw [toNat_and_mask] at hmask
  omega

/-- Entries hold the addresses of frames as they are. -/
theorem paddr_entryFor_of_dvd (config : UInt8) {addr : UInt32} (h : 4096 ∣ addr.toNat) :
  (entryFor config addr).paddr = addr
  := by
  rw [paddr_entryFor, ← UInt32.toNat_inj, toNat_and_mask]
  omega

@[simp]
theorem paddr_createPdtEntry {addr : UInt32} (h : 4096 ∣ addr.toNat) (ps rw pl : UInt8) :
  (createPdtEntry addr ps rw pl).paddr = addr
  := paddr_entryFor_of_dvd _ h

@[simp]
theorem paddr_createPtEntry {addr : UInt32} (h : 4096 ∣ addr.toNat) (rw pl : UInt8) :
  (createPtEntry addr rw pl).paddr = addr
  := paddr_entryFor_of_dvd _ h

/-! ### Flags -/

@[simp]
theorem isEntryPresent_zero :
  Entry.zero.isEntryPresent = false
  := rfl

@[simp]
theorem isEntryPresent_createPdtEntry (addr : UInt32) (ps rw pl : UInt8) :
  (createPdtEntry addr ps rw pl).isEntryPresent = true
  := by
  simp [createPdtEntry, entryFor, Entry.isEntryPresent]

@[simp]
theorem isEntryPresent_createPtEntry (addr : UInt32) (rw pl : UInt8) :
  (createPtEntry addr rw pl).isEntryPresent = true
  := by
  simp [createPtEntry, entryFor, Entry.isEntryPresent]

/-- No present entry passes the test for a page table. -/
theorem isEntryPageTable_eq_not (e : Entry) :
  e.isEntryPageTable = !e.isEntryPresent
  := by
  simp [Entry.isEntryPageTable, Entry.isEntryPresent, bne]

theorem and_one_eq (x : UInt8) :
  x &&& 1 = 0 ∨ x &&& 1 = 1
  := by
  have hmod : (x &&& 1).toNat = x.toNat % 2 := by
    rw [UInt8.toNat_and]
    exact Nat.and_two_pow_sub_one_eq_mod x.toNat 1
  rcases Nat.mod_two_eq_zero_or_one x.toNat with h | h
  · exact Or.inl (UInt8.toNat_inj.mp (hmod.trans h))
  · exact Or.inr (UInt8.toNat_inj.mp (hmod.trans h))

/-- The flags for access are the lowest bits of `pl` and `rw`. -/
theorem access_createPtEntry (addr : UInt32) (rw pl : UInt8) :
  (createPtEntry addr rw pl).user = (pl &&& 1 != 0) ∧
    (createPtEntry addr rw pl).writable = (rw &&& 1 != 0)
  := by
  simp only [createPtEntry, entryFor, Entry.user, Entry.writable, UInt8.and_comm 1]
  rcases and_one_eq pl with hpl | hpl <;> rcases and_one_eq rw with hrw | hrw <;>
    rw [hpl, hrw] <;> decide

theorem access_createPdtEntry (addr : UInt32) (rw pl : UInt8) :
  (createPdtEntry addr ps4Kb rw pl).user = (pl &&& 1 != 0) ∧
    (createPdtEntry addr ps4Kb rw pl).writable = (rw &&& 1 != 0)
  := by
  simp only [createPdtEntry, entryFor, Entry.user, Entry.writable]
  rcases and_one_eq pl with hpl | hpl <;> rcases and_one_eq rw with hrw | hrw <;>
    rw [hpl, hrw] <;> decide

@[simp]
theorem user_createPdtEntry_pl0 (addr : UInt32) :
  (createPdtEntry addr ps4Kb pagingReadWrite pagingPl0).user = false
  := (access_createPdtEntry addr pagingReadWrite pagingPl0).1

/-! ### Indices -/

theorem virtualToPdtIdx_eq (a : UInt32) :
  virtualToPdtIdx a = a.toNat / 4096 / 1024
  := by
  have hlt := a.toNat_lt
  rw [virtualToPdtIdx, UInt32.toNat_and, UInt32.toNat_shiftRight,
    show (1023 : UInt32).toNat = 2 ^ 10 - 1 from rfl, Nat.and_two_pow_sub_one_eq_mod,
    show (22 : UInt32).toNat % 32 = 22 from rfl, Nat.shiftRight_eq_div_pow]
  omega

theorem virtualToPtIdx_eq (a : UInt32) :
  virtualToPtIdx a = a.toNat / 4096 % 1024
  := by
  rw [virtualToPtIdx, UInt32.toNat_and, UInt32.toNat_shiftRight,
    show (1023 : UInt32).toNat = 2 ^ 10 - 1 from rfl, Nat.and_two_pow_sub_one_eq_mod,
    show (12 : UInt32).toNat % 32 = 12 from rfl, Nat.shiftRight_eq_div_pow]

theorem virtualToPdtIdx_lt (a : UInt32) :
  virtualToPdtIdx a < 1024
  := by
  have hlt := a.toNat_lt
  rw [virtualToPdtIdx_eq]
  omega

theorem virtualToPtIdx_lt (a : UInt32) :
  virtualToPtIdx a < 1024
  := by
  rw [virtualToPtIdx_eq]
  omega

theorem toNat_pdtIdxToVirtual {i : ℕ} (h : i < 1024) :
  (pdtIdxToVirtual i).toNat = 4096 * (1024 * i)
  := by
  rw [pdtIdxToVirtual, UInt32.toNat_shiftLeft, UInt32.toNat_ofNat', Nat.shiftLeft_eq,
    show (22 : UInt32).toNat % 32 = 22 from rfl]
  omega

/-- The address of the page with entry `j` in the table with entry `i`. -/
theorem toNat_pdtIdxToVirtual_or {i j : ℕ} (hi : i < 1024) (hj : j < 1024) :
  (pdtIdxToVirtual i ||| ptIdxToVirtual j).toNat = 4096 * (1024 * i + j)
  := by
  have hpt : (ptIdxToVirtual j).toNat = j * 2 ^ 12 := by
    rw [ptIdxToVirtual, UInt32.toNat_shiftLeft, UInt32.toNat_ofNat', Nat.shiftLeft_eq,
      show (12 : UInt32).toNat % 32 = 12 from rfl]
    omega
  rw [UInt32.toNat_or, toNat_pdtIdxToVirtual hi, hpt,
    show 4096 * (1024 * i) = i <<< 22 by rw [Nat.shiftLeft_eq]; omega,
    ← Nat.shiftLeft_add_eq_or_of_lt (by omega), Nat.shiftLeft_eq]
  omega

end Paging
