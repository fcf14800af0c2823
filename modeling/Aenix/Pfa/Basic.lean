import Aenix.Lib.Frames
import Aenix.Mem

/-!
# The page frame allocator

`page_frame_allocator.c` keeps the page frames of the memory regions `mmap` in a bitmap: the
frames of all regions are numbered through, and the bit of a frame is set when it is free.
The bits of a cell are numbered from its highest one.

The bitmap is read in two steps, first as bits (`bit`) and then as the frames they stand
for (`frames`).
-/

open Aenix

namespace Pfa

/-- `struct memory_map`. -/
structure MemoryMap where
  addr : UInt32
  len : UInt32
  deriving DecidableEq, Repr

/-- The static state of the allocator: the cells `page_frames.start`, the number of bits
`page_frames.len`, and `mmap[0..mmap_len)`. -/
structure State where
  start : ℕ → UInt32
  len : UInt32
  mmap : List MemoryMap

/-- `toggle_bit`. -/
def toggleBit (s : State) (bitIdx : UInt32) : State :=
  { s with
    start := Function.update s.start (bitIdx / 32).toNat
      (s.start (bitIdx / 32).toNat ^^^ (1 <<< (31 - bitIdx % 32))) }

/-- The loop of `toggle_bits`, from `i` to `stop`. -/
def toggleBitsFrom (stop : UInt32) : ℕ → State → UInt32 → State
  | 0, s, _ => s
  | n + 1, s, i => if i < stop then toggleBitsFrom stop n (toggleBit s i) (i + 1) else s

/-- `toggle_bits`. -/
def toggleBits (s : State) (bitIdx numBits : UInt32) : State :=
  toggleBitsFrom (bitIdx + numBits) numBits.toNat s bitIdx

/-- The search for the region of a byte offset that `paddr_for_idx` and
`fits_in_one_mmap_entry` share: the region, and the offset in it. -/
def findEntry (offset : UInt32) : List MemoryMap → UInt32 → Option (MemoryMap × UInt32)
  | [], _ => none
  | r :: rs, currentOffset =>
    if currentOffset + r.len ≤ offset then
      findEntry offset rs (currentOffset + r.len)
    else
      some (r, offset - currentOffset)

/-- `paddr_for_idx`. -/
def paddrForIdx (s : State) (bitIdx : UInt32) : UInt32 :=
  match findEntry (bitIdx * fourKb) s.mmap 0 with
  | some (r, offset) => r.addr + offset
  | none => 0

/-- The loop of `idx_for_paddr`. -/
def idxForPaddrFrom (len paddr : UInt32) : List MemoryMap → UInt32 → UInt32
  | [], _ => len
  | r :: rs, byteOffset =>
    if paddr < r.addr + r.len then
      (byteOffset + (paddr - r.addr)) / fourKb
    else
      idxForPaddrFrom len paddr rs (byteOffset + r.len)

/-- `idx_for_paddr`. -/
def idxForPaddr (s : State) (paddr : UInt32) : UInt32 :=
  idxForPaddrFrom s.len paddr s.mmap 0

/-- `fits_in_one_mmap_entry`. -/
def fitsInOneMmapEntry (s : State) (bitIdx pfs : UInt32) : Bool :=
  match findEntry (bitIdx * fourKb) s.mmap 0 with
  | some (r, offset) => offset + pfs * fourKb ≤ r.len
  | none => false

/-- The variables `frames_found` and `bit_idx` of `pfa_allocate`. -/
structure Search where
  framesFound : UInt32
  bitIdx : UInt32

/-- The body of the inner loop of `pfa_allocate`, for bit `j` of the cell with index `i`: the
search continues, or a run of frames is found. -/
def searchBit (s : State) (num cell i j : UInt32) (q : Search) : Search ⊕ UInt32 :=
  if (cell >>> (31 - j)) &&& 1 = 1 then
    let bitIdx := if q.framesFound = 0 then i * 32 + j else q.bitIdx
    let framesFound := q.framesFound + 1
    if framesFound = num then
      if fitsInOneMmapEntry s bitIdx num then .inr bitIdx else .inl ⟨0, bitIdx⟩
    else
      .inl ⟨framesFound, bitIdx⟩
  else
    .inl ⟨0, q.bitIdx⟩

/-- The inner loop of `pfa_allocate` over the last `n` bits of a cell. -/
def searchBits (s : State) (num cell i : UInt32) : ℕ → Search → Search ⊕ UInt32
  | 0, q => .inl q
  | n + 1, q =>
    match searchBit s num cell i (31 - UInt32.ofNat n) q with
    | .inl q => searchBits s num cell i n q
    | .inr bitIdx => .inr bitIdx

/-- The outer loop of `pfa_allocate` from cell `i` over `n` cells. -/
def searchCells (s : State) (num : UInt32) : ℕ → UInt32 → Search → Search ⊕ UInt32
  | 0, _, q => .inl q
  | n + 1, i, q =>
    let cell := s.start i.toNat
    if cell = 0 then
      searchCells s num n (i + 1) ⟨0, q.bitIdx⟩
    else
      match searchBits s num cell i 32 q with
      | .inl q => searchCells s num n (i + 1) q
      | .inr bitIdx => .inr bitIdx

/-- `pfa_allocate`. -/
def pfaAllocate (s : State) (num : UInt32) : UInt32 × State :=
  match searchCells s num (divCeil s.len 32).toNat 0 ⟨0, 0⟩ with
  | .inr bitIdx => (paddrForIdx s bitIdx, toggleBits s bitIdx num)
  | .inl _ => (0, s)

/-- `pfa_free`. -/
def pfaFree (s : State) (paddr : UInt32) : State :=
  let bitIdx := idxForPaddr s paddr
  if bitIdx = s.len then s else toggleBit s bitIdx

/-- `pfa_free_cont`. -/
def pfaFreeCont (s : State) (paddr n : UInt32) : State :=
  (List.range n.toNat).foldl (fun s i => pfaFree s (paddr + UInt32.ofNat i * fourKb)) s

/-! ### Bits -/

/-- Bit `i` of the bitmap. -/
def bit (s : State) (i : ℕ) : Bool :=
  (s.start (i / 32)).toNat.testBit (31 - i % 32)

/-- Two bitmaps with the same bits have the same cells. -/
theorem start_eq_of_bit_eq {s s' : State} (h : ∀ i, bit s i = bit s' i) :
  s.start = s'.start
  := by
  funext c
  apply UInt32.toNat_inj.mp
  apply Nat.eq_of_testBit_eq
  intro k
  by_cases hk : k < 32
  · have hbit := h (32 * c + (31 - k))
    have hdiv : (32 * c + (31 - k)) / 32 = c := by omega
    have hmod : 31 - (32 * c + (31 - k)) % 32 = k := by omega
    rwa [bit, bit, hdiv, hmod] at hbit
  · have hlt : ∀ w : UInt32, w.toNat < 2 ^ k := fun w =>
      w.toNat_lt.trans_le (Nat.pow_le_pow_right (by decide) (by omega))
    rw [Nat.testBit_lt_two_pow (hlt _), Nat.testBit_lt_two_pow (hlt _)]

theorem toNat_one_shiftLeft (i : UInt32) :
  ((1 : UInt32) <<< (31 - i % 32)).toNat = 2 ^ (31 - i.toNat % 32)
  := by
  have hsub : (31 - i % 32).toNat = 31 - i.toNat % 32 := by
    rw [UInt32.toNat_sub, UInt32.toNat_mod]
    simp
    omega
  rw [UInt32.toNat_shiftLeft, hsub, UInt32.toNat_one, Nat.one_shiftLeft,
    Nat.mod_eq_of_lt (by omega : 31 - i.toNat % 32 < 32)]
  apply Nat.mod_eq_of_lt
  apply Nat.pow_lt_pow_right (by decide)
  omega

/-- `toggle_bit` changes the bit with the given index and no other. -/
theorem bit_toggleBit (s : State) (b : UInt32) (i : ℕ) :
  bit (toggleBit s b) i = (bit s i ^^ decide (i = b.toNat))
  := by
  have hcell : (b / 32).toNat = b.toNat / 32 := by simp
  by_cases hi : i / 32 = b.toNat / 32
  · simp only [bit, toggleBit, hcell, hi, Function.update_self, UInt32.toNat_xor,
      Nat.testBit_xor, toNat_one_shiftLeft, Nat.testBit_two_pow]
    congr 1
    apply decide_eq_decide.mpr
    omega
  · have hne : i ≠ b.toNat := fun heq => hi (by rw [heq])
    simp [bit, toggleBit, Function.update_of_ne, hi, hne]

@[simp]
theorem toggleBit_mmap (s : State) (b : UInt32) :
  (toggleBit s b).mmap = s.mmap
  := rfl

@[simp]
theorem toggleBit_len (s : State) (b : UInt32) :
  (toggleBit s b).len = s.len
  := rfl

end Pfa
