import Aenix.Lib.Bytes
import Aenix.Paging.Tables

/-!
# The construction of the bitmap

`construct_bitmap` takes the frames for the bitmap from the first region with room for them, maps them, and
marks the frames that are left as free.  It does so by bytes, with the first frames in the highest bits of the
first byte, and the last byte is set bit by bit.  The allocator reads words, with the first frames
in the highest bits, and these are the bits of the fourth byte.

The bytes before the last one are all alike.  In the last word, the order of the bytes matters, the last byte
is cleared when the number of frames is a multiple of 8, and the bytes after it are not set at all.  The
bitmap is right only when all this cancels out: `bitmap_all_free_iff`.
-/

open Bytes Aenix Paging

namespace Pfa

/-! ### The code -/

/-- `total_pfs`, the number of frames of the regions. -/
def totalPfs (mmap : List MemoryMap) : UInt32 :=
  mmap.foldl (fun total r => total + r.len / fourKb) 0

/-- The search for a region with room for the bitmap, whose beginning is cut off: its address, `none` when
there is none, and the regions. -/
def cutBitmap (bytes : UInt32) : List MemoryMap → Option UInt32 × List MemoryMap
  | [] => (none, [])
  | r :: rs =>
    if r.len ≥ bytes then
      (some r.addr, ⟨r.addr + bytes, r.len - bytes⟩ :: rs)
    else
      let (paddr, rs) := cutBitmap bytes rs
      (paddr, r :: rs)

/-- `memset`, of `n` bytes from the beginning of a memory on. -/
def memset (m : Memory) (c : UInt8) (n : ℕ) : Memory :=
  store m 0 (List.replicate n c)

/-- The loop that sets the last byte of the bitmap. -/
def lastByte (n : ℕ) : UInt8 :=
  (List.range n).foldl (fun last i => last ||| 1 <<< (7 - UInt8.ofNat i)) 0

/-- The last lines of `construct_bitmap`, on the memory from `page_frames.start` on. -/
def fillBitmap (m : Memory) (bitmapSize len : UInt32) : Memory :=
  Function.update (memset m 0xFF bitmapSize.toNat) (bitmapSize - 1).toNat (lastByte (len % 8).toNat)

/-- `construct_bitmap`, for the regions `mmap` of the allocator, with `m` the memory that is mapped for the
bitmap, from its first byte on. -/
def constructBitmap (s : Paging.State) (m : Memory) : UInt32 × Paging.State :=
  let totalPfs := totalPfs s.pfa.mmap
  let bitmapPfs := divCeil (divCeil totalPfs 8) fourKb
  let (paddr, mmap) := cutBitmap (bitmapPfs * fourKb) s.pfa.mmap
  let len := totalPfs - bitmapPfs
  let bitmapSize := divCeil len 8
  let s := { s with pfa := { s.pfa with len := len, mmap := mmap } }
  match paddr with
  | none => (1, s)
  | some paddr =>
    let (vaddr, s) := pdtKernelFindNextVaddr s bitmapSize
    if vaddr = 0 then
      (1, s)
    else
      -- the last two arguments are in the wrong order
      let (mappedMem, s) := pdtMapKernelMemory s paddr vaddr bitmapSize pagingPl0 pagingReadWrite
      if mappedMem < bitmapSize then
        (1, s)
      else
        let m := fillBitmap m bitmapSize len
        (0, { s with pfa := { s.pfa with start := fun cell => load32 m (4 * cell) } })

/-! ### What it should do -/

/-- The number of frames of the regions that are left when the bitmap, of one bit for each frame, has
been cut off. -/
def managed (rs : List MemoryMap) : ℕ :=
  (framesOf rs).length - ((framesOf rs).length + 32767) / 32768

/-- All frames are free, and the bits of the last cell behind them are clear. -/
def AllFree (s : State) : Prop :=
  ∀ i < 32 * (divCeil s.len 32).toNat, bit s i = decide (i < s.len.toNat)

/-! ### The bits -/

theorem bit_load32 (m : Memory) (s : State) (h : s.start = fun cell => load32 m (4 * cell)) (i : ℕ) :
  bit s i = (m (4 * (i / 32) + (3 - i % 32 / 8))).toNat.testBit (7 - i % 8)
  := by
  have hbyte : (31 - i % 32) / 8 = 3 - i % 32 / 8 := by omega
  have hbit : (31 - i % 32) % 8 = 7 - i % 8 := by omega
  rw [bit, h, testBit_load32 _ _ (by omega), hbyte, hbit]

/-- The loop sets the highest bits. -/
theorem testBit_lastByte {n t : ℕ} (hn : n < 8) (ht : t < 8) :
  (lastByte n).toNat.testBit (7 - t) = decide (t < n)
  := by
  have hall : ∀ n < 8, ∀ t < 8, (lastByte n).toNat.testBit (7 - t) = decide (t < n) := by decide
  exact hall n hn t ht

theorem testBit_ones {t : ℕ} (ht : t < 8) :
  (0xFF : UInt8).toNat.testBit (7 - t) = true
  := by
  have hall : ∀ t < 8, (0xFF : UInt8).toNat.testBit (7 - t) = true := by decide
  exact hall t ht

theorem byte_eq_of_testBit {x y : UInt8} (h : ∀ t < 8, x.toNat.testBit (7 - t) = y.toNat.testBit (7 - t)) :
  x = y
  := by
  apply UInt8.toNat_inj.mp
  apply Nat.eq_of_testBit_eq
  intro k
  by_cases hk : k < 8
  · have hbit := h (7 - k) (by omega)
    rwa [show 7 - (7 - k) = k by omega] at hbit
  · have hlt : ∀ z : UInt8, z.toNat < 2 ^ k := fun z =>
      z.toNat_lt.trans_le (Nat.pow_le_pow_right (by decide) (by omega))
    rw [Nat.testBit_lt_two_pow (hlt _), Nat.testBit_lt_two_pow (hlt _)]

variable {m : Memory} {len : UInt32}

/-- The bytes of the bitmap. -/
theorem fillBitmap_apply (hpos : 0 < len.toNat) (x : ℕ) :
  fillBitmap m (divCeil len 8) len x =
    if x = (len.toNat - 1) / 8 then lastByte (len.toNat % 8)
    else if x < (len.toNat - 1) / 8 then 0xFF
    else m x
  := by
  have hsize : (divCeil len 8).toNat = (len.toNat - 1) / 8 + 1 := toNat_divCeil hpos
  have hlast : (divCeil len 8 - 1).toNat = (len.toNat - 1) / 8 := by
    rw [UInt32.toNat_sub_of_le]
    · rw [hsize, UInt32.toNat_one, Nat.add_sub_cancel]
    · rw [UInt32.le_iff_toNat_le, hsize, UInt32.toNat_one]
      omega
  rw [fillBitmap, hlast, hsize, UInt32.toNat_mod]
  by_cases heq : x = (len.toNat - 1) / 8
  · rw [heq, Function.update_self, if_pos rfl]
    rfl
  · rw [Function.update_of_ne heq, if_neg heq, memset]
    split
    case isTrue hlt =>
      have hlength : x < (List.replicate ((len.toNat - 1) / 8 + 1) (0xFF : UInt8)).length := by
        rw [List.length_replicate]
        omega
      have hadd := store_add (m := m) (a := 0) hlength
      rw [zero_add] at hadd
      rw [hadd, List.getElem_replicate]
    case isFalse hge =>
      apply store_of_ge
      simp
      omega

section AllFree

variable {s : State}
    (hstart : s.start = fun cell => load32 (fillBitmap m (divCeil s.len 8) s.len) (4 * cell))
    (hpos : 0 < s.len.toNat)

include hstart hpos

/-- The bits of the cell `c`, from the byte `3 - k` of it. -/
theorem bit_fillBitmap (c : ℕ) {k t : ℕ} (hk : k < 4) (ht : t < 8) :
  bit s (32 * c + 8 * k + t) =
    (if 4 * c + (3 - k) = (s.len.toNat - 1) / 8 then decide (t < s.len.toNat % 8)
    else if 4 * c + (3 - k) < (s.len.toNat - 1) / 8 then true
    else (m (4 * c + (3 - k))).toNat.testBit (7 - t))
  := by
  have hcell : (32 * c + 8 * k + t) / 32 = c := by omega
  have hbyte : (32 * c + 8 * k + t) % 32 / 8 = k := by omega
  have hbit : (32 * c + 8 * k + t) % 8 = t := by omega
  rw [bit_load32 _ s hstart, hcell, hbyte, hbit, fillBitmap_apply hpos]
  split
  · apply testBit_lastByte (Nat.mod_lt _ (by decide)) ht
  · split
    · apply testBit_ones ht
    · rfl

/-- When the bits are right, there are 8 frames in the last cell: with another number of them, the first byte
of the last cell, or the last byte of all, is wrong. -/
theorem AllFree.len_mod (h : AllFree s) :
  s.len.toNat % 32 = 8
  := by
  have hcells : (divCeil s.len 32).toNat = (s.len.toNat - 1) / 32 + 1 := toNat_divCeil hpos
  have hfree : ∀ c k t, k < 4 → t < 8 → c ≤ (s.len.toNat - 1) / 32 →
      bit s (32 * c + 8 * k + t) = decide (32 * c + 8 * k + t < s.len.toNat) := by
    intro c k t hk ht hc
    apply h
    omega
  by_contra hne
  rcases Nat.eq_zero_or_pos (s.len.toNat % 32) with hfull | hpart
  · -- the last byte of a full cell is cleared
    have hlast := hfree ((s.len.toNat - 1) / 32) 0 0 (by decide) (by decide) le_rfl
    rw [bit_fillBitmap hstart hpos _ (by decide) (by decide), if_pos (by omega),
      decide_eq_false (by omega), decide_eq_true (by omega)] at hlast
    simp at hlast
  · have hlowest := hfree ((s.len.toNat - 1) / 32) 3 7 (by decide) (by decide) le_rfl
    have hhighest := hfree ((s.len.toNat - 1) / 32) 3 0 (by decide) (by decide) le_rfl
    rw [bit_fillBitmap hstart hpos _ (by decide) (by decide)] at hlowest hhighest
    by_cases hone : s.len.toNat % 32 ≤ 8
    · -- the byte with the last frames comes first
      rw [if_pos (by omega), decide_eq_true (by omega), decide_eq_false (by omega)] at hhighest
      simp at hhighest
    · -- the first byte is full
      rw [if_neg (by omega), if_pos (by omega), decide_eq_false (by omega)] at hlowest
      simp at hlowest

/-- With 8 frames in the last cell, the bits are right when the bytes that are not set are. -/
theorem allFree_iff :
  AllFree s ↔ s.len.toNat % 32 = 8 ∧ m (s.len.toNat / 8) = 0 ∧ m (s.len.toNat / 8 + 1) = 0 ∧
    m (s.len.toNat / 8 + 2) = 0xFF
  := by
  have hcells : (divCeil s.len 32).toNat = (s.len.toNat - 1) / 32 + 1 := toNat_divCeil hpos
  by_cases hmod : s.len.toNat % 32 = 8
  · have hbyte : ∀ k < 3, ∀ t < 8, bit s (32 * (s.len.toNat / 32) + 8 * k + t) =
        (m (s.len.toNat / 8 + (2 - k))).toNat.testBit (7 - t) := by
      intro k hk t ht
      rw [bit_fillBitmap hstart hpos _ (by omega) ht, if_neg (by omega), if_neg (by omega)]
      congr 3
      omega
    constructor
    · intro h
      have hfree : ∀ k < 3, ∀ t < 8, (m (s.len.toNat / 8 + (2 - k))).toNat.testBit (7 - t) =
          decide (k = 0) := by
        intro k hk t ht
        rw [← hbyte k hk t ht, h _ (by omega), decide_eq_decide]
        omega
      refine ⟨hmod, ?_, ?_, ?_⟩
      · apply byte_eq_of_testBit
        intro t ht
        exact (hfree 2 (by decide) t ht).trans (by simp)
      · apply byte_eq_of_testBit
        intro t ht
        exact (hfree 1 (by decide) t ht).trans (by simp)
      · apply byte_eq_of_testBit
        intro t ht
        exact (hfree 0 (by decide) t ht).trans (testBit_ones ht).symm
    · rintro ⟨-, hfirst, hsecond, hthird⟩ i hi
      have ht : i % 8 < 8 := Nat.mod_lt _ (by decide)
      rw [show i = 32 * (i / 32) + 8 * (i % 32 / 8) + i % 8 by omega]
      by_cases hc : i / 32 < s.len.toNat / 32
      · -- the cells before the last one are full
        rw [bit_fillBitmap hstart hpos _ (by omega) ht, if_neg (by omega), if_pos (by omega),
          decide_eq_true (by omega)]
      · rw [show i / 32 = s.len.toNat / 32 by omega]
        obtain hk | hk | hk | hk : i % 32 / 8 = 0 ∨ i % 32 / 8 = 1 ∨ i % 32 / 8 = 2 ∨ i % 32 / 8 = 3 := by
          omega
        · rw [hk, hbyte 0 (by decide) _ ht, hthird, testBit_ones ht, decide_eq_true (by omega)]
        · rw [hk, hbyte 1 (by decide) _ ht, hsecond, decide_eq_false (by omega)]
          simp
        · rw [hk, hbyte 2 (by decide) _ ht, Nat.sub_self, Nat.add_zero, hfirst,
            decide_eq_false (by omega)]
          simp
        · rw [hk, bit_fillBitmap hstart hpos _ (by decide) ht, if_pos (by omega),
            decide_eq_false (by omega), decide_eq_false (by omega)]
  · constructor
    · intro h
      exact absurd (h.len_mod hstart hpos) hmod
    · rintro ⟨h, -⟩
      exact absurd h hmod

end AllFree

/-! ### The number of frames -/

theorem totalPfs_eq (rs : List MemoryMap) :
  totalPfs rs = UInt32.ofNat (framesOf rs).length
  := by
  have hfold : ∀ total : UInt32, rs.foldl (fun total r => total + r.len / fourKb) total =
      total + UInt32.ofNat (framesOf rs).length := by
    induction rs with
    | nil => simp [framesOf, Frames.frames]
    | cons r rs ih =>
        intro total
        have hdiv : r.len / fourKb = UInt32.ofNat (r.len.toNat / 4096) := by
          apply UInt32.toNat_inj.mp
          have hlt := r.len.toNat_lt
          rw [UInt32.toNat_div, toNat_fourKb, UInt32.toNat_ofNat', Nat.mod_eq_of_lt (by omega)]
        rw [List.foldl_cons, ih, length_framesOf_cons, UInt32.ofNat_add, hdiv, add_assoc]
  rw [totalPfs, hfold, zero_add]

variable {rs : List MemoryMap}

theorem Regions.toNat_totalPfs (h : Regions rs) :
  (totalPfs rs).toNat = (framesOf rs).length
  := by
  have hle := h.length_le
  rw [totalPfs_eq, UInt32.toNat_ofNat', Nat.mod_eq_of_lt (by omega)]

/-- The frames that the bitmap takes. -/
theorem Regions.toNat_bitmapPfs (h : Regions rs) (hpos : 0 < (framesOf rs).length) :
  (divCeil (divCeil (totalPfs rs) 8) fourKb).toNat = ((framesOf rs).length + 32767) / 32768
  := by
  have htotal := h.toNat_totalPfs
  have hbytes : (divCeil (totalPfs rs) 8).toNat = ((framesOf rs).length - 1) / 8 + 1 := by
    rw [toNat_divCeil (by omega), htotal]
    rfl
  rw [toNat_divCeil (by omega), hbytes, toNat_fourKb]
  omega

/-- `page_frames.len` is the number of the frames that are left. -/
theorem Regions.toNat_len (h : Regions rs) (hpos : 0 < managed rs) :
  (totalPfs rs - divCeil (divCeil (totalPfs rs) 8) fourKb).toNat = managed rs
  := by
  rw [managed] at hpos ⊢
  have htotal := h.toNat_totalPfs
  have hbitmap := h.toNat_bitmapPfs (by omega)
  rw [UInt32.toNat_sub_of_le, htotal, hbitmap]
  rw [UInt32.le_iff_toNat_le, htotal, hbitmap]
  omega

theorem pfaAllocate_len (s : State) (num : UInt32) :
  (pfaAllocate s num).2.len = s.len
  := by
  rw [pfaAllocate]
  split
  · exact (toggleBitsFrom_mmap _ _ _ _).2
  · rfl

/-- `pdt_map_kernel_memory` leaves the number of frames alone. -/
theorem mapKernelMemory_len (s : Paging.State) (paddr vaddr size : UInt32) (rw pl : UInt8) :
  (pdtMapKernelMemory s paddr vaddr size rw pl).2.pfa.len = s.pfa.len
  := by
  apply pdtMapKernelMemory_pfa (P := fun p => p.len = s.pfa.len) _ s paddr vaddr size rw pl rfl
  intro p hp
  rw [pfaAllocate_len, hp]

/-! ### The bitmap -/

/-- What `construct_bitmap` leaves when it succeeds. -/
theorem constructBitmap_spec (s : Paging.State) (m : Memory) (hok : (constructBitmap s m).1 = 0) :
  (constructBitmap s m).2.pfa.len =
      totalPfs s.pfa.mmap - divCeil (divCeil (totalPfs s.pfa.mmap) 8) fourKb ∧
    (constructBitmap s m).2.pfa.start = fun cell =>
      load32 (fillBitmap m (divCeil (constructBitmap s m).2.pfa.len 8) (constructBitmap s m).2.pfa.len)
        (4 * cell)
  := by
  rw [constructBitmap] at hok ⊢
  dsimp only at hok ⊢
  split at hok
  case h_1 => simp at hok
  case h_2 paddr hpaddr =>
    split at hok
    case isTrue => simp at hok
    case isFalse hvaddr =>
      split at hok
      case isTrue => simp at hok
      case isFalse hmapped =>
        simp only [if_neg hvaddr, if_neg hmapped, mapKernelMemory_len, pdtKernelFindNextVaddr_pfa]
        exact ⟨trivial, trivial⟩

/-- After `construct_bitmap`, all frames and no other bits are free exactly when 8 frames are in the last cell,
and the three bytes behind the bitmap held 0, 0 and 0xFF. -/
theorem bitmap_all_free_iff (s : Paging.State) (m : Memory) (h : Regions s.pfa.mmap)
    (hpos : 0 < managed s.pfa.mmap) (hok : (constructBitmap s m).1 = 0) :
  AllFree (constructBitmap s m).2.pfa ↔
    managed s.pfa.mmap % 32 = 8 ∧ m (managed s.pfa.mmap / 8) = 0 ∧
      m (managed s.pfa.mmap / 8 + 1) = 0 ∧ m (managed s.pfa.mmap / 8 + 2) = 0xFF
  := by
  obtain ⟨hlen, hstart⟩ := constructBitmap_spec s m hok
  have htoNat : (constructBitmap s m).2.pfa.len.toNat = managed s.pfa.mmap := by
    rw [hlen, h.toNat_len hpos]
  rw [allFree_iff hstart (by rwa [htoNat]), htoNat]

/-- A kernel that has one page table, with nothing mapped, and a region of `n` frames. -/
abbrev bootState (n : UInt32) : Paging.State where
  pfa := ⟨fun _ => 0, 0, [⟨0x110000, n * fourKb⟩]⟩
  mem := fun f i => if f = 0x101000 ∧ i = 768 then createPdtEntry 0x102000 ps4Kb 1 0 else Entry.zero
  kernelPdt := 0x101000
  kernelPt := 0x102000
  cr3 := 0x101000

/-- With 41 frames, and a byte 0xFF at the right place, the bitmap is right. -/
theorem bitmap_all_free_fortyOne :
  Regions (bootState 41).pfa.mmap ∧ (constructBitmap (bootState 41) fun x => if x = 7 then 0xFF else 0).1 = 0 ∧
    managed (bootState 41).pfa.mmap = 40 ∧
    AllFree (constructBitmap (bootState 41) fun x => if x = 7 then 0xFF else 0).2.pfa
  := by
  have hregions : Regions (bootState 41).pfa.mmap := ⟨by decide, by decide, by decide⟩
  have hok : (constructBitmap (bootState 41) fun x => if x = 7 then 0xFF else 0).1 = 0 := by
    decide +kernel
  have hmanaged : managed (bootState 41).pfa.mmap = 40 := by decide +kernel
  refine ⟨hregions, hok, hmanaged, ?_⟩
  rw [bitmap_all_free_iff _ _ hregions (by rw [hmanaged]; decide) hok, hmanaged]
  decide

/-- With 33 frames, the first frame is not free. -/
theorem first_frame_not_free :
  Regions (bootState 33).pfa.mmap ∧ (constructBitmap (bootState 33) fun _ => 0).1 = 0 ∧
    (constructBitmap (bootState 33) fun _ => 0).2.pfa.len = 32 ∧
    bit (constructBitmap (bootState 33) fun _ => 0).2.pfa 0 = false ∧
    ¬ AllFree (constructBitmap (bootState 33) fun _ => 0).2.pfa
  := by
  have hlen : (constructBitmap (bootState 33) fun _ => 0).2.pfa.len = 32 := by decide +kernel
  have hbit : bit (constructBitmap (bootState 33) fun _ => 0).2.pfa 0 = false := by decide +kernel
  refine ⟨⟨by decide, by decide, by decide⟩, by decide +kernel, hlen, hbit, ?_⟩
  intro hfree
  have hfirst := hfree 0 (by rw [hlen]; decide)
  rw [hbit, hlen] at hfirst
  exact absurd hfirst (by decide)

end Pfa
