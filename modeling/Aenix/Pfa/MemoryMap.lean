import Aenix.Pfa.Basic

/-!
# The memory map

`fill_memory_map` cuts the kernel and the file system module out of the available entries of
the multiboot memory map, and `pfa_init` rounds what is left to pages.  All of this is done on
32-bit words, so a region that is cut too short wraps around: a rounded region is the arc of
addresses from its start, rounded up, to its end, rounded down, on the circle of 32-bit
addresses (`InArc`).
-/

open Aenix

namespace Pfa

/-- An entry of the multiboot memory map. -/
structure Entry where
  type : UInt32
  addr : UInt64
  len : UInt64
  deriving DecidableEq, Repr

/-- `MULTIBOOT_MEMORY_AVAILABLE`. -/
def multibootMemoryAvailable : UInt32 := 1

/-- `MAX_NUM_MEMORY_MAP`. -/
def maxNumMemoryMap : ℕ := 100

/-- What `pfa_init` is called with: the flags and the memory map of the multiboot information,
the physical addresses of the kernel, and those of the file system module. -/
structure Boot where
  flags : UInt32
  entries : List Entry
  kernelPhysicalStart : UInt32
  kernelPhysicalEnd : UInt32
  fsPaddr : UInt32
  fsSize : UInt32

/-- The first `if` of `fill_memory_map`, which cuts off the kernel. -/
def clip (b : Boot) (addr len : UInt32) : MemoryMap :=
  if addr ≤ b.kernelPhysicalStart ∧ addr + len > b.kernelPhysicalEnd then
    ⟨b.kernelPhysicalEnd, len - b.kernelPhysicalEnd⟩
  else
    ⟨addr, len⟩

/-- The second `if` of `fill_memory_map`, which cuts out the module.  The new `addr` is set
before the new `len` is computed from it. -/
def splitModule (b : Boot) (addr len : UInt32) : List MemoryMap :=
  if addr > oneMb then
    if addr < b.fsPaddr ∧ addr + len > b.fsPaddr + b.fsSize then
      let addr' := b.fsPaddr + b.fsSize
      let len' := len - ((b.fsPaddr + b.fsSize) - addr')
      [⟨addr, b.fsPaddr - addr⟩, ⟨addr', len'⟩]
    else
      [⟨addr, len⟩]
  else
    []

/-- The elements of `mmap` that `fill_memory_map` writes for an available entry. -/
def fillEntry (b : Boot) (e : Entry) : List MemoryMap :=
  let r := clip b e.addr.toUInt32 e.len.toUInt32
  splitModule b r.addr r.len

/-- The available entries. -/
def Boot.available (b : Boot) : List Entry :=
  b.entries.filter fun e => e.type = multibootMemoryAvailable

/-- `fill_memory_map`: the elements of `mmap` that are written, unless they go beyond its end. -/
def fillMemoryMap (b : Boot) : Option (List MemoryMap) :=
  if b.flags &&& 0x20 = 0 then
    some []
  else
    let rs := b.available.flatMap (fillEntry b)
    if rs.length ≤ maxNumMemoryMap then some rs else none

/-- A round of the loop of `pfa_init`, which aligns a region to pages. -/
def alignRegion (r : MemoryMap) : MemoryMap :=
  let addr := alignUp r.addr fourKb
  ⟨addr, alignDown (r.len - (addr - r.addr)) fourKb⟩

/-- The regions `mmap[0..n)` after the loop of `pfa_init`. -/
def pfaInitRegions (b : Boot) : Option (List MemoryMap) :=
  (fillMemoryMap b).map fun rs => rs.map alignRegion

/-- The addresses of the frames of a region, which are computed on 32-bit words. -/
def MemoryMap.Owns (r : MemoryMap) (x : UInt32) : Prop :=
  x - r.addr < r.len

instance (r : MemoryMap) (x : UInt32) : Decidable (r.Owns x) :=
  inferInstanceAs (Decidable (_ < _))

/-! ### Arcs -/

/-- The arc from `p` to `q` on the circle of 32-bit addresses. -/
def InArc (p q x : ℕ) : Prop :=
  if p ≤ q then p ≤ x ∧ x < q else p ≤ x ∨ x < q

/-- The number rounded up to a page. -/
def up (n : ℕ) : ℕ :=
  (n + 4095) / 4096 * 4096

/-- The number rounded down to a page. -/
def down (n : ℕ) : ℕ :=
  n / 4096 * 4096

theorem toNat_alignUp (n : UInt32) :
  (alignUp n fourKb).toNat = up n.toNat % 2 ^ 32
  := by
  rw [toNat_alignUp_eq n (by decide), toNat_fourKb, up]

theorem toNat_alignDown (n : UInt32) :
  (alignDown n fourKb).toNat = down n.toNat
  := by
  have hlt := n.toNat_lt
  have hmod : (n % fourKb).toNat = n.toNat % 4096 := by simp
  rw [alignDown, UInt32.toNat_sub, hmod, down]
  omega

theorem sub_lt_sub_iff_inArc (p q x : UInt32) :
  x - p < q - p ↔ InArc p.toNat q.toNat x.toNat
  := by
  have hp := p.toNat_lt
  have hq := q.toNat_lt
  have hx := x.toNat_lt
  rw [UInt32.lt_iff_toNat_lt, UInt32.toNat_sub, UInt32.toNat_sub, InArc]
  split
  · omega
  · omega

/-- Rounding down commutes with moving the origin to a page boundary. -/
theorem down_sub_mod {p e : ℕ} (hdvd : 4096 ∣ p) (hp : p < 2 ^ 32) (he : e < 2 ^ 32) :
  down ((2 ^ 32 - p + e) % 2 ^ 32) = (2 ^ 32 - p + down e) % 2 ^ 32
  := by
  obtain ⟨k, rfl⟩ := hdvd
  simp only [down]
  rcases Nat.lt_or_ge e (4096 * k) with hlt | hge
  · rw [Nat.mod_eq_of_lt (by omega), Nat.mod_eq_of_lt (by omega)]
    omega
  · have hleft : 2 ^ 32 - 4096 * k + e = (e - 4096 * k) + 2 ^ 32 := by omega
    have hright : 2 ^ 32 - 4096 * k + e / 4096 * 4096
        = (e / 4096 * 4096 - 4096 * k) + 2 ^ 32 := by omega
    rw [hleft, hright, Nat.add_mod_right, Nat.add_mod_right, Nat.mod_eq_of_lt (by omega),
      Nat.mod_eq_of_lt (by omega)]
    omega

theorem dvd_toNat_alignUp (n : UInt32) :
  4096 ∣ (alignUp n fourKb).toNat
  := by
  rw [toNat_alignUp, Nat.dvd_mod_iff (by norm_num)]
  apply Nat.dvd_mul_left

/-- A rounded region is the arc from its start to its end, both rounded. -/
theorem owns_alignRegion_iff (r : MemoryMap) (x : UInt32) :
  (alignRegion r).Owns x ↔ InArc (up r.addr.toNat % 2 ^ 32) (down (r.addr + r.len).toNat) x.toNat
  := by
  have hlen : alignDown (r.len - (alignUp r.addr fourKb - r.addr)) fourKb
      = alignDown (r.addr + r.len) fourKb - alignUp r.addr fourKb := by
    have hsub : r.len - (alignUp r.addr fourKb - r.addr)
        = (r.addr + r.len) - alignUp r.addr fourKb := by grind
    rw [hsub, ← UInt32.toNat_inj, toNat_alignDown, UInt32.toNat_sub, UInt32.toNat_sub,
      toNat_alignDown]
    apply down_sub_mod (dvd_toNat_alignUp r.addr) (UInt32.toNat_lt _) (UInt32.toNat_lt _)
  rw [MemoryMap.Owns, alignRegion]
  simp only [hlen]
  rw [sub_lt_sub_iff_inArc, toNat_alignUp, toNat_alignDown]

/-! ### The regions of an entry -/

variable {b : Boot} {e : Entry}

/-- The first address of the entry. -/
def Entry.first (e : Entry) : ℕ :=
  e.addr.toNat

/-- The end of the entry. -/
def Entry.last (e : Entry) : ℕ :=
  e.addr.toNat + e.len.toNat

/-- The end of the module. -/
def Boot.fsEnd (b : Boot) : ℕ :=
  b.fsPaddr.toNat + b.fsSize.toNat

/-- The kernel is cut off the entry. -/
def Clipped (b : Boot) (e : Entry) : Prop :=
  e.first ≤ b.kernelPhysicalStart.toNat ∧ b.kernelPhysicalEnd.toNat < e.last

instance : Decidable (Clipped b e) :=
  inferInstanceAs (Decidable (_ ∧ _))

/-- Where the rest of the entry starts. -/
def restFirst (b : Boot) (e : Entry) : ℕ :=
  if Clipped b e then b.kernelPhysicalEnd.toNat else e.first

/-- Where the rest of the entry ends: the code subtracts the end of the kernel from the length
of the entry, so this is the length of an entry that holds the kernel. -/
def restLast (b : Boot) (e : Entry) : ℕ :=
  if Clipped b e then e.len.toNat else e.last

/-- The module lies inside the rest of the entry. -/
def Split (b : Boot) (e : Entry) : Prop :=
  restFirst b e < b.fsPaddr.toNat ∧ b.fsEnd < restLast b e

instance : Decidable (Split b e) :=
  inferInstanceAs (Decidable (_ ∧ _))

/-- Where the part of the entry after the module ends: it keeps the length of the rest. -/
def tailLast (b : Boot) (e : Entry) : ℕ :=
  b.fsEnd + (restLast b e - restFirst b e)

theorem Entry.toNat_toUInt32 (h : e.last < 2 ^ 32) :
  e.addr.toUInt32.toNat = e.first ∧ e.len.toUInt32.toNat = e.len.toNat
  := by
  simp only [Entry.last, Entry.first, UInt64.toNat_toUInt32] at h ⊢
  omega

/-- What is left of an entry once the kernel is cut off. -/
theorem clip_spec (h : e.last < 2 ^ 32) :
  (clip b e.addr.toUInt32 e.len.toUInt32).addr.toNat = restFirst b e ∧
    ((clip b e.addr.toUInt32 e.len.toUInt32).addr
      + (clip b e.addr.toUInt32 e.len.toUInt32).len).toNat = restLast b e
  := by
  obtain ⟨haddr, hlen⟩ := Entry.toNat_toUInt32 h
  have hsum : (e.addr.toUInt32 + e.len.toUInt32).toNat = e.last := by
    rw [UInt32.toNat_add, haddr, hlen]
    apply Nat.mod_eq_of_lt h
  have hiff : (e.addr.toUInt32 ≤ b.kernelPhysicalStart ∧
      e.addr.toUInt32 + e.len.toUInt32 > b.kernelPhysicalEnd) ↔ Clipped b e := by
    rw [UInt32.le_iff_toNat_le, gt_iff_lt, UInt32.lt_iff_toNat_lt, haddr, hsum, Clipped]
  rw [clip, restFirst, restLast]
  by_cases hclip : Clipped b e
  · rw [if_pos (hiff.mpr hclip), if_pos hclip, if_pos hclip]
    refine ⟨rfl, ?_⟩
    have hcancel : b.kernelPhysicalEnd + (e.len.toUInt32 - b.kernelPhysicalEnd)
        = e.len.toUInt32 := by grind
    rw [hcancel, hlen]
  · rw [if_neg (mt hiff.mp hclip), if_neg hclip, if_neg hclip]
    exact ⟨haddr, hsum⟩

/-- The regions of an entry before they are rounded: none below 1 MB, two around a module inside, and else one. -/
theorem fillEntry_cases (h : e.last < 2 ^ 32) (hfs : b.fsEnd < 2 ^ 32) :
  (restFirst b e ≤ 2 ^ 20 ∧ fillEntry b e = []) ∨
  (2 ^ 20 < restFirst b e ∧ Split b e ∧ ∃ r r', fillEntry b e = [r, r'] ∧
    (r.addr.toNat = restFirst b e ∧ (r.addr + r.len).toNat = b.fsPaddr.toNat) ∧
    r'.addr.toNat = b.fsEnd ∧ (r'.addr + r'.len).toNat = tailLast b e % 2 ^ 32) ∨
  (2 ^ 20 < restFirst b e ∧ ¬ Split b e ∧ ∃ r, fillEntry b e = [r] ∧
    r.addr.toNat = restFirst b e ∧ (r.addr + r.len).toNat = restLast b e)
  := by
  obtain ⟨haddr, hlast⟩ := clip_spec (b := b) h
  rw [fillEntry]
  set r := clip b e.addr.toUInt32 e.len.toUInt32
  have hend : (b.fsPaddr + b.fsSize).toNat = b.fsEnd := by
    rw [UInt32.toNat_add]
    apply Nat.mod_eq_of_lt hfs
  have hiff : (r.addr < b.fsPaddr ∧ r.addr + r.len > b.fsPaddr + b.fsSize) ↔ Split b e := by
    rw [UInt32.lt_iff_toNat_lt, gt_iff_lt, UInt32.lt_iff_toNat_lt, haddr, hlast, hend, Split]
  have hmb : r.addr > oneMb ↔ 2 ^ 20 < restFirst b e := by
    rw [gt_iff_lt, UInt32.lt_iff_toNat_lt, haddr, toNat_oneMb]
    norm_num
  simp only [splitModule]
  by_cases hlow : 2 ^ 20 < restFirst b e
  · right
    rw [if_pos (hmb.mpr hlow)]
    by_cases hsplit : Split b e
    · left
      rw [if_pos (hiff.mpr hsplit)]
      refine ⟨hlow, hsplit, _, _, rfl, ⟨haddr, ?_⟩, hend, ?_⟩
      · have hcancel : r.addr + (b.fsPaddr - r.addr) = b.fsPaddr := by grind
        rw [hcancel]
      · have hlen : r.len.toNat = restLast b e - restFirst b e := by
          have hle : r.addr ≤ r.addr + r.len := by
            obtain ⟨hlt, hlt'⟩ := hsplit
            rw [UInt32.le_iff_toNat_le, haddr, hlast]
            rw [Boot.fsEnd] at hlt'
            omega
          have hcancel : r.len = (r.addr + r.len) - r.addr := by grind
          rw [hcancel, UInt32.toNat_sub_of_le _ _ hle, hlast, haddr]
        have hsub : r.len - ((b.fsPaddr + b.fsSize) - (b.fsPaddr + b.fsSize)) = r.len := by grind
        simp only [hsub]
        rw [UInt32.toNat_add, hend, hlen, tailLast]
    · right
      rw [if_neg (mt hiff.mp hsplit)]
      exact ⟨hlow, hsplit, _, rfl, haddr, hlast⟩
  · left
    rw [if_neg (mt hmb.mp hlow)]
    exact ⟨not_lt.mp hlow, rfl⟩

/-- The rounded regions of an entry as arcs: none below 1 MB, two around a module inside, and
else one. -/
theorem fillEntry_spec (h : e.last < 2 ^ 32) (hfs : b.fsEnd < 2 ^ 32) :
  (restFirst b e ≤ 2 ^ 20 ∧ (fillEntry b e).map alignRegion = []) ∨
  (2 ^ 20 < restFirst b e ∧ Split b e ∧ ∃ r r', (fillEntry b e).map alignRegion = [r, r'] ∧
    (∀ x, r.Owns x ↔ InArc (up (restFirst b e) % 2 ^ 32) (down b.fsPaddr.toNat) x.toNat) ∧
    ∀ x, r'.Owns x ↔ InArc (up b.fsEnd % 2 ^ 32) (down (tailLast b e % 2 ^ 32)) x.toNat) ∨
  (2 ^ 20 < restFirst b e ∧ ¬ Split b e ∧ ∃ r, (fillEntry b e).map alignRegion = [r] ∧
    ∀ x, r.Owns x ↔ InArc (up (restFirst b e) % 2 ^ 32) (down (restLast b e)) x.toNat)
  := by
  rcases fillEntry_cases h hfs with ⟨hlow, hnil⟩ | ⟨hlow, hsplit, r, r', hcons, ⟨haddr, hl⟩, haddr', hl'⟩ |
    ⟨hlow, hsplit, r, hcons, haddr, hl⟩
  · left
    rw [hnil]
    exact ⟨hlow, rfl⟩
  · right
    left
    rw [hcons]
    refine ⟨hlow, hsplit, _, _, rfl, ?_, ?_⟩
    · intro x
      rw [owns_alignRegion_iff, haddr, hl]
    · intro x
      rw [owns_alignRegion_iff, haddr', hl']
  · right
    right
    rw [hcons]
    refine ⟨hlow, hsplit, _, rfl, ?_⟩
    intro x
    rw [owns_alignRegion_iff, haddr, hl]

end Pfa
