import Aenix.Lib.Loop
import Aenix.Paging.Find
import Aenix.Paging.Rights

/-!
# The page tables of the loader

Before it enables paging, `loader.s` writes the words of the page directory and of the page table of the kernel: slot
`KERNEL_PDT_IDX` of the directory refers to the page table, and the page table maps the memory from address 0 on to
the end of the kernel.  Once the code in the higher half runs, slot 0 of the directory is cleared.

The loop that fills the page table adds the flags to the address that it compares with the end of the kernel.  So the
last page of the kernel is not mapped when the kernel occupies at most ten bytes of it (`kernel_mapped_iff`).
-/

open Aenix

namespace Paging

variable {pfa : Pfa.State} {e pt w : UInt32} {m : UInt32 → UInt32} {n i k : ℕ} {s : State}

/-! ### The code -/

/-- `KERNEL_PT_CFG`: write-through, writable, present. -/
def kernelPtCfg : UInt32 := 0xB

/-- `KERNEL_PDT_ID_MAP`: the first 4 MB, with the same flags. -/
def kernelPdtIdMap : UInt32 := 0x8B

/-- A word as an entry. -/
def Entry.ofWord (w : UInt32) : Entry where
  config := w.toUInt8
  middle := (w >>> 8).toUInt8
  highAddr := (w >>> 16).toUInt16

/-- The frames of a memory of words. -/
def framesOfWords (m : UInt32 → UInt32) : UInt32 → Table := fun f i =>
  Entry.ofWord (m (f + UInt32.ofNat (4 * i)))

/-- What `set_up_kernel_pt` works on: two registers, and the words of the memory by address. -/
structure Setup where
  eax : UInt32
  ecx : UInt32
  mem : UInt32 → UInt32

/-- A round of the loop of `set_up_kernel_pt`.  The comparison is that of signed words. -/
def setUpKernelPt (kernelPhysicalEnd : UInt32) (s : Setup) : Setup ⊕ Setup :=
  let mem := Function.update s.mem s.eax s.ecx
  let eax := s.eax + 4
  let ecx := s.ecx + fourKb
  if ecx.toBitVec.sle kernelPhysicalEnd.toBitVec then .inl ⟨eax, ecx, mem⟩ else .inr ⟨eax, ecx, mem⟩

/-- `mov [kernel_pdt], DWORD 0` at `higher_half`; it faults when the directory is not mapped. -/
def higherHalf (s : State) : Option State :=
  (s.page s.cr3 (kernelStartVaddr + s.kernelPdt)).map fun e => s.set e.paddr 0 Entry.zero

/-- `loader`, up to the call of `kmain`: from a memory `m`, with `kernel_pt` at `kernelPt` and `kernel_pdt` behind it,
and with at most `n` rounds of the loop. -/
def loader (pfa : Pfa.State) (kernelPhysicalEnd kernelPt : UInt32) (m : UInt32 → UInt32) (n : ℕ) : Option State := do
  let kernelPdt := kernelPt + fourKb
  let m := Function.update m (kernelPdt + UInt32.ofNat (4 * kernelPdtIdx)) (kernelPt ||| kernelPtCfg)
  let setup ← Loop.run (setUpKernelPt kernelPhysicalEnd) n ⟨kernelPt, kernelPtCfg, m⟩
  higherHalf {
    pfa := pfa
    mem := framesOfWords setup.mem
    kernelPdt := kernelPdt
    kernelPt := kernelPt
    cr3 := kernelPdt &&& 0xFFFFF000 }

/-! ### Words as entries -/

theorem or_kernelPtCfg (h : 4096 ∣ w.toNat) :
  w ||| kernelPtCfg = w + kernelPtCfg
  := by
  obtain ⟨k, hk⟩ := h
  have hlt := w.toNat_lt
  apply UInt32.toNat_inj.mp
  have hor := Nat.shiftLeft_add_eq_or_of_lt (show 0xB < 2 ^ 12 by decide) k
  rw [Nat.shiftLeft_eq] at hor
  rw [UInt32.toNat_or, UInt32.toNat_add, hk, show kernelPtCfg.toNat = 0xB from rfl, Nat.mod_eq_of_lt (by omega),
    Nat.mul_comm 4096 k, hor]

/-- A page-aligned word with the flags of the loader. -/
theorem ofWord_add (h : 4096 ∣ w.toNat) :
  Entry.ofWord (w + kernelPtCfg) = entryFor 0xB w
  := by
  obtain ⟨k, hk⟩ := h
  have hlt := w.toNat_lt
  have hadd : (w + kernelPtCfg).toNat = 4096 * k + 0xB := by
    rw [UInt32.toNat_add, hk, show kernelPtCfg.toNat = 0xB from rfl, Nat.mod_eq_of_lt (by omega)]
  rw [Entry.ofWord, entryFor, Entry.mk.injEq]
  refine ⟨?_, ?_, ?_⟩
  · apply UInt8.toNat_inj.mp
    rw [UInt32.toNat_toUInt8, hadd]
    show (4096 * k + 0xB) % 256 = 0xB
    omega
  · apply UInt8.toNat_inj.mp
    have hand : w.toNat / 2 ^ 12 &&& 15 = k % 16 := by
      rw [hk, show 15 = 2 ^ 4 - 1 from rfl, Nat.and_two_pow_sub_one_eq_mod]
      omega
    rw [UInt32.toNat_toUInt8, UInt32.toNat_shiftRight, hadd, UInt8.toNat_shiftLeft, UInt32.toNat_toUInt8,
      UInt32.toNat_and, UInt32.toNat_shiftRight]
    simp only [UInt32.reduceToNat, UInt8.reduceToNat, Nat.reduceMod, Nat.shiftRight_eq_div_pow, Nat.shiftLeft_eq, hand]
    omega
  · apply UInt16.toNat_inj.mp
    have hand : w.toNat / 2 ^ 16 &&& 65535 = k / 16 := by
      rw [hk, show 65535 = 2 ^ 16 - 1 from rfl, Nat.and_two_pow_sub_one_eq_mod]
      omega
    rw [UInt32.toNat_toUInt16, UInt32.toNat_shiftRight, hadd, UInt32.toNat_toUInt16, UInt32.toNat_and,
      UInt32.toNat_shiftRight]
    simp only [UInt32.reduceToNat, Nat.reduceMod, Nat.shiftRight_eq_div_pow, hand]
    omega

@[simp]
theorem ofWord_zero :
  Entry.ofWord 0 = Entry.zero
  := rfl

/-! ### The loop -/

/-- The memory after `n` rounds of the loop. -/
def filled (m : UInt32 → UInt32) (pt : UInt32) : ℕ → UInt32 → UInt32
  | 0 => m
  | k + 1 => Function.update (filled m pt k) (pt + UInt32.ofNat (4 * k)) (UInt32.ofNat k * fourKb + kernelPtCfg)

theorem filled_of_ne (h : ∀ k < n, w ≠ pt + UInt32.ofNat (4 * k)) :
  filled m pt n w = m w
  := by
  induction n with
  | zero => rfl
  | succ n ih =>
      rw [filled, Function.update_of_ne (h n (Nat.lt_succ_self n))]
      exact ih fun k hk => h k (by omega)

theorem add_ofNat_inj (hi : i < 2 ^ 20) (hk : k < 2 ^ 20) :
  pt + UInt32.ofNat (4 * i) = pt + UInt32.ofNat (4 * k) ↔ i = k
  := by
  rw [UInt32.add_right_inj, ← UInt32.toNat_inj, UInt32.toNat_ofNat', UInt32.toNat_ofNat']
  omega

theorem filled_self (hi : i < n) (hn : n ≤ 2 ^ 20) :
  filled m pt n (pt + UInt32.ofNat (4 * i)) = UInt32.ofNat i * fourKb + kernelPtCfg
  := by
  induction n with
  | zero => omega
  | succ n ih =>
      rw [filled]
      by_cases heq : i = n
      · rw [heq, Function.update_self]
      · rw [Function.update_of_ne (by rwa [ne_eq, add_ofNat_inj (by omega) (by omega)])]
        exact ih (by omega) (by omega)

/-- Words below `2 ^ 31` are compared as numbers. -/
theorem sle_eq (hw : w.toNat < 2 ^ 31) (he : e.toNat < 2 ^ 31) :
  w.toBitVec.sle e.toBitVec = decide (w.toNat ≤ e.toNat)
  := by
  have hint : ∀ x : UInt32, x.toNat < 2 ^ 31 → x.toBitVec.toInt = x.toNat := by
    intro x hx
    apply BitVec.toInt_eq_toNat_of_lt
    rw [UInt32.toNat_toBitVec]
    omega
  rw [BitVec.sle, hint w hw, hint e he, decide_eq_decide]
  exact Int.ofNat_le

/-- The rounds of the loop: the last one is that of the last page that begins ten bytes before the end at the
latest. -/
def ptRounds (e : UInt32) : ℕ :=
  (e.toNat - 11) / 4096 + 1

/-- The registers and the memory when `k` rounds have been made. -/
def setupAfter (m : UInt32 → UInt32) (pt : UInt32) (k : ℕ) : Setup :=
  ⟨pt + UInt32.ofNat (4 * k), UInt32.ofNat k * fourKb + kernelPtCfg, filled m pt k⟩

/-- A round is followed by another one if there are any left. -/
theorem setUpKernelPt_setupAfter (hlow : 11 ≤ e.toNat) (hhigh : e.toNat < 2 ^ 30) (hk : k < ptRounds e) :
  setUpKernelPt e (setupAfter m pt k) =
    if k + 1 < ptRounds e then .inl (setupAfter m pt (k + 1)) else .inr (setupAfter m pt (k + 1))
  := by
  rw [ptRounds] at hk
  have hecx : UInt32.ofNat k * fourKb + kernelPtCfg + fourKb = UInt32.ofNat (k + 1) * fourKb + kernelPtCfg := by
    rw [UInt32.ofNat_add, UInt32.add_mul]
    grind
  have htoNat : (UInt32.ofNat (k + 1) * fourKb + kernelPtCfg).toNat = 4096 * (k + 1) + 11 := by
    rw [UInt32.toNat_add, toNat_ofNat_mul_fourKb (by omega), show kernelPtCfg.toNat = 11 from rfl]
    omega
  have heax : pt + UInt32.ofNat (4 * k) + 4 = pt + UInt32.ofNat (4 * (k + 1)) := by
    rw [Nat.mul_add, UInt32.ofNat_add, UInt32.add_assoc]
    rfl
  simp only [setUpKernelPt, setupAfter, hecx, heax, filled]
  rw [sle_eq (by omega) (by omega), htoNat]
  simp only [decide_eq_true_eq]
  apply if_congr _ rfl rfl
  rw [ptRounds]
  omega

/-- The loop from round `k` on. -/
theorem run_setUpKernelPt (hlow : 11 ≤ e.toNat) (hhigh : e.toNat < 2 ^ 30) {j : ℕ} (hj : k + j + 1 = ptRounds e) :
  Loop.run (setUpKernelPt e) (j + 1) (setupAfter m pt k) = some (setupAfter m pt (ptRounds e))
  := by
  have hround : setUpKernelPt e (setupAfter m pt k) = _ :=
    setUpKernelPt_setupAfter hlow hhigh (show k < ptRounds e by omega)
  induction j generalizing k with
  | zero =>
      rw [if_neg (by omega)] at hround
      rw [Loop.run_leave hround, ← hj]
  | succ j ih =>
      rw [if_pos (by omega)] at hround
      rw [Loop.run_continue hround]
      apply ih (by omega)
      apply setUpKernelPt_setupAfter hlow hhigh
      omega

/-! ### The page tables -/

/-- The words of `kernel_pt` and `kernel_pdt` when the kernel is loaded. -/
structure KernelImage (m : UInt32 → UInt32) (kernelPt : UInt32) : Prop where
  table : ∀ i < 1024, m (kernelPt + UInt32.ofNat (4 * i)) = 0
  idMap : m (kernelPt + fourKb) = kernelPdtIdMap
  dir : ∀ i < 1024, i ≠ 0 → m (kernelPt + fourKb + UInt32.ofNat (4 * i)) = 0

/-- Where the kernel is loaded: its page table and its directory are in it, and the page table has a word for each
round. -/
structure Placed (e pt : UInt32) : Prop where
  dvd : 4096 ∣ pt.toNat
  inside : pt.toNat + 8192 ≤ e.toNat
  fits : ptRounds e ≤ 1024

theorem Placed.lt (h : Placed e pt) :
  e.toNat < 2 ^ 22 + 11 ∧ pt.toNat / 4096 + 1 < ptRounds e
  := by
  obtain ⟨⟨k, hk⟩, hinside, hfits⟩ := h
  rw [ptRounds] at hfits ⊢
  omega

theorem Placed.toNat_pdt (h : Placed e pt) :
  (pt + fourKb).toNat = pt.toNat + 4096
  := by
  have hlt := h.lt
  have hinside := h.inside
  rw [UInt32.toNat_add, toNat_fourKb]
  omega

/-- The page table after the loop. -/
theorem framesOfWords_table (hm : KernelImage m pt) (hn : n ≤ 1024) (hi : i < 1024) :
  framesOfWords (filled (Function.update m (pt + fourKb + UInt32.ofNat (4 * kernelPdtIdx)) w) pt n) pt i =
    if i < n then createPtEntry (UInt32.ofNat i * fourKb) pagingReadWrite pagingPl0 else Entry.zero
  := by
  rw [framesOfWords]
  split
  case isTrue hin =>
    have hdvd : 4096 ∣ (UInt32.ofNat i * fourKb).toNat := by
      rw [toNat_ofNat_mul_fourKb (by omega)]
      exact Nat.dvd_mul_right 4096 i
    rw [filled_self hin (by omega), ofWord_add hdvd]
    rfl
  case isFalse hout =>
    rw [filled_of_ne, Function.update_of_ne, hm.table i hi, ofWord_zero]
    · rw [show fourKb = UInt32.ofNat (4 * 1024) from rfl, UInt32.add_assoc, ← UInt32.ofNat_add, ← Nat.mul_add,
        ne_eq, add_ofNat_inj (by omega) (by decide), kernelPdtIdx]
      omega
    · intro k hk
      rw [ne_eq, add_ofNat_inj (by omega) (by omega)]
      omega

/-- The directory after the loop, but for slot 0. -/
theorem framesOfWords_dir (hm : KernelImage m pt) (hpt : 4096 ∣ pt.toNat) (hn : n ≤ 1024) (hi : i < 1024)
    (hzero : i ≠ 0) :
  framesOfWords (filled (Function.update m (pt + fourKb + UInt32.ofNat (4 * kernelPdtIdx)) (pt ||| kernelPtCfg)) pt n)
      (pt + fourKb) i =
    if i = kernelPdtIdx then createPdtEntry pt ps4Kb pagingReadWrite pagingPl0 else Entry.zero
  := by
  have hother : ∀ k < n, pt + fourKb + UInt32.ofNat (4 * i) ≠ pt + UInt32.ofNat (4 * k) := by
    intro k hk
    rw [show fourKb = UInt32.ofNat (4 * 1024) from rfl, UInt32.add_assoc, ← UInt32.ofNat_add, ← Nat.mul_add,
      ne_eq, add_ofNat_inj (by omega) (by omega)]
    omega
  rw [framesOfWords, filled_of_ne hother]
  split
  case isTrue heq =>
    rw [heq, Function.update_self, or_kernelPtCfg hpt, ofWord_add hpt]
    rfl
  case isFalse hne =>
    rw [Function.update_of_ne, hm.dir i hi hzero, ofWord_zero]
    rwa [ne_eq, add_ofNat_inj (by omega) (by decide)]

/-- Addresses in the first 4 MB of the kernel half, by the page table. -/
theorem State.page_first {d v : UInt32} (hpt : 4096 ∣ pt.toNat)
    (hdir : s.mem d kernelPdtIdx = createPdtEntry pt ps4Kb pagingReadWrite pagingPl0)
    (htable : ∀ i < 1024, s.mem pt i =
      if i < n then createPtEntry (UInt32.ofNat i * fourKb) pagingReadWrite pagingPl0 else Entry.zero)
    (hv : virtualToPdtIdx v = kernelPdtIdx) :
  s.page d v = if virtualToPtIdx v < n then
    some (createPtEntry (UInt32.ofNat (virtualToPtIdx v) * fourKb) pagingReadWrite pagingPl0) else none
  := by
  have hidx := virtualToPtIdx_lt v
  rw [State.page, hv, hdir, isEntryPresent_createPdtEntry, paddr_createPdtEntry hpt, htable _ hidx]
  split
  · simp
  · simp

/-- The page tables that the loader leaves: the first `n` pages of the kernel half are those of the memory, and nothing
else is mapped. -/
structure Boots (s : State) (pt : UInt32) (n : ℕ) : Prop where
  kernelPdt : s.kernelPdt = pt + fourKb
  kernelPt : s.kernelPt = pt
  cr3 : s.cr3 = s.kernelPdt
  dir : ∀ i < 1024, s.mem s.kernelPdt i =
    if i = kernelPdtIdx then createPdtEntry pt ps4Kb pagingReadWrite pagingPl0 else Entry.zero
  table : ∀ i < 1024, s.mem pt i =
    if i < n then createPtEntry (UInt32.ofNat i * fourKb) pagingReadWrite pagingPl0 else Entry.zero

theorem Boots.page (h : Boots s pt n) (hpt : 4096 ∣ pt.toNat) (v : UInt32) :
  s.page s.kernelPdt v = if virtualToPdtIdx v = kernelPdtIdx ∧ virtualToPtIdx v < n then
    some (createPtEntry (UInt32.ofNat (virtualToPtIdx v) * fourKb) pagingReadWrite pagingPl0) else none
  := by
  by_cases hv : virtualToPdtIdx v = kernelPdtIdx
  · rw [State.page_first hpt (by rw [h.dir _ (by decide), if_pos rfl]) h.table hv]
    simp [hv]
  · rw [State.page, h.dir _ (virtualToPdtIdx_lt v), if_neg hv, isEntryPresent_zero, Bool.false_and,
      if_neg Bool.false_ne_true, if_neg (fun hall => hv hall.1)]

/-- The loop, from its start. -/
theorem run_loop (h : Placed e pt) (hn : ptRounds e ≤ n) :
  Loop.run (setUpKernelPt e) n ⟨pt, kernelPtCfg, m⟩ = some (setupAfter m pt (ptRounds e))
  := by
  obtain ⟨hlt, hpdt⟩ := h.lt
  have hinside := h.inside
  have hstart : setupAfter m pt 0 = ⟨pt, kernelPtCfg, m⟩ := by
    rw [setupAfter, filled]
    simp
  have hrun : Loop.run (setUpKernelPt e) (ptRounds e - 1 + 1) (setupAfter m pt 0) =
      some (setupAfter m pt (ptRounds e)) := run_setUpKernelPt (by omega) (by omega) (by omega)
  rw [hstart] at hrun
  exact Loop.run_mono hrun (by omega)

/-- In the higher half, slot 0 of the directory is cleared. -/
theorem higherHalf_boots (h : Placed e pt) (hkernelPdt : s.kernelPdt = pt + fourKb) (hkernelPt : s.kernelPt = pt)
    (hcr3 : s.cr3 = pt + fourKb)
    (hdir : ∀ i < 1024, i ≠ 0 → s.mem (pt + fourKb) i =
      if i = kernelPdtIdx then createPdtEntry pt ps4Kb pagingReadWrite pagingPl0 else Entry.zero)
    (htable : ∀ i < 1024, s.mem pt i =
      if i < ptRounds e then createPtEntry (UInt32.ofNat i * fourKb) pagingReadWrite pagingPl0 else Entry.zero) :
  ∃ s', higherHalf s = some s' ∧ s'.pfa = s.pfa ∧ Boots s' pt (ptRounds e)
  := by
  obtain ⟨hlt, hlast⟩ := h.lt
  have hinside := h.inside
  have hpdt := h.toNat_pdt
  have hpt := h.dvd
  have hdvd : 4096 ∣ (pt + fourKb).toNat := by
    rw [hpdt]
    exact Nat.dvd_add hpt (dvd_refl 4096)
  have hne : pt ≠ pt + fourKb := by
    rw [ne_eq, ← UInt32.toNat_inj]
    omega
  -- the directory itself is mapped by the page table
  have hvaddr : (kernelStartVaddr + (pt + fourKb)).toNat = 0xC0000000 + pt.toNat + 4096 := by
    rw [UInt32.toNat_add, hpdt]
    show (0xC0000000 + (pt.toNat + 4096)) % 2 ^ 32 = _
    omega
  have hslot : virtualToPdtIdx (kernelStartVaddr + (pt + fourKb)) = kernelPdtIdx := by
    rw [virtualToPdtIdx_eq, hvaddr, kernelPdtIdx]
    omega
  have hidx : virtualToPtIdx (kernelStartVaddr + (pt + fourKb)) = pt.toNat / 4096 + 1 := by
    rw [virtualToPtIdx_eq, hvaddr]
    omega
  have hself : UInt32.ofNat (pt.toNat / 4096 + 1) * fourKb = pt + fourKb := by
    rw [← UInt32.toNat_inj, toNat_ofNat_mul_fourKb (by omega), hpdt]
    omega
  have hslot₀ := hdir kernelPdtIdx (by decide) (by decide)
  rw [if_pos rfl] at hslot₀
  have hpage := State.page_first hpt hslot₀ htable hslot
  rw [hidx, if_pos hlast, hself] at hpage
  rw [higherHalf, hcr3, hkernelPdt, hpage, Option.map_some, paddr_createPtEntry hdvd]
  refine ⟨_, rfl, rfl, hkernelPdt, hkernelPt, by rw [State.set, hcr3, hkernelPdt], ?_, ?_⟩
  · intro i hi
    simp only [State.set, hkernelPdt, Function.update_self]
    by_cases hzero : i = 0
    · rw [hzero, Function.update_self, if_neg (by decide)]
    · rw [Function.update_of_ne hzero]
      exact hdir i hi hzero
  · intro i hi
    simp only [State.set]
    rw [Function.update_of_ne hne]
    exact htable i hi

/-- The loader reaches `kmain`. -/
theorem loader_boots (pfa : Pfa.State) (h : Placed e pt) (hm : KernelImage m pt) (hn : ptRounds e ≤ n) :
  ∃ s, loader pfa e pt m n = some s ∧ s.pfa = pfa ∧ Boots s pt (ptRounds e)
  := by
  have hpdt := h.toNat_pdt
  have hmask : (pt + fourKb) &&& 0xFFFFF000 = pt + fourKb := by
    have hpt := h.dvd
    rw [← UInt32.toNat_inj, toNat_and_mask]
    omega
  rw [loader, run_loop h hn, Option.bind_eq_bind, Option.bind_some, setupAfter, hmask]
  apply higherHalf_boots h
  · rfl
  · rfl
  · rfl
  · exact fun i hi hzero => framesOfWords_dir hm h.dvd h.fits hi hzero
  · exact fun i hi => framesOfWords_table hm h.fits hi

/-! ### The kernel -/

/-- The pages of the kernel half that the loader maps can be written, and only by the kernel. -/
theorem Boots.rights (h : Boots s pt n) (hpt : 4096 ∣ pt.toNat) (v : UInt32) :
  s.rights s.cr3 v = if virtualToPdtIdx v = kernelPdtIdx ∧ virtualToPtIdx v < n then some (true, false) else none
  := by
  obtain ⟨huser, hwritable⟩ := access_createPtEntry (UInt32.ofNat (virtualToPtIdx v) * fourKb) pagingReadWrite pagingPl0
  obtain ⟨huser', hwritable'⟩ := access_createPdtEntry pt pagingReadWrite pagingPl0
  rw [State.rights, h.cr3, h.page hpt]
  split
  case isTrue hv =>
    rw [Option.map_some, hv.1, h.dir _ (by decide), if_pos rfl, huser, hwritable, huser', hwritable']
    rfl
  case isFalse => rfl

/-- The loader maps the pages of a kernel in the first 4 MB, to where the addresses say and for the kernel only, and
nothing else; the last page is among them exactly when the kernel fills it, or more than ten bytes of it. -/
theorem kernel_mapped_iff (h : Placed e pt) (hm : KernelImage m pt) :
  ∃ s, loader pfa e pt m 1024 = some s ∧
    (∀ v : UInt32, s.resolve v = if 0xC0000000 ≤ v.toNat ∧ v.toNat < 0xC0000000 + 4096 * ptRounds e then
      some (UInt32.ofNat ((v.toNat - 0xC0000000) / 4096) * fourKb) else none) ∧
    (∀ v : UInt32, s.rights s.cr3 v = if 0xC0000000 ≤ v.toNat ∧ v.toNat < 0xC0000000 + 4096 * ptRounds e then
      some (true, false) else none) ∧
    ((∀ p < e.toNat, (s.resolve (UInt32.ofNat (0xC0000000 + p))).isSome) ↔
      e.toNat % 4096 = 0 ∨ 10 < e.toNat % 4096)
  := by
  obtain ⟨hlt, hlast⟩ := h.lt
  have hinside := h.inside
  have hfits : ptRounds e ≤ 1024 := h.fits
  obtain ⟨s, hs, -, hboots⟩ := loader_boots pfa h hm hfits
  have hin : ∀ v : UInt32, virtualToPdtIdx v = kernelPdtIdx ∧ virtualToPtIdx v < ptRounds e ↔
      0xC0000000 ≤ v.toNat ∧ v.toNat < 0xC0000000 + 4096 * ptRounds e := by
    intro v
    rw [virtualToPdtIdx_eq, virtualToPtIdx_eq, kernelPdtIdx]
    have hv := v.toNat_lt
    omega
  have hresolve : ∀ v : UInt32, s.resolve v =
      if 0xC0000000 ≤ v.toNat ∧ v.toNat < 0xC0000000 + 4096 * ptRounds e then
        some (UInt32.ofNat ((v.toNat - 0xC0000000) / 4096) * fourKb) else none := by
    intro v
    rw [State.resolve, hboots.page h.dvd, if_congr (hin v) rfl rfl]
    split
    case isTrue hv =>
      have hdvd : 4096 ∣ (UInt32.ofNat (virtualToPtIdx v) * fourKb).toNat := by
        rw [toNat_ofNat_mul_fourKb (by have := virtualToPtIdx_lt v; omega)]
        exact Nat.dvd_mul_right 4096 _
      rw [Option.map_some, paddr_createPtEntry hdvd, virtualToPtIdx_eq,
        show v.toNat / 4096 % 1024 = (v.toNat - 0xC0000000) / 4096 by omega]
    case isFalse => rfl
  refine ⟨s, hs, hresolve, ?_, ?_⟩
  · intro v
    rw [hboots.rights h.dvd, if_congr (hin v) rfl rfl]
  have hsome : ∀ p < e.toNat, (s.resolve (UInt32.ofNat (0xC0000000 + p))).isSome ↔ p < 4096 * ptRounds e := by
    intro p hp
    have htoNat : (UInt32.ofNat (0xC0000000 + p)).toNat = 0xC0000000 + p := by
      rw [UInt32.toNat_ofNat']
      omega
    rw [hresolve, htoNat]
    split
    case isTrue hin => simp only [Option.isSome_some, true_iff]; omega
    case isFalse hout => simp only [Option.isSome_none, Bool.false_eq_true, false_iff]; omega
  rw [ptRounds] at hsome
  constructor
  · intro hall
    have hend := (hsome (e.toNat - 1) (by omega)).mp (hall _ (by omega))
    omega
  · intro hmod p hp
    rw [hsome p hp]
    omega

/-- A memory in which only the page tables of a kernel at 1 MB matter. -/
def bareImage : UInt32 → UInt32 := fun w =>
  if w = 0x102000 then kernelPdtIdMap else 0

theorem kernelImage_bareImage :
  KernelImage bareImage 0x101000
  := by
  have hother : ∀ w : UInt32, w.toNat ≠ 0x102000 → bareImage w = 0 := by
    intro w hw
    exact if_neg fun heq => hw (by rw [heq]; rfl)
  refine ⟨?_, rfl, ?_⟩
  · intro i hi
    apply hother
    rw [UInt32.toNat_add, UInt32.toNat_ofNat']
    show (0x101000 + 4 * i % 2 ^ 32) % 2 ^ 32 ≠ 0x102000
    omega
  · intro i hi hzero
    apply hother
    rw [UInt32.toNat_add, UInt32.toNat_ofNat']
    show (0x102000 + 4 * i % 2 ^ 32) % 2 ^ 32 ≠ 0x102000
    omega

/-- A kernel of 64 KB and four bytes: its last page is not mapped. -/
theorem kernel_mapped_iff_fourBytes :
  ∃ s, loader ⟨fun _ => 0, 0, []⟩ 0x110004 0x101000 bareImage 1024 = some s ∧
    ¬ ∀ p < 0x110004, (s.resolve (UInt32.ofNat (0xC0000000 + p))).isSome
  := by
  have hplaced : Placed 0x110004 0x101000 := ⟨by decide, by decide, by decide⟩
  obtain ⟨s, hs, -, -, hiff⟩ := kernel_mapped_iff hplaced kernelImage_bareImage
  refine ⟨s, hs, ?_⟩
  intro hall
  rcases hiff.mp hall with hmod | hmod
  · exact absurd hmod (by decide)
  · exact absurd hmod (by decide)

/-! ### Mapping more pages -/

section Boots

variable {v size : UInt32}

theorem Boots.has_iff (h : Boots s pt n) {i : ℕ} (hi : i < 1024) :
  s.has s.kernelPdt i ↔ i = kernelPdtIdx
  := by
  rw [State.has, h.dir i hi]
  split
  case isTrue heq => simp [heq]
  case isFalse hne => simp [hne]

/-- The directory and the page table are different frames. -/
theorem Boots.ne (h : Boots s pt n) (hplaced : Placed e pt) :
  s.kernelPdt ≠ s.kernelPt
  := by
  have hpdt := hplaced.toNat_pdt
  rw [h.kernelPdt, h.kernelPt, ne_eq, ← UInt32.toNat_inj]
  omega

theorem Boots.table_eq (h : Boots s pt n) (hpt : 4096 ∣ pt.toNat) :
  s.table s.kernelPdt kernelPdtIdx = s.kernelPt
  := by
  rw [State.table, h.dir _ (by decide), if_pos rfl, paddr_createPdtEntry hpt, h.kernelPt]

/-- The directory and the page table of the kernel are separate from what the allocator has. -/
theorem Boots.separate (h : Boots s pt n) (hpt : 4096 ∣ pt.toNat) (hne : s.kernelPdt ≠ s.kernelPt)
    (hpdt : s.kernelPdt.toNat ∉ s.pfa.free) (hused : s.kernelPt.toNat ∉ s.pfa.free) :
  Separate s s.kernelPdt
  := by
  have htable : ∀ i < 1024, s.has s.kernelPdt i → i = kernelPdtIdx ∧ s.table s.kernelPdt i = s.kernelPt := by
    intro i hi hhas
    obtain rfl := (h.has_iff hi).mp hhas
    exact ⟨rfl, h.table_eq hpt⟩
  refine ⟨hpdt, hused, hne, ?_, ?_, ?_⟩
  · intro i hi hhas
    rwa [(htable i hi hhas).2]
  · intro i hi hhas
    rw [(htable i hi hhas).2]
    exact hne.symm
  · intro i hi j hj hhas hhas' _
    rw [(htable i hi hhas).1, (htable j hj hhas').1]

/-- The pages behind those of the kernel are the first that are found, and can be mapped without another page table. -/
theorem Boots.find_map (h : Boots s pt n) (hpt : 4096 ∣ pt.toNat) (hpfa : Pfa.FrameMap s.pfa)
    (hseparate : Separate s s.kernelPdt) (hpos : 0 < pages size) (hroom : n + pages size ≤ kernelTmpPtIdx)
    (paddr : UInt32) (rw pl : UInt8) :
  ∃ v s', v ≠ 0 ∧ pdtKernelFindNextVaddr s size = (v, s) ∧
    pdtMapKernelMemory s paddr v size rw pl = (alignUp size fourKb, s') ∧ Pfa.SameMap s.pfa s'.pfa ∧
    SameVars s s' ∧ ∀ i < 1024, s'.mem s.kernelPdt i = s.mem s.kernelPdt i
  := by
  rw [kernelTmpPtIdx] at hroom
  have hhas := (h.has_iff (show kernelPdtIdx < 1024 by decide)).mpr rfl
  have htable := h.table_eq hpt
  have hfirst : s.Room kernelPdtIdx (pages size) := by
    intro _
    rw [htable, h.kernelPt]
    refine ⟨n, by omega, ?_, fun _ => by rw [kernelTmpPtIdx]; omega⟩
    intro i hi hlt
    rw [h.table i (by omega), if_neg (by omega)]
    refine ⟨rfl, ?_⟩
    rintro ⟨-, hidx⟩
    rw [kernelTmpPtIdx] at hidx
    omega
  obtain ⟨v, hfind, hzero, hspace⟩ := pdtKernelFindNextVaddr_first (s := s) hpos
  have hne : v ≠ 0 := fun heq => hzero heq kernelPdtIdx le_rfl (by decide) hfirst
  obtain ⟨i, j, ⟨hle, hi, -, hbefore⟩, hv, hfree⟩ := hspace hne
  obtain rfl : i = kernelPdtIdx := by
    by_contra hother
    exact hbefore kernelPdtIdx le_rfl (by omega) hfirst
  have hend : j + pages size ≤ 1024 := by
    rw [State.Free, if_pos hhas] at hfree
    exact hfree.2.1
  obtain ⟨hvi, hvj⟩ := virtualToIdx_of_slot hpos hv hend
  have hdir : Dir s s.kernelPdt := by
    refine ⟨hseparate, ?_⟩
    exact fun k hk hhas' _ => (h.has_iff hk).mp hhas'
  have hmappable := mappable_of_room hpos hv hend hi hdir hhas (fun hnot => absurd hhas hnot) hfree
  obtain ⟨m, s', s'', r, hrun, hout⟩ := pdtMapMemory_outcome hpfa hseparate paddr v size rw pl
  obtain rfl := hout.eq_of_mappable hseparate (pages_lt size) hmappable
  have hmaps := hout.maps
  rcases hout.stop with ⟨-, rfl, rfl⟩ | ⟨hlt, -⟩
  case inr => exact absurd hlt (lt_irrefl _)
  refine ⟨v, s'', hne, hfind, hrun, hmaps.map, hmaps.vars, ?_⟩
  intro k hk
  by_cases hold : s.has s.kernelPdt k
  · exact hmaps.kept k hk hold
  · rcases hmaps.opened k hk hold with heq | ⟨-, -, -, -, -, u, hu, hidx⟩
    · exact heq
    · rw [pageOff_lt_iff (by omega), hidx, hvi] at hu
      exact absurd ((h.has_iff hk).mpr hu.1) hold

end Boots

end Paging
