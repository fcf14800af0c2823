import Aenix.Paging.Terminates

/-!
# Clearing exactly the range

`pdt_unmap_memory` hands the size of the whole range to `pt_unmap_memory` for each slot.  In the
last slot of a range that begins in an earlier one, as many pages are cleared as the range has, from
the beginning of the slot on: pages after the range go too (`unmap_memory_exact_iff`).
-/

open Aenix

namespace Paging

variable {s s' : State} {d vaddr size : UInt32} {a p : ℕ}

/-- The page after the last one that is cleared, for the `p` pages from page `a` on. -/
def clearedEnd (a p : ℕ) : ℕ :=
  if (a + p - 1) / 1024 = a / 1024 then
    a + p
  else
    1024 * ((a + p - 1) / 1024) + cleared ((a + p - 1) / 1024) 0 p

/-- Exactly the `p` pages from `vaddr` on have lost their translations, and the page tables that
are freed are those of slots without pages. -/
structure ClearsExactly (s s' : State) (d vaddr : UInt32) (p : ℕ) : Prop where
  inside : ∀ v, pageOff vaddr v < p → s'.page d v = none
  outside : ∀ v, ¬ pageOff vaddr v < p → s'.page d v = s.page d v
  freed : ∀ f ∈ s'.pfa.free, f ∉ s.pfa.free → ∃ i < 1024, s.has d i ∧ f = (s.table d i).toNat ∧
    ∀ v, virtualToPdtIdx v = i → s'.page d v = none

/-! ### The pages that the loop clears -/

/-- The pages from `a` up to `x` have lost their translations, and the slots from that of `x` on
are as before. -/
structure Cleared (s s' : State) (d : UInt32) (a x : ℕ) : Prop where
  unmaps : Unmaps s s' d
  page : ∀ v : UInt32, s'.page d v =
    if a ≤ v.toNat / 4096 ∧ v.toNat / 4096 < x then none else s.page d v
  entry : ∀ i < 1024, x ≤ 1024 * i + 1023 → s'.mem d i = s.mem d i

theorem Cleared.refl (h : Dir s d) (a : ℕ) :
  Cleared s s d a a
  := by
  refine ⟨Unmaps.refl h, ?_, fun _ _ _ => rfl⟩
  intro v
  rw [if_neg (by omega)]

/-- A round that begins at page `x`. -/
theorem Cleared.round {x m : ℕ} (h : Cleared s s' d a x) (hpfa : Pfa.FrameMap s.pfa)
    (hm : Managed s d) (hax : a ≤ x) (hx : x < 2 ^ 20) (hhas : s.has d (x / 1024))
    (hle : m ≤ 1024 - x % 1024) :
  Cleared s (s'.withoutPages d (x / 1024) (x % 1024) m) d a (x + m)
  := by
  have hi : x / 1024 < 1024 := by omega
  have hhas' : s'.has d (x / 1024) := by
    rw [State.has, h.entry _ hi (by omega)]
    exact hhas
  have hne := h.unmaps.dir.table_ne _ hi hhas'
  refine ⟨h.unmaps.trans (h.unmaps.dir.unmaps_withoutPages (h.unmaps.map.frameMap hpfa)
    (h.unmaps.managed hm) hi hhas' (by omega)), ?_, ?_⟩
  · intro v
    rw [h.unmaps.dir.withoutPages_page hi hhas' v (by omega), virtualToPdtIdx_eq, virtualToPtIdx_eq,
      h.page]
    by_cases hin : a ≤ v.toNat / 4096 ∧ v.toNat / 4096 < x + m
    · rw [if_pos hin]
      by_cases hbefore : v.toNat / 4096 < x
      · split
        · rfl
        · rw [if_pos ⟨hin.1, hbefore⟩]
      · rw [if_pos (by omega)]
    · rw [if_neg hin, if_neg (by omega), if_neg (by omega)]
  · intro i hi' hle'
    rw [State.withoutPages_mem_dir hne]
    split
    case isTrue hall =>
      rw [Function.update_of_ne (by omega)]
      exact h.entry i hi' (by omega)
    case isFalse => exact h.entry i hi' (by omega)

/-- Where the loop is: at the first page, at the beginning of a later slot, or past the range. -/
structure Clearing (s : State) (d : UInt32) (a p : ℕ) (u : Unmapping) (x : ℕ) : Prop where
  addr : u.vaddr.toNat = 4096 * x
  ge : a ≤ x
  cleared : Cleared s u.state d a x
  place : (x < a + p ∧ (x = a ∨ x % 1024 = 0)) ∨ (a + p ≤ x ∧ x = clearedEnd a p)

/-- How far a round gets. -/
theorem clearing_next {x : ℕ} (hend : a + p < 2 ^ 20) (hpos : 0 < p)
    (hlast : 1024 * 1023 < a + p → p < 1024)
    (htmp : a ≤ 1024 * 768 + 1023 → a + p ≤ 1024 * 768 + 1023) (hax : a ≤ x) (hlt : x < a + p)
    (hplace : x = a ∨ x % 1024 = 0) :
  x + Paging.cleared (x / 1024) (x % 1024) p < 2 ^ 20 ∧
    ((x + Paging.cleared (x / 1024) (x % 1024) p < a + p ∧
        (x + Paging.cleared (x / 1024) (x % 1024) p) % 1024 = 0) ∨
      (a + p ≤ x + Paging.cleared (x / 1024) (x % 1024) p ∧
        x + Paging.cleared (x / 1024) (x % 1024) p = clearedEnd a p))
  := by
  have hdiv : ∀ m, (a + p - 1) / 1024 = m ↔ 1024 * m < a + p ∧ a + p ≤ 1024 * m + 1024 := by
    intro m
    omega
  by_cases hidx : x / 1024 = 768
  · have hm := Walk.cleared_kernelPdtIdx (x % 1024) p
    have hm' := Walk.cleared_kernelPdtIdx 0 p
    have hslot : (a + p - 1) / 1024 = 768 := by omega
    rw [hidx, hm, clearedEnd, hslot, hm']
    split
    · omega
    · omega
  · have hm := Walk.cleared_of_ne hidx (x % 1024) p
    rw [hm]
    by_cases hslot : (a + p - 1) / 1024 = x / 1024
    · have hm' := Walk.cleared_of_ne hidx 0 p
      rw [clearedEnd, hslot, hm']
      split
      · omega
      · omega
    · omega

theorem Clearing.step {x : ℕ} {u u' : Unmapping} (h : Clearing s d a p u x)
    (hpfa : Pfa.FrameMap s.pfa) (hm : Managed s d) (hsize : size.toNat = 4096 * p)
    (hend : a + p < 2 ^ 20) (hlast : 1024 * 1023 < a + p → p < 1024)
    (htmp : a ≤ 1024 * 768 + 1023 → a + p ≤ 1024 * 768 + 1023)
    (hhas : ∀ q, a ≤ q → q < a + p → s.has d (q / 1024)) {endVaddr : UInt32}
    (hendVaddr : endVaddr.toNat = 4096 * (a + p))
    (hbody : pdtUnmapMemoryBody d size endVaddr u = .inl u') :
  ∃ x', Clearing s d a p u' x'
  := by
  rw [pdtUnmapMemoryBody] at hbody
  split at hbody
  case isFalse => simp at hbody
  case isTrue hlt =>
    have haddr := h.addr
    have hax := h.ge
    have hx : x < a + p := by
      rw [UInt32.lt_iff_toNat_lt, h.addr, hendVaddr] at hlt
      omega
    have hplace : x = a ∨ x % 1024 = 0 := by
      rcases h.place with ⟨-, hplace⟩ | ⟨hle, -⟩
      · exact hplace
      · omega
    have hslot : virtualToPdtIdx u.vaddr = x / 1024 := by
      rw [virtualToPdtIdx_eq]
      omega
    have hidx : virtualToPtIdx u.vaddr = x % 1024 := by
      rw [virtualToPtIdx_eq]
      omega
    have hi : x / 1024 < 1024 := by omega
    have hhas' : u.state.has d (x / 1024) := by
      rw [State.has, h.cleared.entry _ hi (by omega)]
      exact hhas x hax hx
    rw [if_pos (by rwa [hslot])] at hbody
    rw [unmapRound_has hsize (by
      rw [hslot]
      exact h.cleared.unmaps.dir.table_pt _ hi hhas'), hslot, hidx] at hbody
    obtain rfl := Sum.inl.inj hbody
    obtain ⟨hbound, hnext⟩ := clearing_next hend (by omega) hlast htmp hax hx hplace
    have hle := cleared_le (x / 1024) (x % 1024) p
    refine ⟨x + Paging.cleared (x / 1024) (x % 1024) p, ?_, by omega,
      h.cleared.round hpfa hm hax (by omega) (hhas x hax hx) hle.2, ?_⟩
    · rw [UInt32.toNat_add, toNat_ofNat_mul_fourKb (by omega)]
      omega
    · rcases hnext with ⟨hlt', hzero⟩ | ⟨hge, heq⟩
      · exact Or.inl ⟨hlt', Or.inr hzero⟩
      · exact Or.inr ⟨hge, heq⟩

/-- Where the loop is left, it has come past the range. -/
theorem Clearing.leave {x : ℕ} {u : Unmapping} {res : UInt32 × State} (h : Clearing s d a p u x)
    {endVaddr : UInt32} (hendVaddr : endVaddr.toNat = 4096 * (a + p))
    (hbody : pdtUnmapMemoryBody d size endVaddr u = .inr res) :
  Cleared s res.2 d a (clearedEnd a p)
  := by
  rw [pdtUnmapMemoryBody] at hbody
  split at hbody
  case isTrue =>
    split at hbody
    · simp at hbody
    · simp at hbody
  case isFalse hge =>
    obtain rfl := Sum.inr.inj hbody
    rw [UInt32.lt_iff_toNat_lt, h.addr, hendVaddr] at hge
    rcases h.place with ⟨hlt, -⟩ | ⟨-, heq⟩
    · omega
    · rw [← heq]
      exact h.cleared

/-! ### Clearing exactly the range -/

section Range

variable (hvaddr : 4096 ∣ vaddr.toNat) (hend : vaddr.toNat + 4096 * pages size < 2 ^ 32)

include hvaddr hend

theorem pageOff_lt_iff_page (v : UInt32) :
  pageOff vaddr v < pages size ↔ vaddr.toNat / 4096 ≤ v.toNat / 4096 ∧
    v.toNat / 4096 < vaddr.toNat / 4096 + pages size
  := by
  have hv := v.toNat_lt
  rw [pageOff]
  omega

/-- A property of the pages of the range, by the number of the page. -/
theorem exists_of_page {P : UInt32 → Prop} (hP : ∀ v, pageOff vaddr v < pages size → P v) {q : ℕ}
    (hq : vaddr.toNat / 4096 ≤ q) (hlt : q < vaddr.toNat / 4096 + pages size) :
  ∃ v : UInt32, v.toNat = 4096 * q ∧ P v
  := by
  have hv : (UInt32.ofNat (4096 * q)).toNat = 4096 * q := by
    rw [UInt32.toNat_ofNat']
    omega
  refine ⟨UInt32.ofNat (4096 * q), hv, hP _ ?_⟩
  rw [pageOff_lt_iff_page hvaddr hend, hv]
  omega

/-- A range that avoids the temporary page ends before it, or begins after it. -/
theorem range_before_tmp (htmp : ∀ v, pageOff vaddr v < pages size →
      ¬ (virtualToPdtIdx v = kernelPdtIdx ∧ virtualToPtIdx v = kernelTmpPtIdx))
    (ha : vaddr.toNat / 4096 ≤ 1024 * 768 + 1023) :
  vaddr.toNat / 4096 + pages size ≤ 1024 * 768 + 1023
  := by
  by_contra hgt
  obtain ⟨v, hv, hnot⟩ := exists_of_page hvaddr hend htmp ha (by omega)
  apply hnot
  rw [virtualToPdtIdx_eq, virtualToPtIdx_eq, hv, kernelPdtIdx, kernelTmpPtIdx]
  omega

theorem range_has (hhas : ∀ v, pageOff vaddr v < pages size → s.has d (virtualToPdtIdx v)) {q : ℕ}
    (hq : vaddr.toNat / 4096 ≤ q) (hlt : q < vaddr.toNat / 4096 + pages size) :
  s.has d (q / 1024)
  := by
  obtain ⟨v, hv, hsome⟩ := exists_of_page hvaddr hend hhas hq hlt
  rw [virtualToPdtIdx_eq, hv] at hsome
  rwa [Nat.mul_div_cancel_left q (by decide)] at hsome

/-- The loop is left unless it clears the last slot of the address space to its end. -/
theorem ends_iff (htmp : ∀ v, pageOff vaddr v < pages size →
      ¬ (virtualToPdtIdx v = kernelPdtIdx ∧ virtualToPtIdx v = kernelTmpPtIdx))
    (hhas : ∀ v, pageOff vaddr v < pages size → s.has d (virtualToPdtIdx v))
    (hpos : 0 < pages size) :
  Walk.Ends (fun i => (s.mem d i).isEntryPresent) (pages size) vaddr.toNat ↔
    (1024 * 1023 < vaddr.toNat / 4096 + pages size → pages size < 1024)
  := by
  have hzero : vaddr.toNat % 4096 = 0 := by omega
  have hfirst : s.has d (vaddr.toNat / 0x400000) := by
    have hsome := range_has hvaddr hend hhas le_rfl (by omega)
    rwa [Nat.div_div_eq_div_mul] at hsome
  have hbefore := range_before_tmp hvaddr hend htmp
  rw [Walk.Ends, or_iff_right hpos.ne', or_iff_right (by omega), if_pos hfirst, hzero,
    Walk.passes_zero_iff, and_iff_right (by rw [kernelPdtIdx]; omega)]
  constructor
  · intro hsolid hlt
    apply hsolid.last
    omega
  · intro hlast
    refine ⟨?_, ?_, ?_⟩
    · intro i hi hlt
      have hsome := range_has hvaddr hend hhas (q := 1024 * i) (by omega) (by omega)
      rwa [Nat.mul_div_cancel_left i (by decide)] at hsome
    · rw [kernelPdtIdx]
      omega
    · intro hlt
      apply hlast
      omega

end Range

/-- When the loop is left, the pages up to `clearedEnd` are cleared. -/
theorem pdtUnmapMemory_cleared (hpfa : Pfa.FrameMap s.pfa) (h : Dir s d) (hm : Managed s d)
    (hvaddr : 4096 ∣ vaddr.toNat) (hend : vaddr.toNat + 4096 * pages size < 2 ^ 32)
    (htmp : ∀ v, pageOff vaddr v < pages size →
      ¬ (virtualToPdtIdx v = kernelPdtIdx ∧ virtualToPtIdx v = kernelTmpPtIdx))
    (hhas : ∀ v, pageOff vaddr v < pages size → s.has d (virtualToPdtIdx v))
    (hpos : 0 < pages size)
    (hlast : 1024 * 1023 < vaddr.toNat / 4096 + pages size → pages size < 1024) {n : ℕ} {r : UInt32}
    (hrun : pdtUnmapMemory n s d vaddr size = some (r, s')) :
  Cleared s s' d (vaddr.toNat / 4096) (clearedEnd (vaddr.toNat / 4096) (pages size))
  := by
  have hsize := toNat_alignUp_fourKb size
  have hendVaddr : (vaddr + alignUp size fourKb).toNat =
      4096 * (vaddr.toNat / 4096 + pages size) := by
    rw [UInt32.toNat_add, hsize]
    omega
  have hstart : Clearing s d (vaddr.toNat / 4096) (pages size) ⟨vaddr, 0, s⟩ (vaddr.toNat / 4096) := by
    refine ⟨?_, le_rfl, Cleared.refl h _, Or.inl ⟨by omega, Or.inl rfl⟩⟩
    show vaddr.toNat = 4096 * (vaddr.toNat / 4096)
    omega
  refine Loop.run_of_invariant
    (fun u => ∃ x, Clearing s d (vaddr.toNat / 4096) (pages size) u x)
    (fun res => Cleared s res.2 d (vaddr.toNat / 4096)
      (clearedEnd (vaddr.toNat / 4096) (pages size))) ?_ ?_ ⟨_, hstart⟩ hrun
  · rintro u u' ⟨x, hx⟩ hbody
    exact hx.step hpfa hm hsize (by omega) hlast (range_before_tmp hvaddr hend htmp)
      (fun q hq hlt => range_has hvaddr hend hhas hq hlt) hendVaddr hbody
  · rintro u res ⟨x, hx⟩ hbody
    exact hx.leave hendVaddr hbody

/-- When `pdt_unmap_memory` returns that begins in a slot with a page table or at the beginning of a slot, nothing
has been done, or the range ends in the address space, avoids the temporary page and has a page table for each slot. -/
theorem range_of_returns (h : Dir s d) (hvaddr : 4096 ∣ vaddr.toNat)
    (hstart : s.has d (virtualToPdtIdx vaddr) ∨ virtualToPtIdx vaddr = 0) {n : ℕ} {r : UInt32}
    (hrun : pdtUnmapMemory n s d vaddr size = some (r, s')) :
  s' = s ∨ (0 < pages size ∧ vaddr.toNat + 4096 * pages size < 2 ^ 32 ∧
    ∀ v, pageOff vaddr v < pages size → s.has d (virtualToPdtIdx v) ∧
      ¬ (virtualToPdtIdx v = kernelPdtIdx ∧ virtualToPtIdx v = kernelTmpPtIdx))
  := by
  have hlt := vaddr.toNat_lt
  have hends := (pdtUnmapMemory_halts_iff h.table_ne).mp ⟨_, n, hrun⟩
  by_cases hstay : pages size = 0 ∨ 2 ^ 32 ≤ vaddr.toNat + 4096 * pages size
  · -- the end of the range is not above its beginning
    left
    have hpages := pages_lt size
    have hleave : ¬ vaddr < vaddr + alignUp size fourKb := by
      rw [UInt32.lt_iff_toNat_lt, UInt32.toNat_add, toNat_alignUp_fourKb]
      omega
    have hres := Loop.Returns.unique ⟨n, hrun⟩ ⟨1, Loop.run_leave (by
      simp only [pdtUnmapMemoryBody]
      rw [if_neg hleave]) 0⟩
    exact (Prod.mk.inj hres).2
  · right
    have hpos : 0 < pages size := by omega
    have hend : vaddr.toNat + 4096 * pages size < 2 ^ 32 := by omega
    have hidx : vaddr.toNat / 0x400000 = virtualToPdtIdx vaddr := by rw [virtualToPdtIdx_eq, Nat.div_div_eq_div_mul]
    rw [Walk.Ends, or_iff_right hpos.ne', or_iff_right (by omega), hidx] at hends
    refine ⟨hpos, hend, ?_⟩
    split at hends
    case isFalse habsent =>
      rcases hstart with hhas | hzero
      · exact absurd hhas habsent
      · rw [virtualToPtIdx_eq] at hzero
        omega
    case isTrue hfirst =>
      obtain ⟨htmp, hpasses⟩ := hends
      rw [Nat.mod_eq_zero_of_dvd hvaddr, Walk.passes_zero_iff] at hpasses
      rw [Nat.mod_eq_zero_of_dvd hvaddr, kernelPdtIdx] at htmp
      intro v hv
      rw [pageOff_lt_iff_page hvaddr hend] at hv
      rw [virtualToPdtIdx_eq] at htmp hfirst hpasses
      constructor
      · rw [virtualToPdtIdx_eq]
        by_cases heq : v.toNat / 4096 / 1024 = vaddr.toNat / 4096 / 1024
        · rw [heq]
          exact hfirst
        · apply hpasses.present
          · omega
          · omega
      · rintro ⟨hi, hj⟩
        rw [virtualToPdtIdx_eq, kernelPdtIdx] at hi
        rw [virtualToPtIdx_eq, kernelTmpPtIdx] at hj
        by_cases heq : vaddr.toNat / 4096 / 1024 = 768
        · have hle := htmp heq
          omega
        · have hle := hpasses.spared (by rw [kernelPdtIdx]; omega)
          omega

/-- When `pdt_unmap_memory` returns that begins in a slot with a page table or at the beginning of a slot, the pages
before the range are as they were. -/
theorem pdtUnmapMemory_before (hpfa : Pfa.FrameMap s.pfa) (h : Dir s d) (hm : Managed s d)
    (hvaddr : 4096 ∣ vaddr.toNat)
    (hstart : s.has d (virtualToPdtIdx vaddr) ∨ virtualToPtIdx vaddr = 0) {n : ℕ} {r : UInt32}
    (hrun : pdtUnmapMemory n s d vaddr size = some (r, s')) {v : UInt32}
    (hv : v.toNat / 4096 < vaddr.toNat / 4096) :
  s'.page d v = s.page d v
  := by
  rcases range_of_returns h hvaddr hstart hrun with rfl | ⟨hpos, hend, hrange⟩
  · rfl
  · have hhas := fun u hu => (hrange u hu).1
    have htmp := fun u hu => (hrange u hu).2
    have hlast := (ends_iff hvaddr hend htmp hhas hpos).mp
      ((pdtUnmapMemory_halts_iff h.table_ne).mp ⟨_, n, hrun⟩)
    have hcleared := pdtUnmapMemory_cleared hpfa h hm hvaddr hend htmp hhas hpos hlast hrun
    rw [hcleared.page, if_neg (by omega)]

/-- Page tables are only freed for slots without pages. -/
theorem Unmaps.freed_empty (h : Unmaps s s' d) {f : ℕ} (hf : f ∈ s'.pfa.free)
    (hnot : f ∉ s.pfa.free) :
  ∃ i < 1024, s.has d i ∧ f = (s.table d i).toNat ∧
    ∀ v, virtualToPdtIdx v = i → s'.page d v = none
  := by
  rcases h.freed f hf with hold | ⟨i, hi, -, hhas, hgone, heq⟩
  · exact absurd hold hnot
  · refine ⟨i, hi, hhas, heq, ?_⟩
    rintro v rfl
    exact State.page_of_not_has hgone

theorem le_clearedEnd (hend : a + p < 2 ^ 20) (hpos : 0 < p)
    (htmp : a ≤ 1024 * 768 + 1023 → a + p ≤ 1024 * 768 + 1023) :
  a + p ≤ clearedEnd a p
  := by
  rw [clearedEnd]
  split
  case isTrue => exact le_rfl
  case isFalse hne =>
    by_cases hidx : (a + p - 1) / 1024 = 768
    · rw [hidx, Walk.cleared_kernelPdtIdx]
      omega
    · rw [Walk.cleared_of_ne hidx]
      omega

/-- For a range that ends in the address space, avoids the temporary page and has a page table for
each slot: `pdt_unmap_memory` returns and clears exactly the range, if and only if a range of 4 MB
or more does not end in the last slot, and the pages between the end of the range and the last page
that is cleared had no translation. -/
theorem unmap_memory_exact_iff (hpfa : Pfa.FrameMap s.pfa) (h : Dir s d) (hm : Managed s d)
    (hvaddr : 4096 ∣ vaddr.toNat) (hend : vaddr.toNat + 4096 * pages size < 2 ^ 32)
    (htmp : ∀ v, pageOff vaddr v < pages size →
      ¬ (virtualToPdtIdx v = kernelPdtIdx ∧ virtualToPtIdx v = kernelTmpPtIdx))
    (hhas : ∀ v, pageOff vaddr v < pages size → s.has d (virtualToPdtIdx v)) :
  (∃ n r s', pdtUnmapMemory n s d vaddr size = some (r, s') ∧
      ClearsExactly s s' d vaddr (pages size)) ↔
    (1024 * 1023 < vaddr.toNat / 4096 + pages size → pages size < 1024) ∧
    ∀ v : UInt32, vaddr.toNat / 4096 + pages size ≤ v.toNat / 4096 →
      v.toNat / 4096 < clearedEnd (vaddr.toNat / 4096) (pages size) → s.page d v = none
  := by
  rcases Nat.eq_zero_or_pos (pages size) with hzero | hpos
  · -- nothing to clear
    have hleave : pdtUnmapMemoryBody d (alignUp size fourKb) (vaddr + alignUp size fourKb)
        ⟨vaddr, 0, s⟩ = .inr (0, s) := by
      simp only [pdtUnmapMemoryBody]
      rw [if_neg]
      rw [UInt32.lt_iff_toNat_lt, UInt32.toNat_add, toNat_alignUp_fourKb, hzero]
      omega
    rw [hzero]
    apply iff_of_true
    · refine ⟨1, 0, s, Loop.run_leave hleave 0, ?_, fun _ _ => rfl, ?_⟩
      · intro v hv
        omega
      · intro f hf hnot
        exact absurd hf hnot
    · refine ⟨fun _ => by omega, ?_⟩
      intro v hge hlt
      rw [clearedEnd, cleared] at hlt
      split at hlt
      · omega
      · omega
  have hpage := pageOff_lt_iff_page hvaddr hend
  have hle := le_clearedEnd (a := vaddr.toNat / 4096) (by omega) hpos
    (range_before_tmp hvaddr hend htmp)
  constructor
  · rintro ⟨n, r, s', hrun, hexact⟩
    have hlast := (ends_iff hvaddr hend htmp hhas hpos).mp
      ((pdtUnmapMemory_halts_iff h.table_ne).mp ⟨_, n, hrun⟩)
    refine ⟨hlast, ?_⟩
    intro v hge hlt
    have hcleared := pdtUnmapMemory_cleared hpfa h hm hvaddr hend htmp hhas hpos hlast hrun
    rw [← hexact.outside v (by rw [hpage]; omega), hcleared.page, if_pos ⟨by omega, hlt⟩]
  · rintro ⟨hlast, htidy⟩
    obtain ⟨⟨r, s'⟩, n, hrun⟩ := (pdtUnmapMemory_halts_iff h.table_ne).mpr
      ((ends_iff hvaddr hend htmp hhas hpos).mpr hlast)
    have hcleared := pdtUnmapMemory_cleared hpfa h hm hvaddr hend htmp hhas hpos hlast hrun
    refine ⟨n, r, s', hrun, ?_, ?_, fun f hf hnot => hcleared.unmaps.freed_empty hf hnot⟩
    · intro v hv
      rw [hpage] at hv
      rw [hcleared.page, if_pos ⟨hv.1, by omega⟩]
    · intro v hv
      rw [hpage] at hv
      rw [hcleared.page]
      split
      case isTrue hin =>
        rw [htidy v (by omega) hin.2]
      case isFalse => rfl

/-- The slots 767 and 768 have page tables; the last page of the first one is present, and two of the
second one. -/
def spannedTables : State where
  pfa := Pfa.sixFrames
  mem := fun f i =>
    if f = 0x101000 ∧ i = 767 then entryFor 0x0B 0x201000
    else if f = 0x101000 ∧ i = 768 then entryFor 0x0B 0x102000
    else if f = 0x201000 ∧ i = 1023 then entryFor 0x0B 0x300000
    else if f = 0x102000 ∧ i = 0 then entryFor 0x0B 0x301000
    else if f = 0x102000 ∧ i = 5 then entryFor 0x0B 0x302000
    else Entry.zero
  kernelPdt := 0x101000
  kernelPt := 0x102000
  cr3 := 0x101000

theorem has_spannedTables {i : ℕ} (h : spannedTables.has 0x101000 i) :
  (i = 767 ∧ spannedTables.table 0x101000 i = 0x201000) ∨
    i = 768 ∧ spannedTables.table 0x101000 i = 0x102000
  := by
  simp only [State.has, spannedTables] at h
  split at h
  case isTrue hlow =>
    rw [hlow.2]
    exact Or.inl ⟨rfl, by decide⟩
  split at h
  case isTrue hhigh =>
    rw [hhigh.2]
    exact Or.inr ⟨rfl, by decide⟩
  simp at h

theorem dir_spannedTables :
  Dir spannedTables 0x101000
  := by
  have hfree : (0x201000 : UInt32).toNat ∉ spannedTables.pfa.free := by
    have hindex : Pfa.sixFrames.frames[1]? = some (0x201000 : UInt32).toNat := by decide
    rw [spannedTables, Pfa.frameMap_sixFrames.mem_free_iff hindex]
    decide
  have hunused : (0x102000 : UInt32).toNat ∉ spannedTables.pfa.free := not_free_sixFrames (by decide)
  refine ⟨⟨not_free_sixFrames (by decide), hunused, by decide, ?_, ?_, ?_⟩, ?_⟩
  · intro i _ hhas
    rcases has_spannedTables hhas with ⟨-, htable⟩ | ⟨-, htable⟩
    · rwa [htable]
    · rwa [htable]
  · intro i _ hhas
    rcases has_spannedTables hhas with ⟨-, htable⟩ | ⟨-, htable⟩
    · rw [htable]
      decide
    · rw [htable]
      decide
  · intro i _ j _ hhas hhas' heq
    rcases has_spannedTables hhas with ⟨rfl, htable⟩ | ⟨rfl, htable⟩
    · rcases has_spannedTables hhas' with ⟨rfl, -⟩ | ⟨-, htable'⟩
      · rfl
      · exact absurd (htable.symm.trans (heq.trans htable')) (by decide)
    · rcases has_spannedTables hhas' with ⟨-, htable'⟩ | ⟨rfl, -⟩
      · exact absurd (htable.symm.trans (heq.trans htable')) (by decide)
      · rfl
  · intro i _ hhas htable
    rcases has_spannedTables hhas with ⟨-, htable'⟩ | ⟨rfl, -⟩
    · exact absurd (htable'.symm.trans htable) (by decide)
    · rfl

theorem managed_spannedTables :
  Managed spannedTables 0x101000
  := by
  intro i _ hne hhas
  rcases has_spannedTables hhas with ⟨-, htable⟩ | ⟨rfl, -⟩
  · rw [htable]
    decide
  · exact absurd rfl hne

/-- Two pages across the boundary of the slots are cleared. -/
theorem unmap_memory_exact_iff_twoSlots :
  ∃ n r s', pdtUnmapMemory n spannedTables 0x101000 0xBFFFF000 8192 = some (r, s') ∧
    ClearsExactly spannedTables s' 0x101000 0xBFFFF000 (pages 8192)
  := by
  have hslot : ∀ v, pageOff 0xBFFFF000 v < pages 8192 →
      virtualToPdtIdx v = 767 ∨ virtualToPdtIdx v = 768 ∧ virtualToPtIdx v = 0 := by
    intro v hv
    have hlt := v.toNat_lt
    rw [pageOff, show (0xBFFFF000 : UInt32).toNat / 4096 = 786431 by decide, show pages 8192 = 2 by decide] at hv
    rw [virtualToPdtIdx_eq, virtualToPtIdx_eq]
    omega
  apply (unmap_memory_exact_iff Pfa.frameMap_sixFrames dir_spannedTables managed_spannedTables
    (by decide) (by decide) _ _).mpr
  · refine ⟨by decide, ?_⟩
    intro v hge hlt
    rw [show clearedEnd ((0xBFFFF000 : UInt32).toNat / 4096) (pages 8192) = 786434 by decide] at hlt
    rw [show (0xBFFFF000 : UInt32).toNat / 4096 + pages 8192 = 786433 by decide] at hge
    have hidx : virtualToPdtIdx v = 768 ∧ virtualToPtIdx v = 1 := by
      rw [virtualToPdtIdx_eq, virtualToPtIdx_eq]
      omega
    rw [State.page, hidx.1, hidx.2]
    decide
  · intro v hv hall
    rcases hslot v hv with hlow | hhigh
    · exact absurd (hlow.symm.trans hall.1) (by decide)
    · exact absurd (hhigh.2.symm.trans hall.2) (by decide)
  · intro v hv
    rcases hslot v hv with hlow | hhigh
    · rw [hlow]
      decide
    · rw [hhigh.1]
      decide

/-- The slots 767 and 768 have page tables, and the page at `0xC0001000` is present. -/
def twoTables : State where
  pfa := Pfa.sixFrames
  mem := fun f i =>
    if f = 0x101000 ∧ i = 767 then entryFor 0x0B 0x201000
    else if f = 0x101000 ∧ i = 768 then entryFor 0x0B 0x102000
    else if f = 0x102000 ∧ i = 1 then entryFor 0x0B 0x300000
    else Entry.zero
  kernelPdt := 0x101000
  kernelPt := 0x102000
  cr3 := 0x101000

/-- Two pages across the boundary of the slots: the page after them is cleared too. -/
theorem page_after_range_cleared :
  twoTables.has 0x101000 767 ∧ twoTables.has 0x101000 768 ∧
    ∃ r s', pdtUnmapMemory 3 twoTables 0x101000 0xBFFFF000 8192 = some (r, s') ∧
    ¬ pageOff 0xBFFFF000 0xC0001000 < pages 8192 ∧
    twoTables.page 0x101000 0xC0001000 = some (entryFor 0x0B 0x300000) ∧
    s'.page 0x101000 0xC0001000 = none
  := by
  refine ⟨by decide, by decide, _, _, rfl, by decide, by decide, ?_⟩
  decide +kernel

end Paging
