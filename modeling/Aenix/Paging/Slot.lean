import Aenix.Paging.Map

/-!
# Ranges within one slot

A range that lies within one slot of the directory takes one round of `pdt_map_memory` or `pdt_unmap_memory`.
What the functions return then, and the state after them, are given by equations: the temporary mapping is as it
was, and entries of one page table have been filled or cleared.
-/

open Aenix

namespace Paging

variable {s s' : State} {d t paddr vaddr size : UInt32} {rw pl : UInt8} {p m : ℕ}

/-- The `m` entries from `j` on of the page table in frame `t` map the pages from `paddr` on. -/
def State.fillPages (s : State) (t : UInt32) (j m : ℕ) (paddr : UInt32) (rw pl : UInt8) : State :=
  s.fill t (fillEntries j m paddr rw pl (s.mem t))

/-- The `m` entries from `j` on of the page table in frame `t` are cleared. -/
def State.clearPages (s : State) (t : UInt32) (j m : ℕ) : State :=
  s.fill t (clearEntries j m (s.mem t))

/-- All pages are mapped when their entries are vacant and lie within the table. -/
theorem Stretch.eq_all {pdtIdx j : ℕ} {pt : Prop} {tab : Table} (h : Stretch pdtIdx pt tab j p m)
    (hfits : j + p ≤ 1024) (htmp : pdtIdx = kernelPdtIdx ∨ pt → j + p ≤ kernelTmpPtIdx)
    (hvacant : ∀ k < p, (tab (j + k)).isEntryPresent = false) :
  m = p
  := by
  have hle := h.le
  by_contra hne
  rcases h.stop with hall | hend | hpresent | ⟨hslot, hat⟩
  · exact hne hall
  · omega
  · rw [hvacant m (by omega)] at hpresent
    simp at hpresent
  · have hbefore := htmp hslot
    omega

theorem ofNat_pages_mul (size : UInt32) :
  UInt32.ofNat (pages size) * fourKb = alignUp size fourKb
  := by
  apply UInt32.toNat_inj.mp
  rw [toNat_ofNat_mul_fourKb (pages_lt size), toNat_alignUp_fourKb]

/-- `pdt_map_memory` returns after a round that maps all pages. -/
theorem pdtMapMemory_of_mapRound (hpos : 0 < pages size)
    (hround : mapRound s d paddr vaddr (alignUp size fourKb) rw pl = (UInt32.ofNat (pages size) * fourKb, s')) :
  pdtMapMemory s d paddr vaddr size rw pl = (UInt32.ofNat (pages size) * fourKb, s')
  := by
  have hne : alignUp size fourKb ≠ 0 := by
    rw [← ofNat_pages_mul, ne_eq, ofNat_mul_fourKb_eq_zero (pages_lt size)]
    omega
  have hdone : ∀ n v u total, pdtMapMemoryFrom d rw pl n s' v u 0 total = (total, s') := by
    intro n v u total
    cases n with
    | zero => rfl
    | succ n => rw [pdtMapMemoryFrom, if_pos rfl]
  obtain ⟨n, hn⟩ : ∃ n, pages size = n + 1 := ⟨pages size - 1, by omega⟩
  rw [pdtMapMemory, show (alignUp size fourKb / fourKb).toNat = n + 1 from hn, pdtMapMemoryFrom, if_neg hne, hround]
  dsimp only
  rw [ofNat_pages_mul, if_neg hne, UInt32.sub_self, hdone, UInt32.zero_add]

/-- Pages are mapped in the page table of their slot. -/
theorem pdtMapMemory_has (hpos : 0 < pages size) (hhas : s.has d (virtualToPdtIdx vaddr))
    (ht : s.table d (virtualToPdtIdx vaddr) = t) (htd : t ≠ d) (hdpt : d ≠ s.kernelPt)
    (hfits : virtualToPtIdx vaddr + pages size ≤ 1024)
    (htmp : virtualToPdtIdx vaddr = kernelPdtIdx ∨ t = s.kernelPt →
      virtualToPtIdx vaddr + pages size ≤ kernelTmpPtIdx)
    (hvacant : ∀ k < pages size, (s.mem t (virtualToPtIdx vaddr + k)).isEntryPresent = false) :
  pdtMapMemory s d paddr vaddr size rw pl = (UInt32.ofNat (pages size) * fourKb,
    s.fillPages t (virtualToPtIdx vaddr) (pages size) paddr rw pl)
  := by
  subst ht
  obtain ⟨m, hstretch, hround⟩ := mapRound_has (toNat_alignUp_fourKb size) hhas htd hdpt paddr rw pl
  obtain rfl := hstretch.eq_all hfits htmp hvacant
  exact pdtMapMemory_of_mapRound hpos hround

/-- Pages are mapped in a new page table for their slot. -/
theorem pdtMapMemory_frame (hpos : 0 < pages size) (hhas : ¬ s.has d (virtualToPdtIdx vaddr))
    {pfa : Pfa.State} (hpfa : Pfa.pfaAllocate s.pfa 1 = (t, pfa)) (ht : t ≠ 0) (hdvd : 4096 ∣ t.toNat) (htd : t ≠ d)
    (htpt : t ≠ s.kernelPt) (hdpt : d ≠ s.kernelPt) (hfits : virtualToPtIdx vaddr + pages size ≤ 1024)
    (htmp : virtualToPdtIdx vaddr = kernelPdtIdx → virtualToPtIdx vaddr + pages size ≤ kernelTmpPtIdx) :
  pdtMapMemory s d paddr vaddr size rw pl = (UInt32.ofNat (pages size) * fourKb,
    { s with pfa := pfa }.withTable d (virtualToPdtIdx vaddr) (virtualToPtIdx vaddr) (pages size) t paddr rw pl)
  := by
  obtain ⟨m, hstretch, hround⟩ :=
    mapRound_frame (toNat_alignUp_fourKb size) hhas hpfa ht hdvd htd htpt hdpt paddr rw pl
  obtain rfl := hstretch.eq_all hfits (by simpa using htmp) fun _ _ => rfl
  exact pdtMapMemory_of_mapRound hpos hround

/-- Pages before the last one of their slot are unmapped. -/
theorem pdtUnmapMemory_has {n : ℕ} (hn : 2 ≤ n) (hpos : 0 < pages size) (hhas : s.has d (virtualToPdtIdx vaddr))
    (ht : s.table d (virtualToPdtIdx vaddr) = t) (hpt : t = s.kernelPt → virtualToPdtIdx vaddr = kernelPdtIdx)
    (hfits : virtualToPtIdx vaddr + pages size < 1024) (hend : vaddr.toNat + 4096 * pages size < 2 ^ 32) :
  pdtUnmapMemory n s d vaddr size = some (UInt32.ofNat (pages size) * fourKb,
    s.clearPages t (virtualToPtIdx vaddr) (pages size))
  := by
  subst ht
  have hsize := toNat_alignUp_fourKb size
  have hcleared : cleared (virtualToPdtIdx vaddr) (virtualToPtIdx vaddr) (pages size) = pages size := by
    rw [cleared, kernelTmpPtIdx]
    split <;> omega
  have hround := unmapRound_has hsize hpt
  rw [hcleared, State.withoutPages, if_neg (by omega)] at hround
  have hlt : vaddr < vaddr + alignUp size fourKb := by
    rw [UInt32.lt_iff_toNat_lt, UInt32.toNat_add, hsize]
    omega
  have hcontinue : pdtUnmapMemoryBody d (alignUp size fourKb) (vaddr + alignUp size fourKb) ⟨vaddr, 0, s⟩ =
      .inl ⟨vaddr + alignUp size fourKb, UInt32.ofNat (pages size) * fourKb,
        s.clearPages (s.table d (virtualToPdtIdx vaddr)) (virtualToPtIdx vaddr) (pages size)⟩ := by
    rw [pdtUnmapMemoryBody, if_pos hlt, if_pos hhas, hround, ← ofNat_pages_mul]
    rfl
  obtain ⟨k, rfl⟩ : ∃ k, n = k + 2 := ⟨n - 2, by omega⟩
  rw [pdtUnmapMemory, Loop.run_continue hcontinue, Loop.run_leave]
  rw [pdtUnmapMemoryBody, if_neg (by simp)]

end Paging
