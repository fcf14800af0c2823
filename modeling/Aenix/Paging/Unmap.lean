import Aenix.Paging.Map

/-!
# Unmapping

What `pdt_unmap_memory` does, in the manner of `Maps`.  Whenever it returns, translations have
only been removed and page tables only been freed (`Unmaps`); a range of pages in one slot is
removed exactly (`pdtUnmapMemory_slot`).
-/

open Aenix

namespace Paging

variable {s s' s'' : State} {d vaddr size : UInt32} {p m i j : ℕ}

/-- The page tables of a directory are frames of the allocator, but for that of slot
`KERNEL_PT_PDT_IDX`. -/
def Managed (s : State) (d : UInt32) : Prop :=
  ∀ i < 1024, i ≠ kernelPdtIdx → s.has d i → (s.table d i).toNat ∈ s.pfa.frames

/-- Translations of the directory are removed, and page tables freed. -/
structure Unmaps (s s' : State) (d : UInt32) : Prop where
  map : Pfa.SameMap s.pfa s'.pfa
  vars : SameVars s s'
  dir : Dir s' d
  entry : ∀ i < 1024, s'.mem d i = s.mem d i ∨
    (i ≠ kernelPdtIdx ∧ s.has d i ∧ s'.mem d i = Entry.zero)
  kept : s.pfa.free ⊆ s'.pfa.free
  freed : ∀ f, f ∈ s'.pfa.free → f ∈ s.pfa.free ∨
    ∃ i < 1024, i ≠ kernelPdtIdx ∧ s.has d i ∧ ¬ s'.has d i ∧ f = (s.table d i).toNat
  other : ∀ f, f ≠ d → (∀ i < 1024, s.has d i → f ≠ s.table d i) → s'.mem f = s.mem f
  page : ∀ v, s'.page d v = s.page d v ∨ s'.page d v = none

theorem Unmaps.refl (h : Dir s d) :
  Unmaps s s d
  := by
  refine ⟨Pfa.SameMap.refl _, SameVars.refl s, h, ?_, subset_rfl, ?_, ?_, ?_⟩
  · exact fun _ _ => Or.inl rfl
  · exact fun _ hf => Or.inl hf
  · exact fun _ _ _ => rfl
  · exact fun _ => Or.inl rfl

theorem Unmaps.has (h : Unmaps s s' d) (hi : i < 1024) (hhas : s'.has d i) :
  s.has d i ∧ s'.mem d i = s.mem d i
  := by
  rcases h.entry i hi with heq | ⟨-, -, heq⟩
  · exact ⟨by rwa [State.has, ← heq], heq⟩
  · rw [State.has, heq] at hhas
    simp at hhas

theorem Unmaps.managed (h : Unmaps s s' d) (hm : Managed s d) :
  Managed s' d
  := by
  intro i hi hne hhas
  obtain ⟨hold, heq⟩ := h.has hi hhas
  rw [h.map.frames, State.table, heq]
  exact hm i hi hne hold

theorem Unmaps.trans (h : Unmaps s s' d) (h' : Unmaps s' s'' d) :
  Unmaps s s'' d
  := by
  refine ⟨h.map.trans h'.map, h.vars.trans h'.vars, h'.dir, ?_, h.kept.trans h'.kept, ?_, ?_, ?_⟩
  · intro i hi
    rcases h'.entry i hi with heq' | ⟨hne, hhas, heq'⟩
    · rw [heq']
      exact h.entry i hi
    · exact Or.inr ⟨hne, (h.has hi hhas).1, heq'⟩
  · intro f hf
    rcases h'.freed f hf with hf' | ⟨i, hi, hne, hhas, hgone, hfi⟩
    · rcases h.freed f hf' with hf'' | ⟨i, hi, hne, hhas, hgone, hfi⟩
      · exact Or.inl hf''
      · exact Or.inr ⟨i, hi, hne, hhas, fun hback => hgone (h'.has hi hback).1, hfi⟩
    · obtain ⟨hold, heq⟩ := h.has hi hhas
      exact Or.inr ⟨i, hi, hne, hold, hgone, by rw [hfi, State.table, heq]⟩
  · intro f hf htable
    rw [h'.other f hf, h.other f hf htable]
    intro i hi hhas
    obtain ⟨hold, heq⟩ := h.has hi hhas
    rw [State.table, heq]
    exact htable i hi hold
  · intro v
    rcases h'.page v with heq | hnone
    · rw [heq]
      exact h.page v
    · exact Or.inr hnone

/-! ### A round -/

theorem frameOf_of_dvd {f : UInt32} (h : 4096 ∣ f.toNat) :
  Pfa.frameOf f = f.toNat
  := by
  rw [Pfa.frameOf]
  omega

/-- The entries of a cleared table that are present. -/
theorem present_clearEntries (j m k : ℕ) (t : Table) :
  (if (clearEntries j m t k).isEntryPresent then some (clearEntries j m t k) else none) =
    if j ≤ k ∧ k < j + m then none else if (t k).isEntryPresent then some (t k) else none
  := by
  rw [clearEntries]
  by_cases hin : j ≤ k ∧ k < j + m
  · by_cases hpresent : (t k).isEntryPresent = true
    · simp [hin, hpresent]
    · simp [hin, hpresent]
  · have hout : ¬ (j ≤ k ∧ k < j + m ∧ (t k).isEntryPresent = true) :=
      fun h => hin ⟨h.1, h.2.1⟩
    simp only [if_neg hout, if_neg hin]

theorem State.withoutPages_vars (s : State) (d : UInt32) (i j m : ℕ) :
  SameVars s (s.withoutPages d i j m)
  := by
  rw [State.withoutPages]
  split
  · exact ⟨rfl, rfl, rfl⟩
  · exact ⟨rfl, rfl, rfl⟩

theorem State.withoutPages_pfa (s : State) (d : UInt32) (i j m : ℕ) :
  (s.withoutPages d i j m).pfa =
    if m = 1024 ∧ i ≠ kernelPdtIdx then Pfa.pfaFree s.pfa (s.table d i) else s.pfa
  := by
  rw [State.withoutPages]
  split
  · rfl
  · rfl

theorem State.withoutPages_mem_of_ne {f : UInt32} (hfd : f ≠ d) (hft : f ≠ s.table d i) :
  (s.withoutPages d i j m).mem f = s.mem f
  := by
  rw [State.withoutPages]
  split
  · rw [State.mem_set, Function.update_of_ne hfd]
    exact Function.update_of_ne hft _ _
  · rw [State.mem_fill, Function.update_of_ne hft]

theorem State.withoutPages_mem_table (h : s.table d i ≠ d) :
  (s.withoutPages d i j m).mem (s.table d i) = clearEntries j m (s.mem (s.table d i))
  := by
  rw [State.withoutPages]
  split
  · rw [State.mem_set, Function.update_of_ne h]
    exact Function.update_self ..
  · rw [State.mem_fill, Function.update_self]

theorem State.withoutPages_mem_dir (h : s.table d i ≠ d) :
  (s.withoutPages d i j m).mem d =
    if m = 1024 ∧ i ≠ kernelPdtIdx then Function.update (s.mem d) i Entry.zero else s.mem d
  := by
  have hfill : ∀ t, (s.fill (s.table d i) t).mem d = s.mem d := by
    intro t
    rw [State.mem_fill, Function.update_of_ne (Ne.symm h)]
  rw [State.withoutPages]
  split
  · rw [State.mem_set, Function.update_self]
    exact congrArg (Function.update · i Entry.zero) (hfill _)
  · exact hfill _

theorem State.withoutPages_mem_dir_of_ne (h : s.table d i ≠ d) {k : ℕ} (hk : k ≠ i) :
  (s.withoutPages d i j m).mem d k = s.mem d k
  := by
  rw [State.withoutPages_mem_dir h]
  split
  · rw [Function.update_of_ne hk]
  · rfl

/-- A slot with a page table had it before. -/
theorem State.withoutPages_has (h : s.table d i ≠ d) {k : ℕ}
    (hk : (s.withoutPages d i j m).has d k) :
  s.has d k ∧ (s.withoutPages d i j m).mem d k = s.mem d k ∧
    (k = i → ¬ (m = 1024 ∧ i ≠ kernelPdtIdx))
  := by
  by_cases hki : k = i
  · subst hki
    rw [State.has, State.withoutPages_mem_dir h] at hk
    rw [State.withoutPages_mem_dir h]
    split at hk
    case isTrue =>
      rw [Function.update_self] at hk
      simp at hk
    case isFalse hcond =>
      rw [if_neg hcond]
      exact ⟨hk, rfl, fun _ => hcond⟩
  · have heq := State.withoutPages_mem_dir_of_ne (j := j) (m := m) h hki
    exact ⟨by rwa [State.has, ← heq], heq, fun hkk => absurd hkk hki⟩

/-- What the allocator holds after a round. -/
theorem State.withoutPages_free (hpfa : Pfa.FrameMap s.pfa) (h : Dir s d) (hm : Managed s d)
    (hi : i < 1024) (hhas : s.has d i) :
  Pfa.SameMap s.pfa (s.withoutPages d i j m).pfa ∧
    (s.withoutPages d i j m).pfa.free =
      if m = 1024 ∧ i ≠ kernelPdtIdx then insert (s.table d i).toNat s.pfa.free else s.pfa.free
  := by
  rw [State.withoutPages_pfa]
  split
  case isTrue hcond =>
    have hframe := frameOf_of_dvd (s.mem d i).dvd_paddr
    rw [← hframe]
    apply hpfa.pfaFree_free
    · rw [hframe]
      exact hm i hi hcond.2 hhas
    · rw [hframe]
      exact h.table_used i hi hhas
  case isFalse => exact ⟨Pfa.SameMap.refl _, rfl⟩

/-- The pages that a round removes. -/
theorem Dir.withoutPages_page (h : Dir s d) (hi : i < 1024) (hhas : s.has d i) (v : UInt32)
    (hall : m = 1024 → j = 0) :
  (s.withoutPages d i j m).page d v =
    if virtualToPdtIdx v = i ∧ j ≤ virtualToPtIdx v ∧ virtualToPtIdx v < j + m then none
    else s.page d v
  := by
  have hne := h.table_ne i hi hhas
  have hlt := virtualToPtIdx_lt v
  by_cases hvi : virtualToPdtIdx v = i
  · by_cases hclose : m = 1024 ∧ i ≠ kernelPdtIdx
    · have hj := hall hclose.1
      rw [if_pos ⟨hvi, by omega, by omega⟩]
      apply State.page_of_not_has
      intro hsome
      exact (State.withoutPages_has hne hsome).2.2 hvi hclose
    · have hdir : (s.withoutPages d i j m).mem d = s.mem d := by
        rw [State.withoutPages_mem_dir hne, if_neg hclose]
      have hsome : (s.withoutPages d i j m).has d (virtualToPdtIdx v) := by
        rwa [State.has, hdir, hvi]
      rw [State.page_of_has hsome, State.page_of_has (by rwa [hvi]), State.table, hdir, hvi,
        ← State.table, State.withoutPages_mem_table hne, present_clearEntries]
      simp only [true_and]
  · rw [if_neg (fun hall => hvi hall.1)]
    apply State.page_congr (State.withoutPages_mem_dir_of_ne hne hvi)
    intro hv
    have hvlt := virtualToPdtIdx_lt v
    rw [State.withoutPages_mem_of_ne (h.table_ne _ hvlt hv)]
    exact fun heq => hvi (h.table_inj _ hvlt _ hi hv hhas heq)

/-- A round on a slot with a page table. -/
theorem Dir.unmaps_withoutPages (h : Dir s d) (hpfa : Pfa.FrameMap s.pfa) (hm : Managed s d)
    (hi : i < 1024) (hhas : s.has d i) (hall : m = 1024 → j = 0) :
  Unmaps s (s.withoutPages d i j m) d
  := by
  have hne := h.table_ne i hi hhas
  have hvars := State.withoutPages_vars s d i j m
  obtain ⟨hmap, hfree⟩ := State.withoutPages_free (j := j) (m := m) hpfa h hm hi hhas
  -- a frame that becomes free is the page table of the slot
  have hcases : ∀ {f}, f ∈ (s.withoutPages d i j m).pfa.free → f ∈ s.pfa.free ∨
      (f = (s.table d i).toNat ∧ m = 1024 ∧ i ≠ kernelPdtIdx) := by
    intro f hf
    rw [hfree] at hf
    split at hf
    case isTrue hcond =>
      rcases hf with rfl | hf
      · exact Or.inr ⟨rfl, hcond⟩
      · exact Or.inl hf
    case isFalse => exact Or.inl hf
  refine ⟨hmap, hvars, ?_, ?_, ?_, ?_, ?_, ?_⟩
  · have hout : ∀ {f : UInt32}, f.toNat ∉ s.pfa.free →
        (m = 1024 ∧ i ≠ kernelPdtIdx → f ≠ s.table d i) →
        f.toNat ∉ (s.withoutPages d i j m).pfa.free := by
      intro f hf hft hin
      rcases hcases hin with hin | ⟨heq, hcond⟩
      · exact hf hin
      · exact hft hcond (UInt32.toNat_inj.mp heq)
    constructor
    · constructor
      · exact hout h.used fun _ => Ne.symm hne
      · rw [hvars.kernelPt]
        refine hout h.pt_used ?_
        rintro ⟨-, hidx⟩ heq
        exact hidx (h.table_pt i hi hhas heq.symm)
      · rw [hvars.kernelPt]
        exact h.ne_pt
      · intro k hk hsome
        obtain ⟨hold, heq, hkeep⟩ := State.withoutPages_has hne hsome
        rw [State.table, heq]
        refine hout (h.table_used k hk hold) ?_
        intro hcond hti
        exact hkeep (h.table_inj k hk i hi hold hhas hti) hcond
      · intro k hk hsome
        obtain ⟨hold, heq, -⟩ := State.withoutPages_has hne hsome
        rw [State.table, heq]
        exact h.table_ne k hk hold
      · intro k hk l hl hsome hsome' hkl
        obtain ⟨hold, heq, -⟩ := State.withoutPages_has hne hsome
        obtain ⟨hold', heq', -⟩ := State.withoutPages_has hne hsome'
        rw [State.table, State.table, heq, heq'] at hkl
        exact h.table_inj k hk l hl hold hold' hkl
    · intro k hk hsome hpt
      obtain ⟨hold, heq, -⟩ := State.withoutPages_has hne hsome
      rw [State.table, heq, hvars.kernelPt] at hpt
      exact h.table_pt k hk hold hpt
  · intro k hk
    by_cases hki : k = i
    · subst hki
      rw [State.withoutPages_mem_dir hne]
      split
      case isTrue hcond => exact Or.inr ⟨hcond.2, hhas, Function.update_self ..⟩
      case isFalse => exact Or.inl rfl
    · exact Or.inl (State.withoutPages_mem_dir_of_ne hne hki)
  · rw [hfree]
    split
    · exact Set.subset_insert _ _
    · exact subset_rfl
  · intro f hf
    rcases hcases hf with hf | ⟨rfl, hcond⟩
    · exact Or.inl hf
    · right
      exact ⟨i, hi, hcond.2, hhas, fun hsome => (State.withoutPages_has hne hsome).2.2 rfl hcond, rfl⟩
  · intro f hf htable
    exact State.withoutPages_mem_of_ne hf (htable i hi hhas)
  · intro v
    rw [h.withoutPages_page hi hhas v hall]
    split
    · exact Or.inr rfl
    · exact Or.inl rfl

/-! ### The loop of `pdt_unmap_memory` -/

theorem cleared_le (i j p : ℕ) :
  cleared i j p ≤ p ∧ cleared i j p ≤ 1024 - j
  := by
  rw [cleared, kernelTmpPtIdx]
  split
  · omega
  · omega

/-- When `pdt_unmap_memory` returns, it has removed translations and freed page tables. -/
theorem pdtUnmapMemory_spec {n : ℕ} {r : UInt32} (hpfa : Pfa.FrameMap s.pfa) (h : Dir s d)
    (hm : Managed s d) (hrun : pdtUnmapMemory n s d vaddr size = some (r, s')) :
  Unmaps s s' d
  := by
  refine Loop.run_of_invariant (fun u => Unmaps s u.state d) (fun r => Unmaps s r.2 d) ?_ ?_
    (Unmaps.refl h) hrun
  · intro u u' hu hbody
    rw [pdtUnmapMemoryBody] at hbody
    split at hbody
    case isFalse => simp at hbody
    split at hbody
    case isFalse =>
      obtain rfl := Sum.inl.inj hbody
      exact hu
    case isTrue hhas =>
      have hi := virtualToPdtIdx_lt u.vaddr
      rw [unmapRound_has (toNat_alignUp_fourKb size) (hu.dir.table_pt _ hi hhas)] at hbody
      obtain rfl := Sum.inl.inj hbody
      apply hu.trans
      apply hu.dir.unmaps_withoutPages (hu.map.frameMap hpfa) (hu.managed hm) hi hhas
      have hle := cleared_le (virtualToPdtIdx u.vaddr) (virtualToPtIdx u.vaddr) (pages size)
      omega
  · intro u r hu hbody
    rw [pdtUnmapMemoryBody] at hbody
    split at hbody
    · split at hbody
      · simp at hbody
      · simp at hbody
    · obtain rfl := Sum.inr.inj hbody
      exact hu

/-- A range in one slot, which has a page table, is removed in one round, unless it ends at the
end of the address space: then `end_vaddr` is 0 and nothing is done. -/
theorem pdtUnmapMemory_slot (h : Dir s d) (hhas : s.has d (virtualToPdtIdx vaddr))
    (hpos : 0 < pages size) (hend : virtualToPtIdx vaddr + pages size ≤ 1024)
    (htmp : virtualToPdtIdx vaddr = kernelPdtIdx → virtualToPtIdx vaddr + pages size ≤ kernelTmpPtIdx) :
  Loop.Returns (pdtUnmapMemoryBody d (alignUp size fourKb) (vaddr + alignUp size fourKb)) ⟨vaddr, 0, s⟩
    (if vaddr.toNat + 4096 * pages size < 2 ^ 32 then
      (alignUp size fourKb,
        s.withoutPages d (virtualToPdtIdx vaddr) (virtualToPtIdx vaddr) (pages size))
    else
      (0, s))
  := by
  have hi := virtualToPdtIdx_lt vaddr
  have hlt := vaddr.toNat_lt
  have hadd : (vaddr + alignUp size fourKb).toNat = (vaddr.toNat + 4096 * pages size) % 2 ^ 32 := by
    rw [UInt32.toNat_add, toNat_alignUp_fourKb]
  have hall : cleared (virtualToPdtIdx vaddr) (virtualToPtIdx vaddr) (pages size) = pages size := by
    rw [cleared]
    split
    case isTrue hidx =>
      have := htmp hidx
      omega
    case isFalse => omega
  have hfreed : UInt32.ofNat (pages size) * fourKb = alignUp size fourKb := by
    rw [← UInt32.toNat_inj, toNat_ofNat_mul_fourKb (pages_lt size), toNat_alignUp_fourKb]
  split
  case isTrue hfits =>
    have hfirst : pdtUnmapMemoryBody d (alignUp size fourKb) (vaddr + alignUp size fourKb)
        ⟨vaddr, 0, s⟩ = .inl ⟨vaddr + alignUp size fourKb, alignUp size fourKb,
          s.withoutPages d (virtualToPdtIdx vaddr) (virtualToPtIdx vaddr) (pages size)⟩ := by
      have hbelow : vaddr < vaddr + alignUp size fourKb := by
        rw [UInt32.lt_iff_toNat_lt, hadd, Nat.mod_eq_of_lt hfits]
        omega
      simp only [pdtUnmapMemoryBody]
      rw [if_pos hbelow, if_pos hhas,
        unmapRound_has (toNat_alignUp_fourKb size) (h.table_pt _ hi hhas), hall, hfreed]
    refine ⟨2, ?_⟩
    rw [Loop.run_continue hfirst]
    apply Loop.run_leave
    simp only [pdtUnmapMemoryBody]
    rw [if_neg (UInt32.lt_irrefl _)]
  case isFalse hover =>
    refine ⟨1, ?_⟩
    apply Loop.run_leave
    have habove : ¬ vaddr < vaddr + alignUp size fourKb := by
      rw [virtualToPtIdx_eq] at hend
      rw [UInt32.lt_iff_toNat_lt, hadd]
      omega
    simp only [pdtUnmapMemoryBody]
    rw [if_neg habove]

/-- `pdt_unmap_memory` of a range in one slot with a page table leaves the other pages alone. -/
theorem pdtUnmapMemory_outside {n : ℕ} {r : UInt32} (h : Dir s d)
    (hhas : s.has d (virtualToPdtIdx vaddr)) (hpos : 0 < pages size)
    (hend : virtualToPtIdx vaddr + pages size ≤ 1024)
    (htmp : virtualToPdtIdx vaddr = kernelPdtIdx → virtualToPtIdx vaddr + pages size ≤ kernelTmpPtIdx)
    (hrun : pdtUnmapMemory n s d vaddr size = some (r, s')) {v : UInt32}
    (hv : ¬ pageOff vaddr v < pages size) :
  s'.page d v = s.page d v
  := by
  have hres := Loop.Returns.unique ⟨n, hrun⟩ (pdtUnmapMemory_slot h hhas hpos hend htmp)
  split at hres
  · obtain ⟨-, rfl⟩ := Prod.mk.inj hres
    rw [pageOff_lt_iff hend] at hv
    rw [h.withoutPages_page (virtualToPdtIdx_lt vaddr) hhas v (by omega), if_neg hv]
  · obtain ⟨-, rfl⟩ := Prod.mk.inj hres
    rfl

end Paging
