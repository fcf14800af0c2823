import Aenix.Paging.Basic

/-!
# Editing page tables

The loops over a page table, in closed form.  They reach the table through the temporary
mapping, which itself lies in a page table: the closed forms hold because the entry of the
temporary mapping is never edited when the table is the one it lies in.
-/

open Aenix

namespace Paging

/-! ### Frames -/

@[simp]
theorem State.mem_set (s : State) (f : UInt32) (i : ℕ) (e : Entry) :
  (s.set f i e).mem = Function.update s.mem f (Function.update (s.mem f) i e)
  := rfl

@[simp]
theorem State.set_pfa (s : State) (f : UInt32) (i : ℕ) (e : Entry) :
  (s.set f i e).pfa = s.pfa
  := rfl

@[simp]
theorem State.set_kernelPt (s : State) (f : UInt32) (i : ℕ) (e : Entry) :
  (s.set f i e).kernelPt = s.kernelPt
  := rfl

@[simp]
theorem State.set_kernelPdt (s : State) (f : UInt32) (i : ℕ) (e : Entry) :
  (s.set f i e).kernelPdt = s.kernelPdt
  := rfl

@[simp]
theorem State.mem_fill (s : State) (f : UInt32) (t : Table) :
  (s.fill f t).mem = Function.update s.mem f t
  := rfl

@[simp]
theorem State.fill_pfa (s : State) (f : UInt32) (t : Table) :
  (s.fill f t).pfa = s.pfa
  := rfl

@[simp]
theorem State.fill_kernelPt (s : State) (f : UInt32) (t : Table) :
  (s.fill f t).kernelPt = s.kernelPt
  := rfl

@[simp]
theorem State.fill_kernelPdt (s : State) (f : UInt32) (t : Table) :
  (s.fill f t).kernelPdt = s.kernelPdt
  := rfl

theorem State.fill_self (s : State) (f : UInt32) :
  s.fill f (s.mem f) = s
  := by
  rw [State.fill, Function.update_eq_self]

theorem State.fill_fill (s : State) (f : UInt32) (t t' : Table) :
  (s.fill f t).fill f t' = s.fill f t'
  := by
  rw [State.fill, State.fill, State.fill, Function.update_idem]

theorem State.set_eq_fill (s : State) (f : UInt32) (i : ℕ) (e : Entry) :
  s.set f i e = s.fill f (Function.update (s.mem f) i e)
  := rfl

theorem State.set_comm (s : State) {f g : UInt32} (h : f ≠ g) (i j : ℕ) (e e' : Entry) :
  (s.set f i e).set g j e' = (s.set g j e').set f i e
  := by
  simp only [State.set, Function.update_of_ne h, Function.update_of_ne h.symm,
    Function.update_comm h]

/-! ### The temporary mapping -/

theorem tmpFrame_map (s : State) {paddr : UInt32} (h : 4096 ∣ paddr.toNat) :
  (kernelMapTemporaryMemory s paddr).tmpFrame = paddr
  := by
  simp [State.tmpFrame, kernelGetTemporaryEntry, kernelMapTemporaryMemory, h]

theorem mem_map_of_ne (s : State) (paddr : UInt32) {f : UInt32} (h : f ≠ s.kernelPt) :
  (kernelMapTemporaryMemory s paddr).mem f = s.mem f
  := by
  simp [kernelMapTemporaryMemory, h]

/-- A frame edited through the temporary mapping: once the entry of the mapping is restored,
the frame is edited and nothing else has changed, provided that the edit neither reads nor
writes the entry of the mapping when it lies in the frame. -/
theorem restore_edit (s : State) (paddr f : UInt32) (edit : Table → Table)
    (h : f = s.kernelPt → ∀ t e, edit (Function.update t kernelTmpPtIdx e) =
      Function.update (edit t) kernelTmpPtIdx e)
    (hself : f = s.kernelPt → ∀ t, edit t kernelTmpPtIdx = t kernelTmpPtIdx) :
  kernelSetTemporaryEntry ((kernelMapTemporaryMemory s paddr).fill f
      (edit ((kernelMapTemporaryMemory s paddr).mem f))) (kernelGetTemporaryEntry s) =
    s.fill f (edit (s.mem f))
  := by
  by_cases hf : f = s.kernelPt
  · subst hf
    have hentry : edit (s.mem s.kernelPt) kernelTmpPtIdx = s.mem s.kernelPt kernelTmpPtIdx :=
      hself rfl _
    simp only [kernelSetTemporaryEntry, kernelMapTemporaryMemory, kernelGetTemporaryEntry,
      State.set, State.fill, Function.update_self, Function.update_idem, h rfl]
    rw [← hentry, Function.update_eq_self]
  · rw [mem_map_of_ne s paddr hf]
    simp only [kernelSetTemporaryEntry, kernelMapTemporaryMemory, kernelGetTemporaryEntry,
      State.set, State.fill, Function.update_self, Function.update_idem, Function.update_comm hf,
      Function.update_of_ne (Ne.symm hf), Function.update_eq_self]

/-- Mapping a frame at `KERNEL_TMP_VADDR` and restoring the entry changes nothing. -/
theorem restore_map (s : State) (paddr : UInt32) :
  kernelSetTemporaryEntry (kernelMapTemporaryMemory s paddr) (kernelGetTemporaryEntry s) = s
  := by
  have h := restore_edit s paddr s.kernelPt id (fun _ _ _ => rfl) (fun _ _ => rfl)
  rwa [id, id, State.fill_self, State.fill_self] at h

/-! ### Filling a page table -/

/-- A table with entries for `m` pages from `paddr` on in the place of those from `j` on. -/
def fillEntries (j m : ℕ) (paddr : UInt32) (rw pl : UInt8) (t : Table) : Table := fun i =>
  if j ≤ i ∧ i < j + m then createPtEntry (paddr + UInt32.ofNat (i - j) * fourKb) rw pl else t i

theorem fillEntries_zero (j : ℕ) (paddr : UInt32) (rw pl : UInt8) (t : Table) :
  fillEntries j 0 paddr rw pl t = t
  := by
  funext i
  rw [fillEntries, if_neg (by omega)]

theorem add_ofNat_succ_mul (a u : UInt32) (k : ℕ) :
  a + UInt32.ofNat (k + 1) * u = a + u + UInt32.ofNat k * u
  := by
  rw [UInt32.ofNat_add, UInt32.add_mul, show UInt32.ofNat 1 = 1 from rfl, UInt32.one_mul,
    UInt32.add_comm (UInt32.ofNat k * u), UInt32.add_assoc]

theorem fillEntries_succ (j m : ℕ) (paddr : UInt32) (rw pl : UInt8) (t : Table) :
  fillEntries (j + 1) m (paddr + fourKb) rw pl
      (Function.update t j (createPtEntry paddr rw pl)) =
    fillEntries j (m + 1) paddr rw pl t
  := by
  funext i
  simp only [fillEntries]
  rcases Nat.lt_trichotomy i j with hi | rfl | hi
  · rw [if_neg (by omega), if_neg (by omega), Function.update_of_ne (by omega)]
  · rw [if_neg (by omega), if_pos (by omega), Function.update_self, Nat.sub_self]
    simp
  · by_cases him : i < j + (m + 1)
    · obtain ⟨k, rfl⟩ : ∃ k, i = j + 1 + k := ⟨i - (j + 1), by omega⟩
      have hadd := add_ofNat_succ_mul paddr fourKb k
      rw [if_pos (by omega), if_pos (by omega), show j + 1 + k - (j + 1) = k by omega,
        show j + 1 + k - j = k + 1 by omega, hadd]
    · rw [if_neg (by omega), if_neg (by omega), Function.update_of_ne (by omega)]

theorem tmpFrame_setTmp {s : State} {i : ℕ} (e : Entry)
    (h : s.tmpFrame = s.kernelPt → i ≠ kernelTmpPtIdx) :
  (s.setTmp i e).tmpFrame = s.tmpFrame
  := by
  rw [State.tmpFrame, kernelGetTemporaryEntry, State.setTmp, State.set_kernelPt, State.mem_set]
  by_cases hf : s.kernelPt = s.tmpFrame
  · rw [← hf, Function.update_self, Function.update_of_ne (Ne.symm (h hf.symm)), hf]
    rw [State.tmpFrame, kernelGetTemporaryEntry] at hf
    rw [State.tmpFrame, kernelGetTemporaryEntry, ← hf]
    exact hf.symm
  · rw [Function.update_of_ne hf]
    rfl

theorem lt_iff_of_pages {a b : UInt32} {k p : ℕ} (ha : a.toNat = 4096 * k)
    (hb : b.toNat = 4096 * p) :
  a < b ↔ k < p
  := by
  rw [UInt32.lt_iff_toNat_lt]
  omega

/-- The `n` entries from `j` on are free for mappings. -/
def Vacant (pdtIdx : ℕ) (t : Table) (j n : ℕ) : Prop :=
  ∀ i, j ≤ i → i < j + n →
    (t i).isEntryPresent = false ∧ ¬ (pdtIdx = kernelPdtIdx ∧ i = kernelTmpPtIdx)

/-- The loop of `pt_map_memory` fills the entries up to the end of the table or of the pages asked for, to
the first entry that is present, or to that of the temporary mapping. -/
theorem ptMapMemoryFrom_spec {pdtIdx p : ℕ} {size : UInt32} (hsize : size.toNat = 4096 * p)
    (rw pl : UInt8) {n j k : ℕ} {s : State} (paddr : UInt32) {mapped : UInt32}
    (htmp : s.tmpFrame = s.kernelPt → (s.tmp kernelTmpPtIdx).isEntryPresent = true) (hn : j + n = 1024)
    (hmapped : mapped.toNat = 4096 * k) (hk : k ≤ p) :
  ∃ m, k + m ≤ p ∧ m ≤ n ∧ Vacant pdtIdx (s.mem s.tmpFrame) j m ∧
    (k + m = p ∨ m = n ∨ (s.tmp (j + m)).isEntryPresent = true ∨
      (pdtIdx = kernelPdtIdx ∧ j + m = kernelTmpPtIdx)) ∧
    ptMapMemoryFrom pdtIdx size rw pl n s j paddr mapped =
      (mapped + UInt32.ofNat m * fourKb,
        s.fill s.tmpFrame (fillEntries j m paddr rw pl (s.mem s.tmpFrame)))
  := by
  have hnone : ∀ {t : Table} j, Vacant pdtIdx t j 0 := fun j i hi hlt => by omega
  -- no entry is filled when the loop is left at once
  have hleave : (mapped, s) = (mapped + UInt32.ofNat 0 * fourKb,
      s.fill s.tmpFrame (fillEntries j 0 paddr rw pl (s.mem s.tmpFrame))) := by
    rw [fillEntries_zero, State.fill_self]
    simp
  induction n generalizing s j k paddr mapped with
  | zero => exact ⟨0, by omega, le_rfl, hnone j, Or.inr (Or.inl rfl), hleave⟩
  | succ n ih =>
      rw [ptMapMemoryFrom]
      by_cases hlt : k < p
      case neg =>
        rw [if_neg (by rwa [lt_iff_of_pages hmapped hsize])]
        exact ⟨0, by omega, by omega, hnone j, Or.inl (by omega), hleave⟩
      rw [if_pos (by rwa [lt_iff_of_pages hmapped hsize])]
      by_cases hpresent : (s.tmp j).isEntryPresent = true
      case pos =>
        rw [if_pos hpresent]
        exact ⟨0, by omega, by omega, hnone j, Or.inr (Or.inr (Or.inl hpresent)), hleave⟩
      rw [if_neg hpresent]
      by_cases hguard : pdtIdx = kernelPdtIdx ∧ j = kernelTmpPtIdx
      case pos =>
        rw [if_pos hguard]
        exact ⟨0, by omega, by omega, hnone j, Or.inr (Or.inr (Or.inr hguard)), hleave⟩
      rw [if_neg hguard]
      set s' := s.setTmp j (createPtEntry paddr rw pl)
      -- the entry of the temporary mapping is present while it is in use
      have hspared : s.tmpFrame = s.kernelPt → j ≠ kernelTmpPtIdx := by
        rintro hf rfl
        exact hpresent (htmp hf)
      have hframe : s'.tmpFrame = s.tmpFrame := tmpFrame_setTmp _ hspared
      have hmem : s'.mem s'.tmpFrame =
          Function.update (s.mem s.tmpFrame) j (createPtEntry paddr rw pl) := by
        rw [hframe]
        apply Function.update_self
      have hsame : ∀ i, i ≠ j → s'.tmp i = s.tmp i := by
        intro i hi
        rw [State.tmp, hmem, Function.update_of_ne hi]
        rfl
      have hnext : (mapped + fourKb).toNat = 4096 * (k + 1) := by
        have := size.toNat_lt
        rw [UInt32.toNat_add, hmapped, toNat_fourKb]
        omega
      have htmp' : s'.tmpFrame = s'.kernelPt → (s'.tmp kernelTmpPtIdx).isEntryPresent = true := by
        rw [hframe]
        intro hf
        rw [hsame _ (Ne.symm (hspared hf))]
        exact htmp hf
      obtain ⟨m, hmp, hmn, hvacant, hstop, hrun⟩ := ih (s := s') (j := j + 1)
        (paddr + fourKb) htmp' (by omega) hnext (by omega) (by
          rw [fillEntries_zero, State.fill_self]
          simp)
      refine ⟨m + 1, by omega, by omega, ?_, ?_, ?_⟩
      · intro i hji him
        rcases Nat.eq_or_lt_of_le hji with rfl | hlt
        · exact ⟨by simpa [State.tmp] using hpresent, hguard⟩
        · obtain ⟨habsent, hspared⟩ := hvacant i hlt (by omega)
          rw [← State.tmp, hsame i (by omega)] at habsent
          exact ⟨habsent, hspared⟩
      · rw [show j + (m + 1) = j + 1 + m by omega, ← hsame _ (by omega)]
        rcases hstop with h | h | h
        · exact Or.inl (by omega)
        · exact Or.inr (Or.inl (by omega))
        · exact Or.inr (Or.inr h)
      · have hadd := add_ofNat_succ_mul mapped fourKb m
        rw [hrun, hmem, fillEntries_succ, hframe, hadd]
        apply congrArg (Prod.mk _)
        apply State.fill_fill

/-- The `m` entries from `j` on are vacant, and no more of the `p` entries asked for could be
filled: the table ends, or the next entry is present or that of the temporary mapping.  `pt` says
that the table is the one with the temporary mapping. -/
structure Stretch (pdtIdx : ℕ) (pt : Prop) (t : Table) (j p m : ℕ) : Prop where
  le : m ≤ p
  within : j + m ≤ 1024
  within_pt : pt → 0 < m → j + m ≤ kernelTmpPtIdx
  vacant : Vacant pdtIdx t j m
  stop : m = p ∨ j + m = 1024 ∨ (t (j + m)).isEntryPresent = true ∨
    ((pdtIdx = kernelPdtIdx ∨ pt) ∧ j + m = kernelTmpPtIdx)

/-- `pt_map_memory` fills a stretch of the table. -/
theorem ptMapMemory_spec (s : State) (pdtIdx : ℕ) (paddr vaddr : UInt32) {size : UInt32} {p : ℕ}
    (hsize : size.toNat = 4096 * p) (rw pl : UInt8)
    (htmp : s.tmpFrame = s.kernelPt → (s.tmp kernelTmpPtIdx).isEntryPresent = true) :
  ∃ m, Stretch pdtIdx (s.tmpFrame = s.kernelPt) (s.mem s.tmpFrame) (virtualToPtIdx vaddr) p m ∧
    ptMapMemory s pdtIdx paddr vaddr size rw pl = (UInt32.ofNat m * fourKb,
      s.fill s.tmpFrame (fillEntries (virtualToPtIdx vaddr) m paddr rw pl (s.mem s.tmpFrame)))
  := by
  have hj := virtualToPtIdx_lt vaddr
  obtain ⟨m, hmp, hmn, hvacant, hstop, hrun⟩ := ptMapMemoryFrom_spec hsize rw pl paddr htmp
    (show virtualToPtIdx vaddr + (1024 - virtualToPtIdx vaddr) = 1024 by omega)
    (show (0 : UInt32).toNat = 4096 * 0 from rfl) (Nat.zero_le p)
  rw [UInt32.zero_add] at hrun
  refine ⟨m, ⟨by omega, by omega, ?_, hvacant, ?_⟩, hrun⟩
  · intro hf hpos
    by_contra hgt
    have hpresent := htmp hf
    rw [kernelTmpPtIdx] at hgt hpresent
    rw [State.tmp, (hvacant 1023 (by omega) (by omega)).1] at hpresent
    simp at hpresent
  · rcases hstop with h | h | h | h
    · exact Or.inl (by omega)
    · exact Or.inr (Or.inl (by omega))
    · exact Or.inr (Or.inr (Or.inl h))
    · exact Or.inr (Or.inr (Or.inr ⟨Or.inl h.1, h.2⟩))

/-! ### Clearing a page table -/

/-- A table with the `m` entries from `j` on cleared. -/
def clearEntries (j m : ℕ) (t : Table) : Table := fun i =>
  if j ≤ i ∧ i < j + m ∧ (t i).isEntryPresent then Entry.zero else t i

theorem clearEntries_zero (j : ℕ) (t : Table) :
  clearEntries j 0 t = t
  := by
  funext i
  rw [clearEntries, if_neg (by omega)]

theorem clearEntries_succ (j m : ℕ) (t : Table) :
  clearEntries (j + 1) m (if (t j).isEntryPresent then Function.update t j Entry.zero else t) =
    clearEntries j (m + 1) t
  := by
  funext i
  by_cases hij : i = j
  · subst hij
    simp only [clearEntries, le_refl, show ¬ i + 1 ≤ i by omega, false_and, if_false, true_and]
    by_cases hpresent : (t i).isEntryPresent = true
    · simp [hpresent]
    · simp [hpresent]
  · have hsame : (if (t j).isEntryPresent then Function.update t j Entry.zero else t) i = t i := by
      split
      · apply Function.update_of_ne hij
      · rfl
    simp only [clearEntries, hsame]
    congr 1
    apply propext
    constructor
    · rintro ⟨h₁, h₂, h₃⟩
      exact ⟨by omega, by omega, h₃⟩
    · rintro ⟨h₁, h₂, h₃⟩
      exact ⟨by omega, by omega, h₃⟩

/-- The loop of `pt_unmap_memory` clears the entries up to the end of the table or of the pages asked for,
or to that of the temporary mapping. -/
theorem ptUnmapMemoryFrom_spec {pdtIdx p : ℕ} {size : UInt32} (hsize : size.toNat = 4096 * p)
    {n j k : ℕ} {s : State} {freed : UInt32}
    (hslot : s.tmpFrame = s.kernelPt → pdtIdx = kernelPdtIdx) (hn : j + n = 1024)
    (hfreed : freed.toNat = 4096 * k) (hk : k ≤ p) :
  ∃ m, k + m ≤ p ∧ m ≤ n ∧
    (∀ i, j ≤ i → i < j + m → ¬ (pdtIdx = kernelPdtIdx ∧ i = kernelTmpPtIdx)) ∧
    (k + m = p ∨ m = n ∨ (pdtIdx = kernelPdtIdx ∧ j + m = kernelTmpPtIdx)) ∧
    ptUnmapMemoryFrom pdtIdx size n s j freed =
      (freed + UInt32.ofNat m * fourKb,
        s.fill s.tmpFrame (clearEntries j m (s.mem s.tmpFrame)))
  := by
  have hleave : (freed, s) = (freed + UInt32.ofNat 0 * fourKb,
      s.fill s.tmpFrame (clearEntries j 0 (s.mem s.tmpFrame))) := by
    rw [clearEntries_zero, State.fill_self]
    simp
  induction n generalizing s j k freed with
  | zero => exact ⟨0, by omega, le_rfl, by omega, Or.inr (Or.inl rfl), hleave⟩
  | succ n ih =>
      rw [ptUnmapMemoryFrom]
      by_cases hlt : k < p
      case neg =>
        rw [if_neg (by rwa [lt_iff_of_pages hfreed hsize])]
        exact ⟨0, by omega, by omega, by omega, Or.inl (by omega), hleave⟩
      rw [if_pos (by rwa [lt_iff_of_pages hfreed hsize])]
      by_cases hguard : pdtIdx = kernelPdtIdx ∧ j = kernelTmpPtIdx
      case pos =>
        rw [if_pos hguard]
        exact ⟨0, by omega, by omega, by omega, Or.inr (Or.inr hguard), hleave⟩
      rw [if_neg hguard]
      set s' := if (s.tmp j).isEntryPresent then s.setTmp j Entry.zero else s with hs'
      have hframe : s'.tmpFrame = s.tmpFrame := by
        rw [hs']
        split
        · apply tmpFrame_setTmp _ (fun hf hj => hguard ⟨hslot hf, hj⟩)
        · rfl
      have hfill : s' = s.fill s.tmpFrame (if (s.mem s.tmpFrame j).isEntryPresent then
          Function.update (s.mem s.tmpFrame) j Entry.zero else s.mem s.tmpFrame) := by
        rw [hs', State.tmp]
        split
        · rfl
        · rw [State.fill_self]
      have hnext : (freed + fourKb).toNat = 4096 * (k + 1) := by
        have := size.toNat_lt
        rw [UInt32.toNat_add, hfreed, toNat_fourKb]
        omega
      have hpt : s'.kernelPt = s.kernelPt := by rw [hfill, State.fill]
      obtain ⟨m, hmp, hmn, hspared, hstop, hrun⟩ := ih (s := s') (j := j + 1)
        (by rwa [hframe, hpt]) (by omega) hnext (by omega) (by
          rw [clearEntries_zero, State.fill_self]
          simp)
      refine ⟨m + 1, by omega, by omega, ?_, ?_, ?_⟩
      · intro i hji him
        rcases Nat.eq_or_lt_of_le hji with rfl | hlt
        · exact hguard
        · apply hspared i hlt (by omega)
      · rw [show j + (m + 1) = j + 1 + m by omega]
        rcases hstop with h | h | h
        · exact Or.inl (by omega)
        · exact Or.inr (Or.inl (by omega))
        · exact Or.inr (Or.inr h)
      · have hadd := add_ofNat_succ_mul freed fourKb m
        have hmem : s'.mem s'.tmpFrame = (if (s.mem s.tmpFrame j).isEntryPresent then
            Function.update (s.mem s.tmpFrame) j Entry.zero else s.mem s.tmpFrame) := by
          rw [hframe, hfill]
          apply Function.update_self
        rw [hrun, hmem, clearEntries_succ, hframe, hadd]
        apply congrArg (Prod.mk _)
        rw [hfill]
        apply State.fill_fill

/-- The entries that `pt_unmap_memory` clears, of the `p` ones from `j` on. -/
def cleared (pdtIdx j p : ℕ) : ℕ :=
  min p ((if pdtIdx = kernelPdtIdx then kernelTmpPtIdx else 1024) - j)

/-- `pt_unmap_memory` clears the entries from that of `vaddr` on. -/
theorem ptUnmapMemory_spec (s : State) (pdtIdx : ℕ) (vaddr : UInt32) {size : UInt32} {p : ℕ}
    (hsize : size.toNat = 4096 * p) (hslot : s.tmpFrame = s.kernelPt → pdtIdx = kernelPdtIdx) :
  ptUnmapMemory s pdtIdx vaddr size =
    (UInt32.ofNat (cleared pdtIdx (virtualToPtIdx vaddr) p) * fourKb,
      s.fill s.tmpFrame (clearEntries (virtualToPtIdx vaddr)
        (cleared pdtIdx (virtualToPtIdx vaddr) p) (s.mem s.tmpFrame)))
  := by
  have hj := virtualToPtIdx_lt vaddr
  obtain ⟨m, hmp, hmn, hspared, hstop, hrun⟩ := ptUnmapMemoryFrom_spec hsize hslot
    (show virtualToPtIdx vaddr + (1024 - virtualToPtIdx vaddr) = 1024 by omega)
    (show (0 : UInt32).toNat = 4096 * 0 from rfl) (Nat.zero_le p)
  have hm : m = cleared pdtIdx (virtualToPtIdx vaddr) p := by
    rw [cleared]
    by_cases hidx : pdtIdx = kernelPdtIdx
    · have hlast : virtualToPtIdx vaddr + m ≤ 1023 := by
        by_contra hlt
        exact hspared 1023 (by omega) (by omega) ⟨hidx, rfl⟩
      simp only [hidx, true_and, kernelTmpPtIdx, if_true] at hstop ⊢
      omega
    · simp only [hidx, false_and, or_false, if_false] at hstop ⊢
      omega
  rw [UInt32.zero_add, hm] at hrun
  exact hrun

/-! ### Searching a page table -/

/-- The loop of `pt_kernel_find_next_vaddr` finds vacant entries, as many as asked for, or
none. -/
theorem ptKernelFindNextVaddrFrom_spec (s : State) (pdtIdx : ℕ) (num : UInt32) {n : ℕ}
    {found : UInt32} (orgI : ℕ) (hn : n ≤ 1024) (hfound : found.toNat + n ≤ 1024)
    (hzero : found.toNat ≠ 0 → orgI + found.toNat + n = 1024)
    (hvacant : found.toNat ≠ 0 → Vacant pdtIdx (s.mem s.tmpFrame) orgI found.toNat) :
  ptKernelFindNextVaddrFrom s pdtIdx num n found orgI = 0 ∨
    ∃ j, ptKernelFindNextVaddrFrom s pdtIdx num n found orgI =
        pdtIdxToVirtual pdtIdx ||| ptIdxToVirtual j ∧
      0 < num.toNat ∧ j + num.toNat ≤ 1024 ∧ Vacant pdtIdx (s.mem s.tmpFrame) j num.toNat
  := by
  induction n generalizing found orgI with
  | zero => exact Or.inl rfl
  | succ n ih =>
      simp only [ptKernelFindNextVaddrFrom]
      split
      · apply ih _ (by omega) (by simp; omega) (by simp) (by simp)
      case isFalse hfree =>
        obtain ⟨habsent, hspared⟩ := not_or.mp hfree
        have hnext : (found + 1).toNat = found.toNat + 1 := by
          rw [UInt32.toNat_add, UInt32.toNat_one]
          omega
        have hiff : found = 0 ↔ found.toNat = 0 := by
          rw [← UInt32.toNat_inj, UInt32.toNat_zero]
        set orgI' := if found = 0 then 1023 - n else orgI with horg
        have hend : orgI' + (found + 1).toNat + n = 1024 := by
          rw [horg]
          split
          case isTrue h =>
            rw [hiff] at h
            omega
          case isFalse h =>
            rw [hiff] at h
            have := hzero h
            omega
        have hvacant' : Vacant pdtIdx (s.mem s.tmpFrame) orgI' (found + 1).toNat := by
          intro i hi hlt
          by_cases hlast : i = 1023 - n
          · rw [hlast]
            exact ⟨by simpa [State.tmp] using habsent, hspared⟩
          · have hne : found.toNat ≠ 0 := by omega
            have horg' : orgI' = orgI := if_neg (fun h => hne (hiff.mp h))
            rw [horg'] at hi
            apply hvacant hne i hi
            omega
        split
        case isTrue heq =>
          right
          refine ⟨orgI', rfl, ?_, ?_, ?_⟩
          · rw [← heq]
            omega
          · rw [← heq]
            omega
          · rwa [← heq]
        case isFalse =>
          apply ih _ (by omega) (by omega) (fun _ => hend) (fun _ => hvacant')

/-! ### The page frame allocator -/

theorem pdtKernelFindNextVaddr_pfa (s : State) (size : UInt32) :
  (pdtKernelFindNextVaddr s size).2.pfa = s.pfa
  := by
  have hfrom : ∀ n s, (pdtKernelFindNextVaddrFrom size n s).2.pfa = s.pfa := by
    intro n
    induction n with
    | zero => exact fun s => rfl
    | succ n ih =>
        intro s
        have hslot : (findInSlot s (1023 - n) size).2.pfa = s.pfa := by
          rw [findInSlot]
          split
          · rfl
          · rfl
        rw [pdtKernelFindNextVaddrFrom]
        dsimp only
        split
        · exact hslot
        · rw [ih, hslot]
  exact hfrom 256 s

theorem ptMapMemory_pfa (s : State) (pdtIdx : ℕ) (paddr vaddr size : UInt32) (rw pl : UInt8) :
  (ptMapMemory s pdtIdx paddr vaddr size rw pl).2.pfa = s.pfa
  := by
  have hfrom : ∀ n s ptIdx paddr mapped,
      (ptMapMemoryFrom pdtIdx size rw pl n s ptIdx paddr mapped).2.pfa = s.pfa := by
    intro n
    induction n with
    | zero => exact fun s ptIdx paddr mapped => rfl
    | succ n ih =>
        intro s ptIdx paddr mapped
        rw [ptMapMemoryFrom]
        split
        · split
          · rfl
          · split
            · rfl
            · rw [ih]
              rfl
        · rfl
  exact hfrom _ s _ _ _

section Allocator

variable {P : Pfa.State → Prop} (hP : ∀ p, P p → P (Pfa.pfaAllocate p 1).2)

include hP

/-- What the allocation of a frame keeps, a round of `pdt_map_memory` keeps. -/
theorem mapRound_pfa (s : State) (d paddr vaddr size : UInt32) (rw pl : UInt8) (h : P s.pfa) :
  P (mapRound s d paddr vaddr size rw pl).2.pfa
  := by
  have hopen : P (openTable s d (virtualToPdtIdx vaddr)).2.pfa := by
    rw [openTable]
    split
    · exact h
    · dsimp only
      split
      · exact hP s.pfa h
      · exact hP s.pfa h
  rw [mapRound]
  cases htable : openTable s d (virtualToPdtIdx vaddr) with
  | mk opened s' =>
      rw [htable] at hopen
      cases opened with
      | none => exact hopen
      | some t =>
          have hmap := ptMapMemory_pfa s' (virtualToPdtIdx vaddr) paddr vaddr size rw pl
          rw [← hmap] at hopen
          dsimp only
          split
          · exact hopen
          · rw [kernelSetTemporaryEntry]
            split
            · exact hopen
            · exact hopen

/-- What the allocation of a frame keeps, `pdt_map_kernel_memory` keeps. -/
theorem pdtMapKernelMemory_pfa (s : State) (paddr vaddr size : UInt32) (rw pl : UInt8) (h : P s.pfa) :
  P (pdtMapKernelMemory s paddr vaddr size rw pl).2.pfa
  := by
  have hfrom : ∀ n s d paddr vaddr size total, P s.pfa →
      P (pdtMapMemoryFrom d rw pl n s paddr vaddr size total).2.pfa := by
    intro n
    induction n with
    | zero => exact fun s d paddr vaddr size total h => h
    | succ n ih =>
        intro s d paddr vaddr size total h
        have hround := mapRound_pfa hP s d paddr vaddr size rw pl h
        rw [pdtMapMemoryFrom]
        split
        · exact h
        · dsimp only
          split
          · exact hround
          · exact ih _ _ _ _ _ _ hround
  exact hfrom _ s _ _ _ _ _ h

end Allocator

end Paging
