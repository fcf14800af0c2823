import Aenix.Paging.Tables

/-!
# Rounds

What one round of each loop of `paging.c` over a page directory does, with the temporary
mapping out of the way.
-/

open Aenix

namespace Paging

/-- The page table that entry `i` of the directory in frame `d` refers to. -/
abbrev State.table (s : State) (d : UInt32) (i : ℕ) : UInt32 :=
  (s.mem d i).paddr

/-- Entry `i` of the directory in frame `d` is present. -/
abbrev State.has (s : State) (d : UInt32) (i : ℕ) : Prop :=
  (s.mem d i).isEntryPresent = true

variable {s : State} {d paddr vaddr size : UInt32} {rw pl : UInt8} {p : ℕ}

/-- Entries other than that of the temporary mapping can be read while it is in use. -/
theorem mem_map_apply (s : State) (paddr f : UInt32) {i : ℕ}
    (h : f = s.kernelPt → i ≠ kernelTmpPtIdx) :
  (kernelMapTemporaryMemory s paddr).mem f i = s.mem f i
  := by
  rw [kernelMapTemporaryMemory, State.mem_set]
  by_cases hf : f = s.kernelPt
  · rw [hf, Function.update_self, Function.update_of_ne (h hf)]
  · rw [Function.update_of_ne hf]

theorem present_map_tmp (s : State) (paddr : UInt32) :
  ((kernelMapTemporaryMemory s paddr).mem s.kernelPt kernelTmpPtIdx).isEntryPresent = true
  := by
  simp [kernelMapTemporaryMemory]

/-! ### Searching -/

/-- The pages that a size needs. -/
def pages (size : UInt32) : ℕ := (alignUp size fourKb / fourKb).toNat

/-- The `n` entries from `j` on of slot `i` of a directory have no page: they are vacant in the
page table of the slot, or the slot has none and they are its first ones. -/
def State.Free (s : State) (d : UInt32) (i j n : ℕ) : Prop :=
  if s.has d i then
    0 < n ∧ j + n ≤ 1024 ∧ Vacant i (s.mem (s.table d i)) j n
  else
    j = 0

theorem vacant_of_map {pdtIdx j n : ℕ} {f : UInt32}
    (h : Vacant pdtIdx ((kernelMapTemporaryMemory s paddr).mem f) j n) :
  Vacant pdtIdx (s.mem f) j n
  := by
  intro i hi hlt
  obtain ⟨habsent, hspared⟩ := h i hi hlt
  refine ⟨?_, hspared⟩
  rwa [← mem_map_apply s paddr f]
  rintro rfl rfl
  rw [present_map_tmp] at habsent
  simp at habsent

theorem findInSlot_spec (s : State) (i : ℕ) (size : UInt32) :
  ∃ v, findInSlot s i size = (v, s) ∧
    (v ≠ 0 → ∃ j, v = pdtIdxToVirtual i ||| ptIdxToVirtual j ∧ j < 1024 ∧
      s.Free s.kernelPdt i j (pages size))
  := by
  rw [findInSlot]
  by_cases hpresent : s.has s.kernelPdt i
  · have htmp := tmpFrame_map s (s.mem s.kernelPdt i).dvd_paddr
    rw [if_pos hpresent]
    refine ⟨_, congrArg (Prod.mk _) (restore_map s _), ?_⟩
    intro hv
    rcases ptKernelFindNextVaddrFrom_spec (kernelMapTemporaryMemory s (s.table s.kernelPdt i)) i
      (alignUp size fourKb / fourKb) 0 le_rfl
      (show (0 : UInt32).toNat + 1024 ≤ 1024 from le_rfl) (fun h => absurd rfl h)
      (fun h => absurd rfl h) with hzero | ⟨j, hj, hpos, hle, hvacant⟩
    · exact absurd hzero hv
    · rw [htmp] at hvacant
      refine ⟨j, hj, by omega, ?_⟩
      rw [State.Free, if_pos hpresent]
      exact ⟨hpos, hle, vacant_of_map hvacant⟩
  · rw [if_neg hpresent]
    refine ⟨_, rfl, ?_⟩
    intro hv
    refine ⟨0, ?_, by omega, ?_⟩
    · simp [ptIdxToVirtual]
    · rw [State.Free, if_neg hpresent]

/-- `pdt_kernel_find_next_vaddr` changes nothing, and the address it returns is that of free
pages in the kernel half. -/
theorem pdtKernelFindNextVaddr_spec (s : State) (size : UInt32) :
  ∃ v, pdtKernelFindNextVaddr s size = (v, s) ∧
    (v ≠ 0 → ∃ i j, kernelPdtIdx ≤ i ∧ i < 1024 ∧ j < 1024 ∧ v.toNat = 4096 * (1024 * i + j) ∧
      s.Free s.kernelPdt i j (pages size))
  := by
  have hloop : ∀ n ≤ 256, ∃ v, pdtKernelFindNextVaddrFrom size n s = (v, s) ∧
      (v ≠ 0 → ∃ i j, kernelPdtIdx ≤ i ∧ i < 1024 ∧ j < 1024 ∧
        v.toNat = 4096 * (1024 * i + j) ∧ s.Free s.kernelPdt i j (pages size)) := by
    intro n hn
    induction n with
    | zero => exact ⟨0, rfl, fun h => absurd rfl h⟩
    | succ n ih =>
        obtain ⟨v, hfind, hv⟩ := findInSlot_spec s (1023 - n) size
        simp only [pdtKernelFindNextVaddrFrom, hfind]
        by_cases hzero : v = 0
        · rw [if_neg (by simpa using hzero)]
          exact ih (by omega)
        · rw [if_pos hzero]
          refine ⟨v, rfl, fun _ => ?_⟩
          obtain ⟨j, rfl, hj, hfree⟩ := hv hzero
          have hi : kernelPdtIdx ≤ 1023 - n := by
            simp only [kernelPdtIdx]
            omega
          refine ⟨1023 - n, j, hi, by omega, hj, ?_, hfree⟩
          apply toNat_pdtIdxToVirtual_or (by omega) hj
  exact hloop 256 le_rfl

/-- `get_pdt_paddr` changes nothing, and finds the frame that the pointer resolves to. -/
theorem getPdtPaddr_spec {f : UInt32} (h : s.resolve vaddr = some f)
    (htmp : s.table s.kernelPdt (virtualToPdtIdx vaddr) = s.kernelPt →
      virtualToPtIdx vaddr ≠ kernelTmpPtIdx) :
  getPdtPaddr s vaddr = (f, s)
  := by
  simp only [State.resolve, State.page, Option.map_eq_some_iff] at h
  obtain ⟨e, he, rfl⟩ := h
  obtain ⟨-, he⟩ := Option.ite_none_right_eq_some.mp he
  obtain rfl := Option.some.inj he
  simp only [getPdtPaddr]
  rw [ restore_map, State.tmp, tmpFrame_map s (Entry.dvd_paddr _),
    mem_map_apply s _ _ htmp]

/-! ### Mapping -/

theorem kernelSetTemporaryEntry_set (s : State) (h : d ≠ s.kernelPt) (i : ℕ) (e e' : Entry) :
  kernelSetTemporaryEntry (s.set d i e) e' = (kernelSetTemporaryEntry s e').set d i e
  := by
  rw [kernelSetTemporaryEntry, State.set_kernelPt, State.set_comm s h, kernelSetTemporaryEntry]

theorem ofNat_mul_fourKb_eq_zero {m : ℕ} (h : m < 2 ^ 20) :
  UInt32.ofNat m * fourKb = 0 ↔ m = 0
  := by
  rw [← UInt32.toNat_inj, UInt32.toNat_mul, UInt32.toNat_ofNat', toNat_fourKb, UInt32.toNat_zero]
  omega

/-- A round on a slot with a page table fills vacant entries of the table. -/
theorem mapRound_has (hsize : size.toNat = 4096 * p) (hhas : s.has d (virtualToPdtIdx vaddr))
    (hdt : s.table d (virtualToPdtIdx vaddr) ≠ d) (hdpt : d ≠ s.kernelPt) (paddr : UInt32)
    (rw pl : UInt8) :
  ∃ m, Stretch (virtualToPdtIdx vaddr) (s.table d (virtualToPdtIdx vaddr) = s.kernelPt)
      (s.mem (s.table d (virtualToPdtIdx vaddr))) (virtualToPtIdx vaddr) p m ∧
    mapRound s d paddr vaddr size rw pl = (UInt32.ofNat m * fourKb,
      s.fill (s.table d (virtualToPdtIdx vaddr)) (fillEntries (virtualToPtIdx vaddr) m paddr rw pl
        (s.mem (s.table d (virtualToPdtIdx vaddr)))))
  := by
  generalize hi : virtualToPdtIdx vaddr = i at *
  generalize hji : virtualToPtIdx vaddr = j at *
  set t := s.table d i
  set s₁ := kernelMapTemporaryMemory s t with hs₁
  have htmp : s₁.tmpFrame = t := tmpFrame_map s (Entry.dvd_paddr _)
  obtain ⟨m, hstretch, hmap⟩ := ptMapMemory_spec s₁ i paddr vaddr hsize rw pl (by
    intro hf
    rw [State.tmp, hf]
    exact present_map_tmp s t)
  rw [htmp, hji] at hstretch hmap
  have hrestore : kernelSetTemporaryEntry (s₁.fill t (fillEntries j m paddr rw pl (s₁.mem t)))
      (kernelGetTemporaryEntry s) = s.fill t (fillEntries j m paddr rw pl (s.mem t)) := by
    -- the entries filled are not that of the temporary mapping
    have hout : t = s.kernelPt → ¬ (j ≤ kernelTmpPtIdx ∧ kernelTmpPtIdx < j + m) := by
      intro ht hin
      have hle := hstretch.within_pt ht (by omega)
      omega
    apply restore_edit
    · intro ht tab e
      funext k
      by_cases hk : k = kernelTmpPtIdx
      · rw [hk, Function.update_self, fillEntries, if_neg (hout ht), Function.update_self]
      · rw [Function.update_of_ne hk, fillEntries, fillEntries, Function.update_of_ne hk]
    · intro ht tab
      rw [fillEntries, if_neg (hout ht)]
  refine ⟨m, ⟨hstretch.le, hstretch.within, hstretch.within_pt, vacant_of_map hstretch.vacant, ?_⟩, ?_⟩
  · rcases hstretch.stop with h | h | h | h
    · exact Or.inl h
    · exact Or.inr (Or.inl h)
    · by_cases hguard : t = s.kernelPt ∧ j + m = kernelTmpPtIdx
      · exact Or.inr (Or.inr (Or.inr ⟨Or.inr hguard.1, hguard.2⟩))
      · rw [hs₁, mem_map_apply s t t (fun ht hm => hguard ⟨ht, hm⟩)] at h
        exact Or.inr (Or.inr (Or.inl h))
    · exact Or.inr (Or.inr (Or.inr h))
  · have hopen : openTable s d i = (some t, s₁) := by rw [openTable, if_pos hhas]
    have hstill : (s₁.fill t (fillEntries j m paddr rw pl (s₁.mem t))).has d i := by
      rw [State.has, State.mem_fill, Function.update_of_ne (Ne.symm hdt), hs₁,
        mem_map_of_ne s t hdpt]
      exact hhas
    simp only [mapRound, hi, hopen, hmap]
    rw [if_pos hstill, hrestore]
    split
    case isTrue hzero => rw [hzero]
    case isFalse => rfl

/-- A round on a slot without a page table, when there is no frame for one. -/
theorem mapRound_no_frame (hhas : ¬ s.has d (virtualToPdtIdx vaddr)) {pfa : Pfa.State}
    (hpfa : Pfa.pfaAllocate s.pfa 1 = (0, pfa)) :
  mapRound s d paddr vaddr size rw pl = (0, { s with pfa := pfa })
  := by
  simp only [mapRound, openTable, if_neg hhas, hpfa, if_true]

/-- A slot `i` with a new page table `t` in which the `m` entries from `j` on are filled.  The
directory has no entry for a table that is left empty. -/
def State.withTable (s : State) (d : UInt32) (i j m : ℕ) (t paddr : UInt32) (rw pl : UInt8) :
    State :=
  let s := s.fill t (fillEntries j m paddr rw pl fun _ => Entry.zero)
  if m = 0 then s else s.set d i (createPdtEntry t ps4Kb rw pl)

/-- A round on a slot without a page table takes a frame for one. -/
theorem mapRound_frame (hsize : size.toNat = 4096 * p) (hhas : ¬ s.has d (virtualToPdtIdx vaddr))
    {t : UInt32} {pfa : Pfa.State} (hpfa : Pfa.pfaAllocate s.pfa 1 = (t, pfa)) (ht : t ≠ 0)
    (hdvd : 4096 ∣ t.toNat) (htd : t ≠ d) (htpt : t ≠ s.kernelPt) (hdpt : d ≠ s.kernelPt)
    (paddr : UInt32) (rw pl : UInt8) :
  ∃ m, Stretch (virtualToPdtIdx vaddr) False (fun _ => Entry.zero) (virtualToPtIdx vaddr) p m ∧
    mapRound s d paddr vaddr size rw pl = (UInt32.ofNat m * fourKb,
      { s with pfa := pfa }.withTable d (virtualToPdtIdx vaddr) (virtualToPtIdx vaddr) m t paddr
        rw pl)
  := by
  generalize hi : virtualToPdtIdx vaddr = i at *
  generalize hji : virtualToPtIdx vaddr = j at *
  set s₁ : State := { s with pfa := pfa } with hs₁
  set s₂ := kernelMapTemporaryMemory s₁ t with hs₂
  set s₃ := s₂.fill t fun _ => Entry.zero with hs₃
  have htmp₂ : s₂.tmpFrame = t := tmpFrame_map s₁ hdvd
  have htmp : s₃.tmpFrame = t := by
    rw [State.tmpFrame, kernelGetTemporaryEntry, hs₃, State.mem_fill, State.fill_kernelPt,
      Function.update_of_ne (show s₂.kernelPt ≠ t from Ne.symm htpt)]
    exact htmp₂
  have hzero : s₃.mem t = fun _ => Entry.zero := Function.update_self ..
  obtain ⟨m, hstretch, hmap⟩ := ptMapMemory_spec s₃ i paddr vaddr hsize rw pl
    (by rw [htmp]; exact fun h => absurd h htpt)
  rw [htmp, hji, hzero] at hstretch hmap
  rw [eq_false (show t ≠ s₃.kernelPt from htpt)] at hstretch
  have hm : m < 2 ^ 20 := by
    have hlt := size.toNat_lt
    have hle := hstretch.le
    omega
  refine ⟨m, hstretch, ?_⟩
  · have hopen : openTable s d i = (some t, s₃) := by
      simp only [openTable, if_neg hhas, hpfa, if_neg ht, ← hs₁, ← hs₂, htmp₂, ← hs₃]
    have hstill : ¬ (s₃.fill t (fillEntries j m paddr rw pl fun _ => Entry.zero)).has d i := by
      rw [hs₃, State.fill_fill, State.has, State.mem_fill, Function.update_of_ne (Ne.symm htd), hs₂,
        mem_map_of_ne s₁ t hdpt]
      exact hhas
    have hrestore : kernelSetTemporaryEntry
        (s₃.fill t (fillEntries j m paddr rw pl fun _ => Entry.zero)) (kernelGetTemporaryEntry s) =
        s₁.fill t (fillEntries j m paddr rw pl fun _ => Entry.zero) := by
      rw [hs₃, State.fill_fill]
      exact restore_edit s₁ t t (fun _ => fillEntries j m paddr rw pl fun _ => Entry.zero)
        (fun h => absurd h htpt) (fun h => absurd h htpt)
    simp only [mapRound, hi, hopen, hmap, ofNat_mul_fourKb_eq_zero hm]
    rw [if_neg hstill, State.withTable]
    split
    case isTrue hm => rw [hrestore, hm, show UInt32.ofNat 0 * fourKb = 0 from rfl]
    case isFalse hm =>
      have hdpt₃ : d ≠ (s₃.fill t (fillEntries j m paddr rw pl fun _ => Entry.zero)).kernelPt := hdpt
      rw [kernelSetTemporaryEntry_set _ hdpt₃, hrestore]

/-! ### Unmapping -/

/-- The state after a round on slot `i` that clears the `m` entries from `j` on.  The page table
is freed when these are all of its entries and it is not the one with the temporary mapping. -/
def State.withoutPages (s : State) (d : UInt32) (i j m : ℕ) : State :=
  let s' := s.fill (s.table d i) (clearEntries j m (s.mem (s.table d i)))
  if m = 1024 ∧ i ≠ kernelPdtIdx then
    { s' with pfa := Pfa.pfaFree s'.pfa (s.table d i) }.set d i Entry.zero
  else
    s'

theorem ofNat_mul_fourKb_eq_fourMb {m : ℕ} (h : m ≤ 1024) :
  UInt32.ofNat m * fourKb = fourMb ↔ m = 1024
  := by
  rw [← UInt32.toNat_inj, UInt32.toNat_mul, UInt32.toNat_ofNat', toNat_fourKb, toNat_fourMb]
  omega

/-- A round on a slot with a page table clears entries of the table. -/
theorem unmapRound_has (hsize : size.toNat = 4096 * p)
    (hpt : s.table d (virtualToPdtIdx vaddr) = s.kernelPt → virtualToPdtIdx vaddr = kernelPdtIdx) :
  unmapRound s d vaddr size =
    (UInt32.ofNat (cleared (virtualToPdtIdx vaddr) (virtualToPtIdx vaddr) p) * fourKb,
      s.withoutPages d (virtualToPdtIdx vaddr) (virtualToPtIdx vaddr)
        (cleared (virtualToPdtIdx vaddr) (virtualToPtIdx vaddr) p))
  := by
  have hj := virtualToPtIdx_lt vaddr
  generalize hi : virtualToPdtIdx vaddr = i at *
  generalize hji : virtualToPtIdx vaddr = j at *
  set t := s.table d i with ht
  set s₁ := kernelMapTemporaryMemory s t with hs₁
  have htmp : s₁.tmpFrame = t := tmpFrame_map s (Entry.dvd_paddr _)
  have hunmap := ptUnmapMemory_spec s₁ i vaddr hsize (by rwa [htmp])
  rw [htmp, hji] at hunmap
  set m := cleared i j p with hm
  have hle : m ≤ 1024 := by
    rw [hm, cleared, kernelTmpPtIdx]
    split <;> omega
  have hrestore : kernelSetTemporaryEntry (s₁.fill t (clearEntries j m (s₁.mem t)))
      (kernelGetTemporaryEntry s) = s.fill t (clearEntries j m (s.mem t)) := by
    have hout : t = s.kernelPt → ¬ (kernelTmpPtIdx < j + m) := by
      intro heq
      rw [hm, cleared, if_pos (hpt heq), kernelTmpPtIdx]
      omega
    apply restore_edit
    · intro heq tab e
      funext k
      by_cases hk : k = kernelTmpPtIdx
      · rw [hk, Function.update_self, clearEntries, if_neg (fun h => hout heq h.2.1),
          Function.update_self]
      · rw [Function.update_of_ne hk, clearEntries, clearEntries, Function.update_of_ne hk]
    · intro heq tab
      rw [clearEntries, if_neg (fun h => hout heq h.2.1)]
  simp only [unmapRound, hi, ← ht, ← hs₁, hunmap, hrestore, ofNat_mul_fourKb_eq_fourMb hle,
    State.withoutPages]
  split
  · rfl
  · rfl

end Paging
