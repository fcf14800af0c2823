import Aenix.Pfa.Complete
import Aenix.Paging.Rounds

/-!
# Mapping

What `pdt_map_memory` does to the translation of virtual addresses, to the frames and to the
allocator, for a directory whose page tables are not shared (`Separate`).  The relation `Maps`
between the states before and after says this for one round, and composes.
-/

open Aenix

namespace Paging

variable {s s' s'' : State} {d paddr vaddr size : UInt32} {rw pl : UInt8} {p m m' : ℕ}

/-- The page tables of the directory in frame `d` are in use, and differ from each other and from
the directory. -/
structure Separate (s : State) (d : UInt32) : Prop where
  used : d.toNat ∉ s.pfa.free
  pt_used : s.kernelPt.toNat ∉ s.pfa.free
  ne_pt : d ≠ s.kernelPt
  table_used : ∀ i < 1024, s.has d i → (s.table d i).toNat ∉ s.pfa.free
  table_ne : ∀ i < 1024, s.has d i → s.table d i ≠ d
  table_inj : ∀ i < 1024, ∀ j < 1024, s.has d i → s.has d j → s.table d i = s.table d j → i = j

/-- The same without saying that the page tables differ from each other. -/
structure Tables (s : State) (d : UInt32) : Prop where
  used : d.toNat ∉ s.pfa.free
  pt_used : s.kernelPt.toNat ∉ s.pfa.free
  ne_pt : d ≠ s.kernelPt
  table_used : ∀ i < 1024, s.has d i → (s.table d i).toNat ∉ s.pfa.free
  table_ne : ∀ i < 1024, s.has d i → s.table d i ≠ d

theorem Separate.tables (h : Separate s d) :
  Tables s d
  := ⟨h.used, h.pt_used, h.ne_pt, h.table_used, h.table_ne⟩

theorem Tables.separate (h : Tables s d)
    (hinj : ∀ i < 1024, ∀ j < 1024, s.has d i → s.has d j → s.table d i = s.table d j → i = j) :
  Separate s d
  := ⟨h.used, h.pt_used, h.ne_pt, h.table_used, h.table_ne, hinj⟩

theorem Tables.free_ne (h : Tables s d) {t : UInt32} (ht : t.toNat ∈ s.pfa.free) :
  t ≠ d
  := fun heq => h.used (heq ▸ ht)

theorem Tables.table_ne_free (h : Tables s d) {t : UInt32} (ht : t.toNat ∈ s.pfa.free) {i : ℕ}
    (hi : i < 1024) (hhas : s.has d i) :
  s.table d i ≠ t
  := fun heq => h.table_used i hi hhas (heq ▸ ht)

/-- Moreover, only slot `KERNEL_PT_PDT_IDX` may have the page table with the temporary mapping. -/
structure Dir (s : State) (d : UInt32) : Prop extends Separate s d where
  table_pt : ∀ i < 1024, s.has d i → s.table d i = s.kernelPt → i = kernelPdtIdx

/-- The directory has the same entries, and no frame has become free. -/
theorem Tables.congr (h : Tables s d) (hmem : s'.mem d = s.mem d)
    (hfree : s'.pfa.free ⊆ s.pfa.free) (hpt : s'.kernelPt = s.kernelPt) :
  Tables s' d
  := by
  constructor
  · exact fun hin => h.used (hfree hin)
  · rw [hpt]
    exact fun hin => h.pt_used (hfree hin)
  · rw [hpt]
    exact h.ne_pt
  · intro i hi hhas
    rw [State.has, hmem] at hhas
    rw [State.table, hmem]
    exact fun hin => h.table_used i hi hhas (hfree hin)
  · intro i hi hhas
    rw [State.has, hmem] at hhas
    rw [State.table, hmem]
    exact h.table_ne i hi hhas

theorem Separate.congr (h : Separate s d) (hmem : s'.mem d = s.mem d)
    (hfree : s'.pfa.free ⊆ s.pfa.free) (hpt : s'.kernelPt = s.kernelPt) :
  Separate s' d
  := by
  refine (h.tables.congr hmem hfree hpt).separate ?_
  intro i hi j hj hhas hhas'
  rw [State.has, hmem] at hhas hhas'
  rw [State.table, State.table, hmem]
  exact h.table_inj i hi j hj hhas hhas'

theorem Dir.congr (h : Dir s d) (hmem : s'.mem d = s.mem d) (hfree : s'.pfa.free ⊆ s.pfa.free)
    (hpt : s'.kernelPt = s.kernelPt) :
  Dir s' d
  := by
  constructor
  · exact h.toSeparate.congr hmem hfree hpt
  · intro i hi hhas
    rw [State.has, hmem] at hhas
    rw [State.table, hmem, hpt]
    exact h.table_pt i hi hhas

/-- The state variables other than memory are the same. -/
structure SameVars (s s' : State) : Prop where
  kernelPdt : s'.kernelPdt = s.kernelPdt
  kernelPt : s'.kernelPt = s.kernelPt
  cr3 : s'.cr3 = s.cr3

theorem SameVars.refl (s : State) :
  SameVars s s
  := ⟨rfl, rfl, rfl⟩

theorem SameVars.trans (h : SameVars s s') (h' : SameVars s' s'') :
  SameVars s s''
  := ⟨h'.kernelPdt.trans h.kernelPdt, h'.kernelPt.trans h.kernelPt, h'.cr3.trans h.cr3⟩

/-! ### Ranges of pages -/

/-- The number of pages from that of `vaddr` on to that of `v`, going round at the end of the
address space. -/
def pageOff (vaddr v : UInt32) : ℕ :=
  (v.toNat / 4096 + 2 ^ 20 - vaddr.toNat / 4096) % 2 ^ 20

/-- The pages of a range that stays in one slot. -/
theorem pageOff_lt_iff {v : UInt32} (h : virtualToPtIdx vaddr + m ≤ 1024) :
  pageOff vaddr v < m ↔ virtualToPdtIdx v = virtualToPdtIdx vaddr ∧
    virtualToPtIdx vaddr ≤ virtualToPtIdx v ∧ virtualToPtIdx v < virtualToPtIdx vaddr + m
  := by
  have hv := v.toNat_lt
  have hvaddr := vaddr.toNat_lt
  rw [virtualToPtIdx_eq] at h
  rw [pageOff, virtualToPdtIdx_eq, virtualToPdtIdx_eq, virtualToPtIdx_eq, virtualToPtIdx_eq]
  omega

theorem pageOff_eq {v : UInt32} (h : virtualToPtIdx vaddr + m ≤ 1024) (hlt : pageOff vaddr v < m) :
  pageOff vaddr v = virtualToPtIdx v - virtualToPtIdx vaddr
  := by
  have hv := v.toNat_lt
  have hvaddr := vaddr.toNat_lt
  rw [virtualToPtIdx_eq] at h
  rw [pageOff] at hlt
  rw [pageOff, virtualToPtIdx_eq, virtualToPtIdx_eq]
  omega

theorem pageOff_add (vaddr v : UInt32) (h : m < 2 ^ 20) :
  pageOff (vaddr + UInt32.ofNat m * fourKb) v = (pageOff vaddr v + 2 ^ 20 - m) % 2 ^ 20
  := by
  have hv := v.toNat_lt
  have hvaddr := vaddr.toNat_lt
  have hadd : (vaddr + UInt32.ofNat m * fourKb).toNat = (vaddr.toNat + 4096 * m) % 2 ^ 32 := by
    rw [UInt32.toNat_add, UInt32.toNat_mul, UInt32.toNat_ofNat', toNat_fourKb]
    omega
  rw [pageOff, pageOff, hadd]
  omega

/-! ### Translation -/

theorem State.page_of_not_has {v : UInt32} (h : ¬ s.has d (virtualToPdtIdx v)) :
  s.page d v = none
  := by
  simp [State.page, h]

theorem State.page_of_has {v : UInt32} (h : s.has d (virtualToPdtIdx v)) :
  s.page d v =
    if (s.mem (s.table d (virtualToPdtIdx v)) (virtualToPtIdx v)).isEntryPresent then
      some (s.mem (s.table d (virtualToPdtIdx v)) (virtualToPtIdx v))
    else
      none
  := by
  simp [State.page, h]

/-- The translation of an address depends on the entry of its slot and on one entry of the page
table. -/
theorem State.page_congr {v : UInt32}
    (hentry : s'.mem d (virtualToPdtIdx v) = s.mem d (virtualToPdtIdx v))
    (htable : s.has d (virtualToPdtIdx v) →
      s'.mem (s.table d (virtualToPdtIdx v)) (virtualToPtIdx v) =
        s.mem (s.table d (virtualToPdtIdx v)) (virtualToPtIdx v)) :
  s'.page d v = s.page d v
  := by
  simp only [State.page, hentry]
  by_cases h : s.has d (virtualToPdtIdx v)
  · rw [htable h]
  · simp [h]

/-- The entry for the page is that of the temporary mapping, or treated as such. -/
def State.Reserved (s : State) (d v : UInt32) : Prop :=
  virtualToPtIdx v = kernelTmpPtIdx ∧ (virtualToPdtIdx v = kernelPdtIdx ∨
    (s.has d (virtualToPdtIdx v) ∧ s.table d (virtualToPdtIdx v) = s.kernelPt))

/-! ### Mapping -/

/-- The `m` pages from `vaddr` on, which had no translation, are mapped to those from `paddr` on.
New page tables are taken from the free frames. -/
structure Maps (s s' : State) (d paddr vaddr : UInt32) (rw pl : UInt8) (m : ℕ) : Prop where
  map : Pfa.SameMap s.pfa s'.pfa
  taken : s'.pfa.free ⊆ s.pfa.free
  vars : SameVars s s'
  separate : Separate s' d
  kept : ∀ i < 1024, s.has d i → s'.mem d i = s.mem d i
  opened : ∀ i < 1024, ¬ s.has d i → s'.mem d i = s.mem d i ∨
    ∃ t, t.toNat ∈ s.pfa.free ∧ t.toNat ∉ s'.pfa.free ∧ 4096 ∣ t.toNat ∧
      s'.mem d i = createPdtEntry t ps4Kb rw pl ∧
      ∃ v, pageOff vaddr v < m ∧ virtualToPdtIdx v = i
  other : ∀ f, f ≠ d → (∀ i < 1024, s.has d i → f ≠ s.table d i) →
    (f.toNat ∈ s.pfa.free → f.toNat ∈ s'.pfa.free) → s'.mem f = s.mem f
  vacant : ∀ v, pageOff vaddr v < m → s.page d v = none
  spared : ∀ v, pageOff vaddr v < m → ¬ s.Reserved d v
  page : ∀ v, s'.page d v =
    if pageOff vaddr v < m then
      some (createPtEntry (paddr + UInt32.ofNat (pageOff vaddr v) * fourKb) rw pl)
    else
      s.page d v

theorem Maps.refl (h : Separate s d) (paddr vaddr : UInt32) (rw pl : UInt8) :
  Maps s s d paddr vaddr rw pl 0
  := by
  refine ⟨Pfa.SameMap.refl _, subset_rfl, SameVars.refl s, h, ?_, ?_, ?_, ?_, ?_, ?_⟩
  · exact fun _ _ _ => rfl
  · exact fun _ _ _ => Or.inl rfl
  · exact fun _ _ _ _ => rfl
  · intro v hv
    omega
  · intro v hv
    omega
  · intro v
    rw [if_neg (by omega)]

/-- A slot has a page table after mapping when it had one, or when it has got one that was a
free frame. -/
theorem Maps.has_iff (h : Maps s s' d paddr vaddr rw pl m) {i : ℕ} (hi : i < 1024)
    (hhas : s'.has d i) :
  (s.has d i ∧ s'.table d i = s.table d i) ∨
    (¬ s.has d i ∧ (s'.table d i).toNat ∈ s.pfa.free ∧ (s'.table d i).toNat ∉ s'.pfa.free)
  := by
  by_cases hold : s.has d i
  · left
    exact ⟨hold, by rw [State.table, h.kept i hi hold]⟩
  · right
    rcases h.opened i hi hold with heq | ⟨t, hfree, htaken, hdvd, heq, -⟩
    · rw [State.has, heq] at hhas
      exact absurd hhas hold
    · rw [State.table, heq, paddr_createPdtEntry hdvd]
      exact ⟨hold, hfree, htaken⟩

/-- The pages that are reserved are the same, since the page table with the temporary mapping is
not a new one. -/
theorem Maps.reserved_iff (h : Maps s s' d paddr vaddr rw pl m) (hdir : Separate s d) (v : UInt32) :
  s'.Reserved d v ↔ s.Reserved d v
  := by
  have hi := virtualToPdtIdx_lt v
  simp only [State.Reserved, h.vars.kernelPt]
  constructor
  · rintro ⟨hidx, hpdt | ⟨hhas, htable⟩⟩
    · exact ⟨hidx, Or.inl hpdt⟩
    · rcases h.has_iff hi hhas with ⟨hold, heq⟩ | ⟨-, hin, -⟩
      · exact ⟨hidx, Or.inr ⟨hold, by rwa [← heq]⟩⟩
      · rw [htable] at hin
        exact absurd hin hdir.pt_used
  · rintro ⟨hidx, hpdt | ⟨hhas, htable⟩⟩
    · exact ⟨hidx, Or.inl hpdt⟩
    · have hkept := h.kept _ hi hhas
      exact ⟨hidx, Or.inr ⟨by rwa [State.has, hkept], by rwa [State.table, hkept]⟩⟩

/-- The page table with the temporary mapping was in use, and is not a new one. -/
theorem Maps.dir (h : Maps s s' d paddr vaddr rw pl m) (hdir : Dir s d) :
  Dir s' d
  := by
  constructor
  · exact h.separate
  · intro i hi hhas htable
    rw [h.vars.kernelPt] at htable
    rcases h.has_iff hi hhas with ⟨hold, heq⟩ | ⟨-, hin, -⟩
    · apply hdir.table_pt i hi hold
      rw [← heq, htable]
    · rw [htable] at hin
      exact absurd hin hdir.pt_used

theorem Maps.trans (hdir : Separate s d) (h : Maps s s' d paddr vaddr rw pl m)
    (h' : Maps s' s'' d (paddr + UInt32.ofNat m * fourKb) (vaddr + UInt32.ofNat m * fourKb) rw pl m')
    (hlt : m + m' < 2 ^ 20) :
  Maps s s'' d paddr vaddr rw pl (m + m')
  := by
  have hoff : ∀ v, pageOff (vaddr + UInt32.ofNat m * fourKb) v =
      (pageOff vaddr v + 2 ^ 20 - m) % 2 ^ 20 := fun v => pageOff_add vaddr v (by omega)
  have hbound : ∀ v, pageOff vaddr v < 2 ^ 20 := fun v => Nat.mod_lt _ (by decide)
  refine ⟨h.map.trans h'.map, h'.taken.trans h.taken, h.vars.trans h'.vars, h'.separate, ?_, ?_, ?_,
    ?_, ?_, ?_⟩
  · intro i hi hhas
    have hkept := h.kept i hi hhas
    rw [h'.kept i hi (by rwa [State.has, hkept]), hkept]
  · intro i hi hhas
    by_cases hmid : s'.has d i
    · rw [h'.kept i hi hmid]
      rcases h.opened i hi hhas with heq | ⟨t, hfree, htaken, hdvd, heq, v, hv, hvi⟩
      · exact Or.inl heq
      · exact Or.inr ⟨t, hfree, fun ht => htaken (h'.taken ht), hdvd, heq, v, by omega, hvi⟩
    · have hsame : s'.mem d i = s.mem d i := by
        rcases h.opened i hi hhas with heq | ⟨t, -, -, -, heq, -⟩
        · exact heq
        · rw [State.has, heq] at hmid
          simp at hmid
      rcases h'.opened i hi hmid with heq | ⟨t, hfree, htaken, hdvd, heq, v, hv, hvi⟩
      · exact Or.inl (heq.trans hsame)
      · refine Or.inr ⟨t, h.taken hfree, htaken, hdvd, heq, v, ?_, hvi⟩
        rw [hoff] at hv
        have := hbound v
        omega
  · intro f hf htable hfree
    have hmid : f.toNat ∈ s.pfa.free → f.toNat ∈ s'.pfa.free := fun hin => h'.taken (hfree hin)
    rw [h'.other f hf ?_ (fun hin => hfree (h.taken hin)), h.other f hf htable hmid]
    intro i hi hhas
    rcases h.has_iff hi hhas with ⟨hold, heq⟩ | ⟨-, hin, hout⟩
    · rw [heq]
      exact htable i hi hold
    · rintro rfl
      exact hout (hmid hin)
  · intro v hv
    by_cases hlt' : pageOff vaddr v < m
    · exact h.vacant v hlt'
    · have hvac := h'.vacant v (by
        have := hbound v
        rw [hoff]
        omega)
      rwa [h.page, if_neg hlt'] at hvac
  · intro v hv
    by_cases hlt' : pageOff vaddr v < m
    · exact h.spared v hlt'
    · have hspared := h'.spared v (by
        have := hbound v
        rw [hoff]
        omega)
      rwa [h.reserved_iff hdir] at hspared
  · intro v
    have hb := hbound v
    rw [h'.page, h.page, hoff]
    by_cases hlt' : pageOff vaddr v < m
    · rw [if_neg (by omega), if_pos hlt', if_pos (by omega)]
    · by_cases hlt'' : pageOff vaddr v < m + m'
      · have hmod : (pageOff vaddr v + 2 ^ 20 - m) % 2 ^ 20 = pageOff vaddr v - m := by omega
        have hsplit : UInt32.ofNat (pageOff vaddr v) =
            UInt32.ofNat m + UInt32.ofNat (pageOff vaddr v - m) := by
          rw [← UInt32.ofNat_add, Nat.add_sub_cancel' (by omega)]
        rw [hmod, if_pos (by omega), if_pos hlt'', hsplit, UInt32.add_mul, UInt32.add_assoc]
      · rw [if_neg (by omega), if_neg hlt', if_neg hlt'']

/-- Filling vacant entries of the page table of a slot. -/
theorem Separate.maps_fill (h : Separate s d) (hhas : s.has d (virtualToPdtIdx vaddr))
    (hstretch : Stretch (virtualToPdtIdx vaddr) (s.table d (virtualToPdtIdx vaddr) = s.kernelPt)
      (s.mem (s.table d (virtualToPdtIdx vaddr))) (virtualToPtIdx vaddr) p m) :
  Maps s (s.fill (s.table d (virtualToPdtIdx vaddr)) (fillEntries (virtualToPtIdx vaddr) m paddr
    rw pl (s.mem (s.table d (virtualToPdtIdx vaddr))))) d paddr vaddr rw pl m
  := by
  have hi := virtualToPdtIdx_lt vaddr
  have hne := h.table_ne _ hi hhas
  set t := s.table d (virtualToPdtIdx vaddr) with ht
  set s' := s.fill t (fillEntries (virtualToPtIdx vaddr) m paddr rw pl (s.mem t)) with hs'
  have hdir : s'.mem d = s.mem d := by rw [hs', State.mem_fill, Function.update_of_ne (Ne.symm hne)]
  have hother : ∀ f, f ≠ t → s'.mem f = s.mem f := by
    intro f hf
    rw [hs', State.mem_fill, Function.update_of_ne hf]
  have hvacant : ∀ v, pageOff vaddr v < m → s.page d v = none := by
    intro v hv
    obtain ⟨hvi, hle, hlt⟩ := (pageOff_lt_iff hstretch.within).mp hv
    rw [State.page_of_has (by rwa [hvi]), hvi, ← ht, (hstretch.vacant _ hle hlt).1]
    rfl
  have hspared : ∀ v, pageOff vaddr v < m → ¬ s.Reserved d v := by
    rintro v hv ⟨hidx, hres⟩
    obtain ⟨hvi, hle, hlt⟩ := (pageOff_lt_iff hstretch.within).mp hv
    rcases hres with hpdt | ⟨-, htable⟩
    · exact (hstretch.vacant _ hle hlt).2 ⟨by rw [← hvi, hpdt], hidx⟩
    · rw [hvi] at htable
      have hpt := hstretch.within_pt htable (by omega)
      omega
  refine ⟨Pfa.SameMap.refl _, subset_rfl, ⟨rfl, rfl, rfl⟩, ?_, ?_, ?_, ?_, hvacant, hspared, ?_⟩
  · exact h.congr hdir subset_rfl rfl
  · intro i _ _
    rw [hdir]
  · intro i _ _
    exact Or.inl (by rw [hdir])
  · intro f _ htable _
    exact hother f (htable _ hi hhas)
  · intro v
    by_cases hin : pageOff vaddr v < m
    · obtain ⟨hvi, hle, hlt⟩ := (pageOff_lt_iff hstretch.within).mp hin
      have hmem : s'.mem t (virtualToPtIdx v) = createPtEntry (paddr +
          UInt32.ofNat (pageOff vaddr v) * fourKb) rw pl := by
        rw [hs', State.mem_fill, Function.update_self, fillEntries, if_pos ⟨hle, hlt⟩,
          pageOff_eq hstretch.within hin]
      rw [if_pos hin, State.page_of_has (by rwa [State.has, hdir, hvi]), State.table, hdir, hvi,
        ← State.table, ← ht, hmem, isEntryPresent_createPtEntry, if_pos rfl]
    · rw [if_neg hin]
      apply State.page_congr
      · rw [hdir]
      · intro hv
        by_cases hvi : virtualToPdtIdx v = virtualToPdtIdx vaddr
        · have hout : ¬ (virtualToPtIdx vaddr ≤ virtualToPtIdx v ∧
              virtualToPtIdx v < virtualToPtIdx vaddr + m) :=
            fun hjj => hin ((pageOff_lt_iff hstretch.within).mpr ⟨hvi, hjj⟩)
          rw [hvi, ← ht, hs', State.mem_fill, Function.update_self, fillEntries, if_neg hout]
        · rw [hother]
          exact fun heq => hvi (h.table_inj _ (virtualToPdtIdx_lt v) _ hi hv hhas heq)

/-! ### A new page table -/

section NewTable

variable {i j : ℕ} {t : UInt32}

theorem State.withTable_pfa (s : State) (d : UInt32) (i j m : ℕ) (t paddr : UInt32) (rw pl : UInt8) :
  (s.withTable d i j m t paddr rw pl).pfa = s.pfa
  := by
  rw [State.withTable]
  split
  · rfl
  · rfl

theorem State.withTable_vars (s : State) (d : UInt32) (i j m : ℕ) (t paddr : UInt32) (rw pl : UInt8) :
  SameVars s (s.withTable d i j m t paddr rw pl)
  := by
  rw [State.withTable]
  split
  · exact ⟨rfl, rfl, rfl⟩
  · exact ⟨rfl, rfl, rfl⟩

theorem State.withTable_mem_of_ne {f : UInt32} (hfd : f ≠ d) (hft : f ≠ t) :
  (s.withTable d i j m t paddr rw pl).mem f = s.mem f
  := by
  rw [State.withTable]
  split
  · rw [State.mem_fill, Function.update_of_ne hft]
  · rw [State.mem_set, Function.update_of_ne hfd, State.mem_fill, Function.update_of_ne hft]

theorem State.withTable_mem_table (htd : t ≠ d) :
  (s.withTable d i j m t paddr rw pl).mem t = fillEntries j m paddr rw pl fun _ => Entry.zero
  := by
  rw [State.withTable]
  split
  · rw [State.mem_fill, Function.update_self]
  · rw [State.mem_set, Function.update_of_ne htd, State.mem_fill, Function.update_self]

theorem State.withTable_mem_dir (htd : t ≠ d) :
  (s.withTable d i j m t paddr rw pl).mem d =
    if m = 0 then s.mem d else Function.update (s.mem d) i (createPdtEntry t ps4Kb rw pl)
  := by
  rw [State.withTable]
  split
  · rw [State.mem_fill, Function.update_of_ne (Ne.symm htd)]
  · rw [State.mem_set, Function.update_self, State.mem_fill, Function.update_of_ne (Ne.symm htd)]

theorem State.withTable_entry (htd : t ≠ d) (hm : 0 < m) :
  (s.withTable d i j m t paddr rw pl).mem d i = createPdtEntry t ps4Kb rw pl
  := by
  rw [State.withTable_mem_dir htd, if_neg hm.ne', Function.update_self]

theorem State.withTable_mem_dir_of_ne (htd : t ≠ d) {k : ℕ} (hk : k ≠ i) :
  (s.withTable d i j m t paddr rw pl).mem d k = s.mem d k
  := by
  rw [State.withTable_mem_dir htd]
  split
  · rfl
  · rw [Function.update_of_ne hk]

/-- A slot with a page table is the new one or one from before. -/
theorem State.withTable_has (htd : t ≠ d) (hdvd : 4096 ∣ t.toNat) (hhas : ¬ s.has d i) {k : ℕ}
    (hk : (s.withTable d i j m t paddr rw pl).has d k) :
  (k = i ∧ (s.withTable d i j m t paddr rw pl).table d k = t) ∨
    (s.has d k ∧ (s.withTable d i j m t paddr rw pl).table d k = s.table d k)
  := by
  by_cases hki : k = i
  · left
    subst hki
    rw [State.has, State.withTable_mem_dir htd] at hk
    split at hk
    case isTrue => exact absurd hk hhas
    case isFalse hm =>
      rw [State.table, State.withTable_mem_dir htd, if_neg hm, Function.update_self,
        paddr_createPdtEntry hdvd]
      exact ⟨rfl, rfl⟩
  · right
    rw [State.has, State.withTable_mem_dir_of_ne htd hki] at hk
    exact ⟨hk, by rw [State.table, State.withTable_mem_dir_of_ne htd hki]⟩

/-- The new page table gives the pages of the slot. -/
theorem State.withTable_page (htd : t ≠ d) (hdvd : 4096 ∣ t.toNat) {v : UInt32}
    (hvi : virtualToPdtIdx v = i) (hhas : ¬ s.has d i) :
  (s.withTable d i j m t paddr rw pl).page d v =
    if j ≤ virtualToPtIdx v ∧ virtualToPtIdx v < j + m then
      some (createPtEntry (paddr + UInt32.ofNat (virtualToPtIdx v - j) * fourKb) rw pl)
    else
      none
  := by
  by_cases hm : m = 0
  · rw [if_neg (by omega)]
    apply State.page_of_not_has
    rwa [State.has, State.withTable_mem_dir htd, if_pos hm, hvi]
  · have hentry : (s.withTable d i j m t paddr rw pl).mem d (virtualToPdtIdx v) =
        createPdtEntry t ps4Kb rw pl := by
      rw [hvi, State.withTable_entry htd (Nat.pos_of_ne_zero hm)]
    have htable : (s.withTable d i j m t paddr rw pl).table d (virtualToPdtIdx v) = t := by
      rw [State.table, hentry, paddr_createPdtEntry hdvd]
    have hsome : (s.withTable d i j m t paddr rw pl).has d (virtualToPdtIdx v) := by
      rw [State.has, hentry, isEntryPresent_createPdtEntry]
    rw [State.page_of_has hsome, htable, State.withTable_mem_table htd, fillEntries]
    split
    · rw [isEntryPresent_createPtEntry, if_pos rfl]
    · rw [isEntryPresent_zero, if_neg Bool.false_ne_true]

/-- What stays of the page tables of a directory when a free frame becomes one of them. -/
theorem Tables.withTable (h : Tables s d) (hhas : ¬ s.has d i) (ht : t.toNat ∈ s.pfa.free)
    (hdvd : 4096 ∣ t.toNat) {pfa : Pfa.State} (hfree : pfa.free = {f ∈ s.pfa.free | f ≠ t.toNat}) :
  Tables ({ s with pfa := pfa }.withTable d i j m t paddr rw pl) d
  := by
  have hsub : ∀ {f}, f ∈ pfa.free → f ∈ s.pfa.free := by
    intro f hf
    rw [hfree] at hf
    exact hf.1
  have htaken : t.toNat ∉ pfa.free := by
    rw [hfree]
    exact fun hin => hin.2 rfl
  have htd := h.free_ne ht
  have hpt := (State.withTable_vars { s with pfa := pfa } d i j m t paddr rw pl).kernelPt
  have hcases : ∀ {k}, ({ s with pfa := pfa }.withTable d i j m t paddr rw pl).has d k →
      (k = i ∧ ({ s with pfa := pfa }.withTable d i j m t paddr rw pl).table d k = t) ∨
        (s.has d k ∧
          ({ s with pfa := pfa }.withTable d i j m t paddr rw pl).table d k = s.table d k) :=
    fun hk => State.withTable_has (s := { s with pfa := pfa }) htd hdvd hhas hk
  constructor
  · rw [State.withTable_pfa]
    exact fun hin => h.used (hsub hin)
  · rw [State.withTable_pfa, hpt]
    exact fun hin => h.pt_used (hsub hin)
  · rw [hpt]
    exact h.ne_pt
  · intro k hk hsome
    rw [State.withTable_pfa]
    rcases hcases hsome with ⟨-, heq⟩ | ⟨hold, heq⟩
    · rwa [heq]
    · rw [heq]
      exact fun hin => h.table_used k hk hold (hsub hin)
  · intro k hk hsome
    rcases hcases hsome with ⟨-, heq⟩ | ⟨hold, heq⟩
    · rwa [heq]
    · rw [heq]
      exact h.table_ne k hk hold

/-- Two slots that share a page table shared it before, when a free frame has become one. -/
theorem Tables.withTable_shared (h : Tables s d) (hhas : ¬ s.has d i) (ht : t.toNat ∈ s.pfa.free)
    (hdvd : 4096 ∣ t.toNat) {pfa : Pfa.State} {k l : ℕ} (hk : k < 1024) (hl : l < 1024)
    (hsome : ({ s with pfa := pfa }.withTable d i j m t paddr rw pl).has d k)
    (hsome' : ({ s with pfa := pfa }.withTable d i j m t paddr rw pl).has d l)
    (heq : ({ s with pfa := pfa }.withTable d i j m t paddr rw pl).table d k =
      ({ s with pfa := pfa }.withTable d i j m t paddr rw pl).table d l) :
  k = l ∨ (s.has d k ∧ s.has d l ∧ s.table d k = s.table d l)
  := by
  have hcases : ∀ {k}, ({ s with pfa := pfa }.withTable d i j m t paddr rw pl).has d k →
      (k = i ∧ ({ s with pfa := pfa }.withTable d i j m t paddr rw pl).table d k = t) ∨
        (s.has d k ∧
          ({ s with pfa := pfa }.withTable d i j m t paddr rw pl).table d k = s.table d k) :=
    fun hk => State.withTable_has (s := { s with pfa := pfa }) (h.free_ne ht) hdvd hhas hk
  rcases hcases hsome with ⟨rfl, htk⟩ | ⟨hold, htk⟩
  · rcases hcases hsome' with ⟨rfl, -⟩ | ⟨hold', htl⟩
    · exact Or.inl rfl
    · rw [htk, htl] at heq
      exact absurd heq.symm (h.table_ne_free ht hl hold')
  · rcases hcases hsome' with ⟨rfl, htl⟩ | ⟨hold', htl⟩
    · rw [htk, htl] at heq
      exact absurd heq (h.table_ne_free ht hk hold)
    · rw [htk, htl] at heq
      exact Or.inr ⟨hold, hold', heq⟩

/-- A directory stays one when a free frame becomes a page table of it. -/
theorem Separate.withTable (h : Separate s d) (hhas : ¬ s.has d i) (ht : t.toNat ∈ s.pfa.free)
    (hdvd : 4096 ∣ t.toNat) {pfa : Pfa.State} (hfree : pfa.free = {f ∈ s.pfa.free | f ≠ t.toNat}) :
  Separate ({ s with pfa := pfa }.withTable d i j m t paddr rw pl) d
  := by
  refine (h.tables.withTable hhas ht hdvd hfree).separate ?_
  intro k hk l hl hsome hsome' heq
  rcases h.tables.withTable_shared hhas ht hdvd hk hl hsome hsome' heq with hkl | ⟨hold, hold', heq'⟩
  · exact hkl
  · exact h.table_inj k hk l hl hold hold' heq'

end NewTable

/-- A new page table for a slot that has none. -/
theorem Separate.maps_withTable (h : Separate s d) (hhas : ¬ s.has d (virtualToPdtIdx vaddr))
    {pt : Prop} (hstretch : Stretch (virtualToPdtIdx vaddr) pt (fun _ => Entry.zero)
      (virtualToPtIdx vaddr) p m)
    {t : UInt32} {pfa : Pfa.State} (hmap : Pfa.SameMap s.pfa pfa) (ht : t.toNat ∈ s.pfa.free)
    (hfree : pfa.free = {f ∈ s.pfa.free | f ≠ t.toNat}) (hdvd : 4096 ∣ t.toNat) :
  Maps s ({ s with pfa := pfa }.withTable d (virtualToPdtIdx vaddr) (virtualToPtIdx vaddr) m t paddr
    rw pl) d paddr vaddr rw pl m
  := by
  have htaken : t.toNat ∉ pfa.free := by
    rw [hfree]
    exact fun hin => hin.2 rfl
  have htd := h.tables.free_ne ht
  have htable : ∀ k < 1024, s.has d k → s.table d k ≠ t :=
    fun k hk hhas' => h.tables.table_ne_free ht hk hhas'
  have hpfa := State.withTable_pfa { s with pfa := pfa } d (virtualToPdtIdx vaddr)
    (virtualToPtIdx vaddr) m t paddr rw pl
  have hvars := State.withTable_vars { s with pfa := pfa } d (virtualToPdtIdx vaddr)
    (virtualToPtIdx vaddr) m t paddr rw pl
  constructor
  · rwa [hpfa]
  · rw [hpfa]
    intro f hf
    have hf' : f ∈ pfa.free := hf
    rw [hfree] at hf'
    exact hf'.1
  · exact ⟨hvars.kernelPdt, hvars.kernelPt, hvars.cr3⟩
  · exact h.withTable hhas ht hdvd hfree
  · intro k _ hold
    apply State.withTable_mem_dir_of_ne htd
    rintro rfl
    exact hhas hold
  · intro k _ hold
    by_cases hki : k = virtualToPdtIdx vaddr
    · rw [hki, State.withTable_mem_dir htd, hpfa]
      by_cases hm : m = 0
      · rw [if_pos hm]
        exact Or.inl rfl
      · rw [if_neg hm, Function.update_self]
        right
        refine ⟨t, ht, htaken, hdvd, rfl, vaddr, ?_, rfl⟩
        rw [pageOff_lt_iff hstretch.within]
        exact ⟨rfl, le_rfl, by omega⟩
    · exact Or.inl (State.withTable_mem_dir_of_ne htd hki)
  · intro f hfd _ hkept
    apply State.withTable_mem_of_ne hfd
    rintro rfl
    rw [hpfa] at hkept
    exact htaken (hkept ht)
  · intro v hv
    obtain ⟨hvi, -, -⟩ := (pageOff_lt_iff hstretch.within).mp hv
    exact State.page_of_not_has (by rwa [hvi])
  · rintro v hv ⟨hidx, hres⟩
    obtain ⟨hvi, hle, hlt⟩ := (pageOff_lt_iff hstretch.within).mp hv
    rcases hres with hpdt | ⟨hhas', -⟩
    · exact (hstretch.vacant _ hle hlt).2 ⟨by rw [← hvi, hpdt], hidx⟩
    · rw [hvi] at hhas'
      exact hhas hhas'
  · intro v
    by_cases hvi : virtualToPdtIdx v = virtualToPdtIdx vaddr
    · rw [State.withTable_page (s := { s with pfa := pfa }) htd hdvd hvi hhas,
        State.page_of_not_has (by rwa [hvi])]
      by_cases hin : pageOff vaddr v < m
      · rw [if_pos hin, if_pos ((pageOff_lt_iff hstretch.within).mp hin).2,
          pageOff_eq hstretch.within hin]
      · rw [if_neg hin, if_neg fun hjj => hin ((pageOff_lt_iff hstretch.within).mpr ⟨hvi, hjj⟩)]
    · rw [if_neg fun hin => hvi ((pageOff_lt_iff hstretch.within).mp hin).1]
      apply State.page_congr (State.withTable_mem_dir_of_ne htd hvi)
      intro hv
      have hlt := virtualToPdtIdx_lt v
      rw [State.withTable_mem_of_ne (h.table_ne _ hlt hv) (htable _ hlt hv)]

/-! ### The loop of `pdt_map_memory` -/

/-- A single frame: none is free, or one is taken. -/
theorem pfaAllocate_one {pfa : Pfa.State} (h : Pfa.FrameMap pfa) :
  (pfa.free = ∅ ∧ Pfa.pfaAllocate pfa 1 = (0, pfa)) ∨
    ∃ t pfa', Pfa.pfaAllocate pfa 1 = (t, pfa') ∧ t ≠ 0 ∧ Pfa.SameMap pfa pfa' ∧
      t.toNat ∈ pfa.free ∧ pfa'.free = {f ∈ pfa.free | f ≠ t.toNat} ∧ 4096 ∣ t.toNat
  := by
  have hext : ∀ t, Pfa.extent t 1 = {t.toNat} := by
    intro t
    simp [Pfa.extent]
  rcases h.pfaAllocate_free 1 with hfail | ⟨t, pfa', hok, hpos, -, hmap, -, hdvd, hin, hfree⟩
  · left
    refine ⟨?_, hfail⟩
    rw [← Set.not_nonempty_iff_eq_empty, ← Pfa.pfaAllocate_one_ne_zero_iff h, hfail]
    exact fun hne => hne rfl
  · right
    rw [hext] at hin hfree
    refine ⟨t, pfa', hok, ?_, hmap, hin _ (Finset.mem_singleton_self _), ?_, hdvd⟩
    · rintro rfl
      exact absurd hpos (by decide)
    · rw [hfree]
      simp

/-- No page can be mapped at `v`: there is one, or the entry is reserved, or there is no frame for
the page table. -/
def Blocked (s : State) (d v : UInt32) : Prop :=
  if s.has d (virtualToPdtIdx v) then
    s.page d v ≠ none ∨ s.Reserved d v
  else
    s.pfa.free = ∅ ∨ s.Reserved d v

/-- Frames have only been taken for page tables of the directory. -/
def Spent (s s' : State) (d : UInt32) : Prop :=
  ∀ f ∈ s.pfa.free, f ∈ s'.pfa.free ∨
    ∃ i < 1024, ¬ s.has d i ∧ s'.has d i ∧ (s'.table d i).toNat = f

theorem Spent.trans (hmaps : Maps s s' d paddr vaddr rw pl m) (h : Spent s s' d)
    {paddr' vaddr' : UInt32} (hmaps' : Maps s' s'' d paddr' vaddr' rw pl m') (h' : Spent s' s'' d) :
  Spent s s'' d
  := by
  intro f hf
  rcases h f hf with hmid | ⟨i, hi, hnot, hhas, htable⟩
  · rcases h' f hmid with hfree | ⟨i, hi, hnot, hhas, htable⟩
    · exact Or.inl hfree
    · refine Or.inr ⟨i, hi, ?_, hhas, htable⟩
      intro hold
      rw [State.has, hmaps.kept i hi hold] at hnot
      exact hnot hold
  · have hkept := hmaps'.kept i hi hhas
    exact Or.inr ⟨i, hi, hnot, by rwa [State.has, hkept], by rwa [State.table, hkept]⟩

/-- A round maps pages from `vaddr` on, and fails when it maps none. -/
theorem mapRound_spec (hpfa : Pfa.FrameMap s.pfa) (h : Separate s d) (hsize : size.toNat = 4096 * p)
    (hp : 0 < p) (paddr vaddr : UInt32) (rw pl : UInt8) :
  ∃ m s', m ≤ p ∧ mapRound s d paddr vaddr size rw pl = (UInt32.ofNat m * fourKb, s') ∧
    Maps s s' d paddr vaddr rw pl m ∧ (0 < m → Spent s s' d) ∧ (m = 0 → Blocked s d vaddr) ∧
    s'.pfa = if s.has d (virtualToPdtIdx vaddr) then s.pfa else (Pfa.pfaAllocate s.pfa 1).2
  := by
  have hi := virtualToPdtIdx_lt vaddr
  have hj := virtualToPtIdx_lt vaddr
  by_cases hhas : s.has d (virtualToPdtIdx vaddr)
  · obtain ⟨m, hstretch, hround⟩ := mapRound_has hsize hhas (h.table_ne _ hi hhas) h.ne_pt
      paddr rw pl
    refine ⟨m, _, hstretch.le, hround, h.maps_fill hhas hstretch, fun _ f hf => Or.inl hf, ?_, ?_⟩
    · rintro rfl
      rw [Blocked, if_pos hhas]
      rcases hstretch.stop with hstop | hstop | hstop | ⟨hpt, hstop⟩
      · omega
      · omega
      · left
        rw [Nat.add_zero] at hstop
        rw [State.page_of_has hhas, if_pos hstop]
        simp
      · right
        refine ⟨hstop, ?_⟩
        rcases hpt with hpdt | htable
        · exact Or.inl hpdt
        · exact Or.inr ⟨hhas, htable⟩
    · rw [if_pos hhas, State.fill_pfa]
  · rcases pfaAllocate_one hpfa with ⟨hempty, hfail⟩ | ⟨t, pfa, hok, ht, hmap, hin, hfree, hdvd⟩
    · refine ⟨0, s, Nat.zero_le p, mapRound_no_frame hhas hfail, Maps.refl h paddr vaddr rw pl,
        fun _ f hf => Or.inl hf, ?_, ?_⟩
      · intro _
        rw [Blocked, if_neg hhas]
        exact Or.inl hempty
      · rw [if_neg hhas, hfail]
    · have htd := h.tables.free_ne hin
      have htpt : t ≠ s.kernelPt := fun heq => h.pt_used (heq ▸ hin)
      obtain ⟨m, hstretch, hround⟩ := mapRound_frame hsize hhas hok ht hdvd htd htpt h.ne_pt paddr
        rw pl
      refine ⟨m, _, hstretch.le, hround, h.maps_withTable hhas hstretch hmap hin hfree hdvd, ?_, ?_,
        ?_⟩
      · intro hm f hf
        rw [State.withTable_pfa]
        by_cases hft : f = t.toNat
        · refine Or.inr ⟨virtualToPdtIdx vaddr, hi, hhas, ?_, ?_⟩
          · rw [State.has, State.withTable_entry htd hm, isEntryPresent_createPdtEntry]
          · rw [State.table, State.withTable_entry htd hm, paddr_createPdtEntry hdvd, hft]
        · left
          show f ∈ pfa.free
          rw [hfree]
          exact ⟨hf, hft⟩
      · rintro rfl
        rw [Blocked, if_neg hhas]
        right
        rcases hstretch.stop with hstop | hstop | hstop | ⟨hpt, hstop⟩
        · omega
        · omega
        · simp at hstop
        · exact ⟨hstop, Or.inl (hpt.resolve_right id)⟩
      · rw [State.withTable_pfa, if_neg hhas, hok]

theorem toNat_ofNat_mul_fourKb {m : ℕ} (h : m < 2 ^ 20) :
  (UInt32.ofNat m * fourKb).toNat = 4096 * m
  := by
  rw [UInt32.toNat_mul, UInt32.toNat_ofNat', toNat_fourKb]
  omega

/-- The outcome of mapping `p` pages: all of them are mapped, or the first `m`, up to a page where
none can be, and 0 is returned. -/
structure Outcome (s : State) (d paddr vaddr : UInt32) (rw pl : UInt8) (p m : ℕ) (s₁ : State)
    (total r : UInt32) (s' : State) : Prop where
  maps : Maps s s₁ d paddr vaddr rw pl m
  spent : Spent s s₁ d
  none : m = 0 → s₁ = s
  stop : (m = p ∧ r = total ∧ s' = s₁) ∨
    (m < p ∧ r = 0 ∧ Blocked s₁ d (vaddr + UInt32.ofNat m * fourKb) ∧
      Maps s₁ s' d (paddr + UInt32.ofNat m * fourKb) (vaddr + UInt32.ofNat m * fourKb) rw pl 0 ∧
      s'.pfa = if s₁.has d (virtualToPdtIdx (vaddr + UInt32.ofNat m * fourKb)) then s₁.pfa
        else (Pfa.pfaAllocate s₁.pfa 1).2)

theorem Outcome.refl (h : Separate s d) (paddr vaddr total : UInt32) (rw pl : UInt8) :
  Outcome s d paddr vaddr rw pl 0 0 s total total s
  := ⟨Maps.refl h paddr vaddr rw pl, fun _ hf => Or.inl hf, fun _ => rfl, Or.inl ⟨rfl, rfl, rfl⟩⟩

/-- The loop of `pdt_map_memory` maps all the pages, or it returns 0 and has mapped the first of
them. -/
theorem pdtMapMemoryFrom_spec {n q : ℕ} {total : UInt32} (hpfa : Pfa.FrameMap s.pfa)
    (h : Separate s d) (hsize : size.toNat = 4096 * p) (hn : p ≤ n)
    (htotal : total.toNat = 4096 * q) (hq : q + p < 2 ^ 20) (paddr vaddr : UInt32) (rw pl : UInt8) :
  ∃ m s₁ s' r, pdtMapMemoryFrom d rw pl n s paddr vaddr size total = (r, s') ∧
    Outcome s d paddr vaddr rw pl p m s₁ (total + size) r s'
  := by
  have hzero : size = 0 ↔ p = 0 := by
    rw [← UInt32.toNat_inj, hsize, UInt32.toNat_zero]
    omega
  induction n generalizing s p q size total paddr vaddr with
  | zero =>
      obtain rfl : p = 0 := by omega
      rw [hzero.mpr rfl, UInt32.add_zero]
      exact ⟨0, s, s, total, rfl, Outcome.refl h paddr vaddr total rw pl⟩
  | succ n ih =>
      rw [pdtMapMemoryFrom]
      rcases Nat.eq_zero_or_pos p with rfl | hp
      · rw [if_pos (hzero.mpr rfl), hzero.mpr rfl, UInt32.add_zero]
        exact ⟨0, s, s, total, rfl, Outcome.refl h paddr vaddr total rw pl⟩
      rw [if_neg (fun heq => hp.ne' (hzero.mp heq))]
      obtain ⟨m, s₁, hmp, hround, hmaps, hspent, hblocked, htaken⟩ :=
        mapRound_spec hpfa h hsize hp paddr vaddr rw pl
      simp only [hround, ofNat_mul_fourKb_eq_zero (show m < 2 ^ 20 by omega)]
      by_cases hm : m = 0
      · rw [if_pos hm]
        subst hm
        refine ⟨0, s, s₁, 0, rfl, Maps.refl h paddr vaddr rw pl, fun _ hf => Or.inl hf,
          fun _ => rfl, Or.inr ⟨hp, rfl, ?_⟩⟩
        rw [show UInt32.ofNat 0 * fourKb = 0 from rfl, UInt32.add_zero, UInt32.add_zero]
        exact ⟨hblocked rfl, hmaps, htaken⟩
      rw [if_neg hm]
      have hmapped := toNat_ofNat_mul_fourKb (show m < 2 ^ 20 by omega)
      have hle : UInt32.ofNat m * fourKb ≤ size := by
        rw [UInt32.le_iff_toNat_le]
        omega
      have hrest : (size - UInt32.ofNat m * fourKb).toNat = 4096 * (p - m) := by
        rw [UInt32.toNat_sub_of_le _ _ hle]
        omega
      have hnext : (total + UInt32.ofNat m * fourKb).toNat = 4096 * (q + m) := by
        rw [UInt32.toNat_add, hmapped]
        omega
      obtain ⟨m', s₂, s', r, hrun, hmaps', hspent', -, hstop⟩ := ih (hmaps.map.frameMap hpfa)
        hmaps.separate hrest (by omega) hnext (by omega) (paddr + UInt32.ofNat m * fourKb)
        (vaddr + UInt32.ofNat m * fourKb) (by
          rw [← UInt32.toNat_inj, hrest, UInt32.toNat_zero]
          omega)
      have hm' : m' ≤ p - m := by omega
      have hadd : ∀ a : UInt32, a + UInt32.ofNat m * fourKb + UInt32.ofNat m' * fourKb =
          a + UInt32.ofNat (m + m') * fourKb := by
        intro a
        rw [UInt32.ofNat_add, UInt32.add_mul, UInt32.add_assoc]
      refine ⟨m + m', s₂, s', r, hrun, hmaps.trans h hmaps' (by omega),
        (hspent (by omega)).trans hmaps hmaps' hspent', by omega, ?_⟩
      rcases hstop with ⟨hall, hr, heq⟩ | ⟨hlt, hr, hblocked', hmaps₀, hpfa'⟩
      · refine Or.inl ⟨by omega, ?_, heq⟩
        rw [hr]
        grind
      · rw [hadd] at hblocked' hmaps₀ hpfa'
        rw [hadd] at hmaps₀
        exact Or.inr ⟨by omega, hr, hblocked', hmaps₀, hpfa'⟩

theorem toNat_alignUp_fourKb (size : UInt32) :
  (alignUp size fourKb).toNat = 4096 * pages size
  := by
  have hup := toNat_alignUp_eq size (show 0 < fourKb.toNat by decide)
  rw [toNat_fourKb] at hup
  rw [pages, UInt32.toNat_div, toNat_fourKb]
  omega

/-- The pages of a size that does not overflow when it is rounded up. -/
theorem pages_eq (h : size.toNat + 4095 < 2 ^ 32) :
  pages size = (size.toNat + 4095) / 4096
  := by
  rw [pages, UInt32.toNat_div, toNat_alignUp_eq size (by decide), toNat_fourKb]
  omega

theorem pages_lt (size : UInt32) :
  pages size < 2 ^ 20
  := by
  have hlt := (alignUp size fourKb).toNat_lt
  rw [toNat_alignUp_fourKb] at hlt
  omega

theorem pdtMapMemory_outcome (hpfa : Pfa.FrameMap s.pfa) (h : Separate s d)
    (paddr vaddr size : UInt32) (rw pl : UInt8) :
  ∃ m s₁ s' r, pdtMapMemory s d paddr vaddr size rw pl = (r, s') ∧
    Outcome s d paddr vaddr rw pl (pages size) m s₁ (alignUp size fourKb) r s'
  := by
  have hlt := pages_lt size
  have hloop := pdtMapMemoryFrom_spec hpfa h (toNat_alignUp_fourKb size) (le_refl (pages size))
    (show (0 : UInt32).toNat = 4096 * 0 from rfl) (by omega) paddr vaddr rw pl
  rwa [UInt32.zero_add] at hloop

/-- `pdt_map_memory` returns the size with all its pages mapped, or 0 with the first of them
mapped, and disturbs no other translation. -/
theorem pdtMapMemory_spec (hpfa : Pfa.FrameMap s.pfa) (h : Separate s d) (paddr vaddr size : UInt32)
    (rw pl : UInt8) :
  ∃ m s' r, pdtMapMemory s d paddr vaddr size rw pl = (r, s') ∧
    Maps s s' d paddr vaddr rw pl m ∧
    ((m = pages size ∧ r = alignUp size fourKb) ∨ (m < pages size ∧ r = 0))
  := by
  have hlt := pages_lt size
  obtain ⟨m, s₁, s', r, hrun, hout⟩ := pdtMapMemory_outcome hpfa h paddr vaddr size rw pl
  rcases hout.stop with ⟨hm, hr, rfl⟩ | ⟨hm, hr, -, hmaps₀, -⟩
  · exact ⟨m, s', r, hrun, hout.maps, Or.inl ⟨hm, hr⟩⟩
  · exact ⟨m, s', r, hrun, hout.maps.trans h hmaps₀ (by omega), Or.inr ⟨hm, hr⟩⟩

end Paging
