import Aenix.Paging.Atomic

/-!
# Finding kernel address space

`pdt_kernel_find_next_vaddr` goes to the first slot of the kernel half that has room: one without a
page table, or one with enough vacant entries in a row.  A slot without a page table is taken whatever
the size.  For a size of at most 4 MB the space that is found can be mapped and unmapped again
(`find_map_unmap`); a larger one may reach into later slots that are in use (`found_space_free_iff`).
-/

open Aenix

namespace Paging

variable {s s' : State} {paddr size v : UInt32} {rw pl : UInt8} {p : ℕ}

/-! ### The search is complete -/

/-- The loop of `pt_kernel_find_next_vaddr` finds vacant entries when there are some that begin not
before those it has counted. -/
theorem ptKernelFindNextVaddrFrom_ne_zero {pdtIdx : ℕ} (hidx : pdtIdxToVirtual pdtIdx ≠ 0)
    {num : UInt32} {n j : ℕ} {found : UInt32} (orgI : ℕ) (hn : n ≤ 1024)
    (hfound : found.toNat < num.toNat) (hj : 1024 ≤ j + n + found.toNat)
    (hle : j + num.toNat ≤ 1024) (hvacant : Vacant pdtIdx (s.mem s.tmpFrame) j num.toNat) :
  ptKernelFindNextVaddrFrom s pdtIdx num n found orgI ≠ 0
  := by
  induction n generalizing found orgI with
  | zero => omega
  | succ n ih =>
      simp only [ptKernelFindNextVaddrFrom]
      split
      case isTrue htaken =>
        -- the vacant entries begin after this one
        have hout : ¬ (j ≤ 1023 - n ∧ 1023 - n < j + num.toNat) := by
          rintro ⟨hge, hlt⟩
          obtain ⟨habsent, hspared⟩ := hvacant (1023 - n) hge hlt
          rcases htaken with hpresent | htmp
          · rw [State.tmp, habsent] at hpresent
            simp at hpresent
          · exact hspared htmp
        apply ih orgI (by omega)
        · rw [UInt32.toNat_zero]
          omega
        · rw [UInt32.toNat_zero]
          omega
      case isFalse =>
        split
        case isTrue =>
          rw [ne_eq, UInt32.or_eq_zero_iff]
          exact fun hzero => hidx hzero.1
        case isFalse hmore =>
          have hnext : (found + 1).toNat = found.toNat + 1 := by
            rw [UInt32.toNat_add, UInt32.toNat_one]
            omega
          have hne : (found + 1).toNat ≠ num.toNat := fun heq => hmore (UInt32.toNat_inj.mp heq)
          apply ih _ (by omega)
          · omega
          · omega

/-- Slot `i` of `kernel_pdt` has room for `p` pages. -/
def State.Room (s : State) (i p : ℕ) : Prop :=
  s.has s.kernelPdt i → ∃ j, j + p ≤ 1024 ∧ Vacant i (s.mem (s.table s.kernelPdt i)) j p ∧
    (s.table s.kernelPdt i = s.kernelPt → j + p ≤ kernelTmpPtIdx)

/-- Slot `i` is the first of the kernel half that has room for `p` pages. -/
def State.FirstRoom (s : State) (i p : ℕ) : Prop :=
  kernelPdtIdx ≤ i ∧ i < 1024 ∧ s.Room i p ∧ ∀ l, kernelPdtIdx ≤ l → l < i → ¬ s.Room l p

/-- A slot with room is taken. -/
theorem findInSlot_ne_zero (hpos : 0 < pages size) {i : ℕ} (hi : i < 1024) (hidx : kernelPdtIdx ≤ i)
    (hroom : s.Room i (pages size)) :
  (findInSlot s i size).1 ≠ 0
  := by
  have hvirtual : pdtIdxToVirtual i ≠ 0 := by
    intro hzero
    have hnat := toNat_pdtIdxToVirtual hi
    rw [hzero, UInt32.toNat_zero] at hnat
    rw [kernelPdtIdx] at hidx
    omega
  rw [findInSlot]
  split
  case isTrue hhas =>
    obtain ⟨j, hj, hvacant, hpt⟩ := hroom hhas
    show ptKernelFindNextVaddr (kernelMapTemporaryMemory s (s.table s.kernelPdt i)) i size ≠ 0
    apply ptKernelFindNextVaddrFrom_ne_zero hvirtual 0 le_rfl
      (show (0 : UInt32).toNat < (alignUp size fourKb / fourKb).toNat from hpos) (by omega) hj
    rw [tmpFrame_map s (Entry.dvd_paddr _)]
    intro k hk hlt
    rw [mem_map_apply]
    · exact hvacant k hk hlt
    · intro htable
      have hle := hpt htable
      have hlt' : k < j + pages size := hlt
      omega
  case isFalse => exact hvirtual

/-- A slot that is taken has room. -/
theorem room_of_findInSlot {i : ℕ} (hne : (findInSlot s i size).1 ≠ 0) :
  s.Room i (pages size)
  := by
  intro hhas
  rw [findInSlot, if_pos hhas] at hne
  rcases ptKernelFindNextVaddrFrom_spec (kernelMapTemporaryMemory s (s.table s.kernelPdt i)) i
    (alignUp size fourKb / fourKb) 0 le_rfl
    (show (0 : UInt32).toNat + 1024 ≤ 1024 from le_rfl) (fun h => absurd rfl h)
    (fun h => absurd rfl h) with hzero | ⟨j, -, hpos, hle, hvacant⟩
  · exact absurd hzero hne
  · rw [tmpFrame_map s (Entry.dvd_paddr _)] at hvacant
    refine ⟨j, hle, vacant_of_map hvacant, ?_⟩
    -- while the table is mapped, the entry of the temporary mapping is present in it
    intro htable
    by_contra hgt
    have hle' : j + pages size ≤ 1024 := hle
    have hpos' : 0 < pages size := hpos
    rw [kernelTmpPtIdx] at hgt
    have habsent := (hvacant 1023 (by omega) (show 1023 < j + pages size by omega)).1
    have hpresent := present_map_tmp s (s.table s.kernelPdt i)
    rw [← htable] at hpresent
    exact Bool.false_ne_true (habsent.symm.trans hpresent)

/-- `pdt_kernel_find_next_vaddr` takes the first slot that has room. -/
theorem pdtKernelFindNextVaddr_first (hpos : 0 < pages size) :
  ∃ v, pdtKernelFindNextVaddr s size = (v, s) ∧
    (v = 0 → ∀ i, kernelPdtIdx ≤ i → i < 1024 → ¬ s.Room i (pages size)) ∧
    (v ≠ 0 → ∃ i j, s.FirstRoom i (pages size) ∧ v.toNat = 4096 * (1024 * i + j) ∧
      s.Free s.kernelPdt i j (pages size))
  := by
  have hloop : ∀ n ≤ 256, (∀ l, kernelPdtIdx ≤ l → l < 1024 - n → ¬ s.Room l (pages size)) →
      ∃ v, pdtKernelFindNextVaddrFrom size n s = (v, s) ∧
        (v = 0 → ∀ i, kernelPdtIdx ≤ i → i < 1024 → ¬ s.Room i (pages size)) ∧
        (v ≠ 0 → ∃ i j, s.FirstRoom i (pages size) ∧ v.toNat = 4096 * (1024 * i + j) ∧
          s.Free s.kernelPdt i j (pages size)) := by
    intro n hn hbefore
    induction n with
    | zero => exact ⟨0, rfl, fun _ => hbefore, fun hne => absurd rfl hne⟩
    | succ n ih =>
        have hidx : kernelPdtIdx ≤ 1023 - n := by
          rw [kernelPdtIdx]
          omega
        obtain ⟨v, hfind, hv⟩ := findInSlot_spec s (1023 - n) size
        have hiff : v ≠ 0 ↔ s.Room (1023 - n) (pages size) := by
          rw [show v = (findInSlot s (1023 - n) size).1 by rw [hfind]]
          exact ⟨room_of_findInSlot, findInSlot_ne_zero hpos (by omega) hidx⟩
        simp only [pdtKernelFindNextVaddrFrom, hfind]
        by_cases hzero : v = 0
        · rw [if_neg (by simpa using hzero)]
          apply ih (by omega)
          intro l hl hlt
          by_cases hlast : l = 1023 - n
          · rw [hlast]
            exact fun hroom => hiff.mpr hroom hzero
          · exact hbefore l hl (by omega)
        · rw [if_pos hzero]
          refine ⟨v, rfl, fun heq => absurd heq hzero, fun _ => ?_⟩
          obtain ⟨j, rfl, hj, hfree⟩ := hv hzero
          refine ⟨1023 - n, j, ⟨hidx, by omega, hiff.mp hzero, ?_⟩, ?_, hfree⟩
          · intro l hl hlt
            exact hbefore l hl (by omega)
          · exact toNat_pdtIdxToVirtual_or (by omega) hj
  apply hloop 256 le_rfl
  intro l hl hlt
  rw [kernelPdtIdx] at hl
  omega

theorem State.FirstRoom.unique {i i' : ℕ} (h : s.FirstRoom i p) (h' : s.FirstRoom i' p) :
  i = i'
  := by
  obtain ⟨hge, -, hroom, hbefore⟩ := h
  obtain ⟨hge', -, hroom', hbefore'⟩ := h'
  rcases Nat.lt_trichotomy i i' with hlt | heq | hgt
  · exact absurd hroom (hbefore' i hge hlt)
  · exact heq
  · exact absurd hroom' (hbefore i' hge' hgt)

/-! ### The space that is found -/

/-- The `p` pages from `v` on lie in the kernel half, are not mapped and do not have the temporary
page among them. -/
structure SpaceFree (s : State) (v : UInt32) (p : ℕ) : Prop where
  aligned : 4096 ∣ v.toNat
  above : kernelStartVaddr ≤ v
  below : v.toNat + 4096 * p ≤ 2 ^ 32
  vacant : ∀ u : UInt32, v.toNat / 4096 ≤ u.toNat / 4096 → u.toNat / 4096 < v.toNat / 4096 + p →
    s.page s.kernelPdt u = none ∧
      ¬ (virtualToPdtIdx u = kernelPdtIdx ∧ virtualToPtIdx u = kernelTmpPtIdx)

/-- The pages from the beginning of slot `i` on, which has no page table, are free: they end in the
address space, the later slots have none of them mapped, and the temporary page is not among them. -/
structure Uncovered (s : State) (i p : ℕ) : Prop where
  below : 1024 * i + p ≤ 2 ^ 20
  later : ∀ u : UInt32, i < virtualToPdtIdx u → u.toNat / 4096 < 1024 * i + p →
    s.page s.kernelPdt u = none
  spared : i = kernelPdtIdx → p < 1024

/-- Space that is found in a page table is free. -/
theorem spaceFree_of_has {i j : ℕ} (hidx : kernelPdtIdx ≤ i) (hi : i < 1024)
    (hv : v.toNat = 4096 * (1024 * i + j)) (hfree : s.Free s.kernelPdt i j p)
    (hhas : s.has s.kernelPdt i) :
  SpaceFree s v p
  := by
  rw [State.Free, if_pos hhas] at hfree
  obtain ⟨hpos, hle, hvacant⟩ := hfree
  have hpage : v.toNat / 4096 = 1024 * i + j := by omega
  refine ⟨by omega, ?_, by omega, ?_⟩
  · rw [UInt32.le_iff_toNat_le, hv, show kernelStartVaddr.toNat = 0xC0000000 from rfl]
    rw [kernelPdtIdx] at hidx
    omega
  · intro u hge hlt
    have hui : virtualToPdtIdx u = i := by
      rw [virtualToPdtIdx_eq]
      omega
    have huj : virtualToPtIdx u = u.toNat / 4096 - 1024 * i := by
      rw [virtualToPtIdx_eq]
      omega
    obtain ⟨habsent, hspared⟩ := hvacant (virtualToPtIdx u) (by omega) (by omega)
    refine ⟨?_, fun hall => hspared ⟨by rw [← hui, hall.1], hall.2⟩⟩
    rw [State.page_of_has (by rwa [hui]), hui, habsent]
    rfl

/-- Space that is found in a slot without a page table. -/
theorem spaceFree_iff_of_not_has {i : ℕ} (hidx : kernelPdtIdx ≤ i) (hi : i < 1024)
    (hv : v.toNat = 4096 * (1024 * i)) (hhas : ¬ s.has s.kernelPdt i) :
  SpaceFree s v p ↔ Uncovered s i p
  := by
  have hpage : v.toNat / 4096 = 1024 * i := by omega
  constructor
  · rintro ⟨-, -, hbelow, hvacant⟩
    refine ⟨by omega, ?_, ?_⟩
    · intro u hlt hend
      rw [virtualToPdtIdx_eq] at hlt
      exact (hvacant u (by omega) (by omega)).1
    · rintro rfl
      by_contra hge
      apply (hvacant 0xC03FF000 _ _).2
      · decide
      · rw [hpage]
        decide
      · rw [hpage, show (0xC03FF000 : UInt32).toNat / 4096 = 1024 * 768 + 1023 from rfl, kernelPdtIdx]
        omega
  · rintro ⟨hbelow, hlater, hspared⟩
    refine ⟨by omega, ?_, by omega, ?_⟩
    · rw [UInt32.le_iff_toNat_le, hv, show kernelStartVaddr.toNat = 0xC0000000 from rfl]
      rw [kernelPdtIdx] at hidx
      omega
    · intro u hge hlt
      constructor
      · by_cases hui : virtualToPdtIdx u = i
        · exact State.page_of_not_has (by rwa [hui])
        · apply hlater u
          · rw [virtualToPdtIdx_eq] at hui ⊢
            omega
          · omega
      · rintro ⟨hui, huj⟩
        rw [virtualToPdtIdx_eq, kernelPdtIdx] at hui
        rw [virtualToPtIdx_eq, kernelTmpPtIdx] at huj
        rw [kernelPdtIdx] at hidx hspared
        have hfew := hspared (by omega)
        omega

/-- Whenever `pdt_kernel_find_next_vaddr` returns an address, the space there is free, if and only
if that holds for the first slot with room when it has no page table. -/
theorem found_space_free_iff (hpos : 0 < pages size) :
  (∀ v s', pdtKernelFindNextVaddr s size = (v, s') → v ≠ 0 → SpaceFree s v (pages size)) ↔
    ∀ i, s.FirstRoom i (pages size) → ¬ s.has s.kernelPdt i → Uncovered s i (pages size)
  := by
  obtain ⟨v, hfind, hzero, hne⟩ := pdtKernelFindNextVaddr_first (s := s) hpos
  constructor
  · intro hspace i hfirst hhas
    have hv : v ≠ 0 := fun heq => hzero heq i hfirst.1 hfirst.2.1 hfirst.2.2.1
    obtain ⟨i', j, hfirst', hnat, hfree⟩ := hne hv
    obtain rfl := hfirst.unique hfirst'
    rw [State.Free, if_neg hhas] at hfree
    subst hfree
    exact (spaceFree_iff_of_not_has hfirst.1 hfirst.2.1 hnat hhas).mp (hspace v s hfind hv)
  · intro hcond v' s' hfind' hv
    obtain ⟨rfl, rfl⟩ := Prod.mk.inj (hfind.symm.trans hfind')
    obtain ⟨i, j, hfirst, hnat, hfree⟩ := hne hv
    by_cases hhas : s.has s.kernelPdt i
    · exact spaceFree_of_has hfirst.1 hfirst.2.1 hnat hfree hhas
    · rw [State.Free, if_neg hhas] at hfree
      subst hfree
      exact (spaceFree_iff_of_not_has hfirst.1 hfirst.2.1 hnat hhas).mpr (hcond i hfirst hhas)

/-- The slot that has the page table in `oneTable` has room for a page. -/
theorem found_space_free_iff_oneTable :
  ∃ s', pdtKernelFindNextVaddr oneTable 4096 = (0xC0000000, s') ∧
    SpaceFree oneTable 0xC0000000 (pages 4096)
  := by
  have hfirst : oneTable.FirstRoom 768 (pages 4096) := by
    refine ⟨le_rfl, by decide, fun _ => ⟨0, by decide, ?_, fun _ => by decide⟩, ?_⟩
    · intro k _ hk
      obtain rfl : k = 0 := by
        rw [show pages 4096 = 1 by decide] at hk
        omega
      exact ⟨by decide, by decide⟩
    · intro l hl hlt
      rw [kernelPdtIdx] at hl
      omega
  have hcond : ∀ i, oneTable.FirstRoom i (pages 4096) → ¬ oneTable.has oneTable.kernelPdt i →
      Uncovered oneTable i (pages 4096) := by
    intro i hi hhas
    rw [← hfirst.unique hi] at hhas
    exact absurd (by decide) hhas
  obtain ⟨v, hfind, -⟩ := pdtKernelFindNextVaddr_spec oneTable 4096
  obtain rfl : 0xC0000000 = v := by
    rw [← show (pdtKernelFindNextVaddr oneTable 4096).1 = v by rw [hfind]]
    decide +kernel
  exact ⟨_, hfind, (found_space_free_iff (by decide)).mpr hcond _ _ hfind (by decide)⟩

/-- Slot 768 has the kernel page table, and in slot 770 the page at `0xC0800000` is mapped. -/
def gapTable : State where
  pfa := Pfa.sixFrames
  mem := fun f i =>
    if f = 0x101000 ∧ i = 768 then entryFor 0x0B 0x102000
    else if f = 0x101000 ∧ i = 770 then entryFor 0x0B 0x201000
    else if f = 0x201000 ∧ i = 0 then entryFor 0x0B 0x300000
    else Entry.zero
  kernelPdt := 0x101000
  kernelPt := 0x102000
  cr3 := 0x101000

/-- For 5 MB the space found in slot 769, which has no page table, reaches into slot 770. -/
theorem found_space_mapped :
  0 < pages 0x500000 ∧ ∃ s', pdtKernelFindNextVaddr gapTable 0x500000 = (0xC0400000, s') ∧
    gapTable.page 0x101000 0xC0800000 = some (entryFor 0x0B 0x300000) ∧
    ¬ SpaceFree gapTable 0xC0400000 (pages 0x500000)
  := by
  have hpage : gapTable.page 0x101000 0xC0800000 = some (entryFor 0x0B 0x300000) := by decide
  obtain ⟨v, hfind, -⟩ := pdtKernelFindNextVaddr_spec gapTable 0x500000
  obtain rfl : 0xC0400000 = v := by
    rw [← show (pdtKernelFindNextVaddr gapTable 0x500000).1 = v by rw [hfind]]
    decide +kernel
  refine ⟨by decide, _, hfind, hpage, ?_⟩
  intro hspace
  have hnone := (hspace.vacant 0xC0800000 (by decide) (by decide)).1
  rw [show gapTable.kernelPdt = 0x101000 from rfl, hpage] at hnone
  simp at hnone

/-! ### Find, map, unmap -/

section Slot

variable {d : UInt32} {i j : ℕ} (hpos : 0 < p) (hv : v.toNat = 4096 * (1024 * i + j))
  (hend : j + p ≤ 1024)

include hpos hv hend

theorem virtualToIdx_of_slot :
  virtualToPdtIdx v = i ∧ virtualToPtIdx v = j
  := by
  rw [virtualToPdtIdx_eq, virtualToPtIdx_eq, hv]
  omega

variable (hi : i < 1024)

include hi

/-- Space that is free in one slot can be mapped when there is a page table or a free frame. -/
theorem mappable_of_room (hdir : Dir s d) (hfirst : s.has d kernelPdtIdx)
    (hframe : ¬ s.has d i → s.pfa.free.Nonempty) (hfree : s.Free d i j p) :
  Mappable s d v p
  := by
  obtain ⟨hvi, hvj⟩ := virtualToIdx_of_slot hpos hv hend
  have hpage : ∀ u, pageOff v u < p →
      virtualToPdtIdx u = i ∧ j ≤ virtualToPtIdx u ∧ virtualToPtIdx u < j + p := by
    intro u hu
    rwa [pageOff_lt_iff (by omega), hvi, hvj] at hu
  refine ⟨?_, ?_, ?_⟩
  · intro u hu
    obtain ⟨hui, hle, hlt⟩ := hpage u hu
    by_cases hhas : s.has d i
    · rw [State.Free, if_pos hhas] at hfree
      rw [State.page_of_has (by rwa [hui]), hui, (hfree.2.2 _ hle hlt).1]
      rfl
    · exact State.page_of_not_has (by rwa [hui])
  · rintro u hu ⟨huj, hpt⟩
    obtain ⟨hui, hle, hlt⟩ := hpage u hu
    have hslot : i = kernelPdtIdx := by
      rw [hui] at hpt
      rcases hpt with hidx | ⟨hhas, htable⟩
      · exact hidx
      · exact hdir.table_pt i hi hhas htable
    rw [State.Free, if_pos (by rwa [hslot])] at hfree
    exact (hfree.2.2 _ hle hlt).2 ⟨hslot, huj⟩
  · have hone : s.missing d v p ⊆ {i} := by
      rintro k ⟨-, u, hu, rfl⟩
      exact (hpage u hu).1
    by_cases hhas : s.has d i
    · have hnone : s.missing d v p = ∅ := by
        apply Set.eq_empty_of_forall_notMem
        intro k hk
        obtain rfl := hone hk
        exact hk.1 hhas
      rw [hnone, Set.ncard_empty]
      exact Nat.zero_le _
    · calc (s.missing d v p).ncard
        _ ≤ ({i} : Set ℕ).ncard := Set.ncard_le_ncard hone
        _ = 1 := Set.ncard_singleton i
        _ ≤ s.pfa.free.ncard := (Set.ncard_pos (finite_free s)).mpr (hframe hhas)

/-- Space that is free in one slot can be mapped when a frame is free. -/
theorem mappable_of_free (hdir : Dir s d) (hfirst : s.has d kernelPdtIdx)
    (hframe : s.pfa.free.Nonempty) (hfree : s.Free d i j p) :
  Mappable s d v p
  := mappable_of_room hpos hv hend hi hdir hfirst (fun _ => hframe) hfree

/-- The pages of one slot are unmapped as they were mapped. -/
theorem page_of_map_unmap (hdir : Dir s d) (hmaps : Maps s s' d paddr v rw pl p) (u : UInt32) :
  (s'.withoutPages d i j p).page d u = s.page d u
  := by
  obtain ⟨hvi, hvj⟩ := virtualToIdx_of_slot hpos hv hend
  have hhas : s'.has d i := by
    rw [← hvi]
    apply hmaps.has_of_lt
    rw [pageOff]
    omega
  have hiff : pageOff v u < p ↔
      virtualToPdtIdx u = i ∧ j ≤ virtualToPtIdx u ∧ virtualToPtIdx u < j + p := by
    rw [pageOff_lt_iff (by omega), hvi, hvj]
  rw [(hmaps.dir hdir).withoutPages_page hi hhas u (by omega), hmaps.page]
  by_cases hin : pageOff v u < p
  · rw [if_pos (hiff.mp hin), hmaps.vacant u hin]
  · rw [if_neg (fun hall => hin (hiff.mpr hall)), if_neg hin]

end Slot

/-- For a size of at most 4 MB, the space that `pdt_kernel_find_next_vaddr` finds is mapped when a
frame is free, and unmapping it leaves every translation of the kernel as it was. -/
theorem find_map_unmap (hpfa : Pfa.FrameMap s.pfa) (h : Separate s s.kernelPdt)
    (hfirst : s.has s.kernelPdt kernelPdtIdx) (hpt : s.table s.kernelPdt kernelPdtIdx = s.kernelPt)
    (hframe : (Pfa.pfaAllocate s.pfa 1).1 ≠ 0) (hpos : 0 < size.toNat) (hmax : size ≤ fourMb)
    (hfind : pdtKernelFindNextVaddr s size = (v, s')) (hne : v ≠ 0)
    (hend : v.toNat + (alignUp size fourKb).toNat < 2 ^ 32) (paddr : UInt32) (rw pl : UInt8) :
  ∃ s₁, pdtMapKernelMemory s' paddr v size rw pl = (alignUp size fourKb, s₁) ∧
    ∃ n r s₂, pdtUnmapKernelMemory n s₁ v size = some (r, s₂) ∧
      ∀ u, s₂.page s₂.kernelPdt u = s.page s.kernelPdt u
  := by
  have hdir : Dir s s.kernelPdt := by
    refine ⟨h, ?_⟩
    intro i hi hhas htable
    exact h.table_inj i hi kernelPdtIdx (by decide) hhas hfirst (htable.trans hpt.symm)
  have hpages : 0 < pages size ∧ pages size ≤ 1024 := by
    rw [UInt32.le_iff_toNat_le, toNat_fourMb] at hmax
    rw [pages_eq (by omega)]
    omega
  obtain ⟨v', hfind', hspace⟩ := pdtKernelFindNextVaddr_spec s size
  obtain ⟨rfl, rfl⟩ := Prod.mk.inj (hfind'.symm.trans hfind)
  obtain ⟨i, j, -, hi, -, hv, hfree⟩ := hspace hne
  have hfits : j + pages size ≤ 1024 := by
    rw [State.Free] at hfree
    split at hfree
    · exact hfree.2.1
    · omega
  obtain ⟨hvi, hvj⟩ := virtualToIdx_of_slot hpages.1 hv hfits
  have hmappable := mappable_of_free hpages.1 hv hfits hi hdir hfirst
    ((Pfa.pfaAllocate_one_ne_zero_iff hpfa).mp hframe) hfree
  obtain ⟨m, s₀, s₁, r, hmap, hout⟩ := pdtMapMemory_outcome hpfa h paddr v' size rw pl
  obtain rfl := hout.eq_of_mappable h (pages_lt size) hmappable
  have hmaps := hout.maps
  rcases hout.stop with ⟨-, hr, rfl⟩ | ⟨hlt, -⟩
  case inr => exact absurd hlt (lt_irrefl _)
  have hpdt := hmaps.vars.kernelPdt
  have hhas : s₁.has s.kernelPdt (virtualToPdtIdx v') := by
    apply hmaps.has_of_lt
    rw [pageOff]
    omega
  -- the range in the slot of the temporary mapping ends before it
  have hspared : virtualToPdtIdx v' = kernelPdtIdx →
      virtualToPtIdx v' + pages size ≤ kernelTmpPtIdx := by
    intro hidx
    rw [hvi] at hidx
    subst hidx
    rw [State.Free, if_pos hfirst] at hfree
    rw [hvj]
    by_contra hgt
    rw [kernelTmpPtIdx] at hgt
    exact (hfree.2.2 1023 (by omega) (by omega)).2 ⟨rfl, rfl⟩
  obtain ⟨n, hunmap⟩ := pdtUnmapMemory_slot (hmaps.dir hdir) hhas hpages.1 (by omega) hspared
  rw [toNat_alignUp_fourKb] at hend
  rw [if_pos hend, hvi, hvj] at hunmap
  have hunmap' : pdtUnmapKernelMemory n s₁ v' size =
      some (alignUp size fourKb, s₁.withoutPages s.kernelPdt i j (pages size)) := by
    rw [pdtUnmapKernelMemory, hpdt]
    exact hunmap
  refine ⟨s₁, by rw [← hr]; exact hmap, n, _, _, hunmap', ?_⟩
  intro u
  rw [(State.withoutPages_vars s₁ s.kernelPdt i j (pages size)).kernelPdt, hpdt]
  exact page_of_map_unmap hpages.1 hv hfits hi hdir hmaps u

/-- A page of `oneTable`, which has free frames. -/
theorem find_map_unmap_oneTable :
  ∃ v s₁, pdtKernelFindNextVaddr oneTable 4096 = (v, oneTable) ∧ v = 0xC0000000 ∧
    pdtMapKernelMemory oneTable 0x300000 v 4096 1 0 = (4096, s₁) ∧
    ∃ n r s₂, pdtUnmapKernelMemory n s₁ v 4096 = some (r, s₂) ∧
      ∀ u, s₂.page s₂.kernelPdt u = oneTable.page oneTable.kernelPdt u
  := by
  obtain ⟨v, hfind, -⟩ := pdtKernelFindNextVaddr_spec oneTable 4096
  have hv : v = 0xC0000000 := by
    rw [← show (pdtKernelFindNextVaddr oneTable 4096).1 = v by rw [hfind]]
    decide +kernel
  obtain ⟨s₁, hmap, hunmap⟩ := find_map_unmap kernelState_oneTable.pfa
    kernelState_oneTable.dir.toSeparate (by decide) (by decide) (by decide +kernel) (by decide)
    (by decide) hfind (by rw [hv]; decide) (by rw [hv]; decide) 0x300000 1 0
  exact ⟨v, s₁, hfind, hv, hmap, hunmap⟩

end Paging
