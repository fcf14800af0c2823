import Aenix.Paging.Active

/-!
# The walk of `pdt_unmap_memory`

The loop of `pdt_unmap_memory` goes over the slots of a directory.  Where it goes depends only on
the slots that have a page table: `Walk` has these and the address, and follows the loop round by
round.  A slot with a page table is left at its end.  A slot without one is skipped by `align_up`,
which does not move from the beginning of a slot: there the loop stays for ever.  So it does at the
entry of the temporary mapping, which `pt_unmap_memory` does not pass, and after going round the end
of the address space.
-/

open Aenix

namespace Paging

/-- The address that the loop has reached, and the slots that have a page table. -/
structure Walk where
  addr : ℕ
  tables : ℕ → Bool

/-- A round of the walk over `p` pages that ends at `e`. -/
def Walk.step (p e : ℕ) (w : Walk) : Walk ⊕ Unit :=
  if w.addr < e then
    if w.tables (w.addr / 0x400000) then
      let m := cleared (w.addr / 0x400000) (w.addr / 4096 % 1024) p
      .inl ⟨(w.addr + 4096 * m) % 2 ^ 32,
        if m = 1024 ∧ w.addr / 0x400000 ≠ kernelPdtIdx then
          Function.update w.tables (w.addr / 0x400000) false
        else
          w.tables⟩
    else
      .inl { w with addr := (w.addr + 0x3FFFFF) / 0x400000 * 0x400000 % 2 ^ 32 }
  else
    .inr ()

namespace Walk

variable {p e r : ℕ} {H : ℕ → Bool} {w : Walk}

theorem step_leave (h : e ≤ w.addr) :
  step p e w = .inr ()
  := by
  rw [step, if_neg (by omega)]

theorem step_absent (hlt : w.addr < e) (h : w.tables (w.addr / 0x400000) = false) :
  step p e w = .inl { w with addr := (w.addr + 0x3FFFFF) / 0x400000 * 0x400000 % 2 ^ 32 }
  := by
  rw [step, if_pos hlt, if_neg (by simp [h])]

theorem step_present (hlt : w.addr < e) (h : w.tables (w.addr / 0x400000) = true) {m : ℕ}
    (hm : cleared (w.addr / 0x400000) (w.addr / 4096 % 1024) p = m) :
  step p e w = .inl ⟨(w.addr + 4096 * m) % 2 ^ 32,
    if m = 1024 ∧ w.addr / 0x400000 ≠ kernelPdtIdx then
      Function.update w.tables (w.addr / 0x400000) false
    else
      w.tables⟩
  := by
  simp only [step, if_pos hlt, if_pos h, hm]

theorem cleared_kernelPdtIdx (j p : ℕ) :
  cleared 768 j p = min p (1023 - j)
  := by
  rw [cleared, if_pos rfl]

theorem cleared_of_ne {i : ℕ} (hi : i ≠ 768) (j p : ℕ) :
  cleared i j p = min p (1024 - j)
  := by
  rw [cleared, if_neg hi]

/-! ### Going round -/

/-- The walk has gone round the end of the address space: the last slot has no page table any more,
and the walk has not come past it.  It is at the beginning of a slot, or `r` bytes after it, or
within a slot that has a page table, or at the entry of the temporary mapping. -/
structure Wrapped (p e r : ℕ) (w : Walk) : Prop where
  lt : w.addr < 2 ^ 32
  gone : w.tables 1023 = false
  beyond : 0x400000 * 1023 + r < e
  place : w.addr % 0x400000 = 0 ∨
    (w.addr % 4096 = 0 ∧ w.tables (w.addr / 0x400000) = true) ∨
    (1024 ≤ p ∧ w.addr % 0x400000 = r) ∨ w.addr = 0xC03FF000 + r

theorem Wrapped.addr_lt (h : Wrapped p e r w) (hr : r < 4096) :
  w.addr < e
  := by
  have hlt := h.lt
  have hbeyond := h.beyond
  rcases h.place with hp | ⟨-, hp⟩ | ⟨-, hp⟩ | hp
  · omega
  · have hne : w.addr / 0x400000 ≠ 1023 := by
      intro heq
      rw [heq, h.gone] at hp
      simp at hp
    omega
  · omega
  · omega

/-- Having gone round, the walk goes on. -/
theorem Wrapped.step (h : Wrapped p e r w) (hr : r < 4096) :
  ∃ w', Walk.step p e w = .inl w' ∧ Wrapped p e r w'
  := by
  have haddr := h.lt
  have hlt := h.addr_lt hr
  cases hi : w.tables (w.addr / 0x400000) with
  | false =>
      refine ⟨_, step_absent hlt hi, ?_, h.gone, h.beyond, Or.inl ?_⟩
      · exact Nat.mod_lt _ (by decide)
      · show (w.addr + 0x3FFFFF) / 0x400000 * 0x400000 % 2 ^ 32 % 0x400000 = 0
        omega
  | true =>
      have hlast : w.addr / 0x400000 ≠ 1023 := by
        intro heq
        rw [heq, h.gone] at hi
        simp at hi
      have hj : w.addr / 4096 % 1024 < 1024 := Nat.mod_lt _ (by decide)
      by_cases hidx : w.addr / 0x400000 = 768
      · -- the walk stays in the slot
        have hm : cleared (w.addr / 0x400000) (w.addr / 4096 % 1024) p =
            min p (1023 - w.addr / 4096 % 1024) := by
          rw [hidx, cleared_kernelPdtIdx]
        refine ⟨_, step_present hlt hi hm, ?_, ?_, h.beyond, ?_⟩
        · exact Nat.mod_lt _ (by decide)
        · rw [if_neg (fun hall => hall.2 hidx)]
          exact h.gone
        · simp only [if_neg (fun hall : _ ∧ w.addr / 0x400000 ≠ kernelPdtIdx => hall.2 hidx)]
          have hslot : (w.addr + 4096 * min p (1023 - w.addr / 4096 % 1024)) % 2 ^ 32 / 0x400000 =
              w.addr / 0x400000 := by omega
          rw [hslot]
          rcases h.place with hp | ⟨hp, -⟩ | ⟨hp, hp'⟩ | hp
          · exact Or.inr (Or.inl ⟨by omega, hi⟩)
          · exact Or.inr (Or.inl ⟨by omega, hi⟩)
          · exact Or.inr (Or.inr (Or.inr (by omega)))
          · exact Or.inr (Or.inr (Or.inr (by omega)))
      · have hm : cleared (w.addr / 0x400000) (w.addr / 4096 % 1024) p =
            min p (1024 - w.addr / 4096 % 1024) := cleared_of_ne hidx _ p
        refine ⟨_, step_present hlt hi hm, ?_, ?_, h.beyond, ?_⟩
        · exact Nat.mod_lt _ (by decide)
        · split
          · show Function.update w.tables (w.addr / 0x400000) false 1023 = false
            rw [Function.update_of_ne (Ne.symm hlast)]
            exact h.gone
          · exact h.gone
        · -- the walk comes to the end of the slot, or it stays in it
          by_cases hend : p < 1024 - w.addr / 4096 % 1024
          · have hslot : (w.addr + 4096 * min p (1024 - w.addr / 4096 % 1024)) % 2 ^ 32 / 0x400000 =
                w.addr / 0x400000 := by omega
            simp only [if_neg (show ¬ (min p (1024 - w.addr / 4096 % 1024) = 1024 ∧
              w.addr / 0x400000 ≠ kernelPdtIdx) by omega), hslot]
            rcases h.place with hp | ⟨hp, -⟩ | ⟨hp, hp'⟩ | hp
            · exact Or.inr (Or.inl ⟨by omega, hi⟩)
            · exact Or.inr (Or.inl ⟨by omega, hi⟩)
            · omega
            · omega
          · simp only
            rcases h.place with hp | ⟨hp, -⟩ | ⟨hp, hp'⟩ | hp
            · exact Or.inl (by omega)
            · exact Or.inl (by omega)
            · exact Or.inr (Or.inr (Or.inl ⟨hp, by omega⟩))
            · omega

theorem Wrapped.not_halts (h : Wrapped p e r w) (hr : r < 4096) :
  ¬ Loop.Halts (Walk.step p e) w
  := Loop.not_halts_of_invariant (Wrapped p e r) (fun _ hw => hw.step hr) h

/-! ### From slot to slot -/

/-- From slot `k` on, which is entered `ρ` bytes after its beginning, nothing stops the walk before
`e`: the slots it comes to have page tables, it does not come to the entry of the temporary mapping,
and it clears the last slot only in part. -/
structure Solid (H : ℕ → Bool) (p e ρ k : ℕ) : Prop where
  present : ∀ i, k ≤ i → 0x400000 * i + ρ < e → H i = true
  spared : k ≤ kernelPdtIdx → e ≤ 0xC03FF000 + ρ
  last : 0x400000 * 1023 + ρ < e → p < 1024

/-- A slot without a page table is skipped once, when it is entered after its beginning.  The walk
goes on at the beginning of the next slot. -/
def Skips (H : ℕ → Bool) (p e ρ k : ℕ) : Prop :=
  0 < ρ ∧ ∃ i, k ≤ i ∧ i < 1023 ∧ 0x400000 * i + ρ < e ∧ H i = false ∧
    (∀ l, k ≤ l → l < i → H l = true) ∧ (k ≤ kernelPdtIdx → i ≤ kernelPdtIdx) ∧
    Solid H p e 0 (i + 1)

/-- The walk gets from slot `k`, which it enters `ρ` bytes after its beginning, to the end. -/
def Passes (H : ℕ → Bool) (p e ρ k : ℕ) : Prop :=
  Solid H p e ρ k ∨ Skips H p e ρ k

/-- The slots before `k` do not matter. -/
theorem Solid.congr {H' : ℕ → Bool} {ρ k : ℕ} (h : Solid H p e ρ k)
    (heq : ∀ i, k ≤ i → H' i = H i) :
  Solid H' p e ρ k
  := by
  refine ⟨?_, h.spared, h.last⟩
  intro i hi hlt
  rw [heq i hi]
  exact h.present i hi hlt

theorem Passes.congr {H' : ℕ → Bool} {ρ k : ℕ} (h : Passes H p e ρ k)
    (heq : ∀ i, k ≤ i → H' i = H i) :
  Passes H' p e ρ k
  := by
  rcases h with hsolid | ⟨hρ, i, hki, hi, hlt, hnot, hbefore, htmp, hrest⟩
  · exact Or.inl (hsolid.congr heq)
  · right
    refine ⟨hρ, i, hki, hi, hlt, by rw [heq i hki, hnot], ?_, htmp,
      hrest.congr fun l hl => heq l (by omega)⟩
    intro l hl hli
    rw [heq l hl]
    exact hbefore l hl hli

/-- A slot that has a page table is passed. -/
theorem passes_succ_iff {H' : ℕ → Bool} {ρ k : ℕ} (hk : H k = true) (hidx : k ≠ kernelPdtIdx)
    (heq : ∀ i, k < i → H' i = H i) :
  Passes H' p e ρ (k + 1) ↔ Passes H p e ρ k
  := by
  rw [kernelPdtIdx] at hidx
  constructor
  · rintro (⟨hpresent, hspared, hlast⟩ | ⟨hρ, i, hki, hi, hlt, hnot, hbefore, htmp, hrest⟩)
    · left
      refine ⟨?_, ?_, hlast⟩
      · intro i hi hlt
        rcases Nat.eq_or_lt_of_le hi with rfl | hgt
        · exact hk
        · rw [← heq i hgt]
          exact hpresent i hgt hlt
      · intro hle
        apply hspared
        rw [kernelPdtIdx] at hle ⊢
        omega
    · right
      refine ⟨hρ, i, by omega, hi, hlt, by rw [← heq i hki, hnot], ?_, ?_,
        hrest.congr fun l hl => (heq l (by omega)).symm⟩
      · intro l hl hli
        rcases Nat.eq_or_lt_of_le hl with rfl | hgt
        · exact hk
        · rw [← heq l hgt]
          exact hbefore l hgt hli
      · intro hle
        apply htmp
        rw [kernelPdtIdx] at hle ⊢
        omega
  · rintro (⟨hpresent, hspared, hlast⟩ | ⟨hρ, i, hki, hi, hlt, hnot, hbefore, htmp, hrest⟩)
    · left
      refine ⟨?_, ?_, hlast⟩
      · intro i hi hlt
        rw [heq i hi]
        exact hpresent i (by omega) hlt
      · intro hle
        apply hspared
        omega
    · right
      have hne : i ≠ k := by
        rintro rfl
        rw [hk] at hnot
        simp at hnot
      refine ⟨hρ, i, by omega, hi, hlt, by rw [heq i (by omega), hnot], ?_, ?_,
        hrest.congr fun l hl => heq l (by omega)⟩
      · intro l hl hli
        rw [heq l hl]
        exact hbefore l (by omega) hli
      · intro hle
        apply htmp
        omega

/-- At a slot without a page table the walk needs to skip it. -/
theorem passes_absent_iff {ρ k : ℕ} (hlt : 0x400000 * k + ρ < e) (hk : H k = false) :
  Passes H p e ρ k ↔ 0 < ρ ∧ k < 1023 ∧ Solid H p e 0 (k + 1)
  := by
  constructor
  · rintro (hsolid | ⟨hρ, i, hki, hi, -, -, hbefore, -, hrest⟩)
    · rw [hsolid.present k le_rfl hlt] at hk
      simp at hk
    · rcases Nat.eq_or_lt_of_le hki with rfl | hgt
      · exact ⟨hρ, hi, hrest⟩
      · rw [hbefore k le_rfl hgt] at hk
        simp at hk
  · rintro ⟨hρ, hk', hrest⟩
    right
    refine ⟨hρ, k, le_rfl, hk', hlt, hk, ?_, id, hrest⟩
    intro l hl hlk
    omega

theorem passes_zero_iff {k : ℕ} :
  Passes H p e 0 k ↔ Solid H p e 0 k
  := by
  constructor
  · rintro (hsolid | ⟨hpos, -⟩)
    · exact hsolid
    · exact absurd hpos (by omega)
  · exact Or.inl

/-- The walk that stays where it is. -/
theorem not_halts_of_stay (h : step p e w = .inl w) :
  ¬ Loop.Halts (step p e) w
  := by
  apply Loop.not_halts_of_invariant (fun w' => w' = w) _ rfl
  rintro _ rfl
  exact ⟨_, h, rfl⟩

/-- The walk does not pass the entry of the temporary mapping. -/
theorem not_halts_at_tmp {ρ : ℕ} (hρ : ρ < 4096) (hk : H 768 = true) (hlt : 0xC03FF000 + ρ < e) :
  ¬ Loop.Halts (step p e) ⟨0xC03FF000 + ρ, H⟩
  := by
  have hslot : (0xC03FF000 + ρ) / 0x400000 = 768 := by omega
  have hm : cleared ((0xC03FF000 + ρ) / 0x400000) ((0xC03FF000 + ρ) / 4096 % 1024) p = 0 := by
    rw [hslot, cleared_kernelPdtIdx]
    omega
  apply not_halts_of_stay
  rw [step_present hlt (by rwa [hslot]) hm, if_neg (by omega)]
  congr 2
  show (0xC03FF000 + ρ + 4096 * 0) % 2 ^ 32 = 0xC03FF000 + ρ
  omega

/-- Where the walk has come to an end, nothing stops it. -/
theorem passes_of_le {ρ k : ℕ} (hk : k < 1024) (hle : e ≤ 0x400000 * k + ρ) :
  Passes H p e ρ k
  := by
  left
  refine ⟨?_, ?_, ?_⟩
  · intro i hi hlt
    omega
  · rw [kernelPdtIdx]
    omega
  · omega

section Slot

variable {ρ k : ℕ} (he : e < 2 ^ 32) (hρ : ρ < 4096) (hk : k < 1024)
  (hreach : e ≤ 0x400000 * k + ρ + 4096 * p) (hlt : 0x400000 * k + ρ < e)

include he hρ hk hreach hlt

/-- A slot without a page table. -/
theorem halts_absent_iff (htable : H k = false)
    (hnext : k < 1023 → (Loop.Halts (step p e) ⟨0x400000 * (k + 1), H⟩ ↔ Solid H p e 0 (k + 1))) :
  Loop.Halts (step p e) ⟨0x400000 * k + ρ, H⟩ ↔ Passes H p e ρ k
  := by
  have hslot : (0x400000 * k + ρ) / 0x400000 = k := by omega
  have hstep := step_absent (p := p) (w := ⟨0x400000 * k + ρ, H⟩) hlt (by rwa [hslot])
  rw [passes_absent_iff hlt htable]
  rcases Nat.eq_zero_or_pos ρ with rfl | hpos
  · -- `align_up` stays at the beginning of the slot
    apply iff_of_false
    · apply not_halts_of_stay
      rw [hstep]
      congr 2
      show (0x400000 * k + 0 + 0x3FFFFF) / 0x400000 * 0x400000 % 2 ^ 32 = 0x400000 * k + 0
      omega
    · exact fun hall => absurd hall.1 (by omega)
  · rw [Loop.halts_continue hstep]
    rcases Nat.lt_or_ge k 1023 with hk' | hk'
    · have haddr : (0x400000 * k + ρ + 0x3FFFFF) / 0x400000 * 0x400000 % 2 ^ 32 =
          0x400000 * (k + 1) := by omega
      rw [haddr, hnext hk']
      exact ⟨fun hsolid => ⟨hpos, hk', hsolid⟩, fun hall => hall.2.2⟩
    · -- past the last slot the walk begins anew
      obtain rfl : k = 1023 := by omega
      apply iff_of_false
      · apply Wrapped.not_halts (r := 0) _ (by omega)
        refine ⟨?_, htable, by omega, Or.inl ?_⟩
        · exact Nat.mod_lt _ (by decide)
        · show (0x400000 * 1023 + ρ + 0x3FFFFF) / 0x400000 * 0x400000 % 2 ^ 32 % 0x400000 = 0
          omega
      · exact fun hall => absurd hall.2.1 (by omega)

/-- The slot with the temporary mapping. -/
theorem halts_tmp_iff (htable : H k = true) (hidx : k = 768) :
  Loop.Halts (step p e) ⟨0x400000 * k + ρ, H⟩ ↔ Passes H p e ρ k
  := by
  subst hidx
  have hslot : (0x400000 * 768 + ρ) / 0x400000 = 768 := by omega
  have hm : cleared ((0x400000 * 768 + ρ) / 0x400000) ((0x400000 * 768 + ρ) / 4096 % 1024) p =
      min p 1023 := by
    rw [hslot, cleared_kernelPdtIdx]
    omega
  have hstep := step_present (w := ⟨0x400000 * 768 + ρ, H⟩) hlt (by rwa [hslot]) hm
  rw [if_neg (by omega)] at hstep
  rw [Loop.halts_continue hstep]
  rcases Nat.lt_or_ge (0xC03FF000 + ρ) e with hover | hover
  · have haddr : (0x400000 * 768 + ρ + 4096 * min p 1023) % 2 ^ 32 = 0xC03FF000 + ρ := by omega
    apply iff_of_false
    · simp only [haddr]
      exact not_halts_at_tmp hρ htable hover
    · rintro (hsolid | ⟨-, i, hki, -, -, hnot, -, htmp, -⟩)
      · have hle := hsolid.spared (by decide)
        omega
      · have hle := htmp (by decide)
        rw [kernelPdtIdx] at hle
        obtain rfl : i = 768 := by omega
        rw [htable] at hnot
        simp at hnot
  · apply iff_of_true
    · apply Loop.halts_of_leave
      apply step_leave
      show e ≤ (0x400000 * 768 + ρ + 4096 * min p 1023) % 2 ^ 32
      omega
    · left
      refine ⟨?_, fun _ => hover, by omega⟩
      intro i hi hlt'
      obtain rfl : i = 768 := by omega
      exact htable

/-- Fewer pages than a slot has: the walk ends in the slot. -/
theorem halts_short_iff (htable : H k = true) (hidx : k ≠ 768) (hp : p < 1024) :
  Loop.Halts (step p e) ⟨0x400000 * k + ρ, H⟩ ↔ Passes H p e ρ k
  := by
  have hslot : (0x400000 * k + ρ) / 0x400000 = k := by omega
  have hm : cleared ((0x400000 * k + ρ) / 0x400000) ((0x400000 * k + ρ) / 4096 % 1024) p = p := by
    rw [hslot, cleared_of_ne hidx]
    omega
  have hstep := step_present (w := ⟨0x400000 * k + ρ, H⟩) hlt (by rwa [hslot]) hm
  apply iff_of_true
  · rw [Loop.halts_continue hstep]
    apply Loop.halts_of_leave
    apply step_leave
    show e ≤ (0x400000 * k + ρ + 4096 * p) % 2 ^ 32
    omega
  · left
    refine ⟨?_, ?_, fun _ => hp⟩
    · intro i hi hlt'
      obtain rfl : i = k := by omega
      exact htable
    · rw [kernelPdtIdx]
      omega

/-- At least as many pages as a slot has: the page table is freed. -/
theorem halts_full_iff (htable : H k = true) (hidx : k ≠ 768) (hp : 1024 ≤ p)
    (hnext : k < 1023 → (Loop.Halts (step p e) ⟨0x400000 * (k + 1) + ρ, Function.update H k false⟩ ↔
      Passes (Function.update H k false) p e ρ (k + 1))) :
  Loop.Halts (step p e) ⟨0x400000 * k + ρ, H⟩ ↔ Passes H p e ρ k
  := by
  have hslot : (0x400000 * k + ρ) / 0x400000 = k := by omega
  have hm : cleared ((0x400000 * k + ρ) / 0x400000) ((0x400000 * k + ρ) / 4096 % 1024) p = 1024 := by
    rw [hslot, cleared_of_ne hidx]
    omega
  have hstep := step_present (w := ⟨0x400000 * k + ρ, H⟩) hlt (by rwa [hslot]) hm
  simp only [hslot] at hstep
  rw [if_pos ⟨trivial, hidx⟩] at hstep
  rw [Loop.halts_continue hstep]
  rcases Nat.lt_or_ge k 1023 with hk' | hk'
  · have haddr : (0x400000 * k + ρ + 4096 * 1024) % 2 ^ 32 = 0x400000 * (k + 1) + ρ := by omega
    rw [haddr, hnext hk']
    apply passes_succ_iff htable hidx
    intro i hi
    rw [Function.update_of_ne (by omega)]
  · obtain rfl : k = 1023 := by omega
    apply iff_of_false
    · apply Wrapped.not_halts (r := ρ) _ hρ
      refine ⟨Nat.mod_lt _ (by decide), ?_, hlt, Or.inr (Or.inr (Or.inl ⟨hp, ?_⟩))⟩
      · show Function.update H 1023 false 1023 = false
        rw [Function.update_self]
      · show (0x400000 * 1023 + ρ + 4096 * 1024) % 2 ^ 32 % 0x400000 = ρ
        omega
    · rintro (hsolid | ⟨-, i, hki, hi, -⟩)
      · have hfew := hsolid.last hlt
        omega
      · omega

end Slot

/-- The walk ends from the entry of slot `k` on if and only if it passes. -/
theorem halts_slot_iff {ρ k : ℕ} (he : e < 2 ^ 32) (hρ : ρ < 4096) (hk : k < 1024)
    (hreach : e ≤ 0x400000 * k + ρ + 4096 * p) :
  Loop.Halts (step p e) ⟨0x400000 * k + ρ, H⟩ ↔ Passes H p e ρ k
  := by
  -- by induction on the slots that are left
  obtain ⟨n, hn⟩ : ∃ n, k + n = 1024 := ⟨1024 - k, by omega⟩
  induction n generalizing k ρ H with
  | zero => omega
  | succ n ih =>
      rcases Nat.lt_or_ge (0x400000 * k + ρ) e with hlt | hle
      · cases htable : H k with
        | false =>
            apply halts_absent_iff he hρ hk hreach hlt htable
            intro hk'
            rw [← passes_zero_iff]
            exact ih (ρ := 0) (k := k + 1) (by omega) (by omega) (by omega) (by omega)
        | true =>
            by_cases hidx : k = 768
            · exact halts_tmp_iff he hρ hk hreach hlt htable hidx
            rcases Nat.lt_or_ge p 1024 with hp | hp
            · exact halts_short_iff he hρ hk hreach hlt htable hidx hp
            · apply halts_full_iff he hρ hk hreach hlt htable hidx hp
              intro hk'
              exact ih hρ (by omega) (by omega) (by omega)
      · apply iff_of_true
        · exact Loop.halts_of_leave (step_leave hle)
        · exact passes_of_le hk hle

/-! ### The whole walk -/

/-- The walk over `p` pages from address `v` on ends.  It is not entered for no pages, or when the
pages go past the end of the address space.  Otherwise the first slot has a page table, or it is
entered after its beginning and is not the last. -/
def Ends (H : ℕ → Bool) (p v : ℕ) : Prop :=
  p = 0 ∨ 2 ^ 32 ≤ v + 4096 * p ∨
    if H (v / 0x400000) then
      (v / 0x400000 = kernelPdtIdx → v + 4096 * p ≤ 0xC03FF000 + v % 4096) ∧
        Passes H p (v + 4096 * p) (v % 4096) (v / 0x400000 + 1)
    else
      v % 0x400000 ≠ 0 ∧ v / 0x400000 < 1023 ∧
        Solid H p (v + 4096 * p) 0 (v / 0x400000 + 1)

section First

variable {v : ℕ} (hp : 0 < p) (hend : v + 4096 * p < 2 ^ 32)

include hp hend

/-- The pages that are left after the first slot. -/
theorem passes_first (hlast : v + 4096 * p ≤ 0x400000 * (v / 0x400000 + 1) + v % 4096) :
  Passes H p (v + 4096 * p) (v % 4096) (v / 0x400000 + 1)
  := by
  left
  refine ⟨?_, ?_, ?_⟩
  · intro i hi hlt
    omega
  · rw [kernelPdtIdx]
    omega
  · omega

theorem halts_first_present_iff (htable : H (v / 0x400000) = true) :
  Loop.Halts (step p (v + 4096 * p)) ⟨v, H⟩ ↔
    (v / 0x400000 = kernelPdtIdx → v + 4096 * p ≤ 0xC03FF000 + v % 4096) ∧
      Passes H p (v + 4096 * p) (v % 4096) (v / 0x400000 + 1)
  := by
  have hlt : v < v + 4096 * p := by omega
  by_cases hidx : v / 0x400000 = 768
  · have hm : cleared (v / 0x400000) (v / 4096 % 1024) p = min p (1023 - v / 4096 % 1024) := by
      rw [hidx, cleared_kernelPdtIdx]
    have hstep := step_present (w := ⟨v, H⟩) hlt htable hm
    rw [if_neg (fun hall => hall.2 hidx)] at hstep
    rw [Loop.halts_continue hstep]
    rcases Nat.lt_or_ge (0xC03FF000 + v % 4096) (v + 4096 * p) with hover | hover
    · have haddr : (v + 4096 * min p (1023 - v / 4096 % 1024)) % 2 ^ 32 = 0xC03FF000 + v % 4096 := by
        omega
      apply iff_of_false
      · simp only [haddr]
        exact not_halts_at_tmp (by omega) (by rwa [← hidx]) hover
      · intro hall
        have hle := hall.1 hidx
        omega
    · apply iff_of_true
      · apply Loop.halts_of_leave
        apply step_leave
        show v + 4096 * p ≤ (v + 4096 * min p (1023 - v / 4096 % 1024)) % 2 ^ 32
        omega
      · exact ⟨fun _ => hover, passes_first hp hend (by omega)⟩
  · have hm : cleared (v / 0x400000) (v / 4096 % 1024) p = min p (1024 - v / 4096 % 1024) :=
      cleared_of_ne hidx _ p
    rw [Loop.halts_continue (step_present (w := ⟨v, H⟩) hlt htable hm),
      and_iff_right (fun heq => absurd heq hidx)]
    rcases Nat.lt_or_ge (1024 - v / 4096 % 1024) p with hmore | hfew
    · have haddr : (v + 4096 * min p (1024 - v / 4096 % 1024)) % 2 ^ 32 =
          0x400000 * (v / 0x400000 + 1) + v % 4096 := by omega
      rw [haddr, halts_slot_iff hend (by omega) (by omega) (by omega)]
      have hsame : ∀ i, v / 0x400000 + 1 ≤ i →
          (if min p (1024 - v / 4096 % 1024) = 1024 ∧ v / 0x400000 ≠ kernelPdtIdx then
            Function.update H (v / 0x400000) false else H) i = H i := by
        intro i hi
        split
        · rw [Function.update_of_ne (by omega)]
        · rfl
      exact ⟨fun h => h.congr fun i hi => (hsame i hi).symm, fun h => h.congr hsame⟩
    · apply iff_of_true
      · apply Loop.halts_of_leave
        apply step_leave
        show v + 4096 * p ≤ (v + 4096 * min p (1024 - v / 4096 % 1024)) % 2 ^ 32
        omega
      · exact passes_first hp hend (by omega)

theorem halts_first_absent_iff (htable : H (v / 0x400000) = false) :
  Loop.Halts (step p (v + 4096 * p)) ⟨v, H⟩ ↔
    v % 0x400000 ≠ 0 ∧ v / 0x400000 < 1023 ∧ Solid H p (v + 4096 * p) 0 (v / 0x400000 + 1)
  := by
  have hstep := step_absent (p := p) (w := ⟨v, H⟩) (show v < v + 4096 * p by omega) htable
  by_cases hzero : v % 0x400000 = 0
  · apply iff_of_false
    · apply not_halts_of_stay
      rw [hstep]
      congr 2
      show (v + 0x3FFFFF) / 0x400000 * 0x400000 % 2 ^ 32 = v
      omega
    · exact fun hall => hall.1 hzero
  · rw [Loop.halts_continue hstep]
    rcases Nat.lt_or_ge (v / 0x400000) 1023 with hk | hk
    · have haddr : (v + 0x3FFFFF) / 0x400000 * 0x400000 % 2 ^ 32 =
          0x400000 * (v / 0x400000 + 1) + 0 := by omega
      rw [haddr, halts_slot_iff hend (by omega) (by omega) (by omega), passes_zero_iff]
      exact ⟨fun hsolid => ⟨hzero, hk, hsolid⟩, fun hall => hall.2.2⟩
    · have hlast : v / 0x400000 = 1023 := by omega
      apply iff_of_false
      · apply Wrapped.not_halts (r := 0) _ (by omega)
        refine ⟨Nat.mod_lt _ (by decide), by rwa [← hlast], by omega, Or.inl ?_⟩
        show (v + 0x3FFFFF) / 0x400000 * 0x400000 % 2 ^ 32 % 0x400000 = 0
        omega
      · exact fun hall => absurd hall.2.1 (by omega)

end First

/-- The walk from address `v` on ends if and only if nothing stops it. -/
theorem halts_iff {v : ℕ} (hv : v < 2 ^ 32) (hp : p < 2 ^ 20) :
  Loop.Halts (step p ((v + 4096 * p) % 2 ^ 32)) ⟨v, H⟩ ↔ Ends H p v
  := by
  rw [Ends]
  by_cases hstay : p = 0 ∨ 2 ^ 32 ≤ v + 4096 * p
  · apply iff_of_true
    · apply Loop.halts_of_leave
      apply step_leave
      show (v + 4096 * p) % 2 ^ 32 ≤ v
      omega
    · rcases hstay with hzero | hover
      · exact Or.inl hzero
      · exact Or.inr (Or.inl hover)
  · rw [or_iff_right (fun hzero => hstay (Or.inl hzero)),
      or_iff_right (fun hover => hstay (Or.inr hover))]
    have hpos : 0 < p := by omega
    have hend : v + 4096 * p < 2 ^ 32 := by omega
    rw [Nat.mod_eq_of_lt hend]
    cases htable : H (v / 0x400000) with
    | true =>
        rw [if_pos rfl]
        exact halts_first_present_iff hpos hend htable
    | false =>
        rw [if_neg Bool.false_ne_true]
        exact halts_first_absent_iff hpos hend htable

end Walk

end Paging
