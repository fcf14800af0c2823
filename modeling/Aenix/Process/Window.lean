import Aenix.Process.Calls

/-!
# Memory of processes in the kernel

Code and stacks are written through pages of the kernel that are mapped for the purpose and
unmapped afterwards (`Window`).  Writing changes the contents of frames of one process only.
-/

open Aenix
open Paging hiding Call exec Step

namespace Process

variable {w : World} {s s' s'' : State} {own : Labels} {d p n v u paddr vaddr size : UInt32} {k m : ℕ}

/-! ### Writing -/

/-- The states differ in the contents of frames of the process with the directory `d`. -/
structure Wrote (own : Labels) (d : UInt32) (s s' : State) : Prop where
  pfa : s'.pfa = s.pfa
  vars : SameVars s s'
  mem : ∀ f, own f ≠ some (.user d) → s'.mem f = s.mem f

theorem Wrote.refl (own : Labels) (d : UInt32) (s : State) :
  Wrote own d s s
  := ⟨rfl, SameVars.refl s, fun _ _ => rfl⟩

theorem Wrote.fill (h : Wrote own d s s') {f : UInt32} (hf : own f = some (.user d)) (t : Table) :
  Wrote own d s (s'.fill f t)
  := by
  refine ⟨h.pfa, ⟨h.vars.kernelPdt, h.vars.kernelPt, h.vars.cr3⟩, ?_⟩
  intro f' hf'
  have hne : f' ≠ f := fun heq => hf' (heq ▸ hf)
  rw [State.mem_fill, Function.update_of_ne hne, h.mem f' hf']

/-- The directory of the kernel and its page tables are not written to. -/
theorem Wrote.page (h : Wrote own d s s') (hl : Labelled s own) (v : UInt32) :
  s'.page s'.kernelPdt v = s.page s.kernelPdt v
  := by
  rw [h.vars.kernelPdt]
  have hpdt : own s.kernelPdt ≠ some (.user d) := fun hown => hl.ne_pdt hown rfl
  apply State.page_congr (by rw [h.mem _ hpdt])
  intro hhas
  rw [h.mem]
  exact fun hown => hl.ne_kernelTable hown (by simp) (virtualToPdtIdx_lt v) hhas rfl

theorem Wrote.resolve (h : Wrote own d s s') (hl : Labelled s own) (v : UInt32) :
  s'.resolve v = s.resolve v
  := by
  rw [State.resolve, State.resolve, h.page hl]

theorem Wrote.labelled (h : Wrote own d s s') (hl : Labelled s own) :
  Labelled s' own
  := by
  have hpdt : s'.mem s.kernelPdt = s.mem s.kernelPdt :=
    h.mem _ fun hown => hl.ne_pdt hown rfl
  have hmem : ∀ {f t}, own f = some t → t ≠ .user d → s'.mem f = s.mem f := by
    intro f t hf ht
    apply h.mem
    rw [hf]
    exact fun heq => ht (Option.some.inj heq)
  constructor
  · rw [h.pfa]
    exact hl.pfa
  · rw [h.pfa]
    exact hl.held
  · rw [h.pfa, h.vars.kernelPdt]
    exact hl.pdt_unmanaged
  · rw [h.pfa, h.vars.kernelPt]
    exact hl.pt_unmanaged
  · rw [h.vars.kernelPdt]
    exact hl.kernel.congr hpdt (by rw [h.pfa]) h.vars.kernelPt
  · rw [h.vars.kernelPdt, h.vars.kernelPt, State.has, State.table, hpdt]
    exact hl.first
  · rw [h.vars.kernelPdt]
    simp only [State.has, State.table, hpdt]
    exact hl.kernelTable
  · rw [h.vars.kernelPdt]
    simp only [State.has, hpdt]
    exact hl.supervisor
  · intro d' hd'
    apply (hl.dirs d' hd').congr (hmem hd' (by simp)) (fun f hf => hmem hf (by simp))
    exact fun _ _ _ hf => hf

/-- The world after frames of the process were written to. -/
theorem Wrote.keeps (h : Wrote w.own d w.state s') :
  ∃ w' : World, w'.heap = { w.heap with kernel := s' } ∧ Keeps {.user d} ∅ w w' ∧
    w'.own = w.own ∧ ∀ v, w'.page v = w.page v
  := by
  have hpage := h.page w.labelled
  refine ⟨⟨{ w.heap with kernel := s' }, w.own, h.labelled w.labelled⟩, rfl, ?_, rfl, hpage⟩
  refine ⟨?_, h.vars, fun _ _ hf _ => hf, fun _ _ hf => Or.inl hf, ?_, ?_, fun _ hr => Or.inl hr⟩
  · rw [h.pfa]
    exact Pfa.SameMap.refl _
  · intro f t hf ht _
    apply h.mem
    rw [hf]
    exact fun heq => ht (Option.some.inj heq)
  · intro v e t hv _ _ _
    exact (hpage v).trans hv

/-! ### Windows -/

/-- The `n` pages from `v` on lie in one slot, are not that of the temporary mapping, and are mapped
to frames of the process with the directory `d`. -/
structure Window (w : World) (d v : UInt32) (n : ℕ) : Prop where
  pos : 0 < n
  fits : virtualToPtIdx v + n ≤ 1024
  tmp : virtualToPdtIdx v = kernelPdtIdx → virtualToPtIdx v + n ≤ kernelTmpPtIdx
  mapped : ∀ u, pageOff v u < n → ∃ e, w.page u = some e ∧ w.own e.paddr = some (.user d)

theorem pageOff_nthPage (v : UInt32) (hk : k < 2 ^ 20) :
  pageOff v (nthPage v k) = k
  := by
  have hlt := v.toNat_lt
  have hnth : (nthPage v k).toNat = (v.toNat + 4096 * k) % 2 ^ 32 := by
    rw [nthPage, UInt32.toNat_add, toNat_ofNat_mul_fourKb hk]
  rw [pageOff, hnth]
  omega

theorem Window.resolve (h : Window w d v m) (hk : k < m) :
  ∃ f, w.state.resolve (nthPage v k) = some f ∧ w.own f = some (.user d)
  := by
  have hfits := h.fits
  obtain ⟨e, he, hown⟩ := h.mapped (nthPage v k) (by rwa [pageOff_nthPage v (by omega)])
  exact ⟨e.paddr, Option.map_eq_some_iff.mpr ⟨e, he, rfl⟩, hown⟩

/-- Spare pages that have been mapped to frames of a process are a window. -/
theorem Spare.window {w' : World} (h : Spare w.state v (pages size)) (hpos : 0 < pages size)
    (hle : pages size ≤ 1024)
    (hmaps : Maps w.state w'.state w.state.kernelPdt p v pagingReadWrite pagingPl0 (pages size))
    (hframes : ∀ k < pages size, 4096 ∣ (nthPage p k).toNat ∧ w'.own (nthPage p k) = some (.user d)) :
  Window w' d v (pages size)
  := by
  have hi := virtualToPdtIdx_lt v
  have hfits : virtualToPtIdx v + pages size ≤ 1024 := by
    by_cases hhas : w.state.has w.state.kernelPdt (virtualToPdtIdx v)
    · exact (h.vacant hhas).2.1
    · rw [h.start hhas]
      omega
  refine ⟨hpos, hfits, ?_, ?_⟩
  · intro hidx
    -- the last page of the slot is not mapped
    by_contra hover
    have hlast : virtualToPtIdx v ≤ kernelTmpPtIdx ∧ kernelTmpPtIdx < virtualToPtIdx v + pages size := by
      rw [kernelTmpPtIdx] at hover ⊢
      omega
    obtain ⟨u, hu⟩ : ∃ u : UInt32, virtualToPdtIdx u = kernelPdtIdx ∧ virtualToPtIdx u = kernelTmpPtIdx :=
      ⟨0xC03FF000, by decide, by decide⟩
    apply hmaps.spared u
    · rw [pageOff_lt_iff hfits, hidx, hu.1, hu.2]
      exact ⟨rfl, hlast⟩
    · exact ⟨hu.2, Or.inl hu.1⟩
  · intro u hu
    obtain ⟨hdvd, hown⟩ := hframes _ hu
    refine ⟨_, by rw [World.page, hmaps.vars.kernelPdt, hmaps.page, if_pos hu], ?_⟩
    rw [paddr_createPtEntry hdvd]
    exact hown

/-- `pdt_unmap_kernel_memory` of a window. -/
theorem Window.unmap_spec (h : Window w d v (pages size)) (env : Env) :
  Spec ∅ {.kernelTable} (unmapKernelMemory env v size) w fun _ _ => True
  := by
  have hself : pageOff v v < pages size := by
    have hlt := v.toNat_lt
    have hpos := h.pos
    rw [pageOff]
    omega
  have hhas : w.state.has w.state.kernelPdt (virtualToPdtIdx v) := by
    obtain ⟨e, he, -⟩ := h.mapped v hself
    by_contra hnot
    rw [World.page, State.page_of_not_has hnot] at he
    simp at he
  refine (unmapKernelMemory_spec w env hhas h.pos h.fits h.tmp ?_).mono subset_rfl subset_rfl
    fun _ _ _ _ => trivial
  intro u e t hu he ht hmapped
  obtain ⟨e', he', hown⟩ := h.mapped u hu
  rw [he, Option.some.injEq] at he'
  rw [← he', ht, Option.some.injEq] at hown
  rw [hown] at hmapped
  exact hmapped

/-! ### Filling a window -/

/-- One more page is written. -/
theorem Wrote.next (h : Wrote own d s s') (hl : Labelled s own)
    (hres : ∃ f, s.resolve v = some f ∧ own f = some (.user d)) {f : UInt32}
    (hf : s'.resolve v = some f) (t : Table) :
  Wrote own d s (s'.fill f t)
  := by
  obtain ⟨f', hf', hown⟩ := hres
  rw [h.resolve hl, hf', Option.some.injEq] at hf
  rw [← hf]
  exact h.fill hown t

theorem writePages_wrote (hl : Labelled s own) {new : ℕ → Table}
    (hres : ∀ k < m, ∃ f, s.resolve (nthPage v k) = some f ∧ own f = some (.user d))
    (hrun : writePages v new m s = some s') :
  Wrote own d s s'
  := by
  induction m generalizing s' with
  | zero =>
      obtain rfl := Option.some.inj hrun
      exact Wrote.refl own d _
  | succ m ih =>
      obtain ⟨s₁, hs₁, hrun⟩ := Option.bind_eq_some_iff.mp hrun
      obtain ⟨f, hf, hrun⟩ := Option.bind_eq_some_iff.mp hrun
      obtain rfl := Option.some.inj hrun
      exact (ih (fun k hk => hres k (by omega)) hs₁).next hl (hres m (by omega)) hf _

theorem memcpyPages_wrote (hl : Labelled s own) {src : UInt32}
    (hres : ∀ k < m, ∃ f, s.resolve (nthPage v k) = some f ∧ own f = some (.user d))
    (hrun : memcpyPages v src m s = some s') :
  Wrote own d s s'
  := by
  induction m generalizing s' with
  | zero =>
      obtain rfl := Option.some.inj hrun
      exact Wrote.refl own d _
  | succ m ih =>
      obtain ⟨s₁, hs₁, hrun⟩ := Option.bind_eq_some_iff.mp hrun
      obtain ⟨f, hf, hrun⟩ := Option.bind_eq_some_iff.mp hrun
      obtain ⟨e, -, hrun⟩ := Option.bind_eq_some_iff.mp hrun
      obtain rfl := Option.some.inj hrun
      exact (ih (fun k hk => hres k (by omega)) hs₁).next hl (hres m (by omega)) hf _

/-- A window stays one when it is written to. -/
theorem Window.wrote (h : Window w d v m) (hwrote : Wrote w.own d w.state s') :
  ∃ w' : World, w'.heap = { w.heap with kernel := s' } ∧ Keeps {.user d} ∅ w w' ∧
    w'.own = w.own ∧ Window w' d v m
  := by
  obtain ⟨w', hw', hkeeps, hown, hpage⟩ := hwrote.keeps
  refine ⟨w', hw', hkeeps, hown, h.pos, h.fits, h.tmp, ?_⟩
  intro u hu
  rw [hpage, hown]
  exact h.mapped u hu

/-- `vfs_read` into a window. -/
theorem Window.vfsRead_spec {count : UInt32} (h : Window w d v (pages count)) (env : Env)
    (node : Vnode) :
  Spec {.user d} ∅ (vfsRead env node v count) w fun _ w' =>
    w'.own = w.own ∧ Window w' d v (pages count)
  := by
  apply Spec.paging
  intro r s' hrun
  obtain ⟨s₁, hs₁, heq⟩ := Option.map_eq_some_iff.mp hrun
  obtain ⟨-, rfl⟩ := Prod.mk.inj heq
  exact h.wrote (writePages_wrote w.labelled (fun _ hk => h.resolve hk) hs₁)

/-- `memcpy` into a window. -/
theorem Window.memcpy_spec {count : UInt32} (h : Window w d v (pages count)) (src : UInt32) :
  Spec {.user d} ∅ (memcpy v src count) w fun _ w' =>
    w'.own = w.own ∧ Window w' d v (pages count)
  := by
  apply Spec.paging
  intro r s' hrun
  obtain ⟨s₁, hs₁, heq⟩ := Option.map_eq_some_iff.mp hrun
  obtain ⟨-, rfl⟩ := Prod.mk.inj heq
  exact h.wrote (memcpyPages_wrote w.labelled (fun _ hk => h.resolve hk) hs₁)

end Process
