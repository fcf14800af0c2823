import Aenix.Lib.After
import Aenix.Paging.Active
import Aenix.Process.Basic

/-!
# What page frames are used for

The frames that are in use are labelled with what they are used for: page tables of the kernel,
memory of the heap, and the frames of a process, which carry the frame of its page directory.
The labels are not part of the program.  A state of the kernel with labels that fit it is a
`World`; how a program changes a world is described by `Keeps`.
-/

open Aenix
open Paging hiding Call exec Step

namespace Process

/-- What a page frame is used for. -/
inductive Tag
  | kernelTable
  | heap
  | pdt (d : UInt32)
  | table (d : UInt32)
  | user (d : UInt32)
  | kernelStack (d : UInt32)
  deriving DecidableEq

/-- A labelling of page frames. -/
abbrev Labels := UInt32 → Option Tag

/-- The user half of the directory in frame `d` has page tables and pages of its own, and the
kernel half is for the kernel only. -/
structure Private (s : State) (own : Labels) (d : UInt32) : Prop where
  table : ∀ i < kernelPdtIdx, s.has d i → own (s.table d i) = some (.table d)
  page : ∀ v < kernelStartVaddr, ∀ e, s.page d v = some e → own e.paddr = some (.user d)
  kernelHalf : ∀ i, kernelPdtIdx ≤ i → i < 1024 → s.has d i → (s.mem d i).user = false

/-- The labels fit the state: frames with labels are in use, the page tables of the kernel but
the first one are labelled as such and are for the kernel only, and the directories of processes
are private. -/
structure Labelled (s : State) (own : Labels) : Prop where
  pfa : Pfa.FrameMap s.pfa
  held : ∀ f t, own f = some t → f.toNat ∈ s.pfa.frames ∧ f.toNat ∉ s.pfa.free
  pdt_unmanaged : s.kernelPdt.toNat ∉ s.pfa.frames
  pt_unmanaged : s.kernelPt.toNat ∉ s.pfa.frames
  kernel : Dir s s.kernelPdt
  first : s.has s.kernelPdt kernelPdtIdx ∧ s.table s.kernelPdt kernelPdtIdx = s.kernelPt
  kernelTable : ∀ i < 1024, s.has s.kernelPdt i → i ≠ kernelPdtIdx →
    own (s.table s.kernelPdt i) = some .kernelTable
  supervisor : ∀ i < 1024, s.has s.kernelPdt i → (s.mem s.kernelPdt i).user = false
  dirs : ∀ d, own d = some (.pdt d) → Private s own d

variable {s s' : State} {own own' : Labels} {d f : UInt32} {t tag : Tag}

theorem virtualToPdtIdx_lt_kernel {v : UInt32} (h : v < kernelStartVaddr) :
  virtualToPdtIdx v < kernelPdtIdx
  := by
  rw [UInt32.lt_iff_toNat_lt, show kernelStartVaddr.toNat = 0xC0000000 from rfl] at h
  rw [virtualToPdtIdx_eq, kernelPdtIdx]
  omega

/-- A directory stays private when it, its page tables and the labels of its frames stay. -/
theorem Private.congr (h : Private s own d) (hmem : s'.mem d = s.mem d)
    (htable : ∀ f, own f = some (.table d) → s'.mem f = s.mem f)
    (hown : ∀ f t, t = .table d ∨ t = .user d → own f = some t → own' f = some t) :
  Private s' own' d
  := by
  constructor
  · intro i hi hhas
    rw [State.has, hmem] at hhas
    rw [State.table, hmem]
    exact hown _ _ (Or.inl rfl) (h.table i hi hhas)
  · intro v hv e he
    have hpage : s'.page d v = s.page d v := by
      apply State.page_congr (by rw [hmem])
      intro hhas
      rw [htable _ (h.table _ (virtualToPdtIdx_lt_kernel hv) hhas)]
    rw [hpage] at he
    exact hown _ _ (Or.inr rfl) (h.page v hv e he)
  · intro i hi hlt hhas
    rw [State.has, hmem] at hhas
    rw [hmem]
    exact h.kernelHalf i hi hlt hhas

namespace Labelled

theorem ne_pdt (h : Labelled s own) (hf : own f = some t) :
  f ≠ s.kernelPdt
  := by
  rintro rfl
  exact h.pdt_unmanaged (h.held _ _ hf).1

theorem ne_pt (h : Labelled s own) (hf : own f = some t) :
  f ≠ s.kernelPt
  := by
  rintro rfl
  exact h.pt_unmanaged (h.held _ _ hf).1

/-- A frame that is labelled otherwise is not a page table of the kernel. -/
theorem ne_kernelTable (h : Labelled s own) (hf : own f = some t) (ht : t ≠ .kernelTable) {i : ℕ}
    (hi : i < 1024) (hhas : s.has s.kernelPdt i) :
  f ≠ s.table s.kernelPdt i
  := by
  by_cases hfirst : i = kernelPdtIdx
  · rw [hfirst, h.first.2]
    exact h.ne_pt hf
  · rintro rfl
    rw [h.kernelTable i hi hhas hfirst] at hf
    exact ht (Option.some.inj hf).symm

theorem managed (h : Labelled s own) :
  Managed s s.kernelPdt
  := fun i hi hne hhas => (h.held _ _ (h.kernelTable i hi hhas hne)).1

theorem kernelState (h : Labelled s own) :
  KernelState s
  := ⟨h.pfa, h.kernel, h.managed⟩

end Labelled

/-- The labels after frames were taken or freed: those that are free have no label, and those
that have been taken get `tag`. -/
noncomputable def relabel (s s' : State) (tag : Tag) (own : Labels) : Labels := fun f =>
  open Classical in
  if f.toNat ∈ s'.pfa.free then none else if f.toNat ∈ s.pfa.free then some tag else own f

theorem relabel_of_taken (h : f.toNat ∈ s.pfa.free) (h' : f.toNat ∉ s'.pfa.free) :
  relabel s s' tag own f = some tag
  := by
  rw [relabel, if_neg h', if_pos h]

theorem relabel_of_used (h : f.toNat ∉ s.pfa.free) (h' : f.toNat ∉ s'.pfa.free) :
  relabel s s' tag own f = own f
  := by
  rw [relabel, if_neg h', if_neg h]

/-- A label after frames were taken or freed is the new one of a frame that was free, or the old
one. -/
theorem relabel_eq_some (h : relabel s s' tag own f = some t) :
  f.toNat ∉ s'.pfa.free ∧ ((f.toNat ∈ s.pfa.free ∧ t = tag) ∨ own f = some t)
  := by
  rw [relabel] at h
  split at h
  case isTrue => simp at h
  split at h
  case isTrue hfree hold => exact ⟨hfree, Or.inl ⟨hold, (Option.some.inj h).symm⟩⟩
  case isFalse hfree _ => exact ⟨hfree, Or.inr h⟩

/-- A label stays when no frame becomes free. -/
theorem Labelled.relabel_eq (h : Labelled s own) (hfree : s'.pfa.free ⊆ s.pfa.free) (hf : own f = some t) :
  Process.relabel s s' tag own f = some t
  := by
  have hused := (h.held f t hf).2
  rw [relabel_of_used hused fun hin => hused (hfree hin)]
  exact hf

/-- New labels fit a new state when the page tables of the kernel are old ones or those taken, and
the directories of processes are still private. -/
theorem Labelled.relabel (h : Labelled s own) (hmap : Pfa.SameMap s.pfa s'.pfa)
    (hvars : SameVars s s') (hdir : Dir s' s.kernelPdt) (htag : ∀ d, tag ≠ .pdt d)
    (hfirst : s'.mem s.kernelPdt kernelPdtIdx = s.mem s.kernelPdt kernelPdtIdx)
    (htables : ∀ i < 1024, s'.has s.kernelPdt i → s'.mem s.kernelPdt i = s.mem s.kernelPdt i ∨
      ((s'.table s.kernelPdt i).toNat ∈ s.pfa.free ∧ tag = .kernelTable ∧
        (s'.mem s.kernelPdt i).user = false))
    (hdirs : ∀ d, own d = some (.pdt d) → d.toNat ∉ s'.pfa.free →
      Private s' (Process.relabel s s' tag own) d) :
  Labelled s' (Process.relabel s s' tag own)
  := by
  refine ⟨hmap.frameMap h.pfa, ?_, ?_, ?_, ?_, ?_, ?_, ?_, ?_⟩
  · intro f t hf
    obtain ⟨hused, ⟨hfree, -⟩ | hold⟩ := relabel_eq_some hf
    · rw [hmap.frames]
      exact ⟨Pfa.free_subset_frames hfree, hused⟩
    · rw [hmap.frames]
      exact ⟨(h.held f t hold).1, hused⟩
  · rw [hmap.frames, hvars.kernelPdt]
    exact h.pdt_unmanaged
  · rw [hmap.frames, hvars.kernelPt]
    exact h.pt_unmanaged
  · rw [hvars.kernelPdt]
    exact hdir
  · rw [hvars.kernelPdt, hvars.kernelPt, State.has, State.table, hfirst]
    exact h.first
  · intro i hi hhas hne
    rw [hvars.kernelPdt] at hhas ⊢
    have hused := hdir.table_used i hi hhas
    rcases htables i hi hhas with heq | ⟨hfree, rfl, -⟩
    · rw [State.has, heq] at hhas
      rw [State.table, heq] at hused ⊢
      rw [relabel_of_used (h.kernel.table_used i hi hhas) hused]
      exact h.kernelTable i hi hhas hne
    · exact relabel_of_taken hfree hused
  · intro i hi hhas
    rw [hvars.kernelPdt] at hhas ⊢
    rcases htables i hi hhas with heq | ⟨-, -, huser⟩
    · rw [State.has, heq] at hhas
      rw [heq]
      exact h.supervisor i hi hhas
    · exact huser
  · intro d hd
    obtain ⟨hused, ⟨-, ht⟩ | hold⟩ := relabel_eq_some hd
    · exact absurd ht.symm (htag d)
    · exact hdirs d hold hused

end Process
