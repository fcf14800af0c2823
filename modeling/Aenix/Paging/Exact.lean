import Aenix.Paging.Active

/-!
# Mapping exactly the range

`pdt_map_memory` maps the pages of its range as it is asked to, and disturbs no other
translation, in every directory whose own frame is not that of the kernel page table and not
one that its entries refer to.
-/

open Aenix

namespace Paging

variable {s s' : State} {d paddr vaddr size r : UInt32} {rw pl : UInt8}

/-- The page at `vaddr` plus `k` pages. -/
theorem pageOff_add_ofNat (vaddr : UInt32) {k : ℕ} (hk : k < 2 ^ 20) :
  pageOff vaddr (vaddr + UInt32.ofNat k * fourKb) = k
  := by
  have hlt := vaddr.toNat_lt
  rw [pageOff, UInt32.toNat_add, toNat_ofNat_mul_fourKb hk]
  omega

/-- The page `k` pages after the frame of `paddr` begins a frame. -/
theorem dvd_add_ofNat (hpaddr : 4096 ∣ paddr.toNat) {k : ℕ} (hk : k < 2 ^ 20) :
  4096 ∣ (paddr + UInt32.ofNat k * fourKb).toNat
  := by
  rw [UInt32.toNat_add, toNat_ofNat_mul_fourKb hk]
  omega

/-- What was mapped stays so.  When the size is returned, the pages of the range have got their
frames and flags, and the others are as before. -/
theorem map_memory_exact (hpfa : Pfa.FrameMap s.pfa) (h : Separate s d)
    (hpaddr : 4096 ∣ paddr.toNat) (hrun : pdtMapMemory s d paddr vaddr size rw pl = (r, s')) :
  (∀ v e, s.page d v = some e → s'.page d v = some e) ∧
    (r = alignUp size fourKb →
      (∀ k < pages size, ∃ e, s'.page d (vaddr + UInt32.ofNat k * fourKb) = some e ∧
        e.paddr = paddr + UInt32.ofNat k * fourKb ∧
        e.writable = (rw &&& 1 != 0) ∧ e.user = (pl &&& 1 != 0)) ∧
      ∀ v, ¬ pageOff vaddr v < pages size → s'.page d v = s.page d v)
  := by
  obtain ⟨m, s₁, r₁, hrun₁, hmaps, hres⟩ := pdtMapMemory_spec hpfa h paddr vaddr size rw pl
  obtain ⟨rfl, rfl⟩ := Prod.mk.inj (hrun₁.symm.trans hrun)
  constructor
  · intro v e hv
    rw [hmaps.page, if_neg ?_, hv]
    intro hlt
    rw [hmaps.vacant v hlt] at hv
    simp at hv
  · intro hr
    -- the size is 0 when there is nothing to map
    have hm : m = pages size := by
      rcases hres with ⟨hm, -⟩ | ⟨hm, hzero⟩
      · exact hm
      · have hsize := toNat_alignUp_fourKb size
        rw [← hr, hzero, UInt32.toNat_zero] at hsize
        omega
    subst hm
    constructor
    · intro k hk
      have hlt : k < 2 ^ 20 := hk.trans (pages_lt size)
      obtain ⟨huser, hwritable⟩ :=
        access_createPtEntry (paddr + UInt32.ofNat k * fourKb) rw pl
      refine ⟨createPtEntry (paddr + UInt32.ofNat k * fourKb) rw pl, ?_, ?_, hwritable, huser⟩
      · rw [hmaps.page, pageOff_add_ofNat vaddr hlt, if_pos hk]
      · apply paddr_createPtEntry
        exact dvd_add_ofNat hpaddr hlt
    · intro v hv
      rw [hmaps.page, if_neg hv]

/-- Three pages of the first slot of `oneTable`, which has no page table there. -/
theorem map_memory_exact_oneTable :
  ∃ s', pdtMapMemory oneTable 0x101000 0x300000 0x1000 0x2800 1 1 = (0x3000, s') ∧
    (∀ v e, oneTable.page 0x101000 v = some e → s'.page 0x101000 v = some e) ∧
    ∃ e, s'.page 0x101000 0x3000 = some e ∧ e.paddr = 0x302000 ∧ e.writable = true ∧
      e.user = true
  := by
  have hrun : pdtMapMemory oneTable 0x101000 0x300000 0x1000 0x2800 1 1 =
      (0x3000, (pdtMapMemory oneTable 0x101000 0x300000 0x1000 0x2800 1 1).2) := by
    apply Prod.ext
    · decide +kernel
    · rfl
  obtain ⟨hkept, hmapped⟩ := map_memory_exact kernelState_oneTable.pfa
    kernelState_oneTable.dir.toSeparate (by decide) hrun
  obtain ⟨e, he, hpaddr, hwritable, huser⟩ := (hmapped rfl).1 2 (by decide)
  exact ⟨_, hrun, hkept, e, he, hpaddr, hwritable, huser⟩

/-- A directory in frame `0x103000` with an entry that refers to its own frame. -/
def selfReference : State where
  pfa := Pfa.sixFrames
  mem := fun f i => if f = 0x103000 ∧ i = 5 then entryFor 0x0B 0x103000 else Entry.zero
  kernelPdt := 0x101000
  kernelPt := 0x102000
  cr3 := 0x101000

theorem has_selfReference {f : UInt32} {i : ℕ} (h : selfReference.has f i) :
  f = 0x103000 ∧ i = 5
  := by
  simp only [State.has, selfReference] at h
  split at h
  case isTrue hpdt => exact hpdt
  simp at h

/-- The frames of a directory are in use, and distinct entries refer to distinct frames. -/
def InUse (s : State) (d : UInt32) : Prop :=
  d.toNat ∉ s.pfa.free ∧ s.kernelPt.toNat ∉ s.pfa.free ∧
    (∀ i < 1024, s.has d i → (s.table d i).toNat ∉ s.pfa.free) ∧
    ∀ i < 1024, ∀ j < 1024, s.has d i → s.has d j → s.table d i = s.table d j → i = j

theorem inUse_selfReference {d : UInt32} (hd : d = 0x103000 ∨ d = 0x102000) :
  InUse selfReference d
  := by
  have hfree : (0x103000 : UInt32).toNat ∉ selfReference.pfa.free := not_free_sixFrames (by decide)
  have hfree' : (0x102000 : UInt32).toNat ∉ selfReference.pfa.free := not_free_sixFrames (by decide)
  refine ⟨?_, hfree', ?_, ?_⟩
  · rcases hd with rfl | rfl
    · exact hfree
    · exact hfree'
  · intro i _ hhas
    obtain ⟨rfl, rfl⟩ := has_selfReference hhas
    exact hfree
  · intro i _ j _ hi hj _
    rw [(has_selfReference hi).2, (has_selfReference hj).2]

/-- The new page table of slot 0 appears as a page of slot 5, in which the directory is its own
page table.  In the kernel page table, taken for a directory, the entry of slot 1023 is that of
the temporary mapping: it is restored, and the page is not mapped. -/
theorem aliased_directory_disturbed :
  InUse selfReference 0x103000 ∧ InUse selfReference 0x102000 ∧
    (∃ s', pdtMapMemory selfReference 0x103000 0x300000 0 4096 1 0 = (alignUp 4096 fourKb, s') ∧
      ¬ pageOff 0 0x1400000 < pages 4096 ∧ selfReference.page 0x103000 0x1400000 = none ∧
      s'.page 0x103000 0x1400000 ≠ none) ∧
    ∃ s', pdtMapMemory selfReference 0x102000 0x300000 0xFFC00000 4096 1 0 =
        (alignUp 4096 fourKb, s') ∧
      s'.page 0x102000 0xFFC00000 = none
  := by
  refine ⟨inUse_selfReference (Or.inl rfl), inUse_selfReference (Or.inr rfl), ?_, ?_⟩
  · exact ⟨_, Prod.ext (by decide +kernel) rfl, by decide, by decide, by decide +kernel⟩
  · exact ⟨_, Prod.ext (by decide +kernel) rfl, by decide +kernel⟩

end Paging
