import Aenix.Kmalloc.Order
import Aenix.Pfa.Complete
import Aenix.Process.Basic

/-!
# Allocations that fail

When the heap is to grow, `acquire_more_heap` takes page frames, then a range of addresses, then maps the one
to the other.  Only when the first of these fails is nothing changed: none of the functions gives frames back
(`Fewer`), so that frames which have been taken before a failure are lost.
-/

open Aenix
open Paging

namespace Process

/-! ### Frames that are taken -/

/-- A state of the allocator in which no frame is free that was not free before. -/
structure Fewer (p p' : Pfa.State) : Prop where
  map : Pfa.FrameMap p'
  free : ∀ i, Pfa.bit p' i = true → Pfa.bit p i = true

variable {p p' p'' : Pfa.State} {num : UInt32}

theorem Fewer.refl (h : Pfa.FrameMap p) :
  Fewer p p
  := ⟨h, fun _ hi => hi⟩

theorem Fewer.trans (h : Fewer p p') (h' : Fewer p' p'') :
  Fewer p p''
  := ⟨h'.map, fun i hi => h.free i (h'.free i hi)⟩

/-- `pfa_allocate` returns 0 and changes nothing, or it takes a frame at least. -/
theorem pfaAllocate_fewer (h : Pfa.FrameMap p) (num : UInt32) :
  Fewer p (Pfa.pfaAllocate p num).2 ∧
    (Pfa.pfaAllocate p num = (0, p) ∨ ((Pfa.pfaAllocate p num).1 ≠ 0 ∧
      ∃ i f, p.frames[i]? = some f ∧ Pfa.bit p i = true ∧ Pfa.bit (Pfa.pfaAllocate p num).2 i = false))
  := by
  rcases h.pfaAllocate_spec num with hfail | ⟨b, hpos, hlt, hbits, heq, r, -, k, -, hframes⟩
  · rw [hfail]
    exact ⟨Fewer.refl h, Or.inl rfl⟩
  · have hbit : ∀ i, Pfa.bit (Pfa.pfaAllocate p num).2 i =
        (Pfa.bit p i ^^ decide (b.toNat ≤ i ∧ i < b.toNat + num.toNat)) := by
      intro i
      rw [heq, Pfa.bit_toggleBits p (by omega)]
    constructor
    · constructor
      · obtain ⟨hmmap, hlen⟩ := Pfa.toggleBitsFrom_mmap (b + num) num.toNat p b
        obtain ⟨haligned, hasc, habove, hbelow, htotal, hlenpos⟩ := h
        rw [heq]
        constructor
        all_goals simpa only [Pfa.toggleBits, hmmap, hlen]
      · intro i hi
        by_cases hin : b.toNat ≤ i ∧ i < b.toNat + num.toNat
        · exact hbits i hin.1 hin.2
        · rwa [hbit, decide_eq_false hin, Bool.xor_false] at hi
    · refine (h.pfaAllocate_free num).imp_right ?_
      rintro ⟨f, p', hok, hf, -⟩
      refine ⟨?_, b.toNat, _, hframes 0 hpos, hbits _ le_rfl (by omega), ?_⟩
      · rw [hok]
        rintro rfl
        exact absurd hf (by decide)
      have hin : b.toNat ≤ b.toNat ∧ b.toNat < b.toNat + num.toNat := by omega
      rw [hbit, hbits _ hin.1 hin.2, decide_eq_true hin, Bool.xor_self]

/-! ### The heap -/

variable {n : ℕ} {nunits nbytes r : UInt32} {s : State} {h h' : Kmalloc.Heap State}

/-- `acquire_more_heap` begins with taking frames, and then gives none back. -/
theorem backing_fewer (nunits : UInt32) (hmap : Pfa.FrameMap s.pfa) :
  Fewer (Pfa.pfaAllocate s.pfa (Kmalloc.heapFrames nunits)).2 (Kmalloc.backing kernel nunits s).2.pfa
  := by
  have hfewer := Fewer.refl (pfaAllocate_fewer hmap (Kmalloc.heapFrames nunits)).1.map
  rcases halloc : Pfa.pfaAllocate s.pfa (Kmalloc.heapFrames nunits) with ⟨paddr, taken⟩
  rcases hfind : pdtKernelFindNextVaddr { s with pfa := taken } (Kmalloc.heapBytes nunits) with ⟨vaddr, s₁⟩
  rcases hrest : pdtMapKernelMemory s₁ paddr vaddr (Kmalloc.heapBytes nunits) pagingReadWrite pagingPl0 with
    ⟨mapped, s₂⟩
  rw [halloc] at hfewer
  have hfound : Fewer taken s₁.pfa := by
    have hsame := pdtKernelFindNextVaddr_pfa { s with pfa := taken } (Kmalloc.heapBytes nunits)
    rw [hfind] at hsame
    rwa [hsame]
  have hmapped : Fewer taken s₂.pfa := by
    have hkeep := pdtMapKernelMemory_pfa (P := Fewer taken)
      (fun q hq => hq.trans (pfaAllocate_fewer hq.map 1).1) s₁ paddr vaddr (Kmalloc.heapBytes nunits)
      pagingReadWrite pagingPl0 hfound
    rwa [hrest] at hkeep
  simp only [Kmalloc.backing, kernel, halloc, hfind, hrest]
  split
  · exact hfewer
  · split
    · exact hfound
    · split
      · exact hmapped
      · exact hmapped

theorem acquireMoreHeap_fewer (hmap : Pfa.FrameMap h.kernel.pfa)
    (hrun : Kmalloc.acquireMoreHeap kernel n h nunits = some (r, h')) :
  Fewer (Pfa.pfaAllocate h.kernel.pfa (Kmalloc.heapFrames nunits)).2 h'.kernel.pfa
  := by
  have hfewer := backing_fewer nunits hmap
  rw [Kmalloc.acquireMoreHeap] at hrun
  split at hrun
  case h_1 k hback =>
    obtain ⟨-, rfl⟩ := Prod.mk.inj (Option.some.inj hrun)
    rwa [hback] at hfewer
  case h_2 vaddr k hback =>
    obtain ⟨h₁, hfree, heq⟩ := Option.map_eq_some_iff.mp hrun
    obtain ⟨-, rfl⟩ := Prod.mk.inj heq
    rw [hback] at hfewer
    rwa [(Kmalloc.kfree_kernel hfree).1]

/-- The rest of `kmalloc` gives no frames back. -/
theorem kmallocLoop_fewer {l : ℕ} {c : Kmalloc.Cursor State} (hmap : Fewer p c.heap.kernel.pfa)
    (hrun : Loop.run (Kmalloc.kmallocBody kernel n nunits) l c = some (some (r, h'))) :
  Fewer p h'.kernel.pfa
  := by
  refine Kmalloc.kmallocLoop_invariant kernel (I := fun h => Fewer p h.kernel.pfa) ?_ ?_ hrun hmap
  · intro h₁ h₂ hkernel _ hfewer
    rwa [hkernel]
  · intro h₁ a h₂ hgrow hfewer
    exact hfewer.trans ((pfaAllocate_fewer hfewer.map _).1.trans (acquireMoreHeap_fewer hfewer.map hgrow))

/-! ### Failures -/

variable {base : UInt32} {fs live : List Kmalloc.Block}

/-- The blocks of the heap, the page frame bitmap and what the kernel has mapped are as before. -/
structure Unchanged (base : UInt32) (fs live : List Kmalloc.Block) (h h' : Kmalloc.Heap State) : Prop where
  blocks : Kmalloc.HeapOf base (Kmalloc.initList base h') fs live
  bitmap : ∀ i, Pfa.bit h'.kernel.pfa i = Pfa.bit h.kernel.pfa i
  translation : ∀ v, h'.kernel.page h'.kernel.kernelPdt v = h.kernel.page h.kernel.kernelPdt v

/-- Some frames for a larger heap are free, among those that `pfa_allocate` tries. -/
def FramesLeft (s : State) (nbytes : UInt32) : Prop :=
  ∃ b, Pfa.Tried s.pfa (Kmalloc.heapFrames (Kmalloc.unitsFor nbytes)).toNat b ∧
    Pfa.FreeRun s.pfa b (Kmalloc.heapFrames (Kmalloc.unitsFor nbytes)).toNat

theorem heapFrames_pos (nunits : UInt32) :
  0 < (Kmalloc.heapFrames nunits).toNat
  := by
  have hlt : ∀ m : UInt32, 0 < (divCeil m fourKb).toNat := by
    intro m
    have hm := (m - 1).toNat_lt
    rw [divCeil, UInt32.toNat_add, UInt32.toNat_div, toNat_fourKb, UInt32.toNat_one]
    omega
  exact hlt _

/-- When there are no frames, the heap does not grow. -/
theorem acquireMoreHeap_of_fail (hfail : Pfa.pfaAllocate h.kernel.pfa (Kmalloc.heapFrames nunits) = (0, h.kernel.pfa)) :
  Kmalloc.acquireMoreHeap kernel n h nunits = some (0, h)
  := by
  simp [Kmalloc.acquireMoreHeap, Kmalloc.backing, kernel, hfail]

/-- When no free block is large enough, `kmalloc` fails at once, or it takes a frame. -/
theorem kmalloc_of_small (hheap : Kmalloc.HeapOf base (Kmalloc.initList base h) fs live)
    (hmap : Pfa.FrameMap h.kernel.pfa) (hzero : nbytes ≠ 0)
    (hsmall : ∀ t ∈ fs, t.size < Kmalloc.unitsFor nbytes)
    (hrun : Kmalloc.kmalloc kernel base n h nbytes = some (r, h')) :
  (¬ FramesLeft h.kernel nbytes ∧ r = 0 ∧ h' = Kmalloc.initList base h) ∨
    (FramesLeft h.kernel nbytes ∧
      ∃ i f, h.kernel.pfa.frames[i]? = some f ∧ Pfa.bit h.kernel.pfa i = true ∧
        Pfa.bit h'.kernel.pfa i = false)
  := by
  have hleft := Pfa.pfaAllocate_ne_zero_iff hmap (heapFrames_pos (Kmalloc.unitsFor nbytes))
  rw [← FramesLeft] at hleft
  rw [← hleft]
  obtain ⟨-, p, h₂, hgrow, hend⟩ := (Kmalloc.kmalloc_cases kernel hheap hzero hrun).resolve_left (by
    rintro ⟨⟨t, ht, hle⟩, -⟩
    exact absurd (hsmall t ht) (UInt32.not_lt.mpr hle))
  have hinit : (Kmalloc.initList base h).kernel = h.kernel := Kmalloc.initList_kernel base h
  obtain ⟨-, hfail | ⟨hne, i, f, hf, hi, hi'⟩⟩ :=
    pfaAllocate_fewer hmap (Kmalloc.heapFrames (Kmalloc.unitsFor nbytes))
  · -- no frames have been taken
    left
    rw [acquireMoreHeap_of_fail (by rw [hinit, hfail])] at hgrow
    obtain ⟨rfl, rfl⟩ := Prod.mk.inj (Option.some.inj hgrow)
    obtain ⟨-, rfl, rfl⟩ := hend.resolve_right fun hend => hend.1 rfl
    rw [hfail]
    exact ⟨fun hne => hne rfl, rfl, rfl⟩
  · right
    refine ⟨hne, i, f, hf, hi, ?_⟩
    have hgrown : Fewer (Pfa.pfaAllocate h.kernel.pfa (Kmalloc.heapFrames (Kmalloc.unitsFor nbytes))).2
        h₂.kernel.pfa := by
      have hfewer := acquireMoreHeap_fewer (by rwa [hinit]) hgrow
      rwa [hinit] at hfewer
    have hfewer : Fewer (Pfa.pfaAllocate h.kernel.pfa (Kmalloc.heapFrames (Kmalloc.unitsFor nbytes))).2
        h'.kernel.pfa := by
      rcases hend with ⟨-, -, rfl⟩ | ⟨-, l, c, rfl, hloop⟩
      · exact hgrown
      · exact kmallocLoop_fewer hgrown hloop
    -- no frame is free that was not free then
    cases hbit : Pfa.bit h'.kernel.pfa i with
    | false => rfl
    | true => exact (hfewer.free i hbit).symm.trans hi'

/-- A `kmalloc` that returns `NULL` has changed nothing if and only if it was asked for no bytes, or there were
no frames for a larger heap to begin with. -/
theorem kmalloc_failure_harmless_iff (hbase : base ≠ 0)
    (hheap : Kmalloc.HeapOf base (Kmalloc.initList base h) fs live) (hmap : Pfa.FrameMap h.kernel.pfa)
    (hrun : Kmalloc.kmalloc kernel base n h nbytes = some (0, h')) :
  Unchanged base fs live h h' ↔ nbytes = 0 ∨ ¬ FramesLeft h.kernel nbytes
  := by
  by_cases hzero : nbytes = 0
  · rw [Kmalloc.kmalloc, if_pos hzero] at hrun
    obtain ⟨-, rfl⟩ := Prod.mk.inj (Option.some.inj hrun)
    simp only [hzero, true_or, iff_true]
    exact ⟨hheap, fun _ => rfl, fun _ => rfl⟩
  rw [or_iff_right hzero]
  obtain ⟨hsmall, -⟩ := (Kmalloc.kmalloc_cases kernel hheap hzero hrun).resolve_left (by
    rintro ⟨-, fs', b, hb, hheap', -⟩
    exact (hheap'.good b (by simp)).offset_ne_zero hb.symm)
  rcases kmalloc_of_small hheap hmap hzero hsmall hrun with ⟨hnone, -, rfl⟩ | ⟨hleft, i, -, -, hi, hi'⟩
  · refine iff_of_true ⟨?_, fun _ => by rw [Kmalloc.initList_kernel], fun _ => by rw [Kmalloc.initList_kernel]⟩ hnone
    rwa [hheap.initList_eq hbase]
  · refine iff_of_false ?_ (not_not.mpr hleft)
    intro hsame
    rw [hsame.bitmap, hi] at hi'
    simp at hi'

/-- A kernel with a full page table, and with two frames, which are free according to `cell`. -/
def fullTable (cell : UInt32) : State where
  pfa := ⟨fun i => if i = 0 then cell else 0, 2, [⟨0x200000, 0x2000⟩]⟩
  mem := fun f i =>
    if f ≠ 0x101000 then createPtEntry 0x100000 pagingReadWrite pagingPl0
    else if i = kernelPdtIdx then createPdtEntry 0x102000 ps4Kb pagingReadWrite pagingPl0
    else Entry.zero
  kernelPdt := 0x101000
  kernelPt := 0x102000
  cr3 := 0x101000

theorem frameMap_fullTable (cell : UInt32) :
  Pfa.FrameMap (fullTable cell).pfa
  := by
  constructor
  · simp [fullTable]
  · simp [fullTable, Frames.Ascending]
  · simp [fullTable, oneMb]
  · simp [fullTable]
  · simp [fullTable]
  · simp [fullTable]

/-- A heap without blocks. -/
def noBlocks (s : State) : Kmalloc.Heap State :=
  ⟨fun _ => ⟨0, 0⟩, 0, [], s⟩

/-- Without free frames nothing is changed. -/
theorem kmalloc_failure_harmless_noFrames :
  ∃ h', Kmalloc.kmalloc kernel 0xC0108000 3 (noBlocks (fullTable 0)) 100 = some (0, h') ∧
    Unchanged 0xC0108000 [] [] (noBlocks (fullTable 0)) h'
  := by
  have hresult : (Kmalloc.kmalloc kernel 0xC0108000 3 (noBlocks (fullTable 0)) 100).map Prod.fst = some 0 := by
    decide +kernel
  obtain ⟨⟨r, h'⟩, hrun, rfl⟩ := Option.map_eq_some_iff.mp hresult
  refine ⟨h', hrun, (kmalloc_failure_harmless_iff (by decide) (Kmalloc.heapOf_nil rfl rfl) (frameMap_fullTable 0)
    hrun).mpr (Or.inr ?_)⟩
  rintro ⟨b, -, hfree⟩
  have hbit := hfree.free b le_rfl (Nat.lt_add_of_pos_right (by decide))
  simp [Pfa.bit, noBlocks, fullTable] at hbit

/-- The two frames are taken for the heap, and then there is none for the page table that is to map them. -/
theorem kmalloc_failure_takes_frames :
  ∃ h', Kmalloc.kmalloc kernel 0xC0108000 3 (noBlocks (fullTable 0xC0000000)) 100 = some (0, h') ∧
    Kmalloc.HeapOf 0xC0108000 (Kmalloc.initList 0xC0108000 (noBlocks (fullTable 0xC0000000))) [] [] ∧
    Pfa.FrameMap (fullTable 0xC0000000).pfa ∧
    ¬ Unchanged 0xC0108000 [] [] (noBlocks (fullTable 0xC0000000)) h'
  := by
  have hresult : (Kmalloc.kmalloc kernel 0xC0108000 3 (noBlocks (fullTable 0xC0000000)) 100).map
      (fun (r, h') => (r, Pfa.bit h'.kernel.pfa 0)) = some (0, false) := by
    decide +kernel
  obtain ⟨⟨r, h'⟩, hrun, heq⟩ := Option.map_eq_some_iff.mp hresult
  obtain ⟨rfl, hbit⟩ := Prod.mk.inj heq
  refine ⟨h', hrun, Kmalloc.heapOf_nil rfl rfl, frameMap_fullTable _, ?_⟩
  intro hsame
  have hfree : Pfa.bit (noBlocks (fullTable 0xC0000000)).kernel.pfa 0 = true := by decide
  rw [← hsame.bitmap 0, hbit] at hfree
  simp at hfree

end Process
