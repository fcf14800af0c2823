import Aenix.Kmalloc.Heap

/-!
# Taking a block

`kmalloc` takes a block out of the ring when it has exactly the size asked for, and the tail
end of the block when it is larger.  Either way the heap has one more live block.
-/

open Aenix

namespace Kmalloc

variable {K : Type} {base : UInt32} {s : Heap K} {fs live : List Block} {nunits : UInt32}

/-- Taking `nunits` units from the block `p` after `prevp`. -/
def take (s : Heap K) (prevp p nunits : UInt32) : UInt32 × Heap K :=
  if (s.mem p).size = nunits then takeExact s prevp p else takeTail s prevp p nunits

/-- Every link of the ring leads from a block to the one after it, or to `base`. -/
theorem HeapOf.exists_next (h : HeapOf base s fs live) {w : Block}
    (hw : w ∈ baseBlock base :: fs) :
  (s.mem w.addr).next = base ∨
    ∃ t as bs, baseBlock base :: fs = as ++ w :: t :: bs ∧ (s.mem w.addr).next = t.addr
  := by
  obtain ⟨as, bs, hring⟩ := List.append_of_mem hw
  have hlinked := h.linked
  rw [hring, linked_append] at hlinked
  cases bs with
  | nil =>
      left
      rw [hlinked.2.1, first]
  | cons t bs =>
      right
      use t, as, bs, hring
      rw [hlinked.2.1, first]

section Take

variable {as bs : List Block} {w t : Block}

/-- A block of the ring comes up to `w`, or after `t`. -/
theorem mem_ring_iff {c : Block} :
  c ∈ as ++ w :: bs ↔ c ∈ as ++ [w] ∨ c ∈ bs
  := by
  simp only [List.mem_append, List.mem_cons]
  tauto

theorem mem_ring_cons_iff {c : Block} :
  c ∈ as ++ w :: t :: bs ↔ c = t ∨ c ∈ as ++ w :: bs
  := by
  simp only [List.mem_append, List.mem_cons]
  tauto

/-- The heap of which `t` is a free block, after `w`. -/
structure Holds (base : UInt32) (s : Heap K) (as : List Block) (w t : Block) (bs : List Block) :
    Prop where
  good : t.Good base s.acquired
  below : ∀ c ∈ as ++ [w], c.Gap t
  above : ∀ c ∈ bs, t.Gap c
  linkedPre : Linked s.mem t.addr (as ++ [w])
  linkedPost : Linked s.mem base (t :: bs)
  head : ∀ l, (as ++ w :: l).head? = some (baseBlock base)
  ring : ∀ c ∈ as ++ w :: bs, c = baseBlock base ∨ c.Good base s.acquired

theorem HeapOf.holds (h : HeapOf base s fs live) (hring : baseBlock base :: fs = as ++ w :: t :: bs) :
  Holds base s as w t bs
  := by
  have hgapped := h.gapped
  have hlinked := h.linked
  have hsplit : as ++ w :: t :: bs = (as ++ [w]) ++ t :: bs := by simp
  rw [hring, hsplit, List.pairwise_append] at hgapped
  rw [hring, hsplit, linked_append] at hlinked
  obtain ⟨-, hpost, hcross⟩ := hgapped
  have hmem : ∀ c ∈ as ++ w :: t :: bs, c = baseBlock base ∨ c ∈ fs := by
    intro c hc
    rw [← hring] at hc
    simpa using hc
  have hgood : ∀ c ∈ as ++ w :: t :: bs, c = baseBlock base ∨ c.Good base s.acquired := by
    intro c hc
    apply (hmem c hc).imp_right
    intro hfs
    apply h.good c (List.mem_append_left live hfs)
  have hwt : w.Gap t := hcross w (by simp) t List.mem_cons_self
  constructor
  · rcases hgood t (by simp) with rfl | ht
    · rcases hgood w (by simp) with rfl | hw
      · rw [Block.Gap, stop_baseBlock, addr_baseBlock] at hwt
        omega
      · have := hw.above
        rw [Block.Gap, Block.stop, addr_baseBlock] at hwt
        omega
    · apply ht
  · intro c hc
    apply hcross c hc t List.mem_cons_self
  · apply (List.pairwise_cons.mp hpost).1
  · apply hlinked.1
  · apply hlinked.2
  · intro l
    cases as with
    | nil =>
        obtain ⟨rfl, -⟩ := List.cons.inj hring
        rfl
    | cons c as =>
        obtain ⟨rfl, -⟩ := List.cons.inj hring
        rfl
  · intro c hc
    apply hgood c (mem_ring_cons_iff.mpr (Or.inr hc))

/-- A block of which the whole is taken. -/
theorem takeExact_spec (h : HeapOf base s fs live)
    (hring : baseBlock base :: fs = as ++ w :: t :: bs) :
  ∃ s' fs', takeExact s w.addr t.addr = (offset t.addr 1, s') ∧ HeapOf base s' fs' (t :: live) ∧
    s'.acquired = s.acquired
  := by
  have hholds := h.holds hring
  have hgapped := h.gapped
  have htotal := h.total
  rw [hring] at hgapped
  have hw : w ∈ baseBlock base :: fs := by simp [hring]
  have ht : t ∈ fs := by
    have hmem : t ∈ baseBlock base :: fs := by simp [hring]
    rcases List.mem_cons.mp hmem with rfl | hmem
    · have hpos := hholds.good.pos
      rw [size_baseBlock, UInt32.toNat_zero] at hpos
      omega
    · apply hmem
  have hsub : (as ++ w :: bs).Sublist (as ++ w :: t :: bs) := by simp
  have hasc := ascending_of_gapped hgapped
  have hne : ∀ c ∈ as ++ t :: bs, c.addr ≠ w.addr := by
    obtain ⟨-, hpost, hpre⟩ := List.pairwise_append.mp hasc
    intro c hc
    rcases List.mem_append.mp hc with hc | hc
    · apply UInt32.ne_of_lt (hpre c hc w List.mem_cons_self)
    · apply (UInt32.ne_of_lt ((List.pairwise_cons.mp hpost).1 c hc)).symm
  obtain ⟨fs', -, hheap⟩ : ∃ fs', as ++ w :: bs = baseBlock base :: fs' ∧
      HeapOf base { s with mem := setNext s.mem w.addr (s.mem t.addr).next, freep := w.addr } fs'
        (t :: live) := by
    apply HeapOf.of_ring
    case hhead => apply hholds.head
    case hlinked =>
      obtain ⟨hpre, hpost⟩ := linked_append.mp hholds.linkedPre
      rw [linked_append]
      constructor
      · apply hpre.congr
        intro c hc
        apply setNext_of_ne (hne c (by simp [hc]))
      · constructor
        · simp only [setNext_self, hholds.linkedPost.1, hpost.1]
        · apply hholds.linkedPost.2.congr
          intro c hc
          apply setNext_of_ne (hne c (by simp [hc]))
    case hgapped => apply hgapped.sublist hsub
    case hfreep =>
      use w
      simp
    case hsizes =>
      rw [List.forall_mem_cons]
      constructor
      · simp only [setNext_of_ne (hne t (by simp)), hholds.linkedPost.1]
      · intro x hx
        simp only [setNext_of_ne (h.cross_ring hx w hw).2, h.sizes x hx]
    case hring => apply hholds.ring
    case hgood =>
      rw [List.forall_mem_cons]
      refine ⟨hholds.good, ?_⟩
      intro x hx
      apply h.good x (List.mem_append_right fs hx)
    case hapart =>
      rw [List.pairwise_cons]
      refine ⟨?_, h.apart⟩
      intro x hx
      apply (h.cross x hx t ht).symm
    case hcross =>
      rw [List.forall_mem_cons]
      constructor
      · intro c hc
        rcases mem_ring_iff.mp hc with hc | hc
        · apply (hholds.below c hc).apart.symm
        · apply (hholds.above c hc).apart
      · intro x hx c hc
        apply (h.cross_ring hx c _).1
        rw [hring]
        apply hsub.subset hc
    case htotal =>
      have hsum := congrArg (fun l => (l.map fun c => c.size.toNat).sum) hring
      simp only [List.map_append, List.map_cons, List.sum_append, List.sum_cons,
        size_baseBlock, UInt32.toNat_zero] at hsum htotal ⊢
      omega
  exact ⟨_, fs', rfl, hheap, rfl⟩

/-- A block cut into its front part and its tail end of `nunits` units. -/
structure Cleft (t t' b : Block) : Prop where
  front : t'.addr = t.addr
  stop : t'.stop = b.addr.toNat
  tail : b.stop = t.stop
  pos : 0 < t'.size.toNat
  pos' : 0 < b.size.toNat

theorem Cleft.addr_lt {t' b : Block} (h : Cleft t t' b) :
  t.addr.toNat < b.addr.toNat ∧ b.addr.toNat < t.stop
  := by
  have hpos := h.pos
  have hpos' := h.pos'
  have hstop := h.stop
  have htail := h.tail
  rw [Block.stop, h.front] at hstop
  rw [Block.stop] at htail
  omega

theorem Cleft.size {t' b : Block} (h : Cleft t t' b) :
  t'.size.toNat + b.size.toNat = t.size.toNat
  := by
  have hstop := h.stop
  have htail := h.tail
  rw [Block.stop, h.front] at hstop
  rw [Block.stop, Block.stop] at htail
  omega

theorem Cleft.good {t' b : Block} {acquired : List Frames.Region} (h : Cleft t t' b)
    (ht : t.Good base acquired) :
  t'.Good base acquired ∧ b.Good base acquired
  := by
  have hlt := h.addr_lt
  have habove := ht.above
  have hbelow := ht.below
  have hstop := h.stop
  constructor
  · constructor
    · apply h.pos
    · rw [h.front]
      apply ht.aligned
    · rwa [h.front]
    · omega
    · rintro x ⟨hx, hxs⟩
      rw [h.front] at hx
      apply ht.covered x ⟨hx, by omega⟩
  · constructor
    · apply h.pos'
    · rw [← hstop, Block.stop, h.front]
      apply ht.aligned.add (Nat.dvd_mul_right _ _)
    · omega
    · rwa [h.tail]
    · rintro x ⟨hx, hxs⟩
      rw [h.tail] at hxs
      apply ht.covered x ⟨by omega, hxs⟩

/-- What is apart from a block is apart from its parts. -/
theorem Cleft.apart {t' b x : Block} (h : Cleft t t' b) (hx : x.Apart t) :
  x.Apart t' ∧ x.Apart b
  := by
  have hlt := h.addr_lt
  have hstop := h.stop
  have htail := h.tail
  simp only [Block.Apart, h.front, hstop, htail] at hx ⊢
  omega

/-- The tail end of a block is cut off. -/
theorem cleft_tail (hbelow : t.stop < 2 ^ 32) (hpos : 0 < nunits.toNat)
    (hlt : nunits.toNat < t.size.toNat) :
  Cleft t ⟨t.addr, t.size - nunits⟩ ⟨offset t.addr (t.size - nunits), nunits⟩
  := by
  have hsub : (t.size - nunits).toNat = t.size.toNat - nunits.toNat := by
    apply UInt32.toNat_sub_of_le
    rw [UInt32.le_iff_toNat_le]
    omega
  have hq : (offset t.addr (t.size - nunits)).toNat
      = t.addr.toNat + 8 * (t.size.toNat - nunits.toNat) := by
    rw [Block.stop] at hbelow
    rw [toNat_offset (by omega), hsub]
  constructor
  · rfl
  · simp only [Block.stop, hsub, hq]
  · simp only [Block.stop, hq]
    omega
  · simp only [hsub]
    omega
  · apply hpos

/-- The header of another block is not in the block. -/
theorem Cleft.addr_ne {t' b c : Block} (h : Cleft t t' b) (hc : 0 < c.size.toNat ∨ c.Gap t)
    (hapart : c.Apart t) :
  c.addr ≠ t.addr ∧ c.addr ≠ b.addr
  := by
  have hlt := h.addr_lt
  constructor
  · intro heq
    simp only [Block.Apart, Block.Gap, Block.stop, heq] at hc hapart hlt
    omega
  · intro heq
    simp only [Block.Apart, Block.Gap, Block.stop, heq] at hc hapart hlt
    omega

/-- The headers of the rest of the ring are not in the block. -/
theorem Cleft.ring_addr_ne {t' b : Block} (h : Cleft t t' b) (hholds : Holds base s as w t bs) :
  ∀ c ∈ as ++ w :: bs, c.addr ≠ t.addr ∧ c.addr ≠ b.addr
  := by
  intro c hc
  rcases mem_ring_iff.mp hc with hc | hc
  · apply h.addr_ne (Or.inr (hholds.below c hc)) (hholds.below c hc).apart
  · have hlt := h.addr_lt
    have hgap := hholds.above c hc
    rw [Block.Gap] at hgap
    constructor
    · intro heq
      rw [heq] at hgap
      omega
    · intro heq
      rw [heq] at hgap
      omega

/-- The ring with the front part in the place of the block. -/
theorem Cleft.gapped {t' b : Block} (h : Cleft t t' b)
    (hgapped : (as ++ w :: t :: bs).Pairwise Block.Gap) :
  (as ++ w :: t' :: bs).Pairwise Block.Gap
  := by
  have hlt := h.addr_lt
  have hsplit : ∀ x, as ++ w :: x :: bs = (as ++ [w]) ++ x :: bs := fun x => by simp
  rw [hsplit, List.pairwise_append, List.pairwise_cons] at hgapped ⊢
  obtain ⟨hpre, ⟨habove, hpost⟩, hbelow⟩ := hgapped
  refine ⟨hpre, ⟨?_, hpost⟩, ?_⟩
  · intro c hc
    have hgap := habove c hc
    rw [Block.Gap] at hgap ⊢
    rw [h.stop]
    omega
  · intro c hc d hd
    rcases List.mem_cons.mp hd with rfl | hd
    · have hgap := hbelow c hc t List.mem_cons_self
      rw [Block.Gap] at hgap ⊢
      rwa [h.front]
    · apply hbelow c hc d (List.mem_cons_of_mem t hd)

/-- The tail end is apart from the ring that is left. -/
theorem Cleft.ring_apart {t' b : Block} (h : Cleft t t' b) (hholds : Holds base s as w t bs) :
  ∀ c ∈ as ++ w :: t' :: bs, b.Apart c
  := by
  intro c hc
  rcases mem_ring_cons_iff.mp hc with rfl | hc
  · right
    rw [h.stop]
  · apply Block.Apart.symm
    rcases mem_ring_iff.mp hc with hc | hc
    · apply (h.apart (hholds.below c hc).apart).2
    · apply (h.apart (hholds.above c hc).apart.symm).2

/-- A live block is apart from the ring that is left, and its header is not in the block. -/
theorem Cleft.live_apart {t' b x : Block} (h : Cleft t t' b) (hheap : HeapOf base s fs live)
    (hring : baseBlock base :: fs = as ++ w :: t :: bs) (hx : x ∈ live) :
  x.Apart b ∧ (x.addr ≠ t.addr ∧ x.addr ≠ b.addr) ∧ ∀ c ∈ as ++ w :: t' :: bs, x.Apart c
  := by
  have hcross := hheap.cross_ring hx
  rw [hring] at hcross
  have hapart := (hcross t (by simp)).1
  have hpos := (hheap.good x (List.mem_append_right fs hx)).pos
  refine ⟨(h.apart hapart).2, h.addr_ne (Or.inl hpos) hapart, ?_⟩
  intro c hc
  rcases mem_ring_cons_iff.mp hc with rfl | hc
  · apply (h.apart hapart).1
  · apply (hcross c (mem_ring_cons_iff.mpr (Or.inr hc))).1

/-- The heap when the block has been cut and its tail end is live. -/
theorem Cleft.heapOf {t' b : Block} (hcleft : Cleft t t' b) (h : HeapOf base s fs live)
    (hring : baseBlock base :: fs = as ++ w :: t :: bs) :
  ∃ fs', HeapOf base { s with
    mem := setSize (setSize s.mem t.addr t'.size) b.addr b.size
    freep := w.addr } fs' (b :: live)
  := by
  have hholds := h.holds hring
  have hgapped := h.gapped
  have htotal := h.total
  have haddr := hcleft.addr_lt
  rw [hring] at hgapped
  have hmem : ∀ a, a ≠ t.addr ∧ a ≠ b.addr →
      setSize (setSize s.mem t.addr t'.size) b.addr b.size a = s.mem a := by
    rintro a ⟨hat, hab⟩
    rw [setSize_of_ne hab, setSize_of_ne hat]
  have hne : t.addr ≠ b.addr := by
    intro heq
    apply Nat.ne_of_lt haddr.1 (congrArg UInt32.toNat heq)
  have hring_ne := hcleft.ring_addr_ne hholds
  obtain ⟨fs', -, hheap⟩ : ∃ fs', as ++ w :: t' :: bs = baseBlock base :: fs' ∧
      HeapOf base { s with
        mem := setSize (setSize s.mem t.addr t'.size) b.addr b.size
        freep := w.addr } fs' (b :: live) := by
    apply HeapOf.of_ring
    case hhead => apply hholds.head
    case hlinked =>
      rw [show as ++ w :: t' :: bs = (as ++ [w]) ++ t' :: bs by simp, linked_append, first,
        hcleft.front]
      constructor
      · apply hholds.linkedPre.congr
        intro c hc
        apply hmem _ (hring_ne c (mem_ring_iff.mpr (Or.inl hc)))
      · constructor
        · simp only [hcleft.front, setSize_of_ne hne, setSize_self, hholds.linkedPost.1]
        · apply hholds.linkedPost.2.congr
          intro c hc
          apply hmem _ (hring_ne c (mem_ring_iff.mpr (Or.inr hc)))
    case hgapped => apply hcleft.gapped hgapped
    case hfreep =>
      use w
      simp
    case hsizes =>
      rw [List.forall_mem_cons]
      constructor
      · simp only [setSize_self]
      · intro x hx
        simp only [hmem _ (hcleft.live_apart h hring hx).2.1, h.sizes x hx]
    case hring =>
      intro c hc
      rcases mem_ring_cons_iff.mp hc with rfl | hc
      · right
        apply (hcleft.good hholds.good).1
      · apply hholds.ring c hc
    case hgood =>
      rw [List.forall_mem_cons]
      refine ⟨(hcleft.good hholds.good).2, ?_⟩
      intro x hx
      apply h.good x (List.mem_append_right fs hx)
    case hapart =>
      rw [List.pairwise_cons]
      refine ⟨?_, h.apart⟩
      intro x hx
      apply (hcleft.live_apart h hring hx).1.symm
    case hcross =>
      rw [List.forall_mem_cons]
      refine ⟨hcleft.ring_apart hholds, ?_⟩
      intro x hx
      apply (hcleft.live_apart h hring hx).2.2
    case htotal =>
      have hsize := hcleft.size
      have hsum := congrArg (fun l => (l.map fun c => c.size.toNat).sum) hring
      simp only [List.map_append, List.map_cons, List.sum_append, List.sum_cons,
        size_baseBlock, UInt32.toNat_zero] at hsum htotal ⊢
      omega
  exact ⟨fs', hheap⟩

/-- A block of which the tail end is taken. -/
theorem takeTail_spec (h : HeapOf base s fs live)
    (hring : baseBlock base :: fs = as ++ w :: t :: bs) (hpos : 0 < nunits.toNat)
    (hlt : nunits.toNat < t.size.toNat) :
  ∃ s' fs' b, takeTail s w.addr t.addr nunits = (offset b.addr 1, s') ∧
    HeapOf base s' fs' (b :: live) ∧ b.size = nunits ∧ s'.acquired = s.acquired
  := by
  have hholds := h.holds hring
  have hsize : (s.mem t.addr).size = t.size := by rw [hholds.linkedPost.1]
  obtain ⟨fs', hheap⟩ := (cleft_tail hholds.good.below hpos hlt).heapOf h hring
  refine ⟨_, fs', _, ?_, hheap, rfl, rfl⟩
  simp only [takeTail, hsize, setSize_self]

theorem take_kernel (s : Heap K) (prevp p nunits : UInt32) :
  (take s prevp p nunits).2.kernel = s.kernel
  := by
  rw [take]
  split
  · rfl
  · rfl

/-- Taking from the block after `w`, which is a free one, leaves the heap with one more live block. -/
theorem take_spec (h : HeapOf base s fs live) (hw : w ∈ baseBlock base :: fs)
    (hpos : 0 < nunits.toNat) (hsize : nunits ≤ (s.mem (s.mem w.addr).next).size) :
  (∃ t ∈ fs, nunits ≤ t.size) ∧
    ∃ s' fs' b, take s w.addr (s.mem w.addr).next nunits = (offset b.addr 1, s') ∧
      HeapOf base s' fs' (b :: live) ∧ b.size = nunits ∧ s'.acquired = s.acquired
  := by
  rw [UInt32.le_iff_toNat_le] at hsize
  rcases h.exists_next hw with hbase | ⟨t, as, bs, hring, ht⟩
  · have hzero : (s.mem base).size = 0 := h.linked.size_eq List.mem_cons_self
    rw [hbase, hzero, UInt32.toNat_zero] at hsize
    omega
  · have htsize : (s.mem t.addr).size = t.size := h.linked.size_eq (by simp [hring])
    rw [ht, take, htsize]
    rw [ht, htsize] at hsize
    have hmem : t ∈ baseBlock base :: fs := by simp [hring]
    refine ⟨⟨t, ?_, UInt32.le_iff_toNat_le.mpr hsize⟩, ?_⟩
    · apply (List.mem_cons.mp hmem).resolve_left
      rintro rfl
      rw [size_baseBlock, UInt32.toNat_zero] at hsize
      omega
    by_cases heq : t.size = nunits
    · obtain ⟨s', fs', htake, hheap, hacq⟩ := takeExact_spec h hring
      rw [if_pos heq]
      exact ⟨s', fs', t, htake, hheap, heq, hacq⟩
    · have hlt : nunits.toNat < t.size.toNat := by
        apply Nat.lt_of_le_of_ne hsize
        intro htoNat
        apply heq (UInt32.toNat_inj.mp htoNat.symm)
      rw [if_neg heq]
      apply takeTail_spec h hring hpos hlt

end Take

end Kmalloc
