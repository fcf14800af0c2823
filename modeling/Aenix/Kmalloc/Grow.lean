import Aenix.Kmalloc.Take

/-!
# Growing the heap and searching it

The loop of `kmalloc` goes around the ring once, from `freep` on.  When no block is large
enough the heap grows, by memory that appears as a live block and is freed, and the search
that goes on from there finds a block.
-/

open Aenix

namespace Kmalloc

variable {K : Type} {base : UInt32} {s : Heap K} {fs live : List Block} {nunits : UInt32}
variable (kernel : Kernel K) (n : ℕ)

/-! ### Going around the ring -/

theorem kmallocBody_take {prevp p : UInt32} (h : nunits ≤ (s.mem p).size) :
  kmallocBody kernel n nunits ⟨prevp, p, s⟩ = .inr (some (take s prevp p nunits))
  := by
  simp only [kmallocBody, ge_iff_le, if_pos h, take]
  split
  · rfl
  · rfl

theorem kmallocBody_next (prevp : UInt32) {p : UInt32} (h : (s.mem p).size < nunits) (hp : p ≠ s.freep) :
  kmallocBody kernel n nunits ⟨prevp, p, s⟩ = .inl ⟨p, (s.mem p).next, s⟩
  := by
  simp only [kmallocBody, ge_iff_le, if_neg (UInt32.not_le.mpr h), if_neg hp]

/-- From a block `v` on, the search finds a block that is large enough, or it comes to `freep`
and there is none. -/
theorem search {v : Block} {todo : List Block} (hlinked : Linked s.mem s.freep (v :: todo))
    (hne : ∀ t ∈ todo, t.addr ≠ s.freep) :
  (∃ w ∈ v :: todo, nunits ≤ (s.mem (s.mem w.addr).next).size ∧
    ∀ m, Loop.run (kmallocBody kernel n nunits) (todo.length + 1 + m)
      ⟨v.addr, (s.mem v.addr).next, s⟩
        = some (some (take s w.addr (s.mem w.addr).next nunits))) ∨
  ((∀ t ∈ todo, t.size < nunits) ∧ (s.mem s.freep).size < nunits ∧
    ∃ w, ∀ m, Loop.run (kmallocBody kernel n nunits) (todo.length + m)
      ⟨v.addr, (s.mem v.addr).next, s⟩
        = Loop.run (kmallocBody kernel n nunits) m ⟨w, s.freep, s⟩)
  := by
  induction todo generalizing v with
  | nil =>
      have hnext : (s.mem v.addr).next = s.freep := by rw [hlinked.1, first]
      by_cases hsize : nunits ≤ (s.mem s.freep).size
      · left
        use v, List.mem_cons_self
        rw [hnext]
        refine ⟨hsize, ?_⟩
        intro m
        rw [List.length_nil, Nat.zero_add, Nat.add_comm]
        apply Loop.run_leave (kmallocBody_take kernel n hsize)
      · right
        refine ⟨by simp, UInt32.not_le.mp hsize, v.addr, ?_⟩
        intro m
        rw [hnext, List.length_nil, Nat.zero_add]
  | cons t todo ih =>
      rw [List.forall_mem_cons] at hne
      have hnext : (s.mem v.addr).next = t.addr := by rw [hlinked.1, first]
      have htsize : (s.mem t.addr).size = t.size := by rw [hlinked.2.1]
      by_cases hsize : nunits ≤ (s.mem t.addr).size
      · left
        use v, List.mem_cons_self
        rw [hnext]
        refine ⟨hsize, ?_⟩
        intro m
        have hlen : (t :: todo).length + 1 + m = todo.length + 1 + m + 1 := by
          rw [List.length_cons]
          omega
        rw [hlen]
        apply Loop.run_leave (kmallocBody_take kernel n hsize)
      · have hstep := kmallocBody_next kernel n v.addr (UInt32.not_le.mp hsize) hne.1
        rcases ih hlinked.2 hne.2 with ⟨w, hw, hfit, hrun⟩ | ⟨hsmall, hfreep, w, hrun⟩
        · left
          use w, List.mem_cons_of_mem v hw, hfit
          intro m
          have hlen : (t :: todo).length + 1 + m = todo.length + 1 + m + 1 := by
            rw [List.length_cons]
            omega
          rw [hlen, hnext, Loop.run_continue hstep, hrun]
        · right
          refine ⟨?_, hfreep, w, ?_⟩
          · rw [List.forall_mem_cons, ← htsize]
            exact ⟨UInt32.not_le.mp hsize, hsmall⟩
          · intro m
            have hlen : (t :: todo).length + m = todo.length + m + 1 := by
              rw [List.length_cons]
              omega
            rw [hlen, hnext, Loop.run_continue hstep, hrun]

/-- The ring, entered at `freep`. -/
theorem HeapOf.exists_rotation (h : HeapOf base s fs live) :
  ∃ f rest, s.freep = f.addr ∧ Linked s.mem s.freep (f :: rest) ∧
    (∀ t ∈ rest, t.addr ≠ s.freep) ∧ ∀ t, t ∈ f :: rest ↔ t ∈ baseBlock base :: fs
  := by
  obtain ⟨f, hf, hfreep⟩ := h.freep
  obtain ⟨as, bs, hring⟩ := List.append_of_mem hf
  have hasc := ascending_of_gapped h.gapped
  rw [hring, List.pairwise_append] at hasc
  obtain ⟨-, hpost, hpre⟩ := hasc
  have hne : ∀ t ∈ bs ++ as, t.addr ≠ s.freep := by
    intro t ht
    rw [hfreep]
    rcases List.mem_append.mp ht with ht | ht
    · apply (UInt32.ne_of_lt ((List.pairwise_cons.mp hpost).1 t ht)).symm
    · apply UInt32.ne_of_lt (hpre t ht f List.mem_cons_self)
  refine ⟨f, bs ++ as, hfreep, ?_, hne, ?_⟩
  · rw [hfreep]
    cases as with
    | nil =>
        obtain ⟨rfl, rfl⟩ := List.cons.inj hring
        rw [List.append_nil]
        apply h.linked
    | cons a as =>
        obtain ⟨rfl, -⟩ := List.cons.inj hring
        have hlinked := h.linked
        rw [hring] at hlinked
        apply Linked.rotate (a := baseBlock base) hlinked
  · intro t
    rw [hring]
    simp only [List.mem_append, List.mem_cons]
    tauto

/-! ### New memory -/

/-- New memory for the heap: whole pages above `base` that do not reach the end of the address
space, apart from all memory the heap has. -/
structure Fresh (base : UInt32) (acquired : List Frames.Region) (r : Frames.Region) : Prop where
  aligned : 4096 ∣ r.addr
  above : base.toNat + 8 ≤ r.addr
  below : r.addr + r.len < 2 ^ 32
  apart : ∀ r' ∈ acquired, ∀ x, r.Contains x → ¬ r'.Contains x

theorem toNat_heapBytes (h : nunits.toNat ≤ 2 ^ 28 + 1) :
  nunits.toNat ≤ (heapBytes nunits / headerSize).toNat ∧
    0 < (heapBytes nunits / headerSize).toNat ∧
    8 * (heapBytes nunits / headerSize).toNat = (heapBytes nunits).toNat
  := by
  have hunits : ∀ m : UInt32, 1024 ≤ m.toNat → m.toNat ≤ 2 ^ 28 + 1 →
      m.toNat ≤ (divCeil (m * headerSize) fourKb * fourKb / headerSize).toNat ∧
      8 * (divCeil (m * headerSize) fourKb * fourKb / headerSize).toNat
        = (divCeil (m * headerSize) fourKb * fourKb).toNat := by
    intro m hlow hhigh
    have hmul : (m * headerSize).toNat = m.toNat * 8 := by
      rw [UInt32.toNat_mul, show headerSize.toNat = 8 from rfl]
      omega
    have hdiv : (divCeil (m * headerSize) fourKb).toNat = (m.toNat * 8 - 1) / 4096 + 1 := by
      rw [toNat_divCeil (by omega), hmul, toNat_fourKb]
    rw [UInt32.toNat_div, UInt32.toNat_mul, hdiv, toNat_fourKb, show headerSize.toNat = 8 from rfl]
    omega
  rw [heapBytes, heapFrames]
  split
  case isTrue hlt =>
    have hmin := hunits minBlockSize (by decide) (by decide)
    have hsize : minBlockSize.toNat = 1024 := rfl
    rw [UInt32.lt_iff_toNat_lt] at hlt
    omega
  case isFalse hge =>
    have hmin := hunits nunits
    have hsize : minBlockSize.toNat = 1024 := rfl
    rw [UInt32.lt_iff_toNat_lt] at hge
    omega

theorem overlay_of_not_contains {mem contents : UInt32 → Header} {vaddr bytes a : UInt32}
    (hbelow : vaddr.toNat + bytes.toNat < 2 ^ 32)
    (h : ¬ Frames.Region.Contains ⟨vaddr.toNat, bytes.toNat⟩ a.toNat) :
  overlay mem contents vaddr bytes a = mem a
  := by
  rw [overlay, if_neg]
  rw [UInt32.lt_iff_toNat_lt, UInt32.toNat_sub]
  simp only [Frames.Region.Contains] at h
  have := a.toNat_lt
  omega

theorem Block.Good.contains_addr {acquired : List Frames.Region} {b : Block}
    (h : b.Good base acquired) :
  b.Contains b.addr.toNat
  := by
  have := h.pos
  simp only [Block.Contains, Block.stop]
  omega

/-- A block stays good when memory is added. -/
theorem Block.Good.cons {acquired : List Frames.Region} {b : Block} (h : b.Good base acquired)
    (r : Frames.Region) :
  b.Good base (r :: acquired)
  := by
  refine { h with covered := ?_ }
  intro x hx
  obtain ⟨r', hr', hx'⟩ := h.covered x hx
  exact ⟨r', List.mem_cons_of_mem _ hr', hx'⟩

section Region

variable {vaddr bytes : UInt32}

/-- New memory contains nothing of a block. -/
theorem Fresh.not_contains {r : Frames.Region} (h : Fresh base s.acquired r) {b : Block}
    (hb : b.Good base s.acquired) {x : ℕ} (hx : b.Contains x) :
  ¬ r.Contains x
  := by
  intro hr
  obtain ⟨r', hr', hx'⟩ := hb.covered x hx
  apply h.apart r' hr' x hr hx'

/-- Headers outside of the new memory stay. -/
theorem addRegion_mem {k : K} (hbelow : vaddr.toNat + bytes.toNat < 2 ^ 32) (hpos : 0 < bytes.toNat)
    {a : UInt32} (ha : ¬ Frames.Region.Contains ⟨vaddr.toNat, bytes.toNat⟩ a.toNat) :
  (addRegion kernel s vaddr bytes k).mem a = s.mem a
  := by
  have hne : a ≠ vaddr := by
    rintro rfl
    apply ha
    simp only [Frames.Region.Contains]
    omega
  simp only [addRegion, setSize_of_ne hne, overlay_of_not_contains hbelow ha]

variable (hfresh : Fresh base s.acquired ⟨vaddr.toNat, bytes.toNat⟩)
  (hpos : 0 < (bytes / headerSize).toNat) (hbytes : 8 * (bytes / headerSize).toNat = bytes.toNat)

include hbytes

theorem contains_region_iff (x : ℕ) :
  Block.Contains ⟨vaddr, bytes / headerSize⟩ x ↔
    Frames.Region.Contains ⟨vaddr.toNat, bytes.toNat⟩ x
  := by
  simp only [Block.Contains, Frames.Region.Contains, Block.stop, hbytes]

include hfresh hpos

theorem Fresh.good :
  Block.Good base (⟨vaddr.toNat, bytes.toNat⟩ :: s.acquired) ⟨vaddr, bytes / headerSize⟩
  := by
  constructor
  · apply hpos
  · apply Dvd.dvd.trans (by decide) hfresh.aligned
  · apply hfresh.above
  · rw [Block.stop, hbytes]
    apply hfresh.below
  · intro x hx
    exact ⟨_, List.mem_cons_self, (contains_region_iff hbytes x).mp hx⟩

/-- The block of the new memory is apart from the others. -/
theorem Fresh.apart_block {b : Block} (hb : b.Good base s.acquired) :
  Block.Apart ⟨vaddr, bytes / headerSize⟩ b
  := by
  have hnot := hfresh.not_contains hb hb.contains_addr
  have hnot' : ¬ b.Contains vaddr.toNat := by
    intro hbv
    apply hfresh.not_contains hb hbv
    simp only [Frames.Region.Contains]
    omega
  have hpos' := hb.pos
  simp only [Frames.Region.Contains] at hnot
  simp only [Block.Contains, Block.Apart, Block.stop] at hnot hnot' ⊢
  omega

end Region

/-- New memory is a live block of the heap. -/
theorem addRegion_heapOf (h : HeapOf base s fs live) {vaddr bytes : UInt32} (k : K)
    (hfresh : Fresh base s.acquired ⟨vaddr.toNat, bytes.toNat⟩)
    (hpos : 0 < (bytes / headerSize).toNat)
    (hbytes : 8 * (bytes / headerSize).toNat = bytes.toNat) :
  HeapOf base (addRegion kernel s vaddr bytes k) fs (⟨vaddr, bytes / headerSize⟩ :: live)
  := by
  have hgood : ∀ b ∈ fs ++ live, b.Good base s.acquired := h.good
  have hmem : ∀ b ∈ fs ++ live, (addRegion kernel s vaddr bytes k).mem b.addr = s.mem b.addr := by
    intro b hb
    apply addRegion_mem kernel hfresh.below (by omega)
    apply hfresh.not_contains (hgood b hb) (hgood b hb).contains_addr
  constructor
  case linked =>
    apply h.linked.congr
    rw [List.forall_mem_cons]
    constructor
    · apply addRegion_mem kernel hfresh.below (by omega)
      have habove : base.toNat + 8 ≤ vaddr.toNat := hfresh.above
      simp only [Frames.Region.Contains, addr_baseBlock]
      omega
    · intro c hc
      apply hmem c (List.mem_append_left live hc)
  case gapped => apply h.gapped
  case freep => apply h.freep
  case sizes =>
    rw [List.forall_mem_cons]
    constructor
    · simp only [addRegion, setSize_self]
    · intro x hx
      rw [hmem x (List.mem_append_right fs hx), h.sizes x hx]
  case good =>
    intro b hb
    have hcases : b = ⟨vaddr, bytes / headerSize⟩ ∨ b ∈ fs ++ live := by
      simp only [List.mem_append, List.mem_cons] at hb ⊢
      tauto
    rcases hcases with rfl | hb
    · apply hfresh.good hpos hbytes
    · apply (hgood b hb).cons
  case apart =>
    rw [List.pairwise_cons]
    refine ⟨?_, h.apart⟩
    intro x hx
    apply hfresh.apart_block hpos hbytes (hgood x (List.mem_append_right fs hx))
  case cross =>
    rw [List.forall_mem_cons]
    refine ⟨?_, h.cross⟩
    intro c hc
    apply hfresh.apart_block hpos hbytes (hgood c (List.mem_append_left live hc))
  case total =>
    have htotal := h.total
    simp only [addRegion, List.map_append, List.map_cons, List.sum_append, List.sum_cons] at htotal ⊢
    omega

theorem kfree_mono {n m : ℕ} {s s' : Heap K} {ap : UInt32} (h : kfree n s ap = some s')
    (hnm : n ≤ m) :
  kfree m s ap = some s'
  := by
  rw [kfree] at h ⊢
  split
  case isTrue hap => rwa [if_pos hap] at h
  case isFalse hap =>
    rw [if_neg hap, Option.map_eq_some_iff] at h
    obtain ⟨p, hp, hs⟩ := h
    rw [Option.map_eq_some_iff]
    exact ⟨p, Loop.run_mono hp hnm, hs⟩

/-- `kfree` changes the headers only. -/
theorem kfree_kernel {n : ℕ} {s s' : Heap K} {ap : UInt32} (h : kfree n s ap = some s') :
  s'.kernel = s.kernel ∧ s'.acquired = s.acquired
  := by
  rw [kfree] at h
  split at h
  case isTrue =>
    obtain rfl := Option.some.inj h
    exact ⟨rfl, rfl⟩
  case isFalse =>
    obtain ⟨q, -, rfl⟩ := Option.map_eq_some_iff.mp h
    exact ⟨rfl, rfl⟩

theorem HeapOf.freep_ne_zero (h : HeapOf base s fs live) (hbase : base ≠ 0) :
  s.freep ≠ 0
  := by
  obtain ⟨f, hf, hfreep⟩ := h.freep
  rw [hfreep]
  rcases List.mem_cons.mp hf with rfl | hf
  · apply hbase
  · intro hzero
    have habove := (h.good f (List.mem_append_left live hf)).above
    rw [hzero, UInt32.toNat_zero] at habove
    omega

/-- The list of a heap has been set up. -/
theorem HeapOf.initList_eq (h : HeapOf base s fs live) (hbase : base ≠ 0) :
  initList base s = s
  := by
  rw [initList, if_neg (h.freep_ne_zero hbase)]

/-- `acquire_more_heap` fails and leaves the heap alone, or it returns `freep` and the heap
has a free block that is large enough. -/
theorem acquireMoreHeap_spec (h : HeapOf base s fs live) (hunits : nunits.toNat ≤ 2 ^ 28 + 1)
    (hfresh : ∀ vaddr k, backing kernel nunits s.kernel = (some vaddr, k) →
      Fresh base s.acquired ⟨vaddr.toNat, (heapBytes nunits).toNat⟩) :
  (∃ k, ∀ n, acquireMoreHeap kernel n s nunits = some (0, { s with kernel := k })) ∨
    ∃ n₀ s' fs', (∀ n, n₀ ≤ n → acquireMoreHeap kernel n s nunits = some (s'.freep, s')) ∧
      HeapOf base s' fs' live ∧ ∃ d ∈ fs', nunits.toNat ≤ d.size.toNat
  := by
  obtain ⟨hle, hpos, hbytes⟩ := toNat_heapBytes hunits
  cases hbacking : backing kernel nunits s.kernel with
  | mk vaddr k =>
      cases vaddr with
      | none =>
          left
          use k
          intro n
          rw [acquireMoreHeap, hbacking]
      | some vaddr =>
          right
          have hheap := addRegion_heapOf kernel h k (hfresh vaddr k hbacking) hpos hbytes
          obtain ⟨n₀, s', fs', hfree, hheap', -, -, d, hd, hsize⟩ := kfree_spec hheap
          use n₀, s', fs'
          refine ⟨?_, hheap', d, hd, hle.trans hsize⟩
          intro n hn
          simp only [acquireMoreHeap, hbacking, kfree_mono hfree hn, Option.map_some]

end Kmalloc
