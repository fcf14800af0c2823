import Aenix.Kmalloc.Safety

/-!
# The order of frees

The free blocks are not adjacent, so they are determined by the addresses in them; and these are all addresses
of the heap that are not in live blocks.  The free blocks of a heap are therefore determined by its memory and
its live blocks (`HeapOf.free_eq`), whatever calls have led to it.
-/

open Aenix

namespace Kmalloc

variable {K : Type} {base : UInt32} {s s' : Heap K} {fs fs' live live' : List Block} {b : Block}

/-! ### Free blocks and addresses -/

/-- The first of some blocks with gaps between them is the lowest one. -/
theorem addr_le_of_contains (hgap : (b :: fs).Pairwise Block.Gap) {x : ℕ}
    (hx : ∃ c ∈ b :: fs, c.Contains x) :
  b.addr.toNat ≤ x
  := by
  obtain ⟨c, hc, hle, -⟩ := hx
  rcases List.mem_cons.mp hc with rfl | hc
  · exact hle
  · have hlt := (List.pairwise_cons.mp hgap).1 c hc
    simp only [Block.Gap, Block.stop] at hlt
    omega

/-- The end of the first block lies in the gap after it. -/
theorem not_contains_stop (hgap : (b :: fs).Pairwise Block.Gap) :
  ¬ ∃ c ∈ b :: fs, c.Contains b.stop
  := by
  rintro ⟨c, hc, hle, hlt⟩
  rcases List.mem_cons.mp hc with rfl | hc
  · omega
  · have hgt := (List.pairwise_cons.mp hgap).1 c hc
    rw [Block.Gap] at hgt
    omega

/-- The addresses in the blocks after the first one are those beyond its end. -/
theorem contains_tail_iff (hgap : (b :: fs).Pairwise Block.Gap) {x : ℕ} :
  (∃ c ∈ fs, c.Contains x) ↔ b.stop < x ∧ ∃ c ∈ b :: fs, c.Contains x
  := by
  constructor
  · rintro ⟨c, hc, hx⟩
    have hlt := (List.pairwise_cons.mp hgap).1 c hc
    exact ⟨Nat.lt_of_lt_of_le hlt hx.1, c, List.mem_cons_of_mem b hc, hx⟩
  · rintro ⟨hlt, c, hc, hx⟩
    rcases List.mem_cons.mp hc with rfl | hc
    · exact absurd hx.2 (by omega)
    · exact ⟨c, hc, hx⟩

theorem Block.contains_addr (hpos : 0 < b.size.toNat) :
  b.Contains b.addr.toNat
  := by
  constructor
  · exact le_rfl
  · rw [Block.stop]
    omega

/-- Blocks with gaps between them are determined by the addresses in them. -/
theorem eq_of_contains_iff (hgap : fs.Pairwise Block.Gap) (hgap' : fs'.Pairwise Block.Gap)
    (hpos : ∀ b ∈ fs, 0 < b.size.toNat) (hpos' : ∀ b ∈ fs', 0 < b.size.toNat)
    (hcover : ∀ x, (∃ b ∈ fs, b.Contains x) ↔ ∃ b ∈ fs', b.Contains x) :
  fs = fs'
  := by
  induction fs generalizing fs' with
  | nil =>
      cases fs' with
      | nil => rfl
      | cons c cs =>
          have hc := (hcover c.addr.toNat).mpr
            ⟨c, List.mem_cons_self, Block.contains_addr (hpos' c List.mem_cons_self)⟩
          simp at hc
  | cons b bs ih =>
      have hb : b.Contains b.addr.toNat := Block.contains_addr (hpos b List.mem_cons_self)
      cases fs' with
      | nil =>
          have hnone := (hcover b.addr.toNat).mp ⟨b, List.mem_cons_self, hb⟩
          simp at hnone
      | cons c cs =>
          have hc : c.Contains c.addr.toNat := Block.contains_addr (hpos' c List.mem_cons_self)
          have haddr : b.addr.toNat = c.addr.toNat := by
            apply Nat.le_antisymm
            · apply addr_le_of_contains hgap
              exact (hcover _).mpr ⟨c, List.mem_cons_self, hc⟩
            · apply addr_le_of_contains hgap'
              exact (hcover _).mp ⟨b, List.mem_cons_self, hb⟩
          have hstop : b.stop = c.stop := by
            rcases Nat.lt_trichotomy b.stop c.stop with hlt | heq | hgt
            · have hin : c.Contains b.stop := ⟨by rw [Block.stop]; omega, hlt⟩
              exact absurd ((hcover _).mpr ⟨c, List.mem_cons_self, hin⟩) (not_contains_stop hgap)
            · exact heq
            · have hin : b.Contains c.stop := ⟨by rw [Block.stop]; omega, hgt⟩
              exact absurd ((hcover _).mp ⟨b, List.mem_cons_self, hin⟩) (not_contains_stop hgap')
          have heq : b = c := by
            obtain ⟨addr, size⟩ := b
            obtain ⟨addr', size'⟩ := c
            simp only [Block.stop] at haddr hstop
            congr 1
            · exact UInt32.toNat_inj.mp haddr
            · apply UInt32.toNat_inj.mp
              omega
          congr 1
          apply ih (List.pairwise_cons.mp hgap).2 (List.pairwise_cons.mp hgap').2
          · exact fun d hd => hpos d (List.mem_cons_of_mem b hd)
          · exact fun d hd => hpos' d (List.mem_cons_of_mem c hd)
          · intro x
            rw [contains_tail_iff hgap, contains_tail_iff hgap', hcover, hstop]

/-! ### The heap -/

/-- The addresses of a block. -/
def Block.region (b : Block) : Frames.Region :=
  ⟨b.addr.toNat, 8 * b.size.toNat⟩

theorem sum_region (bs : List Block) :
  ((bs.map Block.region).map Frames.Region.len).sum = 8 * (bs.map fun b => b.size.toNat).sum
  := by
  induction bs with
  | nil => rfl
  | cons b bs ih =>
      simp only [List.map_cons, List.sum_cons, ih, Block.region]
      ring

/-- The blocks fill the memory of the heap. -/
theorem HeapOf.contains_iff (h : HeapOf base s fs live) (x : ℕ) :
  (∃ b ∈ fs ++ live, b.Contains x) ↔ ∃ r ∈ s.acquired, r.Contains x
  := by
  constructor
  · rintro ⟨b, hb, hx⟩
    exact (h.good b hb).covered x hx
  · intro hx
    have hregion : ∃ r ∈ (fs ++ live).map Block.region, r.Contains x := by
      apply Frames.contains_of_sum_le _ _ _ hx
      · rw [List.pairwise_map]
        exact h.pairwise_apart
      · intro r hr y hy
        obtain ⟨b, hb, rfl⟩ := List.mem_map.mp hr
        exact (h.good b hb).covered y hy
      · rw [sum_region, h.total]
    obtain ⟨r, hr, hcontains⟩ := hregion
    obtain ⟨b, hb, rfl⟩ := List.mem_map.mp hr
    exact ⟨b, hb, hcontains⟩

/-- The free blocks contain the addresses of the heap that are not in live blocks. -/
theorem HeapOf.free_contains_iff (h : HeapOf base s fs live) (x : ℕ) :
  (∃ b ∈ fs, b.Contains x) ↔ (∃ r ∈ s.acquired, r.Contains x) ∧ ¬ ∃ b ∈ live, b.Contains x
  := by
  rw [← h.contains_iff]
  constructor
  · rintro ⟨b, hb, hx⟩
    refine ⟨⟨b, List.mem_append_left live hb, hx⟩, ?_⟩
    rintro ⟨c, hc, hx'⟩
    obtain ⟨hle, hlt⟩ := hx
    obtain ⟨hle', hlt'⟩ := hx'
    rcases h.cross c hc b hb with hapart | hapart
    · omega
    · omega
  · rintro ⟨⟨b, hb, hx⟩, hnot⟩
    rcases List.mem_append.mp hb with hb | hb
    · exact ⟨b, hb, hx⟩
    · exact absurd ⟨b, hb, hx⟩ hnot

/-- The free blocks are determined by the memory of the heap and the live blocks. -/
theorem HeapOf.free_eq (h : HeapOf base s fs live) (h' : HeapOf base s' fs' live')
    (hacquired : s'.acquired = s.acquired) (hlive : live.Perm live') :
  fs = fs'
  := by
  apply eq_of_contains_iff (List.pairwise_cons.mp h.gapped).2 (List.pairwise_cons.mp h'.gapped).2
  · exact fun b hb => (h.good b (List.mem_append_left live hb)).pos
  · exact fun b hb => (h'.good b (List.mem_append_left live' hb)).pos
  · intro x
    rw [h.free_contains_iff, h'.free_contains_iff, hacquired]
    simp only [hlive.mem_iff]

/-! ### Freeing blocks -/

/-- Calls of `kfree`, one after the other. -/
def kfreeAll (n : ℕ) (s : Heap K) : List UInt32 → Option (Heap K)
  | [] => some s
  | ap :: aps => (kfree n s ap).bind fun s => kfreeAll n s aps

theorem kfreeAll_mono {n m : ℕ} {aps : List UInt32} (h : kfreeAll n s aps = some s') (hnm : n ≤ m) :
  kfreeAll m s aps = some s'
  := by
  induction aps generalizing s with
  | nil => exact h
  | cons ap aps ih =>
      obtain ⟨s₁, hfree, hrest⟩ := Option.bind_eq_some_iff.mp h
      rw [kfreeAll, kfree_mono hfree hnm, Option.bind_some]
      exact ih hrest

theorem kfreeAll_spec {bs rest : List Block} (h : HeapOf base s fs (bs ++ rest)) :
  ∃ n s' fs', kfreeAll n s (bs.map Block.pointer) = some s' ∧ HeapOf base s' fs' rest ∧
    s'.acquired = s.acquired
  := by
  induction bs generalizing s fs with
  | nil => exact ⟨0, s, fs, rfl, h, rfl⟩
  | cons b bs ih =>
      obtain ⟨n, s₁, fs₁, hfree, hheap, hacquired, -⟩ := kfree_spec h
      obtain ⟨m, s₂, fs₂, hrest, hheap', hacquired'⟩ := ih hheap
      refine ⟨max n m, s₂, fs₂, ?_, hheap', hacquired'.trans hacquired⟩
      rw [List.map_cons, kfreeAll, Block.pointer, kfree_mono hfree (le_max_left n m), Option.bind_some]
      exact kfreeAll_mono hrest (le_max_right n m)

/-! ### Allocating without more memory -/

variable (kernel : Kernel K) {nunits : UInt32}

theorem acquireMoreHeap_acquired {n : ℕ} {p : UInt32} (h : acquireMoreHeap kernel n s nunits = some (p, s')) :
  (p = 0 ∧ s'.acquired = s.acquired) ∨ ∃ r, s'.acquired = r :: s.acquired
  := by
  rw [acquireMoreHeap] at h
  split at h
  case h_1 =>
    obtain ⟨rfl, rfl⟩ := Prod.mk.inj (Option.some.inj h)
    exact Or.inl ⟨rfl, rfl⟩
  case h_2 vaddr k _ =>
    obtain ⟨s₁, hfree, heq⟩ := Option.map_eq_some_iff.mp h
    obtain ⟨-, rfl⟩ := Prod.mk.inj heq
    exact Or.inr ⟨_, (kfree_kernel hfree).2⟩

/-- The loop of `kmalloc` gives no memory back. -/
theorem acquired_le_of_run {n l : ℕ} {c : Cursor K} {r : UInt32}
    (h : Loop.run (kmallocBody kernel n nunits) l c = some (some (r, s'))) :
  c.heap.acquired.length ≤ s'.acquired.length
  := by
  refine kmallocLoop_invariant kernel (I := fun s => c.heap.acquired.length ≤ s.acquired.length) ?_ ?_ h le_rfl
  · intro s₁ s₂ _ hacquired hle
    rwa [hacquired]
  · intro s₁ p s₂ hgrow hle
    rcases acquireMoreHeap_acquired kernel hgrow with ⟨-, heq⟩ | ⟨r, heq⟩
    · rwa [heq]
    · rw [heq, List.length_cons]
      omega

theorem unitsFor_pos (nbytes : UInt32) :
  0 < (unitsFor nbytes).toNat
  := by
  have hlt := (nbytes + headerSize - 1).toNat_lt
  rw [unitsFor, UInt32.toNat_add, UInt32.toNat_div, show headerSize.toNat = 8 from rfl, UInt32.toNat_one]
  omega

/-- `kmalloc` takes a block from the memory that the heap has; or no free block is large enough, the heap is to
grow, and `kmalloc` fails with it or goes on. -/
theorem kmalloc_cases (h : HeapOf base (initList base s) fs live) {n : ℕ} {nbytes r : UInt32}
    (hzero : nbytes ≠ 0) (hrun : kmalloc kernel base n s nbytes = some (r, s')) :
  ((∃ t ∈ fs, unitsFor nbytes ≤ t.size) ∧
      ∃ fs' b, r = b.pointer ∧ HeapOf base s' fs' (b :: live) ∧ s'.kernel = s.kernel) ∨
    (∀ t ∈ fs, t.size < unitsFor nbytes) ∧
      ∃ p s₂, acquireMoreHeap kernel n (initList base s) (unitsFor nbytes) = some (p, s₂) ∧
      ((p = 0 ∧ r = 0 ∧ s' = s₂) ∨
        (p ≠ 0 ∧ ∃ l c, c.heap = s₂ ∧
          Loop.run (kmallocBody kernel n (unitsFor nbytes)) l c = some (some (r, s'))))
  := by
  rw [kmalloc, if_neg hzero] at hrun
  have hloop := Option.join_eq_some_iff.mp hrun
  obtain ⟨l, hsearch⟩ := h.search kernel (unitsFor_pos nbytes)
  rcases hsearch n with ⟨hfits, s₁, fs', b, hfound, hheap, -, hkernel⟩ | ⟨hnone, hsmall, w, hwrap⟩
  · left
    have heq := hfound n
    rw [Loop.run_mono hloop (by omega)] at heq
    obtain ⟨rfl, rfl⟩ := Prod.mk.inj (Option.some.inj (Option.some.inj heq))
    exact ⟨hfits, fs', b, rfl, hheap, hkernel.trans (initList_kernel base s)⟩
  · -- the search has come back to its start
    refine Or.inr ⟨hnone, ?_⟩
    have hrest := hwrap n
    rw [Loop.run_mono hloop (Nat.le_add_left n l)] at hrest
    obtain ⟨k, rfl⟩ : ∃ k, n = k + 1 := by
      cases n with
      | zero => simp [Loop.run] at hrest
      | succ k => exact ⟨k, rfl⟩
    cases hgrow : acquireMoreHeap kernel (k + 1) (initList base s) (unitsFor nbytes) with
    | none =>
        have hbody : kmallocBody kernel (k + 1) (unitsFor nbytes)
            ⟨w, (initList base s).freep, initList base s⟩ = .inr none := by
          simp only [kmallocBody, ge_iff_le, if_neg (UInt32.not_le.mpr hsmall), if_true, hgrow]
        rw [Loop.run_leave hbody] at hrest
        simp at hrest
    | some grown =>
        obtain ⟨p, s₂⟩ := grown
        refine ⟨p, s₂, rfl, ?_⟩
        have hbody := kmallocBody_grow kernel w hsmall hgrow
        by_cases hp : p = 0
        · left
          rw [if_pos hp] at hbody
          rw [Loop.run_leave hbody] at hrest
          obtain ⟨rfl, rfl⟩ := Prod.mk.inj (Option.some.inj (Option.some.inj hrest))
          exact ⟨hp, rfl, rfl⟩
        · right
          rw [if_neg hp] at hbody
          rw [Loop.run_continue hbody] at hrest
          exact ⟨hp, k, _, rfl, hrest.symm⟩

/-- A block that `kmalloc` takes from the memory that the heap has. -/
theorem kmalloc_within (hbase : base ≠ 0) (h : HeapOf base s fs live) {n : ℕ} {nbytes r : UInt32}
    (hrun : kmalloc kernel base n s nbytes = some (r, s')) (hr : r ≠ 0)
    (hacquired : s'.acquired = s.acquired) :
  ∃ fs' b, r = b.pointer ∧ HeapOf base s' fs' (b :: live)
  := by
  have hinit := h.initList_eq hbase
  by_cases hzero : nbytes = 0
  · rw [kmalloc, if_pos hzero] at hrun
    obtain ⟨rfl, -⟩ := Prod.mk.inj (Option.some.inj hrun)
    exact absurd rfl hr
  rw [← hinit] at h
  rcases kmalloc_cases kernel h hzero hrun with
    ⟨-, fs', b, hr, hheap, -⟩ | ⟨-, p, s₂, hgrow, ⟨-, rfl, -⟩ | ⟨hp, l, c, rfl, hloop⟩⟩
  · exact ⟨fs', b, hr, hheap⟩
  · exact absurd rfl hr
  · rw [hinit] at hgrow
    rcases acquireMoreHeap_acquired kernel hgrow with ⟨rfl, -⟩ | ⟨region, hmore⟩
    · exact absurd rfl hp
    · have hle := acquired_le_of_run kernel hloop
      rw [hacquired, hmore, List.length_cons] at hle
      omega

/-- The free blocks after some live blocks have been freed do not depend on the order; and to free what
`kmalloc` has taken from the memory of the heap makes the free blocks what they were. -/
theorem free_order_irrelevant (hbase : base ≠ 0) (h : HeapOf base s fs live) :
  (∀ bs bs' rest, live.Perm (bs ++ rest) → bs.Perm bs' →
      ∃ n s₁ s₂ fs', kfreeAll n s (bs.map Block.pointer) = some s₁ ∧
        kfreeAll n s (bs'.map Block.pointer) = some s₂ ∧ HeapOf base s₁ fs' rest ∧ HeapOf base s₂ fs' rest) ∧
    ∀ n nbytes r s', kmalloc kernel base n s nbytes = some (r, s') → r ≠ 0 → s'.acquired = s.acquired →
      ∃ m s'', kfree m s' r = some s'' ∧ HeapOf base s'' fs live
  := by
  constructor
  · intro bs bs' rest hlive hperm
    obtain ⟨n₁, s₁, fs₁, hrun₁, hheap₁, hacquired₁⟩ := kfreeAll_spec (h.perm hlive)
    obtain ⟨n₂, s₂, fs₂, hrun₂, hheap₂, hacquired₂⟩ :=
      kfreeAll_spec (h.perm (hlive.trans (hperm.append_right rest)))
    obtain rfl := hheap₁.free_eq hheap₂ (hacquired₂.trans hacquired₁.symm) (List.Perm.refl rest)
    exact ⟨max n₁ n₂, s₁, s₂, fs₁, kfreeAll_mono hrun₁ (le_max_left n₁ n₂),
      kfreeAll_mono hrun₂ (le_max_right n₁ n₂), hheap₁, hheap₂⟩
  · intro n nbytes r s' hrun hr hacquired
    obtain ⟨fs', b, rfl, hheap⟩ := kmalloc_within kernel hbase h hrun hr hacquired
    obtain ⟨m, s'', fs'', hfree, hheap', hacquired', -⟩ := kfree_spec hheap
    obtain rfl := h.free_eq hheap' (hacquired'.trans hacquired) (List.Perm.refl live)
    exact ⟨m, s'', hfree, hheap'⟩

/-- A heap of three units, of which the last two are live. -/
abbrev threeUnits : Heap Unit where
  mem := fun a => if a = 0xC0100000 then ⟨0xD0000000, 0⟩ else ⟨0xC0100000, 1⟩
  freep := 0xC0100000
  acquired := [⟨0xD0000000, 24⟩]
  kernel := ()

theorem heapOf_threeUnits :
  HeapOf 0xC0100000 threeUnits [⟨0xD0000000, 1⟩] [⟨0xD0000008, 1⟩, ⟨0xD0000010, 1⟩]
  := by
  have hgood : ∀ k : UInt32, k.toNat < 3 → Block.Good 0xC0100000 [⟨0xD0000000, 24⟩] ⟨0xD0000000 + 8 * k, 1⟩ := by
    intro k hk
    have haddr : (0xD0000000 + 8 * k).toNat = 0xD0000000 + 8 * k.toNat := by
      rw [UInt32.toNat_add, UInt32.toNat_mul]
      simp only [UInt32.reduceToNat]
      omega
    constructor
    · exact Nat.one_pos
    · simp only [haddr]
      omega
    · simp only [haddr, UInt32.reduceToNat]
      omega
    · simp only [Block.stop, haddr, UInt32.reduceToNat]
      omega
    · intro x hx
      simp only [Block.Contains, Block.stop, haddr, UInt32.reduceToNat] at hx
      refine ⟨_, List.mem_singleton_self _, ?_⟩
      constructor
      · simp only
        omega
      · simp only
        omega
  constructor
  · exact ⟨rfl, rfl, trivial⟩
  · simp [Block.Gap, Block.stop, baseBlock]
  · exact ⟨_, List.mem_cons_self, rfl⟩
  · decide
  · intro b hb
    rcases List.mem_cons.mp hb with rfl | hb
    · exact hgood 0 (by decide)
    rcases List.mem_cons.mp hb with rfl | hb
    · exact hgood 1 (by decide)
    rcases List.mem_cons.mp hb with rfl | hb
    · exact hgood 2 (by decide)
    · simp at hb
  · simp [Block.Apart, Block.stop]
  · simp [Block.Apart, Block.stop]
  · decide

/-- Both orders of freeing the two live blocks lead to the same free blocks. -/
theorem free_order_irrelevant_threeUnits :
  ∃ n s₁ s₂ fs', kfreeAll n threeUnits [0xD0000010, 0xD0000018] = some s₁ ∧
    kfreeAll n threeUnits [0xD0000018, 0xD0000010] = some s₂ ∧
    HeapOf 0xC0100000 s₁ fs' [] ∧ HeapOf 0xC0100000 s₂ fs' []
  := by
  have horder := (free_order_irrelevant oneRegion (by decide) heapOf_threeUnits).1
    [⟨0xD0000008, 1⟩, ⟨0xD0000010, 1⟩] [⟨0xD0000010, 1⟩, ⟨0xD0000008, 1⟩] []
  exact horder (List.Perm.refl _) (List.Perm.swap _ _ _)

end Kmalloc
