import Aenix.Kmalloc.Grow

/-!
# Safety of the heap

In every run of `kmalloc` and `kfree` whose clients free what is live and write inside of
what is live, the calls return and the invariant of the heap holds (`heap_safety`).
-/

open Aenix

namespace Kmalloc

variable {K : Type} {base : UInt32} {s : Heap K} {fs live : List Block} {nunits nbytes : UInt32}
variable (kernel : Kernel K)

/-! ### Allocating -/

theorem toNat_unitsFor (h : nbytes.toNat ≤ 2 ^ 31) :
  (unitsFor nbytes).toNat = (nbytes.toNat + 7) / 8 + 1
  := by
  have hsub : (nbytes + headerSize - 1).toNat = nbytes.toNat + 7 := by
    rw [UInt32.toNat_sub_of_le, UInt32.toNat_add]
    · simp only [show headerSize.toNat = 8 from rfl, UInt32.toNat_one]
      omega
    · rw [UInt32.le_iff_toNat_le, UInt32.toNat_add]
      simp only [show headerSize.toNat = 8 from rfl, UInt32.toNat_one]
      omega
  rw [unitsFor, UInt32.toNat_add, UInt32.toNat_div, hsub, show headerSize.toNat = 8 from rfl,
    UInt32.toNat_one]
  omega

/-- The invariant says nothing about the rest of the kernel. -/
theorem HeapOf.with_kernel (h : HeapOf base s fs live) (k : K) :
  HeapOf base { s with kernel := k } fs live
  := ⟨h.linked, h.gapped, h.freep, h.sizes, h.good, h.apart, h.cross, h.total⟩

/-- A search from `freep` finds a block, or no block is large enough. -/
theorem HeapOf.search (h : HeapOf base s fs live) (hpos : 0 < nunits.toNat) :
  ∃ l, ∀ n,
    ((∃ t ∈ fs, nunits ≤ t.size) ∧
      ∃ s' fs' b, (∀ m, Loop.run (kmallocBody kernel n nunits) (l + 1 + m)
          ⟨s.freep, (s.mem s.freep).next, s⟩ = some (some (offset b.addr 1, s'))) ∧
        HeapOf base s' fs' (b :: live) ∧ b.size = nunits ∧ s'.kernel = s.kernel) ∨
    ((∀ t ∈ fs, t.size < nunits) ∧ (s.mem s.freep).size < nunits ∧
      ∃ w, ∀ m, Loop.run (kmallocBody kernel n nunits) (l + m)
        ⟨s.freep, (s.mem s.freep).next, s⟩
          = Loop.run (kmallocBody kernel n nunits) m ⟨w, s.freep, s⟩)
  := by
  obtain ⟨f, rest, hfreep, hlinked, hne, hmem⟩ := h.exists_rotation
  use rest.length
  intro n
  rcases Kmalloc.search kernel n hlinked hne with ⟨w, hw, hfit, hrun⟩ | ⟨hsmall, hf, w, hrun⟩
  · left
    obtain ⟨hfits, s', fs', b, htake, hheap, hsize, -⟩ := take_spec h ((hmem w).mp hw) hpos hfit
    have hkernel := take_kernel s w.addr (s.mem w.addr).next nunits
    rw [htake] at hkernel
    refine ⟨hfits, s', fs', b, ?_, hheap, hsize, hkernel⟩
    intro m
    rw [hfreep, hrun, htake]
  · right
    refine ⟨?_, hf, w, ?_⟩
    · intro t ht
      rcases List.mem_cons.mp ((hmem t).mpr (List.mem_cons_of_mem _ ht)) with rfl | ht
      · rwa [hfreep, hlinked.1] at hf
      · apply hsmall t ht
    · intro m
      rw [← hrun, hfreep]

theorem kmallocBody_grow {n : ℕ} (prevp : UInt32) {p : UInt32} {s' : Heap K}
    (h : (s.mem s.freep).size < nunits) (hacquire : acquireMoreHeap kernel n s nunits = some (p, s')) :
  kmallocBody kernel n nunits ⟨prevp, s.freep, s⟩ =
    if p = 0 then .inr (some (0, s')) else .inl ⟨p, (s'.mem p).next, s'⟩
  := by
  simp only [kmallocBody, ge_iff_le, if_neg (UInt32.not_le.mpr h), if_true, hacquire]

/-- A round of `kmalloc` takes a block, goes on to the next one, or makes the heap larger. -/
theorem kmallocBody_cases (n : ℕ) (nunits : UInt32) (c : Cursor K) :
  (∃ a h, kmallocBody kernel n nunits c = .inr (some (a, h)) ∧
      h.kernel = c.heap.kernel ∧ h.acquired = c.heap.acquired) ∨
    (∃ c', kmallocBody kernel n nunits c = .inl c' ∧ c'.heap = c.heap) ∨
    kmallocBody kernel n nunits c = .inr none ∨
    ∃ a h, acquireMoreHeap kernel n c.heap nunits = some (a, h) ∧
      ((a = 0 ∧ kmallocBody kernel n nunits c = .inr (some (0, h))) ∨
        (a ≠ 0 ∧ ∃ c', kmallocBody kernel n nunits c = .inl c' ∧ c'.heap = h))
  := by
  obtain ⟨prevp, p, s⟩ := c
  by_cases hsize : nunits ≤ (s.mem p).size
  · left
    rw [kmallocBody_take kernel n hsize, take]
    split
    · exact ⟨_, _, rfl, rfl, rfl⟩
    · exact ⟨_, _, rfl, rfl, rfl⟩
  right
  rw [UInt32.not_le] at hsize
  by_cases hp : p = s.freep
  · right
    subst hp
    cases hgrow : acquireMoreHeap kernel n s nunits with
    | none =>
        left
        simp only [kmallocBody, ge_iff_le, if_neg (UInt32.not_le.mpr hsize), if_true, hgrow]
    | some ah =>
        right
        obtain ⟨a, h⟩ := ah
        refine ⟨a, h, rfl, ?_⟩
        rw [kmallocBody_grow kernel prevp hsize hgrow]
        split
        case isTrue hzero => exact Or.inl ⟨hzero, rfl⟩
        case isFalse hne => exact Or.inr ⟨hne, _, rfl, rfl⟩
  · left
    rw [kmallocBody_next kernel n prevp hsize hp]
    exact ⟨_, rfl, rfl⟩

/-- What depends on the memory of the heap and the rest of the kernel only, and is kept when the heap grows,
is kept by the loop of `kmalloc`. -/
theorem kmallocLoop_invariant {n : ℕ} {nunits : UInt32} {I : Heap K → Prop}
    (hsame : ∀ s s', s'.kernel = s.kernel → s'.acquired = s.acquired → I s → I s')
    (hgrow : ∀ s p s', acquireMoreHeap kernel n s nunits = some (p, s') → I s → I s')
    {l : ℕ} {c : Cursor K} {r : UInt32} {s' : Heap K}
    (hrun : Loop.run (kmallocBody kernel n nunits) l c = some (some (r, s'))) (h : I c.heap) :
  I s'
  := by
  refine Loop.run_of_invariant (fun c => I c.heap) (fun o => ∀ r s', o = some (r, s') → I s') ?_ ?_ h hrun r s' rfl
  · intro c₁ c₂ hI hbody
    rcases kmallocBody_cases kernel n nunits c₁ with ⟨a, s₁, hcase, -⟩ | ⟨c₃, hcase, hheap⟩ | hcase |
      ⟨a, s₁, hacquire, ⟨-, hcase⟩ | ⟨-, c₃, hcase, hheap⟩⟩
    all_goals rw [hcase] at hbody
    all_goals simp only [Sum.inl.injEq, reduceCtorEq] at hbody
    · rwa [← hbody, hheap]
    · rw [← hbody, hheap]
      exact hgrow _ _ _ hacquire hI
  · rintro c₁ o hI hbody r s₁ rfl
    rcases kmallocBody_cases kernel n nunits c₁ with ⟨a, s₂, hcase, hkernel, hacquired⟩ | ⟨c₃, hcase, -⟩ | hcase |
      ⟨a, s₂, hacquire, ⟨-, hcase⟩ | ⟨-, c₃, hcase, -⟩⟩
    all_goals rw [hcase] at hbody
    all_goals simp only [Sum.inr.injEq, Option.some.injEq, Prod.mk.injEq, reduceCtorEq] at hbody
    · rw [← hbody.2]
      exact hsame _ _ hkernel hacquired hI
    · rw [← hbody.2]
      exact hgrow _ _ _ hacquire hI

/-- `kmalloc` returns: it fails and the blocks are as before, or there is a new live block,
which has room for the bytes asked for. -/
theorem kmalloc_spec (hbase : base ≠ 0) (h : HeapOf base (initList base s) fs live)
    (hzero : nbytes ≠ 0) (hbytes : nbytes.toNat ≤ 2 ^ 31)
    (hfresh : ∀ vaddr k, backing kernel (unitsFor nbytes) s.kernel = (some vaddr, k) →
      Fresh base s.acquired ⟨vaddr.toNat, (heapBytes (unitsFor nbytes)).toNat⟩) :
  ∃ n r s', kmalloc kernel base n s nbytes = some (r, s') ∧
    ((r = 0 ∧ HeapOf base s' fs live) ∨
      ∃ fs' b, r = offset b.addr 1 ∧ HeapOf base s' fs' (b :: live) ∧
        nbytes.toNat + 8 ≤ 8 * b.size.toNat)
  := by
  have hunits := toNat_unitsFor hbytes
  have hroom : ∀ b : Block, b.size = unitsFor nbytes → nbytes.toNat + 8 ≤ 8 * b.size.toNat := by
    intro b hb
    rw [hb, hunits]
    omega
  rw [← initList_kernel base, ← initList_acquired base] at hfresh
  simp only [kmalloc, if_neg hzero]
  set s₁ := initList base s
  obtain ⟨l, hsearch⟩ := h.search kernel (by omega : 0 < (unitsFor nbytes).toNat)
  rcases acquireMoreHeap_spec kernel h (by omega) hfresh with ⟨k, hacquire⟩ |
    ⟨n₀, s₂, fs₂, hacquire, hheap₂, d, hd, hdsize⟩
  · -- the heap cannot grow
    use l + 1
    rcases hsearch (l + 1) with ⟨-, s', fs', b, hrun, hheap, hsize, -⟩ | ⟨-, hsmall, w, hrun⟩
    · refine ⟨offset b.addr 1, s', ?_, Or.inr ⟨fs', b, rfl, hheap, hroom b hsize⟩⟩
      rw [← Nat.add_zero (l + 1), hrun 0, Option.join_some]
    · have hgrow := kmallocBody_grow kernel w hsmall (hacquire (l + 1))
      rw [if_pos rfl] at hgrow
      refine ⟨0, { s₁ with kernel := k }, ?_, Or.inl ⟨rfl, h.with_kernel k⟩⟩
      rw [hrun 1, Loop.run_leave hgrow, Option.join_some]
  · -- the heap grows, and the search that goes on finds a block
    obtain ⟨l₂, hsearch₂⟩ := hheap₂.search kernel (by omega : 0 < (unitsFor nbytes).toNat)
    have hn : ∃ n, n₀ ≤ n ∧ n = l + 1 + (l₂ + 1 + n₀) := ⟨l + 1 + (l₂ + 1 + n₀), by omega, rfl⟩
    obtain ⟨n, hn₀, hn⟩ := hn
    use n
    rcases hsearch n with ⟨-, s', fs', b, hrun, hheap, hsize, -⟩ | ⟨-, hsmall, w, hrun⟩
    · refine ⟨offset b.addr 1, s', ?_, Or.inr ⟨fs', b, rfl, hheap, hroom b hsize⟩⟩
      have hfuel := hrun (l₂ + 1 + n₀)
      rw [← hn] at hfuel
      rw [hfuel, Option.join_some]
    · have hgrow := kmallocBody_grow kernel w hsmall (hacquire n hn₀)
      rw [if_neg (hheap₂.freep_ne_zero hbase)] at hgrow
      rcases hsearch₂ n with ⟨-, s', fs', b, hrun₂, hheap, hsize, -⟩ | ⟨hsmall₂, -, -⟩
      · refine ⟨offset b.addr 1, s', ?_, Or.inr ⟨fs', b, rfl, hheap, hroom b hsize⟩⟩
        have hfuel := hrun (l₂ + 1 + n₀ + 1)
        rw [show l + (l₂ + 1 + n₀ + 1) = n by omega] at hfuel
        rw [hfuel, Loop.run_continue hgrow, hrun₂, Option.join_some]
      · have hlt := hsmall₂ d hd
        rw [UInt32.lt_iff_toNat_lt] at hlt
        omega

/-! ### Limits on the loops -/

theorem acquireMoreHeap_mono {n m : ℕ} {r : UInt32 × Heap K}
    (h : acquireMoreHeap kernel n s nunits = some r) (hnm : n ≤ m) :
  acquireMoreHeap kernel m s nunits = some r
  := by
  rw [acquireMoreHeap] at h ⊢
  split at h
  case h_1 => apply h
  case h_2 =>
    rw [Option.map_eq_some_iff] at h ⊢
    obtain ⟨s', hs', hr⟩ := h
    exact ⟨s', kfree_mono hs' hnm, hr⟩

theorem kmallocBody_le {n m : ℕ} (hnm : n ≤ m) (c : Cursor K) :
  kmallocBody kernel n nunits c = .inr none ∨
    kmallocBody kernel n nunits c = kmallocBody kernel m nunits c
  := by
  simp only [kmallocBody]
  split
  · right
    rfl
  · split
    · cases hacquire : acquireMoreHeap kernel n c.heap nunits with
      | none =>
          left
          rfl
      | some r =>
          right
          rw [acquireMoreHeap_mono kernel hacquire hnm]
    · right
      rfl

/-- More rounds do not change what `kmalloc` returns. -/
theorem kmalloc_mono {n m : ℕ} {r : UInt32 × Heap K}
    (h : kmalloc kernel base n s nbytes = some r) (hnm : n ≤ m) :
  kmalloc kernel base m s nbytes = some r
  := by
  rw [kmalloc] at h ⊢
  split
  case isTrue hzero => rwa [if_pos hzero] at h
  case isFalse hzero =>
    simp only [if_neg hzero, Option.join_eq_some_iff] at h ⊢
    apply Loop.run_mono _ hnm
    apply Loop.run_of_body_le (kmallocBody_le kernel hnm) h

/-! ### Runs -/

/-- The heap with the pointers that are live. -/
structure Client (K : Type) where
  heap : Heap K
  live : List UInt32

/-- The calls of the clients of the heap. -/
inductive Call
  | kmalloc (nbytes : UInt32)
  | kfree (ap : UInt32)

/-- The result of a call (0 for `kfree`) and the state after it, with at most `n` rounds of
every loop. -/
def exec (base : UInt32) (n : ℕ) (c : Client K) : Call → Option (UInt32 × Client K)
  | .kmalloc nbytes =>
    (kmalloc kernel base n c.heap nbytes).map fun (r, s) =>
      (r, ⟨s, if r = 0 then c.live else r :: c.live⟩)
  | .kfree ap => (kfree n c.heap ap).map fun s => (0, ⟨s, c.live.erase ap⟩)

/-- At most `2 ^ 31` bytes are asked for and memory for the heap, if there is any, is fresh;
what is freed is live or `NULL`. -/
def Allowed (base : UInt32) (c : Client K) : Call → Prop
  | .kmalloc nbytes =>
    nbytes.toNat ≤ 2 ^ 31 ∧
    ∀ vaddr k, backing kernel (unitsFor nbytes) c.heap.kernel = (some vaddr, k) →
      Fresh base c.heap.acquired ⟨vaddr.toNat, (heapBytes (unitsFor nbytes)).toNat⟩
  | .kfree ap => ap = 0 ∨ ap ∈ c.live

/-- The address lies in what a live pointer points to. -/
def Payload (c : Client K) (a : UInt32) : Prop :=
  ∃ p ∈ c.live, p.toNat ≤ a.toNat ∧
    a.toNat < (p - headerSize).toNat + 8 * (c.heap.mem (p - headerSize)).size.toNat

/-- The states reached from the heap without a list by calls, between which the clients write
to what is live and the rest of the kernel changes. -/
inductive Reachable (base : UInt32) : Client K → Prop
  | start (mem : UInt32 → Header) (k : K) : Reachable base ⟨⟨mem, 0, [], k⟩, []⟩
  | call {c c' : Client K} {x : Call} {n : ℕ} {r : UInt32} (hc : Reachable base c)
      (hallowed : Allowed kernel base c x) (hexec : exec kernel base n c x = some (r, c')) :
      Reachable base c'
  | write {c : Client K} (mem : UInt32 → Header) (k : K) (hc : Reachable base c)
      (hmem : ∀ a, ¬ Payload c a → mem a = c.heap.mem a) :
      Reachable base ⟨{ c.heap with mem := mem, kernel := k }, c.live⟩

/-- The pointer to what a block holds. -/
def Block.pointer (b : Block) : UInt32 :=
  offset b.addr 1

/-- There is no list yet, and nothing is live; or the heap consists of free blocks and of the
live blocks. -/
def Safe (base : UInt32) (c : Client K) : Prop :=
  (c.heap.freep = 0 ∧ c.heap.acquired = [] ∧ c.live = []) ∨
    ∃ fs ls, HeapOf base c.heap fs ls ∧ (ls.map Block.pointer).Perm c.live

/-- The invariant does not depend on the order of the live blocks. -/
theorem HeapOf.perm {ls ls' : List Block} (h : HeapOf base s fs ls) (hperm : ls.Perm ls') :
  HeapOf base s fs ls'
  := by
  have happend : (fs ++ ls').Perm (fs ++ ls) := hperm.symm.append_left fs
  constructor
  · apply h.linked
  · apply h.gapped
  · apply h.freep
  · intro b hb
    apply h.sizes b (hperm.mem_iff.mpr hb)
  · intro b hb
    apply h.good b (happend.mem_iff.mp hb)
  · apply (hperm.pairwise_iff Block.Apart.symm).mp h.apart
  · intro b hb
    apply h.cross b (hperm.mem_iff.mpr hb)
  · rw [(happend.map _).sum_eq]
    apply h.total

/-- Before the first `kmalloc` there are no blocks. -/
theorem heapOf_nil {s : Heap K} (hfreep : s.freep = 0) (hacquired : s.acquired = []) :
  HeapOf base (initList base s) [] []
  := by
  rw [initList, if_pos hfreep]
  constructor
  · simp [Linked, setSize_self, setNext_self, first, baseBlock]
  · simp
  · simp
  · simp
  · simp
  · simp
  · simp
  · simp [hacquired]

theorem initList_heapOf {c : Client K} (h : Safe base c) (hbase : base ≠ 0) :
  ∃ fs ls, HeapOf base (initList base c.heap) fs ls ∧ (ls.map Block.pointer).Perm c.live
  := by
  rcases h with ⟨hfreep, hacquired, hlive⟩ | ⟨fs, ls, hheap, hperm⟩
  · use [], []
    rw [hlive]
    exact ⟨heapOf_nil hfreep hacquired, by simp⟩
  · use fs, ls
    rw [initList, if_neg (hheap.freep_ne_zero hbase)]
    exact ⟨hheap, hperm⟩

theorem Block.pointer_sub (b : Block) :
  b.pointer - headerSize = b.addr
  := offset_one_sub b.addr

/-- A pointer that is live is the one of a live block, which may come first. -/
theorem exists_live_block {ls : List Block} {ps : List UInt32} {ap : UInt32}
    (hperm : (ls.map Block.pointer).Perm ps) (hap : ap ∈ ps) :
  ∃ b ls', ls.Perm (b :: ls') ∧ ap = b.pointer ∧ (ls'.map Block.pointer).Perm (ps.erase ap)
  := by
  obtain ⟨b, hb, rfl⟩ := List.mem_map.mp (hperm.mem_iff.mpr hap)
  have hcons := List.perm_cons_erase hb
  refine ⟨b, ls.erase b, hcons, rfl, ?_⟩
  have hmap := (hcons.map Block.pointer).symm.trans hperm
  have herase := hmap.erase b.pointer
  rwa [List.map_cons, List.erase_cons_head] at herase

/-- NULL is no live pointer. -/
theorem Safe.zero_notMem {c : Client K} (h : Safe base c) :
  0 ∉ c.live
  := by
  rcases h with ⟨-, -, hlive⟩ | ⟨fs, ls, hheap, hperm⟩
  · simp [hlive]
  · intro hmem
    obtain ⟨b, hb, hpointer⟩ := List.mem_map.mp (hperm.mem_iff.mpr hmem)
    exact (hheap.good b (List.mem_append_right fs hb)).offset_ne_zero hpointer

/-- The pointers to live blocks are different. -/
theorem Safe.nodup_live {c : Client K} (h : Safe base c) :
  c.live.Nodup
  := by
  rcases h with ⟨-, -, hlive⟩ | ⟨fs, ls, hheap, hperm⟩
  · rw [hlive]
    exact List.nodup_nil
  · rw [← hperm.nodup_iff, List.Nodup, List.pairwise_map]
    apply hheap.apart.imp_of_mem
    intro b c hb hc hapart heq
    have hpos : ∀ x ∈ ls, 0 < x.size.toNat := fun x hx => (hheap.good x (List.mem_append_right _ hx)).pos
    apply hapart.addr_ne (hpos b hb) (hpos c hc)
    rw [← b.pointer_sub, ← c.pointer_sub, heq]

theorem Safe.with_kernel {c : Client K} (h : Safe base c) (k : K) :
  Safe base ⟨{ c.heap with kernel := k }, c.live⟩
  := by
  rcases h with hempty | ⟨fs, ls, hheap, hperm⟩
  · exact Or.inl hempty
  · exact Or.inr ⟨fs, ls, hheap.with_kernel k, hperm⟩

/-- A call that is allowed returns, and the heap stays safe; what `kmalloc` returns points to
enough room in a live block. -/
theorem exec_spec (hbase : base ≠ 0) {c : Client K} (h : Safe base c) {x : Call}
    (hallowed : Allowed kernel base c x) :
  ∃ n r c', exec kernel base n c x = some (r, c') ∧ Safe base c' ∧
    ∀ nbytes, x = .kmalloc nbytes → r ≠ 0 →
      ∃ fs ls, HeapOf base c'.heap fs ls ∧ (ls.map Block.pointer).Perm c'.live ∧
        ∃ b ∈ ls, r = b.pointer ∧ r.toNat + nbytes.toNat ≤ b.stop
  := by
  cases x with
  | kmalloc nbytes =>
      by_cases hzero : nbytes = 0
      · refine ⟨0, 0, c, ?_, h, ?_⟩
        · simp [exec, kmalloc, hzero]
        · intro _ _ hr
          exact absurd rfl hr
      · obtain ⟨fs, ls, hheap, hperm⟩ := initList_heapOf h hbase
        obtain ⟨n, r, s', hkmalloc, hres⟩ := kmalloc_spec kernel hbase hheap hzero hallowed.1
          hallowed.2
        use n, r
        simp only [exec, hkmalloc, Option.map_some]
        refine ⟨_, rfl, ?_⟩
        rcases hres with ⟨rfl, hheap'⟩ | ⟨fs', b, rfl, hheap', hroom⟩
        · rw [if_pos rfl]
          constructor
          · right
            exact ⟨fs, ls, hheap', hperm⟩
          · intro _ _ hr
            exact absurd rfl hr
        · have hgood := hheap'.good b (by simp)
          have hperm' : ((b :: ls).map Block.pointer).Perm (b.pointer :: c.live) := by
            rw [List.map_cons]
            apply hperm.cons
          rw [if_neg hgood.offset_ne_zero]
          constructor
          · right
            exact ⟨fs', b :: ls, hheap', hperm'⟩
          · intro m hm _
            obtain rfl : nbytes = m := by simpa using hm
            use fs', b :: ls, hheap', hperm', b, List.mem_cons_self, rfl
            rw [hgood.toNat_offset_one, Block.stop]
            omega
  | kfree ap =>
      rcases hallowed with rfl | hap
      · -- freeing `NULL` does nothing
        refine ⟨0, 0, c, ?_, h, ?_⟩
        · simp [exec, kfree, List.erase_of_not_mem h.zero_notMem]
        · intro _ hx
          cases hx
      · rcases h with ⟨-, -, hlive⟩ | ⟨fs, ls, hheap, hperm⟩
        · simp [hlive] at hap
        · obtain ⟨b, ls', hls, rfl, hperm'⟩ := exists_live_block hperm hap
          obtain ⟨n, s', fs', hkfree, hheap', -⟩ := kfree_spec (hheap.perm hls)
          refine ⟨n, 0, ⟨s', c.live.erase b.pointer⟩, ?_, Or.inr ⟨fs', ls', hheap', hperm'⟩, ?_⟩
          · rw [exec, Block.pointer, hkfree, Option.map_some]
          · intro _ hx
            cases hx

/-- A call that returns gives the same whatever the limit on its loops. -/
theorem exec_unique {n m : ℕ} {c : Client K} {x : Call} {r r' : UInt32 × Client K}
    (h : exec kernel base n c x = some r) (h' : exec kernel base m c x = some r') :
  r = r'
  := by
  cases x with
  | kmalloc nbytes =>
      simp only [exec, Option.map_eq_some_iff] at h h'
      obtain ⟨q, hq, rfl⟩ := h
      obtain ⟨q', hq', rfl⟩ := h'
      have heq := kmalloc_mono kernel hq (le_max_left n m)
      rw [kmalloc_mono kernel hq' (le_max_right n m)] at heq
      rw [Option.some.inj heq]
  | kfree ap =>
      simp only [exec, Option.map_eq_some_iff] at h h'
      obtain ⟨q, hq, rfl⟩ := h
      obtain ⟨q', hq', rfl⟩ := h'
      have heq := kfree_mono hq (le_max_left n m)
      rw [kfree_mono hq' (le_max_right n m)] at heq
      rw [Option.some.inj heq]

theorem Safe.exec (hbase : base ≠ 0) {c c' : Client K} (h : Safe base c) {x : Call}
    (hallowed : Allowed kernel base c x) {n : ℕ} {r : UInt32}
    (hexec : exec kernel base n c x = some (r, c')) :
  Safe base c'
  := by
  obtain ⟨m, r', c'', hexec', hsafe, -⟩ := exec_spec kernel hbase h hallowed
  obtain ⟨-, rfl⟩ := Prod.mk.inj (exec_unique kernel hexec hexec')
  exact hsafe

/-- What clients write to is no header. -/
theorem Payload.not_header {c : Client K} {ls : List Block} (h : HeapOf base c.heap fs ls)
    (hperm : (ls.map Block.pointer).Perm c.live) {d : Block}
    (hd : d ∈ baseBlock base :: fs ∨ d ∈ ls) :
  ¬ Payload c d.addr
  := by
  rintro ⟨p, hp, hle, hlt⟩
  obtain ⟨b, hb, rfl⟩ := List.mem_map.mp (hperm.mem_iff.mpr hp)
  have hgood := h.good b (List.mem_append_right fs hb)
  rw [Block.pointer_sub, h.sizes b hb, ← Block.stop] at hlt
  rw [Block.pointer, hgood.toNat_offset_one] at hle
  have hapart : b.Apart d := by
    rcases hd with hd | hd
    · apply (h.cross_ring hb d hd).1
    · apply h.apart.forall hb hd
      rintro rfl
      omega
  rw [Block.Apart, Block.stop, Block.stop] at hapart
  rw [Block.stop] at hlt
  omega

/-- The heap stays safe when clients write to what is live. -/
theorem Safe.write {c : Client K} (h : Safe base c) {mem : UInt32 → Header} (k : K)
    (hmem : ∀ a, ¬ Payload c a → mem a = c.heap.mem a) :
  Safe base ⟨{ c.heap with mem := mem, kernel := k }, c.live⟩
  := by
  rcases h with hempty | ⟨fs, ls, hheap, hperm⟩
  · left
    apply hempty
  · right
    refine ⟨fs, ls, ?_, hperm⟩
    constructor
    · apply hheap.linked.congr
      intro b hb
      apply hmem b.addr (Payload.not_header hheap hperm (Or.inl hb))
    · apply hheap.gapped
    · apply hheap.freep
    · intro b hb
      simp only [hmem b.addr (Payload.not_header hheap hperm (Or.inr hb)), hheap.sizes b hb]
    · apply hheap.good
    · apply hheap.apart
    · apply hheap.cross
    · apply hheap.total

/-- Every state that is reached is safe. -/
theorem Reachable.safe (hbase : base ≠ 0) {c : Client K} (h : Reachable kernel base c) :
  Safe base c
  := by
  induction h with
  | start mem k =>
      left
      exact ⟨rfl, rfl, rfl⟩
  | call hc hallowed hexec ih => exact ih.exec kernel hbase hallowed hexec
  | write mem k hc hmem ih => apply ih.write k hmem

/-- No two blocks overlap. -/
theorem HeapOf.pairwise_apart (h : HeapOf base s fs live) :
  (fs ++ live).Pairwise Block.Apart
  := by
  rw [List.pairwise_append]
  refine ⟨?_, h.apart, ?_⟩
  · apply (List.pairwise_cons.mp h.gapped).2.imp
    apply Block.Gap.apart
  · intro c hc b hb
    apply (h.cross b hb c hc).symm

/-- In every state reached by calls of `kmalloc` and `kfree`, there is no list yet and nothing
is live, or: the free blocks are linked to a ring through `base` in ascending order, with gaps
between them; no two blocks overlap; and the blocks make up all memory the heap acquired
(`HeapOf`).  Every further call returns, and when `kmalloc` does not return `NULL` it returns
the pointer to a live block with room for the bytes asked for. -/
theorem heap_safety (hbase : base ≠ 0) {c : Client K} (h : Reachable kernel base c) :
  ((c.heap.freep = 0 ∧ c.heap.acquired = [] ∧ c.live = []) ∨
    ∃ fs ls, HeapOf base c.heap fs ls ∧ (fs ++ ls).Pairwise Block.Apart ∧
      (ls.map Block.pointer).Perm c.live) ∧
    ∀ x, Allowed kernel base c x →
      (∃ n r c', exec kernel base n c x = some (r, c')) ∧
      ∀ n r c', exec kernel base n c x = some (r, c') → Safe base c' ∧
        ∀ nbytes, x = .kmalloc nbytes → r ≠ 0 →
          ∃ fs ls, HeapOf base c'.heap fs ls ∧ (ls.map Block.pointer).Perm c'.live ∧
            ∃ b ∈ ls, r = b.pointer ∧ r.toNat + nbytes.toNat ≤ b.stop
  := by
  have hsafe := h.safe kernel hbase
  constructor
  · rcases hsafe with hempty | ⟨fs, ls, hheap, hperm⟩
    · left
      apply hempty
    · right
      exact ⟨fs, ls, hheap, hheap.pairwise_apart, hperm⟩
  · intro x hallowed
    obtain ⟨n, r, c', hexec, hsafe', hroom⟩ := exec_spec kernel hbase hsafe hallowed
    constructor
    · exact ⟨n, r, c', hexec⟩
    · intro m r' c'' hexec'
      obtain ⟨rfl, rfl⟩ := Prod.mk.inj (exec_unique kernel hexec hexec')
      exact ⟨hsafe', hroom⟩

/-- A kernel that gives the heap memory at `0xD0000000`. -/
def oneRegion : Kernel Unit where
  pfaAllocate := fun _ k => (0x400000, k)
  pdtKernelFindNextVaddr := fun _ k => (0xD0000000, k)
  pdtMapKernelMemory := fun _ _ size k => (size, k)
  contents := fun _ _ => ⟨0, 0⟩

/-- The heap before its first call. -/
def emptyHeap : Client Unit :=
  ⟨⟨fun _ => ⟨0, 0⟩, 0, [], ()⟩, []⟩

theorem allowed_emptyHeap :
  Allowed oneRegion 0xC0100000 emptyHeap (.kmalloc 100)
  := by
  refine ⟨by decide, ?_⟩
  intro vaddr k h
  have hvaddr : backing oneRegion (unitsFor 100) () = (some 0xD0000000, ()) := rfl
  obtain rfl : 0xD0000000 = vaddr := by
    simpa using congrArg Prod.fst (hvaddr.symm.trans h)
  constructor
  · decide
  · decide
  · decide
  · intro r hr
    simp [emptyHeap] at hr

/-- The first 100 bytes come from the tail end of the first region. -/
theorem heap_safety_emptyHeap :
  (exec oneRegion 0xC0100000 3 emptyHeap (.kmalloc 100)).map Prod.fst = some 0xD0001F98 ∧
    ∀ n r c', exec oneRegion 0xC0100000 n emptyHeap (.kmalloc 100) = some (r, c') →
      Safe 0xC0100000 c'
  := by
  refine ⟨rfl, ?_⟩
  intro n r c' hexec
  have hreach : Reachable oneRegion 0xC0100000 emptyHeap := Reachable.start _ ()
  apply (((heap_safety oneRegion (by decide) hreach).2 _ allowed_emptyHeap).2 n r c' hexec).1

end Kmalloc
