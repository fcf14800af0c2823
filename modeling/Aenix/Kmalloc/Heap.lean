import Aenix.Kmalloc.FreeList

/-!
# The invariant of the heap

`HeapOf base s fs live` says that the heap `s` consists of the free blocks `fs` and the live
blocks `live`.  Freeing a live block, which is what `kfree` does for a client and for memory
that the heap acquires, keeps it: the loop of `kfree` finds the block of the ring below the
freed one, wherever it starts.
-/

open Aenix

namespace Kmalloc

variable {K : Type}

/-- The block of the static header `base`. -/
def baseBlock (base : UInt32) : Block :=
  ⟨base, 0⟩

@[simp]
theorem addr_baseBlock (base : UInt32) :
  (baseBlock base).addr = base
  := rfl

@[simp]
theorem size_baseBlock (base : UInt32) :
  (baseBlock base).size = 0
  := rfl

/-- A block in the memory of the heap. -/
structure Block.Good (base : UInt32) (acquired : List Frames.Region) (b : Block) : Prop where
  pos : 0 < b.size.toNat
  aligned : 8 ∣ b.addr.toNat
  above : base.toNat + 8 ≤ b.addr.toNat
  below : b.stop < 2 ^ 32
  covered : ∀ x, b.Contains x → ∃ r ∈ acquired, r.Contains x

/-- The heap consists of the free blocks `fs` and the live blocks `live`. -/
structure HeapOf (base : UInt32) (s : Heap K) (fs live : List Block) : Prop where
  linked : Linked s.mem base (baseBlock base :: fs)
  gapped : (baseBlock base :: fs).Pairwise Block.Gap
  freep : ∃ f ∈ baseBlock base :: fs, s.freep = f.addr
  sizes : ∀ b ∈ live, (s.mem b.addr).size = b.size
  good : ∀ b ∈ fs ++ live, b.Good base s.acquired
  apart : live.Pairwise Block.Apart
  cross : ∀ b ∈ live, ∀ c ∈ fs, b.Apart c
  total : 8 * ((fs ++ live).map fun b => b.size.toNat).sum = (s.acquired.map Frames.Region.len).sum

variable {base : UInt32} {s : Heap K} {fs live : List Block} {b c : Block}

theorem Block.Good.join {acquired : List Frames.Region} (hb : b.Good base acquired)
    (hc : c.Good base acquired) (h : b.stop = c.addr.toNat) :
  (b.join c).Good base acquired
  := by
  have hsize := Block.size_join h hc.below
  have hstop := Block.stop_join h hc.below
  constructor
  · rw [hsize]
    have := hb.pos
    omega
  · apply hb.aligned
  · apply hb.above
  · rw [hstop]
    apply hc.below
  · rintro x ⟨hx, hlt⟩
    rw [hstop] at hlt
    rcases Nat.lt_or_ge x b.stop with hxb | hxb
    · apply hb.covered x ⟨hx, hxb⟩
    · apply hc.covered x ⟨by omega, hlt⟩

theorem stop_baseBlock :
  (baseBlock base).stop = base.toNat
  := by
  simp [baseBlock, Block.stop]

theorem Block.Good.base_gap {acquired : List Frames.Region} (h : b.Good base acquired) :
  (baseBlock base).Gap b
  := by
  have := h.above
  rw [Block.Gap, stop_baseBlock]
  omega

theorem HeapOf.stop_lt (h : HeapOf base s fs live) :
  ∀ c ∈ baseBlock base :: fs, c.stop < 2 ^ 32
  := by
  rw [List.forall_mem_cons]
  constructor
  · rw [stop_baseBlock]
    apply base.toNat_lt
  · intro c hc
    apply (h.good c (List.mem_append_left live hc)).below

/-- A live block is apart from every block of the ring, and its header is not one of theirs. -/
theorem HeapOf.cross_ring (h : HeapOf base s fs live) (hb : b ∈ live) :
  ∀ c ∈ baseBlock base :: fs, b.Apart c ∧ b.addr ≠ c.addr
  := by
  have hgood := h.good b (List.mem_append_right fs hb)
  rw [List.forall_mem_cons]
  constructor
  · refine ⟨hgood.base_gap.apart.symm, ?_⟩
    intro heq
    have habove := hgood.above
    rw [heq, addr_baseBlock] at habove
    omega
  · intro c hc
    have hapart := h.cross b hb c hc
    refine ⟨hapart, ?_⟩
    apply hapart.addr_ne hgood.pos
    apply (h.good c (List.mem_append_left live hc)).pos

/-! ### The loop of `kfree` -/

section Search

variable {mem : UInt32 → Header} {bp q : UInt32} {p : Block} {pre post : List Block}

/-- A loop that follows the links of some blocks gets past them. -/
theorem Linked.walk {ρ : Type} {body : UInt32 → UInt32 ⊕ ρ} {bs : List Block}
    (h : Linked mem q bs) (hbody : ∀ b ∈ bs, body b.addr = .inl (mem b.addr).next) (n : ℕ) :
  Loop.run body (bs.length + n) (first q bs) = Loop.run body n q
  := by
  induction bs with
  | nil => rw [first, List.length_nil, Nat.zero_add]
  | cons b bs ih =>
      rw [List.forall_mem_cons] at hbody
      have hlen : (b :: bs).length + n = bs.length + n + 1 := by
        rw [List.length_cons]
        omega
      rw [hlen, first, Loop.run_continue hbody.1, h.1]
      apply ih h.2 hbody.2

/-- A block is linked to a later one, or to the end. -/
theorem Linked.next_eq {bs : List Block} (h : Linked mem q bs)
    (hasc : bs.Pairwise fun c d => c.addr < d.addr) (hb : b ∈ bs) :
  (mem b.addr).next = q ∨ ∃ c ∈ bs, b.addr < c.addr ∧ (mem b.addr).next = c.addr
  := by
  induction bs with
  | nil => simp at hb
  | cons c bs ih =>
      obtain ⟨hc, hbs⟩ := List.pairwise_cons.mp hasc
      rcases List.mem_cons.mp hb with rfl | hb
      · cases bs with
        | nil =>
            left
            rw [h.1, first]
        | cons d bs =>
            right
            use d, by simp, hc d List.mem_cons_self
            rw [h.1, first]
      · rcases ih h.2 hbs hb with hq | ⟨d, hd, hlt, hnext⟩
        · left
          apply hq
        · right
          exact ⟨d, List.mem_cons_of_mem c hd, hlt, hnext⟩

/-- The ring of `kfree`, cut at the block `p` below `bp`. -/
structure Cut (mem : UInt32 → Header) (base bp : UInt32) (pre : List Block) (p : Block)
    (post : List Block) : Prop where
  linkedPre : Linked mem p.addr pre
  linkedPost : Linked mem base (p :: post)
  start : first p.addr pre = base
  ascending : (pre ++ p :: post).Pairwise fun c d => c.addr < d.addr
  below : p.addr < bp
  above : ∀ c ∈ post, bp < c.addr

theorem Cut.pre_lt (h : Cut mem base bp pre p post) :
  ∀ c ∈ pre, c.addr < p.addr
  := by
  obtain ⟨-, -, hpre⟩ := List.pairwise_append.mp h.ascending
  intro c hc
  apply hpre c hc p List.mem_cons_self

theorem Cut.base_le (h : Cut mem base bp pre p post) :
  base ≤ p.addr
  := by
  rw [← h.start]
  cases pre with
  | nil => apply UInt32.le_refl
  | cons c pre => apply UInt32.le_of_lt (h.pre_lt c List.mem_cons_self)

/-- At the block below `bp` the loop is left. -/
theorem Cut.leave (h : Cut mem base bp pre p post) :
  kfreeBody mem bp p.addr = .inr p.addr
  := by
  have hlt := h.below
  have hnext : (mem p.addr).next = first base post := by rw [h.linkedPost.1]
  cases post with
  | nil =>
      have hle : p.addr ≥ (mem p.addr).next := by
        rw [hnext]
        apply h.base_le
      rw [kfreeBody]
      split
      · rfl
      · rw [if_pos ⟨hle, Or.inl hlt⟩]
  | cons c post =>
      have hgt : bp < (mem p.addr).next := by
        rw [hnext]
        apply h.above c List.mem_cons_self
      rw [kfreeBody, if_pos ⟨hlt, hgt⟩]

/-- Blocks before `p` are passed. -/
theorem Cut.pass_pre (h : Cut mem base bp pre p post) :
  ∀ c ∈ pre, kfreeBody mem bp c.addr = .inl (mem c.addr).next
  := by
  intro c hc
  obtain ⟨hpre, -, -⟩ := List.pairwise_append.mp h.ascending
  have hbelow := h.below
  have hnext : c.addr < (mem c.addr).next ∧ (mem c.addr).next < bp := by
    rcases h.linkedPre.next_eq hpre hc with hp | ⟨d, hd, hlt, hd'⟩
    · rw [hp]
      exact ⟨h.pre_lt c hc, hbelow⟩
    · rw [hd']
      exact ⟨hlt, UInt32.lt_trans (h.pre_lt d hd) hbelow⟩
  rw [kfreeBody, if_neg (by grind), if_neg (by grind)]

/-- Blocks after `p` are passed. -/
theorem Cut.pass_post (h : Cut mem base bp pre p post) :
  ∀ c ∈ post, kfreeBody mem bp c.addr = .inl (mem c.addr).next
  := by
  intro c hc
  obtain ⟨-, hpost, -⟩ := List.pairwise_append.mp h.ascending
  have habove := h.above c hc
  have hbase := UInt32.lt_of_le_of_lt h.base_le h.below
  have hnext : c.addr < (mem c.addr).next ∨ (mem c.addr).next = base := by
    rcases h.linkedPost.2.next_eq (List.pairwise_cons.mp hpost).2 hc with hq | ⟨d, hd, hlt, hd'⟩
    · right
      apply hq
    · left
      rwa [hd']
  rw [kfreeBody, if_neg (by grind), if_neg (by grind)]

/-- Wherever it starts, the loop of `kfree` stops at the block below `bp`. -/
theorem Cut.returns (h : Cut mem base bp pre p post) {f : Block} (hf : f ∈ pre ++ p :: post) :
  Loop.Returns (kfreeBody mem bp) f.addr p.addr
  := by
  have hend : ∀ n, Loop.run (kfreeBody mem bp) (n + 1) p.addr = some p.addr :=
    Loop.run_leave h.leave
  rcases List.mem_append.mp hf with hpre | hpost
  · obtain ⟨as, bs, rfl⟩ := List.append_of_mem hpre
    have hwalk := (linked_append.mp h.linkedPre).2.walk (fun c hc =>
      h.pass_pre c (List.mem_append_right as hc)) 1
    use (f :: bs).length + 1
    exact hwalk.trans (hend 0)
  · rcases List.mem_cons.mp hpost with rfl | hpost
    · use 1
      apply hend
    · obtain ⟨as, bs, rfl⟩ := List.append_of_mem hpost
      have hwalk := (linked_append.mp h.linkedPost.2).2.walk (fun c hc =>
        h.pass_post c (List.mem_append_right as hc)) (pre.length + 1)
      have hwalk' := h.linkedPre.walk h.pass_pre 1
      rw [h.start] at hwalk'
      use (f :: bs).length + (pre.length + 1)
      exact hwalk.trans (hwalk'.trans (hend 0))

end Search

/-! ### Freeing a block -/

/-- Ascending blocks of which the first lies below `bp` are cut at the last such block. -/
theorem exists_cut {bp : UInt32} {bs : List Block} (hb : b.addr < bp)
    (hasc : (b :: bs).Pairwise fun c d => c.addr < d.addr) (hne : ∀ c ∈ bs, c.addr ≠ bp) :
  ∃ pre p post, b :: bs = pre ++ p :: post ∧ p.addr < bp ∧ ∀ c ∈ post, bp < c.addr
  := by
  induction bs generalizing b with
  | nil =>
      use [], b, [], rfl, hb
      simp
  | cons c bs ih =>
      rw [List.forall_mem_cons] at hne
      obtain ⟨-, hasc⟩ := List.pairwise_cons.mp hasc
      by_cases hc : c.addr < bp
      · obtain ⟨pre, p, post, heq, hp, hpost⟩ := ih hc hasc hne.2
        use b :: pre, p, post
        rw [heq]
        exact ⟨rfl, hp, hpost⟩
      · have hlt : bp < c.addr :=
          UInt32.lt_of_le_of_ne (UInt32.not_lt.mp hc) (Ne.symm hne.1)
        use [], b, c :: bs, rfl, hb
        rw [List.forall_mem_cons]
        refine ⟨hlt, ?_⟩
        intro d hd
        apply UInt32.lt_trans hlt
        apply (List.pairwise_cons.mp hasc).1 d hd

theorem ascending_of_gapped {bs : List Block} (h : bs.Pairwise Block.Gap) :
  bs.Pairwise fun c d => c.addr < d.addr
  := by
  apply h.imp
  intro c d hcd
  rw [UInt32.lt_iff_toNat_lt]
  simp only [Block.Gap, Block.stop] at hcd
  omega

/-- A heap is given by its ring and its live blocks. -/
theorem HeapOf.of_ring {ring : List Block} (hhead : ring.head? = some (baseBlock base))
    (hlinked : Linked s.mem base ring) (hgapped : ring.Pairwise Block.Gap)
    (hfreep : ∃ f ∈ ring, s.freep = f.addr) (hsizes : ∀ b ∈ live, (s.mem b.addr).size = b.size)
    (hring : ∀ b ∈ ring, b = baseBlock base ∨ b.Good base s.acquired)
    (hgood : ∀ b ∈ live, b.Good base s.acquired) (hapart : live.Pairwise Block.Apart)
    (hcross : ∀ b ∈ live, ∀ c ∈ ring, b.Apart c)
    (htotal : 8 * ((ring ++ live).map fun b => b.size.toNat).sum
      = (s.acquired.map Frames.Region.len).sum) :
  ∃ fs, ring = baseBlock base :: fs ∧ HeapOf base s fs live
  := by
  cases ring with
  | nil => simp at hhead
  | cons c fs =>
      obtain rfl : c = baseBlock base := by simpa using hhead
      use fs, rfl
      constructor
      · apply hlinked
      · apply hgapped
      · apply hfreep
      · apply hsizes
      · intro b hb
        rcases List.mem_append.mp hb with hfs | hlive
        · rcases hring b (List.mem_cons_of_mem _ hfs) with rfl | hb
          · have hgap := (List.pairwise_cons.mp hgapped).1 _ hfs
            rw [Block.Gap, stop_baseBlock, addr_baseBlock] at hgap
            omega
          · apply hb
        · apply hgood b hlive
      · apply hapart
      · intro b hb c hc
        apply hcross b hb c (List.mem_cons_of_mem _ hc)
      · simpa [baseBlock] using htotal

/-- The place of a live block in the ring. -/
theorem HeapOf.exists_between (h : HeapOf base s fs (b :: live)) :
  ∃ pre p post, baseBlock base :: fs = pre ++ p :: post ∧ Between p b post ∧
    Cut s.mem base b.addr pre p post
  := by
  have hb := h.good b (by simp)
  have hring := h.cross_ring List.mem_cons_self
  have hbase : (baseBlock base).addr < b.addr := by
    have := hb.above
    rw [UInt32.lt_iff_toNat_lt, addr_baseBlock]
    omega
  obtain ⟨pre, p, post, hcut, hp, hpost⟩ := exists_cut hbase (ascending_of_gapped h.gapped)
    fun c hc => (hring c (List.mem_cons_of_mem _ hc)).2.symm
  have hlinked := h.linked
  have hgapped := h.gapped
  have hstops := h.stop_lt
  rw [hcut] at hlinked hgapped hring hstops
  obtain ⟨hpre, hpp⟩ := linked_append.mp hlinked
  use pre, p, post, hcut
  constructor
  · constructor
    · have hapart := (hring p (by simp)).1
      rw [UInt32.lt_iff_toNat_lt] at hp
      simp only [Block.Apart, Block.stop] at hapart ⊢
      omega
    · intro c hc
      have hapart := (hring c (by simp [hc])).1
      have hlt := hpost c hc
      rw [UInt32.lt_iff_toNat_lt] at hlt
      simp only [Block.Apart, Block.stop] at hapart ⊢
      omega
    · apply hb.below
    · intro c hc
      apply hstops c
      simp [hc]
    · apply (List.pairwise_cons.mp (List.pairwise_append.mp hgapped).2.1).2
  · constructor
    · apply hpre
    · apply hpp
    · have hfirst := congrArg (first base) hcut
      rw [first_append] at hfirst
      apply hfirst.symm
    · apply ascending_of_gapped hgapped
    · apply hp
    · apply hpost

/-- The memory after `kfree` has found the place of the block holds the ring with the block
inserted, and no header outside of the ring has changed. -/
theorem Cut.joined {mem : UInt32 → Header} {pre post : List Block} {p : Block}
    (h : Cut mem base b.addr pre p post) (hbetween : Between p b post)
    (hsize : (mem b.addr).size = b.size) :
  Linked (joinLower (joinUpper mem b.addr p.addr) b.addr p.addr) base
      (pre ++ insertBetween p b post) ∧
    ∀ a, a ≠ b.addr → a ≠ p.addr →
      joinLower (joinUpper mem b.addr p.addr) b.addr p.addr a = mem a
  := by
  have hpb := UInt32.ne_of_lt h.below
  obtain ⟨hp, hpost⟩ := h.linkedPost
  have hppost := (List.pairwise_cons.mp (List.pairwise_append.mp h.ascending).2.1).1
  obtain ⟨hupper, hsame⟩ := joinUpper_linked hpb (by rw [hp]) hsize hpost
    (fun c hc => (UInt32.ne_of_lt (h.above c hc)).symm) hbetween.below (by
      have hbase := UInt32.le_iff_toNat_le.mp h.base_le
      have hlt := UInt32.lt_iff_toNat_lt.mp h.below
      rw [Block.stop]
      omega)
  have hmem_p : joinUpper mem b.addr p.addr p.addr = mem p.addr := hsame p.addr hpb
  have hne : ∀ c ∈ push b post, c.addr ≠ p.addr := by
    intro c hc heq
    have hle := addr_le_of_mem_push hbetween.upper c hc
    have hlt := UInt32.lt_iff_toNat_lt.mp h.below
    rw [heq] at hle
    omega
  have hstop : p.stop < 2 ^ 32 := hbetween.lower.trans_lt b.addr.toNat_lt
  obtain ⟨n, ds, hpush⟩ := push_eq_cons b post
  rw [hpush] at hupper hne
  obtain ⟨hlower, hsame'⟩ := joinLower_linked (by rw [hmem_p, hp]) hupper hne hstop
  rw [← hpush] at hlower
  have hall : ∀ a, a ≠ b.addr → a ≠ p.addr →
      joinLower (joinUpper mem b.addr p.addr) b.addr p.addr a = mem a := by
    intro a hab hap
    exact (hsame' a hap).trans (hsame a hab)
  refine ⟨?_, hall⟩
  rw [linked_append]
  refine ⟨?_, hlower⟩
  rw [insertBetween, first_push]
  apply h.linkedPre.congr
  intro c hc
  have hlt := h.pre_lt c hc
  apply hall
  · apply UInt32.ne_of_lt (UInt32.lt_trans hlt h.below)
  · apply UInt32.ne_of_lt hlt

/-- The first block of the ring stays the one of `base`. -/
theorem Between.head?_eq {pre post : List Block} {p : Block} (h : Between p b post)
    (hb : (baseBlock base).Gap b) (hcut : baseBlock base :: fs = pre ++ p :: post) :
  (pre ++ insertBetween p b post).head? = some (baseBlock base)
  := by
  cases pre with
  | nil =>
      obtain ⟨rfl, -⟩ := List.cons.inj hcut
      obtain ⟨n, ds, hpush⟩ := push_eq_cons b post
      rw [List.nil_append, insertBetween, hpush, push, if_neg (Nat.ne_of_lt hb), List.head?_cons]
  | cons c pre =>
      obtain ⟨rfl, -⟩ := List.cons.inj hcut
      rw [List.cons_append, List.head?_cons]

/-- The blocks of the ring, and adjacent ones as one, are blocks of the heap. -/
theorem eq_baseBlock_or_good_join {acquired : List Frames.Region}
    (hb : b = baseBlock base ∨ b.Good base acquired)
    (hc : c = baseBlock base ∨ c.Good base acquired) (h : b.stop = c.addr.toNat) :
  b.join c = baseBlock base ∨ (b.join c).Good base acquired
  := by
  rcases hb with rfl | hb
  · rcases hc with rfl | hc
    · left
      rfl
    · exact absurd h (Nat.ne_of_lt hc.base_gap)
  · rcases hc with rfl | hc
    · have habove := hb.above
      rw [Block.stop, addr_baseBlock] at h
      omega
    · right
      apply hb.join hc h

theorem offset_one_sub (p : UInt32) :
  offset p 1 - headerSize = p
  := by
  rw [offset, headerSize]
  grind

theorem Block.Good.toNat_offset_one {acquired : List Frames.Region} (h : b.Good base acquired) :
  (offset b.addr 1).toNat = b.addr.toNat + 8
  := by
  have hpos := h.pos
  have hbelow := h.below
  rw [Block.stop] at hbelow
  rw [toNat_offset (by simp; omega)]
  simp

theorem Block.Good.offset_ne_zero {acquired : List Frames.Region} (h : b.Good base acquired) :
  offset b.addr 1 ≠ 0
  := by
  intro hzero
  have hoffset := h.toNat_offset_one
  rw [hzero, UInt32.toNat_zero] at hoffset
  omega

/-- `kfree` of the live block `b` returns, and the block is free. -/
theorem kfree_spec (h : HeapOf base s fs (b :: live)) :
  ∃ n s' fs', kfree n s (offset b.addr 1) = some s' ∧ HeapOf base s' fs' live ∧
    s'.acquired = s.acquired ∧ s'.kernel = s.kernel ∧
    ∃ d ∈ fs', b.size.toNat ≤ d.size.toNat
  := by
  have hb := h.good b (by simp)
  obtain ⟨pre, p, post, hcut, hbetween, hsearch⟩ := h.exists_between
  obtain ⟨hlinked, hsame⟩ := hsearch.joined hbetween (h.sizes b List.mem_cons_self)
  obtain ⟨f, hf, hfreep⟩ := h.freep
  obtain ⟨n, hn⟩ := hsearch.returns (hcut ▸ hf)
  have hgapped := h.gapped
  have htotal := h.total
  rw [hcut] at hgapped
  obtain ⟨hpre, -, hprepost⟩ := List.pairwise_append.mp hgapped
  obtain ⟨hapart_b, hapart⟩ := List.pairwise_cons.mp h.apart
  have hp : p ∈ baseBlock base :: fs := by simp [hcut]
  have hlive : ∀ x ∈ live, x.Good base s.acquired := fun x hx => h.good x (by simp [hx])
  obtain ⟨fs', hring, hheap⟩ : ∃ fs', pre ++ insertBetween p b post = baseBlock base :: fs' ∧
      HeapOf base { s with
        mem := joinLower (joinUpper s.mem b.addr p.addr) b.addr p.addr
        freep := p.addr } fs' live := by
    apply HeapOf.of_ring
    case hhead => apply hbetween.head?_eq hb.base_gap hcut
    case hlinked => apply hlinked
    case hgapped =>
      rw [List.pairwise_append]
      refine ⟨hpre, hbetween.pairwise, ?_⟩
      intro c hc d hd
      apply Nat.lt_of_lt_of_le (hprepost c hc p List.mem_cons_self) (hbetween.addr_le d hd)
    case hfreep =>
      obtain ⟨k, ds, hpush⟩ := push_eq_cons p (push b post)
      use ⟨p.addr, k⟩
      rw [insertBetween, hpush]
      simp
    case hsizes =>
      intro x hx
      have hxb := (hapart_b x hx).addr_ne hb.pos (hlive x hx).pos
      have hxp := h.cross_ring (List.mem_cons_of_mem b hx) p hp
      exact (congrArg Header.size (hsame x.addr hxb.symm hxp.2)).trans
        (h.sizes x (List.mem_cons_of_mem b hx))
    case hring =>
      apply hbetween.forall_mem (P := fun c => c = baseBlock base ∨ c.Good base s.acquired) _
        (Or.inr hb)
      · intro c d hc hd heq _
        apply eq_baseBlock_or_good_join hc hd heq
      · rw [← hcut, List.forall_mem_cons]
        refine ⟨Or.inl rfl, ?_⟩
        intro c hc
        right
        apply h.good c (List.mem_append_left _ hc)
    case hgood => apply hlive
    case hapart => apply hapart
    case hcross =>
      intro x hx
      apply hbetween.forall_mem (P := x.Apart) _ (hapart_b x hx).symm
      · intro c d hc hd heq hstop
        apply hc.join (hlive x hx).pos hd heq hstop
      · rw [← hcut]
        intro c hc
        apply (h.cross_ring (List.mem_cons_of_mem b hx) c hc).1
    case htotal =>
      have hsum := congrArg (fun l => (l.map fun c => c.size.toNat).sum) hcut
      simp only [List.map_append, List.map_cons, List.sum_append, List.sum_cons,
        size_baseBlock, UInt32.toNat_zero] at hsum htotal ⊢
      rw [hbetween.sum]
      omega
  refine ⟨n, _, fs', ?_, hheap, rfl, rfl, ?_⟩
  · rw [kfree, if_neg hb.offset_ne_zero]
    simp only [offset_one_sub, hfreep, hn, Option.map_some]
  · obtain ⟨d, hd, hle⟩ := hbetween.exists_le_size
    have hmem : d ∈ baseBlock base :: fs' := by
      rw [← hring]
      apply List.mem_append_right pre hd
    rcases List.mem_cons.mp hmem with rfl | hmem
    · have hpos := hb.pos
      rw [size_baseBlock, UInt32.toNat_zero] at hle
      omega
    · exact ⟨d, hmem, hle⟩

end Kmalloc
