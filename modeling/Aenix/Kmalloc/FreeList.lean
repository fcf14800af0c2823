import Aenix.Kmalloc.Basic

/-!
# The free list

The blocks of the free list ascend in address, and between two of them there is always a gap:
`kfree` joins a block to its neighbours, which on the list of blocks is `push`.  In memory
the blocks are linked in order, and the last one is linked to `base` (`Linked`).
-/

open Aenix

namespace Kmalloc

/-! ### Blocks -/

/-- A block: the address of its header, and its size in units. -/
structure Block where
  addr : UInt32
  size : UInt32
  deriving DecidableEq, Repr

/-- The end of the block. -/
def Block.stop (b : Block) : ℕ :=
  b.addr.toNat + 8 * b.size.toNat

/-- The address lies in the block. -/
def Block.Contains (b : Block) (x : ℕ) : Prop :=
  b.addr.toNat ≤ x ∧ x < b.stop

/-- The blocks do not overlap. -/
def Block.Apart (b c : Block) : Prop :=
  b.stop ≤ c.addr.toNat ∨ c.stop ≤ b.addr.toNat

/-- The first block lies below the second, and they are not adjacent. -/
def Block.Gap (b c : Block) : Prop :=
  b.stop < c.addr.toNat

/-- The blocks as one. -/
def Block.join (b c : Block) : Block :=
  ⟨b.addr, b.size + c.size⟩

/-- A block in front of others, joined to the first of them when they are adjacent. -/
def push (b : Block) : List Block → List Block
  | [] => [b]
  | c :: cs => if b.stop = c.addr.toNat then b.join c :: cs else b :: c :: cs

variable {b c : Block} {cs : List Block}

theorem Block.Apart.symm (h : b.Apart c) :
  c.Apart b
  := Or.symm h

instance : Std.Symm Block.Apart :=
  ⟨fun _ _ => Block.Apart.symm⟩

theorem Block.Apart.addr_ne (h : b.Apart c) (hb : 0 < b.size.toNat) (hc : 0 < c.size.toNat) :
  b.addr ≠ c.addr
  := by
  intro heq
  simp only [Block.Apart, Block.stop, heq] at h
  omega

theorem Block.Gap.apart (h : b.Gap c) :
  b.Apart c
  := Or.inl (Nat.le_of_lt h)

theorem Block.size_join (h : b.stop = c.addr.toNat) (hc : c.stop < 2 ^ 32) :
  (b.join c).size.toNat = b.size.toNat + c.size.toNat
  := by
  simp only [Block.join, Block.stop, UInt32.toNat_add] at h hc ⊢
  omega

theorem Block.stop_join (h : b.stop = c.addr.toNat) (hc : c.stop < 2 ^ 32) :
  (b.join c).stop = c.stop
  := by
  have hsize := Block.size_join h hc
  simp only [Block.stop, Block.join] at h hsize ⊢
  omega

/-- A block that overlaps neither of two adjacent blocks does not overlap them as one. -/
theorem Block.Apart.join {x : Block} (hx : 0 < x.size.toNat) (hb : x.Apart b) (hc : x.Apart c)
    (h : b.stop = c.addr.toNat) (hstop : c.stop < 2 ^ 32) :
  x.Apart (b.join c)
  := by
  have hjoin := Block.stop_join h hstop
  rw [Block.Apart, hjoin, Block.join]
  simp only [Block.Apart, Block.stop] at hb hc h ⊢
  omega

/-- The first block after `push` has the address of the block that was added. -/
theorem push_eq_cons (b : Block) (cs : List Block) :
  ∃ n ds, push b cs = ⟨b.addr, n⟩ :: ds
  := by
  cases cs with
  | nil => exact ⟨b.size, [], rfl⟩
  | cons c cs =>
      rw [push]
      split
      · exact ⟨b.size + c.size, cs, rfl⟩
      · exact ⟨b.size, c :: cs, rfl⟩

/-- What holds of a block and of those after it, and is kept by joining, holds after `push`. -/
theorem forall_push {P : Block → Prop} (hb : P b) (hcs : ∀ c ∈ cs, P c)
    (hjoin : ∀ c ∈ cs, b.stop = c.addr.toNat → P (b.join c)) :
  ∀ d ∈ push b cs, P d
  := by
  cases cs with
  | nil => simpa [push] using hb
  | cons c cs =>
      rw [List.forall_mem_cons] at hcs
      rw [push]
      split
      case isTrue h =>
        rw [List.forall_mem_cons]
        exact ⟨hjoin c List.mem_cons_self h, hcs.2⟩
      case isFalse h =>
        rw [List.forall_mem_cons, List.forall_mem_cons]
        exact ⟨hb, hcs⟩

/-- `push` keeps the gaps between blocks. -/
theorem push_pairwise (hb : ∀ c ∈ cs, b.stop ≤ c.addr.toNat) (hstop : ∀ c ∈ cs, c.stop < 2 ^ 32)
    (hcs : cs.Pairwise Block.Gap) :
  (push b cs).Pairwise Block.Gap
  := by
  cases cs with
  | nil => simp [push]
  | cons c cs =>
      obtain ⟨hc, hcs'⟩ := List.pairwise_cons.mp hcs
      rw [push]
      split
      case isTrue h =>
        apply List.Pairwise.cons _ hcs'
        intro d hd
        rw [Block.Gap, Block.stop_join h (hstop c List.mem_cons_self)]
        apply hc d hd
      case isFalse h =>
        have hlt : b.stop < c.addr.toNat :=
          Nat.lt_of_le_of_ne (hb c List.mem_cons_self) h
        apply List.Pairwise.cons _ hcs
        intro d hd
        rcases List.mem_cons.mp hd with rfl | hd
        · apply hlt
        · have hgap := hc d hd
          simp only [Block.Gap, Block.stop] at hgap hlt ⊢
          omega

/-- `push` puts nothing below the block. -/
theorem addr_le_of_mem_push (hb : ∀ c ∈ cs, b.stop ≤ c.addr.toNat) :
  ∀ d ∈ push b cs, b.addr.toNat ≤ d.addr.toNat
  := by
  apply forall_push
  · apply le_rfl
  · intro c hc
    have := hb c hc
    rw [Block.stop] at this
    omega
  · intro c hc h
    apply le_rfl

theorem sum_push (hstop : ∀ c ∈ cs, c.stop < 2 ^ 32) :
  ((push b cs).map fun c => c.size.toNat).sum
    = b.size.toNat + (cs.map fun c => c.size.toNat).sum
  := by
  cases cs with
  | nil => simp [push]
  | cons c cs =>
      rw [push]
      split
      case isTrue h =>
        rw [List.map_cons, List.sum_cons, Block.size_join h (hstop c List.mem_cons_self),
          List.map_cons, List.sum_cons, Nat.add_assoc]
      case isFalse h => simp

/-- Some block after `push` is at least as large as the one that was added. -/
theorem exists_le_size_push (hstop : ∀ c ∈ cs, c.stop < 2 ^ 32) :
  ∃ d ∈ push b cs, b.size.toNat ≤ d.size.toNat
  := by
  cases cs with
  | nil => simp [push]
  | cons c cs =>
      rw [push]
      split
      case isTrue h =>
        use b.join c, List.mem_cons_self
        rw [Block.size_join h (hstop c List.mem_cons_self)]
        omega
      case isFalse h => exact ⟨b, List.mem_cons_self, le_rfl⟩

/-- Joining keeps a block that is large enough. -/
theorem exists_le_size_of_push {n : ℕ} (hstop : ∀ c ∈ cs, c.stop < 2 ^ 32)
    (h : ∃ d ∈ cs, n ≤ d.size.toNat) :
  ∃ d ∈ push b cs, n ≤ d.size.toNat
  := by
  obtain ⟨d, hd, hn⟩ := h
  cases cs with
  | nil => simp at hd
  | cons c cs =>
      rw [push]
      split
      case isTrue h =>
        rcases List.mem_cons.mp hd with rfl | hd
        · use b.join d, List.mem_cons_self
          rw [Block.size_join h (hstop d List.mem_cons_self)]
          omega
        · exact ⟨d, List.mem_cons_of_mem _ hd, hn⟩
      case isFalse h => exact ⟨d, List.mem_cons_of_mem _ hd, hn⟩

/-! ### Inserting a block -/

/-- The block `b` between the block `p` and the blocks `post`, joined to its neighbours. -/
def insertBetween (p b : Block) (post : List Block) : List Block :=
  push p (push b post)

variable {p : Block} {post : List Block}

/-- The block `b` has room between `p` and `post`. -/
structure Between (p b : Block) (post : List Block) : Prop where
  lower : p.stop ≤ b.addr.toNat
  upper : ∀ c ∈ post, b.stop ≤ c.addr.toNat
  below : b.stop < 2 ^ 32
  stops : ∀ c ∈ post, c.stop < 2 ^ 32
  gapped : post.Pairwise Block.Gap

theorem Between.lower_push (h : Between p b post) :
  ∀ d ∈ push b post, p.stop ≤ d.addr.toNat
  := by
  intro d hd
  apply h.lower.trans
  apply addr_le_of_mem_push h.upper d hd

theorem Between.stops_push (h : Between p b post) :
  ∀ d ∈ push b post, d.stop < 2 ^ 32
  := by
  apply forall_push h.below h.stops
  intro c hc hjoin
  rw [Block.stop_join hjoin (h.stops c hc)]
  apply h.stops c hc

theorem Between.pairwise (h : Between p b post) :
  (insertBetween p b post).Pairwise Block.Gap
  := by
  apply push_pairwise h.lower_push h.stops_push
  apply push_pairwise h.upper h.stops h.gapped

theorem Between.addr_le (h : Between p b post) :
  ∀ d ∈ insertBetween p b post, p.addr.toNat ≤ d.addr.toNat
  := addr_le_of_mem_push h.lower_push

/-- What holds of the blocks, and is kept by joining adjacent ones, holds after an insertion. -/
theorem Between.forall_mem {P : Block → Prop} {pre : List Block} (h : Between p b post)
    (hring : ∀ c ∈ pre ++ p :: post, P c) (hb : P b)
    (hjoin : ∀ c d, P c → P d → c.stop = d.addr.toNat → d.stop < 2 ^ 32 → P (c.join d)) :
  ∀ d ∈ pre ++ insertBetween p b post, P d
  := by
  rw [List.forall_mem_append, List.forall_mem_cons] at hring
  obtain ⟨hpre, hp, hpost⟩ := hring
  have hpush : ∀ d ∈ push b post, P d := by
    apply forall_push hb hpost
    intro c hc heq
    apply hjoin b c hb (hpost c hc) heq (h.stops c hc)
  rw [List.forall_mem_append]
  refine ⟨hpre, ?_⟩
  apply forall_push hp hpush
  intro d hd heq
  apply hjoin p d hp (hpush d hd) heq (h.stops_push d hd)

theorem Between.sum (h : Between p b post) :
  ((insertBetween p b post).map fun c => c.size.toNat).sum
    = p.size.toNat + (b.size.toNat + (post.map fun c => c.size.toNat).sum)
  := by
  rw [insertBetween, sum_push h.stops_push, sum_push h.stops]

theorem Between.exists_le_size (h : Between p b post) :
  ∃ d ∈ insertBetween p b post, b.size.toNat ≤ d.size.toNat
  := exists_le_size_of_push h.stops_push (exists_le_size_push h.stops)

/-! ### Linked blocks -/

/-- The address of the first of the blocks, or `q` when there is none. -/
def first (q : UInt32) : List Block → UInt32
  | [] => q
  | b :: _ => b.addr

/-- Each block has its size and the address of the next one in its header, and the last one
has the address `q`. -/
def Linked (mem : UInt32 → Header) (q : UInt32) : List Block → Prop
  | [] => True
  | b :: bs => mem b.addr = ⟨first q bs, b.size⟩ ∧ Linked mem q bs

variable {mem mem' : UInt32 → Header} {q : UInt32} {bs : List Block}

@[simp]
theorem linked_nil :
  Linked mem q []
  := trivial

theorem linked_cons :
  Linked mem q (b :: bs) ↔ mem b.addr = ⟨first q bs, b.size⟩ ∧ Linked mem q bs
  := Iff.rfl

theorem first_append (as bs : List Block) :
  first q (as ++ bs) = first (first q bs) as
  := by
  cases as with
  | nil => rfl
  | cons a as => rfl

@[simp]
theorem first_push :
  first q (push b cs) = b.addr
  := by
  obtain ⟨n, ds, hpush⟩ := push_eq_cons b cs
  rw [hpush, first]

theorem linked_append {as : List Block} :
  Linked mem q (as ++ bs) ↔ Linked mem (first q bs) as ∧ Linked mem q bs
  := by
  induction as with
  | nil => simp
  | cons a as ih => rw [List.cons_append, linked_cons, linked_cons, ih, first_append, and_assoc]

/-- Whether blocks are linked depends only on their headers. -/
theorem Linked.congr (h : Linked mem q bs) (hmem : ∀ b ∈ bs, mem' b.addr = mem b.addr) :
  Linked mem' q bs
  := by
  induction bs with
  | nil => trivial
  | cons b bs ih =>
      rw [List.forall_mem_cons] at hmem
      constructor
      · rw [hmem.1, h.1]
      · apply ih h.2 hmem.2

theorem Linked.size_eq (h : Linked mem q bs) (hb : b ∈ bs) :
  (mem b.addr).size = b.size
  := by
  induction bs with
  | nil => simp at hb
  | cons c bs ih =>
      rcases List.mem_cons.mp hb with rfl | hb
      · rw [h.1]
      · apply ih h.2 hb

/-- A ring of blocks may be entered at any of them. -/
theorem Linked.rotate {a : Block} {as : List Block} (h : Linked mem a.addr (a :: as ++ b :: bs)) :
  Linked mem b.addr (b :: bs ++ a :: as)
  := by
  rw [linked_append] at h ⊢
  exact ⟨h.2, h.1⟩

/-! ### Writing headers -/

theorem setNext_self (mem : UInt32 → Header) (p q : UInt32) :
  setNext mem p q p = ⟨q, (mem p).size⟩
  := by
  simp [setNext]

theorem setNext_of_ne {a p : UInt32} (h : a ≠ p) (mem : UInt32 → Header) (q : UInt32) :
  setNext mem p q a = mem a
  := Function.update_of_ne h _ _

theorem setSize_self (mem : UInt32 → Header) (p n : UInt32) :
  setSize mem p n p = ⟨(mem p).next, n⟩
  := by
  simp [setSize]

theorem setSize_of_ne {a p : UInt32} (h : a ≠ p) (mem : UInt32 → Header) (n : UInt32) :
  setSize mem p n a = mem a
  := Function.update_of_ne h _ _

theorem toNat_offset {p n : UInt32} (h : p.toNat + 8 * n.toNat < 2 ^ 32) :
  (offset p n).toNat = p.toNat + 8 * n.toNat
  := by
  rw [offset, UInt32.toNat_add, UInt32.toNat_mul, show headerSize.toNat = 8 from rfl]
  omega

theorem offset_eq_iff (h : b.stop < 2 ^ 32) (a : UInt32) :
  offset b.addr b.size = a ↔ b.stop = a.toNat
  := by
  rw [← UInt32.toNat_inj, toNat_offset h, Block.stop]

/-! ### Joining in memory -/

/-- The second half of `kfree`, joining a block to those after it. -/
theorem joinUpper_linked {p : UInt32} (hp : p ≠ b.addr) (hnext : (mem p).next = first q bs)
    (hsize : (mem b.addr).size = b.size) (hbs : Linked mem q bs)
    (hne : ∀ c ∈ bs, c.addr ≠ b.addr) (hstop : b.stop < 2 ^ 32) (hq : b.stop ≠ q.toNat) :
  Linked (joinUpper mem b.addr p) q (push b bs) ∧
    ∀ a, a ≠ b.addr → joinUpper mem b.addr p a = mem a
  := by
  have hcond := offset_eq_iff hstop (first q bs)
  rw [joinUpper, hsize, hnext]
  cases bs with
  | nil =>
      rw [if_neg (by rw [hcond]; apply hq)]
      constructor
      · constructor
        · rw [setNext_self, hsize]
        · trivial
      · intro a ha
        rw [setNext_of_ne ha]
  | cons c bs =>
      obtain ⟨hc, hbs⟩ := hbs
      rw [List.forall_mem_cons] at hne
      by_cases hjoin : b.stop = c.addr.toNat
      · have hcsize : (mem (first q (c :: bs))).size = c.size := by
          rw [first, hc]
        rw [if_pos (by rw [hcond]; apply hjoin), push, if_pos hjoin, hcsize]
        simp only [setSize_of_ne hp, hnext]
        rw [first, setSize_of_ne hne.1, hc]
        constructor
        · constructor
          · rw [Block.join, setNext_self, setSize_self]
          · apply hbs.congr
            intro d hd
            rw [setNext_of_ne (hne.2 d hd), setSize_of_ne (hne.2 d hd)]
        · intro a ha
          rw [setNext_of_ne ha, setSize_of_ne ha]
      · rw [if_neg (by rw [hcond]; apply hjoin), push, if_neg hjoin]
        constructor
        · constructor
          · rw [setNext_self, hsize]
          · constructor
            · rw [setNext_of_ne hne.1, hc]
            · apply hbs.congr
              intro d hd
              rw [setNext_of_ne (hne.2 d hd)]
        · intro a ha
          rw [setNext_of_ne ha]

/-- The last lines of `kfree`, joining a block to the one before it. -/
theorem joinLower_linked {p : Block} (hsize : (mem p.addr).size = p.size)
    (hbs : Linked mem q (b :: bs)) (hne : ∀ c ∈ b :: bs, c.addr ≠ p.addr)
    (hstop : p.stop < 2 ^ 32) :
  Linked (joinLower mem b.addr p.addr) q (push p (b :: bs)) ∧
    ∀ a, a ≠ p.addr → joinLower mem b.addr p.addr a = mem a
  := by
  have hcond := offset_eq_iff hstop b.addr
  obtain ⟨hb, hbs⟩ := hbs
  rw [List.forall_mem_cons] at hne
  rw [joinLower, hsize]
  by_cases hjoin : p.stop = b.addr.toNat
  · rw [if_pos (by rw [hcond]; apply hjoin), push, if_pos hjoin]
    simp only [setSize_of_ne hne.1, hb]
    constructor
    · constructor
      · rw [Block.join, setNext_self, setSize_self]
      · apply hbs.congr
        intro d hd
        rw [setNext_of_ne (hne.2 d hd), setSize_of_ne (hne.2 d hd)]
    · intro a ha
      rw [setNext_of_ne ha, setSize_of_ne ha]
  · rw [if_neg (by rw [hcond]; apply hjoin), push, if_neg hjoin]
    constructor
    · constructor
      · rw [setNext_self, hsize, first]
      · constructor
        · rw [setNext_of_ne hne.1, hb]
        · apply hbs.congr
          intro d hd
          rw [setNext_of_ne (hne.2 d hd)]
    · intro a ha
      rw [setNext_of_ne ha]

end Kmalloc
