import Aenix.Aefs.Assign

/-!
# Chains of inodes

The blocks of a file or directory are listed five to an inode, in a chain of inodes that are linked by
`inode_tail`.  `ChainOf m e` says that the image `m` holds the chain of the extent `e`; the places for
which there is no block, and the tail of the last inode, are zero.  `fill_inode_blocks` makes such a
chain.
-/

open Bytes Aenix

namespace Aefs

/-- The inode with index `k` in the chain, and 0 when there is none. -/
def Extent.node (e : Extent) (k : ℕ) : UInt16 := (e.id :: e.tails).getD k 0

/-- The image holds the chain of inodes of `e`. -/
structure ChainOf (m : Memory) (e : Extent) : Prop where
  tail : ∀ k ≤ e.tails.length, inodeTail m (getInode (e.node k)) = e.node (k + 1)
  block : ∀ k ≤ e.tails.length, ∀ j < 5,
    inodeBlock m (getInode (e.node k)) j = e.blocks.getD (5 * k + j) 0

/-! ### Inodes that lie apart -/

theorem getInode_apart {a b : UInt16} (h : a ≠ b) :
  getInode a + 16 ≤ getInode b ∨ getInode b + 16 ≤ getInode a
  := by
  have hne : a.toNat ≠ b.toNat := fun heq => h (UInt16.toNat_inj.mp heq)
  rw [getInode, getInode]
  omega

theorem Extent.node_ne {e : Extent} (h : (e.id :: e.tails).Nodup) {k l : ℕ} (hk : k ≤ e.tails.length)
    (hl : l ≤ e.tails.length) (hne : k ≠ l) :
  e.node k ≠ e.node l
  := by
  have hk' : k < (e.id :: e.tails).length := by
    rw [List.length_cons]
    omega
  have hl' : l < (e.id :: e.tails).length := by
    rw [List.length_cons]
    omega
  rw [node, node, List.getD_eq_getElem _ _ hk', List.getD_eq_getElem _ _ hl']
  exact fun heq => hne ((h.getElem_inj_iff).mp heq)

/-- A chain is a matter of the bytes from 4 to 16 of its inodes. -/
theorem ChainOf.congr {m m' : Memory} {e : Extent} (h : ChainOf m e)
    (heq : ∀ k ≤ e.tails.length,
      Set.EqOn m m' (Set.Ico (getInode (e.node k) + 4) (getInode (e.node k) + 16))) :
  ChainOf m' e
  := by
  have hload : ∀ k ≤ e.tails.length, ∀ a, 4 ≤ a → a + 2 ≤ 16 →
      load16 m' (getInode (e.node k) + a) = load16 m (getInode (e.node k) + a) := by
    intro k hk a ha ha'
    apply load16_congr
    intro x hx
    apply ((heq k hk) _).symm
    rw [Set.mem_Ico] at hx ⊢
    omega
  constructor
  · intro k hk
    rw [← h.tail k hk]
    apply hload k hk 14 <;> decide
  · intro k hk j hj
    rw [← h.block k hk j hj, inodeBlock, inodeBlock, add_assoc]
    apply hload k hk <;> omega

/-! ### Walking along the chain -/

/-- The start of a round of the loops of `aefs_read` and `aefs_lookup`, which go on to the next inode when
the blocks of one have been read. -/
def nextInode (m : Memory) (i current : ℕ) : ℕ :=
  if i % inodeNumBlocks = 0 ∧ i ≠ 0 then getInode (inodeTail m current) else current

/-- In the round `i` the inode is the one that lists block `i`. -/
theorem ChainOf.nextInode_eq {m : Memory} {e : Extent} (h : ChainOf m e) {i : ℕ}
    (hi : i / 5 ≤ e.tails.length) :
  nextInode m i (getInode (e.node (tailsFor i))) = getInode (e.node (tailsFor (i + 1)))
  := by
  rw [nextInode, tailsFor_succ]
  by_cases hfull : i % inodeNumBlocks = 0 ∧ i ≠ 0
  · rw [if_pos hfull, if_pos hfull, h.tail]
    rw [tailsFor]
    omega
  · rw [if_neg hfull, if_neg hfull, Nat.add_zero]

/-- The block `i` is found there. -/
theorem ChainOf.inodeBlock_eq {m : Memory} {e : Extent} (h : ChainOf m e) {i : ℕ}
    (hi : i / 5 ≤ e.tails.length) :
  inodeBlock m (getInode (e.node (tailsFor (i + 1)))) (i % inodeNumBlocks) = e.blocks.getD i 0
  := by
  have hnode : tailsFor (i + 1) = i / 5 := by
    rw [tailsFor]
    omega
  rw [hnode, h.block _ hi _ (Nat.mod_lt _ (by decide)), Nat.div_add_mod]

/-! ### Filling the inodes -/

/-- The next block is written into the last inode of the chain. -/
theorem ChainOf.write_block {m : Memory} {e : Extent} (h : ChainOf m e)
    (hnodup : (e.id :: e.tails).Nodup) (hlast : e.blocks.length / 5 = e.tails.length) (v : UInt16) :
  ChainOf (store16 m (getInode (e.node e.tails.length) + 4 + 2 * (e.blocks.length % 5)) v)
    { e with blocks := e.blocks ++ [v] }
  := by
  have hapart : ∀ k ≤ e.tails.length, k ≠ e.tails.length →
      getInode (e.node k) + 16 ≤ getInode (e.node e.tails.length) ∨
        getInode (e.node e.tails.length) + 16 ≤ getInode (e.node k) := by
    intro k hk hne
    apply getInode_apart
    apply Extent.node_ne hnodup hk le_rfl hne
  constructor
  · intro k hk
    refine Eq.trans ?_ (h.tail k hk)
    apply load16_store
    rw [bytes16, List.length_cons, List.length_singleton]
    by_cases hne : k = e.tails.length
    · subst hne
      change getInode (e.node _) + 14 + 2 ≤ _ ∨ _ ≤ getInode (e.node _) + 14
      omega
    · have hk' := hapart k hk hne
      change getInode (e.node k) + 14 + 2 ≤ _ ∨ _ ≤ getInode (e.node k) + 14
      omega
  · intro k hk j hj
    change k ≤ e.tails.length at hk
    change load16 _ (getInode (e.node k) + 4 + 2 * j) = (e.blocks ++ [v]).getD (5 * k + j) 0
    by_cases heq : k = e.tails.length ∧ j = e.blocks.length % 5
    · -- this is the place that is written
      obtain ⟨rfl, rfl⟩ := heq
      rw [load16_store16, ← hlast, Nat.div_add_mod, List.getD_append_right _ _ _ _ le_rfl]
      simp
    · have hold : (e.blocks ++ [v]).getD (5 * k + j) 0 = e.blocks.getD (5 * k + j) 0 := by
        rcases lt_or_ge (5 * k + j) e.blocks.length with hlt | hge
        · rw [List.getD_append _ _ _ _ hlt]
        · rw [List.getD_eq_default _ _ hge, List.getD_eq_default]
          rw [List.length_append, List.length_singleton]
          omega
      rw [hold, ← h.block k hk j hj]
      apply load16_store
      rw [bytes16, List.length_cons, List.length_singleton]
      by_cases hne : k = e.tails.length
      · subst hne
        omega
      · have hk' := hapart k hk hne
        omega

/-- A new inode is linked to the last one of the chain and set to zero. -/
theorem ChainOf.link {m : Memory} {e : Extent} {id : UInt16} (h : ChainOf m e)
    (hnodup : (e.id :: (e.tails ++ [id])).Nodup)
    (hfull : e.blocks.length = 5 * (e.tails.length + 1)) :
  ChainOf (store (store16 m (getInode (e.node e.tails.length) + 14) id) (getInode id)
    (List.replicate 16 0)) { e with tails := e.tails ++ [id] }
  := by
  generalize he' : { e with tails := e.tails ++ [id] } = e'
  have hnode : ∀ k ≤ e.tails.length, e'.node k = e.node k := by
    intro k hk
    rw [← he', Extent.node, Extent.node, ← List.cons_append, List.getD_append]
    simp
    omega
  have hlast : e'.node (e.tails.length + 1) = id := by
    rw [← he', Extent.node, ← List.cons_append, List.getD_append_right _ _ _ _ (by simp)]
    simp
  have hnone : e'.node (e.tails.length + 2) = 0 := by
    rw [← he', Extent.node, List.getD_eq_default]
    simp
  have hlen : e'.tails.length = e.tails.length + 1 := by simp [← he']
  have hnodup' : (e'.id :: e'.tails).Nodup := by
    rw [← he']
    apply hnodup
  have hapart : ∀ k ≤ e.tails.length, ∀ l ≤ e.tails.length + 1, k ≠ l →
      getInode (e.node k) + 16 ≤ getInode (e'.node l) ∨
        getInode (e'.node l) + 16 ≤ getInode (e.node k) := by
    intro k hk l hl hne
    rw [← hnode k hk]
    apply getInode_apart
    apply Extent.node_ne hnodup' (by omega) (by omega) hne
  have hzero : ∀ a, a + 2 ≤ 16 → ∀ m : Memory,
      load16 (store m (getInode id) (List.replicate 16 0)) (getInode id + a) = 0 := by
    intro a ha m
    apply load16_zero
    intro x hx
    apply store_zeros
    rw [Set.mem_Ico] at hx ⊢
    omega
  have hother : ∀ k ≤ e.tails.length, ∀ a, a + 2 ≤ 16 → ∀ m : Memory,
      load16 (store m (getInode id) (List.replicate 16 0)) (getInode (e.node k) + a) =
        load16 m (getInode (e.node k) + a) := by
    intro k hk a ha m
    apply load16_store
    have hk' := hapart k hk (e.tails.length + 1) le_rfl (by omega)
    rw [hlast] at hk'
    rw [List.length_replicate]
    omega
  constructor
  · intro k hk
    rw [hlen] at hk
    rcases Nat.lt_or_ge k (e.tails.length + 1) with hlt | hge
    · rw [hnode k (by omega), inodeTail, hother k (by omega) 14 (by decide)]
      rcases Nat.lt_or_ge k e.tails.length with hlt' | hge'
      · rw [hnode (k + 1) (by omega), ← h.tail k (by omega)]
        apply load16_store
        have hk' := hapart k (by omega) e.tails.length (by omega) (by omega)
        rw [hnode _ le_rfl] at hk'
        rw [bytes16, List.length_cons, List.length_singleton]
        omega
      · obtain rfl : k = e.tails.length := by omega
        rw [load16_store16, hlast]
    · obtain rfl : k = e.tails.length + 1 := by omega
      rw [hlast, inodeTail, hzero 14 (by decide), hnone]
  · intro k hk j hj
    rw [hlen] at hk
    have hblocks : e'.blocks = e.blocks := by rw [← he']
    rw [hblocks]
    rcases Nat.lt_or_ge k (e.tails.length + 1) with hlt | hge
    · rw [hnode k (by omega), ← h.block k (by omega) j hj, inodeBlock, inodeBlock, add_assoc,
        hother k (by omega) _ (by omega)]
      apply load16_store
      rw [bytes16, List.length_cons, List.length_singleton]
      rcases Nat.lt_or_ge k e.tails.length with hlt' | hge'
      · have hk' := hapart k (by omega) e.tails.length (by omega) (by omega)
        rw [hnode _ le_rfl] at hk'
        omega
      · obtain rfl : k = e.tails.length := by omega
        omega
    · obtain rfl : k = e.tails.length + 1 := by omega
      rw [hlast, inodeBlock, add_assoc, hzero _ (by omega), List.getD_eq_default _ _ (by omega)]

/-- The inodes with the numbers from `lo` to `hi`. -/
def inodeArea (lo hi : ℕ) : Set ℕ := Set.Ico (blockSize + 16 * lo) (blockSize + 16 * hi)

theorem getInode_ofNat {n : ℕ} (h : n < 2 ^ 16) :
  getInode (UInt16.ofNat n) = blockSize + 16 * n
  := by
  rw [getInode, UInt16.toNat_ofNat']
  omega

/-- Numbers below 2 ^ 16 are different. -/
theorem nodup_idsFrom {n k : ℕ} (hk : n + k ≤ 2 ^ 16) :
  (idsFrom (UInt16.ofNat n) k).Nodup
  := by
  apply List.Nodup.map_on _ List.nodup_range
  intro i hi j hj heq
  rw [List.mem_range] at hi hj
  have heq' := congrArg UInt16.toNat heq
  rw [toNat_ofNat_add (by omega), toNat_ofNat_add (by omega)] at heq'
  omega

theorem nodup_cons_idsFrom {id : UInt16} {n k : ℕ} (hid : id.toNat < n) (hk : n + k ≤ 2 ^ 16) :
  (id :: idsFrom (UInt16.ofNat n) k).Nodup
  := by
  refine List.nodup_cons.mpr ⟨?_, nodup_idsFrom hk⟩
  rw [mem_idsFrom]
  rintro ⟨j, hj, rfl⟩
  rw [toNat_ofNat_add (by omega)] at hid
  omega

section Fill

variable {s : Mkfs} {id : UInt16} {n : ℕ}

/-- The bytes that `fill_inode_blocks` writes in `count` rounds. -/
def fillArea (id : UInt16) (n count : ℕ) : Set ℕ :=
  Set.Ico (getInode id + 4) (getInode id + 16) ∪ inodeArea n (n + tailsFor count)

/-- `fill_inode_blocks` has made a chain so far, and works on its last inode. -/
structure Filled (s : Mkfs) (id : UInt16) (n count : ℕ) (F : Fill) : Prop where
  chain : ChainOf F.mkfs.img ⟨id, F.tails, F.blocks⟩
  list : F.list = getInode (Extent.node ⟨id, F.tails, F.blocks⟩ F.tails.length)
  frame : Set.EqOn F.mkfs.img s.img (fillArea id n count)ᶜ

/-- The last inode of the chain is the first one, or one of those taken. -/
theorem getInode_last (id : UInt16) (blocks : List UInt16) {k : ℕ} (hk : n + k ≤ 2 ^ 16) :
  let a := getInode (Extent.node ⟨id, idsFrom (UInt16.ofNat n) k, blocks⟩ k)
  a = getInode id ∨ blockSize + 16 * n ≤ a ∧ a + 16 ≤ blockSize + 16 * (n + k)
  := by
  cases k with
  | zero => exact Or.inl rfl
  | succ k =>
      right
      rw [Extent.node, List.getD_cons_succ, List.getD_eq_getElem _ _ (by simp), getElem_idsFrom,
        ← UInt16.ofNat_add, getInode_ofNat (by omega)]
      omega

theorem Filled.advance {startBlockId : UInt16} {count : ℕ} {F : Fill} (h : Filled s id n count F)
    (hid : id.toNat < n) (hcount : n + tailsFor (count + 1) ≤ 2 ^ 16)
    (htails : F.tails = idsFrom (UInt16.ofNat n) (tailsFor count))
    (hblocks : F.blocks = idsFrom startBlockId count)
    (hnext : F.mkfs.nextInodeId = UInt16.ofNat (n + tailsFor count)) :
  Filled s id n (count + 1) (F.advance count) ∧ (F.advance count).blocks = F.blocks ∧
    (F.advance count).tails = idsFrom (UInt16.ofNat n) (count / 5)
  := by
  rw [Fill.advance]
  by_cases hfull : count % inodeNumBlocks = 0 ∧ count ≠ 0
  · have hmod : count % 5 = 0 := hfull.1
    have hsucc : tailsFor (count + 1) = tailsFor count + 1 := by
      rw [tailsFor_succ, if_pos hfull]
    have hlen : F.tails.length = tailsFor count := by rw [htails, length_idsFrom]
    have hdiv : tailsFor count + 1 = count / 5 := by
      rw [tailsFor]
      omega
    have htails' : F.tails ++ [F.mkfs.nextInodeId] = idsFrom (UInt16.ofNat n) (tailsFor count + 1) := by
      rw [htails, hnext, idsFrom_add, idsFrom_one, UInt16.ofNat_add]
    rw [if_pos hfull]
    refine ⟨⟨?_, ?_, ?_⟩, rfl, ?_⟩
    · dsimp only
      rw [h.list]
      apply ChainOf.link h.chain
      · dsimp only
        rw [htails']
        apply nodup_cons_idsFrom hid (by omega)
      · dsimp only
        rw [hblocks, length_idsFrom, hlen]
        omega
    · dsimp only
      rw [Extent.node, ← List.cons_append, List.length_append, List.length_singleton,
        List.getD_append_right _ _ _ _ (by simp)]
      simp
    · have hlist := h.list
      dsimp only
      rw [htails, length_idsFrom] at hlist
      have hlast := getInode_last (n := n) (k := tailsFor count) id F.blocks (by omega)
      rw [← hlist] at hlast
      intro x hx
      simp only [fillArea, inodeArea, Set.mem_compl_iff, Set.mem_union, Set.mem_Ico, not_or, hsucc,
        blockSize] at hx
      rw [store_eqOn, store16, store_eqOn, h.frame]
      · simp only [fillArea, inodeArea, Set.mem_compl_iff, Set.mem_union, Set.mem_Ico, not_or,
          blockSize]
        omega
      · simp only [Set.mem_compl_iff, Set.mem_Ico, bytes16, List.length_cons, List.length_nil]
        simp only [blockSize] at hlast
        omega
      · rw [hnext, getInode_ofNat (by omega)]
        simp only [Set.mem_compl_iff, Set.mem_Ico, List.length_replicate, blockSize]
        omega
    · rw [← hdiv]
      apply htails'
  · rw [if_neg hfull]
    have hsucc : tailsFor (count + 1) = tailsFor count := by
      rw [tailsFor_succ, if_neg hfull]
      rfl
    have hdiv : tailsFor count = count / 5 := by
      have hfull' : ¬ (count % 5 = 0 ∧ count ≠ 0) := hfull
      rw [tailsFor]
      omega
    refine ⟨⟨h.chain, h.list, ?_⟩, rfl, ?_⟩
    · rw [fillArea, hsucc]
      apply h.frame
    · rw [htails, hdiv]

/-- One round keeps the chain. -/
theorem Filled.round {startBlockId : UInt16} {count : ℕ} {F : Fill} (h : Filled s id n count F)
    (hid : id.toNat < n) (hcount : n + tailsFor (count + 1) ≤ 2 ^ 16)
    (htails : F.tails = idsFrom (UInt16.ofNat n) (tailsFor count))
    (hblocks : F.blocks = idsFrom startBlockId count)
    (hnext : F.mkfs.nextInodeId = UInt16.ofNat (n + tailsFor count)) :
  Filled s id n (count + 1) (fillRound startBlockId count F)
  := by
  obtain ⟨h', hblocks', htails'⟩ := h.advance hid hcount htails hblocks hnext
  rw [fillRound]
  generalize F.advance count = F' at h' hblocks' htails'
  have hlen : F'.tails.length = count / 5 := by rw [htails', length_idsFrom]
  have hlen' : F'.blocks.length = count := by rw [hblocks', hblocks, length_idsFrom]
  have hdiv : count / 5 ≤ tailsFor (count + 1) := by
    rw [tailsFor]
    omega
  have hlist := h'.list
  have hchain := h'.chain.write_block (by rw [htails']; exact nodup_cons_idsFrom hid (by omega))
    (by rw [hlen, hlen']) (startBlockId + UInt16.ofNat count)
  constructor
  · dsimp only [inodeNumBlocks] at hchain ⊢
    rw [hlist]
    rw [hlen'] at hchain
    apply hchain
  · apply hlist
  · rw [hlen, htails'] at hlist
    have hlast := getInode_last (n := n) (k := count / 5) id F'.blocks (by omega)
    rw [← hlist] at hlast
    intro x hx
    simp only [fillArea, inodeArea, Set.mem_compl_iff, Set.mem_union, Set.mem_Ico, not_or,
      blockSize] at hx hlast
    dsimp only
    rw [store16, store_eqOn, h'.frame]
    · simp only [fillArea, inodeArea, Set.mem_compl_iff, Set.mem_union, Set.mem_Ico, not_or,
        blockSize]
      omega
    · simp only [Set.mem_compl_iff, Set.mem_Ico, bytes16, List.length_cons, List.length_nil,
        inodeNumBlocks]
      omega

/-- `fill_inode_blocks` makes the chain of an inode that is zero from byte 4 on. -/
theorem fillInodeBlocks_spec {count : UInt16} (startBlockId : UInt16) (hn : s.nextInodeId = UInt16.ofNat n)
    (hid : id.toNat < n) (hcount : n + tailsFor count.toNat ≤ 2 ^ 16)
    (hzero : ∀ x ∈ Set.Ico (getInode id + 4) (getInode id + 16), s.img x = 0) :
  Filled s id n count.toNat (fillInodeBlocks (getInode id) count startBlockId s)
  := by
  rw [fillInodeBlocks]
  generalize count.toNat = count at hcount
  induction count with
  | zero =>
      refine ⟨⟨?_, ?_⟩, rfl, ?_⟩
      · intro k hk
        obtain rfl : k = 0 := Nat.le_zero.mp hk
        apply load16_zero
        intro x hx
        apply hzero
        change x ∈ Set.Ico (getInode id + 14) (getInode id + 14 + 2) at hx
        rw [Set.mem_Ico] at hx ⊢
        omega
      · intro k hk j hj
        obtain rfl : k = 0 := Nat.le_zero.mp hk
        apply load16_zero
        intro x hx
        apply hzero
        change x ∈ Set.Ico (getInode id + 4 + 2 * j) (getInode id + 4 + 2 * j + 2) at hx
        rw [Set.mem_Ico] at hx ⊢
        omega
      · intro x hx
        rfl
  | succ count ih =>
      have hle : tailsFor count ≤ tailsFor (count + 1) := by
        rw [tailsFor_succ]
        omega
      obtain ⟨htails, hblocks, hnext, -⟩ := fillRounds_takes startBlockId ⟨s, getInode id, [], []⟩ count
      apply (ih (by omega)).round hid hcount
      · rw [htails, hn]
        rfl
      · rw [hblocks]
        rfl
      · rw [hnext, hn, ← UInt16.ofNat_add]

end Fill

end Aefs
