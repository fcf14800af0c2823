import Aenix.Pfa.Allocate

/-!
# Ownership of frames

The allocator as its clients see it: a set of free frames (`State.free`), from which
`pfa_allocate` takes frames and to which `pfa_free` gives them back.  A client that frees
only frames it holds never shares a frame with another allocation, and gets the bitmap it
started from once it has freed all of them.
-/

open Aenix

namespace Pfa

/-! ### Free frames -/

/-- The frame at address `f` is free. -/
def State.free (s : State) : Set ℕ :=
  {f | ∃ i, s.frames[i]? = some f ∧ bit s i = true}

/-- The frame around an address. -/
def frameOf (paddr : UInt32) : ℕ :=
  paddr.toNat / 4096 * 4096

/-- The `n` frames from `paddr` on. -/
def extent (paddr n : UInt32) : Finset ℕ :=
  (Finset.range n.toNat).image fun j => paddr.toNat + 4096 * j

/-- The states differ in the bits of frames only. -/
structure SameMap (s s' : State) : Prop where
  mmap : s'.mmap = s.mmap
  len : s'.len = s.len
  rest : ∀ i, s.len.toNat ≤ i → bit s' i = bit s i

variable {s s' s'' : State}

theorem SameMap.refl (s : State) :
  SameMap s s
  := ⟨rfl, rfl, fun _ _ => rfl⟩

theorem SameMap.trans (h : SameMap s s') (h' : SameMap s' s'') :
  SameMap s s''
  := by
  constructor
  · rw [h'.mmap, h.mmap]
  · rw [h'.len, h.len]
  · intro i hi
    rw [h'.rest i (by rwa [h.len]), h.rest i hi]

theorem SameMap.frames (h : SameMap s s') :
  s'.frames = s.frames
  := by
  rw [State.frames, h.mmap, State.frames]

theorem SameMap.frameMap (h : SameMap s s') (hs : FrameMap s) :
  FrameMap s'
  := by
  obtain ⟨haligned, hasc, habove, hbelow, htotal, hpos⟩ := hs
  constructor
  all_goals simpa only [h.mmap, h.len]

theorem free_subset_frames {f : ℕ} (h : f ∈ s.free) :
  f ∈ s.frames
  := by
  obtain ⟨i, hi, -⟩ := h
  apply List.mem_of_getElem? hi

/-- In a frame map the bit of a frame says whether it is free. -/
theorem FrameMap.mem_free_iff (h : FrameMap s) {i f : ℕ} (hf : s.frames[i]? = some f) :
  f ∈ s.free ↔ bit s i = true
  := by
  constructor
  · rintro ⟨j, hj, hbit⟩
    have hi : i < s.frames.length := (List.getElem?_eq_some_iff.mp hf).1
    rwa [(List.getElem?_inj hi h.nodup_frames).mp (hf.trans hj.symm)]
  · intro hbit
    exact ⟨i, hf, hbit⟩

/-- Two bitmaps over one map with the same free frames are equal. -/
theorem FrameMap.eq_of_free_eq (h : FrameMap s) (hmap : SameMap s s') (hfree : s'.free = s.free) :
  s' = s
  := by
  have hbit : ∀ i, bit s' i = bit s i := by
    intro i
    rcases Nat.lt_or_ge i s.len.toNat with hi | hi
    · rw [← h.length_frames] at hi
      have hf : s.frames[i]? = some (s.frames[i]) := List.getElem?_eq_getElem hi
      have hf' : s'.frames[i]? = some (s.frames[i]) := by rw [hmap.frames, hf]
      rw [Bool.eq_iff_iff, ← h.mem_free_iff hf, ← (hmap.frameMap h).mem_free_iff hf', hfree]
    · apply hmap.rest i hi
  obtain ⟨start, len, mmap⟩ := s
  obtain ⟨start', len', mmap'⟩ := s'
  obtain rfl : len' = len := hmap.len
  obtain rfl : mmap' = mmap := hmap.mmap
  obtain rfl : start' = start := start_eq_of_bit_eq hbit
  rfl

/-! ### Allocating -/

/-- `pfa_allocate` leaves the allocator alone and returns 0, or it returns the first of `num`
free frames in one region and takes them. -/
theorem FrameMap.pfaAllocate_free (h : FrameMap s) (num : UInt32) :
  pfaAllocate s num = (0, s) ∨
    ∃ p s', pfaAllocate s num = (p, s') ∧ oneMb < p ∧ 0 < num.toNat ∧ SameMap s s' ∧
      (∃ r ∈ s.mmap, r.addr.toNat ≤ p.toNat ∧
        p.toNat + 4096 * num.toNat ≤ r.addr.toNat + r.len.toNat) ∧
      4096 ∣ p.toNat ∧
      (∀ f ∈ extent p num, f ∈ s.free) ∧
      s'.free = {f ∈ s.free | f ∉ extent p num}
  := by
  rcases h.pfaAllocate_spec num with hfail | ⟨b, hpos, hlt, hbits, heq, r, hr, k, hk, hframes⟩
  · exact Or.inl hfail
  · right
    have hp : (paddrForIdx s b).toNat = r.addr.toNat + 4096 * k := h.toNat_paddrForIdx (hframes 0 hpos)
    have hbelow := h.below r hr
    have habove := UInt32.lt_iff_toNat_lt.mp (h.above r hr)
    have hlen : ∀ j < num.toNat, b.toNat + j < s.len.toNat := by
      intro j hj
      rw [← h.length_frames]
      exact (List.getElem?_eq_some_iff.mp (hframes j hj)).1
    have hmem : ∀ {i f}, s.frames[i]? = some f →
        (f ∈ extent (paddrForIdx s b) num ↔ b.toNat ≤ i ∧ i < b.toNat + num.toNat) := by
      intro i f hf
      simp only [extent, Finset.mem_image, Finset.mem_range, hp]
      constructor
      · rintro ⟨j, hj, rfl⟩
        have hi : i < s.frames.length := (List.getElem?_eq_some_iff.mp hf).1
        have hfj := hframes j hj
        rw [Nat.mul_add, ← Nat.add_assoc, ← hf] at hfj
        rw [(List.getElem?_inj hi h.nodup_frames).mp hfj.symm]
        omega
      · rintro ⟨hbi, hib⟩
        obtain ⟨j, rfl⟩ := Nat.exists_eq_add_of_le hbi
        have hfj := hframes j (by omega)
        rw [hf, Option.some.injEq] at hfj
        exact ⟨j, by omega, by omega⟩
    have hmap : SameMap s (toggleBits s b num) := by
      obtain ⟨hmmap, hlen'⟩ := toggleBitsFrom_mmap (b + num) num.toNat s b
      refine ⟨hmmap, hlen', ?_⟩
      intro i hi
      have hlast := hlen (num.toNat - 1) (by omega)
      have hnot : ¬ (b.toNat ≤ i ∧ i < b.toNat + num.toNat) := by omega
      rw [bit_toggleBits s (by omega), decide_eq_false hnot, Bool.xor_false]
    refine ⟨_, _, heq, ?_, hpos, hmap, ⟨r, hr, by omega, by omega⟩, ?_, ?_, ?_⟩
    · rw [UInt32.lt_iff_toNat_lt, hp]
      omega
    · rw [hp]
      exact (h.aligned r hr).1.add (Nat.dvd_mul_right _ _)
    · intro f hf
      obtain ⟨j, hj, rfl⟩ := Finset.mem_image.mp hf
      rw [Finset.mem_range] at hj
      refine ⟨b.toNat + j, ?_, hbits _ (by omega) (by omega)⟩
      rw [hframes j hj, hp, Nat.mul_add, Nat.add_assoc]
    · ext f
      simp only [State.free, hmap.frames, Set.mem_ofPred_eq]
      constructor
      · rintro ⟨i, hi, hbit⟩
        rw [bit_toggleBits s (by omega)] at hbit
        by_cases hin : b.toNat ≤ i ∧ i < b.toNat + num.toNat
        · simp [hin, hbits i hin.1 hin.2] at hbit
        · rw [decide_eq_false hin, Bool.xor_false] at hbit
          exact ⟨⟨i, hi, hbit⟩, fun hf => hin ((hmem hi).mp hf)⟩
      · rintro ⟨⟨i, hi, hbit⟩, hnot⟩
        have hin : ¬ (b.toNat ≤ i ∧ i < b.toNat + num.toNat) := fun hin => hnot ((hmem hi).mpr hin)
        refine ⟨i, hi, ?_⟩
        rw [bit_toggleBits s (by omega), decide_eq_false hin, Bool.xor_false, hbit]

/-! ### Freeing -/

/-- `pfa_free` of an address in a frame toggles the bit of the frame. -/
theorem FrameMap.bit_pfaFree (h : FrameMap s) {i : ℕ} {paddr : UInt32}
    (hf : s.frames[i]? = some (frameOf paddr)) :
  SameMap s (pfaFree s paddr) ∧ ∀ j, bit (pfaFree s paddr) j = (bit s j ^^ decide (j = i))
  := by
  have hlt : i < s.len.toNat := by
    rw [← h.length_frames]
    exact (List.getElem?_eq_some_iff.mp hf).1
  have hidx : (idxForPaddr s paddr).toNat = i := by
    apply h.toNat_idxForPaddr hf (d := paddr.toNat % 4096) (Nat.mod_lt _ (by decide))
    rw [frameOf]
    omega
  have hne : idxForPaddr s paddr ≠ s.len := by
    intro heq
    rw [heq] at hidx
    omega
  have hbit : ∀ j, bit (pfaFree s paddr) j = (bit s j ^^ decide (j = i)) := by
    intro j
    rw [pfaFree, if_neg hne, bit_toggleBit, hidx]
  refine ⟨⟨?_, ?_, ?_⟩, hbit⟩
  · rw [pfaFree, if_neg hne, toggleBit_mmap]
  · rw [pfaFree, if_neg hne, toggleBit_len]
  · intro j hj
    rw [hbit, decide_eq_false (by omega), Bool.xor_false]

/-- `pfa_free` of an address in a frame that is not free makes the frame free. -/
theorem FrameMap.pfaFree_free (h : FrameMap s) {paddr : UInt32} (hf : frameOf paddr ∈ s.frames)
    (hnot : frameOf paddr ∉ s.free) :
  SameMap s (pfaFree s paddr) ∧ (pfaFree s paddr).free = insert (frameOf paddr) s.free
  := by
  obtain ⟨i, hi⟩ := List.mem_iff_getElem?.mp hf
  obtain ⟨hmap, hbit⟩ := h.bit_pfaFree hi
  rw [h.mem_free_iff hi] at hnot
  refine ⟨hmap, ?_⟩
  ext f
  simp only [State.free, hmap.frames, Set.mem_insert_iff, Set.mem_ofPred_eq]
  constructor
  · rintro ⟨j, hj, hfree⟩
    rw [hbit] at hfree
    by_cases hji : j = i
    · left
      rw [hji, hi] at hj
      exact (Option.some.inj hj).symm
    · right
      exact ⟨j, hj, by simpa [hji] using hfree⟩
  · rintro (rfl | ⟨j, hj, hfree⟩)
    · exact ⟨i, hi, by simp [hbit, hnot]⟩
    · have hji : j ≠ i := fun hji => hnot (hji ▸ hfree)
      exact ⟨j, hj, by simp [hbit, hji, hfree]⟩

/-- The frames that `pfa_free_cont` frees, in order. -/
def contFrames (paddr n : UInt32) : List ℕ :=
  (List.range n.toNat).map fun i => frameOf (paddr + UInt32.ofNat i * fourKb)

/-- Freeing different frames that are not free makes them free. -/
theorem FrameMap.foldl_pfaFree_free (h : FrameMap s) (ps : List UInt32)
    (hf : ∀ f ∈ ps.map frameOf, f ∈ s.frames ∧ f ∉ s.free) (hnodup : (ps.map frameOf).Nodup) :
  SameMap s (ps.foldl pfaFree s) ∧
    (ps.foldl pfaFree s).free = s.free ∪ {f | f ∈ ps.map frameOf}
  := by
  induction ps generalizing s with
  | nil =>
      refine ⟨SameMap.refl s, ?_⟩
      simp
  | cons p ps ih =>
      simp only [List.map_cons, List.nodup_cons, List.forall_mem_cons] at hf hnodup
      obtain ⟨⟨hp, hpfree⟩, hps⟩ := hf
      obtain ⟨hmap, hfree⟩ := h.pfaFree_free hp hpfree
      have hrest : ∀ f ∈ ps.map frameOf, f ∈ (pfaFree s p).frames ∧ f ∉ (pfaFree s p).free := by
        intro f hfmem
        rw [hmap.frames, hfree, Set.mem_insert_iff]
        have hne : f ≠ frameOf p := fun heq => hnodup.1 (heq ▸ hfmem)
        exact ⟨(hps f hfmem).1, fun hor => hor.elim hne (hps f hfmem).2⟩
      obtain ⟨hmap', hfree'⟩ := ih (hmap.frameMap h) hrest hnodup.2
      refine ⟨hmap.trans hmap', ?_⟩
      rw [List.foldl_cons, hfree', hfree]
      ext f
      simp only [List.map_cons, List.mem_cons, Set.mem_union, Set.mem_insert_iff, Set.mem_ofPred_eq]
      tauto

/-- `pfa_free_cont` makes its frames free. -/
theorem FrameMap.pfaFreeCont_free (h : FrameMap s) {paddr n : UInt32}
    (hf : ∀ f ∈ contFrames paddr n, f ∈ s.frames ∧ f ∉ s.free)
    (hnodup : (contFrames paddr n).Nodup) :
  SameMap s (pfaFreeCont s paddr n) ∧
    (pfaFreeCont s paddr n).free = s.free ∪ {f | f ∈ contFrames paddr n}
  := by
  have hmap : contFrames paddr n =
      ((List.range n.toNat).map fun i => paddr + UInt32.ofNat i * fourKb).map frameOf := by
    rw [contFrames, List.map_map]
    rfl
  rw [hmap] at hf hnodup ⊢
  have hfold := h.foldl_pfaFree_free _ hf hnodup
  rwa [List.foldl_map] at hfold

/-! ### Runs -/

/-- The allocator with the frames its clients hold. -/
structure Owner where
  pfa : State
  held : Finset ℕ

/-- The calls of a client that frees only frames it holds. -/
inductive Step : Owner → Owner → Prop
  | allocate (o : Owner) (n p : UInt32) (s' : State) (h : pfaAllocate o.pfa n = (p, s')) :
      Step o ⟨s', if p = 0 then o.held else o.held ∪ extent p n⟩
  | free (o : Owner) (p : UInt32) (hheld : frameOf p ∈ o.held) :
      Step o ⟨pfaFree o.pfa p, o.held.erase (frameOf p)⟩
  | freeCont (o : Owner) (p n : UInt32) (hheld : ∀ f ∈ contFrames p n, f ∈ o.held)
      (hnodup : (contFrames p n).Nodup) :
      Step o ⟨pfaFreeCont o.pfa p n, o.held \ (contFrames p n).toFinset⟩

/-- The frames that were free at first are those that are free and those that are held. -/
structure Owner.Inv (s : State) (o : Owner) : Prop where
  map : SameMap s o.pfa
  split : s.free = o.pfa.free ∪ o.held
  disjoint : ∀ f ∈ o.held, f ∉ o.pfa.free

theorem Owner.Inv.mem_frames {o : Owner} (h : o.Inv s) {f : ℕ} (hf : f ∈ o.held) :
  f ∈ o.pfa.frames ∧ f ∉ o.pfa.free
  := by
  refine ⟨?_, h.disjoint f hf⟩
  rw [h.map.frames]
  apply free_subset_frames
  rw [h.split]
  exact Or.inr hf

/-- Every call keeps the invariant. -/
theorem Step.inv (hs : FrameMap s) {o o' : Owner} (h : o.Inv s) (hstep : Step o o') :
  o'.Inv s
  := by
  have hmap := h.map.frameMap hs
  cases hstep with
  | allocate n p s' heq =>
      rcases hmap.pfaAllocate_free n with hfail | ⟨p', s'', hok, hp, -, hsame, -, -, hext, hfree⟩
      · obtain ⟨rfl, rfl⟩ := Prod.mk.inj (heq.symm.trans hfail)
        rw [if_pos rfl]
        exact ⟨h.map, h.split, h.disjoint⟩
      · obtain ⟨rfl, rfl⟩ := Prod.mk.inj (heq.symm.trans hok)
        have hne : p ≠ 0 := by
          rintro rfl
          exact absurd hp (by decide)
        rw [if_neg hne]
        refine ⟨h.map.trans hsame, ?_, ?_⟩
        · rw [h.split, hfree]
          ext f
          simp only [Set.mem_union, Finset.mem_coe, Finset.mem_union, Set.mem_sep_iff]
          have := hext f
          tauto
        · intro f hf
          rw [hfree]
          rintro ⟨hf', hnot⟩
          rcases Finset.mem_union.mp hf with hheld | hmem
          · exact h.disjoint f hheld hf'
          · exact hnot hmem
  | free p hheld =>
      obtain ⟨hin, hnot⟩ := h.mem_frames hheld
      obtain ⟨hsame, hfree⟩ := hmap.pfaFree_free hin hnot
      refine ⟨h.map.trans hsame, ?_, ?_⟩
      · rw [h.split, hfree]
        ext f
        simp only [Set.mem_union, Set.mem_insert_iff, Finset.mem_coe, Finset.mem_erase]
        constructor
        · rintro (hf | hf)
          · exact Or.inl (Or.inr hf)
          · tauto
        · rintro ((rfl | hf) | hf)
          · exact Or.inr hheld
          · exact Or.inl hf
          · exact Or.inr hf.2
      · intro f hf
        obtain ⟨hne, hf⟩ := Finset.mem_erase.mp hf
        rw [hfree, Set.mem_insert_iff]
        exact fun hor => hor.elim hne (h.disjoint f hf)
  | freeCont p n hheld hnodup =>
      obtain ⟨hsame, hfree⟩ := hmap.pfaFreeCont_free (fun f hf => h.mem_frames (hheld f hf)) hnodup
      refine ⟨h.map.trans hsame, ?_, ?_⟩
      · rw [h.split, hfree]
        ext f
        simp only [Set.mem_union, Finset.mem_coe, Finset.mem_sdiff, List.mem_toFinset,
          Set.mem_ofPred_eq]
        have := hheld f
        tauto
      · intro f hf
        obtain ⟨hf, hne⟩ := Finset.mem_sdiff.mp hf
        rw [hfree]
        exact fun hor => hor.elim (h.disjoint f hf) fun hmem => hne (List.mem_toFinset.mpr hmem)

theorem inv_of_run (hs : FrameMap s) {o : Owner} (hrun : Relation.ReflTransGen Step ⟨s, ∅⟩ o) :
  o.Inv s
  := by
  induction hrun with
  | refl =>
      refine ⟨SameMap.refl s, by simp, ?_⟩
      intro f hf
      simp at hf
  | tail _ hstep ih => apply hstep.inv hs ih

/-- From any bitmap over a frame map, with no frame held, every run of calls that free only
frames held leads to a state in which a nonzero result of `pfa_allocate` is the start of
frames inside one region, none of them held; held frames exist and have bit 0; a zero result
leaves the allocator as it is; and when no frame is held, the bitmap is the initial one. -/
theorem page_frame_ownership (hs : FrameMap s) {o : Owner}
    (hrun : Relation.ReflTransGen Step ⟨s, ∅⟩ o) :
  (∀ n p s', pfaAllocate o.pfa n = (p, s') → p ≠ 0 →
      (∃ r ∈ s.mmap, r.addr.toNat ≤ p.toNat ∧
        p.toNat + 4096 * n.toNat ≤ r.addr.toNat + r.len.toNat) ∧
      ∀ j < n.toNat, p.toNat + 4096 * j ∈ s.frames ∧ p.toNat + 4096 * j ∉ o.held) ∧
    (∀ f ∈ o.held, ∃ i, s.frames[i]? = some f ∧ bit o.pfa i = false) ∧
    (∀ n s', pfaAllocate o.pfa n = (0, s') → s' = o.pfa) ∧
    (o.held = ∅ → o.pfa = s)
  := by
  have h := inv_of_run hs hrun
  have hmap := h.map.frameMap hs
  refine ⟨?_, ?_, ?_, ?_⟩
  · intro n p s' heq hp
    rcases hmap.pfaAllocate_free n with hfail | ⟨p', s'', hok, -, -, -, hregion, -, hext, -⟩
    · exact absurd (congrArg Prod.fst (heq.symm.trans hfail)) hp
    · obtain ⟨rfl, rfl⟩ := Prod.mk.inj (heq.symm.trans hok)
      rw [h.map.mmap] at hregion
      refine ⟨hregion, ?_⟩
      intro j hj
      have hfree := hext _ (Finset.mem_image_of_mem _ (Finset.mem_range.mpr hj))
      rw [← h.map.frames]
      exact ⟨free_subset_frames hfree, fun hheld => h.disjoint _ hheld hfree⟩
  · intro f hf
    obtain ⟨hin, hnot⟩ := h.mem_frames hf
    obtain ⟨i, hi⟩ := List.mem_iff_getElem?.mp hin
    rw [hmap.mem_free_iff hi, Bool.not_eq_true] at hnot
    rw [h.map.frames] at hi
    exact ⟨i, hi, hnot⟩
  · intro n s' heq
    rcases hmap.pfaAllocate_free n with hfail | ⟨p', s'', hok, hp, -⟩
    · exact congrArg Prod.snd (heq.symm.trans hfail)
    · obtain ⟨rfl, -⟩ := Prod.mk.inj (heq.symm.trans hok)
      exact absurd hp (by decide)
  · intro hheld
    apply hs.eq_of_free_eq h.map
    rw [h.split, hheld]
    simp

/-- Four frames at 2 MB and two at 4 MB, all of them free but the second. -/
def sixFrames : State where
  start := fun c => if c = 0 then 0xBC000000 else 0
  len := 6
  mmap := [⟨0x200000, 0x4000⟩, ⟨0x400000, 0x2000⟩]

theorem frameMap_sixFrames :
  FrameMap sixFrames
  := by
  constructor
  · decide
  · decide
  · decide
  · decide
  · decide
  · decide

/-- Taking two frames skips the single one before them. -/
theorem page_frame_ownership_sixFrames :
  pfaAllocate sixFrames 2 = (0x202000, toggleBits sixFrames 2 2) ∧
    (∀ f ∈ extent 0x202000 2, ∃ i, sixFrames.frames[i]? = some f ∧
      bit (toggleBits sixFrames 2 2) i = false) ∧
    ∀ n s', pfaAllocate (toggleBits sixFrames 2 2) n = (0, s') → s' = toggleBits sixFrames 2 2
  := by
  have hstep : pfaAllocate sixFrames 2 = (0x202000, toggleBits sixFrames 2 2) := rfl
  have hrun := Relation.ReflTransGen.single (Step.allocate ⟨sixFrames, ∅⟩ 2 _ _ hstep)
  obtain ⟨-, hheld, hfail, -⟩ := page_frame_ownership frameMap_sixFrames hrun
  refine ⟨hstep, ?_, hfail⟩
  intro f hf
  apply hheld f
  rw [if_neg (by decide)]
  exact Finset.mem_union_right _ hf

end Pfa
