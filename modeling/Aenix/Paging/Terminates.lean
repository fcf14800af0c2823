import Aenix.Paging.Walk

/-!
# When `pdt_unmap_memory` returns

The loop of `pdt_unmap_memory` follows the walk over the slots that have a page table, for every
directory that is not one of its own page tables.
-/

open Aenix

namespace Paging

variable {s : State} {d vaddr size : UInt32} {p : ℕ}

/-! ### What a round does to the directory -/

/-- The size that the loop of `pt_unmap_memory` returns does not depend on the page table. -/
theorem ptUnmapMemoryFrom_size (pdtIdx : ℕ) (size : UInt32) (n : ℕ) (s s' : State) (j : ℕ)
    (freed : UInt32) :
  (ptUnmapMemoryFrom pdtIdx size n s j freed).1 = (ptUnmapMemoryFrom pdtIdx size n s' j freed).1
  := by
  induction n generalizing s s' j freed with
  | zero => rfl
  | succ n ih =>
      simp only [ptUnmapMemoryFrom]
      split
      · split
        · rfl
        · apply ih
      · rfl

theorem ptUnmapMemory_size (s : State) (pdtIdx : ℕ) (vaddr : UInt32)
    (hsize : size.toNat = 4096 * p) :
  (ptUnmapMemory s pdtIdx vaddr size).1 =
    UInt32.ofNat (cleared pdtIdx (virtualToPtIdx vaddr) p) * fourKb
  := by
  -- a state in which the page table is not that of the temporary mapping
  have hspec := ptUnmapMemory_spec ⟨s.pfa, fun _ _ => Entry.zero, 0, fourKb, 0⟩ pdtIdx vaddr hsize
    (fun heq => absurd (show Entry.zero.paddr = fourKb from heq) (by decide))
  rw [ptUnmapMemory] at hspec ⊢
  rw [ptUnmapMemoryFrom_size pdtIdx size _ s ⟨s.pfa, fun _ _ => Entry.zero, 0, fourKb, 0⟩, hspec]

/-- The loop of `pt_unmap_memory` writes to the page table only: when it clears the entry of the
temporary mapping, that is the last one. -/
theorem ptUnmapMemoryFrom_frame {pdtIdx n j : ℕ} {freed t : UInt32} (hn : j + n = 1024)
    (htmp : 0 < n → s.tmpFrame = t) :
  (ptUnmapMemoryFrom pdtIdx size n s j freed).2.kernelPt = s.kernelPt ∧
    ∀ f, f ≠ t → (ptUnmapMemoryFrom pdtIdx size n s j freed).2.mem f = s.mem f
  := by
  induction n generalizing s j freed with
  | zero => exact ⟨rfl, fun _ _ => rfl⟩
  | succ n ih =>
      have ht := htmp (Nat.succ_pos n)
      rw [ptUnmapMemoryFrom]
      split
      case isFalse => exact ⟨rfl, fun _ _ => rfl⟩
      split
      case isTrue => exact ⟨rfl, fun _ _ => rfl⟩
      simp only []
      set s' := if (s.tmp j).isEntryPresent then s.setTmp j Entry.zero else s with hs'
      have hpt : s'.kernelPt = s.kernelPt := by
        rw [hs']
        split
        · rfl
        · rfl
      have hmem : ∀ f, f ≠ t → s'.mem f = s.mem f := by
        intro f hf
        rw [hs']
        split
        · rw [State.setTmp, ht, State.mem_set, Function.update_of_ne hf]
        · rfl
      have hframe : 0 < n → s'.tmpFrame = t := by
        intro hpos
        rw [hs']
        split
        · rw [tmpFrame_setTmp, ht]
          rw [kernelTmpPtIdx]
          omega
        · exact ht
      obtain ⟨hpt', hmem'⟩ := @ih s' (j + 1) (freed + fourKb) (by omega) hframe
      exact ⟨hpt'.trans hpt, fun f hf => (hmem' f hf).trans (hmem f hf)⟩

theorem ptUnmapMemory_frame (s : State) (pdtIdx : ℕ) (vaddr size : UInt32) :
  (ptUnmapMemory s pdtIdx vaddr size).2.kernelPt = s.kernelPt ∧
    ∀ f, f ≠ s.tmpFrame → (ptUnmapMemory s pdtIdx vaddr size).2.mem f = s.mem f
  := by
  have hj := virtualToPtIdx_lt vaddr
  exact ptUnmapMemoryFrom_frame (by omega) (fun _ => rfl)

/-- A round on a slot with a page table removes the entry of the slot, or it leaves the directory
as it is. -/
theorem unmapRound_dir (hsize : size.toNat = 4096 * p)
    (hne : s.table d (virtualToPdtIdx vaddr) ≠ d) :
  (unmapRound s d vaddr size).1 =
      UInt32.ofNat (cleared (virtualToPdtIdx vaddr) (virtualToPtIdx vaddr) p) * fourKb ∧
    (unmapRound s d vaddr size).2.mem d =
      if cleared (virtualToPdtIdx vaddr) (virtualToPtIdx vaddr) p = 1024 ∧
          virtualToPdtIdx vaddr ≠ kernelPdtIdx then
        Function.update (s.mem d) (virtualToPdtIdx vaddr) Entry.zero
      else
        s.mem d
  := by
  have hle := (cleared_le (virtualToPdtIdx vaddr) (virtualToPtIdx vaddr) p).2
  set s₁ := kernelMapTemporaryMemory s (s.table d (virtualToPdtIdx vaddr)) with hs₁
  have hsize₁ := ptUnmapMemory_size s₁ (virtualToPdtIdx vaddr) vaddr hsize
  obtain ⟨hpt, hframe⟩ := ptUnmapMemory_frame s₁ (virtualToPdtIdx vaddr) vaddr size
  rw [tmpFrame_map s (Entry.dvd_paddr _)] at hframe
  rcases hres : ptUnmapMemory s₁ (virtualToPdtIdx vaddr) vaddr size with ⟨freed, s₂⟩
  simp only [hres] at hsize₁ hpt hframe
  have hdir : (kernelSetTemporaryEntry s₂ (kernelGetTemporaryEntry s)).mem d = s.mem d := by
    have hpt' : s₂.kernelPt = s.kernelPt := hpt
    rw [kernelSetTemporaryEntry, hpt', State.mem_set]
    by_cases hd : d = s.kernelPt
    · -- the entry of the temporary mapping is restored
      rw [← hd, Function.update_self, hframe d (Ne.symm hne), hs₁, kernelMapTemporaryMemory,
        State.mem_set, ← hd, Function.update_self, Function.update_idem, kernelGetTemporaryEntry,
        ← hd, Function.update_eq_self]
    · rw [Function.update_of_ne hd, hframe d (Ne.symm hne), hs₁, mem_map_of_ne s _ hd]
  simp only [unmapRound, ← hs₁, hres, hsize₁, ofNat_mul_fourKb_eq_fourMb (hle.trans (Nat.sub_le _ _))]
  split
  · refine ⟨rfl, ?_⟩
    rw [State.mem_set, Function.update_self]
    exact congrArg (Function.update · _ Entry.zero) hdir
  · exact ⟨rfl, hdir⟩

/-! ### The walk -/

/-- No entry of the directory refers to the directory. -/
def NotSelf (s : State) (d : UInt32) : Prop :=
  ∀ i < 1024, s.has d i → s.table d i ≠ d

/-- What of the loop the walk has. -/
def Unmapping.walk (d : UInt32) (u : Unmapping) : Walk :=
  ⟨u.vaddr.toNat, fun i => (u.state.mem d i).isEntryPresent⟩

theorem virtualToPdtIdx_eq_div (a : UInt32) :
  virtualToPdtIdx a = a.toNat / 0x400000
  := by
  rw [virtualToPdtIdx_eq]
  omega

theorem toNat_alignUp_fourMb (a : UInt32) :
  (alignUp a fourMb).toNat = (a.toNat + 0x3FFFFF) / 0x400000 * 0x400000 % 2 ^ 32
  := by
  rw [toNat_alignUp_eq a (by decide), toNat_fourMb]

/-- The walk follows the loop. -/
theorem walk_step (hsize : size.toNat = 4096 * p) (endVaddr : UInt32) (u : Unmapping)
    (hself : NotSelf u.state d) :
  Walk.step p endVaddr.toNat (u.walk d) =
    Sum.map (Unmapping.walk d) (fun _ => ()) (pdtUnmapMemoryBody d size endVaddr u)
  := by
  have hi := virtualToPdtIdx_lt u.vaddr
  have hp : p < 2 ^ 20 := by
    have hlt := size.toNat_lt
    omega
  by_cases hlt : u.vaddr < endVaddr
  case neg =>
    have hge : endVaddr.toNat ≤ (u.walk d).addr := by
      rw [UInt32.lt_iff_toNat_lt, Nat.not_lt] at hlt
      exact hlt
    rw [Walk.step_leave hge, pdtUnmapMemoryBody, if_neg hlt]
    rfl
  have haddr : (u.walk d).addr < endVaddr.toNat := UInt32.lt_iff_toNat_lt.mp hlt
  have hslot : (u.walk d).addr / 0x400000 = virtualToPdtIdx u.vaddr :=
    (virtualToPdtIdx_eq_div u.vaddr).symm
  have hidx : (u.walk d).addr / 4096 % 1024 = virtualToPtIdx u.vaddr :=
    (virtualToPtIdx_eq u.vaddr).symm
  rw [pdtUnmapMemoryBody, if_pos hlt]
  by_cases hhas : u.state.has d (virtualToPdtIdx u.vaddr)
  · obtain ⟨hfreed, hmem⟩ := unmapRound_dir hsize (hself _ hi hhas)
    rw [if_pos hhas, Walk.step_present haddr (by rwa [hslot]) (by rw [hslot, hidx])]
    rcases hround : unmapRound u.state d u.vaddr size with ⟨freed, s'⟩
    rw [hround] at hfreed hmem
    simp only at hfreed hmem
    have hle := (cleared_le (virtualToPdtIdx u.vaddr) (virtualToPtIdx u.vaddr) p).1
    have hnext : (u.vaddr + freed).toNat = (u.vaddr.toNat +
        4096 * cleared (virtualToPdtIdx u.vaddr) (virtualToPtIdx u.vaddr) p) % 2 ^ 32 := by
      rw [hfreed, UInt32.toNat_add, toNat_ofNat_mul_fourKb (by omega)]
    have htables : (fun i => (s'.mem d i).isEntryPresent) =
        if cleared (virtualToPdtIdx u.vaddr) (virtualToPtIdx u.vaddr) p = 1024 ∧
            virtualToPdtIdx u.vaddr ≠ kernelPdtIdx then
          Function.update (u.walk d).tables (virtualToPdtIdx u.vaddr) false
        else
          (u.walk d).tables := by
      rw [hmem]
      split
      · funext i
        by_cases hiv : i = virtualToPdtIdx u.vaddr
        · rw [hiv, Function.update_self, Function.update_self, isEntryPresent_zero]
        · rw [Function.update_of_ne hiv, Function.update_of_ne hiv]
          rfl
      · rfl
    have hwalk : Unmapping.walk d ⟨u.vaddr + freed, freed, s'⟩ =
        ⟨(u.vaddr + freed).toNat, fun i => (s'.mem d i).isEntryPresent⟩ := rfl
    rw [Sum.map_inl, hwalk, hnext, htables, hslot]
    rfl
  · have habsent : (u.walk d).tables ((u.walk d).addr / 0x400000) = false := by
      rw [hslot]
      show (u.state.mem d (virtualToPdtIdx u.vaddr)).isEntryPresent = false
      simpa using hhas
    rw [if_neg hhas, Walk.step_absent haddr habsent, Sum.map_inl, Unmapping.walk, Unmapping.walk,
      toNat_alignUp_fourMb]

/-- The page tables that are left are not the directory. -/
theorem notSelf_step (hsize : size.toNat = 4096 * p) {endVaddr : UInt32} {u u' : Unmapping}
    (hself : NotSelf u.state d) (hbody : pdtUnmapMemoryBody d size endVaddr u = .inl u') :
  NotSelf u'.state d
  := by
  rw [pdtUnmapMemoryBody] at hbody
  split at hbody
  case isFalse => simp at hbody
  split at hbody
  case isFalse =>
    obtain rfl := Sum.inl.inj hbody
    exact hself
  case isTrue hhas =>
    obtain ⟨-, hmem⟩ := unmapRound_dir hsize
      (hself _ (virtualToPdtIdx_lt u.vaddr) hhas)
    rcases hround : unmapRound u.state d u.vaddr size with ⟨freed, s'⟩
    rw [hround] at hbody hmem
    obtain rfl := Sum.inl.inj hbody
    intro i hi hsome
    have hmem' : s'.mem d = _ := hmem
    simp only [State.has, State.table, hmem'] at hsome ⊢
    split at hsome
    case isTrue hfreed =>
      rw [if_pos hfreed]
      by_cases hiv : i = virtualToPdtIdx u.vaddr
      · rw [hiv, Function.update_self] at hsome
        simp at hsome
      · rw [Function.update_of_ne hiv] at hsome ⊢
        exact hself i hi hsome
    case isFalse hkept =>
      rw [if_neg hkept]
      exact hself i hi hsome

/-- The loop is left if and only if the walk ends. -/
theorem pdtUnmapMemory_halts_iff (hself : NotSelf s d) :
  Loop.Halts (pdtUnmapMemoryBody d (alignUp size fourKb) (vaddr + alignUp size fourKb))
      ⟨vaddr, 0, s⟩ ↔
    Walk.Ends (fun i => (s.mem d i).isEntryPresent) (pages size) vaddr.toNat
  := by
  have hsize := toNat_alignUp_fourKb size
  have hend : (vaddr + alignUp size fourKb).toNat = (vaddr.toNat + 4096 * pages size) % 2 ^ 32 := by
    rw [UInt32.toNat_add, hsize]
  rw [← Walk.halts_iff vaddr.toNat_lt (pages_lt size), ← hend]
  exact Loop.halts_map (f := Unmapping.walk d) (g := fun _ => ())
    (fun u hu => walk_step hsize (vaddr + alignUp size fourKb) u hu)
    (fun u u' hu hbody => notSelf_step hsize hu hbody) hself

/-- For every directory that no entry of it refers to, every address and every size:
`pdt_unmap_memory` returns if and only if nothing stops the walk over the slots that have a page
table. -/
theorem unmap_memory_terminates_iff (hself : NotSelf s d) :
  (∃ n res, pdtUnmapMemory n s d vaddr size = some res) ↔
    Walk.Ends (fun i => (s.mem d i).isEntryPresent) (pages size) vaddr.toNat
  := by
  rw [← pdtUnmapMemory_halts_iff hself]
  exact exists_comm

/-- A page of the slot that has the page table in `oneTable`. -/
theorem unmap_memory_terminates_iff_oneTable :
  ∃ n res, pdtUnmapMemory n oneTable 0x101000 0xC0005000 4096 = some res
  := by
  apply (unmap_memory_terminates_iff kernelState_oneTable.dir.table_ne).mpr
  right
  right
  rw [if_pos (by decide)]
  exact ⟨by decide, Walk.passes_first (by decide) (by decide) (by decide)⟩

/-- The first slot of `oneTable` has no page table, and the loop stays at its beginning. -/
theorem absent_slot_not_left :
  NotSelf oneTable 0x101000 ∧ ∀ n, pdtUnmapMemory n oneTable 0x101000 0 4096 = none
  := by
  refine ⟨kernelState_oneTable.dir.table_ne, ?_⟩
  have hbody : pdtUnmapMemoryBody 0x101000 (alignUp 4096 fourKb) (0 + alignUp 4096 fourKb)
      ⟨0, 0, oneTable⟩ = .inl ⟨0, 0, oneTable⟩ := by
    simp only [pdtUnmapMemoryBody]
    rw [if_pos (by decide), if_neg (by decide)]
    rfl
  intro n
  induction n with
  | zero => rfl
  | succ n ih =>
      rw [pdtUnmapMemory, Loop.run_continue hbody]
      exact ih

end Paging
