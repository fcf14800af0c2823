import Aenix.Paging.Active
import Aenix.Paging.Terminates

/-!
# The temporary mapping

`pdt_kernel_find_next_vaddr`, `pdt_map_memory`, `pdt_unmap_memory` and `get_pdt_paddr` use the last entry of
the first kernel page table to reach other page tables, that table itself among them.  When they return the
entry is what it was, and they neither find, nor map, nor unmap the page that it stands for
(`temporary_mapping_transparent`).
-/

open Aenix

namespace Paging

/-- `KERNEL_TMP_VADDR`. -/
abbrev kernelTmpVaddr : UInt32 := 0xC03FF000

/-- The number of the page at `KERNEL_TMP_VADDR`. -/
abbrev tmpPage : ℕ := 1024 * kernelPdtIdx + kernelTmpPtIdx

/-- The numbers of the pages of a size, from that of an address on. -/
def pageRange (vaddr size : UInt32) : List ℕ :=
  (List.range (size.toNat / 4096)).map (vaddr.toNat / 4096 + ·)

/-- The pages for which the rounds of `pdt_map_memory` write an entry, also when it fails in the end. -/
def pagesMappedFrom (d : UInt32) (rw pl : UInt8) :
    ℕ → State → UInt32 → UInt32 → UInt32 → List ℕ
  | 0, _, _, _, _ => []
  | n + 1, s, paddr, vaddr, size =>
    if size = 0 then
      []
    else
      let (mappedSize, s) := mapRound s d paddr vaddr size rw pl
      if mappedSize = 0 then
        []
      else
        pageRange vaddr mappedSize ++ pagesMappedFrom d rw pl n s (paddr + mappedSize) (vaddr + mappedSize)
          (size - mappedSize)

/-- The pages that `pdt_map_memory` maps. -/
def pagesMapped (s : State) (d paddr vaddr size : UInt32) (rw pl : UInt8) : List ℕ :=
  let size := alignUp size fourKb
  pagesMappedFrom d rw pl (size / fourKb).toNat s paddr vaddr size

/-- The pages whose entries the first `n` rounds of `pdt_unmap_memory` clear. -/
def pagesUnmappedFrom (d size endVaddr : UInt32) : ℕ → Unmapping → List ℕ
  | 0, _ => []
  | n + 1, u =>
    match pdtUnmapMemoryBody d size endVaddr u with
    | .inl u' =>
      (if (u.state.mem d (virtualToPdtIdx u.vaddr)).isEntryPresent then pageRange u.vaddr u'.freedSize
        else []) ++ pagesUnmappedFrom d size endVaddr n u'
    | .inr _ => []

/-- The pages that `pdt_unmap_memory` unmaps in `n` rounds. -/
def pagesUnmapped (n : ℕ) (s : State) (d vaddr size : UInt32) : List ℕ :=
  let size := alignUp size fourKb
  pagesUnmappedFrom d size (vaddr + size) n ⟨vaddr, 0, s⟩

/-- Only slot `KERNEL_PT_PDT_IDX` of the directory may have the page table with the temporary mapping, and
in `kernel_pdt` it has. -/
structure TmpSlot (s : State) (d : UInt32) : Prop where
  ne_pt : d ≠ s.kernelPt
  table_pt : ∀ i < 1024, s.has d i → s.table d i = s.kernelPt → i = kernelPdtIdx
  kernel_has : s.has s.kernelPdt kernelPdtIdx
  kernel_table : s.table s.kernelPdt kernelPdtIdx = s.kernelPt

/-- The directory is not one of its page tables, and the page table of slot `KERNEL_PT_PDT_IDX` is that
of no other slot. -/
structure OwnSlot (s : State) (d : UInt32) : Prop where
  table_ne : ∀ i < 1024, s.has d i → s.table d i ≠ d
  own : ∀ i < 1024, s.has d i → s.has d kernelPdtIdx → s.table d i = s.table d kernelPdtIdx →
    i = kernelPdtIdx

variable {s s' : State} {d paddr vaddr size : UInt32} {rw pl : UInt8} {p : ℕ}

/-! ### The entry of the temporary mapping -/

theorem kernelGetTemporaryEntry_set (s : State) (e : Entry) :
  kernelGetTemporaryEntry (kernelSetTemporaryEntry s e) = e
  := by
  simp [kernelGetTemporaryEntry, kernelSetTemporaryEntry]

/-- The loop of `pt_map_memory` maps pages up to the end of the table, but not that of the temporary
mapping. -/
theorem ptMapMemoryFrom_size (pdtIdx : ℕ) (size : UInt32) (rw pl : UInt8) {j n : ℕ} (hn : j + n = 1024)
    (s : State) (paddr mapped : UInt32) :
  (ptMapMemoryFrom pdtIdx size rw pl n s j paddr mapped).2.kernelPt = s.kernelPt ∧
    ∃ m ≤ n, (ptMapMemoryFrom pdtIdx size rw pl n s j paddr mapped).1 =
      mapped + UInt32.ofNat m * fourKb ∧ (pdtIdx = kernelPdtIdx → 0 < m → j + m ≤ kernelTmpPtIdx)
  := by
  have hnone : mapped = mapped + UInt32.ofNat 0 * fourKb := by simp
  induction n generalizing s j paddr mapped with
  | zero => exact ⟨rfl, 0, le_rfl, hnone, fun _ h => absurd h (Nat.lt_irrefl 0)⟩
  | succ n ih =>
      rw [ptMapMemoryFrom]
      split
      case isFalse => exact ⟨rfl, 0, Nat.zero_le _, hnone, fun _ h => absurd h (Nat.lt_irrefl 0)⟩
      split
      case isTrue => exact ⟨rfl, 0, Nat.zero_le _, hnone, fun _ h => absurd h (Nat.lt_irrefl 0)⟩
      split
      case isTrue => exact ⟨rfl, 0, Nat.zero_le _, hnone, fun _ h => absurd h (Nat.lt_irrefl 0)⟩
      case isFalse hguard =>
        obtain ⟨hpt, m, hm, hsize, hspared⟩ := ih (j := j + 1) (by omega)
          (s.setTmp j (createPtEntry paddr rw pl)) (paddr + fourKb) (mapped + fourKb) (by simp)
        refine ⟨hpt, m + 1, by omega, ?_, ?_⟩
        · rw [hsize, add_ofNat_succ_mul]
        · intro hidx _
          rw [kernelTmpPtIdx] at hguard hspared ⊢
          by_cases hzero : m = 0
          · have hne : j ≠ 1023 := fun heq => hguard ⟨hidx, heq⟩
            omega
          · have hle := hspared hidx (by omega)
            omega

theorem ptMapMemory_size (s : State) (paddr vaddr size : UInt32) (rw pl : UInt8) :
  (ptMapMemory s (virtualToPdtIdx vaddr) paddr vaddr size rw pl).2.kernelPt = s.kernelPt ∧
    ∃ m ≤ 1024 - virtualToPtIdx vaddr,
      (ptMapMemory s (virtualToPdtIdx vaddr) paddr vaddr size rw pl).1 = UInt32.ofNat m * fourKb ∧
      (virtualToPdtIdx vaddr = kernelPdtIdx → 0 < m → virtualToPtIdx vaddr + m ≤ kernelTmpPtIdx)
  := by
  have hj := virtualToPtIdx_lt vaddr
  obtain ⟨hpt, m, hm, hsize, hspared⟩ := ptMapMemoryFrom_size (virtualToPdtIdx vaddr) size rw pl
    (Nat.add_sub_of_le hj.le) s paddr 0
  rw [UInt32.zero_add] at hsize
  exact ⟨hpt, m, hm, hsize, hspared⟩

/-- Pages of one slot before that of the temporary mapping, or of another slot. -/
theorem tmpPage_notMem_pageRange {m : ℕ} (hm : virtualToPtIdx vaddr + m ≤ 1024)
    (hspared : virtualToPdtIdx vaddr = kernelPdtIdx → 0 < m → virtualToPtIdx vaddr + m ≤ kernelTmpPtIdx) :
  tmpPage ∉ pageRange vaddr (UInt32.ofNat m * fourKb)
  := by
  intro hmem
  rw [pageRange, toNat_ofNat_mul_fourKb (by omega), List.mem_map] at hmem
  obtain ⟨k, hk, heq⟩ := hmem
  rw [List.mem_range] at hk
  rw [virtualToPdtIdx_eq, virtualToPtIdx_eq] at hspared
  rw [virtualToPtIdx_eq] at hm
  simp only [tmpPage, kernelPdtIdx, kernelTmpPtIdx] at hspared heq
  omega

/-- What a part of one of the functions does that deals with the given pages. -/
structure KeepsSlot (s s' : State) (mapped : List ℕ) : Prop where
  pt : s'.kernelPt = s.kernelPt
  entry : kernelGetTemporaryEntry s' = kernelGetTemporaryEntry s
  spared : tmpPage ∉ mapped

theorem KeepsSlot.refl (s : State) :
  KeepsSlot s s []
  := ⟨rfl, rfl, List.not_mem_nil⟩

theorem KeepsSlot.trans {s'' : State} {pages₁ pages₂ : List ℕ} (h : KeepsSlot s s' pages₁)
    (h' : KeepsSlot s' s'' pages₂) :
  KeepsSlot s s'' (pages₁ ++ pages₂)
  := by
  refine ⟨h'.pt.trans h.pt, h'.entry.trans h.entry, ?_⟩
  rw [List.mem_append]
  exact not_or.mpr ⟨h.spared, h'.spared⟩

/-- The page table is opened through the entry of the temporary mapping. -/
theorem openTable_slot (s : State) (d : UInt32) (i : ℕ) :
  (openTable s d i).2.kernelPt = s.kernelPt ∧
    ((openTable s d i).1 = none → kernelGetTemporaryEntry (openTable s d i).2 = kernelGetTemporaryEntry s)
  := by
  rw [openTable]
  split
  · exact ⟨rfl, fun h => absurd h (Option.some_ne_none _)⟩
  · rcases Pfa.pfaAllocate s.pfa 1 with ⟨t, pfa⟩
    simp only []
    split
    · exact ⟨rfl, fun _ => rfl⟩
    · exact ⟨rfl, fun h => absurd h (Option.some_ne_none _)⟩

/-- A round of `pdt_map_memory`. -/
theorem mapRound_keepsSlot (s : State) (d paddr vaddr size : UInt32) (rw pl : UInt8) :
  KeepsSlot s (mapRound s d paddr vaddr size rw pl).2
    (pageRange vaddr (mapRound s d paddr vaddr size rw pl).1)
  := by
  have hj := virtualToPtIdx_lt vaddr
  obtain ⟨hpt, hnone⟩ := openTable_slot s d (virtualToPdtIdx vaddr)
  have hzero : tmpPage ∉ pageRange vaddr 0 := by simp [pageRange]
  rw [mapRound]
  rcases hopen : openTable s d (virtualToPdtIdx vaddr) with ⟨_ | t, s₁⟩
  · rw [hopen] at hpt hnone
    exact ⟨hpt, hnone rfl, hzero⟩
  · rw [hopen] at hpt
    obtain ⟨hpt', m, hm, hsize, hspared⟩ := ptMapMemory_size s₁ paddr vaddr size rw pl
    rcases hmap : ptMapMemory s₁ (virtualToPdtIdx vaddr) paddr vaddr size rw pl with ⟨mapped, s₂⟩
    simp only [hmap] at hpt' hsize
    have hpages : tmpPage ∉ pageRange vaddr mapped := by
      rw [hsize]
      exact tmpPage_notMem_pageRange (by omega) hspared
    have hkernel : s₂.kernelPt = s.kernelPt := hpt'.trans hpt
    simp only [hmap]
    split
    · exact ⟨hkernel, kernelGetTemporaryEntry_set _ _, hzero⟩
    · refine ⟨?_, kernelGetTemporaryEntry_set _ _, hpages⟩
      split
      · apply hkernel
      · apply hkernel

/-- The rounds of `pdt_map_memory`. -/
theorem pdtMapMemoryFrom_keepsSlot (s : State) (d : UInt32) (rw pl : UInt8) (n : ℕ)
    (paddr vaddr size total : UInt32) :
  KeepsSlot s (pdtMapMemoryFrom d rw pl n s paddr vaddr size total).2
    (pagesMappedFrom d rw pl n s paddr vaddr size)
  := by
  induction n generalizing s paddr vaddr size total with
  | zero => exact KeepsSlot.refl s
  | succ n ih =>
      rw [pdtMapMemoryFrom, pagesMappedFrom]
      split
      case isTrue => exact KeepsSlot.refl s
      have hround := mapRound_keepsSlot s d paddr vaddr size rw pl
      rcases hmap : mapRound s d paddr vaddr size rw pl with ⟨mapped, s₁⟩
      rw [hmap] at hround
      simp only []
      split
      case isTrue => exact ⟨hround.pt, hround.entry, List.not_mem_nil⟩
      case isFalse => exact hround.trans (ih s₁ _ _ _ _)

/-- A round of `pdt_unmap_memory` on a slot with a page table. -/
theorem unmapRound_keepsSlot (hd : d ≠ s.kernelPt) (vaddr : UInt32) (hsize : size.toNat = 4096 * p) :
  KeepsSlot s (unmapRound s d vaddr size).2 (pageRange vaddr (unmapRound s d vaddr size).1)
  := by
  have hj := virtualToPtIdx_lt vaddr
  set s₁ := kernelMapTemporaryMemory s (s.table d (virtualToPdtIdx vaddr)) with hs₁
  have hfreed := ptUnmapMemory_size s₁ (virtualToPdtIdx vaddr) vaddr hsize
  have hpt := (ptUnmapMemory_frame s₁ (virtualToPdtIdx vaddr) vaddr size).1
  have hpages : tmpPage ∉ pageRange vaddr (ptUnmapMemory s₁ (virtualToPdtIdx vaddr) vaddr size).1 := by
    have hle := (cleared_le (virtualToPdtIdx vaddr) (virtualToPtIdx vaddr) p).2
    rw [hfreed]
    apply tmpPage_notMem_pageRange (by omega)
    intro hidx hpos
    rw [cleared, if_pos hidx] at hpos ⊢
    omega
  rw [unmapRound]
  rcases hunmap : ptUnmapMemory s₁ (virtualToPdtIdx vaddr) vaddr size with ⟨freed, s₂⟩
  rw [hunmap] at hpt hpages
  dsimp only
  split
  · refine ⟨hpt, ?_, hpages⟩
    have hne : (kernelSetTemporaryEntry s₂ (kernelGetTemporaryEntry s)).kernelPt ≠ d := by
      show s₂.kernelPt ≠ d
      rw [hpt]
      apply hd.symm
    rw [kernelGetTemporaryEntry, State.set_kernelPt, State.mem_set, Function.update_of_ne hne]
    apply kernelGetTemporaryEntry_set s₂ _
  · exact ⟨hpt, kernelGetTemporaryEntry_set s₂ _, hpages⟩

/-- The rounds of `pdt_unmap_memory`, as far as they have come. -/
theorem pdtUnmapMemory_keepsSlot (hsize : size.toNat = 4096 * p) (endVaddr : UInt32) (n : ℕ)
    (u : Unmapping) (hd : d ≠ u.state.kernelPt) :
  tmpPage ∉ pagesUnmappedFrom d size endVaddr n u ∧
    ∀ res, Loop.run (pdtUnmapMemoryBody d size endVaddr) n u = some res →
      res.2.kernelPt = u.state.kernelPt ∧ kernelGetTemporaryEntry res.2 = kernelGetTemporaryEntry u.state
  := by
  induction n generalizing u with
  | zero => exact ⟨List.not_mem_nil, fun _ hres => by simp [Loop.run] at hres⟩
  | succ n ih =>
      rw [pagesUnmappedFrom]
      rcases hbody : pdtUnmapMemoryBody d size endVaddr u with u' | res
      · -- what the round does before the rest of the loop
        have hround : KeepsSlot u.state u'.state (if u.state.has d (virtualToPdtIdx u.vaddr)
            then pageRange u.vaddr u'.freedSize else []) := by
          rw [pdtUnmapMemoryBody] at hbody
          split at hbody
          case isFalse => simp at hbody
          split at hbody
          case isTrue hhas =>
            rw [if_pos hhas]
            obtain rfl := Sum.inl.inj hbody
            apply unmapRound_keepsSlot hd u.vaddr hsize
          case isFalse hhas =>
            rw [if_neg hhas]
            obtain rfl := Sum.inl.inj hbody
            apply KeepsSlot.refl u.state
        obtain ⟨hrest, hres⟩ := ih u' (by rwa [hround.pt])
        refine ⟨?_, ?_⟩
        · simp only [List.mem_append, not_or]
          exact ⟨hround.spared, hrest⟩
        · intro res hrun
          rw [Loop.run_continue hbody] at hrun
          obtain ⟨hpt, hentry⟩ := hres res hrun
          exact ⟨hpt.trans hround.pt, hentry.trans hround.entry⟩
      · refine ⟨List.not_mem_nil, ?_⟩
        intro res' hrun
        rw [Loop.run_leave hbody] at hrun
        obtain rfl := Option.some.inj hrun
        rw [pdtUnmapMemoryBody] at hbody
        split at hbody
        case isTrue =>
          split at hbody
          · simp at hbody
          · simp at hbody
        case isFalse =>
          obtain rfl := Sum.inr.inj hbody
          exact ⟨rfl, rfl⟩

/-! ### The translation of the page -/

theorem virtualToIdx_kernelTmpVaddr :
  virtualToPdtIdx kernelTmpVaddr = kernelPdtIdx ∧ virtualToPtIdx kernelTmpVaddr = kernelTmpPtIdx
  := by decide

/-- The page at `KERNEL_TMP_VADDR` depends on the entry of the slot and on the last entry of its page
table. -/
theorem page_tmp_congr (hentry : s'.mem d kernelPdtIdx = s.mem d kernelPdtIdx)
    (htable : s.has d kernelPdtIdx →
      s'.mem (s.table d kernelPdtIdx) kernelTmpPtIdx = s.mem (s.table d kernelPdtIdx) kernelTmpPtIdx) :
  s'.page d kernelTmpVaddr = s.page d kernelTmpVaddr
  := State.page_congr hentry htable

theorem OwnSlot.congr (h : OwnSlot s d) (hmem : s'.mem d = s.mem d) :
  OwnSlot s' d
  := by
  constructor
  · intro i hi hhas
    rw [State.has, hmem] at hhas
    rw [State.table, hmem]
    apply h.table_ne i hi hhas
  · intro i hi hhas hown
    rw [State.has, hmem] at hhas hown
    rw [State.table, State.table, hmem]
    apply h.own i hi hhas hown

/-- Writing to the page table of a slot, but not to the last entry of that of slot
`KERNEL_PT_PDT_IDX`. -/
theorem OwnSlot.page_fill (h : OwnSlot s d) {i : ℕ} (hi : i < 1024) (hhas : s.has d i) {t : Table}
    (ht : i = kernelPdtIdx → t kernelTmpPtIdx = s.mem (s.table d i) kernelTmpPtIdx) :
  (s.fill (s.table d i) t).page d kernelTmpVaddr = s.page d kernelTmpVaddr
  := by
  have hne := h.table_ne i hi hhas
  apply page_tmp_congr
  · rw [State.mem_fill, Function.update_of_ne hne.symm]
  · intro hown
    by_cases hidx : i = kernelPdtIdx
    · subst hidx
      rw [State.mem_fill, Function.update_self, ht rfl]
    · rw [State.mem_fill, Function.update_of_ne]
      exact fun heq => hidx (h.own i hi hhas hown heq.symm)

/-- What `pdt_map_memory` relies on to leave the page at `KERNEL_TMP_VADDR` as it is: no page table in use is
free, and the slot has a page table of its own. -/
structure MapReady (s : State) (d : UInt32) : Prop extends Tables s d where
  map : Pfa.FrameMap s.pfa
  own : ∀ i < 1024, s.has d i → s.has d kernelPdtIdx → s.table d i = s.table d kernelPdtIdx →
    i = kernelPdtIdx

theorem MapReady.ownSlot (h : MapReady s d) :
  OwnSlot s d
  := ⟨h.table_ne, h.own⟩

/-- A new page table in a free frame. -/
theorem MapReady.withTable (h : MapReady s d) {i j m : ℕ} (hhas : ¬ s.has d i) {t : UInt32}
    (ht : t.toNat ∈ s.pfa.free) (hdvd : 4096 ∣ t.toNat) {pfa : Pfa.State} (hmap : Pfa.SameMap s.pfa pfa)
    (hfree : pfa.free = {f ∈ s.pfa.free | f ≠ t.toNat}) :
  MapReady ({ s with pfa := pfa }.withTable d i j m t paddr rw pl) d
  := by
  refine ⟨h.toTables.withTable hhas ht hdvd hfree, ?_, ?_⟩
  · rw [State.withTable_pfa]
    apply hmap.frameMap h.map
  · intro k hk hsome hown heq
    rcases h.toTables.withTable_shared hhas ht hdvd hk (by decide) hsome hown heq with
      hkl | ⟨hold, hold', heq'⟩
    · apply hkl
    · apply h.own k hk hold hold' heq'

/-- A round of `pdt_map_memory`. -/
theorem MapReady.round (h : MapReady s d) (hsize : size.toNat = 4096 * p) (paddr vaddr : UInt32)
    (rw pl : UInt8) :
  ∃ m s', m ≤ p ∧ mapRound s d paddr vaddr size rw pl = (UInt32.ofNat m * fourKb, s') ∧
    MapReady s' d ∧ s'.page d kernelTmpVaddr = s.page d kernelTmpVaddr
  := by
  have hi := virtualToPdtIdx_lt vaddr
  by_cases hhas : s.has d (virtualToPdtIdx vaddr)
  · have hne := h.table_ne _ hi hhas
    obtain ⟨m, hstretch, hround⟩ := mapRound_has hsize hhas hne h.ne_pt paddr rw pl
    refine ⟨m, _, hstretch.le, hround, ?_, ?_⟩
    · have hmem : (s.fill (s.table d (virtualToPdtIdx vaddr)) (fillEntries (virtualToPtIdx vaddr) m
          paddr rw pl (s.mem (s.table d (virtualToPdtIdx vaddr))))).mem d = s.mem d := by
        rw [State.mem_fill, Function.update_of_ne hne.symm]
      exact ⟨h.toTables.congr hmem subset_rfl rfl, h.map, (h.ownSlot.congr hmem).own⟩
    · apply h.ownSlot.page_fill hi hhas
      intro hidx
      rw [fillEntries, if_neg]
      rintro ⟨hle, hlt⟩
      exact (hstretch.vacant _ hle hlt).2 ⟨hidx, rfl⟩
  · rcases pfaAllocate_one h.map with ⟨-, hfail⟩ | ⟨t, pfa, hok, ht, hmap, hin, hfree, hdvd⟩
    · exact ⟨0, s, Nat.zero_le p, mapRound_no_frame hhas hfail, h, rfl⟩
    · have htd := h.toTables.free_ne hin
      have htpt : t ≠ s.kernelPt := fun heq => h.pt_used (heq ▸ hin)
      obtain ⟨m, hstretch, hround⟩ := mapRound_frame hsize hhas hok ht hdvd htd htpt h.ne_pt paddr
        rw pl
      refine ⟨m, _, hstretch.le, hround, h.withTable hhas hin hdvd hmap hfree, ?_⟩
      obtain ⟨hpdt, hpt⟩ := virtualToIdx_kernelTmpVaddr
      by_cases hidx : virtualToPdtIdx vaddr = kernelPdtIdx
      · -- the new page table is that of the slot, and its last entry is left vacant
        rw [State.withTable_page (s := { s with pfa := pfa }) htd hdvd (hpdt.trans hidx.symm) hhas,
          hpt, if_neg, State.page_of_not_has (by rwa [hpdt, ← hidx])]
        rintro ⟨hle, hlt⟩
        exact (hstretch.vacant _ hle hlt).2 ⟨hidx, rfl⟩
      · apply page_tmp_congr (State.withTable_mem_dir_of_ne htd (Ne.symm hidx))
        intro hown
        have hlt : kernelPdtIdx < 1024 := by decide
        rw [State.withTable_mem_of_ne (h.table_ne _ hlt hown)]
        apply h.toTables.table_ne_free hin hlt hown

/-- The rounds of `pdt_map_memory`. -/
theorem MapReady.page_tmp (h : MapReady s d) (rw pl : UInt8) (n : ℕ) (hsize : size.toNat = 4096 * p)
    (paddr vaddr total : UInt32) :
  (pdtMapMemoryFrom d rw pl n s paddr vaddr size total).2.page d kernelTmpVaddr =
    s.page d kernelTmpVaddr
  := by
  induction n generalizing s p paddr vaddr size total with
  | zero => rfl
  | succ n ih =>
      obtain ⟨m, s₁, hmp, hround, hnext, hpage⟩ := h.round hsize paddr vaddr rw pl
      have hlt := size.toNat_lt
      have hmapped := toNat_ofNat_mul_fourKb (show m < 2 ^ 20 by omega)
      have hrest : (size - UInt32.ofNat m * fourKb).toNat = 4096 * (p - m) := by
        rw [UInt32.toNat_sub_of_le, hmapped]
        · omega
        · rw [UInt32.le_iff_toNat_le]
          omega
      rw [pdtMapMemoryFrom]
      split
      case isTrue => rfl
      simp only [hround]
      split
      case isTrue => exact hpage
      case isFalse => exact (ih hnext hrest _ _ _).trans hpage

/-- What `pdt_unmap_memory` relies on to leave the page at `KERNEL_TMP_VADDR` as it is. -/
structure UnmapReady (s : State) (d : UInt32) : Prop extends OwnSlot s d where
  table_pt : ∀ i < 1024, s.has d i → s.table d i = s.kernelPt → i = kernelPdtIdx

/-- A round of `pdt_unmap_memory` on a slot with a page table. -/
theorem UnmapReady.withoutPages (h : UnmapReady s d) {i j m : ℕ} (hi : i < 1024) (hhas : s.has d i)
    (hspared : i = kernelPdtIdx → j + m ≤ kernelTmpPtIdx ∨ m = 0) :
  UnmapReady (s.withoutPages d i j m) d ∧
    (s.withoutPages d i j m).page d kernelTmpVaddr = s.page d kernelTmpVaddr
  := by
  have hne := h.table_ne i hi hhas
  have hpt := (State.withoutPages_vars s d i j m).kernelPt
  refine ⟨⟨⟨?_, ?_⟩, ?_⟩, ?_⟩
  · intro k hk hsome
    obtain ⟨hold, heq, -⟩ := State.withoutPages_has hne hsome
    rw [State.table, heq]
    apply h.table_ne k hk hold
  · intro k hk hsome hown htables
    obtain ⟨hold, heq, -⟩ := State.withoutPages_has hne hsome
    obtain ⟨hold', heq', -⟩ := State.withoutPages_has hne hown
    rw [State.table, State.table, heq, heq'] at htables
    apply h.own k hk hold hold' htables
  · intro k hk hsome htable
    obtain ⟨hold, heq, -⟩ := State.withoutPages_has hne hsome
    rw [State.table, heq, hpt] at htable
    apply h.table_pt k hk hold htable
  · apply page_tmp_congr
    · by_cases hidx : i = kernelPdtIdx
      · rw [State.withoutPages_mem_dir hne, if_neg (fun hclose => hclose.2 hidx)]
      · exact State.withoutPages_mem_dir_of_ne hne (Ne.symm hidx)
    · intro hown
      by_cases hidx : i = kernelPdtIdx
      · subst hidx
        rw [State.withoutPages_mem_table hne, clearEntries, if_neg]
        rintro ⟨hle, hlt, -⟩
        rcases hspared rfl with hend | hnone
        · omega
        · omega
      · rw [State.withoutPages_mem_of_ne (h.table_ne _ (by decide) hown)]
        exact fun heq => hidx (h.own i hi hhas hown heq.symm)

/-- Whenever `pdt_unmap_memory` returns. -/
theorem UnmapReady.page_tmp (h : UnmapReady s d) {n : ℕ} {r : UInt32}
    (hrun : pdtUnmapMemory n s d vaddr size = some (r, s')) :
  s'.page d kernelTmpVaddr = s.page d kernelTmpVaddr
  := by
  have hall := Loop.run_of_invariant
    (fun u => UnmapReady u.state d ∧ u.state.page d kernelTmpVaddr = s.page d kernelTmpVaddr)
    (fun r => r.2.page d kernelTmpVaddr = s.page d kernelTmpVaddr) ?_ ?_ ⟨h, rfl⟩ hrun
  · apply hall
  · rintro u u' ⟨hu, hpage⟩ hbody
    rw [pdtUnmapMemoryBody] at hbody
    split at hbody
    case isFalse => simp at hbody
    split at hbody
    case isFalse =>
      obtain rfl := Sum.inl.inj hbody
      exact ⟨hu, hpage⟩
    case isTrue hhas =>
      have hi := virtualToPdtIdx_lt u.vaddr
      rw [unmapRound_has (toNat_alignUp_fourKb size) (hu.table_pt _ hi hhas)] at hbody
      obtain rfl := Sum.inl.inj hbody
      obtain ⟨hnext, heq⟩ := hu.withoutPages (j := virtualToPtIdx u.vaddr)
        (m := cleared (virtualToPdtIdx u.vaddr) (virtualToPtIdx u.vaddr) (pages size)) hi hhas (by
          intro hidx
          rw [cleared, if_pos hidx]
          omega)
      exact ⟨hnext, heq.trans hpage⟩
  · rintro u r ⟨-, hpage⟩ hbody
    rw [pdtUnmapMemoryBody] at hbody
    split at hbody
    · split at hbody
      · simp at hbody
      · simp at hbody
    · obtain rfl := Sum.inr.inj hbody
      apply hpage

/-! ### The functions -/

/-- The address that `pdt_kernel_find_next_vaddr` returns is that of pages before or after the page at
`KERNEL_TMP_VADDR`. -/
theorem pdtKernelFindNextVaddr_spares (h : s.has s.kernelPdt kernelPdtIdx) (size : UInt32) :
  ∃ v, pdtKernelFindNextVaddr s size = (v, s) ∧ v ≠ kernelTmpVaddr ∧
    (v ≠ 0 → tmpPage ∉ pageRange v (alignUp size fourKb))
  := by
  obtain ⟨v, hfind, hfree⟩ := pdtKernelFindNextVaddr_spec s size
  have hspared : v ≠ 0 → v.toNat / 4096 ≠ tmpPage ∧ tmpPage ∉ pageRange v (alignUp size fourKb) := by
    intro hv
    obtain ⟨i, j, hle, hi, hj, hv, hfree⟩ := hfree hv
    have hmem : ∀ {x}, x ∈ pageRange v (alignUp size fourKb) →
        ∃ k < pages size, x = 1024 * i + j + k := by
      intro x hx
      rw [pageRange, toNat_alignUp_fourKb, List.mem_map] at hx
      obtain ⟨k, hk, rfl⟩ := hx
      rw [List.mem_range] at hk
      exact ⟨k, by omega, by omega⟩
    rw [State.Free] at hfree
    split at hfree
    case isTrue hhas =>
      obtain ⟨hpos, hend, hvacant⟩ := hfree
      -- the entry of the temporary mapping is not among those found
      have hout : ∀ k < pages size, 1024 * i + j + k ≠ tmpPage := by
        intro k hk heq
        simp only [tmpPage, kernelPdtIdx, kernelTmpPtIdx] at heq
        exact (hvacant (j + k) (by omega) (by omega)).2
          ⟨by rw [kernelPdtIdx]; omega, by rw [kernelTmpPtIdx]; omega⟩
      refine ⟨?_, ?_⟩
      · rw [hv, Nat.mul_div_cancel_left _ (by decide)]
        exact hout 0 hpos
      · intro hin
        obtain ⟨k, hk, heq⟩ := hmem hin
        apply hout k hk heq.symm
    case isFalse hhas =>
      have hne : i ≠ kernelPdtIdx := by
        rintro rfl
        apply hhas h
      simp only [tmpPage, kernelPdtIdx, kernelTmpPtIdx] at hle hne hmem ⊢
      refine ⟨by omega, ?_⟩
      intro hin
      obtain ⟨k, hk, heq⟩ := hmem hin
      omega
  refine ⟨v, hfind, ?_, fun hv => (hspared hv).2⟩
  rintro rfl
  exact (hspared (by decide)).1 (by decide)

/-- The temporary mapping is transparent: its entry is the same when one of the functions returns, and the
page at `KERNEL_TMP_VADDR` is not one that they find, map or unmap.  When no other slot shares the page table
of its slot, and no page table in use is free, its translation is the same too. -/
theorem temporary_mapping_transparent (h : TmpSlot s d) :
  (∀ size, ∃ v s', pdtKernelFindNextVaddr s size = (v, s') ∧ KeepsSlot s s' [] ∧
    v ≠ kernelTmpVaddr ∧ (v ≠ 0 → tmpPage ∉ pageRange v (alignUp size fourKb))) ∧
  (∀ pdt, KeepsSlot s (getPdtPaddr s pdt).2 []) ∧
  (∀ paddr vaddr size rw pl,
    KeepsSlot s (pdtMapMemory s d paddr vaddr size rw pl).2 (pagesMapped s d paddr vaddr size rw pl) ∧
    (MapReady s d →
      (pdtMapMemory s d paddr vaddr size rw pl).2.page d kernelTmpVaddr = s.page d kernelTmpVaddr)) ∧
  (∀ n vaddr size, tmpPage ∉ pagesUnmapped n s d vaddr size ∧
    ∀ r s', pdtUnmapMemory n s d vaddr size = some (r, s') →
      KeepsSlot s s' (pagesUnmapped n s d vaddr size) ∧
      (OwnSlot s d → s'.page d kernelTmpVaddr = s.page d kernelTmpVaddr))
  := by
  refine ⟨?_, ?_, ?_, ?_⟩
  · intro size
    obtain ⟨v, hfind, hne, hspared⟩ := pdtKernelFindNextVaddr_spares h.kernel_has size
    exact ⟨v, s, hfind, KeepsSlot.refl s, hne, hspared⟩
  · intro pdt
    refine ⟨rfl, ?_, List.not_mem_nil⟩
    apply kernelGetTemporaryEntry_set _ _
  · intro paddr vaddr size rw pl
    refine ⟨pdtMapMemoryFrom_keepsSlot s d rw pl _ paddr vaddr _ 0, ?_⟩
    intro hready
    exact hready.page_tmp rw pl _ (toNat_alignUp_fourKb size) paddr vaddr 0
  · intro n vaddr size
    obtain ⟨hspared, hres⟩ := pdtUnmapMemory_keepsSlot (toNat_alignUp_fourKb size)
      (vaddr + alignUp size fourKb) n ⟨vaddr, 0, s⟩ h.ne_pt
    refine ⟨hspared, ?_⟩
    intro r s' hrun
    obtain ⟨hpt, hentry⟩ := hres (r, s') hrun
    refine ⟨⟨hpt, hentry, hspared⟩, ?_⟩
    intro hown
    exact UnmapReady.page_tmp ⟨hown, h.table_pt⟩ hrun

/-- Two pages from the one before that at `KERNEL_TMP_VADDR` on are to be mapped in `kernel_pdt`. -/
theorem temporary_mapping_transparent_oneTable :
  KeepsSlot oneTable (pdtMapMemory oneTable 0x101000 0x300000 0xC03FE000 0x2000 1 0).2
    (pagesMapped oneTable 0x101000 0x300000 0xC03FE000 0x2000 1 0) ∧
  (pdtMapMemory oneTable 0x101000 0x300000 0xC03FE000 0x2000 1 0).2.page 0x101000 kernelTmpVaddr =
    oneTable.page 0x101000 kernelTmpVaddr
  := by
  have hdir := kernelState_oneTable.dir
  have hslot : TmpSlot oneTable 0x101000 := ⟨by decide, hdir.table_pt, by decide, by decide⟩
  have hready : MapReady oneTable 0x101000 :=
    ⟨hdir.tables, kernelState_oneTable.pfa,
      fun i hi hhas hslot => hdir.table_inj i hi _ (by decide) hhas hslot⟩
  obtain ⟨hkeeps, hpage⟩ := (temporary_mapping_transparent hslot).2.2.1 0x300000 0xC03FE000 0x2000 1 0
  exact ⟨hkeeps, hpage hready⟩

end Paging
