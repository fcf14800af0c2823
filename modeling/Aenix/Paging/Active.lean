import Aenix.Paging.Unmap

/-!
# The active directory

The entries of the kernel half are copied into the directory of a process when it is loaded,
while `pdt_map_kernel_memory` and `pdt_unmap_kernel_memory` edit `kernel_pdt` alone.  In a run
whose calls open and close no 4 MB slot of the kernel half, the active directory agrees with
`kernel_pdt` (`active_directory_agrees`); a call that opens one breaks the agreement
(`opened_slot_missing`).
-/

open Aenix

namespace Paging

variable {s s' s₀ s₁ : State} {d pdt paddr vaddr size : UInt32} {rw pl : UInt8}

/-! ### Loading -/

/-- The directory in frame `d` with the entries of the kernel half that `kernel_pdt` has. -/
def State.kernelCopied (s : State) (d : UInt32) : Table := fun i =>
  if i ∈ List.range' kernelPdtIdx 256 ∧ s.has s.kernelPdt i then s.mem s.kernelPdt i else s.mem d i

theorem copyKernelEntries_eq (h : d ≠ s.kernelPdt) :
  copyKernelEntries s d = s.fill d (s.kernelCopied d)
  := by
  have hloop : ∀ (is : List ℕ) (x : State), x.kernelPdt = s.kernelPdt →
      is.foldl (fun s i =>
        if (s.mem s.kernelPdt i).isEntryPresent then s.set d i (s.mem s.kernelPdt i) else s) x =
      x.fill d fun i => if i ∈ is ∧ x.has x.kernelPdt i then x.mem x.kernelPdt i else x.mem d i := by
    intro is
    induction is with
    | nil =>
        intro x _
        simp [State.fill_self]
    | cons k is ih =>
        intro x hx
        have hd : x.kernelPdt ≠ d := by
          rw [hx]
          exact Ne.symm h
        rw [List.foldl_cons]
        split
        case isTrue hk =>
          have hmem : (x.set d k (x.mem x.kernelPdt k)).mem x.kernelPdt = x.mem x.kernelPdt := by
            rw [State.mem_set, Function.update_of_ne hd]
          rw [ih _ (by rw [State.set_kernelPdt, hx]), State.set_eq_fill, State.fill_fill]
          congr 1
          funext i
          simp only [State.has, State.fill_kernelPdt, State.mem_fill, Function.update_of_ne hd,
            Function.update_self, List.mem_cons]
          by_cases hik : i = k
          · subst hik
            simp [hk]
          · simp [hik]
        case isFalse hk =>
          rw [ih x hx]
          congr 1
          funext i
          simp only [List.mem_cons]
          by_cases hik : i = k
          · subst hik
            simp [State.has, hk]
          · simp [hik]
  exact hloop _ s rfl

theorem mem_kernelHalf {i : ℕ} :
  i ∈ List.range' kernelPdtIdx 256 ↔ kernelPdtIdx ≤ i ∧ i < 1024
  := by
  rw [List.mem_range'_1]

/-! ### Calls -/

/-- The calls that edit the kernel half of a directory. -/
inductive Call
  | load (pdt pdtPaddr : UInt32)
  | map (paddr vaddr size : UInt32) (rw pl : UInt8)
  | unmap (vaddr size : UInt32)

/-- The state after a call, with at most `n` rounds of the loop of `pdt_unmap_memory`. -/
def exec (n : ℕ) (s : State) : Call → Option State
  | .load pdt pdtPaddr => pdtLoadProcessPdt s pdt pdtPaddr
  | .map paddr vaddr size rw pl => some (pdtMapKernelMemory s paddr vaddr size rw pl).2
  | .unmap vaddr size => (pdtUnmapKernelMemory n s vaddr size).map Prod.snd

/-- The frame of the directory of a process, and the page tables of its user half, are in use and
are not part of the kernel's address space. -/
structure ProcessDir (s : State) (d : UInt32) : Prop where
  used : d.toNat ∉ s.pfa.free
  ne_pdt : d ≠ s.kernelPdt
  ne_pt : d ≠ s.kernelPt
  ne_table : ∀ i < 1024, s.has s.kernelPdt i → d ≠ s.table s.kernelPdt i
  tables_used : ∀ i < kernelPdtIdx, s.has d i → (s.table d i).toNat ∉ s.pfa.free

/-- The directory that is loaded is that of a process. -/
def Call.Valid (s : State) : Call → Prop
  | .load pdt pdtPaddr => s.resolve pdt = some pdtPaddr ∧ ProcessDir s pdtPaddr
  | .map .. => True
  | .unmap .. => True

/-- The call leaves the slots of the kernel half alone: the directory that is loaded has no entry
for a slot that `kernel_pdt` has none for, a mapping uses slots that have a page table, and less
than a slot is unmapped (or nothing, when the end of the range is beyond the address space). -/
def Call.Stable (s : State) : Call → Prop
  | .load _ pdtPaddr => ∀ i, kernelPdtIdx ≤ i → i < 1024 → ¬ s.has s.kernelPdt i →
      s.mem pdtPaddr i = s.mem s.kernelPdt i
  | .map _ vaddr size _ _ => ∀ v, kernelStartVaddr ≤ v → pageOff vaddr v < pages size →
      s.has s.kernelPdt (virtualToPdtIdx v)
  | .unmap vaddr size => pages size < 1024 ∨ vaddr + alignUp size fourKb ≤ vaddr

/-- A call with valid arguments. -/
def Step (s s' : State) : Prop :=
  ∃ n c, c.Valid s ∧ exec n s c = some s'

/-- A call with valid arguments that leaves the slots of the kernel half alone. -/
def StableStep (s s' : State) : Prop :=
  ∃ n c, c.Valid s ∧ c.Stable s ∧ exec n s c = some s'

/-- The active directory agrees with `kernel_pdt` on the kernel half: the entries are equal, every
address of the kernel has the same translation, and no page table it refers to is free. -/
structure Sees (s : State) : Prop where
  entries : ∀ i, kernelPdtIdx ≤ i → i < 1024 → s.mem s.cr3 i = s.mem s.kernelPdt i
  pages : ∀ v, kernelStartVaddr ≤ v → s.page s.cr3 v = s.page s.kernelPdt v
  tables : ∀ i < 1024, s.has s.cr3 i → (s.table s.cr3 i).toNat ∉ s.pfa.free

/-- The allocator and the directory of the kernel are in order. -/
structure KernelState (s : State) : Prop where
  pfa : Pfa.FrameMap s.pfa
  dir : Dir s s.kernelPdt
  managed : Managed s s.kernelPdt

/-- The invariant of runs: a process directory is active and has the kernel's entries. -/
structure Agrees (s : State) : Prop where
  kernel : KernelState s
  active : ProcessDir s s.cr3
  entries : ∀ i, kernelPdtIdx ≤ i → i < 1024 → s.mem s.cr3 i = s.mem s.kernelPdt i

theorem kernelPdtIdx_le_of_le {v : UInt32} (h : kernelStartVaddr ≤ v) :
  kernelPdtIdx ≤ virtualToPdtIdx v
  := by
  rw [UInt32.le_iff_toNat_le, show kernelStartVaddr.toNat = 0xC0000000 from rfl] at h
  rw [virtualToPdtIdx_eq, kernelPdtIdx]
  omega

theorem Agrees.sees (h : Agrees s) :
  Sees s
  := by
  constructor
  · exact h.entries
  · intro v hv
    have hi := virtualToPdtIdx_lt v
    simp only [State.page, h.entries _ (kernelPdtIdx_le_of_le hv) hi]
  · intro i hi hhas
    by_cases hk : kernelPdtIdx ≤ i
    · rw [State.has, h.entries i hk hi] at hhas
      rw [State.table, h.entries i hk hi]
      exact h.kernel.dir.table_used i hi hhas
    · exact h.active.tables_used i (by omega) hhas

/-! ### One call -/

/-- Loading the directory of a process makes it agree where `kernel_pdt` has entries. -/
theorem agrees_load {n : ℕ} (hs : KernelState s) (hvalid : (Call.load pdt d).Valid s)
    (hstable : (Call.load pdt d).Stable s) (hexec : exec n s (.load pdt d) = some s') :
  Agrees s'
  := by
  obtain ⟨hresolve, hdir⟩ := hvalid
  have hdvd : 4096 ∣ d.toNat := by
    obtain ⟨e, -, rfl⟩ := Option.map_eq_some_iff.mp hresolve
    exact e.dvd_paddr
  have hcr3 : d &&& 0xFFFFF000 = d := by
    rw [← UInt32.toNat_inj, toNat_and_mask]
    omega
  simp only [exec, pdtLoadProcessPdt, hresolve, Option.map_some, Option.some.injEq] at hexec
  rw [copyKernelEntries_eq hdir.ne_pdt, pdtSet, hcr3] at hexec
  have hother : ∀ f, f ≠ d → s'.mem f = s.mem f := by
    intro f hf
    rw [← hexec]
    exact Function.update_of_ne hf _ _
  have hself : s'.mem d = s.kernelCopied d := by
    rw [← hexec]
    exact Function.update_self ..
  obtain ⟨hpfa, hpdt, hpt, hcr3'⟩ : s'.pfa = s.pfa ∧ s'.kernelPdt = s.kernelPdt ∧
      s'.kernelPt = s.kernelPt ∧ s'.cr3 = d := by
    rw [← hexec]
    exact ⟨rfl, rfl, rfl, rfl⟩
  have hkernel : s'.mem s'.kernelPdt = s.mem s.kernelPdt := by
    rw [hpdt]
    exact hother _ (Ne.symm hdir.ne_pdt)
  refine ⟨⟨by rw [hpfa]; exact hs.pfa, ?_, ?_⟩, ⟨?_, ?_, ?_, ?_, ?_⟩, ?_⟩
  · rw [hpdt] at hkernel ⊢
    exact hs.dir.congr hkernel (by rw [hpfa]) hpt
  · intro i hi hne hhas
    rw [State.has, hkernel] at hhas
    rw [hpfa, State.table, hkernel]
    exact hs.managed i hi hne hhas
  · rw [hpfa, hcr3']
    exact hdir.used
  · rw [hpdt, hcr3']
    exact hdir.ne_pdt
  · rw [hpt, hcr3']
    exact hdir.ne_pt
  · intro i hi hhas
    rw [State.has, hkernel] at hhas
    rw [hcr3', State.table, hkernel]
    exact hdir.ne_table i hi hhas
  · intro i hi hhas
    have hmem : s'.mem s'.cr3 i = s.mem d i := by
      rw [hcr3', hself, State.kernelCopied, if_neg]
      rw [mem_kernelHalf]
      omega
    rw [State.has, hmem] at hhas
    rw [hpfa, State.table, hmem]
    exact hdir.tables_used i hi hhas
  · intro i hi hlt
    rw [hcr3', hself, State.kernelCopied, hkernel]
    by_cases hhas : s.has s.kernelPdt i
    · rw [if_pos ⟨mem_kernelHalf.mpr ⟨hi, hlt⟩, hhas⟩]
    · rw [if_neg (fun h => hhas h.2)]
      exact hstable i hi hlt hhas

/-- A mapping in slots that have page tables. -/
theorem Agrees.map {n : ℕ} (h : Agrees s) (hstable : (Call.map paddr vaddr size rw pl).Stable s)
    (hexec : exec n s (.map paddr vaddr size rw pl) = some s') :
  Agrees s'
  := by
  obtain ⟨m, s₂, r, hrun, hmaps, hres⟩ := pdtMapMemory_spec h.kernel.pfa
    h.kernel.dir.toSeparate paddr vaddr size rw pl
  have hm : m ≤ pages size := by omega
  obtain rfl : s₂ = s' := by
    simp only [exec, pdtMapKernelMemory, hrun] at hexec
    exact Option.some.inj hexec
  have hpdt := hmaps.vars.kernelPdt
  have hcr3 := hmaps.vars.cr3
  have hentries : ∀ i, kernelPdtIdx ≤ i → i < 1024 → s₂.mem s.kernelPdt i = s.mem s.kernelPdt i := by
    intro i hi hlt
    by_cases hhas : s.has s.kernelPdt i
    · exact hmaps.kept i hlt hhas
    · rcases hmaps.opened i hlt hhas with heq | ⟨t, -, -, -, -, v, hv, hvi⟩
      · exact heq
      · refine absurd (hvi ▸ hstable v ?_ (by omega)) hhas
        rw [virtualToPdtIdx_eq] at hvi
        rw [UInt32.le_iff_toNat_le, show kernelStartVaddr.toNat = 0xC0000000 from rfl]
        rw [kernelPdtIdx] at hi
        omega
  have hactive : s₂.mem s.cr3 = s.mem s.cr3 :=
    hmaps.other _ h.active.ne_pdt h.active.ne_table (fun hin => absurd hin h.active.used)
  refine ⟨⟨hmaps.map.frameMap h.kernel.pfa, by rw [hpdt]; exact hmaps.dir h.kernel.dir, ?_⟩,
    ⟨?_, ?_, ?_, ?_, ?_⟩, ?_⟩
  · intro i hi hne hhas
    rw [hpdt] at hhas ⊢
    rw [hmaps.map.frames]
    rcases hmaps.has_iff hi hhas with ⟨hold, heq⟩ | ⟨-, hin, -⟩
    · rw [heq]
      exact h.kernel.managed i hi hne hold
    · exact Pfa.free_subset_frames hin
  · rw [hcr3]
    exact fun hin => h.active.used (hmaps.taken hin)
  · rw [hcr3, hpdt]
    exact h.active.ne_pdt
  · rw [hcr3, hmaps.vars.kernelPt]
    exact h.active.ne_pt
  · intro i hi hhas
    rw [hpdt] at hhas ⊢
    rw [hcr3]
    rcases hmaps.has_iff hi hhas with ⟨hold, heq⟩ | ⟨-, hin, -⟩
    · rw [heq]
      exact h.active.ne_table i hi hold
    · exact fun heq => h.active.used (heq ▸ hin)
  · intro i hi hhas
    rw [State.has, hcr3, hactive] at hhas
    rw [State.table, hcr3, hactive]
    exact fun hin => h.active.tables_used i hi hhas (hmaps.taken hin)
  · intro i hi hlt
    rw [hcr3, hpdt, hactive, hentries i hi hlt]
    exact h.entries i hi hlt

/-- Less than a slot is unmapped: no page table is freed. -/
theorem pdtUnmapMemory_stable {n : ℕ} {r : UInt32} (hpfa : Pfa.FrameMap s.pfa) (h : Dir s d)
    (hm : Managed s d) (hstable : pages size < 1024 ∨ vaddr + alignUp size fourKb ≤ vaddr)
    (hrun : pdtUnmapMemory n s d vaddr size = some (r, s')) :
  s'.mem d = s.mem d ∧ s'.pfa = s.pfa
  := by
  rcases hstable with hsmall | hwrap
  · have hinv := Loop.run_of_invariant
      (fun u => Unmaps s u.state d ∧ u.state.mem d = s.mem d ∧ u.state.pfa = s.pfa)
      (fun r => r.2.mem d = s.mem d ∧ r.2.pfa = s.pfa) ?_ ?_ ⟨Unmaps.refl h, rfl, rfl⟩ hrun
    · exact hinv
    · rintro u u' ⟨hu, hmem, hfree⟩ hbody
      rw [pdtUnmapMemoryBody] at hbody
      split at hbody
      case isFalse => simp at hbody
      split at hbody
      case isFalse =>
        obtain rfl := Sum.inl.inj hbody
        exact ⟨hu, hmem, hfree⟩
      case isTrue hhas =>
        have hi := virtualToPdtIdx_lt u.vaddr
        have hle := cleared_le (virtualToPdtIdx u.vaddr) (virtualToPtIdx u.vaddr) (pages size)
        rw [unmapRound_has (toNat_alignUp_fourKb size) (hu.dir.table_pt _ hi hhas)] at hbody
        obtain rfl := Sum.inl.inj hbody
        refine ⟨?_, ?_, ?_⟩
        · apply hu.trans
          exact hu.dir.unmaps_withoutPages (hu.map.frameMap hpfa) (hu.managed hm) hi hhas (by omega)
        · rw [State.withoutPages_mem_dir (hu.dir.table_ne _ hi hhas), if_neg (by omega), hmem]
        · rw [State.withoutPages_pfa, if_neg (by omega), hfree]
    · rintro u r ⟨-, hmem, hfree⟩ hbody
      rw [pdtUnmapMemoryBody] at hbody
      split at hbody
      · split at hbody
        · simp at hbody
        · simp at hbody
      · obtain rfl := Sum.inr.inj hbody
        exact ⟨hmem, hfree⟩
  · have hleave : pdtUnmapMemoryBody d (alignUp size fourKb) (vaddr + alignUp size fourKb)
        ⟨vaddr, 0, s⟩ = .inr (0, s) := by
      rw [pdtUnmapMemoryBody, if_neg (UInt32.not_lt.mpr hwrap)]
    obtain ⟨-, rfl⟩ := Prod.mk.inj (Loop.Returns.unique ⟨n, hrun⟩ ⟨1, Loop.run_leave hleave 0⟩)
    exact ⟨rfl, rfl⟩

theorem Agrees.unmap {n : ℕ} (h : Agrees s) (hstable : (Call.unmap vaddr size).Stable s)
    (hexec : exec n s (.unmap vaddr size) = some s') :
  Agrees s'
  := by
  obtain ⟨⟨r, s₂⟩, hrun, rfl⟩ := Option.map_eq_some_iff.mp hexec
  have hunmaps := pdtUnmapMemory_spec h.kernel.pfa h.kernel.dir h.kernel.managed hrun
  obtain ⟨hmem, hpfa⟩ := pdtUnmapMemory_stable h.kernel.pfa h.kernel.dir h.kernel.managed hstable
    hrun
  have hpdt := hunmaps.vars.kernelPdt
  have hcr3 := hunmaps.vars.cr3
  have hactive : s₂.mem s.cr3 = s.mem s.cr3 :=
    hunmaps.other _ h.active.ne_pdt h.active.ne_table
  simp only
  refine ⟨⟨hunmaps.map.frameMap h.kernel.pfa, by rw [hpdt]; exact hunmaps.dir, ?_⟩,
    ⟨?_, ?_, ?_, ?_, ?_⟩, ?_⟩
  · rw [hpdt]
    exact hunmaps.managed h.kernel.managed
  · rw [hcr3, hpfa]
    exact h.active.used
  · rw [hcr3, hpdt]
    exact h.active.ne_pdt
  · rw [hcr3, hunmaps.vars.kernelPt]
    exact h.active.ne_pt
  · intro i hi hhas
    rw [State.has, hpdt, hmem] at hhas
    rw [hcr3, hpdt, State.table, hmem]
    exact h.active.ne_table i hi hhas
  · intro i hi hhas
    rw [State.has, hcr3, hactive] at hhas
    rw [hpfa, State.table, hcr3, hactive]
    exact h.active.tables_used i hi hhas
  · intro i hi hlt
    rw [hcr3, hpdt, hactive, hmem]
    exact h.entries i hi hlt

/-! ### Runs -/

theorem StableStep.agrees (h : Agrees s) (hstep : StableStep s s') :
  Agrees s'
  := by
  obtain ⟨n, c, hvalid, hstable, hexec⟩ := hstep
  cases c with
  | load pdt d => exact agrees_load h.kernel hvalid hstable hexec
  | map paddr vaddr size rw pl => exact h.map hstable hexec
  | unmap vaddr size => exact h.unmap hstable hexec

/-- In a run that begins with loading the directory of a process, and whose calls all leave the
slots of the kernel half alone, the active directory agrees with `kernel_pdt` in every state. -/
theorem active_directory_agrees {n : ℕ} (hs : KernelState s₀) (hvalid : (Call.load pdt d).Valid s₀)
    (hstable : (Call.load pdt d).Stable s₀) (hload : exec n s₀ (.load pdt d) = some s₁)
    (hrun : Relation.ReflTransGen StableStep s₁ s) :
  Sees s
  := by
  apply Agrees.sees
  induction hrun with
  | refl => exact agrees_load hs hvalid hstable hload
  | tail _ hstep ih => exact hstep.agrees ih

/-- A kernel that has one page table, in which the directory of a process is mapped. -/
def oneTable : State where
  pfa := Pfa.sixFrames
  mem := fun f i =>
    if f = 0x101000 ∧ i = 768 then entryFor 0x0B 0x102000
    else if f = 0x102000 ∧ i = 5 then entryFor 0x0B 0x201000
    else Entry.zero
  kernelPdt := 0x101000
  kernelPt := 0x102000
  cr3 := 0x101000

theorem has_oneTable {f : UInt32} {i : ℕ} (h : oneTable.has f i) :
  (f = 0x101000 ∧ i = 768) ∨ (f = 0x102000 ∧ i = 5)
  := by
  simp only [State.has, oneTable] at h
  split at h
  case isTrue hpdt => exact Or.inl hpdt
  split at h
  case isTrue hpt => exact Or.inr hpt
  simp at h

theorem has_kernelPdt_oneTable {i : ℕ} (h : oneTable.has oneTable.kernelPdt i) :
  i = 768
  := by
  rcases has_oneTable h with ⟨-, hi⟩ | ⟨hf, -⟩
  · exact hi
  · exact absurd hf (by decide)

theorem not_free_sixFrames {f : ℕ} (h : f ∉ Pfa.sixFrames.frames) :
  f ∉ Pfa.sixFrames.free
  := fun hin => h (Pfa.free_subset_frames hin)

theorem kernelState_oneTable :
  KernelState oneTable
  := by
  have hpt : oneTable.table oneTable.kernelPdt 768 = 0x102000 := by decide
  have hunused : (0x102000 : UInt32).toNat ∉ Pfa.sixFrames.free := not_free_sixFrames (by decide)
  refine ⟨Pfa.frameMap_sixFrames, ⟨⟨not_free_sixFrames (by decide), hunused, by decide, ?_, ?_, ?_⟩,
    ?_⟩, ?_⟩
  · intro i _ hhas
    rw [has_kernelPdt_oneTable hhas, hpt]
    exact hunused
  · intro i _ hhas
    rw [has_kernelPdt_oneTable hhas]
    decide
  · intro i _ j _ hhas hhas' _
    rw [has_kernelPdt_oneTable hhas, has_kernelPdt_oneTable hhas']
  · intro i _ hhas _
    exact has_kernelPdt_oneTable hhas
  · intro i _ hne hhas
    exact absurd (has_kernelPdt_oneTable hhas) hne

/-- The address `0xC0005000` points to the directory in frame `0x201000`. -/
theorem valid_load_oneTable :
  (Call.load 0xC0005000 0x201000).Valid oneTable
  := by
  refine ⟨by decide, ?_, by decide, by decide, ?_, ?_⟩
  · have hindex : Pfa.sixFrames.frames[1]? = some (0x201000 : UInt32).toNat := by decide
    rw [oneTable, Pfa.frameMap_sixFrames.mem_free_iff hindex]
    decide
  · intro i _ hhas
    rw [has_kernelPdt_oneTable hhas]
    decide
  · intro i _ hhas
    rcases has_oneTable hhas with ⟨hf, -⟩ | ⟨hf, -⟩
    · exact absurd hf (by decide)
    · exact absurd hf (by decide)

theorem stable_load_oneTable :
  (Call.load 0xC0005000 0x201000).Stable oneTable
  := by
  intro i _ _ hhas
  have hne : i ≠ 768 := by
    rintro rfl
    exact hhas (by decide)
  simp [oneTable, hne]

/-- The kernel with the directory of the process loaded. -/
def oneTableLoaded : State :=
  pdtSet (copyKernelEntries oneTable 0x201000) 0x201000

theorem load_oneTable :
  exec 0 oneTable (.load 0xC0005000 0x201000) = some oneTableLoaded
  := by
  have hresolve : oneTable.resolve 0xC0005000 = some 0x201000 := by decide
  simp only [exec, pdtLoadProcessPdt, hresolve, Option.map_some, oneTableLoaded]

/-- The next page of the table that the kernel has is mapped. -/
theorem active_directory_agrees_oneTable :
  ∃ s, StableStep oneTableLoaded s ∧ Sees s
  := by
  have hstep : StableStep oneTableLoaded
      (pdtMapKernelMemory oneTableLoaded 0x202000 0xC0006000 4096 1 0).2 := by
    refine ⟨0, .map 0x202000 0xC0006000 4096 1 0, trivial, ?_, rfl⟩
    intro v _ hv
    obtain ⟨hvi, -⟩ := (pageOff_lt_iff (m := 1) (by decide)).mp hv
    rw [hvi]
    decide +kernel
  exact ⟨_, hstep, active_directory_agrees kernelState_oneTable valid_load_oneTable
    stable_load_oneTable load_oneTable (Relation.ReflTransGen.single hstep)⟩

/-- The page at the beginning of the second slot is mapped: `kernel_pdt` gets an entry that the
active directory does not have. -/
theorem opened_slot_missing :
  ∃ s, KernelState oneTable ∧ (Call.load 0xC0005000 0x201000).Valid oneTable ∧
    exec 0 oneTable (.load 0xC0005000 0x201000) = some oneTableLoaded ∧
    exec 0 oneTableLoaded (.map 0x202000 0xC0400000 4096 1 0) = some s ∧
    Relation.ReflTransGen Step oneTableLoaded s ∧ ¬ Sees s
  := by
  refine ⟨_, kernelState_oneTable, valid_load_oneTable, load_oneTable, rfl,
    Relation.ReflTransGen.single ⟨0, .map 0x202000 0xC0400000 4096 1 0, trivial, rfl⟩, ?_⟩
  intro hsees
  exact absurd (hsees.entries 769 (by decide) (by decide)) (by decide +kernel)

end Paging
