import Aenix.Lib.Trace
import Aenix.Paging.Atomic

/-!
# Access rights

The processor allows an access when both the entry of the directory and that of the page table allow
it.  `pdt_map_memory` sets the first only when the slot gets its page table, with the rights of that
call.  A later call in the same slot may ask for more: in a run of calls the rights are those asked
for if and only if that never happens (`rights_effective_iff`).
-/

open Aenix

namespace Paging

variable {s s' : State} {d paddr vaddr v : UInt32} {rw pl : UInt8} {m : ℕ}

/-- What the processor allows at a virtual address: to write, and to access it as a user. -/
def State.rights (s : State) (d v : UInt32) : Option (Bool × Bool) :=
  (s.page d v).map fun e =>
    ((s.mem d (virtualToPdtIdx v)).writable && e.writable,
      (s.mem d (virtualToPdtIdx v)).user && e.user)

/-- The arguments of `pdt_map_memory`. -/
structure MapCall where
  paddr : UInt32
  vaddr : UInt32
  size : UInt32
  rw : UInt8
  pl : UInt8
  deriving DecidableEq

/-- The rights that are asked for. -/
def MapCall.rights (c : MapCall) : Bool × Bool :=
  (c.rw &&& 1 != 0, c.pl &&& 1 != 0)

/-- The address is in one of the pages to be mapped. -/
def MapCall.Covers (c : MapCall) (v : UInt32) : Prop :=
  pageOff c.vaddr v < pages c.size

/-- A call that succeeds, on the directory in frame `d`. -/
def mapStep (d : UInt32) (s : State) (c : MapCall) : Option (Unit × State) :=
  let (r, s') := pdtMapMemory s d c.paddr c.vaddr c.size c.rw c.pl
  if r = alignUp c.size fourKb then some ((), s') else none

/-- The slots of the call that have a page table allow what the call asks for. -/
def Allowed (s : State) (d : UInt32) (c : MapCall) : Prop :=
  ∀ v, c.Covers v → s.has d (virtualToPdtIdx v) →
    (c.rights.1 = true → (s.mem d (virtualToPdtIdx v)).writable = true) ∧
      (c.rights.2 = true → (s.mem d (virtualToPdtIdx v)).user = true)

/-! ### One call -/

/-- The rights that a page had are kept. -/
theorem Maps.rights_kept (h : Maps s s' d paddr vaddr rw pl m) {x : Bool × Bool}
    (hx : s.rights d v = some x) :
  s'.rights d v = some x
  := by
  rw [State.rights, Option.map_eq_some_iff] at hx
  obtain ⟨e, hpage, rfl⟩ := hx
  have hhas : s.has d (virtualToPdtIdx v) := by
    by_contra hnot
    rw [State.page_of_not_has hnot] at hpage
    simp at hpage
  have hout : ¬ pageOff vaddr v < m := by
    intro hin
    rw [h.vacant v hin] at hpage
    simp at hpage
  rw [State.rights, h.page, if_neg hout, hpage, h.kept _ (virtualToPdtIdx_lt v) hhas, Option.map_some]

theorem and_eq_self_iff (a b c e : Bool) :
  ((a && b, c && e) : Bool × Bool) = (b, e) ↔ (b = true → a = true) ∧ (e = true → c = true)
  := by
  cases a <;> cases b <;> cases c <;> cases e <;> decide

/-- The rights of a page that is mapped are those asked for, if and only if the page table is new or
the entry of the slot allows them. -/
theorem Maps.rights_iff (h : Maps s s' d paddr vaddr rw pl m) (hv : pageOff vaddr v < m) :
  s'.rights d v = some (rw &&& 1 != 0, pl &&& 1 != 0) ↔
    (s.has d (virtualToPdtIdx v) →
      ((rw &&& 1 != 0) = true → (s.mem d (virtualToPdtIdx v)).writable = true) ∧
      ((pl &&& 1 != 0) = true → (s.mem d (virtualToPdtIdx v)).user = true))
  := by
  have hi := virtualToPdtIdx_lt v
  obtain ⟨huser, hwritable⟩ :=
    access_createPtEntry (paddr + UInt32.ofNat (pageOff vaddr v) * fourKb) rw pl
  rw [State.rights, h.page, if_pos hv, Option.map_some, Option.some.injEq, huser, hwritable,
    and_eq_self_iff]
  by_cases hhas : s.has d (virtualToPdtIdx v)
  · rw [h.kept _ hi hhas]
    exact ⟨fun hall _ => hall, fun hall => hall hhas⟩
  · rcases h.opened _ hi hhas with heq | ⟨t, -, -, -, heq, -⟩
    · have hnew := h.has_of_lt hv
      rw [State.has, heq] at hnew
      exact absurd hnew hhas
    · obtain ⟨huser', hwritable'⟩ := access_createPdtEntry t rw pl
      rw [heq, huser', hwritable']
      exact ⟨fun _ hnew => absurd hnew hhas, fun _ => ⟨id, id⟩⟩

/-- A call that succeeds maps its pages. -/
theorem mapStep_maps (hpfa : Pfa.FrameMap s.pfa) (h : Separate s d) {c : MapCall} {o : Unit}
    (hstep : mapStep d s c = some (o, s')) :
  Maps s s' d c.paddr c.vaddr c.rw c.pl (pages c.size)
  := by
  obtain ⟨m, s₁, r, hrun, hmaps, hres⟩ :=
    pdtMapMemory_spec hpfa h c.paddr c.vaddr c.size c.rw c.pl
  simp only [mapStep, hrun] at hstep
  split at hstep
  case isFalse => simp at hstep
  case isTrue hr =>
    obtain ⟨-, rfl⟩ := Prod.mk.inj (Option.some.inj hstep)
    rcases hres with ⟨rfl, -⟩ | ⟨hlt, hzero⟩
    · exact hmaps
    · have hsize := toNat_alignUp_fourKb c.size
      rw [← hr, hzero, UInt32.toNat_zero] at hsize
      omega

/-! ### Runs of calls -/

section Runs

variable {tr : List (Trace.Transition State MapCall Unit)}

/-- A run of calls leaves the directory well-formed. -/
theorem separate_of_runs (hpfa : Pfa.FrameMap s.pfa) (h : Separate s d)
    (hrun : Trace.Runs (mapStep d) s tr s') :
  Pfa.FrameMap s'.pfa ∧ Separate s' d
  := by
  apply hrun.invariant ⟨hpfa, h⟩
  rintro x _ hstep ⟨hpfa', h'⟩
  have hmaps := mapStep_maps hpfa' h' hstep
  exact ⟨hmaps.map.frameMap hpfa', hmaps.separate⟩

/-- What a call has given to its pages stays, to the end of the run. -/
theorem rights_kept_of_runs (hpfa : Pfa.FrameMap s.pfa) (h : Separate s d)
    (hrun : Trace.Runs (mapStep d) s tr s') {x : Bool × Bool} (hx : s.rights d v = some x) :
  s'.rights d v = some x
  := by
  have hkept : Pfa.FrameMap s'.pfa ∧ Separate s' d ∧ s'.rights d v = some x := by
    apply hrun.invariant ⟨hpfa, h, hx⟩
    rintro y _ hstep ⟨hpfa', h', hx'⟩
    have hmaps := mapStep_maps hpfa' h' hstep
    exact ⟨hmaps.map.frameMap hpfa', hmaps.separate, hmaps.rights_kept hx'⟩
  exact hkept.2.2

/-- After every run of calls that succeed, on a directory whose frames are separate and in use: every
page has the rights that the call which mapped it asked for, if and only if no call asked for more
than the slots it found with a page table allow. -/
theorem rights_effective_iff (hpfa : Pfa.FrameMap s.pfa) (h : Separate s d)
    (hrun : Trace.Runs (mapStep d) s tr s') :
  (∀ x ∈ tr, ∀ v, x.event.Covers v → s'.rights d v = some x.event.rights) ↔
    ∀ x ∈ tr, Allowed x.before d x.event
  := by
  apply forall₂_congr
  intro x hx
  obtain ⟨pre, post, -, hpre, hstep, hpost⟩ := hrun.cut hx
  obtain ⟨hpfa', h'⟩ := separate_of_runs hpfa h hpre
  have hmaps := mapStep_maps hpfa' h' hstep
  apply forall₂_congr
  intro v hv
  refine Iff.trans ?_ (hmaps.rights_iff hv)
  -- the rights after the call are those at the end of the run
  obtain ⟨y, hy⟩ : ∃ y, x.after.rights d v = some y := by
    rw [State.rights, hmaps.page, if_pos (show pageOff x.event.vaddr v < pages x.event.size from hv)]
    exact ⟨_, rfl⟩
  rw [rights_kept_of_runs (hmaps.map.frameMap hpfa') hmaps.separate hpost hy, hy]
  rfl

/-- Two calls in the same slot: the first one maps a page that the user can write, and its page table; the
second one a page that the user can only read. -/
def sharedSlot : List MapCall := [⟨0x300000, 0x1000, 4096, 1, 1⟩, ⟨0x301000, 0x2000, 4096, 0, 1⟩]

theorem slot_of_sharedSlot {c : MapCall} (hc : c ∈ sharedSlot) (hv : c.Covers v) :
  virtualToPdtIdx v = 0
  := by
  have hpages : pages 4096 = 1 := by decide
  simp only [sharedSlot, List.mem_cons, List.not_mem_nil, or_false] at hc
  rcases hc with rfl | rfl
  · rw [MapCall.Covers, hpages, pageOff_lt_iff (by decide)] at hv
    exact hv.1.trans (by decide)
  · rw [MapCall.Covers, hpages, pageOff_lt_iff (by decide)] at hv
    exact hv.1.trans (by decide)

theorem rights_effective_iff_sharedSlot :
  ∃ tr s', Trace.Runs (mapStep 0x101000) oneTable tr s' ∧ tr.map (·.event) = sharedSlot ∧
    ∀ x ∈ tr, ∀ v, x.event.Covers v → s'.rights 0x101000 v = some x.event.rights
  := by
  obtain ⟨tr, s', hrun, hevents, hslot⟩ := Trace.exists_runs (mapStep 0x101000) oneTable sharedSlot
    (P := fun r => r.1.map (·.event) = sharedSlot ∧ ∀ x ∈ r.1, x.before.has 0x101000 0 →
      (x.before.mem 0x101000 0).writable = true ∧ (x.before.mem 0x101000 0).user = true)
    (by decide +kernel)
  refine ⟨tr, s', hrun, hevents, ?_⟩
  apply (rights_effective_iff kernelState_oneTable.pfa kernelState_oneTable.dir.toSeparate hrun).mpr
  intro x hx v hv hhas
  have hevent : x.event ∈ sharedSlot := by
    rw [← hevents]
    apply List.mem_map_of_mem hx
  rw [slot_of_sharedSlot hevent hv] at hhas ⊢
  obtain ⟨hwritable, huser⟩ := hslot x hx hhas
  exact ⟨fun _ => hwritable, fun _ => huser⟩

/-- The first call makes the slot read-only and reserves it for the kernel; the second asks for a page
that the user can write. -/
theorem rights_not_effective :
  ∃ tr s', Trace.Runs (mapStep 0x101000) oneTable tr s' ∧
    tr.map (·.event) = [⟨0x300000, 0x1000, 4096, 0, 0⟩, ⟨0x301000, 0x2000, 4096, 1, 1⟩] ∧
    s'.rights 0x101000 0x2000 = some (false, false)
  := by
  apply Trace.exists_runs (mapStep 0x101000) oneTable
    [⟨0x300000, 0x1000, 4096, 0, 0⟩, ⟨0x301000, 0x2000, 4096, 1, 1⟩]
    (P := fun r => r.1.map (·.event) =
        [⟨0x300000, 0x1000, 4096, 0, 0⟩, ⟨0x301000, 0x2000, 4096, 1, 1⟩] ∧
      r.2.rights 0x101000 0x2000 = some (false, false))
  decide +kernel

end Runs

end Paging
