import Aenix.Scheduler.Linking
import Aenix.Scheduler.Transparent

/-!
# The insertion in `sys_fork`

`sys_fork` calls `scheduler_add_process` with interrupts enabled.  `Inserting` is the system with this
insertion divided: the process reads `pss->end`, links the new element behind the one it has read, and
makes the new element the end.  Other processes may run before it links the element, and change the
list; the element it has read may even be freed and used again.  When the end of a time slice comes
between the two stores, or the element that was read is not the last one, the list is torn (`Linking`);
what happens later is not modelled.  The other insertions are made with interrupts disabled.
-/

open IA32 Process Trace

namespace Scheduler

/-- The system while processes are inserted.  `runnable` are the processes that `start` leads to, up to
the end. -/
structure Inserting where
  sys : System
  /-- the list element of a process, by the address of the process -/
  eleOf : UInt32 → Ptr
  /-- by the address of a process in `scheduler_add_process`, the element that `kmalloc` has returned and
  the one that was read from `pss->end` -/
  pending : UInt32 → Option (Ptr × Ptr)
  /-- the child that the current process has linked behind the end -/
  linked : Option Ps
  torn : Bool

/-- What can happen. -/
inductive InsertEvent where
  /-- an event of the system, in which `kmalloc` returns `ele` for the element of a process that is
  replaced or exits -/
  | system (e : Event) (ele : Ptr)
  /-- `kmalloc` has returned `ele`, and `pss->end` is read -/
  | readEnd (ele : Ptr)
  /-- `pss->end->next = ele` -/
  | link
  /-- `pss->end = ele`, and the return of `sys_fork` -/
  | moveEnd

variable (code : Code)

/-- No insertion is under way, and the only element is `ele`. -/
def Inserting.start (s : System) (ele : Ptr) : Inserting :=
  ⟨s, fun _ => ele, fun _ => none, none, false⟩

/-- The processes that `start` leads to. -/
def Inserting.chain (m : Inserting) : List Ps := m.sys.pss ++ m.linked.toList

/-- The element of the process. -/
def Inserting.threadEle (m : Inserting) (t : Thread) : Ptr := m.eleOf t.ps.addr

/-- The last element. -/
def Inserting.lastEle (m : Inserting) (ts : List Thread) : Option Ptr := ts.getLast?.map m.threadEle

/-- The next tick ends a time slice. -/
def endsSlice (s : System) : Bool := s.ms + schedulerPitInterval ≥ schedulerTimeSlice

/-- The tick that ends a time slice when `child` is linked and not the end yet. -/
def interruptLinked (s : System) (t : Thread) (ts : List Thread) (child : Ps) : Option Ps × System :=
  let c := timerInterrupt s.esp0 code.interruptHandler32 code.afterInterruptHandler s.cpu
  let ps := updateRegisters t.ps (cpuStateArg c) (stackStateArg c)
  runFirst code { s with
    cpu := c
    ms := 0
    runnable := rotateLinked ⟨child, .user⟩ ({ t with ps := ps } :: ts) }

/-- The insertion in `sys_fork`, unless `kmalloc` returns NULL in it. -/
def Inserting.divided (m : Inserting) (t : Thread) : Event → Bool
  | .addRunnable ele => ele || m.linked.isSome || (m.pending t.ps.addr).isSome
  | _ => false

/-- The child that is linked when a tick ends a time slice. -/
def Inserting.tears (m : Inserting) : Event → Option Ps
  | .tick => if endsSlice m.sys then m.linked else none
  | _ => none

/-- The elements after an event of the system. -/
def Inserting.placed (m : Inserting) (t : Thread) (ele : Ptr) : Event → UInt32 → Ptr
  | .execve new true => Function.update m.eleOf new.addr ele
  | .exit true => Function.update m.eleOf t.ps.addr ele
  | _ => m.eleOf

/-- The first store of `scheduler_add_process`, through an element that is not the last: on the list that
this element is on, if any, nothing but the child comes behind it. -/
def Inserting.cut (m : Inserting) (last : Ptr) (child : Ps) : System :=
  { m.sys with
    runnable := linkBehind (fun t => m.threadEle t == last) ⟨child, .user⟩ m.sys.runnable
    zombies := linkBehind (fun ps => m.eleOf ps.addr == last) child m.sys.zombies }

/-- The step that the current process `t` takes. -/
def Inserting.stepOf (m : Inserting) (t : Thread) (ts : List Thread) :
    InsertEvent → Option (Effect × Inserting)
  | .system e ele =>
    if m.divided t e then
      none
    else
      match m.tears e with
      | some child =>
        if m.sys.cpu.eflags &&& 0x200 ≠ 0 then
          let (p, s) := interruptLinked code m.sys t ts child
          some ({ dispatched := p }, { m with sys := s, linked := none, torn := true })
        else
          none
      | none => (step code m.sys e).map fun (o, s) => (o, { m with sys := s, eleOf := m.placed t ele e })
  | .readEnd ele =>
    match t.phase, m.pending t.ps.addr, m.lastEle (t :: ts) with
    | .adding _, none, some last =>
      some ({}, { m with pending := Function.update m.pending t.ps.addr (some (ele, last)) })
    | _, _, _ => none
  | .link =>
    match t.phase, m.pending t.ps.addr, m.linked with
    | .adding child, some (_, last), none =>
      if m.lastEle (t :: ts) = some last then
        some ({}, { m with linked := some child })
      else
        some ({}, { m with sys := m.cut last child, torn := true })
    | _, _, _ => none
  | .moveEnd =>
    match m.linked, m.pending t.ps.addr with
    | some child, some (ele, _) =>
      (step code m.sys (.addRunnable true)).map fun (o, s) =>
        (o, ⟨s, Function.update m.eleOf child.addr ele, Function.update m.pending t.ps.addr none, none,
          false⟩)
    | _, _ => none

/-- A step. -/
def Inserting.step (m : Inserting) (e : InsertEvent) : Option (Effect × Inserting) :=
  match m.torn, m.sys.runnable with
  | false, t :: ts => m.stepOf code t ts e
  | _, _ => none

/-- A step of the system. -/
abbrev InsertStep := Transition Inserting InsertEvent Effect

variable {code : Code} {m m' : Inserting} {e : InsertEvent} {o : Effect}

/-- The shapes of a step of the current process `t` beside the processes `ts`. -/
inductive InsertShape (code : Code) (m : Inserting) (t : Thread) (ts : List Thread) :
    InsertEvent → Effect → Inserting → Prop
  | system {e : Event} {ele : Ptr} {o : Effect} {s' : System} (undivided : m.divided t e = false)
      (whole : m.tears e = none) (step : step code m.sys e = some (o, s')) :
      InsertShape code m t ts (.system e ele) o { m with sys := s', eleOf := m.placed t ele e }
  | tear {child : Ps} {t' : Thread} {p : Option Ps} {ele : Ptr} {s' : System}
      (slice : endsSlice m.sys) (linked : m.linked = some child) (same : t.Same t')
      (runnable : s'.runnable = rotateLinked ⟨child, .user⟩ (t' :: ts))
      (zombies : s'.zombies = m.sys.zombies) :
      InsertShape code m t ts (.system .tick ele) { dispatched := p }
        { m with sys := s', linked := none, torn := true }
  | readEnd {child : Ps} {ele last : Ptr} (phase : t.phase = .adding child)
      (pending : m.pending t.ps.addr = none) (read : m.lastEle (t :: ts) = some last) :
      InsertShape code m t ts (.readEnd ele) {}
        { m with pending := Function.update m.pending t.ps.addr (some (ele, last)) }
  | link {child : Ps} {ele last : Ptr} (phase : t.phase = .adding child)
      (pending : m.pending t.ps.addr = some (ele, last)) (linked : m.linked = none)
      (stays : m.lastEle (t :: ts) = some last) :
      InsertShape code m t ts .link {} { m with linked := some child }
  | cut {child : Ps} {ele last : Ptr} (phase : t.phase = .adding child)
      (pending : m.pending t.ps.addr = some (ele, last)) (linked : m.linked = none)
      (moved : m.lastEle (t :: ts) ≠ some last) :
      InsertShape code m t ts .link {} { m with sys := m.cut last child, torn := true }
  | moveEnd {child : Ps} {ele last : Ptr} {o : Effect} {s' : System} (linked : m.linked = some child)
      (pending : m.pending t.ps.addr = some (ele, last))
      (step : step code m.sys (.addRunnable true) = some (o, s')) :
      InsertShape code m t ts .moveEnd o
        ⟨s', Function.update m.eleOf child.addr ele, Function.update m.pending t.ps.addr none, none, false⟩

theorem tears_eq_some {e : Event} {child : Ps} (h : m.tears e = some child) :
  e = .tick ∧ endsSlice m.sys ∧ m.linked = some child
  := by
  cases e with
  | tick =>
      rw [Inserting.tears] at h
      split at h
      case isTrue hslice => exact ⟨rfl, hslice, h⟩
      case isFalse => simp at h
  | compute | enter | leave | yield | nextPid | clone | addRunnable | execve | exit | wait | poll =>
      simp [Inserting.tears] at h

theorem insertShape_system {t : Thread} {ts : List Thread} {e : Event} {ele : Ptr}
    (h : m.stepOf code t ts (.system e ele) = some (o, m')) :
  InsertShape code m t ts (.system e ele) o m'
  := by
  simp only [Inserting.stepOf] at h
  split at h
  case isTrue => simp at h
  case isFalse hdivided =>
    split at h
    case h_1 child htears =>
      split at h
      case isFalse => simp at h
      obtain ⟨rfl, rfl⟩ := Prod.mk.inj (Option.some.inj h)
      obtain ⟨rfl, hslice, hlinked⟩ := tears_eq_some htears
      have hfirst := runFirst_spec code { m.sys with
        cpu := timerInterrupt m.sys.esp0 code.interruptHandler32 code.afterInterruptHandler m.sys.cpu
        ms := 0
        runnable := rotateLinked ⟨child, .user⟩ ({ t with ps := saved code m.sys t.ps } :: ts) }
      exact .tear hslice hlinked (same_updateRegisters t _ _) hfirst.1 hfirst.2.1
    case h_2 hwhole =>
      obtain ⟨⟨o', s'⟩, hstep, heq⟩ := Option.map_eq_some_iff.mp h
      obtain ⟨rfl, rfl⟩ := Prod.mk.inj heq
      exact .system (by simpa using hdivided) hwhole hstep

/-- Every step has one of the shapes. -/
theorem insertShape_of_step (h : m.step code e = some (o, m')) :
  m.torn = false ∧ ∃ t ts, m.sys.runnable = t :: ts ∧ InsertShape code m t ts e o m'
  := by
  rw [Inserting.step] at h
  split at h
  case h_2 => simp at h
  case h_1 t ts htorn hs =>
    refine ⟨htorn, t, ts, hs, ?_⟩
    cases e with
    | system e ele => apply insertShape_system h
    | readEnd ele =>
        simp only [Inserting.stepOf] at h
        split at h
        case h_2 => simp at h
        case h_1 child last hphase hpending hlast =>
          obtain ⟨rfl, rfl⟩ := Prod.mk.inj (Option.some.inj h)
          exact .readEnd hphase hpending hlast
    | link =>
        simp only [Inserting.stepOf] at h
        split at h
        case h_2 => simp at h
        case h_1 child ele last hphase hpending hlinked =>
          split at h
          case isTrue hstays =>
            obtain ⟨rfl, rfl⟩ := Prod.mk.inj (Option.some.inj h)
            exact .link hphase hpending hlinked hstays
          case isFalse hmoved =>
            obtain ⟨rfl, rfl⟩ := Prod.mk.inj (Option.some.inj h)
            exact .cut hphase hpending hlinked hmoved
    | moveEnd =>
        simp only [Inserting.stepOf] at h
        split at h
        case h_2 => simp at h
        case h_1 child ele last hlinked hpending =>
          obtain ⟨⟨o', s'⟩, hstep, heq⟩ := Option.map_eq_some_iff.mp h
          obtain ⟨rfl, rfl⟩ := Prod.mk.inj heq
          exact .moveEnd hlinked hpending hstep

/-! ### While a child is linked -/

/-- Between the two stores, the current process is only interrupted. -/
theorem step_of_adding {s s' : System} {t : Thread} {ts : List Thread} {e : Event} {child : Ps}
    (hs : s.runnable = t :: ts) (hphase : t.phase = .adding child) (hadd : ∀ ele, e ≠ .addRunnable ele)
    (hslice : e = .tick → endsSlice s = false) (h : step code s e = some (o, s')) :
  o = {} ∧ s'.runnable = s.runnable ∧ s'.zombies = s.zombies
  := by
  simp only [step, hs] at h
  cases e with
  | compute c =>
      simp only [stepOf] at h
      split at h
      case isFalse => simp at h
      obtain ⟨rfl, rfl⟩ := Prod.mk.inj (Option.some.inj h)
      exact ⟨rfl, rfl, rfl⟩
  | tick =>
      have hms : ¬ s.ms + schedulerPitInterval ≥ schedulerTimeSlice := by
        simpa [endsSlice] using hslice rfl
      rw [stepOf_tick, schedulerHandlePitInterrupt, if_neg hms] at h
      split at h
      case isFalse => simp at h
      obtain ⟨rfl, rfl⟩ := Prod.mk.inj (Option.some.inj h)
      exact ⟨rfl, rfl, rfl⟩
  | addRunnable ele => exact absurd rfl (hadd ele)
  | clone new => simp [stepOf_clone, hphase] at h
  | enter | leave | yield | nextPid | execve | exit | wait | poll => simp [stepOf, hphase] at h

/-- A step of the whole system that is taken while a child is linked. -/
theorem step_of_linked {s' : System} {t : Thread} {ts : List Thread} {e : Event} {child : Ps}
    (hs : m.sys.runnable = t :: ts) (hphase : t.phase = .adding child) (hlinked : m.linked = some child)
    (undivided : m.divided t e = false) (whole : m.tears e = none)
    (h : step code m.sys e = some (o, s')) :
  o = {} ∧ s'.runnable = m.sys.runnable ∧ s'.zombies = m.sys.zombies
  := by
  apply step_of_adding hs hphase _ _ h
  · rintro ele rfl
    simp [Inserting.divided, hlinked] at undivided
  · rintro rfl
    simpa [Inserting.tears, hlinked] using whole

/-- A child that is linked is the one that the current process adds. -/
def Inserting.Linked (m : Inserting) : Prop :=
  ∀ child ∈ m.linked, ∃ t ts, m.sys.runnable = t :: ts ∧ t.phase = .adding child

theorem linked_step (h : m.step code e = some (o, m')) (hlinked : m.Linked) :
  m'.Linked
  := by
  obtain ⟨-, t, ts, hs, hshape⟩ := insertShape_of_step h
  cases hshape with
  | system undivided whole step =>
      intro child hchild
      obtain ⟨t', ts', hs', hphase⟩ := hlinked child hchild
      obtain ⟨rfl, rfl⟩ := List.cons.inj (hs.symm.trans hs')
      obtain ⟨-, hrunnable, -⟩ := step_of_linked hs hphase hchild undivided whole step
      exact ⟨t, ts, hrunnable.trans hs, hphase⟩
  | tear => simp [Inserting.Linked]
  | readEnd => exact hlinked
  | link phase =>
      intro child' hchild
      obtain rfl : _ = child' := Option.some.inj hchild
      exact ⟨t, ts, hs, phase⟩
  | cut _ _ linked _ => simp [Inserting.Linked, linked]
  | moveEnd => simp [Inserting.Linked]

/-! ### Addresses on the lists -/

section Addresses

variable {s : System} {t : Thread} {ts : List Thread} {child : Ps}

theorem pss_addr_eq (s : System) :
  s.pss.map Ps.addr = s.runnable.map fun t => t.ps.addr
  := by
  rw [System.pss, List.map_map]
  rfl

/-- The processes of both lists are at different addresses. -/
theorem nodup_listed (h : s.addrs.Nodup) :
  (s.pss.map Ps.addr ++ s.zombies.map Ps.addr).Nodup
  := by
  rw [pss_addr_eq]
  apply List.Sublist.nodup _ h
  rw [addrs_eq]
  apply List.Sublist.append_right (map_addr_sublist _)

/-- A child that is added is at an address of its own. -/
theorem child_notMem (h : s.addrs.Nodup) (hs : s.runnable = t :: ts) (hphase : t.phase = .adding child) :
  child.addr ∉ s.pss.map Ps.addr ++ s.zombies.map Ps.addr
  := by
  have hnodup : (t.ps.addr :: child.addr :: (addrsOf ts ++ s.zombies.map Ps.addr)).Nodup := by
    rw [addrs_eq, hs, addrsOf_cons, hphase] at h
    exact h
  obtain ⟨hne, hnodup⟩ := List.nodup_cons.mp hnodup
  obtain ⟨hchild, -⟩ := List.nodup_cons.mp hnodup
  rw [pss_addr_eq, hs, List.map_cons, List.cons_append, List.mem_cons, not_or]
  constructor
  · rintro heq
    apply hne
    rw [heq]
    apply List.mem_cons_self
  · intro hmem
    apply hchild
    apply List.Sublist.subset _ hmem
    exact (map_addr_sublist ts).append_right _

end Addresses

/-! ### Runs -/

/-- A step that does not tear the list is one of the system in which insertions are not divided, or
leaves it as it is. -/
theorem sys_step (h : m.step code e = some (o, m')) (htorn : m'.torn = false) :
  m.torn = false ∧ (m'.sys = m.sys ∨ ∃ e' o', step code m.sys e' = some (o', m'.sys))
  := by
  obtain ⟨hbefore, t, ts, -, hshape⟩ := insertShape_of_step h
  use hbefore
  cases hshape with
  | system _ _ step => exact Or.inr ⟨_, _, step⟩
  | readEnd => exact Or.inl rfl
  | link => exact Or.inl rfl
  | moveEnd _ _ step => exact Or.inr ⟨_, _, step⟩
  | tear => simp at htorn
  | cut => simp at htorn

/-- As long as the list is not torn, the run is one of the system in which insertions are not
divided. -/
theorem runs_sys {s : System} {ele : Ptr} {tr : List InsertStep}
    (h : Runs (Inserting.step code) (.start s ele) tr m) (htorn : m.torn = false) :
  ∃ tr', Runs (step code) s tr' m.sys
  := by
  refine h.history (I := fun _ m => m.torn = false → ∃ tr', Runs (step code) s tr' m.sys) ?_ ?_ htorn
  · intro _
    exact ⟨[], .nil⟩
  · intro pre x _ hstep hruns htorn
    obtain ⟨hbefore, hsame | ⟨e', o', hstep'⟩⟩ := sys_step hstep htorn
    · rw [hsame]
      apply hruns hbefore
    · obtain ⟨tr', hruns⟩ := hruns hbefore
      exact ⟨_, hruns.concat hstep'⟩

theorem linked_runs {s : System} {ele : Ptr} {tr : List InsertStep}
    (h : Runs (Inserting.step code) (.start s ele) tr m) :
  m.Linked
  := by
  apply h.invariant (I := Inserting.Linked)
  · simp [Inserting.Linked, Inserting.start]
  · intro x _ hstep hlinked
    apply linked_step hstep hlinked

end Scheduler
