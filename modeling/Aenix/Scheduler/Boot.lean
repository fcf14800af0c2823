import Aenix.Scheduler.Pids

/-!
# From `enable_interrupts` to the first process

`kinit` enables interrupts before `start_init` has created a process, and the timer interrupts
`process_create` like any other code.  A tick that ends a time slice then makes
`scheduler_schedule_on_intterupt` store the registers through the null pointer that
`scheduler_get_current_process` returns.

`Machine` extends `System` by what comes before the first process, and by what comes after the last
one.  It divides `sys_exit` and `sys_execve` where they have taken the current process from the runnable
list, which may be empty then; `switch_to_kernel_stack` has disabled interrupts before.  A time slice is
five ticks, so the timer always finds a process exactly when at most four ticks come before `init` is on
the runnable list (`timer_has_process_iff`).
-/

open IA32 Process Trace

namespace Scheduler

/-- How far the kernel is. -/
inductive Stage where
  /-- in `process_create`, called by `start_init` -/
  | creating
  /-- `process_create` has returned `init` -/
  | adding (init : Ps)
  /-- `init` is on the runnable list, and `scheduler_schedule` is to run it -/
  | starting
  /-- `start_init` has no process to run: it returns, and `kmain` returns to an endless loop -/
  | idle
  /-- processes run -/
  | running
  /-- in `continue_exit`, which has taken the process from the runnable list -/
  | exiting (ps : Ps)
  /-- in `continue_execve`, which has taken the old process from the runnable list -/
  | replacing (new : Ps)
  /-- there is no process to run, or the kernel has stored through a null pointer; interrupts are
  disabled -/
  | stopped
  deriving DecidableEq

/-- The kernel after `kinit`. -/
structure Machine where
  stage : Stage
  sys : System

/-- What can happen. -/
inductive MachineEvent where
  /-- `process_create` returns NULL or a process -/
  | create (init : Option Ps)
  /-- `scheduler_add_runnable_process` in `start_init` -/
  | addInit (ele : Bool)
  /-- `scheduler_schedule` in `start_init` -/
  | schedule
  /-- `continue_exit` begins -/
  | continueExit
  /-- `continue_execve` begins, when `process_create_replacement` has returned `new` -/
  | continueExecve (new : Ps)
  /-- the end of `continue_exit` or `continue_execve` -/
  | finish (ele : Bool)
  /-- the event of a system in which processes run; otherwise the kernel computes and is interrupted by
  the timer -/
  | system (e : Event)

variable (code : Code)

/-- `scheduler_get_current_process`. -/
def schedulerGetCurrentProcess (s : System) : Option Ps := s.pss.head?

/-- The value of `ps` in `scheduler_schedule_on_intterupt`, if a tick ends a time slice. -/
def tickProcess (s : System) : Option (Option Ps) :=
  if s.ms + schedulerPitInterval ≥ schedulerTimeSlice then
    some (schedulerGetCurrentProcess s)
  else
    none

/-- The processor accepts interrupts. -/
def interruptsEnabled (c : Cpu) : Bool := c.eflags &&& 0x200 != 0

/-- `process_create` has made `init`. -/
def isInit (s : System) (init : Ps) : Bool :=
  init.id == schedulerNextPid s && init.parentId == 0 && init.current == init.userMode &&
    init.userMode.cs == userCs

/-- A timer interrupt outside of the processes. -/
def bootTick (m : Machine) : Option (Option (Option Ps) × Machine) :=
  if interruptsEnabled m.sys.cpu then
    match m.sys.runnable with
    | t :: ts =>
      some (tickProcess m.sys, { m with sys := (schedulerHandlePitInterrupt code m.sys t ts).2 })
    | [] =>
      let c := timerInterrupt m.sys.esp0 code.interruptHandler32 code.afterInterruptHandler m.sys.cpu
      match tickProcess m.sys with
      | some ps => some (some ps, ⟨.stopped, { m.sys with cpu := disableInterrupts c, ms := 0 }⟩)
      | none =>
        some (none, { m with sys := { m.sys with
          cpu := endOfInterrupt c
          ms := m.sys.ms + schedulerPitInterval } })
  else
    none

/-- Interrupts stay disabled in this stage. -/
def Stage.disabled : Stage → Bool
  | .exiting _ | .replacing _ | .stopped => true
  | .creating | .adding _ | .starting | .idle | .running => false

/-- The kernel outside of the processes: it computes, and is interrupted by the timer. -/
def bootStep (m : Machine) : Event → Option (Option (Option Ps) × Machine)
  | .compute c =>
    if c.cs == segselKernelCs && (!m.stage.disabled || !interruptsEnabled c) then
      some (none, { m with sys := { m.sys with cpu := c } })
    else
      none
  | .tick => bootTick code m
  | _ => none

/-- The value of `ps` in `scheduler_schedule_on_intterupt`, if the event calls it. -/
def eventProcess (s : System) : Event → Option (Option Ps)
  | .tick => tickProcess s
  | _ => none

/-- Processes run. -/
def processStep (s : System) : Event → Option (Option (Option Ps) × Machine)
  | .exit _ => none
  | .execve _ _ => none
  | e => (step code s e).map fun (_, s') => (eventProcess s e, ⟨.running, s'⟩)

/-- The kernel after `scheduler_schedule`, which returns to a loop when there is no process. -/
def scheduled (r : Option Ps × System) : Machine :=
  match r with
  | (some _, s) => ⟨.running, s⟩
  | (none, s) => ⟨.stopped, s⟩

/-- A step of the kernel, and the value of `ps` in `scheduler_schedule_on_intterupt` if it is
called. -/
def Machine.step (m : Machine) : MachineEvent → Option (Option (Option Ps) × Machine)
  | .create init =>
    match m.stage, init with
    | .creating, none => some (none, { m with stage := .idle })
    | .creating, some init =>
      if isInit m.sys init then some (none, { m with stage := .adding init }) else none
    | _, _ => none
  | .addInit ele =>
    match m.stage with
    | .adding init =>
      -- without a process, `scheduler_schedule` returns
      some (none, ⟨if ele then .starting else .idle,
        { m.sys with runnable := addProcess ele ⟨init, .user⟩ m.sys.runnable }⟩)
    | _ => none
  | .schedule =>
    match m.stage, schedulerSchedule code m.sys with
    | .starting, (some ps, s) =>
      -- a tick may have replaced the registers of `init` by those of `start_init`
      some (none, ⟨if ps.current.cs = segselKernelCs then .starting else .running, s⟩)
    | _, _ => none
  | .continueExit =>
    match m.stage, m.sys.runnable with
    | .running, t :: ts =>
      if t.phase = .syscall then some (none, ⟨.exiting t.ps, removeCurrent m.sys t ts⟩) else none
    | _, _ => none
  | .continueExecve new =>
    match m.stage, m.sys.runnable with
    | .running, t :: ts =>
      if t.phase = .syscall ∧ isReplacement m.sys t.ps new then
        some (none, ⟨.replacing new, removeCurrent m.sys t ts⟩)
      else
        none
    | _, _ => none
  | .finish ele =>
    match m.stage with
    | .exiting ps => some (none, scheduled (finishExit code m.sys ps ele))
    | .replacing new => some (none, scheduled (finishExecve code m.sys new ele))
    | _ => none
  | .system e =>
    match m.stage with
    | .running => processStep code m.sys e
    | _ => bootStep code m e

/-- The kernel when `kinit` has enabled interrupts. -/
def afterKinit (c : Cpu) (esp0 : UInt32) : Machine where
  stage := .creating
  sys :=
    { cpu := { c with cs := segselKernelCs, eflags := c.eflags ||| 0x200 }
      esp0 := esp0
      ms := 0
      runnable := []
      zombies := [] }

/-- A step of the kernel. -/
abbrev MachineStep := Transition Machine MachineEvent (Option (Option Ps))

/-- `init` is not, or will never be, on the runnable list. -/
def Stage.early : Stage → Bool
  | .creating | .adding _ | .idle => true
  | .starting | .running | .exiting _ | .replacing _ | .stopped => false

/-- The current process has been taken from the runnable list. -/
def Stage.removing : Stage → Bool
  | .exiting _ | .replacing _ => true
  | .creating | .adding _ | .idle | .starting | .running | .stopped => false

/-- A tick before `init` is on the runnable list. -/
def isEarlyTick (x : MachineStep) : Bool :=
  match x.event with
  | .system .tick => x.before.stage.early
  | _ => false

/-- The number of these ticks. -/
def earlyTicks (tr : List MachineStep) : ℕ := tr.countP isEarlyTick

variable {code : Code}

/-! ### Ticks -/

/-- Every time slice has ended with a process, and the ticks before `init` are less than a slice. -/
def Saved (tr : List MachineStep) : Prop :=
  (∀ x ∈ tr, x.effect ≠ some none) ∧ earlyTicks tr < 5

/-- A time slice has ended without a process, and it has ended before `init`. -/
def Unsaved (tr : List MachineStep) : Prop :=
  (∃ x ∈ tr, x.effect = some none) ∧ 5 ≤ earlyTicks tr

theorem earlyTicks_concat (tr : List MachineStep) (x : MachineStep) :
  earlyTicks (tr ++ [x]) = earlyTicks tr + (isEarlyTick x).toNat
  := by
  rw [earlyTicks, earlyTicks, List.countP_append, List.countP_singleton]
  cases isEarlyTick x
  · rfl
  · rfl

theorem Saved.tick {tr : List MachineStep} {x : MachineStep} (h : Saved tr)
    (heffect : x.effect ≠ some none) (hlt : earlyTicks (tr ++ [x]) < 5) :
  Saved (tr ++ [x])
  := by
  refine ⟨?_, hlt⟩
  intro y hy
  rcases List.mem_append.mp hy with hy | hy
  · apply h.1 y hy
  · rw [List.mem_singleton.mp hy]
    apply heffect

theorem Saved.concat {tr : List MachineStep} {x : MachineStep} (h : Saved tr)
    (heffect : x.effect ≠ some none) (hearly : isEarlyTick x = false) :
  Saved (tr ++ [x])
  := by
  apply h.tick heffect
  rw [earlyTicks_concat, hearly]
  apply h.2

theorem Unsaved.concat {tr : List MachineStep} {x : MachineStep} (h : Unsaved tr) :
  Unsaved (tr ++ [x])
  := by
  obtain ⟨⟨y, hy, heffect⟩, hle⟩ := h
  refine ⟨⟨y, List.mem_append_left _ hy, heffect⟩, ?_⟩
  rw [earlyTicks_concat]
  omega

/-- With a process on the list, the timer finds one. -/
theorem tickProcess_ne {s : System} (h : s.runnable ≠ []) :
  tickProcess s ≠ some none
  := by
  rw [tickProcess]
  split
  · simp [schedulerGetCurrentProcess, System.pss, h]
  · simp

theorem toNat_ms_tick {ms : UInt32} {n : ℕ} (hms : ms.toNat = 2 * n) (hn : n < 5) :
  (ms + schedulerPitInterval).toNat = 2 * (n + 1)
  := by
  rw [UInt32.toNat_add, hms]
  change (2 * n + 2) % 2 ^ 32 = _
  omega

/-- Without a process, the fifth tick is the one that ends a time slice. -/
theorem tickProcess_nil {s : System} (h : s.runnable = []) {n : ℕ} (hms : s.ms.toNat = 2 * n)
    (hn : n < 5) :
  tickProcess s = if n = 4 then some none else none
  := by
  have hslice : s.ms + schedulerPitInterval ≥ schedulerTimeSlice ↔ n = 4 := by
    rw [ge_iff_le, UInt32.le_iff_toNat_le, toNat_ms_tick hms hn]
    change 10 ≤ _ ↔ _
    omega
  simp only [tickProcess, hslice, schedulerGetCurrentProcess, System.pss, h, List.map_nil,
    List.head?_nil]

theorem Dispatch.ne_nil {ts : List Thread} {ps : Ps} {s' : System}
    (h : Dispatch code ts (some ps) s') :
  s'.runnable ≠ []
  := by
  intro hnil
  have hhead := h.head
  rw [System.pss, hnil] at hhead
  simp at hhead

/-- Only `sys_exit` and `sys_execve` take a process from the runnable list. -/
theorem runnable_ne_nil_of_step {s s' : System} {e : Event} {o : Effect}
    (h : step code s e = some (o, s')) (hexit : ∀ ele, e ≠ .exit ele)
    (hexecve : ∀ new ele, e ≠ .execve new ele) :
  s'.runnable ≠ []
  := by
  obtain ⟨t, ts, -, hshape⟩ := shape_of_step h
  cases hshape with
  | stay _ _ _ runnable _ => simp [runnable]
  | nextPid _ runnable _ => simp [runnable]
  | clone _ _ _ _ runnable _ => simp [runnable]
  | addRunnable _ _ _ runnable _ =>
      rw [runnable, addProcess]
      split
      · simp
      · simp
  | waitNone _ _ _ _ runnable _ => simp [runnable]
  | waitSome _ _ runnable _ => simp [runnable]
  | waitOne _ _ _ _ runnable _ => simp [runnable]
  | switch _ _ _ dispatch _ =>
      rw [dispatch.rotated, rotate]
      simp
  | @execve new ele => exact absurd rfl (hexecve new ele)
  | @exit ele => exact absurd rfl (hexit ele)

theorem interruptsEnabled_disableInterrupts (c : Cpu) :
  interruptsEnabled (disableInterrupts c) = false
  := by
  have h : c.eflags &&& 0xFFFFFDFF &&& 0x200 = 0 := by
    rw [UInt32.and_assoc, show (0xFFFFFDFF &&& 0x200 : UInt32) = 0 from rfl, UInt32.and_zero]
  rw [interruptsEnabled, disableInterrupts, h]
  rfl

/-! ### The invariant -/

/-- What holds when the kernel has come to `m` by the steps `tr`. -/
inductive Sound (tr : List MachineStep) (m : Machine) : Prop
  | before (stage : m.stage.early) (runnable : m.sys.runnable = [])
      (ms : m.sys.ms.toNat = 2 * earlyTicks tr) (saved : Saved tr)
  | after (stage : m.stage = .starting ∨ m.stage = .running) (runnable : m.sys.runnable ≠ [])
      (saved : Saved tr)
  | removed (stage : m.stage.removing) (disabled : interruptsEnabled m.sys.cpu = false)
      (saved : Saved tr)
  | stopped (stage : m.stage = .stopped) (disabled : interruptsEnabled m.sys.cpu = false)
      (either : Saved tr ∨ Unsaved tr)

theorem sound_afterKinit (c : Cpu) (esp0 : UInt32) :
  Sound [] (afterKinit c esp0)
  := by
  apply Sound.before
  · rfl
  · rfl
  · rfl
  · exact ⟨by simp, by decide⟩

section Step

variable {pre : List MachineStep} {m m' : Machine} {o : Option (Option Ps)} {e : Event}

theorem not_early_of_removing {stage : Stage} (h : stage.removing) :
  stage.early = false
  := by
  cases stage with
  | exiting | replacing => rfl
  | creating | adding | starting | idle | running | stopped => simp [Stage.removing] at h

theorem disabled_of_removing {stage : Stage} (h : stage.removing) :
  stage.disabled
  := by
  cases stage with
  | exiting | replacing => rfl
  | creating | adding | starting | idle | running | stopped => simp [Stage.removing] at h

theorem Sound.of_early (h : Sound pre m) (stage : m.stage.early) :
  m.sys.runnable = [] ∧ m.sys.ms.toNat = 2 * earlyTicks pre ∧ Saved pre
  := by
  cases h with
  | before _ runnable ms saved => exact ⟨runnable, ms, saved⟩
  | after stage' =>
      rcases stage' with h | h
      · simp [h, Stage.early] at stage
      · simp [h, Stage.early] at stage
  | removed stage' => simp [not_early_of_removing stage'] at stage
  | stopped stage' => simp [stage', Stage.early] at stage

theorem Sound.of_listed (h : Sound pre m) (stage : m.stage = .starting ∨ m.stage = .running) :
  m.sys.runnable ≠ [] ∧ Saved pre
  := by
  cases h with
  | before stage' =>
      rcases stage with h | h
      · simp [h, Stage.early] at stage'
      · simp [h, Stage.early] at stage'
  | after _ runnable saved => exact ⟨runnable, saved⟩
  | removed stage' =>
      rcases stage with h | h
      · simp [h, Stage.removing] at stage'
      · simp [h, Stage.removing] at stage'
  | stopped stage' => simp [stage'] at stage

theorem Sound.of_removing (h : Sound pre m) (stage : m.stage.removing) :
  interruptsEnabled m.sys.cpu = false ∧ Saved pre
  := by
  cases h with
  | before stage' => simp [not_early_of_removing stage] at stage'
  | after stage' =>
      rcases stage' with h | h
      · simp [h, Stage.removing] at stage
      · simp [h, Stage.removing] at stage
  | removed _ disabled saved => exact ⟨disabled, saved⟩
  | stopped stage' => simp [stage', Stage.removing] at stage

/-- A step before `init` in which no time slice ends. -/
theorem Sound.prepare {me : MachineEvent} (h : Sound pre m) (stage : m.stage.early)
    (stage' : m'.stage.early) (runnable : m'.sys.runnable = m.sys.runnable)
    (ms : m'.sys.ms = m.sys.ms) (hme : isEarlyTick ⟨m, me, none, m'⟩ = false) :
  Sound (pre ++ [⟨m, me, none, m'⟩]) m'
  := by
  obtain ⟨hnil, hms, saved⟩ := h.of_early stage
  apply Sound.before stage'
  · rw [runnable, hnil]
  · rw [ms, hms, earlyTicks_concat, hme]
    rfl
  · apply saved.concat (by simp) hme

theorem sound_create {init : Option Ps} (h : m.step code (.create init) = some (o, m'))
    (hs : Sound pre m) :
  Sound (pre ++ [⟨m, .create init, o, m'⟩]) m'
  := by
  simp only [Machine.step] at h
  split at h
  case h_1 hstage =>
    obtain ⟨rfl, rfl⟩ := Prod.mk.inj (Option.some.inj h)
    exact hs.prepare (by simp [hstage, Stage.early]) rfl rfl rfl rfl
  case h_2 hstage =>
    split at h
    case isFalse => simp at h
    obtain ⟨rfl, rfl⟩ := Prod.mk.inj (Option.some.inj h)
    exact hs.prepare (by simp [hstage, Stage.early]) rfl rfl rfl rfl
  case h_3 => simp at h

theorem sound_addInit {ele : Bool} (h : m.step code (.addInit ele) = some (o, m'))
    (hs : Sound pre m) :
  Sound (pre ++ [⟨m, .addInit ele, o, m'⟩]) m'
  := by
  simp only [Machine.step] at h
  split at h
  case h_2 => simp at h
  case h_1 init hstage =>
    obtain ⟨rfl, rfl⟩ := Prod.mk.inj (Option.some.inj h)
    have hearly : m.stage.early := by
      rw [hstage]
      rfl
    cases ele
    · exact hs.prepare hearly rfl rfl rfl rfl
    · obtain ⟨-, -, saved⟩ := hs.of_early hearly
      apply Sound.after (Or.inl rfl) (by simp [addProcess])
      exact saved.concat (by simp) rfl

theorem sound_schedule (h : m.step code .schedule = some (o, m')) (hs : Sound pre m) :
  Sound (pre ++ [⟨m, .schedule, o, m'⟩]) m'
  := by
  simp only [Machine.step] at h
  split at h
  case h_2 => simp at h
  case h_1 ps s hstage hschedule =>
    obtain ⟨rfl, rfl⟩ := Prod.mk.inj (Option.some.inj h)
    obtain ⟨-, saved⟩ := hs.of_listed (Or.inl hstage)
    have hdispatch := (schedulerSchedule_spec code m.sys).1
    rw [hschedule] at hdispatch
    apply Sound.after _ hdispatch.ne_nil
    · exact saved.concat (by simp) rfl
    · by_cases hcs : ps.current.cs = segselKernelCs
      · simp [hcs]
      · simp [hcs]

/-- While processes run. -/
theorem sound_processStep (hstage : m.stage = .running)
    (h : processStep code m.sys e = some (o, m')) (hs : Sound pre m) :
  Sound (pre ++ [⟨m, .system e, o, m'⟩]) m'
  := by
  obtain ⟨hne, saved⟩ := hs.of_listed (Or.inr hstage)
  have hearly : isEarlyTick ⟨m, .system e, o, m'⟩ = false := by
    simp only [isEarlyTick, hstage]
    split
    · rfl
    · rfl
  rw [processStep.eq_def] at h
  split at h
  case h_1 => simp at h
  case h_2 => simp at h
  case h_3 hexit hexecve =>
    obtain ⟨⟨effect, s'⟩, hstep, heq⟩ := Option.map_eq_some_iff.mp h
    obtain ⟨rfl, rfl⟩ := Prod.mk.inj heq
    apply Sound.after (Or.inr rfl) (runnable_ne_nil_of_step hstep hexit hexecve)
    apply saved.concat _ hearly
    cases e with
    | tick => apply tickProcess_ne hne
    | compute | enter | leave | yield | nextPid | clone | addRunnable | execve | exit | wait | poll =>
        simp [eventProcess]

/-- `switch_to_kernel_stack` disables interrupts, and the current process is taken from its list. -/
theorem sound_removeCurrent {me : MachineEvent} {stage : Stage} {t : Thread} {ts : List Thread}
    (hstage : m.stage = .running) (hremoving : stage.removing) (hs : Sound pre m)
    (hme : ∀ m', isEarlyTick ⟨m, me, none, m'⟩ = false) :
  Sound (pre ++ [⟨m, me, none, ⟨stage, removeCurrent m.sys t ts⟩⟩]) ⟨stage, removeCurrent m.sys t ts⟩
  := by
  obtain ⟨-, saved⟩ := hs.of_listed (Or.inr hstage)
  apply Sound.removed hremoving (interruptsEnabled_disableInterrupts _)
  exact saved.concat (by simp) (hme _)

theorem sound_continueExit (h : m.step code .continueExit = some (o, m')) (hs : Sound pre m) :
  Sound (pre ++ [⟨m, .continueExit, o, m'⟩]) m'
  := by
  simp only [Machine.step] at h
  split at h
  case h_2 => simp at h
  case h_1 t ts hstage _ =>
    split at h
    case isFalse => simp at h
    obtain ⟨rfl, rfl⟩ := Prod.mk.inj (Option.some.inj h)
    apply sound_removeCurrent hstage rfl hs
    intro _
    rfl

theorem sound_continueExecve {new : Ps} (h : m.step code (.continueExecve new) = some (o, m'))
    (hs : Sound pre m) :
  Sound (pre ++ [⟨m, .continueExecve new, o, m'⟩]) m'
  := by
  simp only [Machine.step] at h
  split at h
  case h_2 => simp at h
  case h_1 t ts hstage _ =>
    split at h
    case isFalse => simp at h
    obtain ⟨rfl, rfl⟩ := Prod.mk.inj (Option.some.inj h)
    apply sound_removeCurrent hstage rfl hs
    intro _
    rfl

/-- `scheduler_schedule` runs a process, or returns with interrupts disabled. -/
theorem sound_scheduled {tr : List MachineStep} (s : System) (disabled : interruptsEnabled s.cpu = false)
    (saved : Saved tr) :
  Sound tr (scheduled (schedulerSchedule code s))
  := by
  obtain ⟨hdispatch, -⟩ := schedulerSchedule_spec code s
  rw [schedulerSchedule, runFirst] at hdispatch ⊢
  split at hdispatch
  case h_1 => exact .stopped rfl disabled (Or.inl saved)
  case h_2 => exact .after (Or.inr rfl) hdispatch.ne_nil saved

theorem sound_finish {ele : Bool} (h : m.step code (.finish ele) = some (o, m')) (hs : Sound pre m) :
  Sound (pre ++ [⟨m, .finish ele, o, m'⟩]) m'
  := by
  simp only [Machine.step] at h
  split at h
  case h_1 ps hstage =>
    obtain ⟨rfl, rfl⟩ := Prod.mk.inj (Option.some.inj h)
    obtain ⟨disabled, saved⟩ := hs.of_removing (by simp [hstage, Stage.removing])
    exact sound_scheduled { m.sys with zombies := addProcess ele ps m.sys.zombies } disabled
      (saved.concat (by simp) rfl)
  case h_2 new hstage =>
    obtain ⟨rfl, rfl⟩ := Prod.mk.inj (Option.some.inj h)
    obtain ⟨disabled, saved⟩ := hs.of_removing (by simp [hstage, Stage.removing])
    exact sound_scheduled
      { m.sys with runnable := addProcess ele ⟨new, .user⟩ m.sys.runnable } disabled
      (saved.concat (by simp) rfl)
  case h_3 => simp at h

/-- A tick before `init`: the fifth one finds no process. -/
theorem sound_early_tick (hstage : m.stage.early) (h : bootTick code m = some (o, m'))
    (hs : Sound pre m) :
  Sound (pre ++ [⟨m, .system .tick, o, m'⟩]) m'
  := by
  obtain ⟨hnil, hms, saved⟩ := hs.of_early hstage
  have hcount : earlyTicks (pre ++ [⟨m, .system .tick, o, m'⟩]) = earlyTicks pre + 1 := by
    rw [earlyTicks_concat, isEarlyTick, hstage]
    rfl
  have htick := tickProcess_nil hnil hms saved.2
  have hlt := saved.2
  simp only [bootTick, hnil, htick] at h
  split at h
  case isFalse => simp at h
  by_cases hfour : earlyTicks pre = 4
  · simp only [hfour, if_true] at h
    obtain ⟨rfl, rfl⟩ := Prod.mk.inj (Option.some.inj h)
    apply Sound.stopped rfl
    · apply interruptsEnabled_disableInterrupts
    · right
      refine ⟨⟨_, List.mem_append_right _ (List.mem_singleton_self _), rfl⟩, ?_⟩
      omega
  · simp only [hfour, if_false] at h
    obtain ⟨rfl, rfl⟩ := Prod.mk.inj (Option.some.inj h)
    refine Sound.before hstage rfl ?_ ?_
    · rw [hcount, toNat_ms_tick hms hlt]
    · apply saved.tick (by simp)
      omega

/-- A tick while `init` is on the list. -/
theorem sound_starting_tick (hstage : m.stage = .starting) (h : bootTick code m = some (o, m'))
    (hs : Sound pre m) :
  Sound (pre ++ [⟨m, .system .tick, o, m'⟩]) m'
  := by
  obtain ⟨hne, saved⟩ := hs.of_listed (Or.inl hstage)
  have hearly : isEarlyTick ⟨m, .system .tick, o, m'⟩ = false := by
    simp only [isEarlyTick, hstage]
    rfl
  rw [bootTick] at h
  split at h
  case isFalse => simp at h
  case isTrue henabled =>
    split at h
    case h_2 hnil => exact absurd hnil hne
    case h_1 t ts hcons =>
      obtain ⟨rfl, rfl⟩ := Prod.mk.inj (Option.some.inj h)
      refine Sound.after (Or.inl hstage) ?_ ?_
      · have hstep : step code m.sys .tick = some
            ({ dispatched := (schedulerHandlePitInterrupt code m.sys t ts).1 },
              (schedulerHandlePitInterrupt code m.sys t ts).2) := by
          simp only [step, hcons, stepOf_tick]
          rw [if_pos (by simpa [interruptsEnabled] using henabled)]
        apply runnable_ne_nil_of_step hstep (by simp) (by simp)
      · apply saved.concat (tickProcess_ne hne) hearly

/-- The kernel computes, outside of the processes. -/
theorem sound_compute {c : Cpu} (h : bootStep code m (.compute c) = some (o, m'))
    (hs : Sound pre m) :
  Sound (pre ++ [⟨m, .system (.compute c), o, m'⟩]) m'
  := by
  simp only [bootStep] at h
  split at h
  case isFalse => simp at h
  case isTrue hc =>
    obtain ⟨rfl, rfl⟩ := Prod.mk.inj (Option.some.inj h)
    cases hs with
    | before stage runnable ms saved =>
        exact Sound.prepare (.before stage runnable ms saved) stage stage rfl rfl rfl
    | after stage runnable saved => exact .after stage runnable (saved.concat (by simp) rfl)
    | removed stage _ saved =>
        refine Sound.removed stage ?_ (saved.concat (by simp) rfl)
        simpa [disabled_of_removing stage] using (Bool.and_eq_true_iff.mp hc).2
    | stopped stage disabled either =>
        refine Sound.stopped stage ?_ ?_
        · rw [stage] at hc
          simpa [Stage.disabled] using (Bool.and_eq_true_iff.mp hc).2
        · rcases either with saved | unsaved
          · exact Or.inl (saved.concat (by simp) rfl)
          · exact Or.inr unsaved.concat

/-- Every step keeps the invariant. -/
theorem sound_step {me : MachineEvent} (h : m.step code me = some (o, m')) (hs : Sound pre m) :
  Sound (pre ++ [⟨m, me, o, m'⟩]) m'
  := by
  cases me with
  | create init => apply sound_create h hs
  | addInit ele => apply sound_addInit h hs
  | schedule => apply sound_schedule h hs
  | continueExit => apply sound_continueExit h hs
  | continueExecve new => apply sound_continueExecve h hs
  | finish ele => apply sound_finish h hs
  | system e =>
      simp only [Machine.step] at h
      split at h
      case h_1 hstage => apply sound_processStep hstage h hs
      case h_2 hstage =>
        cases e with
        | compute c => apply sound_compute h hs
        | tick =>
            cases hs with
            | before stage runnable ms saved =>
                apply sound_early_tick stage h (.before stage runnable ms saved)
            | after stage runnable saved =>
                apply sound_starting_tick (stage.resolve_right hstage) h (.after stage runnable saved)
            | removed _ disabled _ => simp [bootStep, bootTick, disabled] at h
            | stopped _ disabled _ => simp [bootStep, bootTick, disabled] at h
        | enter | leave | yield | nextPid | clone | addRunnable | execve | exit | wait | poll =>
            simp [bootStep] at h

end Step

/-! ### Runs -/

/-- In every run of the kernel from `enable_interrupts` on, the timer finds a process at the end of
every time slice if and only if at most four ticks come before `init` is on the runnable list. -/
theorem timer_has_process_iff (c : Cpu) (esp0 : UInt32) {tr : List MachineStep} {m : Machine}
    (h : Runs (Machine.step code) (afterKinit c esp0) tr m) :
  (∀ x ∈ tr, x.effect ≠ some none) ↔ earlyTicks tr ≤ 4
  := by
  have hsound : Sound tr m := by
    apply h.history (I := Sound) (sound_afterKinit c esp0)
    intro pre x _ hstep hs
    apply sound_step hstep hs
  have either : Saved tr ∨ Unsaved tr := by
    cases hsound with
    | before _ _ _ saved => exact Or.inl saved
    | after _ _ saved => exact Or.inl saved
    | removed _ _ saved => exact Or.inl saved
    | stopped _ _ either => exact either
  rcases either with ⟨hsome, hlt⟩ | ⟨⟨x, hx, hnone⟩, hle⟩
  · constructor
    · intro _
      omega
    · intro _
      apply hsome
  · constructor
    · intro hsome
      exact absurd hnone (hsome x hx)
    · intro hlt
      omega

/-- The process `init`. -/
def someInit : Ps := somePs 0xC0400000 1 0

/-- Four ticks come before `init` is on the list.  It runs, is interrupted at the end of a time slice,
calls `sys_execve`, is interrupted again, and exits; there is no other process. -/
def fourTicks : List MachineEvent :=
  List.replicate 4 (.system .tick) ++ [.create (some someInit), .addInit true, .schedule] ++
    List.replicate 5 (.system .tick) ++
    [.system (.compute userCpu), .system .enter, .continueExecve (somePs 0xC0420000 1 0),
      .finish true] ++
    List.replicate 5 (.system .tick) ++
    [.system (.compute userCpu), .system .enter, .continueExit, .finish true]

theorem timer_has_process_four :
  ∃ tr m, Runs (Machine.step someCode) (afterKinit userCpu 0) tr m ∧ earlyTicks tr ≤ 4 ∧
    (tr.filterMap fun x => x.effect).map (fun p => p.map Ps.addr) =
      [some 0xC0400000, some 0xC0420000] ∧
    m.stage = .stopped ∧ m.sys.zombies.map Ps.id = [1] ∧ ∀ x ∈ tr, x.effect ≠ some none
  := by
  obtain ⟨tr, m, hruns, hticks, hslices, hstage, hzombies⟩ := exists_runs
    (P := fun r : List MachineStep × Machine => earlyTicks r.1 ≤ 4 ∧
      (r.1.filterMap fun x => x.effect).map (fun p => p.map Ps.addr) =
        [some 0xC0400000, some 0xC0420000] ∧
      r.2.stage = .stopped ∧ r.2.sys.zombies.map Ps.id = [1])
    (Machine.step someCode) (afterKinit userCpu 0) fourTicks (by decide +kernel)
  exact ⟨tr, m, hruns, hticks, hslices, hstage, hzombies, (timer_has_process_iff _ _ hruns).mpr hticks⟩

/-- Five ticks come while `process_create` reads the code of `init`. -/
theorem five_ticks_without_process :
  ∃ tr m, Runs (Machine.step someCode) (afterKinit userCpu 0) tr m ∧ m.stage = .stopped ∧
    ∃ x ∈ tr, x.before.stage = .creating ∧ interruptsEnabled x.before.sys.cpu ∧ x.effect = some none
  := by
  obtain ⟨tr, m, hruns, hstage, hnone⟩ := exists_runs
    (P := fun r : List MachineStep × Machine => r.2.stage = .stopped ∧
      ∃ x ∈ r.1, x.before.stage = .creating ∧ interruptsEnabled x.before.sys.cpu ∧
        x.effect = some none)
    (Machine.step someCode) (afterKinit userCpu 0) (List.replicate 5 (.system .tick))
    (by decide +kernel)
  exact ⟨tr, m, hruns, hstage, hnone⟩

end Scheduler
