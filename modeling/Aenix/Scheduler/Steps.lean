import Aenix.Scheduler.System

/-!
# What a step can do

Every step of the system has one of a few shapes (`Shape`): the current process goes on, possibly in
another phase; a process is created, or added; `sys_wait` returns; or `scheduler_schedule` runs the
next process, after the current one has been kept, replaced or taken out.  The invariants of the
system are proved by cases on the shape.
-/

open IA32 Process Syscall

namespace Scheduler

variable {code : Code}

/-- A process under the same address, with the same ids. -/
structure Thread.Same (t t' : Thread) : Prop where
  addr : t'.ps.addr = t.ps.addr
  id : t'.ps.id = t.ps.id
  parentId : t'.ps.parentId = t.ps.parentId

theorem Thread.Same.rfl {t : Thread} {phase : Phase} :
  t.Same { t with phase := phase }
  := ⟨by rfl, by rfl, by rfl⟩

theorem Thread.Same.registers {t : Thread} (current userMode : Registers) (phase : Phase) :
  t.Same ⟨{ t.ps with current := current, userMode := userMode }, phase⟩
  := ⟨by rfl, by rfl, by rfl⟩

/-- The process is not in the middle of `sys_fork`. -/
def Phase.Settled : Phase → Prop
  | .cloning _ => False
  | .adding _ => False
  | _ => True

theorem Phase.settled_user {f : Phase} (h : f = .user) :
  f.Settled
  := by
  rw [h]
  trivial

/-- The phase does not change, or the process is outside of `sys_fork` and of the loop of `sys_wait`
after the step, and was outside of this loop before. -/
def Phase.Goes (f f' : Phase) : Prop :=
  f' = f ∨ f'.Settled ∧ f' ≠ .waiting ∧ f ≠ .waiting

theorem Phase.Goes.settled {f f' : Phase} (h : f.Goes f') :
  f' = f ∨ f'.Settled
  := h.imp id And.left

theorem Phase.Goes.waiting_iff {f f' : Phase} (h : f.Goes f') :
  f' = .waiting ↔ f = .waiting
  := by
  rcases h with rfl | ⟨-, h', h⟩
  · rfl
  · simp [h', h]

theorem Phase.goes_user {f : Phase} (h : f ≠ .waiting) :
  f.Goes .user
  := Or.inr ⟨trivial, by simp, h⟩

/-- `scheduler_schedule`, called when the runnable list is `ts`, runs the process `p`, if there is
one. -/
structure Dispatch (code : Code) (ts : List Thread) (p : Option Ps) (s' : System) : Prop where
  rotated : s'.runnable = rotate ts
  head : s'.pss.head? = p
  cpu : ∀ ps ∈ p, ∃ c, s'.cpu = runProcess code.afterRunProcess ps c

/-- The shapes of a step of the current process `t` beside the processes `ts`. -/
inductive Shape (code : Code) (s : System) (t : Thread) (ts : List Thread) :
    Event → Effect → System → Prop
  | stay {e : Event} {t' : Thread} {s' : System} (same : t.Same t') (event : e ≠ .wait)
      (phase : t.phase.Goes t'.phase) (runnable : s'.runnable = t' :: ts)
      (zombies : s'.zombies = s.zombies) : Shape code s t ts e {} s'
  | nextPid {s' : System} (phase : t.phase = .syscall)
      (runnable : s'.runnable = { t with phase := .cloning (schedulerNextPid s) } :: ts)
      (zombies : s'.zombies = s.zombies) : Shape code s t ts .nextPid {} s'
  | clone {newPid : UInt32} {new : Option Ps} {child : Ps} {s' : System}
      (phase : t.phase = .cloning newPid) (id : child.id = newPid)
      (parentId : child.parentId = t.ps.id) (addr : child.addr ∉ s.addrs)
      (runnable : s'.runnable = { t with phase := .adding child } :: ts)
      (zombies : s'.zombies = s.zombies) :
      Shape code s t ts (.clone new) { created := some child } s'
  | addRunnable {ele : Bool} {child : Ps} {t' : Thread} {s' : System}
      (phase : t.phase = .adding child) (same : t.Same t') (phase' : t'.phase = .user)
      (runnable : s'.runnable = addProcess ele ⟨child, .user⟩ (t' :: ts))
      (zombies : s'.zombies = s.zombies) : Shape code s t ts (.addRunnable ele) {} s'
  | waitNone {t' : Thread} {s' : System} (none : schedulerNumChildren s t.ps.id = 0)
      (phase : t.phase = .syscall) (same : t.Same t') (phase' : t'.phase = .user)
      (runnable : s'.runnable = t' :: ts) (zombies : s'.zombies = s.zombies) :
      Shape code s t ts .wait { waitReturned := some (t.ps.id, -1) } s'
  | waitSome {s' : System} (some : schedulerNumChildren s t.ps.id ≠ 0) (phase : t.phase = .syscall)
      (runnable : s'.runnable = { t with phase := .waiting } :: ts)
      (zombies : s'.zombies = s.zombies) : Shape code s t ts .wait {} s'
  | waitOne {t' : Thread} {s' : System} (one : schedulerHasAnyChildTerminated s t.ps)
      (phase : t.phase = .waiting) (same : t.Same t') (phase' : t'.phase = .user)
      (runnable : s'.runnable = t' :: ts) (zombies : s'.zombies = s.zombies) :
      Shape code s t ts .poll { waitReturned := some (t.ps.id, 0) } s'
  | switch {e : Event} {t' : Thread} {p : Option Ps} {s' : System} (same : t.Same t')
      (event : e ≠ .wait) (phase : t.phase.Goes t'.phase)
      (dispatch : Dispatch code (t' :: ts) p s') (zombies : s'.zombies = s.zombies) :
      Shape code s t ts e { dispatched := p } s'
  | execve {new : Ps} {ele : Bool} {p : Option Ps} {s' : System}
      (id : new.id = t.ps.id) (parentId : new.parentId = t.ps.parentId) (addr : new.addr ∉ s.addrs)
      (phase : t.phase = .syscall)
      (dispatch : Dispatch code (addProcess ele ⟨new, .user⟩ ts) p s')
      (zombies : s'.zombies = s.zombies) :
      Shape code s t ts (.execve new ele) { dispatched := p } s'
  | exit {ele : Bool} {p : Option Ps} {s' : System} (phase : t.phase = .syscall)
      (dispatch : Dispatch code ts p s') (zombies : s'.zombies = addProcess ele t.ps s.zombies) :
      Shape code s t ts (.exit ele) { dispatched := p, exited := some t.ps } s'

theorem rotate_perm (ts : List Thread) :
  (rotate ts).Perm ts
  := by
  cases ts with
  | nil => rfl
  | cons t ts => apply List.perm_append_comm

theorem Dispatch.perm {ts : List Thread} {p : Option Ps} {s' : System} (h : Dispatch code ts p s') :
  s'.runnable.Perm ts
  := by
  rw [h.rotated]
  apply rotate_perm

theorem runFirst_spec (code : Code) (s : System) :
  (runFirst code s).2.runnable = s.runnable ∧ (runFirst code s).2.zombies = s.zombies ∧
    s.pss.head? = (runFirst code s).1 ∧
    ∀ ps ∈ (runFirst code s).1, ∃ c, (runFirst code s).2.cpu = runProcess code.afterRunProcess ps c
  := by
  rw [runFirst]
  cases hs : s.runnable with
  | nil => simp [System.pss, hs]
  | cons t ts =>
      refine ⟨rfl, rfl, by simp [System.pss, hs], ?_⟩
      rintro ps hps
      obtain rfl := Option.some.inj hps
      exact ⟨_, rfl⟩

theorem schedulerSchedule_spec (code : Code) (s : System) :
  Dispatch code s.runnable (schedulerSchedule code s).1 (schedulerSchedule code s).2 ∧
    (schedulerSchedule code s).2.zombies = s.zombies
  := by
  obtain ⟨hrunnable, hzombies, hhead, hcpu⟩ := runFirst_spec code { s with runnable := rotate s.runnable }
  refine ⟨⟨hrunnable, ?_, hcpu⟩, hzombies⟩
  rw [System.pss, schedulerSchedule, hrunnable]
  apply hhead

theorem removeProcess_head (t : Thread) (ts : List Thread) :
  removeProcess t.ps.id (t :: ts) = ts
  := by
  simp [removeProcess]

/-- Saving registers does not change which process it is. -/
theorem same_updateRegisters (t : Thread) (cpu : CpuState) (stack : StackState) :
  t.Same { t with ps := updateRegisters t.ps cpu stack }
  := by
  rw [updateRegisters]
  split
  · exact ⟨rfl, rfl, rfl⟩
  · exact ⟨rfl, rfl, rfl⟩

/-! ### Events

What the current process does, event by event.
-/

section Events

variable (code : Code) (s : System) (t : Thread) (ts : List Thread)

theorem stepOf_tick :
  stepOf code s t ts .tick =
    if s.cpu.eflags &&& 0x200 ≠ 0 then
      some ({ dispatched := (schedulerHandlePitInterrupt code s t ts).1 },
        (schedulerHandlePitInterrupt code s t ts).2)
    else
      none
  := rfl

theorem stepOf_clone (new : Option Ps) :
  stepOf code s t ts (.clone new) =
    match t.phase, new with
    | .cloning _, none => some ({}, leaveSyscall code s t ts (-1))
    | .cloning newPid, some new =>
      if isClone s t.ps newPid new then
        let userMode := { new.userMode with eax := 0 }
        let new := { new with userMode := userMode, current := userMode }
        some ({ created := some new }, { s with runnable := { t with phase := .adding new } :: ts })
      else
        none
    | _, _ => none
  := rfl

theorem stepOf_addRunnable (ele : Bool) :
  stepOf code s t ts (.addRunnable ele) =
    match t.phase with
    | .adding new =>
      let s := leaveSyscall code s t ts new.id
      some ({}, { s with runnable := addProcess ele ⟨new, .user⟩ s.runnable })
    | _ => none
  := rfl

theorem stepOf_execve (new : Ps) (ele : Bool) :
  stepOf code s t ts (.execve new ele) =
    if t.phase = .syscall ∧ isReplacement s t.ps new then
      some ({ dispatched := (continueExecve code s t ts new ele).1 },
        (continueExecve code s t ts new ele).2)
    else
      none
  := rfl

theorem stepOf_exit (ele : Bool) :
  stepOf code s t ts (.exit ele) =
    if t.phase = .syscall then
      some ({ dispatched := (continueExit code s t ts ele).1, exited := some t.ps },
        (continueExit code s t ts ele).2)
    else
      none
  := rfl

theorem stepOf_wait :
  stepOf code s t ts .wait =
    if t.phase = .syscall then
      if schedulerNumChildren s t.ps.id = 0 then
        some ({ waitReturned := some (t.ps.id, -1) }, leaveSyscall code s t ts (-1))
      else
        some ({}, { s with runnable := { t with phase := .waiting } :: ts })
    else
      none
  := rfl

theorem stepOf_poll :
  stepOf code s t ts .poll =
    if t.phase = .waiting then
      if schedulerHasAnyChildTerminated s t.ps then
        some ({ waitReturned := some (t.ps.id, 0) }, leaveSyscall code s t ts 0)
      else
        some ({ dispatched := (blockWait code s t ts).1 }, (blockWait code s t ts).2)
    else
      none
  := rfl

end Events

section Current

variable {s s' : System} {t : Thread} {ts : List Thread} {o : Effect}

/-- A call of `scheduler_schedule` after the current process has become `t'`. -/
theorem shape_switch {e : Event} {t' : Thread} (s₁ : System) (same : t.Same t') (event : e ≠ .wait)
    (phase : t.phase.Goes t'.phase) (hrunnable : s₁.runnable = t' :: ts)
    (hzombies : s₁.zombies = s.zombies) :
  Shape code s t ts e { dispatched := (schedulerSchedule code s₁).1 } (schedulerSchedule code s₁).2
  := by
  obtain ⟨hdispatch, hzombies'⟩ := schedulerSchedule_spec code s₁
  rw [hrunnable] at hdispatch
  apply Shape.switch same event phase hdispatch
  rw [hzombies', hzombies]

theorem leaveSyscall_runnable (code : Code) (s : System) (t : Thread) (ts : List Thread) (eax : UInt32) :
  ∃ t', t.Same t' ∧ t'.phase = .user ∧ (leaveSyscall code s t ts eax).runnable = t' :: ts
  := ⟨⟨{ t.ps with userMode := { t.ps.userMode with eax := eax } }, .user⟩, ⟨rfl, rfl, rfl⟩, rfl, rfl⟩

theorem enterSyscall_runnable (code : Code) (s : System) (t : Thread) (ts : List Thread) :
  ∃ t', t.Same t' ∧ t'.phase = .syscall ∧ (enterSyscall code s t ts).runnable = t' :: ts
  := by
  rw [enterSyscall]
  generalize syscallInterrupt code s.esp0 s.cpu = c
  exact ⟨_, ⟨by rfl, by rfl, by rfl⟩, by rfl, rfl⟩

theorem shape_leave {e : Event} (event : e ≠ .wait) (phase : t.phase ≠ .waiting) (eax : UInt32) :
  Shape code s t ts e {} (leaveSyscall code s t ts eax)
  := by
  obtain ⟨t', hsame, hphase, hrunnable⟩ := leaveSyscall_runnable code s t ts eax
  exact .stay hsame event (hphase ▸ Phase.goes_user phase) hrunnable rfl

theorem shape_tick (h : stepOf code s t ts .tick = some (o, s')) (hs : s.runnable = t :: ts) :
  Shape code s t ts .tick o s'
  := by
  simp only [stepOf_tick, schedulerHandlePitInterrupt] at h
  generalize timerInterrupt s.esp0 code.interruptHandler32 code.afterInterruptHandler s.cpu = c at h
  split at h
  case isFalse => simp at h
  split at h
  · obtain ⟨rfl, rfl⟩ := Prod.mk.inj (Option.some.inj h)
    apply shape_switch _ (same_updateRegisters t (cpuStateArg c) (stackStateArg c)) (by simp)
      (Or.inl rfl)
    · rfl
    · rfl
  · obtain ⟨rfl, rfl⟩ := Prod.mk.inj (Option.some.inj h)
    exact .stay .rfl (by simp) (Or.inl rfl) hs rfl

theorem shape_clone {new : Option Ps} (h : stepOf code s t ts (.clone new) = some (o, s')) :
  Shape code s t ts (.clone new) o s'
  := by
  rw [stepOf_clone] at h
  split at h
  case h_1 hphase =>
    obtain ⟨rfl, rfl⟩ := Prod.mk.inj (Option.some.inj h)
    apply shape_leave (by simp) (by simp [hphase])
  case h_2 newPid new hphase =>
    split at h
    case isFalse => simp at h
    case isTrue hclone =>
      obtain ⟨rfl, rfl⟩ := Prod.mk.inj (Option.some.inj h)
      simp only [isClone, Bool.and_eq_true, beq_iff_eq, Bool.not_eq_true', List.contains_eq_mem,
        decide_eq_false_iff_not] at hclone
      obtain ⟨⟨⟨hid, hparentId⟩, -⟩, haddr⟩ := hclone
      exact .clone hphase hid hparentId haddr rfl rfl
  · simp at h

/-- `scheduler_add_runnable_process` in `sys_fork`, and its return. -/
theorem addRunnable_spec {ele : Bool} (h : stepOf code s t ts (.addRunnable ele) = some (o, s')) :
  ∃ child t', t.phase = .adding child ∧ t.Same t' ∧ t'.phase = .user ∧
    s'.runnable = addProcess ele ⟨child, .user⟩ (t' :: ts) ∧ s'.zombies = s.zombies ∧ o = {}
  := by
  rw [stepOf_addRunnable] at h
  split at h
  case h_1 new hphase =>
    obtain ⟨rfl, rfl⟩ := Prod.mk.inj (Option.some.inj h)
    obtain ⟨t', hsame, hphase', hrunnable⟩ := leaveSyscall_runnable code s t ts new.id
    refine ⟨new, t', hphase, hsame, hphase', ?_, rfl, rfl⟩
    rw [← hrunnable]
  case h_2 => simp at h

theorem removeCurrent_runnable (s : System) (t : Thread) (ts : List Thread) :
  (removeCurrent s t ts).runnable = ts
  := by
  rw [removeCurrent, removeProcess_head]

/-- The replacement is put on the list, when it can be. -/
theorem finishExecve_spec (code : Code) (s : System) (new : Ps) (ele : Bool) :
  Dispatch code (addProcess ele ⟨new, .user⟩ s.runnable) (finishExecve code s new ele).1
      (finishExecve code s new ele).2 ∧
    (finishExecve code s new ele).2.zombies = s.zombies
  := schedulerSchedule_spec code { s with runnable := addProcess ele ⟨new, .user⟩ s.runnable }

/-- The process that exits becomes a zombie, when it can. -/
theorem finishExit_spec (code : Code) (s : System) (ps : Ps) (ele : Bool) :
  Dispatch code s.runnable (finishExit code s ps ele).1 (finishExit code s ps ele).2 ∧
    (finishExit code s ps ele).2.zombies = addProcess ele ps s.zombies
  := schedulerSchedule_spec code { s with zombies := addProcess ele ps s.zombies }

/-- The end of `sys_execve`. -/
theorem execve_spec {new : Ps} {ele : Bool}
    (h : stepOf code s t ts (.execve new ele) = some (o, s')) :
  ∃ p, t.phase = .syscall ∧ isReplacement s t.ps new ∧
    Dispatch code (addProcess ele ⟨new, .user⟩ ts) p s' ∧ s'.zombies = s.zombies ∧
    o = { dispatched := p }
  := by
  rw [stepOf_execve] at h
  split at h
  case isFalse => simp at h
  case isTrue hnew =>
    obtain ⟨rfl, rfl⟩ := Prod.mk.inj (Option.some.inj h)
    obtain ⟨hdispatch, hzombies⟩ := finishExecve_spec code (removeCurrent s t ts) new ele
    rw [removeCurrent_runnable] at hdispatch
    exact ⟨_, hnew.1, hnew.2, hdispatch, hzombies, rfl⟩

/-- `sys_exit`. -/
theorem exit_spec {ele : Bool} (h : stepOf code s t ts (.exit ele) = some (o, s')) :
  ∃ p, t.phase = .syscall ∧ Dispatch code ts p s' ∧
    s'.zombies = addProcess ele t.ps s.zombies ∧ o = { dispatched := p, exited := some t.ps }
  := by
  rw [stepOf_exit] at h
  split at h
  case isFalse => simp at h
  case isTrue hphase =>
    obtain ⟨rfl, rfl⟩ := Prod.mk.inj (Option.some.inj h)
    obtain ⟨hdispatch, hzombies⟩ := finishExit_spec code (removeCurrent s t ts) t.ps ele
    rw [removeCurrent_runnable] at hdispatch
    exact ⟨_, hphase, hdispatch, hzombies, rfl⟩

theorem addr_of_isReplacement {old new : Ps} (h : isReplacement s old new) :
  new.id = old.id ∧ new.parentId = old.parentId ∧ new.addr ∉ s.addrs
  := by
  simp only [isReplacement, Bool.and_eq_true, beq_iff_eq, Bool.not_eq_true', List.contains_eq_mem,
    decide_eq_false_iff_not] at h
  obtain ⟨⟨⟨⟨hid, hparentId⟩, -⟩, -⟩, haddr⟩ := h
  exact ⟨hid, hparentId, haddr⟩

theorem shape_addRunnable {ele : Bool}
    (h : stepOf code s t ts (.addRunnable ele) = some (o, s')) :
  Shape code s t ts (.addRunnable ele) o s'
  := by
  obtain ⟨child, t', hphase, hsame, hphase', hrunnable, hzombies, rfl⟩ := addRunnable_spec h
  exact .addRunnable hphase hsame hphase' hrunnable hzombies

theorem shape_execve {new : Ps} {ele : Bool}
    (h : stepOf code s t ts (.execve new ele) = some (o, s')) :
  Shape code s t ts (.execve new ele) o s'
  := by
  obtain ⟨p, hphase, hnew, hdispatch, hzombies, rfl⟩ := execve_spec h
  obtain ⟨hid, hparentId, haddr⟩ := addr_of_isReplacement hnew
  exact .execve hid hparentId haddr hphase hdispatch hzombies

theorem shape_exit {ele : Bool} (h : stepOf code s t ts (.exit ele) = some (o, s')) :
  Shape code s t ts (.exit ele) o s'
  := by
  obtain ⟨p, hphase, hdispatch, hzombies, rfl⟩ := exit_spec h
  exact .exit hphase hdispatch hzombies

theorem shape_wait (h : stepOf code s t ts .wait = some (o, s')) :
  Shape code s t ts .wait o s'
  := by
  rw [stepOf_wait] at h
  split at h
  case isFalse => simp at h
  case isTrue hphase =>
    split at h
    case isTrue hnone =>
      obtain ⟨rfl, rfl⟩ := Prod.mk.inj (Option.some.inj h)
      obtain ⟨t', hsame, hphase', hrunnable⟩ := leaveSyscall_runnable code s t ts (-1)
      exact .waitNone hnone hphase hsame hphase' hrunnable rfl
    case isFalse hsome =>
      obtain ⟨rfl, rfl⟩ := Prod.mk.inj (Option.some.inj h)
      exact .waitSome hsome hphase rfl rfl

theorem shape_poll (h : stepOf code s t ts .poll = some (o, s')) :
  Shape code s t ts .poll o s'
  := by
  rw [stepOf_poll] at h
  split at h
  case isFalse => simp at h
  case isTrue hphase =>
    split at h
    case isTrue hone =>
      obtain ⟨rfl, rfl⟩ := Prod.mk.inj (Option.some.inj h)
      obtain ⟨t', hsame, hphase', hrunnable⟩ := leaveSyscall_runnable code s t ts 0
      exact .waitOne hone hphase hsame hphase' hrunnable rfl
    case isFalse =>
      obtain ⟨rfl, rfl⟩ := Prod.mk.inj (Option.some.inj h)
      have hsame : t.Same _ := .registers (snapshot t.ps.current s.cpu) t.ps.userMode .waiting
      apply shape_switch _ hsame (by simp) (Or.inl hphase.symm)
      · rfl
      · rfl

end Current

/-- Only the current process takes steps. -/
theorem stepOf_of_step {s s' : System} {e : Event} {o : Effect} (h : step code s e = some (o, s')) :
  ∃ t ts, s.runnable = t :: ts ∧ stepOf code s t ts e = some (o, s')
  := by
  rw [step] at h
  split at h
  case h_1 => simp at h
  case h_2 t ts hs => exact ⟨t, ts, hs, h⟩

/-- Every step has one of the shapes. -/
theorem shape_of_step {s s' : System} {e : Event} {o : Effect} (h : step code s e = some (o, s')) :
  ∃ t ts, s.runnable = t :: ts ∧ Shape code s t ts e o s'
  := by
  obtain ⟨t, ts, hs, h⟩ := stepOf_of_step h
  use t, ts, hs
  cases e with
  | compute c =>
      simp only [stepOf] at h
      split at h
      case isFalse => simp at h
      obtain ⟨rfl, rfl⟩ := Prod.mk.inj (Option.some.inj h)
      exact .stay .rfl (by simp) (Or.inl rfl) hs rfl
  | tick => apply shape_tick h hs
  | enter =>
      simp only [stepOf] at h
      split at h
      case isFalse => simp at h
      case isTrue huser =>
        obtain ⟨rfl, rfl⟩ := Prod.mk.inj (Option.some.inj h)
        obtain ⟨t', hsame, hphase, hrunnable⟩ := enterSyscall_runnable code s t ts
        refine .stay hsame (by simp) (Or.inr ?_) hrunnable rfl
        rw [hphase, huser.1]
        exact ⟨trivial, by simp, by simp⟩
  | leave eax =>
      simp only [stepOf] at h
      split at h
      case isFalse => simp at h
      case isTrue hphase =>
        obtain ⟨rfl, rfl⟩ := Prod.mk.inj (Option.some.inj h)
        apply shape_leave (by simp) (by simp [hphase])
  | yield =>
      simp only [stepOf, sysYield] at h
      split at h
      case isFalse => simp at h
      case isTrue hphase =>
        obtain ⟨rfl, rfl⟩ := Prod.mk.inj (Option.some.inj h)
        have hsame : t.Same _ := .registers { t.ps.userMode with eax := 0 }
          { t.ps.userMode with eax := 0 } .user
        apply shape_switch _ hsame (by simp) (Phase.goes_user (by simp [hphase]))
        · rfl
        · rfl
  | nextPid =>
      simp only [stepOf] at h
      split at h
      case isFalse => simp at h
      case isTrue hphase =>
        obtain ⟨rfl, rfl⟩ := Prod.mk.inj (Option.some.inj h)
        exact .nextPid hphase rfl rfl
  | clone new => apply shape_clone h
  | addRunnable ele => apply shape_addRunnable h
  | execve new ele => apply shape_execve h
  | exit ele => apply shape_exit h
  | wait => apply shape_wait h
  | poll => apply shape_poll h

end Scheduler
