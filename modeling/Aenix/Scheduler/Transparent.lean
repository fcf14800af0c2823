import Aenix.Scheduler.Pids

/-!
# Context switches

A process that the timer interrupts is put at the end of the runnable list with its registers saved.
Nobody else writes them: steps of other processes change the process at the head, the current one.
When `scheduler_schedule` comes to the process, it runs with the registers it had
(`context_switch_transparent`).
-/

open IA32 Process Syscall Trace

namespace Scheduler

variable {code : Code} {s s' : System} {t u : Thread} {ts : List Thread} {e : Event} {o : Effect}

/-- All registers but `ss` are the same. -/
def SameRegisters (c c' : Cpu) : Prop :=
  { ofCpu c' with ss := c.ss } = ofCpu c

/-- `scheduler_schedule` runs the process at this address in the step. -/
def DispatchesAddr (x : SystemStep) (addr : UInt32) : Prop :=
  x.effect.dispatched.map (fun ps => ps.addr) = some addr

instance (x : SystemStep) (addr : UInt32) : Decidable (DispatchesAddr x addr) :=
  inferInstanceAs (Decidable (_ = _))

instance (c : Cpu) : Decidable (HasMode c) :=
  inferInstanceAs (Decidable (_ ∨ _))

/-! ### Addresses -/

/-- The addresses of the processes, and of those they are about to add. -/
def addrsOf (ts : List Thread) : List UInt32 := ts.flatMap fun t => t.ps.addr :: t.phase.addrs

theorem addrs_eq (s : System) :
  s.addrs = addrsOf s.runnable ++ s.zombies.map fun ps => ps.addr
  := rfl

theorem addrsOf_cons (t : Thread) (ts : List Thread) :
  addrsOf (t :: ts) = t.ps.addr :: (t.phase.addrs ++ addrsOf ts)
  := by
  simp [addrsOf]

theorem addrsOf_perm {ts ts' : List Thread} (h : ts.Perm ts') :
  (addrsOf ts).Perm (addrsOf ts')
  := h.flatMap_right _

theorem addrs_of_settled {f : Phase} (h : f.Settled) :
  f.addrs = []
  := by
  cases f with
  | cloning newPid => exact h.elim
  | adding new => exact h.elim
  | user => rfl
  | syscall => rfl
  | waiting => rfl

/-- The current process goes on. -/
theorem addrsOf_head {t t' : Thread} (same : t.Same t')
    (phase : t'.phase = t.phase ∨ t'.phase.Settled) (ts : List Thread) :
  (addrsOf (t' :: ts)).Sublist (addrsOf (t :: ts))
  := by
  rw [addrsOf_cons, addrsOf_cons, same.addr]
  apply List.Sublist.cons_cons
  apply List.Sublist.append_right
  rcases phase with h | h
  · rw [h]
  · simp [addrs_of_settled h]

theorem addrs_keep {t' : Thread} (h : s.addrs.Nodup) (hs : s.runnable = t :: ts) (same : t.Same t')
    (phase : t'.phase = t.phase ∨ t'.phase.Settled) (runnable : s'.runnable.Perm (t' :: ts))
    (zombies : s'.zombies = s.zombies) :
  s'.addrs.Nodup
  := by
  apply nodup_of_subperm _ h
  rw [addrs_eq, addrs_eq, hs, zombies]
  apply List.Subperm.append _ (List.Subperm.refl _)
  apply (addrsOf_perm runnable).subperm.trans (addrsOf_head same phase ts).subperm

theorem addrs_clone {newPid : UInt32} {child : Ps} (h : s.addrs.Nodup) (hs : s.runnable = t :: ts)
    (phase : t.phase = .cloning newPid) (addr : child.addr ∉ s.addrs)
    (runnable : s'.runnable = { t with phase := .adding child } :: ts)
    (zombies : s'.zombies = s.zombies) :
  s'.addrs.Nodup
  := by
  have hperm : s'.addrs.Perm (child.addr :: s.addrs) := by
    rw [addrs_eq, addrs_eq, hs, runnable, zombies, addrsOf_cons, addrsOf_cons, phase]
    apply List.Perm.swap
  rw [hperm.nodup_iff, List.nodup_cons]
  exact ⟨addr, h⟩

theorem addrs_addRunnable {ele : Bool} {child : Ps} {t' : Thread} (h : s.addrs.Nodup)
    (hs : s.runnable = t :: ts) (phase : t.phase = .adding child) (same : t.Same t')
    (phase' : t'.phase = .user)
    (runnable : s'.runnable = addProcess ele ⟨child, .user⟩ (t' :: ts))
    (zombies : s'.zombies = s.zombies) :
  s'.addrs.Nodup
  := by
  apply nodup_of_subperm _ h
  rw [addrs_eq, addrs_eq, hs, runnable, zombies]
  apply List.Subperm.append _ (List.Subperm.refl _)
  rw [addrsOf_cons, phase]
  cases ele
  · rw [addProcess, if_neg (by simp), addrsOf_cons, phase', same.addr]
    apply List.Sublist.subperm
    simp [Phase.addrs]
  · rw [addProcess, if_pos rfl]
    apply (addrsOf_perm (List.perm_append_singleton _ _)).subperm.trans
    rw [addrsOf_cons, addrsOf_cons, phase', same.addr]
    apply (List.Perm.swap _ _ _).subperm

theorem addrs_execve {new : Ps} {ele : Bool} {p : Option Ps} (h : s.addrs.Nodup)
    (hs : s.runnable = t :: ts) (addr : new.addr ∉ s.addrs)
    (dispatch : Dispatch code (addProcess ele ⟨new, .user⟩ ts) p s')
    (zombies : s'.zombies = s.zombies) :
  s'.addrs.Nodup
  := by
  have hnodup : (new.addr :: s.addrs).Nodup := List.nodup_cons.mpr ⟨addr, h⟩
  apply nodup_of_subperm _ hnodup
  rw [addrs_eq, addrs_eq, hs, zombies, ← List.cons_append]
  apply List.Subperm.append _ (List.Subperm.refl _)
  apply (addrsOf_perm dispatch.perm).subperm.trans
  have hts : (addrsOf ts).Sublist (addrsOf (t :: ts)) := by
    rw [addrsOf_cons]
    apply List.Sublist.cons
    apply List.sublist_append_right
  cases ele
  · rw [addProcess, if_neg (by simp)]
    apply (hts.cons _).subperm
  · rw [addProcess, if_pos rfl]
    apply (addrsOf_perm (List.perm_append_singleton _ _)).subperm.trans
    rw [addrsOf_cons]
    apply (hts.cons_cons _).subperm

theorem addrs_exit {ele : Bool} {p : Option Ps} (h : s.addrs.Nodup) (hs : s.runnable = t :: ts)
    (dispatch : Dispatch code ts p s') (zombies : s'.zombies = addProcess ele t.ps s.zombies) :
  s'.addrs.Nodup
  := by
  apply nodup_of_subperm _ h
  rw [addrs_eq, addrs_eq, hs, zombies, addrsOf_cons]
  apply ((addrsOf_perm dispatch.perm).append_right _).subperm.trans
  have hts : (addrsOf ts ++ s.zombies.map fun ps => ps.addr).Sublist
      (t.phase.addrs ++ addrsOf ts ++ s.zombies.map fun ps => ps.addr) := by
    apply List.Sublist.append_right
    apply List.sublist_append_right
  cases ele
  · apply (hts.cons _).subperm
  · rw [addProcess, if_pos rfl, List.map_append, ← List.append_assoc]
    apply (List.perm_append_singleton _ _).subperm.trans
    apply (hts.cons_cons _).subperm

/-- The processes stay at different addresses. -/
theorem nodup_addrs_step (h : step code s e = some (o, s')) (hnodup : s.addrs.Nodup) :
  s'.addrs.Nodup
  := by
  obtain ⟨t, ts, hs, hshape⟩ := shape_of_step h
  cases hshape with
  | stay same _ phase runnable zombies =>
      apply addrs_keep hnodup hs same phase.settled (runnable ▸ .refl _) zombies
  | nextPid phase runnable zombies =>
      rw [addrs_eq, hs, addrsOf_cons, phase] at hnodup
      rw [addrs_eq, runnable, zombies, addrsOf_cons]
      apply hnodup
  | clone phase _ _ addr runnable zombies => apply addrs_clone hnodup hs phase addr runnable zombies
  | addRunnable phase same phase' runnable zombies =>
      apply addrs_addRunnable hnodup hs phase same phase' runnable zombies
  | waitNone _ _ same phase runnable zombies =>
      apply addrs_keep hnodup hs same (Or.inr (Phase.settled_user phase)) (runnable ▸ .refl _) zombies
  | waitSome _ _ runnable zombies =>
      have hsame : t.Same { t with phase := .waiting } := .rfl
      apply addrs_keep hnodup hs hsame (Or.inr trivial) (runnable ▸ .refl _) zombies
  | waitOne _ _ same phase runnable zombies =>
      apply addrs_keep hnodup hs same (Or.inr (Phase.settled_user phase)) (runnable ▸ .refl _) zombies
  | switch same _ phase dispatch zombies =>
      apply addrs_keep hnodup hs same phase.settled dispatch.perm zombies
  | execve _ _ addr _ dispatch zombies => apply addrs_execve hnodup hs addr dispatch zombies
  | exit _ dispatch zombies => apply addrs_exit hnodup hs dispatch zombies

theorem nodup_addrs_runs {tr : List SystemStep} (h : Runs (step code) s tr s')
    (hnodup : s.addrs.Nodup) :
  s'.addrs.Nodup
  := by
  apply h.invariant (I := fun s => s.addrs.Nodup) hnodup
  intro x _ hstep
  apply nodup_addrs_step hstep

theorem map_addr_sublist (ts : List Thread) :
  (ts.map fun t => t.ps.addr).Sublist (addrsOf ts)
  := by
  induction ts with
  | nil => apply List.Sublist.refl
  | cons t ts ih =>
      rw [List.map_cons, addrsOf_cons]
      apply List.Sublist.cons_cons
      apply ih.trans (List.sublist_append_right _ _)

/-! ### Sleeping -/

/-- A process that is not the current one is left as it is: it is still runnable, and it is still not
the current one unless it is dispatched. -/
theorem sleeping_step (h : step code s e = some (o, s')) (hu : u ∈ s.runnable.tail) :
  u ∈ s'.runnable ∧ (o.dispatched.map (fun ps => ps.addr) ≠ some u.ps.addr → u ∈ s'.runnable.tail)
  := by
  obtain ⟨t, ts, hs, hshape⟩ := shape_of_step h
  rw [hs, List.tail_cons] at hu
  have stays : ∀ t' : Thread, s'.runnable = t' :: ts → u ∈ s'.runnable ∧ u ∈ s'.runnable.tail := by
    intro t' runnable
    simp [runnable, hu]
  have switches : ∀ (p : Option Ps) (ts' : List Thread), Dispatch code ts' p s' → u ∈ ts' →
      u ∈ s'.runnable ∧
        (p.map (fun ps => ps.addr) ≠ some u.ps.addr → u ∈ s'.runnable.tail) := by
    intro p ts' dispatch hmem
    have hu' : u ∈ s'.runnable := dispatch.perm.mem_iff.mpr hmem
    use hu'
    intro hne
    obtain ⟨v, vs, hvs⟩ := List.exists_cons_of_ne_nil (List.ne_nil_of_mem hu')
    rw [← dispatch.head, System.pss, hvs] at hne
    rw [hvs] at hu' ⊢
    apply (List.mem_cons.mp hu').resolve_left
    rintro rfl
    exact hne rfl
  cases hshape with
  | stay _ _ _ runnable _ => exact ⟨(stays _ runnable).1, fun _ => (stays _ runnable).2⟩
  | nextPid _ runnable _ => exact ⟨(stays _ runnable).1, fun _ => (stays _ runnable).2⟩
  | clone _ _ _ _ runnable _ => exact ⟨(stays _ runnable).1, fun _ => (stays _ runnable).2⟩
  | addRunnable _ _ _ runnable _ =>
      rw [runnable, addProcess]
      split
      · simp [hu]
      · simp [hu]
  | waitNone _ _ _ _ runnable _ => exact ⟨(stays _ runnable).1, fun _ => (stays _ runnable).2⟩
  | waitSome _ _ runnable _ => exact ⟨(stays _ runnable).1, fun _ => (stays _ runnable).2⟩
  | waitOne _ _ _ _ runnable _ => exact ⟨(stays _ runnable).1, fun _ => (stays _ runnable).2⟩
  | switch _ _ _ dispatch _ => apply switches _ _ dispatch (List.mem_cons_of_mem _ hu)
  | execve _ _ _ _ dispatch _ =>
      apply switches _ _ dispatch
      rw [addProcess]
      split
      · simp [hu]
      · apply hu
  | exit _ dispatch _ => apply switches _ _ dispatch hu

/-- Two runnable processes at the same address are the same one. -/
theorem eq_of_addr {v : Thread} (hnodup : s.addrs.Nodup) (hu : u ∈ s.runnable)
    (hv : v ∈ s.runnable) (haddr : v.ps.addr = u.ps.addr) :
  v = u
  := by
  rw [addrs_eq] at hnodup
  apply List.inj_on_of_nodup_map ((map_addr_sublist _).nodup hnodup.of_append_left) hv hu haddr

/-- A process that is dispatched runs with its saved registers. -/
theorem cpu_of_dispatches (h : step code s e = some (o, s')) (hnodup : s.addrs.Nodup)
    (hu : u ∈ s'.runnable) (ho : o.dispatched.map (fun ps => ps.addr) = some u.ps.addr) :
  ∃ c, s'.cpu = runProcess code.afterRunProcess u.ps c
  := by
  have runs : ∀ (p : Option Ps) (ts : List Thread), Dispatch code ts p s' →
      p.map (fun ps => ps.addr) = some u.ps.addr →
        ∃ c, s'.cpu = runProcess code.afterRunProcess u.ps c := by
    intro p ts dispatch haddr
    obtain ⟨ps, hps, haddr⟩ := Option.map_eq_some_iff.mp haddr
    obtain ⟨v, hv, rfl⟩ := List.mem_map.mp (List.mem_of_mem_head? (dispatch.head.trans hps))
    rw [← eq_of_addr (nodup_addrs_step h hnodup) hu hv haddr]
    apply dispatch.cpu _ hps
  obtain ⟨t, ts, hs, hshape⟩ := shape_of_step h
  cases hshape with
  | switch _ _ _ dispatch _ => apply runs _ _ dispatch ho
  | execve _ _ _ _ dispatch _ => apply runs _ _ dispatch ho
  | exit _ dispatch _ => apply runs _ _ dispatch ho
  | stay | nextPid | clone | addRunnable | waitNone | waitSome | waitOne => simp at ho

/-! ### Interrupted processes -/

/-- The process `ps` after the timer has interrupted it and its registers have been saved. -/
def saved (code : Code) (s : System) (ps : Ps) : Ps :=
  let c := timerInterrupt s.esp0 code.interruptHandler32 code.afterInterruptHandler s.cpu
  updateRegisters ps (cpuStateArg c) (stackStateArg c)

theorem saved_addr (ps : Ps) :
  (saved code s ps).addr = ps.addr
  := by
  rw [saved]
  generalize timerInterrupt s.esp0 code.interruptHandler32 code.afterInterruptHandler s.cpu = c
  apply (same_updateRegisters ⟨ps, .user⟩ (cpuStateArg c) (stackStateArg c)).addr

theorem saved_user (hcs : s.cpu.cs = userCs) (ps : Ps) :
  saved code s ps = { ps with userMode := ofCpu s.cpu, current := ofCpu s.cpu }
  := by
  rw [saved]
  apply updateRegisters_user _ _ _ ps hcs

theorem saved_kernel (hcs : s.cpu.cs = segselKernelCs) (ps : Ps) :
  saved code s ps = { ps with current := { ofCpu s.cpu with ss := segselKernelDs } }
  := by
  rw [saved]
  apply updateRegisters_kernel _ _ _ ps hcs

/-- A process that is run with the saved registers has the registers it had at the interrupt. -/
theorem sameRegisters_runProcess (hmode : HasMode s.cpu) (ps : Ps) (next : UInt32) (c : Cpu) :
  SameRegisters s.cpu (runProcess next (saved code s ps) c)
  := by
  rcases hmode with hcs | hcs
  · rw [SameRegisters, saved_user hcs, runProcess_user next c hcs]
    rfl
  · rw [SameRegisters, saved_kernel hcs, runProcess_kernel next c hcs]
    rfl

/-- The tick that ends a time slice moves the current process to the end of the list, with its
registers saved. -/
theorem preempt_spec (hs : s.runnable = t :: ts)
    (hslice : s.ms + schedulerPitInterval ≥ schedulerTimeSlice)
    (h : step code s .tick = some (o, s')) :
  s'.runnable = ts ++ [{ t with ps := saved code s t.ps }] ∧ s'.zombies = s.zombies ∧
    o.dispatched = s'.pss.head?
  := by
  have heq : schedulerHandlePitInterrupt code s t ts = schedulerSchedule code { s with
      cpu := timerInterrupt s.esp0 code.interruptHandler32 code.afterInterruptHandler s.cpu
      ms := 0
      runnable := { t with ps := saved code s t.ps } :: ts } := by
    rw [schedulerHandlePitInterrupt, if_pos hslice, saved]
  obtain ⟨hdispatch, hzombies⟩ := schedulerSchedule_spec code { s with
    cpu := timerInterrupt s.esp0 code.interruptHandler32 code.afterInterruptHandler s.cpu
    ms := 0
    runnable := { t with ps := saved code s t.ps } :: ts }
  simp only [step, hs, stepOf_tick, heq] at h
  split at h
  case isFalse => simp at h
  obtain ⟨rfl, rfl⟩ := Prod.mk.inj (Option.some.inj h)
  exact ⟨hdispatch.rotated, hzombies, hdispatch.head.symm⟩

/-- A process that the timer interrupts, in user mode or in kernel mode, is put at the end of the list
with the other processes unchanged, and with its user mode registers unchanged when it was in kernel
mode; and the next time it is dispatched, it runs with the registers it had at the interrupt. -/
theorem context_switch_transparent (c : Cpu) (ms : UInt32) (ps : Ps) {tr₀ : List SystemStep}
    (h₀ : Runs (step code) (boot code c ms ps) tr₀ s) (hs : s.runnable = t :: ts)
    (hmode : HasMode s.cpu) (hslice : s.ms + schedulerPitInterval ≥ schedulerTimeSlice)
    (htick : step code s .tick = some (o, s')) :
  (∃ ps', s'.runnable = ts ++ [⟨ps', t.phase⟩] ∧ s'.zombies = s.zombies ∧
      (s.cpu.cs = segselKernelCs → ps'.userMode = t.ps.userMode)) ∧
    ∀ tr x s₂, Runs (step code) s (tr ++ [x]) s₂ → (tr ++ [x]).head? = some ⟨s, .tick, o, s'⟩ →
      (∀ z ∈ tr, ¬ DispatchesAddr z t.ps.addr) → DispatchesAddr x t.ps.addr →
      SameRegisters s.cpu s₂.cpu
  := by
  obtain ⟨hrunnable, hzombies, hdispatched⟩ := preempt_spec hs hslice htick
  have hnodup : s.addrs.Nodup := nodup_addrs_runs h₀ (List.nodup_singleton ps.addr)
  constructor
  · use saved code s t.ps, hrunnable, hzombies
    intro hcs
    rw [saved_kernel hcs]
  · intro tr x s₂ hruns hhead hother hx
    obtain ⟨p, hp⟩ : ∃ p, p = saved code s t.ps := ⟨_, rfl⟩
    -- `u` is the interrupted process
    obtain ⟨u, hups, hu⟩ : ∃ u : Thread, u.ps = p ∧ u ∈ s'.runnable :=
      ⟨⟨p, t.phase⟩, rfl, by simp [hrunnable, hp]⟩
    have haddr : u.ps.addr = t.ps.addr := by rw [hups, hp, saved_addr]
    rw [← haddr] at hother hx
    have hresumes : ∀ c', SameRegisters s.cpu (runProcess code.afterRunProcess u.ps c') := by
      intro c'
      rw [hups, hp]
      apply sameRegisters_runProcess hmode
    cases tr with
    | nil =>
        -- the process is alone and dispatched at once
        obtain rfl : x = ⟨s, .tick, o, s'⟩ := by simpa using hhead
        obtain ⟨-, -, rfl⟩ := hruns.of_singleton
        obtain ⟨c', hc'⟩ := cpu_of_dispatches htick hnodup hu hx
        rw [hc']
        apply hresumes
    | cons y tr =>
        obtain rfl : y = ⟨s, .tick, o, s'⟩ := by simpa using hhead
        obtain ⟨m, hpre, hlast⟩ := hruns.split
        obtain ⟨m', hfirst, hmid⟩ := (show Runs (step code) s ([_] ++ tr) m from hpre).split
        obtain ⟨-, -, rfl⟩ := hfirst.of_singleton
        obtain ⟨rfl, hstep, rfl⟩ := hlast.of_singleton
        have hasleep : u ∈ s'.runnable.tail := by
          obtain ⟨v, vs, hvs⟩ := List.exists_cons_of_ne_nil (List.ne_nil_of_mem hu)
          rw [System.pss, hvs] at hdispatched
          rw [hvs] at hu ⊢
          apply (List.mem_cons.mp hu).resolve_left
          rintro huv
          apply hother _ List.mem_cons_self
          rw [DispatchesAddr, hdispatched, huv]
          rfl
        have hasleep' : u ∈ x.before.runnable.tail := by
          apply hmid.invariant (I := fun s => u ∈ s.runnable.tail) hasleep
          intro z hz hzstep hzsleep
          apply (sleeping_step hzstep hzsleep).2 (hother z (by simp [hz]))
        have hnodup' : x.before.addrs.Nodup :=
          nodup_addrs_runs hmid (nodup_addrs_step htick hnodup)
        obtain ⟨c', hc'⟩ := cpu_of_dispatches hstep hnodup' (sleeping_step hstep hasleep').1 hx
        rw [hc']
        apply hresumes

/-- `init` has created a child and runs until four ticks of the timer have passed. -/
def almostSlice : List Event := forkEvents ++ [.compute userCpu] ++ List.replicate 4 .tick

/-- The fifth tick, after which the child runs and yields. -/
def sliceAndYield : List Event := .tick :: yieldEvents

/-- `init` is interrupted at the end of its time slice; when the child has yielded, it runs with the
registers it had. -/
theorem init_resumes :
  ∃ tr₀ s tr x s₂, Runs (step someCode) someBoot tr₀ s ∧ HasMode s.cpu ∧
    Runs (step someCode) s (tr ++ [x]) s₂ ∧ DispatchesAddr x 0xC0400000 ∧ SameRegisters s.cpu s₂.cpu
  := by
  obtain ⟨tr₀, s, hruns, hmode, hslice, hhead, hnext⟩ := exists_runs
    (P := fun r : List SystemStep × System => HasMode r.2.cpu ∧
      r.2.ms + schedulerPitInterval ≥ schedulerTimeSlice ∧
      r.2.runnable.head?.map (fun t => t.ps.addr) = some 0xC0400000 ∧
      (execute (step someCode) r.2 sliceAndYield).any (fun q => decide (∃ hlen : q.1.length = 4,
        DispatchesAddr q.1[3] 0xC0400000 ∧ ∀ z ∈ q.1.take 3, ¬ DispatchesAddr z 0xC0400000)) = true)
    (step someCode) someBoot almostSlice (by decide +kernel)
  obtain ⟨t, ht, haddr⟩ := Option.map_eq_some_iff.mp hhead
  obtain ⟨ts, hs⟩ := List.head?_eq_some_iff.mp ht
  obtain ⟨⟨tr, s₂⟩, hexec, hq⟩ := (Option.any_eq_true _ _).mp hnext
  obtain ⟨hlen, hlast, hother⟩ := of_decide_eq_true hq
  obtain ⟨o, s', tr', htick, -, htr⟩ := execute_cons hexec
  change tr.length = 4 at hlen
  have hsplit : tr.take 3 ++ [tr[3]] = tr := by
    rw [List.take_append_getElem, List.take_of_length_le (by omega)]
  have hruns' : Runs (step someCode) s (tr.take 3 ++ [tr[3]]) s₂ := by
    rw [hsplit]
    apply runs_of_execute hexec
  have htransparent := context_switch_transparent userCpu 0 (somePs 0xC0400000 1 0) hruns hs hmode
    hslice htick
  refine ⟨tr₀, s, tr.take 3, tr[3], s₂, hruns, hmode, hruns', hlast, ?_⟩
  rw [← haddr] at hlast hother
  apply htransparent.2 _ _ _ hruns' _ hother hlast
  rw [hsplit, htr, List.head?_cons]

end Scheduler
