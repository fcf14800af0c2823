import Aenix.Scheduler.RoundRobin

/-!
# Waiting for children

`sys_wait` returns -1 to a process without children, and otherwise waits until the zombie list holds a
child of the process.  It leaves the child there, so from then on each of its calls returns 0.  The
calls of a process are accounted for as long as it makes no more of them, while it has children, than
children of it have terminated (`wait_accounts`).
-/

open Process Trace

namespace Scheduler

variable {code : Code}

/-- The number of times `sys_wait` has returned 0 to the process. -/
def zeros (pid : UInt32) (tr : List SystemStep) : ℕ :=
  tr.countP fun x => x.effect.waitReturned = some (pid, 0)

/-- The number of children of the process that have terminated. -/
def terminated (pid : UInt32) (tr : List SystemStep) : ℕ :=
  tr.countP fun x => x.effect.exited.any fun ps => ps.parentId == pid

/-- The number of children of the process in the zombie list. -/
def System.zombieChildren (s : System) (pid : UInt32) : ℕ :=
  s.zombies.countP fun ps => ps.parentId == pid

/-- Every terminated child is accounted for once: 0 is not returned more often than children have
terminated, and when all of them have been reported and none is left, what is returned is -1. -/
structure Accounted (tr : List SystemStep) : Prop where
  zeros_le : ∀ pre, pre <+: tr → ∀ pid, zeros pid pre ≤ terminated pid pre
  returns : ∀ pre x, pre ++ [x] <+: tr → ∀ pid v, x.effect.waitReturned = some (pid, v) →
    (∀ ps ∈ x.before.pss, ps.parentId ≠ pid) → zeros pid pre = terminated pid pre → v = -1

/-- The process calls `sys_wait` while it has children. -/
def isWait (pid : UInt32) (x : SystemStep) : Bool :=
  match x.event with
  | .wait => x.before.pss.head?.any fun ps => ps.id == pid && schedulerNumChildren x.before pid != 0
  | _ => false

/-- The number of these calls. -/
def waits (pid : UInt32) (tr : List SystemStep) : ℕ := tr.countP (isWait pid)

/-- When a call of `sys_wait` finds a child of the current process in the zombie list, the process has
not made more calls than children of it have terminated. -/
def Backed (pre : List SystemStep) (s : System) : Event → Prop
  | .poll => ∀ ps ∈ s.pss.head?, schedulerHasAnyChildTerminated s ps = true →
      waits ps.id pre ≤ terminated ps.id pre
  | _ => True

instance (pre : List SystemStep) (s : System) : (e : Event) → Decidable (Backed pre s e)
  | .poll => inferInstanceAs (Decidable (∀ ps ∈ s.pss.head?, _))
  | .compute _ | .tick | .enter | .leave _ | .yield | .nextPid | .clone _ | .addRunnable _
  | .execve _ _ | .exit _ | .wait => isTrue trivial

/-- The number of processes with the id that are in the loop of `sys_wait`. -/
def waitingIn (pid : UInt32) (ts : List Thread) : ℕ :=
  ts.countP fun t => t.ps.id == pid && t.phase == .waiting

/-! ### Steps -/

section Step

variable {s s' : System} {t : Thread} {ts : List Thread} {e : Event} {o : Effect}

/-- What a step does to the zombie list, and what `sys_wait` returns in it. -/
theorem wait_of_step (h : step code s e = some (o, s')) :
  (o.waitReturned = none ∧ o.exited = none ∧ s'.zombies = s.zombies) ∨
    (∃ ps ∈ s.pss.head?, schedulerNumChildren s ps.id = 0 ∧ o.waitReturned = some (ps.id, -1) ∧
      o.exited = none ∧ s'.zombies = s.zombies) ∨
    (∃ ps ∈ s.pss.head?, e = .poll ∧ schedulerHasAnyChildTerminated s ps = true ∧
      o.waitReturned = some (ps.id, 0) ∧ o.exited = none ∧ s'.zombies = s.zombies) ∨
    ∃ ps ele, o.waitReturned = none ∧ o.exited = some ps ∧ s'.zombies = addProcess ele ps s.zombies
  := by
  obtain ⟨t, ts, hs, hshape⟩ := shape_of_step h
  have hhead : t.ps ∈ s.pss.head? := by simp [System.pss, hs]
  cases hshape with
  | stay _ _ _ _ zombies => exact Or.inl ⟨rfl, rfl, zombies⟩
  | nextPid _ _ zombies => exact Or.inl ⟨rfl, rfl, zombies⟩
  | clone _ _ _ _ _ zombies => exact Or.inl ⟨rfl, rfl, zombies⟩
  | addRunnable _ _ _ _ zombies => exact Or.inl ⟨rfl, rfl, zombies⟩
  | waitNone none _ _ _ _ zombies => exact Or.inr (Or.inl ⟨t.ps, hhead, none, rfl, rfl, zombies⟩)
  | waitSome _ _ _ zombies => exact Or.inl ⟨rfl, rfl, zombies⟩
  | waitOne one _ _ _ _ zombies =>
      exact Or.inr (Or.inr (Or.inl ⟨t.ps, hhead, rfl, one, rfl, rfl, zombies⟩))
  | switch _ _ _ _ zombies => exact Or.inl ⟨rfl, rfl, zombies⟩
  | execve _ _ _ _ _ zombies => exact Or.inl ⟨rfl, rfl, zombies⟩
  | @exit ele _ _ _ _ zombies => exact Or.inr (Or.inr (Or.inr ⟨t.ps, ele, rfl, rfl, zombies⟩))

theorem zombieChildren_pos_iff {ps : Ps} :
  0 < s.zombieChildren ps.id ↔ schedulerHasAnyChildTerminated s ps = true
  := by
  simp [System.zombieChildren, schedulerHasAnyChildTerminated, List.countP_pos_iff]

/-- `sys_wait` returns -1 when the zombie list holds no child of the process, and 0 when it holds
one. -/
theorem waitReturned_of_step (h : step code s e = some (o, s')) {pid v : UInt32}
    (hv : o.waitReturned = some (pid, v)) :
  v = -1 ∧ s.zombieChildren pid = 0 ∨ v = 0 ∧ 0 < s.zombieChildren pid
  := by
  rcases wait_of_step h with ⟨hw, -⟩ | ⟨ps, -, hnone, hw, -⟩ | ⟨ps, -, -, hone, hw, -⟩ | ⟨ps, ele, hw, -⟩
  · simp [hw] at hv
  · obtain ⟨rfl, rfl⟩ := Prod.mk.inj (Option.some.inj (hw.symm.trans hv))
    exact Or.inl ⟨rfl, Nat.eq_zero_of_add_eq_zero_right hnone⟩
  · obtain ⟨rfl, rfl⟩ := Prod.mk.inj (Option.some.inj (hw.symm.trans hv))
    exact Or.inr ⟨rfl, zombieChildren_pos_iff.mpr hone⟩
  · simp [hw] at hv

/-- When the zombie list holds a child, `sys_wait` returns 0. -/
theorem poll_spec (h : step code s .poll = some (o, s')) {ps : Ps} (hps : ps ∈ s.pss.head?)
    (hone : schedulerHasAnyChildTerminated s ps = true) :
  o.waitReturned = some (ps.id, 0) ∧ o.exited = none
  := by
  obtain ⟨t, ts, hs, hstep⟩ := stepOf_of_step h
  rw [System.pss, hs] at hps
  obtain rfl : t.ps = ps := Option.some.inj hps
  rw [stepOf_poll, if_pos hone] at hstep
  split at hstep
  case isFalse => simp at hstep
  obtain ⟨rfl, -⟩ := Prod.mk.inj (Option.some.inj hstep)
  exact ⟨rfl, rfl⟩

/-! ### Calls -/

theorem waitingIn_perm {ts ts' : List Thread} (h : ts.Perm ts') (pid : UInt32) :
  waitingIn pid ts = waitingIn pid ts'
  := h.countP_eq _

/-- The process at the head is in the loop of `sys_wait` after the step if it was before. -/
theorem waitingIn_head {t' : Thread} (same : t.Same t')
    (phase : t'.phase = .waiting ↔ t.phase = .waiting) (pid : UInt32) :
  waitingIn pid (t' :: ts) = waitingIn pid (t :: ts)
  := by
  rw [waitingIn, waitingIn, List.countP_cons, List.countP_cons, same.id]
  simp [phase]

theorem waitingIn_cons_of_ne (h : t.phase ≠ .waiting) (pid : UInt32) :
  waitingIn pid (t :: ts) = waitingIn pid ts
  := by
  simp [waitingIn, h]

theorem waitingIn_cons_of_eq (h : t.phase = .waiting) (pid : UInt32) :
  waitingIn pid (t :: ts) = waitingIn pid ts + if t.ps.id = pid then 1 else 0
  := by
  simp [waitingIn, List.countP_cons, h]

theorem waitingIn_addProcess (ele : Bool) (ps : Ps) (pid : UInt32) :
  waitingIn pid (addProcess ele ⟨ps, .user⟩ ts) = waitingIn pid ts
  := by
  cases ele
  · rfl
  · simp [waitingIn, addProcess]

/-- Of processes with different ids, one at most waits under an id. -/
theorem waitingIn_le_one {s : System} (h : s.ids.Nodup) (pid : UInt32) :
  waitingIn pid s.runnable ≤ 1
  := by
  apply (List.nodup_iff_count_le_one.mp h pid).trans'
  rw [System.ids, List.count, List.countP_map]
  apply List.countP_mono_left
  intro t _ ht
  simpa using (Bool.and_eq_true_iff.mp ht).1

theorem isWait_of_ne (h : e ≠ .wait) (pid : UInt32) :
  isWait pid ⟨s, e, o, s'⟩ = false
  := by
  cases e with
  | wait => exact absurd rfl h
  | compute | tick | enter | leave | yield | nextPid | clone | addRunnable | execve | exit | poll => rfl

theorem isWait_eq (hs : s.runnable = t :: ts) (pid : UInt32) :
  isWait pid ⟨s, .wait, o, s'⟩ = (t.ps.id == pid && schedulerNumChildren s pid != 0)
  := by
  simp [isWait, System.pss, hs]

/-- A call begins the loop of `sys_wait`, and a return of 0 ends it. -/
theorem waitingIn_step (h : step code s e = some (o, s')) (pid : UInt32) :
  waitingIn pid s.runnable + (isWait pid ⟨s, e, o, s'⟩).toNat =
    waitingIn pid s'.runnable + if o.waitReturned = some (pid, 0) then 1 else 0
  := by
  obtain ⟨t, ts, hs, hshape⟩ := shape_of_step h
  rw [hs]
  cases hshape with
  | stay same event phase runnable _ =>
      rw [isWait_of_ne event, runnable, waitingIn_head same phase.waiting_iff]
      simp
  | nextPid phase runnable _ =>
      rw [isWait_of_ne (by simp), runnable, waitingIn_cons_of_ne (by simp [phase]),
        waitingIn_cons_of_ne (by simp)]
      simp
  | clone phase _ _ _ runnable _ =>
      rw [isWait_of_ne (by simp), runnable, waitingIn_cons_of_ne (by simp [phase]),
        waitingIn_cons_of_ne (by simp)]
      simp
  | addRunnable phase same phase' runnable _ =>
      rw [isWait_of_ne (by simp), runnable, waitingIn_addProcess,
        waitingIn_head same (by simp [phase, phase'])]
      simp
  | waitNone none phase same phase' runnable _ =>
      have hreturned : some (t.ps.id, (-1 : UInt32)) ≠ some (pid, 0) := by simp
      have hwait : isWait pid ⟨s, .wait, { waitReturned := some (t.ps.id, -1) }, s'⟩ = false := by
        rw [isWait_eq hs]
        by_cases hid : t.ps.id = pid
        · simp [← hid, none]
        · simp [hid]
      rw [hwait, if_neg hreturned, runnable, waitingIn_head same (by simp [phase, phase'])]
      simp
  | waitSome some phase runnable _ =>
      rw [isWait_eq hs, runnable, waitingIn_cons_of_ne (by simp [phase]), waitingIn_cons_of_eq rfl]
      by_cases hid : t.ps.id = pid
      · simp [← hid, some]
      · simp [hid]
  | waitOne one phase same phase' runnable _ =>
      rw [isWait_of_ne (by simp), runnable, waitingIn_cons_of_eq phase,
        waitingIn_cons_of_ne (by simp [phase'])]
      simp
  | switch same event phase dispatch _ =>
      rw [isWait_of_ne event, waitingIn_perm dispatch.perm, waitingIn_head same phase.waiting_iff]
      simp
  | execve _ _ _ phase dispatch _ =>
      rw [isWait_of_ne (by simp), waitingIn_perm dispatch.perm, waitingIn_addProcess,
        waitingIn_cons_of_ne (by simp [phase])]
      simp
  | exit phase dispatch _ =>
      rw [isWait_of_ne (by simp), waitingIn_perm dispatch.perm, waitingIn_cons_of_ne (by simp [phase])]
      simp

end Step

/-! ### Runs -/

theorem zeros_concat (pid : UInt32) (tr : List SystemStep) (x : SystemStep) :
  zeros pid (tr ++ [x]) = zeros pid tr + if x.effect.waitReturned = some (pid, 0) then 1 else 0
  := by
  simp [zeros, List.countP_append, List.countP_singleton]

theorem waits_concat (pid : UInt32) (tr : List SystemStep) (x : SystemStep) :
  waits pid (tr ++ [x]) = waits pid tr + (isWait pid x).toNat
  := by
  rw [waits, waits, List.countP_append, List.countP_singleton]
  cases isWait pid x
  · rfl
  · rfl

theorem terminated_concat (pid : UInt32) (tr : List SystemStep) (x : SystemStep) :
  terminated pid (tr ++ [x]) =
    terminated pid tr + if x.effect.exited.any (fun ps => ps.parentId == pid) then 1 else 0
  := by
  simp [terminated, List.countP_append, List.countP_singleton]

section Runs

variable {c : IA32.Cpu} {ms : UInt32} {ps : Ps} {tr : List SystemStep} {x : SystemStep} {s : System}

/-- The calls of `sys_wait` are those that have returned 0 and those that have not returned. -/
theorem waits_eq (h : Runs (step code) (boot code c ms ps) tr s) (pid : UInt32) :
  waits pid tr = zeros pid tr + waitingIn pid s.runnable
  := by
  apply h.history (I := fun tr s => waits pid tr = zeros pid tr + waitingIn pid s.runnable)
  · simp [waits, zeros, waitingIn, boot]
  · intro pre x _ hstep hwaits
    have hcount : _ + (isWait pid x).toNat = _ := waitingIn_step hstep pid
    rw [waits_concat, zeros_concat, hwaits]
    omega

/-- A child that has been reported is still in the zombie list. -/
theorem zombieChildren_pos (h : Runs (step code) (boot code c ms ps) tr s) {pid : UInt32}
    (hzeros : 0 < zeros pid tr) :
  0 < s.zombieChildren pid
  := by
  refine h.history (I := fun tr s => 0 < zeros pid tr → 0 < s.zombieChildren pid) ?_ ?_ hzeros
  · simp [zeros]
  · intro pre x _ hstep hzombies hzeros
    rw [zeros_concat] at hzeros
    rcases wait_of_step hstep with ⟨hw, -, hz⟩ | ⟨p, -, -, hw, -, hz⟩ | ⟨p, -, -, hone, hw, -, hz⟩ |
      ⟨p, ele, hw, -, hz⟩
    · rw [hw] at hzeros
      rw [System.zombieChildren, hz]
      apply hzombies (by simpa using hzeros)
    · rw [hw] at hzeros
      rw [System.zombieChildren, hz]
      apply hzombies (by simpa using hzeros)
    · rw [System.zombieChildren, hz]
      by_cases hid : p.id = pid
      · rw [← hid]
        exact zombieChildren_pos_iff.mpr hone
      · rw [hw, if_neg (by simpa using hid)] at hzeros
        apply hzombies (by simpa using hzeros)
    · rw [hw] at hzeros
      have hpos := hzombies (by simpa using hzeros)
      rw [System.zombieChildren, hz]
      apply hpos.trans_le
      apply List.Sublist.countP_le
      cases ele
      · apply List.Sublist.refl
      · apply List.sublist_append_left

/-- A return of 0 comes from a call that has not returned before. -/
theorem zeros_lt_waits (h : Runs (step code) (boot code c ms ps) (tr ++ [x]) s) {pid : UInt32}
    (hx : x.effect.waitReturned = some (pid, 0)) :
  zeros pid tr < waits pid tr ∧ x.event = .poll ∧ x.effect.exited = none ∧
    ∃ ps ∈ x.before.pss.head?, ps.id = pid ∧ schedulerHasAnyChildTerminated x.before ps = true
  := by
  obtain ⟨hruns, hstep, -⟩ := runs_concat_iff.mp h
  rcases wait_of_step hstep with ⟨hw, -⟩ | ⟨p, -, -, hw, -⟩ | ⟨p, hp, he, hone, hw, hexit, -⟩ | ⟨p, ele, hw, -⟩
  · simp [hw] at hx
  · simp [hw] at hx
  · obtain ⟨hid, -⟩ := Prod.mk.inj (Option.some.inj (hw.symm.trans hx))
    refine ⟨?_, he, hexit, p, hp, hid, hone⟩
    have hcount := waitingIn_step hstep pid
    rw [he, isWait_of_ne (by simp), if_pos hx] at hcount
    rw [waits_eq hruns]
    simp only [Bool.toNat_false] at hcount
    omega
  · simp [hw] at hx

/-- When every call is backed by a child, every child is accounted for once. -/
theorem accounted_of_backed (h : Runs (step code) (boot code c ms ps) tr s)
    (hbacked : ∀ pre x, pre ++ [x] <+: tr → Backed pre x.before x.event) :
  Accounted tr
  := by
  have hlt : ∀ pre x pid, pre ++ [x] <+: tr → x.effect.waitReturned = some (pid, 0) →
      zeros pid pre < terminated pid pre := by
    intro pre x pid hpre hx
    obtain ⟨m, hruns⟩ := h.of_isPrefix hpre
    obtain ⟨hwaits, he, -, ps, hps, rfl, hone⟩ := zeros_lt_waits hruns hx
    have hle := hbacked pre x hpre
    rw [he] at hle
    apply hwaits.trans_le (hle ps hps hone)
  constructor
  · intro pre hpre pid
    induction pre using List.reverseRecOn with
    | nil => simp [zeros, terminated]
    | append_singleton pre x ih =>
        have hle := ih ((List.prefix_append pre [x]).trans hpre)
        rw [zeros_concat, terminated_concat]
        split
        case isTrue hx =>
          have hlt := hlt pre x pid hpre hx
          omega
        case isFalse => omega
  · intro pre x hpre pid v hv _ heq
    obtain ⟨m, hruns⟩ := h.of_isPrefix hpre
    obtain ⟨-, hstep, -⟩ := runs_concat_iff.mp hruns
    rcases waitReturned_of_step hstep hv with ⟨rfl, -⟩ | ⟨rfl, -⟩
    · rfl
    · -- all children have been reported, but one would be reported again
      have hlt := hlt pre x pid hpre hv
      omega

/-- When every child is accounted for once, every call is backed by a child. -/
theorem backed_of_accounted (h : Runs (step code) (boot code c ms ps) tr s)
    (hnodup : ∀ x ∈ tr, x.before.ids.Nodup) (haccounted : Accounted tr) (pre : List SystemStep)
    (x : SystemStep) (hpre : pre ++ [x] <+: tr) :
  Backed pre x.before x.event
  := by
  obtain ⟨m, hruns⟩ := h.of_isPrefix hpre
  obtain ⟨hruns, hstep, -⟩ := runs_concat_iff.mp hruns
  obtain ⟨before, e, o, after⟩ := x
  cases e with
  | poll =>
      intro ps hps hone
      obtain ⟨hreturned, hexited⟩ := poll_spec hstep hps hone
      have hzeros := haccounted.zeros_le _ hpre ps.id
      have hwaiting := waitingIn_le_one (hnodup _ (hpre.subset (List.mem_append_right _ List.mem_cons_self))) ps.id
      rw [zeros_concat, terminated_concat, if_pos hreturned, hexited, Option.any_none,
        if_neg (by simp)] at hzeros
      rw [waits_eq hruns]
      omega
  | compute | tick | enter | leave | yield | nextPid | clone | addRunnable | execve | exit | wait => trivial

/-- In a run in which `sys_wait` finds a terminated child only when the process has made at most as many
calls, while it had children, as children of it have terminated, every child is accounted for once; and
this is necessary when the ids of the runnable processes are different.  In every run, `sys_wait`
returns -1 exactly when the zombie list holds no child of the process, and it does so to no process to
which it has returned 0. -/
theorem wait_accounts (c : IA32.Cpu) (ms : UInt32) (ps : Ps)
    (h : Runs (step code) (boot code c ms ps) tr s) :
  ((∀ pre x, pre ++ [x] <+: tr → Backed pre x.before x.event) → Accounted tr) ∧
    ((∀ x ∈ tr, x.before.ids.Nodup) → Accounted tr →
      ∀ pre x, pre ++ [x] <+: tr → Backed pre x.before x.event) ∧
    ∀ pre x, pre ++ [x] <+: tr → ∀ pid v, x.effect.waitReturned = some (pid, v) →
      (v = -1 ↔ x.before.zombieChildren pid = 0) ∧ (0 < zeros pid pre → v = 0)
  := by
  refine ⟨?_, ?_, ?_⟩
  · intro hbacked
    exact accounted_of_backed h hbacked
  · intro hnodup haccounted
    exact backed_of_accounted h hnodup haccounted
  · intro pre x hpre pid v hv
    obtain ⟨m, hruns⟩ := h.of_isPrefix hpre
    obtain ⟨hruns, hstep, -⟩ := runs_concat_iff.mp hruns
    rcases waitReturned_of_step hstep hv with ⟨rfl, hnone⟩ | ⟨rfl, hone⟩
    · refine ⟨by simp [hnone], ?_⟩
      intro hzeros
      have hpos := zombieChildren_pos hruns hzeros
      omega
    · exact ⟨by simp [hone.ne'], fun _ => rfl⟩

end Runs

/-- `init` creates a child, which exits. -/
def childExits : List Event := forkEvents ++ yieldEvents ++ [.compute userCpu, .enter, .exit true]

/-- A process that has a terminated child calls `sys_wait`. -/
def waitEvents : List Event := [.compute userCpu, .enter, .wait, .poll]

/-- `init` creates two children and waits.  The first one waits for children of its own, and exits; the
call of `init` returns, and the second child exits before `init` waits again. -/
def twoChildrenExit : List Event :=
  forkEvents ++
    [.compute userCpu, .enter, .nextPid, .clone (some (someChild 0xC0420000 3 0xC0400000 1)),
      .addRunnable true] ++
    waitEvents ++ [.compute userCpu, .enter, .wait, .compute userCpu, .enter, .exit true] ++
    [.poll] ++ yieldEvents ++ [.compute userCpu, .enter, .exit true] ++ waitEvents

theorem forall_isPrefix_concat {α : Type} {l : List α} {P : List α → α → Prop}
    (h : ∀ i, (hi : i < l.length) → P (l.take i) l[i]) {pre : List α} {x : α}
    (hpre : pre ++ [x] <+: l) :
  P pre x
  := by
  obtain ⟨post, rfl⟩ := hpre
  simpa using h pre.length (by simp)

/-- Two children of `init` exit, and `init` waits twice.  The call of a child without children returns
-1. -/
theorem wait_accounts_twice :
  ∃ tr s, Runs (step someCode) someBoot tr s ∧
    (∀ pre x, pre ++ [x] <+: tr → Backed pre x.before x.event) ∧
    tr.filterMap (fun x => x.effect.waitReturned) = [(2, -1), (1, 0), (1, 0)] ∧
    terminated 1 tr = 2 ∧ Accounted tr
  := by
  obtain ⟨tr, s, hruns, hbacked, hreturned, hterminated⟩ := exists_runs
    (P := fun r : List SystemStep × System =>
      (∀ i, (hi : i < r.1.length) → Backed (r.1.take i) r.1[i].before r.1[i].event) ∧
        r.1.filterMap (fun x => x.effect.waitReturned) = [(2, -1), (1, 0), (1, 0)] ∧
        terminated 1 r.1 = 2)
    (step someCode) someBoot twoChildrenExit (by decide +kernel)
  have hbacked' : ∀ pre x, pre ++ [x] <+: tr → Backed pre x.before x.event := by
    intro pre x
    apply forall_isPrefix_concat (P := fun pre x => Backed pre x.before x.event) hbacked
  exact ⟨tr, s, hruns, hbacked', hreturned, hterminated, (wait_accounts _ _ _ hruns).1 hbacked'⟩

/-- The child of `init` exits, and `init` waits twice: both calls return 0, although one child has
terminated. -/
theorem wait_returns_zero_twice :
  ∃ tr s, Runs (step someCode) someBoot tr s ∧ zeros 1 tr = 2 ∧ terminated 1 tr = 1 ∧ ¬ Accounted tr
  := by
  obtain ⟨tr, s, hruns, hzeros, hterminated⟩ := exists_runs
    (P := fun r : List SystemStep × System => zeros 1 r.1 = 2 ∧ terminated 1 r.1 = 1)
    (step someCode) someBoot (childExits ++ waitEvents ++ waitEvents) (by decide +kernel)
  use tr, s, hruns, hzeros, hterminated
  intro h
  have hle := h.zeros_le tr List.prefix_rfl 1
  simp only at hzeros hterminated
  omega

end Scheduler
