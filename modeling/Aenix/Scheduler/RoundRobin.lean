import Aenix.Scheduler.Steps

/-!
# The order in which processes run

`scheduler_schedule` moves the head of the runnable list to its end, so each process is run once
before another one is run again.  `continue_exit` and `continue_execve` call it when they have already
taken the current process from the head: the process that is then at the head is passed over.  Where
neither happens with another process to pass over, and the ids of the runnable processes are
different, no process is passed over (`no_bypass`).
-/

open Process Trace

namespace Scheduler

variable {code : Code}

/-- A step of the system. -/
abbrev SystemStep := Transition System Event Effect

/-- The ids of the runnable processes. -/
def System.ids (s : System) : List UInt32 := s.runnable.map fun t => t.ps.id

/-- `scheduler_schedule` runs a process with the id `pid` in this step. -/
def Dispatches (x : SystemStep) (pid : UInt32) : Prop :=
  x.effect.dispatched.map (fun ps => ps.id) = some pid

instance (x : SystemStep) (pid : UInt32) : Decidable (Dispatches x pid) :=
  inferInstanceAs (Decidable (_ = _))

/-- Between two consecutive dispatches of one id, every other process that is runnable all the time is
dispatched. -/
def NoBypass (tr : List SystemStep) : Prop :=
  ∀ pre x mid y post p q, tr = pre ++ [x] ++ mid ++ [y] ++ post →
    Dispatches x p → Dispatches y p → (∀ z ∈ mid, ¬ Dispatches z p) → q ≠ p →
    (∀ z ∈ x :: mid, q ∈ z.after.ids) → ∃ z ∈ mid, Dispatches z q

/-- The process that the current process is about to add to the runnable list. -/
def System.newChild (s : System) : Option Ps :=
  match s.runnable with
  | ⟨_, .adding new⟩ :: _ => some new
  | _ => none

/-- No process is passed over when this happens, and no id becomes that of two runnable processes: an
exit leaves at most one process, execve too (with two processes it does so only when it loses one of
them), and a child is added with an id that no runnable process has. -/
def Fair (s : System) : Event → Prop
  | .exit _ => s.runnable.length ≤ 2
  | .execve _ ele => s.runnable.length ≤ 1 ∨ ele = false ∧ s.runnable.length ≤ 2
  | .addRunnable ele => ele = true → ∀ new ∈ s.newChild, new.id ∉ s.ids
  | _ => True

instance (s : System) : (e : Event) → Decidable (Fair s e)
  | .exit _ => inferInstanceAs (Decidable (_ ≤ _))
  | .execve _ _ => inferInstanceAs (Decidable (_ ∨ _))
  | .addRunnable _ => inferInstanceAs (Decidable (_ → ∀ new ∈ s.newChild, _))
  | .compute _ | .tick | .enter | .leave _ | .yield | .nextPid | .clone _ | .wait | .poll =>
    isTrue trivial

/-! ### The ids -/

/-- What a step does to the ids of the runnable processes, and which id it dispatches. -/
inductive IdsStep (t : Thread) : Event → List UInt32 → Option UInt32 → List UInt32 → Prop
  | keep (e : Event) (ids : List UInt32) : IdsStep t e ids none ids
  | add {child : Ps} (phase : t.phase = .adding child) (ids : List UInt32) :
      IdsStep t (.addRunnable true) ids none (ids ++ [child.id])
  | switch (e : Event) (i : UInt32) (is : List UInt32) :
      IdsStep t e (i :: is) (is ++ [i]).head? (is ++ [i])
  | execve (new : Ps) (ele : Bool) (i : UInt32) (is : List UInt32) :
      IdsStep t (.execve new ele) (i :: is) ((addProcess ele i is).rotate 1).head?
        ((addProcess ele i is).rotate 1)
  | exit (ele : Bool) (i : UInt32) (is : List UInt32) :
      IdsStep t (.exit ele) (i :: is) (is.rotate 1).head? (is.rotate 1)

theorem map_rotate (ts : List Thread) :
  (rotate ts).map (fun t => t.ps.id) = (ts.map fun t => t.ps.id).rotate 1
  := by
  cases ts with
  | nil => rfl
  | cons t ts => simp [rotate]

theorem Dispatch.ids {ts : List Thread} {p : Option Ps} {s' : System} (h : Dispatch code ts p s') :
  s'.ids = (ts.map fun t => t.ps.id).rotate 1 ∧ p.map (fun ps => ps.id) = s'.ids.head?
  := by
  constructor
  · rw [System.ids, h.rotated, map_rotate]
  · rw [← h.head, System.pss, System.ids, List.head?_map, List.head?_map, Option.map_map]
    rfl

theorem map_addProcess (ele : Bool) (u : Thread) (ts : List Thread) :
  (addProcess ele u ts).map (fun t => t.ps.id) = addProcess ele u.ps.id (ts.map fun t => t.ps.id)
  := by
  cases ele
  · rfl
  · simp [addProcess]

theorem idsStep_of_shape {s s' : System} {t : Thread} {ts : List Thread} {e : Event} {o : Effect}
    (hs : s.runnable = t :: ts) (h : Shape code s t ts e o s') :
  IdsStep t e s.ids (o.dispatched.map fun ps => ps.id) s'.ids
  := by
  have hids : s.ids = t.ps.id :: ts.map fun t => t.ps.id := by
    rw [System.ids, hs, List.map_cons]
  have hkeep : ∀ t' : Thread, t.Same t' → s'.runnable = t' :: ts → s'.ids = s.ids := by
    intro t' same runnable
    rw [hids, System.ids, runnable, List.map_cons, same.id]
  cases h with
  | stay same _ _ runnable _ =>
      rw [hkeep _ same runnable]
      apply IdsStep.keep
  | nextPid _ runnable _ =>
      rw [hkeep _ .rfl runnable]
      apply IdsStep.keep
  | clone _ _ _ _ runnable _ =>
      rw [hkeep _ .rfl runnable]
      apply IdsStep.keep
  | @addRunnable ele child t' _ phase same _ runnable _ =>
      have hids' : s'.ids = addProcess ele child.id s.ids := by
        rw [System.ids, runnable, map_addProcess, hids, List.map_cons, same.id]
      rw [hids']
      cases ele
      · apply IdsStep.keep
      · apply IdsStep.add phase
  | waitNone _ _ same _ runnable _ =>
      rw [hkeep _ same runnable]
      apply IdsStep.keep
  | waitSome _ _ runnable _ =>
      rw [hkeep _ .rfl runnable]
      apply IdsStep.keep
  | waitOne _ _ same _ runnable _ =>
      rw [hkeep _ same runnable]
      apply IdsStep.keep
  | switch same _ _ dispatch _ =>
      obtain ⟨hrotate, hhead⟩ := dispatch.ids
      rw [hhead, hrotate, hids, List.map_cons, same.id, List.rotate_cons_succ, List.rotate_zero]
      apply IdsStep.switch
  | execve id _ _ _ dispatch _ =>
      obtain ⟨hrotate, hhead⟩ := dispatch.ids
      rw [hhead, hrotate, hids, map_addProcess, id]
      apply IdsStep.execve
  | exit _ dispatch _ =>
      obtain ⟨hrotate, hhead⟩ := dispatch.ids
      rw [hhead, hrotate, hids]
      apply IdsStep.exit

/-- The ids of the runnable processes stay different. -/
theorem nodup_ids_step {s s' : System} {e : Event} {o : Effect}
    (h : step code s e = some (o, s')) (hfair : Fair s e) (hnodup : s.ids.Nodup) :
  s'.ids.Nodup
  := by
  obtain ⟨t, ts, hs, hshape⟩ := shape_of_step h
  have hids := idsStep_of_shape hs hshape
  have hlen : s.ids.length = s.runnable.length := by rw [System.ids, List.length_map]
  generalize hold : s.ids = old, s'.ids = new, o.dispatched.map _ = d at hids hnodup hlen ⊢
  cases hids with
  | keep => apply hnodup
  | @add child phase =>
      have hnew : child.id ∉ old := by
        rw [← hold]
        apply hfair rfl child
        simp only [System.newChild, hs]
        rw [show t = ⟨t.ps, .adding child⟩ by rw [← phase]]
        rfl
      apply hnodup.append (by simp)
      simpa using hnew
  | switch _ i is =>
      rw [List.nodup_append_comm]
      apply hnodup
  | execve new ele i is =>
      rw [List.nodup_rotate]
      rcases hfair with hle | ⟨rfl, -⟩
      · rw [List.length_cons] at hlen
        obtain rfl : is = [] := List.length_eq_zero_iff.mp (by omega)
        cases ele
        · apply List.nodup_nil
        · apply List.nodup_singleton
      · apply hnodup.of_cons
  | exit ele i is =>
      rw [List.nodup_rotate]
      apply hnodup.of_cons

/-! ### Waiting -/

/-- `q` waits behind the head, and `p` is not between the head and `q`. -/
def Waits (p q : UInt32) (ids : List UInt32) : Prop :=
  ∃ i pre post, ids = i :: (pre ++ q :: post) ∧ p ∉ pre

/-- When `p` is at the head and `q` elsewhere, `q` waits. -/
theorem waits_of_head {p q : UInt32} {ids : List UInt32} (hnodup : ids.Nodup)
    (hhead : ids.head? = some p) (hq : q ∈ ids) (hne : q ≠ p) :
  Waits p q ids
  := by
  cases ids with
  | nil => simp at hhead
  | cons i is =>
      obtain rfl : i = p := by simpa using hhead
      obtain ⟨pre, post, rfl⟩ := List.append_of_mem ((List.mem_cons.mp hq).resolve_left hne)
      use i, pre, post, rfl
      intro hp
      apply (List.nodup_cons.mp hnodup).1
      simp [hp]

/-- One step: `q` is dispatched, or goes on waiting while `p` is not dispatched. -/
theorem waits_step {s s' : System} {e : Event} {o : Effect} {p q : UInt32}
    (h : step code s e = some (o, s')) (hfair : Fair s e) (hwaits : Waits p q s.ids) :
  o.dispatched.map (fun ps => ps.id) = some q ∨
    o.dispatched.map (fun ps => ps.id) ≠ some p ∧ Waits p q s'.ids
  := by
  obtain ⟨t, ts, hs, hshape⟩ := shape_of_step h
  have hids := idsStep_of_shape hs hshape
  have hlen : s.ids.length = s.runnable.length := by rw [System.ids, List.length_map]
  generalize s.ids = old, s'.ids = new, o.dispatched.map _ = d at hids hwaits hlen ⊢
  obtain ⟨i, pre, post, rfl, hp⟩ := hwaits
  cases hids with
  | keep => exact Or.inr ⟨by simp, i, pre, post, rfl, hp⟩
  | @add child phase =>
      refine Or.inr ⟨by simp, i, pre, post ++ [child.id], by simp, hp⟩
  | switch =>
      cases pre with
      | nil => simp
      | cons j pre =>
          rw [List.mem_cons, not_or] at hp
          refine Or.inr ⟨by simpa using Ne.symm hp.1, j, pre, post ++ [i], by simp, hp.2⟩
  | execve new ele =>
      simp only [List.length_cons, List.length_append] at hlen
      obtain ⟨rfl, hle⟩ : ele = false ∧ s.runnable.length ≤ 2 := hfair.resolve_left (by omega)
      have hpre : pre = [] := List.length_eq_zero_iff.mp (by omega)
      have hpost : post = [] := List.length_eq_zero_iff.mp (by omega)
      simp [hpre, hpost, addProcess]
  | exit ele =>
      simp only [List.length_cons, List.length_append] at hlen
      have hle : s.runnable.length ≤ 2 := hfair
      have hpre : pre = [] := List.length_eq_zero_iff.mp (by omega)
      have hpost : post = [] := List.length_eq_zero_iff.mp (by omega)
      simp [hpre, hpost]

/-! ### Runs -/

theorem IdsStep.head {t : Thread} {e : Event} {ids ids' : List UInt32} {p : UInt32}
    (h : IdsStep t e ids (some p) ids') :
  ids'.head? = some p
  := by
  generalize hd : some p = d at h
  cases h with
  | keep => simp at hd
  | add => simp at hd
  | switch => rfl
  | execve => rfl
  | exit => rfl

/-- The process that is dispatched is at the head. -/
theorem head_of_dispatches {s s' : System} {e : Event} {o : Effect} {p : UInt32}
    (h : step code s e = some (o, s')) (hp : o.dispatched.map (fun ps => ps.id) = some p) :
  s'.ids.head? = some p
  := by
  obtain ⟨t, ts, hs, hshape⟩ := shape_of_step h
  have hids := idsStep_of_shape hs hshape
  rw [hp] at hids
  apply hids.head

/-- In a run without such steps, no process is passed over. -/
theorem no_bypass (c : IA32.Cpu) (ms : UInt32) (ps : Ps) {tr : List SystemStep} {s : System}
    (h : Runs (step code) (boot code c ms ps) tr s) (hfair : ∀ x ∈ tr, Fair x.before x.event) :
  NoBypass tr
  := by
  rintro pre x mid y post p q rfl hx hy hmid hne hq
  by_contra hnone
  have hskip : ∀ z ∈ mid, ¬ Dispatches z q := fun z hz hd => hnone ⟨z, hz, hd⟩
  obtain ⟨_, h, -⟩ := h.split
  obtain ⟨_, h, hyrun⟩ := h.split
  obtain ⟨_, h, hmidrun⟩ := h.split
  obtain ⟨_, hpre, hxrun⟩ := h.split
  obtain ⟨rfl, hxstep, rfl⟩ := hxrun.of_singleton
  obtain ⟨rfl, hystep, -⟩ := hyrun.of_singleton
  -- at the first dispatch of `p`, the other process begins to wait
  have hnodup : x.before.ids.Nodup := by
    apply hpre.invariant (I := fun s => s.ids.Nodup) (List.nodup_singleton ps.id)
    intro z hz hstep
    apply nodup_ids_step hstep (hfair z (by simp [hz]))
  have hnodup' := nodup_ids_step hxstep (hfair x (by simp)) hnodup
  have hwaits : Waits p q x.after.ids :=
    waits_of_head hnodup' (head_of_dispatches hxstep hx) (hq x (by simp)) hne
  -- and it still waits at the second one
  have hwaits' : Waits p q y.before.ids := by
    apply hmidrun.invariant (I := fun s => Waits p q s.ids) hwaits
    intro z hz hstep hz'
    exact ((waits_step hstep (hfair z (by simp [hz])) hz').resolve_left (hskip z hz)).2
  rcases waits_step hystep (hfair y (by simp)) hwaits' with hd | ⟨hd, -⟩
  · exact hne (Option.some.inj (hd.symm.trans hy))
  · exact hd hy

/-- `init` creates a child, and both yield: the processes 2, 1 and 2 are dispatched. -/
theorem no_bypass_yield :
  ∃ tr s, Runs (step someCode) someBoot tr s ∧ (∀ x ∈ tr, Fair x.before x.event) ∧
    tr.filterMap (fun x => x.effect.dispatched.map fun ps => ps.id) = [2, 1, 2] ∧ NoBypass tr
  := by
  obtain ⟨tr, s, hruns, hfair, hids⟩ := exists_runs
    (P := fun r : List SystemStep × System => (∀ x ∈ r.1, Fair x.before x.event) ∧
      r.1.filterMap (fun x => x.effect.dispatched.map fun ps => ps.id) = [2, 1, 2])
    (step someCode) someBoot
    (forkEvents ++ yieldEvents ++ yieldEvents ++ yieldEvents) (by decide +kernel)
  exact ⟨tr, s, hruns, hfair, hids, no_bypass _ _ _ hruns hfair⟩

theorem eq_split {α : Type} (l : List α) {i j : ℕ} (hij : i < j) (hj : j < l.length) :
  l = l.take i ++ [l[i]] ++ (l.drop (i + 1)).take (j - (i + 1)) ++ [l[j]] ++ l.drop (j + 1)
  := by
  have hdrop : l.drop (i + 1) = (l.drop (i + 1)).take (j - (i + 1)) ++ l.drop j := by
    nth_rewrite 1 [← List.take_append_drop (j - (i + 1)) (l.drop (i + 1))]
    rw [List.drop_drop, show i + 1 + (j - (i + 1)) = j by omega]
  rw [List.append_assoc _ [l[j]], List.singleton_append, List.getElem_cons_drop, List.append_assoc,
    ← hdrop, List.append_assoc, List.singleton_append, List.getElem_cons_drop, List.take_append_drop]

/-- `init` creates a child and yields to it; the child, process 2, calls execve and is dispatched
again, although `init`, process 1, is runnable all the time. -/
theorem execve_bypasses_init :
  ∃ tr s, Runs (step someCode) someBoot tr s ∧ ¬ NoBypass tr
  := by
  obtain ⟨tr, s, hruns, hlen, hx, hy, hq, hmid⟩ := exists_runs
    (P := fun r : List SystemStep × System => ∃ hlen : 10 < r.1.length, Dispatches r.1[7] 2 ∧
      Dispatches r.1[10] 2 ∧ 1 ∈ r.1[7].after.ids ∧
      ∀ z ∈ (r.1.drop 8).take 2, ¬ Dispatches z 2 ∧ ¬ Dispatches z 1 ∧ 1 ∈ z.after.ids)
    (step someCode) someBoot
    (forkEvents ++ yieldEvents ++
      [.compute userCpu, .enter, .execve (somePs 0xC0420000 2 1) true]) (by decide +kernel)
  change 10 < tr.length at hlen
  use tr, s, hruns
  intro hno
  have hstays : ∀ z ∈ tr[7] :: (tr.drop 8).take 2, 1 ∈ z.after.ids := by
    intro z hz
    rcases List.mem_cons.mp hz with rfl | hz
    · apply hq
    · apply (hmid z hz).2.2
  obtain ⟨z, hz, hd⟩ := hno _ _ _ _ _ 2 1 (eq_split tr (i := 7) (j := 10) (by decide) hlen) hx hy
    (fun z hz => (hmid z hz).1) (by decide) hstays
  exact (hmid z hz).2.1 hd

end Scheduler
