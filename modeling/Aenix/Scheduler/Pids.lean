import Aenix.Scheduler.RoundRobin

/-!
# Process ids

`sys_fork` takes the id of the child from the processes that are in the lists, and adds the child to
them later.  A process that forks in between takes the same id.  When no process takes an id while
another fork is under way, the processes of both lists have different ids (`pids_distinct`), as long as
the ids do not overflow.
-/

open Process Trace

namespace Scheduler

variable {code : Code} {s s' : System} {n : ℕ}

/-- The ids of the processes of both lists. -/
def System.allIds (s : System) : List UInt32 := s.ids ++ s.zombies.map fun ps => ps.id

/-- The process is in the middle of `sys_fork`. -/
def Phase.inFork : Phase → Bool
  | .cloning _ => true
  | .adding _ => true
  | _ => false

/-- The forks under way. -/
def forksOf (ts : List Thread) : List Phase := (ts.map Thread.phase).filter Phase.inFork

/-- The number of processes created, `init` among them. -/
def created (tr : List SystemStep) : ℕ := 1 + tr.countP fun x => x.effect.created.isSome

/-- An id is not taken while another fork is under way. -/
def NoOverlap (s : System) : Event → Prop
  | .nextPid => forksOf s.runnable = []
  | _ => True

instance (s : System) : (e : Event) → Decidable (NoOverlap s e)
  | .nextPid => inferInstanceAs (Decidable (_ = _))
  | .compute _ | .tick | .enter | .leave _ | .yield | .clone _ | .addRunnable _ | .execve _ _
  | .exit _ | .wait | .poll => isTrue trivial

/-! ### The next id -/

theorem maxIdInPsList_concat (pss : List Ps) (ps : Ps) :
  maxIdInPsList (pss ++ [ps]) = if ps.id ≥ maxIdInPsList pss then ps.id else maxIdInPsList pss
  := by
  rw [maxIdInPsList, List.foldl_concat]
  rfl

theorem le_maxIdInPsList {pss : List Ps} {ps : Ps} (h : ps ∈ pss) :
  ps.id ≤ maxIdInPsList pss
  := by
  induction pss using List.reverseRecOn with
  | nil => simp at h
  | append_singleton pss q ih =>
      rw [maxIdInPsList_concat]
      rcases List.mem_append.mp h with h | h
      · split
        case isTrue hge => apply UInt32.le_trans (ih h) hge
        case isFalse => apply ih h
      · rw [List.mem_singleton.mp h]
        split
        case isTrue => apply UInt32.le_refl
        case isFalse hlt => apply UInt32.le_of_lt (UInt32.not_le.mp hlt)

/-- The largest id is bounded by what bounds all of them. -/
theorem toNat_maxIdInPsList_le {pss : List Ps} (h : ∀ ps ∈ pss, ps.id.toNat ≤ n) :
  (maxIdInPsList pss).toNat ≤ n
  := by
  induction pss using List.reverseRecOn with
  | nil => simp [maxIdInPsList]
  | append_singleton pss q ih =>
      rw [maxIdInPsList_concat]
      split
      · apply h q (by simp)
      · apply ih
        intro ps hps
        apply h ps (by simp [hps])

theorem toNat_max (a b : UInt32) :
  (max a b).toNat = max a.toNat b.toNat
  := by
  change (if a ≤ b then b else a).toNat = _
  split
  case isTrue h => rw [max_eq_right (UInt32.le_iff_toNat_le.mp h)]
  case isFalse h => rw [max_eq_left (UInt32.le_iff_toNat_le.mp (UInt32.le_of_lt (UInt32.not_le.mp h)))]

theorem mem_pss {ps : Ps} (h : ps ∈ s.pss) :
  ps.id ∈ s.allIds
  := by
  obtain ⟨t, ht, rfl⟩ := List.mem_map.mp h
  apply List.mem_append_left
  exact List.mem_map.mpr ⟨t, ht, rfl⟩

theorem mem_zombies {ps : Ps} (h : ps ∈ s.zombies) :
  ps.id ∈ s.allIds
  := by
  apply List.mem_append_right
  exact List.mem_map.mpr ⟨ps, h, rfl⟩

/-- The next id is that of no process, unless the ids overflow. -/
theorem schedulerNextPid_spec (h : ∀ i ∈ s.allIds, i.toNat ≤ n) (hn : n < 2 ^ 32 - 1) :
  schedulerNextPid s ∉ s.allIds ∧ (schedulerNextPid s).toNat ≤ n + 1
  := by
  have hrun : (maxIdInPsList s.pss).toNat ≤ n :=
    toNat_maxIdInPsList_le fun ps hps => h ps.id (mem_pss hps)
  have hzom : (maxIdInPsList s.zombies).toNat ≤ n :=
    toNat_maxIdInPsList_le fun ps hps => h ps.id (mem_zombies hps)
  have hnext : (schedulerNextPid s).toNat =
      max (maxIdInPsList s.pss).toNat (maxIdInPsList s.zombies).toNat + 1 := by
    rw [schedulerNextPid, UInt32.toNat_add, toNat_max, UInt32.toNat_one]
    apply Nat.mod_eq_of_lt
    omega
  constructor
  · intro hmem
    rcases List.mem_append.mp hmem with hmem | hmem
    · obtain ⟨t, ht, heq⟩ := List.mem_map.mp hmem
      have hle := UInt32.le_iff_toNat_le.mp (le_maxIdInPsList (List.mem_map_of_mem (f := Thread.ps) ht))
      rw [heq, hnext] at hle
      exact absurd hle (by simp only [System.pss]; omega)
    · obtain ⟨ps, hps, heq⟩ := List.mem_map.mp hmem
      have hle := UInt32.le_iff_toNat_le.mp (le_maxIdInPsList hps)
      rw [heq, hnext] at hle
      omega
  · omega

/-! ### The invariant -/

/-- A fork under way holds an id that no process has. -/
def Phase.Fresh (n : ℕ) (ids : List UInt32) : Phase → Prop
  | .cloning newPid => newPid ∉ ids ∧ newPid.toNat ≤ n + 1
  | .adding new => new.id ∉ ids ∧ new.id.toNat ≤ n
  | _ => True

/-- The ids of all processes are different and at most `n`, and at most one fork is under way. -/
structure Distinct (n : ℕ) (s : System) : Prop where
  nodup : s.allIds.Nodup
  le : ∀ i ∈ s.allIds, i.toNat ≤ n
  one : (forksOf s.runnable).length ≤ 1
  fresh : ∀ f ∈ forksOf s.runnable, f.Fresh n s.allIds

theorem Phase.Fresh.mono {f : Phase} {ids ids' : List UInt32} (h : f.Fresh n ids) (hids : ids' ⊆ ids) :
  f.Fresh n ids'
  := by
  cases f with
  | cloning newPid => exact ⟨fun hmem => h.1 (hids hmem), h.2⟩
  | adding new => exact ⟨fun hmem => h.1 (hids hmem), h.2⟩
  | user => trivial
  | syscall => trivial
  | waiting => trivial

theorem nodup_of_subperm {l l' : List UInt32} (h : l.Subperm l') (hnodup : l'.Nodup) :
  l.Nodup
  := by
  obtain ⟨m, hperm, hsub⟩ := h
  apply hperm.nodup_iff.mp (hsub.nodup hnodup)

/-- Processes may change places or go, and forks may end. -/
theorem Distinct.shrink (h : Distinct n s) (hids : s'.allIds.Subperm s.allIds)
    (hforks : (forksOf s'.runnable).Subperm (forksOf s.runnable)) :
  Distinct n s'
  where
  nodup := nodup_of_subperm hids h.nodup
  le i hi := h.le i (hids.subset hi)
  one := hforks.length_le.trans h.one
  fresh f hf := (h.fresh f (hforks.subset hf)).mono hids.subset

/-! ### Steps -/

theorem forksOf_perm {ts ts' : List Thread} (h : ts.Perm ts') :
  (forksOf ts).Perm (forksOf ts')
  := (h.map Thread.phase).filter _

theorem inFork_eq_false {f : Phase} (h : f.Settled) :
  f.inFork = false
  := by
  cases f with
  | cloning newPid => exact h.elim
  | adding new => exact h.elim
  | user => rfl
  | syscall => rfl
  | waiting => rfl

theorem forksOf_cons_of_settled {t : Thread} (h : t.phase.Settled) (ts : List Thread) :
  forksOf (t :: ts) = forksOf ts
  := by
  simp [forksOf, inFork_eq_false h]

theorem forksOf_cons_of_inFork {t : Thread} (h : t.phase.inFork) (ts : List Thread) :
  forksOf (t :: ts) = t.phase :: forksOf ts
  := by
  simp [forksOf, h]

theorem forksOf_subperm_cons (t : Thread) (ts : List Thread) :
  (forksOf ts).Subperm (forksOf (t :: ts))
  := by
  apply List.Sublist.subperm
  apply List.Sublist.filter
  simp

/-- The current process goes on, in the same phase or outside of `sys_fork`. -/
theorem forksOf_head {t t' : Thread} (h : t'.phase = t.phase ∨ t'.phase.Settled) (ts : List Thread) :
  (forksOf (t' :: ts)).Subperm (forksOf (t :: ts))
  := by
  rcases h with h | h
  · rw [forksOf, forksOf, List.map_cons, List.map_cons, h]
  · rw [forksOf_cons_of_settled h]
    apply forksOf_subperm_cons

section Step

variable {t : Thread} {ts : List Thread} {e : Event} {o : Effect}

theorem allIds_eq (hs : s.runnable = t :: ts) :
  s.allIds = t.ps.id :: (ts.map (fun t => t.ps.id) ++ s.zombies.map fun ps => ps.id)
  := by
  rw [System.allIds, System.ids, hs, List.map_cons, List.cons_append]

/-- The current process goes on. -/
theorem Distinct.keep {t' : Thread} (h : Distinct n s) (hs : s.runnable = t :: ts) (same : t.Same t')
    (phase : t'.phase = t.phase ∨ t'.phase.Settled) (runnable : s'.runnable.Perm (t' :: ts))
    (zombies : s'.zombies = s.zombies) :
  Distinct n s'
  := by
  apply h.shrink
  · apply List.Perm.subperm
    rw [allIds_eq hs, System.allIds, System.ids, zombies, ← same.id, ← List.cons_append,
      ← List.map_cons (f := fun t : Thread => t.ps.id)]
    apply (runnable.map _).append_right
  · rw [hs]
    apply (forksOf_perm runnable).subperm.trans (forksOf_head phase ts)

theorem Distinct.forksOf_eq_nil (h : Distinct n s) (hs : s.runnable = t :: ts)
    (hfork : t.phase.inFork) :
  forksOf ts = []
  := by
  have hone := h.one
  rw [hs, forksOf_cons_of_inFork hfork, List.length_cons] at hone
  apply List.length_eq_zero_iff.mp
  omega

theorem distinct_nextPid (h : Distinct n s) (hn : n < 2 ^ 32 - 1) (hs : s.runnable = t :: ts)
    (hno : forksOf s.runnable = [])
    (runnable : s'.runnable = { t with phase := .cloning (schedulerNextPid s) } :: ts)
    (zombies : s'.zombies = s.zombies) :
  Distinct n s'
  := by
  have hids : s'.allIds = s.allIds := by rw [allIds_eq hs, allIds_eq runnable, zombies]
  have hforks : forksOf s'.runnable = [.cloning (schedulerNextPid s)] := by
    rw [runnable, forksOf_cons_of_inFork rfl, List.cons_inj_right, ← List.subperm_nil, ← hno, hs]
    apply forksOf_subperm_cons
  constructor
  · rw [hids]
    apply h.nodup
  · rw [hids]
    apply h.le
  · rw [hforks, List.length_singleton]
  · rw [hforks, hids, List.forall_mem_singleton]
    apply schedulerNextPid_spec h.le hn

theorem distinct_clone {newPid : UInt32} {child : Ps} (h : Distinct n s) (hs : s.runnable = t :: ts)
    (phase : t.phase = .cloning newPid) (id : child.id = newPid)
    (runnable : s'.runnable = { t with phase := .adding child } :: ts)
    (zombies : s'.zombies = s.zombies) :
  Distinct (n + 1) s'
  := by
  have hfork : t.phase.inFork := by
    rw [phase]
    rfl
  have hids : s'.allIds = s.allIds := by rw [allIds_eq hs, allIds_eq runnable, zombies]
  have hforks : forksOf s'.runnable = [.adding child] := by
    rw [runnable, forksOf_cons_of_inFork rfl, h.forksOf_eq_nil hs hfork]
  have hfresh : (Phase.cloning newPid).Fresh n s.allIds := by
    apply h.fresh
    rw [hs, forksOf_cons_of_inFork hfork, phase]
    apply List.mem_cons_self
  constructor
  · rw [hids]
    apply h.nodup
  · rw [hids]
    intro i hi
    apply (h.le i hi).trans (by omega)
  · rw [hforks, List.length_singleton]
  · rw [hforks, hids, List.forall_mem_singleton]
    rw [← id] at hfresh
    exact hfresh

theorem distinct_addRunnable {ele : Bool} {child : Ps} {t' : Thread} (h : Distinct n s)
    (hs : s.runnable = t :: ts) (phase : t.phase = .adding child) (same : t.Same t')
    (phase' : t'.phase = .user)
    (runnable : s'.runnable = addProcess ele ⟨child, .user⟩ (t' :: ts))
    (zombies : s'.zombies = s.zombies) :
  Distinct n s'
  := by
  have hfork : t.phase.inFork := by
    rw [phase]
    rfl
  have hsettled := Phase.settled_user phase'
  cases ele
  · apply h.keep hs same (Or.inr hsettled) _ zombies
    rw [runnable]
    rfl
  · have hids : s'.allIds.Perm (child.id :: s.allIds) := by
      rw [System.allIds, System.ids, runnable, zombies, allIds_eq hs, ← same.id]
      simp only [addProcess, if_true, List.map_append, List.map_cons, List.map_nil, List.append_assoc,
        List.cons_append, List.nil_append]
      apply (List.Perm.cons _ List.perm_middle).trans
      apply List.Perm.swap
    have hforks : forksOf s'.runnable = [] := by
      have hlast : forksOf (ts ++ [⟨child, .user⟩]) = forksOf ts := by
        simp [forksOf, Phase.inFork]
      rw [runnable, addProcess, if_pos rfl, List.cons_append, forksOf_cons_of_settled hsettled,
        hlast, h.forksOf_eq_nil hs hfork]
    have hfresh : (Phase.adding child).Fresh n s.allIds := by
      apply h.fresh
      rw [hs, forksOf_cons_of_inFork hfork, phase]
      apply List.mem_cons_self
    constructor
    · rw [hids.nodup_iff, List.nodup_cons]
      exact ⟨hfresh.1, h.nodup⟩
    · intro i hi
      rcases List.mem_cons.mp (hids.subset hi) with rfl | hi
      · apply hfresh.2
      · apply h.le i hi
    · simp [hforks]
    · simp [hforks]

theorem distinct_execve {new : Ps} {ele : Bool} {p : Option Ps} (h : Distinct n s)
    (hs : s.runnable = t :: ts) (id : new.id = t.ps.id)
    (dispatch : Dispatch code (addProcess ele ⟨new, .user⟩ ts) p s')
    (zombies : s'.zombies = s.zombies) :
  Distinct n s'
  := by
  have hperm := dispatch.perm
  apply h.shrink
  · rw [allIds_eq hs, System.allIds, System.ids, zombies, ← List.cons_append]
    apply List.Subperm.append _ (List.Subperm.refl _)
    apply (hperm.map _).subperm.trans
    rw [map_addProcess, id]
    cases ele
    · apply List.Subperm.cons_self
    · apply (List.perm_append_singleton _ _).subperm
  · rw [hs]
    apply (forksOf_perm hperm).subperm.trans
    cases ele
    · apply forksOf_subperm_cons
    · have hlast : forksOf (ts ++ [⟨new, .user⟩]) = forksOf ts := by
        simp [forksOf, Phase.inFork]
      rw [addProcess, if_pos rfl, hlast]
      apply forksOf_subperm_cons

theorem distinct_exit {ele : Bool} {p : Option Ps} (h : Distinct n s) (hs : s.runnable = t :: ts)
    (dispatch : Dispatch code ts p s') (zombies : s'.zombies = addProcess ele t.ps s.zombies) :
  Distinct n s'
  := by
  have hperm := dispatch.perm
  apply h.shrink
  · rw [allIds_eq hs, System.allIds, System.ids, zombies]
    apply ((hperm.map _).append_right _).subperm.trans
    cases ele
    · apply List.Subperm.cons_self
    · rw [addProcess, if_pos rfl, List.map_append, ← List.append_assoc]
      apply (List.perm_append_singleton _ _).subperm
  · rw [hs]
    apply (forksOf_perm hperm).subperm.trans (forksOf_subperm_cons t ts)

/-- Every step keeps the ids different. -/
theorem distinct_step (h : step code s e = some (o, s')) (hno : NoOverlap s e) (hn : n < 2 ^ 32 - 1)
    (hd : Distinct n s) :
  Distinct (n + o.created.isSome.toNat) s'
  := by
  obtain ⟨t, ts, hs, hshape⟩ := shape_of_step h
  cases hshape with
  | stay same _ phase runnable zombies =>
      apply hd.keep hs same phase.settled (runnable ▸ .refl _) zombies
  | nextPid phase runnable zombies => apply distinct_nextPid hd hn hs hno runnable zombies
  | clone phase id _ _ runnable zombies => apply distinct_clone hd hs phase id runnable zombies
  | addRunnable phase same phase' runnable zombies =>
      apply distinct_addRunnable hd hs phase same phase' runnable zombies
  | waitNone _ _ same phase runnable zombies =>
      apply hd.keep hs same (Or.inr (Phase.settled_user phase)) (runnable ▸ .refl _) zombies
  | waitSome _ _ runnable zombies =>
      have hsame : t.Same { t with phase := .waiting } := .rfl
      apply hd.keep hs hsame (Or.inr trivial) (runnable ▸ .refl _) zombies
  | waitOne _ _ same phase runnable zombies =>
      apply hd.keep hs same (Or.inr (Phase.settled_user phase)) (runnable ▸ .refl _) zombies
  | switch same _ phase dispatch zombies =>
      apply hd.keep hs same phase.settled dispatch.perm zombies
  | execve id _ _ _ dispatch zombies => apply distinct_execve hd hs id dispatch zombies
  | exit _ dispatch zombies => apply distinct_exit hd hs dispatch zombies

end Step

/-! ### Runs -/

theorem created_concat (tr : List SystemStep) (x : SystemStep) :
  created (tr ++ [x]) = created tr + x.effect.created.isSome.toNat
  := by
  rw [created, created, List.countP_append, List.countP_singleton]
  cases x.effect.created with
  | none => rfl
  | some new => rfl

/-- In a run in which no id is taken while another fork is under way, and in which fewer than
2 ^ 32 - 1 processes have been created, all processes of the runnable and of the zombie list have
different ids. -/
theorem pids_distinct (c : IA32.Cpu) (ms : UInt32) (ps : Ps) (hps : ps.id = 1) {tr : List SystemStep}
    (h : Runs (step code) (boot code c ms ps) tr s) (hno : ∀ x ∈ tr, NoOverlap x.before x.event)
    (hcreated : created tr < 2 ^ 32 - 1) :
  s.allIds.Nodup
  := by
  have hdistinct : Distinct (created tr) s := by
    apply h.history (I := fun tr s => Distinct (created tr) s)
    · constructor
      · simp [System.allIds, System.ids, boot]
      · simp [System.allIds, System.ids, boot, hps, created]
      · simp [forksOf, boot, Phase.inFork]
      · simp [forksOf, boot, Phase.inFork]
    · intro pre x hpre hstep hd
      have hle : created (pre ++ [x]) ≤ created tr := by
        apply Nat.add_le_add_left
        apply hpre.sublist.countP_le
      rw [created_concat] at hle ⊢
      apply distinct_step hstep (hno x (hpre.subset (by simp))) (by omega) hd
  apply hdistinct.nodup

/-- `init` creates a child and yields to it; the child, process 2, creates process 3 and exits; process 3
is interrupted at the end of its time slice, and creates process 4 when it runs again. -/
def threeForks : List Event :=
  forkEvents ++ yieldEvents ++
    [.compute userCpu, .enter, .nextPid, .clone (some (someChild 0xC0420000 3 0xC0410000 2)),
      .addRunnable true] ++
    [.compute userCpu, .enter, .exit true] ++ List.replicate 5 .tick ++ yieldEvents ++
    [.compute userCpu, .enter, .nextPid, .clone (some (someChild 0xC0430000 4 0xC0420000 3)),
      .addRunnable true]

theorem pids_distinct_fork :
  ∃ tr s, Runs (step someCode) someBoot tr s ∧ (∀ x ∈ tr, NoOverlap x.before x.event) ∧
    created tr = 4 ∧ s.ids = [3, 1, 4] ∧ s.zombies.map Ps.id = [2] ∧ s.allIds.Nodup
  := by
  obtain ⟨tr, s, hruns, hno, hcreated, hids, hzombies⟩ := exists_runs
    (P := fun r : List SystemStep × System => (∀ x ∈ r.1, NoOverlap x.before x.event) ∧
      created r.1 = 4 ∧ r.2.ids = [3, 1, 4] ∧ r.2.zombies.map Ps.id = [2])
    (step someCode) someBoot threeForks (by decide +kernel)
  exact ⟨tr, s, hruns, hno, hcreated, hids, hzombies,
    pids_distinct userCpu 0 (somePs 0xC0400000 1 0) rfl hruns hno (by rw [hcreated]; decide)⟩

/-- `init` creates the child 2 and forks again.  The timer interrupts it when it has taken the id 3;
the child forks too and takes the same id.  In the end two processes have the id 3. -/
def overlappingForks : List Event :=
  forkEvents ++
    [.compute userCpu, .enter, .nextPid] ++ List.replicate 5 .tick ++
    [.compute userCpu, .enter, .nextPid, .clone (some (someChild 0xC0420000 3 0xC0410000 2)),
      .addRunnable true] ++
    yieldEvents ++
    [.clone (some (someChild 0xC0430000 3 0xC0400000 1)), .addRunnable true]

theorem overlapping_forks_same_pid :
  ∃ tr s, Runs (step someCode) someBoot tr s ∧ created tr < 2 ^ 32 - 1 ∧ s.allIds = [1, 3, 2, 3] ∧
    ¬ s.allIds.Nodup
  := by
  obtain ⟨tr, s, hruns, hcreated, hids⟩ := exists_runs
    (P := fun r : List SystemStep × System => created r.1 = 4 ∧ r.2.allIds = [1, 3, 2, 3])
    (step someCode) someBoot overlappingForks (by decide +kernel)
  simp only at hcreated hids
  refine ⟨tr, s, hruns, by rw [hcreated]; decide, hids, ?_⟩
  rw [hids]
  decide

end Scheduler
