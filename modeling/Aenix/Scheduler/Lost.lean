import Aenix.Scheduler.Insertion

/-!
# Processes that are lost

`sys_fork`, `sys_execve` and `sys_exit` put a process on a list, and `scheduler_add_process` fails when
`kmalloc` does.  None of them looks at what it returns: `sys_fork` returns the id of a child that is on
no list, `continue_execve` and `continue_exit` have already taken the current process from its list.
The insertion in `sys_fork` can also be interrupted, and then tears the list.  So a run loses no process
exactly when all its insertions succeed and are left whole (`no_process_lost_iff`).
-/

open Process Trace

namespace Scheduler

variable {code : Code}

/-- `kmalloc` does not fail in `scheduler_add_process`, if the event calls it. -/
def Event.inserts : Event → Bool
  | .addRunnable ele => ele
  | .execve _ ele => ele
  | .exit ele => ele
  | _ => true

def InsertEvent.inserts : InsertEvent → Bool
  | .system e _ => e.inserts
  | _ => true

/-- The addresses of the processes on the lists. -/
def Inserting.listed (m : Inserting) : List UInt32 × List UInt32 :=
  (m.chain.map Ps.addr, m.sys.zombies.map Ps.addr)

/-- A process is on a list. -/
def Inserting.Lists (m : Inserting) (a : UInt32) : Prop := a ∈ m.listed.1 ∨ a ∈ m.listed.2

/-- The system call of the current process returns -1. -/
def ReportsFailure (x : InsertStep) : Prop :=
  ∃ t t', x.before.sys.runnable.head? = some t ∧ x.after.sys.runnable.head? = some t' ∧ t.Same t' ∧
    t'.phase = .user ∧ t'.ps.userMode.eax = -1

/-- `sys_fork` returns the id of a child, or has put its element behind the last one. -/
def InsertEvent.forks : InsertEvent → Bool
  | .link | .moveEnd | .system (.addRunnable _) _ => true
  | _ => false

/-- A step loses no process: a child whose id `sys_fork` returns is runnable, and so it is already when it
has been linked; a replacement is runnable; a process that has exited is a zombie; no process is on both
lists; a process that was on a list is on one, unless it is replaced; and an insertion that fails is
reported or changes neither list. -/
structure Keeps (x : InsertStep) : Prop where
  forked : x.event.forks → ∀ new ∈ x.before.sys.newChild, new ∈ x.after.chain
  replaced : ∀ new ele a, x.event = .system (.execve new ele) a → new ∈ x.after.chain
  exited : ∀ ps ∈ x.effect.exited, ps ∈ x.after.sys.zombies
  disjoint : x.after.listed.1.Disjoint x.after.listed.2
  stays : ∀ a, x.before.Lists a → x.after.Lists a ∨
    (∃ new ele b, x.event = .system (.execve new ele) b) ∧ some a = x.before.sys.pss.head?.map Ps.addr
  failed : x.event.inserts = false → ReportsFailure x ∨ x.after.listed = x.before.listed

/-- The step loses no process: `kmalloc` does not fail, the end of a time slice does not come between the
two stores in `sys_fork`, and the first of them is made through the last element. -/
def Whole (m : Inserting) : InsertEvent → Prop
  | .system e _ => e.inserts ∧ m.tears e = none
  | .link =>
    ∀ t ∈ m.sys.runnable.head?, (m.pending t.ps.addr).map Prod.snd = m.lastEle m.sys.runnable
  | _ => True

instance (m : Inserting) : (e : InsertEvent) → Decidable (Whole m e)
  | .system _ _ => inferInstanceAs (Decidable (_ ∧ _))
  | .link => inferInstanceAs (Decidable (∀ t ∈ m.sys.runnable.head?, _))
  | .readEnd _ | .moveEnd => isTrue trivial

/-! ### Insertions that succeed -/

theorem newChild_eq {s : System} {t : Thread} {ts : List Thread} {child : Ps} (hs : s.runnable = t :: ts)
    (h : t.phase = .adding child) :
  s.newChild = some child
  := by
  obtain ⟨ps, phase⟩ := t
  obtain rfl : phase = .adding child := h
  simp only [System.newChild, hs]

/-- No process is on both lists. -/
theorem listed_disjoint {m : Inserting} (h : m.sys.addrs.Nodup) (hlinked : m.Linked) :
  m.listed.1.Disjoint m.listed.2
  := by
  intro a hrun hzom
  rw [Inserting.listed, Inserting.chain, List.map_append, List.mem_append] at hrun
  rcases hrun with hrun | hrun
  · exact (List.nodup_append.mp (nodup_listed h)).2.2 a hrun a hzom rfl
  · obtain ⟨child, hchild, rfl⟩ := List.mem_map.mp hrun
    obtain ⟨t, ts, hs, hphase⟩ := hlinked child (Option.mem_toList.mp hchild)
    apply child_notMem h hs hphase
    exact List.mem_append_right _ hzom

section Steps

variable {s s' : System} {e : Event} {o : Effect}

theorem exited_of_step (h : step code s e = some (o, s')) {ps : Ps} (hps : ps ∈ o.exited) :
  ∃ ele, e = .exit ele
  := by
  obtain ⟨t, ts, -, hshape⟩ := shape_of_step h
  cases hshape with
  | @exit ele => use ele
  | stay | nextPid | clone | addRunnable | waitNone | waitSome | waitOne | switch | execve => simp at hps

/-- Every process on a list stays on one, or is replaced, when the insertion succeeds. -/
theorem stays_step (h : step code s e = some (o, s')) (hins : e.inserts) {a : UInt32}
    (ha : a ∈ s.pss.map Ps.addr ++ s.zombies.map Ps.addr) :
  a ∈ s'.pss.map Ps.addr ++ s'.zombies.map Ps.addr ∨
    (∃ new ele, e = .execve new ele) ∧ some a = s.pss.head?.map Ps.addr
  := by
  obtain ⟨t, ts, hs, hshape⟩ := shape_of_step h
  rw [pss_addr_eq, hs, List.map_cons, List.cons_append, List.mem_cons, List.mem_append] at ha
  rw [pss_addr_eq, List.mem_append]
  have hkeep : ∀ t' : Thread, t.Same t' → s'.runnable.Perm (t' :: ts) → s'.zombies = s.zombies →
      a ∈ s'.runnable.map (fun t => t.ps.addr) ∨ a ∈ s'.zombies.map Ps.addr := by
    intro t' same hperm hzombies
    rw [(hperm.map _).mem_iff, List.map_cons, List.mem_cons, same.addr, hzombies]
    tauto
  cases hshape with
  | stay same _ _ runnable zombies => exact Or.inl (hkeep _ same (by rw [runnable]) zombies)
  | nextPid _ runnable zombies => exact Or.inl (hkeep _ .rfl (by rw [runnable]) zombies)
  | clone _ _ _ _ runnable zombies => exact Or.inl (hkeep _ .rfl (by rw [runnable]) zombies)
  | addRunnable _ same _ runnable zombies =>
      left
      simp only [Event.inserts] at hins
      rw [runnable, zombies, addProcess, if_pos hins, List.map_append, List.map_cons, same.addr]
      simp only [List.mem_append, List.mem_cons]
      tauto
  | waitNone _ _ same _ runnable zombies => exact Or.inl (hkeep _ same (by rw [runnable]) zombies)
  | waitSome _ _ runnable zombies => exact Or.inl (hkeep _ .rfl (by rw [runnable]) zombies)
  | waitOne _ _ same _ runnable zombies => exact Or.inl (hkeep _ same (by rw [runnable]) zombies)
  | switch same _ _ dispatch zombies => exact Or.inl (hkeep _ same dispatch.perm zombies)
  | execve _ _ _ _ dispatch zombies =>
      simp only [Event.inserts] at hins
      rcases ha with rfl | ha
      · right
        exact ⟨⟨_, _, rfl⟩, by simp [System.pss, hs]⟩
      · left
        rw [(dispatch.perm.map _).mem_iff, zombies, addProcess, if_pos hins, List.map_append,
          List.mem_append]
        tauto
  | exit _ dispatch zombies =>
      left
      simp only [Event.inserts] at hins
      rw [(dispatch.perm.map _).mem_iff, zombies, addProcess, if_pos hins, List.map_append,
        List.mem_append, List.map_singleton, List.mem_singleton]
      tauto

end Steps

section Keeps

variable {m m' : Inserting} {t : Thread} {ts : List Thread} {o : Effect}

theorem lists_iff {a : UInt32} :
  m.Lists a ↔ a ∈ m.sys.pss.map Ps.addr ++ m.sys.zombies.map Ps.addr ∨
    ∃ child ∈ m.linked, child.addr = a
  := by
  simp only [Inserting.Lists, Inserting.listed, Inserting.chain, List.map_append, List.mem_append,
    List.mem_map, Option.mem_toList, Option.mem_def]
  rw [or_right_comm]

/-- An event of the system that inserts no child keeps all processes, when its own insertion
succeeds. -/
theorem keeps_system {e : Event} {ele : Ptr} {s' : System} (hnodup : m.sys.addrs.Nodup) (hlinked : m.Linked)
    (hs : m.sys.runnable = t :: ts) (undivided : m.divided t e = false) (whole : m.tears e = none)
    (hins : e.inserts) (h : step code m.sys e = some (o, s')) :
  Keeps ⟨m, .system e ele, o, { m with sys := s', eleOf := m.placed t ele e }⟩
  := by
  have hlinked' : Inserting.Linked { m with sys := s', eleOf := m.placed t ele e } := by
    intro child hchild
    obtain ⟨u, us, hs', hphase⟩ := hlinked child hchild
    obtain ⟨rfl, rfl⟩ := List.cons.inj (hs.symm.trans hs')
    obtain ⟨-, hrunnable, -⟩ := step_of_linked hs hphase hchild undivided whole h
    exact ⟨t, ts, hrunnable.trans hs, hphase⟩
  constructor
  case forked =>
    intro hforks
    cases e with
    | addRunnable ok =>
        obtain rfl : ok = true := hins
        simp [Inserting.divided] at undivided
    | compute | tick | enter | leave | yield | nextPid | clone | execve | exit | wait | poll =>
        simp [InsertEvent.forks] at hforks
  case replaced =>
    rintro new ok a heq
    obtain ⟨rfl, -⟩ := InsertEvent.system.inj heq
    obtain rfl : ok = true := hins
    obtain ⟨_, _, hs', hstep⟩ := stepOf_of_step h
    obtain ⟨p, -, -, hdispatch, -, -⟩ := execve_spec hstep
    apply List.mem_append_left
    apply (hdispatch.perm.map Thread.ps).mem_iff.mpr
    simp [addProcess]
  case exited =>
    intro ps hps
    obtain ⟨ok, rfl⟩ := exited_of_step h hps
    obtain rfl : ok = true := hins
    obtain ⟨u, us, -, hstep⟩ := stepOf_of_step h
    obtain ⟨p, -, -, hzombies, rfl⟩ := exit_spec hstep
    obtain rfl : u.ps = ps := Option.some.inj hps
    rw [hzombies, addProcess, if_pos rfl]
    simp
  case disjoint => exact listed_disjoint (nodup_addrs_step h hnodup) hlinked'
  case stays =>
    intro a ha
    rcases lists_iff.mp ha with ha | hchild
    · rcases stays_step h hins ha with hlisted | ⟨⟨new, ok, rfl⟩, hhead⟩
      · exact Or.inl (lists_iff.mpr (Or.inl hlisted))
      · exact Or.inr ⟨⟨new, ok, ele, rfl⟩, hhead⟩
    · exact Or.inl (lists_iff.mpr (Or.inr hchild))
  case failed =>
    intro hfail
    exact absurd (hfail.symm.trans hins) (by simp)

/-- A step that is not an event of the system keeps all processes, when it tears no list. -/
theorem keeps_insert {e : InsertEvent} (h : m.step code e = some (o, m'))
    (hnodup' : m'.sys.addrs.Nodup) (hlinked : m.Linked) (hevent : ∀ e' a, e ≠ .system e' a)
    (htorn : m'.torn = false) :
  Keeps ⟨m, e, o, m'⟩
  := by
  have hlinked' := linked_step h hlinked
  have hdisjoint := listed_disjoint hnodup' hlinked'
  obtain ⟨-, t, ts, hs, hshape⟩ := insertShape_of_step h
  cases hshape with
  | system => exact absurd rfl (hevent _ _)
  | tear => exact absurd rfl (hevent _ _)
  | cut => simp at htorn
  | readEnd =>
      exact ⟨by simp [InsertEvent.forks], by simp, by simp, hdisjoint, fun a ha => Or.inl ha,
        by simp [InsertEvent.inserts]⟩
  | @link child _ _ phase _ linked _ =>
      refine ⟨?_, by simp, by simp, hdisjoint, ?_, by simp [InsertEvent.inserts]⟩
      · intro _ new hnew
        rw [newChild_eq hs phase] at hnew
        obtain rfl : child = new := Option.some.inj hnew
        simp [Inserting.chain]
      · intro a ha
        rw [lists_iff, linked] at ha
        exact Or.inl (lists_iff.mpr (Or.inl (by simpa using ha)))
  | @moveEnd child _ _ o s' linked _ step =>
      obtain ⟨u, us, hs', hstep⟩ := stepOf_of_step step
      obtain ⟨child', u', hphase, -, -, hrunnable, -, rfl⟩ := addRunnable_spec hstep
      obtain ⟨v, vs, hs'', hphase'⟩ := hlinked child linked
      obtain ⟨rfl, rfl⟩ := List.cons.inj (hs'.symm.trans hs'')
      obtain rfl : child' = child := Phase.adding.inj (hphase.symm.trans hphase')
      have hmem : child' ∈ s'.pss := by simp [System.pss, hrunnable, addProcess]
      refine ⟨?_, by simp, by simp, hdisjoint, ?_, by simp [InsertEvent.inserts]⟩
      · intro _ new hnew
        rw [newChild_eq hs' hphase] at hnew
        obtain rfl : child' = new := Option.some.inj hnew
        exact List.mem_append_left _ hmem
      · intro a ha
        rcases lists_iff.mp ha with ha | ⟨c, hc, rfl⟩
        · obtain ha | ⟨⟨new, ele, heq⟩, -⟩ := stays_step step rfl ha
          · exact Or.inl (lists_iff.mpr (Or.inl ha))
          · simp at heq
        · obtain rfl : child' = c := Option.some.inj (linked.symm.trans hc)
          left
          apply lists_iff.mpr (Or.inl _)
          exact List.mem_append_left _ (List.mem_map_of_mem hmem)

/-! ### Insertions that fail -/

/-- An event of the system loses a process when its insertion fails. -/
theorem not_keeps_system {e : Event} {ele : Ptr} {s' : System} (hnodup : m.sys.addrs.Nodup)
    (undivided : m.divided t e = false) (hs : m.sys.runnable = t :: ts) (hfail : e.inserts = false)
    (h : step code m.sys e = some (o, s')) (hlinked : m.Linked) :
  ¬ Keeps ⟨m, .system e ele, o, { m with sys := s', eleOf := m.placed t ele e }⟩
  := by
  intro hkeeps
  obtain ⟨u, us, hs', hstep⟩ := stepOf_of_step h
  obtain ⟨rfl, rfl⟩ := List.cons.inj (hs.symm.trans hs')
  have hnone : t.phase = .syscall → m.linked = none := by
    intro hphase
    rw [Option.eq_none_iff_forall_not_mem]
    intro child hchild
    obtain ⟨v, vs, hs'', hphase'⟩ := hlinked child hchild
    obtain ⟨rfl, rfl⟩ := List.cons.inj (hs.symm.trans hs'')
    simp [hphase] at hphase'
  cases e with
  | addRunnable ok =>
      obtain rfl : ok = false := hfail
      obtain ⟨child, t', hphase, hsame, -, hrunnable, -, -⟩ := addRunnable_spec hstep
      -- the child is at an address of its own
      apply child_notMem hnodup hs hphase
      have hlinked : m.linked = none := by
        rw [Inserting.divided, Bool.or_eq_false_iff, Bool.or_eq_false_iff] at undivided
        simpa using undivided.1.2
      have hmem : child ∈ s'.pss := by
        simpa [Inserting.chain, hlinked] using hkeeps.forked rfl child (newChild_eq hs hphase)
      apply List.mem_append_left
      have haddr := List.mem_map_of_mem (f := Ps.addr) hmem
      rw [pss_addr_eq, hrunnable, addProcess, if_neg (by simp), List.map_cons, hsame.addr] at haddr
      rw [pss_addr_eq, hs, List.map_cons]
      exact haddr
  | execve new ok =>
      obtain rfl : ok = false := hfail
      obtain ⟨p, hphase, hnew, hdispatch, -, -⟩ := execve_spec hstep
      have hmem : new ∈ s'.pss := by
        simpa [Inserting.chain, hnone hphase] using hkeeps.replaced new false ele rfl
      have haddr := List.mem_map_of_mem (f := Ps.addr) hmem
      rw [pss_addr_eq, (hdispatch.perm.map _).mem_iff, addProcess, if_neg (by simp)] at haddr
      apply (addr_of_isReplacement hnew).2.2
      rw [addrs_eq, hs, addrsOf_cons]
      apply List.mem_append_left
      apply List.mem_cons_of_mem
      apply List.mem_append_right
      exact (map_addr_sublist ts).subset haddr
  | exit ok =>
      obtain rfl : ok = false := hfail
      obtain ⟨p, -, -, hzombies, rfl⟩ := exit_spec hstep
      have hmem := hkeeps.exited t.ps rfl
      rw [hzombies, addProcess, if_neg (by simp)] at hmem
      have hdisjoint := nodup_listed hnodup
      rw [System.pss, hs, List.map_cons, List.map_cons, List.cons_append, List.nodup_cons] at hdisjoint
      apply hdisjoint.1
      exact List.mem_append_right _ (List.mem_map_of_mem hmem)
  | compute | tick | enter | leave | yield | nextPid | clone | wait | poll =>
      simp [Event.inserts] at hfail

theorem not_lists {a : UInt32} (h : m.linked = none)
    (ha : a ∉ m.sys.pss.map Ps.addr ++ m.sys.zombies.map Ps.addr) :
  ¬ m.Lists a
  := by
  rw [lists_iff, h]
  simpa using ha

/-- A process is on no list any more. -/
theorem not_keeps_of_gone {e : InsertEvent} {a : UInt32} (ha : m.Lists a) (ha' : ¬ m'.Lists a)
    (hevent : ∀ new ele b, e ≠ .system (.execve new ele) b) :
  ¬ Keeps ⟨m, e, o, m'⟩
  := by
  intro hkeeps
  rcases hkeeps.stays a ha with h | ⟨⟨new, ele, b, h⟩, -⟩
  · exact ha' h
  · exact hevent new ele b h

/-- The end of a time slice between the two stores takes a process from the list. -/
theorem not_keeps_tear {child : Ps} {t' : Thread} {p : Option Ps} {ele : Ptr} {s' : System}
    (hnodup : m.sys.addrs.Nodup) (hs : m.sys.runnable = t :: ts) (hphase : t.phase = .adding child)
    (hlinked : m.linked = some child) (same : t.Same t')
    (runnable : s'.runnable = rotateLinked ⟨child, .user⟩ (t' :: ts))
    (zombies : s'.zombies = m.sys.zombies) :
  ¬ Keeps ⟨m, .system .tick ele, { dispatched := p }, { m with sys := s', linked := none, torn := true }⟩
  := by
  have hchild := child_notMem hnodup hs hphase
  have hlisted := nodup_listed hnodup
  rw [pss_addr_eq, hs, List.map_cons, List.cons_append] at hchild hlisted
  cases ts with
  | nil =>
      -- the parent is taken out
      apply not_keeps_of_gone (a := t.ps.addr) _ (not_lists rfl _) (by simp)
      · rw [lists_iff, pss_addr_eq, hs]
        simp
      · rw [pss_addr_eq, runnable, zombies]
        simp only [rotateLinked, List.map_cons, List.cons_append, List.mem_cons, not_or]
        exact ⟨Ne.symm (List.ne_of_not_mem_cons hchild), (List.nodup_cons.mp hlisted).1⟩
  | cons u us =>
      -- the child is taken out
      apply not_keeps_of_gone (a := child.addr) _ (not_lists rfl _) (by simp)
      · exact lists_iff.mpr (Or.inr ⟨child, hlinked, rfl⟩)
      · rw [pss_addr_eq, runnable, zombies]
        simp only [rotateLinked, List.map_append, List.map_cons, List.map_nil, same.addr]
        simp only [List.map_cons, List.mem_cons, List.mem_append, not_or, List.not_mem_nil] at hchild ⊢
        tauto

/-- A store through an element that is not the last one cuts off those behind it, or links the child
to no list of runnable processes. -/
theorem not_keeps_cut {child : Ps} {last : Ptr} (hnodup : m.sys.addrs.Nodup)
    (hs : m.sys.runnable = t :: ts) (hphase : t.phase = .adding child) (hlinked : m.linked = none)
    (hmoved : m.lastEle (t :: ts) ≠ some last) :
  ¬ Keeps ⟨m, .link, {}, { m with sys := m.cut last child, torn := true }⟩
  := by
  have hchild := child_notMem hnodup hs hphase
  have hlisted := nodup_listed hnodup
  rcases exists_behind (fun u => m.threadEle u == last) (t :: ts) with ⟨pre, u, post, hsplit, hu, hpre⟩ | hnone
  · -- the process behind the element is not on a list any more
    rw [pss_addr_eq, hs, hsplit] at hchild hlisted
    simp only [List.map_append, List.map_cons] at hchild hlisted
    obtain ⟨v, vs, rfl⟩ : ∃ v vs, post = v :: vs := by
      apply List.exists_cons_of_ne_nil
      rintro rfl
      apply hmoved
      rw [hsplit]
      simpa [Inserting.lastEle] using hu
    refine not_keeps_of_gone (a := v.ps.addr) ?_ ?_ (by simp)
    · rw [lists_iff, pss_addr_eq, hs, hsplit]
      simp
    · refine not_lists ?_ ?_
      · exact hlinked
      rw [pss_addr_eq, Inserting.cut, hs, hsplit,
        linkBehind_append (p := fun t => m.threadEle t == last) hu hpre]
      intro hmem
      rcases List.mem_append.mp hmem with hmem | hmem
      · simp only [List.map_append, List.map_cons, List.map_nil] at hmem
        grind
      · obtain ⟨z, hz, heq⟩ := List.mem_map.mp hmem
        rcases mem_linkBehind hz with hz | rfl
        · have hz := List.mem_map_of_mem (f := Ps.addr) hz
          grind
        · grind
  · intro hkeeps
    have hforked : child ∈ (m.cut last child).pss := by
      simpa [Inserting.chain, hlinked] using hkeeps.forked rfl child (newChild_eq hs hphase)
    apply hchild
    apply List.mem_append_left
    rw [pss_addr_eq, hs]
    have haddr := List.mem_map_of_mem (f := Ps.addr) hforked
    rw [pss_addr_eq, Inserting.cut, hs, linkBehind_of_notMem hnone] at haddr
    exact haddr

/-- A step loses no process if and only if its insertions succeed and are left whole. -/
theorem keeps_iff {e : InsertEvent} (h : m.step code e = some (o, m')) (hnodup : m.sys.addrs.Nodup)
    (hlinked : m.Linked) :
  Keeps ⟨m, e, o, m'⟩ ↔ Whole m e
  := by
  have hnodup' : m'.torn = false → m'.sys.addrs.Nodup := by
    intro htorn
    obtain ⟨-, hsame | ⟨e', o', hstep⟩⟩ := sys_step h htorn
    · rw [hsame]
      apply hnodup
    · apply nodup_addrs_step hstep hnodup
  obtain ⟨htorn, t, ts, hs, hshape⟩ := insertShape_of_step h
  cases hshape with
  | system undivided whole step =>
      constructor
      · intro hkeeps
        refine ⟨?_, whole⟩
        by_contra hfail
        rw [Bool.not_eq_true] at hfail
        exact not_keeps_system hnodup undivided hs hfail step hlinked hkeeps
      · rintro ⟨hins, -⟩
        exact keeps_system hnodup hlinked hs undivided whole hins step
  | tear slice linked same runnable zombies =>
      obtain ⟨u, us, hs', hphase⟩ := hlinked _ linked
      obtain ⟨rfl, rfl⟩ := List.cons.inj (hs.symm.trans hs')
      constructor
      · intro hkeeps
        exact absurd hkeeps (not_keeps_tear hnodup hs hphase linked same runnable zombies)
      · rintro ⟨-, hwhole⟩
        simp [Inserting.tears, slice, linked] at hwhole
  | readEnd =>
      refine ⟨fun _ => trivial, fun _ => ?_⟩
      exact keeps_insert h (hnodup' htorn) hlinked (by simp) htorn
  | link phase pending linked stays =>
      constructor
      · intro _ u hu
        obtain rfl : t = u := by simpa [hs] using hu
        rw [hs, pending, stays]
        rfl
      · intro _
        exact keeps_insert h (hnodup' htorn) hlinked (by simp) htorn
  | cut phase pending linked moved =>
      constructor
      · intro hkeeps
        exact absurd hkeeps (not_keeps_cut hnodup hs phase linked moved)
      · intro hwhole
        have hread := hwhole t (by simp [hs])
        rw [hs, pending] at hread
        exact absurd hread.symm moved
  | moveEnd =>
      refine ⟨fun _ => trivial, fun _ => ?_⟩
      exact keeps_insert h (hnodup' rfl) hlinked (by simp) rfl

end Keeps

/-! ### Runs -/

section Runs

variable {c : IA32.Cpu} {ms : UInt32} {ps : Ps} {ele : Ptr} {tr : List InsertStep} {m : Inserting}

theorem keeps_iff_of_mem (h : Runs (Inserting.step code) (.start (boot code c ms ps) ele) tr m)
    {x : InsertStep} (hx : x ∈ tr) :
  Keeps x ↔ Whole x.before x.event
  := by
  obtain ⟨pre, post, -, hpre, hstep, -⟩ := h.cut hx
  obtain ⟨tr', hruns⟩ := runs_sys hpre (insertShape_of_step hstep).1
  apply keeps_iff hstep (nodup_addrs_runs hruns (List.nodup_singleton ps.addr)) (linked_runs hpre)

/-- A run loses no process if and only if `kmalloc` never fails in `scheduler_add_process`, no time slice
ends between the two stores that `sys_fork` makes in it, and the first of them is always made through the
last element. -/
theorem no_process_lost_iff (c : IA32.Cpu) (ms : UInt32) (ps : Ps) (ele : Ptr)
    (h : Runs (Inserting.step code) (.start (boot code c ms ps) ele) tr m) :
  (∀ x ∈ tr, Keeps x) ↔ ∀ x ∈ tr, Whole x.before x.event
  := by
  constructor
  · intro hkeeps x hx
    apply (keeps_iff_of_mem h hx).mp (hkeeps x hx)
  · intro hwhole x hx
    apply (keeps_iff_of_mem h hx).mpr (hwhole x hx)

theorem not_keeps_of_mem (h : Runs (Inserting.step code) (.start (boot code c ms ps) ele) tr m)
    (hwhole : ¬ ∀ x ∈ tr, Whole x.before x.event) :
  ¬ ∀ x ∈ tr, Keeps x
  := by
  intro hkeeps
  apply hwhole
  intro x hx
  apply (keeps_iff_of_mem h hx).mp (hkeeps x hx)

end Runs

/-- The current process calls `sys_fork`, and `process_clone` returns `new`. -/
def cloneEvents (new : Ps) : List InsertEvent :=
  [Event.compute userCpu, .enter, .nextPid, .clone (some new)].map (.system · 0)

/-- The current process makes the system call that ends with the event. -/
def callEvents (e : Event) (ele : Ptr) : List InsertEvent :=
  [.system (.compute userCpu) 0, .system .enter 0, .system e ele]

/-- `init` creates a child.  It forks again and is interrupted when it has read the end of the list; the
child yields.  Then one child exits after the other, and `init` replaces itself and exits. -/
def keptEvents : List InsertEvent :=
  cloneEvents (someChild 0xC0410000 2 0xC0400000 1) ++ [.readEnd 0x2000, .link, .moveEnd] ++
    cloneEvents (someChild 0xC0420000 3 0xC0400000 1) ++ [.readEnd 0x3000] ++
    List.replicate 5 (.system .tick 0) ++ callEvents .yield 0 ++ [.link, .system .tick 0, .moveEnd] ++
    callEvents .yield 0 ++ callEvents (.exit true) 0x4000 ++ callEvents .yield 0 ++
    callEvents (.exit true) 0x2000 ++ callEvents (.execve (somePs 0xC0430000 1 0) true) 0x5000 ++
    callEvents (.exit true) 0x3000

theorem no_process_lost_exit :
  ∃ tr m, Runs (Inserting.step someCode) (.start someBoot 0x1000) tr m ∧ m.sys.ids = [] ∧
    m.sys.zombies.map Ps.id = [2, 3, 1] ∧ ∀ x ∈ tr, Keeps x
  := by
  obtain ⟨tr, m, hruns, hwhole, hids, hzombies⟩ := exists_runs
    (P := fun r : List InsertStep × Inserting => (∀ x ∈ r.1, Whole x.before x.event) ∧
      r.2.sys.ids = [] ∧ r.2.sys.zombies.map Ps.id = [2, 3, 1])
    (Inserting.step someCode) (.start someBoot 0x1000) keptEvents (by decide +kernel)
  exact ⟨tr, m, hruns, hids, hzombies, (no_process_lost_iff _ _ _ _ hruns).mpr hwhole⟩

/-- `init` calls `sys_fork`, which returns the id 2, and no process with this id is on a list. -/
def lostFork : List InsertEvent :=
  cloneEvents (someChild 0xC0410000 2 0xC0400000 1) ++ [.system (.addRunnable false) 0]

/-- `init` calls `sys_execve` and is not on a list any more. -/
def lostExecve : List InsertEvent :=
  callEvents (.execve (somePs 0xC0420000 1 0) false) 0

/-- The time slice of `init` ends between the two stores in `sys_fork`: `init` is not on a list any
more. -/
def lostParent : List InsertEvent :=
  cloneEvents (someChild 0xC0410000 2 0xC0400000 1) ++ [.readEnd 0x2000, .link] ++
    List.replicate 5 (.system .tick 0)

theorem failed_insertion_loses :
  (∃ tr m, Runs (Inserting.step someCode) (.start someBoot 0x1000) tr m ∧
      (m.sys.pss.map fun ps => ps.userMode.eax) = [2] ∧ m.sys.allIds = [1] ∧ ¬ ∀ x ∈ tr, Keeps x) ∧
    (∃ tr m, Runs (Inserting.step someCode) (.start someBoot 0x1000) tr m ∧ m.sys.allIds = [] ∧
      ¬ ∀ x ∈ tr, Keeps x) ∧
    ∃ tr m, Runs (Inserting.step someCode) (.start someBoot 0x1000) tr m ∧
      (∀ x ∈ tr, x.event.inserts) ∧ m.sys.allIds = [2] ∧ ¬ ∀ x ∈ tr, Keeps x
  := by
  refine ⟨?_, ?_, ?_⟩
  · obtain ⟨tr, m, hruns, heax, hids, hfail⟩ := exists_runs
      (P := fun r : List InsertStep × Inserting => (r.2.sys.pss.map fun ps => ps.userMode.eax) = [2] ∧
        r.2.sys.allIds = [1] ∧ ¬ ∀ x ∈ r.1, Whole x.before x.event)
      (Inserting.step someCode) (.start someBoot 0x1000) lostFork (by decide +kernel)
    exact ⟨tr, m, hruns, heax, hids, not_keeps_of_mem hruns hfail⟩
  · obtain ⟨tr, m, hruns, hids, hfail⟩ := exists_runs
      (P := fun r : List InsertStep × Inserting => r.2.sys.allIds = [] ∧
        ¬ ∀ x ∈ r.1, Whole x.before x.event)
      (Inserting.step someCode) (.start someBoot 0x1000) lostExecve (by decide +kernel)
    exact ⟨tr, m, hruns, hids, not_keeps_of_mem hruns hfail⟩
  · obtain ⟨tr, m, hruns, hins, hids, hfail⟩ := exists_runs
      (P := fun r : List InsertStep × Inserting => (∀ x ∈ r.1, x.event.inserts) ∧
        r.2.sys.allIds = [2] ∧ ¬ ∀ x ∈ r.1, Whole x.before x.event)
      (Inserting.step someCode) (.start someBoot 0x1000) lostParent (by decide +kernel)
    exact ⟨tr, m, hruns, hins, hids, not_keeps_of_mem hruns hfail⟩

end Scheduler
