import Aenix.Lib.After
import Aenix.Scheduler.Insertion

/-!
# The system and the code below it

The steps of the system stand for calls of `process.c` and for operations on the linked lists of
`ProcessList`.  The processes that `process_clone` and `process_create_replacement` return are those
that `isClone` and `isReplacement` allow, apart from the address, which is what `kmalloc` returns.  Each
step stands for certain calls that change the linked list of runnable processes (`Inserting.calls`).
When the list holds the runnable processes at first, then all calls of a run return, and after them it
holds the processes that are then runnable (`runs_refine`), also when an insertion has torn it.
-/

open Process Trace

namespace Scheduler

/-! ### New processes -/

/-- A process that is loaded further keeps its ids. -/
structure SameIds (ps ps' : Ps) : Prop where
  addr : ps'.addr = ps.addr
  id : ps'.id = ps.id
  parentId : ps'.parentId = ps.parentId

theorem after_none {Q : Ps → Prop} (h : Kmalloc.Heap Paging.State) :
  After (pure none : Kern (Option Ps)) h fun r _ => ∀ ps ∈ r, Q ps
  := by
  apply After.pure
  simp

theorem after_some {Q : Ps → Prop} {ps : Ps} (h : Kmalloc.Heap Paging.State) (hps : Q ps) :
  After (pure (some ps) : Kern (Option Ps)) h fun r _ => ∀ ps ∈ r, Q ps
  := by
  apply After.pure
  intro ps' hps'
  rw [← Option.mem_some_iff.mp hps']
  apply hps

theorem processLoadPdt_keeps (ps : Ps) (h : Kmalloc.Heap Paging.State) :
  After (processLoadPdt ps) h fun r _ => ∀ ps' ∈ r, SameIds ps ps' ∧ ps'.userMode = ps.userMode
  := by
  unfold processLoadPdt
  apply After.next
  rintro ⟨pdt, paddr⟩ h
  apply After.ite
  · intro _
    apply after_none
  · intro _
    apply after_some
    exact ⟨⟨rfl, rfl, rfl⟩, rfl⟩

theorem processLoadKernelStack_keeps (env : Env) (ps : Ps) (h : Kmalloc.Heap Paging.State) :
  After (processLoadKernelStack env ps) h fun r _ =>
    ∀ ps' ∈ r, SameIds ps ps' ∧ ps'.userMode = ps.userMode
  := by
  unfold processLoadKernelStack
  refine After.next ?_
  intro paddr h
  refine After.ite (fun _ => after_none h) ?_
  intro _
  refine After.next ?_
  intro vaddr h
  refine After.ite (fun _ => after_none h) ?_
  intro _
  refine After.next ?_
  intro mapped h
  refine After.ite (fun _ => after_none h) ?_
  intro _
  refine After.next ?_
  intro ele h
  refine After.ite (fun _ => after_none h) ?_
  intro _
  apply after_some
  exact ⟨⟨rfl, rfl, rfl⟩, rfl⟩

/-- What a program that goes on with a loaded process returns satisfies `Q`, when it fails after
failing to load it. -/
theorem after_loaded {P Q : Ps → Prop} {f : Kern (Option Ps)} {g : Option Ps → Kern (Option Ps)}
    {h : Kmalloc.Heap Paging.State} (hf : After f h fun r _ => ∀ ps ∈ r, P ps)
    (hnone : ∀ h, After (g none) h fun r _ => ∀ ps ∈ r, Q ps)
    (hsome : ∀ ps, P ps → ∀ h, After (g (some ps)) h fun r _ => ∀ ps ∈ r, Q ps) :
  After (f >>= g) h fun r _ => ∀ ps ∈ r, Q ps
  := by
  refine After.bind hf ?_
  rintro (_ | ps) h hps
  · apply hnone
  · apply hsome ps (hps ps rfl)

theorem after_delete {Q : Ps → Prop} (env : Env) (ps : Ps) (h : Kmalloc.Heap Paging.State) :
  After (do
    processDeleteAndFree env ps
    return none) h fun r _ => ∀ ps ∈ r, Q ps
  := by
  apply After.next
  intro _ h
  apply after_none

/-- What `process_clone` returns has the id, and belongs to the parent. -/
theorem processClone_spec (env : Env) (parent : Ps) (id : UInt32) (h : Kmalloc.Heap Paging.State) :
  After (processClone env parent id) h fun r _ =>
    ∀ new ∈ r, new.id = id ∧ new.parentId = parent.id ∧ new.userMode = parent.userMode
  := by
  unfold processClone
  refine After.next ?_
  intro addr h
  refine After.ite (fun _ => after_none h) ?_
  intro _
  refine after_loaded (processLoadPdt_keeps _ h) (after_delete env _) ?_
  rintro child ⟨same, user⟩ h
  refine After.next ?_
  rintro ⟨ok, code⟩ h
  refine After.ite (fun _ => after_delete env _ h) ?_
  intro _
  refine After.next ?_
  rintro ⟨ok, stack⟩ h
  refine After.ite (fun _ => after_delete env _ h) ?_
  intro _
  refine after_loaded (processLoadKernelStack_keeps env _ h) (after_delete env _) ?_
  rintro child' ⟨same', user'⟩ h
  refine After.next ?_
  rintro (_ | fds) h
  · apply after_delete
  · apply after_some
    refine ⟨?_, ?_, ?_⟩
    · rw [same'.id, same.id]
      rfl
    · rw [same'.parentId, same.parentId]
    · rw [user', user]

theorem processLoadCode_keeps (env : Env) (ps : Ps) (path : List UInt8) (vaddr : UInt32)
    (h : Kmalloc.Heap Paging.State) :
  After (processLoadCode env ps path vaddr) h fun r _ =>
    ∀ ps' ∈ r, SameIds ps ps' ∧ ps'.userMode.cs = ps.userMode.cs
  := by
  have unmap : ∀ (v n : UInt32) (h : Kmalloc.Heap Paging.State), After (do
      let _ ← unmapKernelMemory env v n
      return none) h fun r _ => ∀ ps' ∈ r, SameIds ps ps' ∧ ps'.userMode.cs = ps.userMode.cs := by
    intro v n h
    apply After.next
    intro _ h
    apply after_none
  unfold processLoadCode
  apply After.next
  rintro (_ | node) h
  · apply after_none
  dsimp only
  cases env.vfs.fileSize node with
  | none => apply after_none
  | some fileSize =>
      refine After.next ?_
      intro paddr h
      refine After.ite (fun _ => after_none h) ?_
      intro _
      refine After.next ?_
      intro kernelVaddr h
      refine After.ite (fun _ => after_none h) ?_
      intro _
      refine After.next ?_
      intro mapped h
      refine After.ite (fun _ => unmap _ _ h) ?_
      intro _
      refine After.next ?_
      intro count h
      refine After.ite (fun _ => unmap _ _ h) ?_
      intro _
      refine After.next ?_
      intro _ h
      refine After.next ?_
      intro mapped h
      refine After.ite (fun _ => after_none h) ?_
      intro _
      refine After.next ?_
      intro ele h
      refine After.ite (fun _ => after_none h) ?_
      intro _
      apply after_some
      exact ⟨⟨rfl, rfl, rfl⟩, rfl⟩

theorem processLoadStack_keeps (env : Env) (ps : Ps) (h : Kmalloc.Heap Paging.State) :
  After (processLoadStack env ps) h fun r _ =>
    ∀ ps' ∈ r, SameIds ps ps' ∧ ps'.userMode.cs = ps.userMode.cs
  := by
  unfold processLoadStack
  refine After.next ?_
  intro paddr h
  refine After.ite (fun _ => after_none h) ?_
  intro _
  refine After.next ?_
  intro mapped h
  refine After.ite (fun _ => after_none h) ?_
  intro _
  refine After.next ?_
  intro ele h
  refine After.ite (fun _ => after_none h) ?_
  intro _
  apply after_some
  exact ⟨⟨rfl, rfl, rfl⟩, rfl⟩

/-- What `process_create` returns has the id, no parent, and starts in user mode. -/
theorem processCreate_spec (env : Env) (path : List UInt8) (id : UInt32)
    (h : Kmalloc.Heap Paging.State) :
  After (processCreate env path id) h fun r _ =>
    ∀ new ∈ r, new.id = id ∧ new.parentId = 0 ∧ new.current = new.userMode ∧
      new.userMode.cs = userCs
  := by
  unfold processCreate
  refine After.next ?_
  intro addr h
  refine After.ite (fun _ => after_none h) ?_
  intro _
  refine after_loaded (processLoadPdt_keeps _ h) (after_delete env _) ?_
  rintro ps₁ ⟨same₁, user₁⟩ h
  refine after_loaded (processLoadCode_keeps env _ path 0 h) (after_delete env _) ?_
  rintro ps₂ ⟨same₂, user₂⟩ h
  refine after_loaded (processLoadStack_keeps env _ h) (after_delete env _) ?_
  rintro ps₃ ⟨same₃, user₃⟩ h
  refine after_loaded (processLoadKernelStack_keeps env _ h) (after_delete env _) ?_
  rintro ps₄ ⟨same₄, user₄⟩ h
  apply after_some
  refine ⟨?_, ?_, rfl, ?_⟩
  · rw [same₄.id, same₃.id, same₂.id, same₁.id]
    rfl
  · rw [same₄.parentId, same₃.parentId, same₂.parentId, same₁.parentId]
    rfl
  · rw [user₄, user₃, user₂, user₁]
    rfl

/-- What `process_create_replacement` returns has the ids of the old process, and starts in user mode. -/
theorem processCreateReplacement_spec (env : Env) (old : Ps) (path : List UInt8)
    (h : Kmalloc.Heap Paging.State) :
  After (processCreateReplacement env old path) h fun r _ =>
    ∀ new ∈ r, new.id = old.id ∧ new.parentId = old.parentId ∧ new.current = new.userMode ∧
      new.userMode.cs = userCs
  := by
  unfold processCreateReplacement
  refine after_loaded (processCreate_spec env path old.id h) after_none ?_
  rintro child ⟨hid, -, hcurrent, hcs⟩ h
  refine After.next ?_
  rintro (_ | fds) h
  · apply after_delete
  · apply after_some
    exact ⟨hid, rfl, hcurrent, hcs⟩

/-- What `process_clone` returns is a clone, when `kmalloc` has returned an address that is not in use. -/
theorem processClone_isClone (env : Env) (s : System) (parent : Ps) (id : UInt32)
    (h : Kmalloc.Heap Paging.State) :
  After (processClone env parent id) h fun r _ =>
    ∀ new ∈ r, new.addr ∉ s.addrs → isClone s parent id new
  := by
  refine (processClone_spec env parent id h).mono ?_
  intro r _ hr new hnew haddr
  obtain ⟨hid, hparent, huser⟩ := hr new hnew
  simp [isClone, hid, hparent, huser, haddr]

/-- What `process_create_replacement` returns is a replacement, when `kmalloc` has returned an address
that is not in use. -/
theorem processCreateReplacement_isReplacement (env : Env) (s : System) (old : Ps) (path : List UInt8)
    (h : Kmalloc.Heap Paging.State) :
  After (processCreateReplacement env old path) h fun r _ =>
    ∀ new ∈ r, new.addr ∉ s.addrs → isReplacement s old new
  := by
  refine (processCreateReplacement_spec env old path h).mono ?_
  intro r _ hr new hnew haddr
  obtain ⟨hid, hparent, hcurrent, hcs⟩ := hr new hnew
  simp [isReplacement, hid, hparent, hcurrent, hcs, haddr]

/-! ### The linked list -/

section Lists

/-- A process as the linked list sees it: its address, and its id. -/
abbrev Entry := UInt32 × UInt32

def entry (ps : Ps) : Option Entry := some (ps.addr, ps.id)

/-- A call that changes the linked list. -/
inductive Call where
  | op (op : Op Entry)
  /-- `scheduler_remove_process` of the only process -/
  | removeOnly (shouldDelete : Bool)
  /-- the first store of `scheduler_add_process`, through `last` -/
  | link (last ele : Ptr) (ps : Ps)
  /-- the second store of `scheduler_add_process` -/
  | moveEnd (ele : Ptr)

variable {K : Type} (processDelete : Entry → K → K)

/-- Taking out the only element: what `unlink` does, with the store through `prev` made in the first page
of the process. -/
def unlinkOnly (σ : State Entry K) (shouldDelete : Bool) : Except Pointer.Fault (State Entry K) := do
  let c ← Pointer.readCell σ.mem σ.pss.start
  return {
    mem := fun a => if σ.pss.start = some a then none else σ.mem a
    pss := ⟨c.next, none⟩
    kernel := deleteRemoved processDelete shouldDelete c.ps σ.kernel }

/-- The linked list after a call, with searches limited to `n` rounds. -/
def perform (n : ℕ) (σ : State Entry K) : Call → Option (Except Pointer.Fault (State Entry K))
  | .op op => exec Prod.snd processDelete n σ op
  | .removeOnly shouldDelete => some (unlinkOnly processDelete σ shouldDelete)
  | .link last ele ps => some (linkProcess σ (some last) ele (entry ps))
  | .moveEnd ele => some (.ok (moveEnd σ ele))

/-- `kmalloc` has returned an element that was not in use. -/
def Call.Fresh (σ : State Entry K) : Call → Prop
  | .op o => Scheduler.Fresh σ o
  | .link _ ele _ => σ.mem ele = none
  | _ => True

/-- The calls return one after the other, as long as `kmalloc` returns elements that are not in use, and
what they leave satisfies `Q`. -/
def Performs (Q : State Entry K → Prop) : State Entry K → List Call → Prop
  | σ, [] => Q σ
  | σ, call :: calls => call.Fresh σ →
      ∃ n σ', perform processDelete n σ call = some (.ok σ') ∧ Performs Q σ' calls

variable {processDelete}

theorem Performs.append {Q R : State Entry K → Prop} {σ : State Entry K} {xs ys : List Call}
    (h : Performs processDelete R σ xs) (hrest : ∀ σ, R σ → Performs processDelete Q σ ys) :
  Performs processDelete Q σ (xs ++ ys)
  := by
  induction xs generalizing σ with
  | nil => exact hrest σ h
  | cons x xs ih =>
      intro hfresh
      obtain ⟨n, σ', hperform, h'⟩ := h hfresh
      exact ⟨n, σ', hperform, ih h'⟩

end Lists

/-! ### The calls of a step -/

/-- The current process is taken out. -/
def removeCalls (t : Thread) (ts : List Thread) (shouldDelete : Bool) : Call :=
  if ts = [] then .removeOnly shouldDelete else .op (.remove t.ps.id shouldDelete)

/-- The calls in an event of the system, when no insertion is divided. -/
def systemCalls (s : System) (t : Thread) (ts : List Thread) (ele : Ptr) : Event → List Call
  | .tick => if endsSlice s then [.op .rotate] else []
  | .yield => [.op .rotate]
  | .poll => if schedulerHasAnyChildTerminated s t.ps then [] else [.op .rotate]
  | .execve new true => [removeCalls t ts true, .op (.add ele (entry new)), .op .rotate]
  | .execve _ false => [removeCalls t ts true, .op .rotate]
  | .exit _ => [removeCalls t ts false, .op .rotate]
  | _ => []

/-- The elements of the runnable processes. -/
def Inserting.eles (m : Inserting) : List Ptr := m.sys.runnable.map m.threadEle

/-- The calls in a step of the current process `t`.  A store through an element that is not on the list
does not change it. -/
def Inserting.calls (m : Inserting) (t : Thread) (ts : List Thread) : InsertEvent → List Call
  | .system e ele => if (m.tears e).isSome then [.op .rotate] else systemCalls m.sys t ts ele e
  | .readEnd _ => []
  | .link =>
    match t.phase, m.pending t.ps.addr with
    | .adding child, some (ele, last) => if last ∈ m.eles then [.link last ele child] else []
    | _, _ => []
  | .moveEnd => ((m.pending t.ps.addr).map fun p => Call.moveEnd p.1).toList

/-- The calls in a step. -/
def stepCalls (x : InsertStep) : List Call :=
  match x.before.sys.runnable with
  | [] => []
  | t :: ts => x.before.calls t ts x.event

/-- The element that has been linked. -/
def Inserting.linkedEle (m : Inserting) : Option Ptr :=
  match m.linked, m.sys.runnable with
  | some _, t :: _ => (m.pending t.ps.addr).map Prod.fst
  | _, _ => none

/-- The linked list holds the runnable processes and the child that is linked.  When it is not torn, they
are in their elements, and the end is the element of the last runnable process. -/
def Holds {K : Type} (m : Inserting) (σ : State Entry K) : Prop :=
  ∃ as, ChainOf σ as (m.chain.map entry) ∧
    (m.torn = false → as = m.eles ++ m.linkedEle.toList ∧ σ.pss.endEle = m.eles.getLast?)

/-! ### The operations -/

section Operations

variable {K : Type} {processDelete : Entry → K → K} {Q : State Entry K → Prop} {σ : State Entry K}
  {g : UInt32 → Ptr} {t : Thread} {ts : List Thread} {calls : List Call}

/-- The linked list holds the processes, each in its element. -/
def Stored (σ : State Entry K) (g : UInt32 → Ptr) (ts : List Thread) : Prop :=
  ListOf σ (ts.map fun t => g t.ps.addr) ((ts.map Thread.ps).map entry)

theorem performs_cons {call : Call} {n : ℕ} {σ' : State Entry K}
    (h : perform processDelete n σ call = some (.ok σ')) (hrest : Performs processDelete Q σ' calls) :
  Performs processDelete Q σ (call :: calls)
  := fun _ => ⟨n, σ', h, hrest⟩

theorem Stored.same {t' : Thread} (h : Stored σ g (t :: ts)) (same : t.Same t') :
  Stored σ g (t' :: ts)
  := by
  rw [Stored, List.map_cons, List.map_cons, List.map_cons, entry, same.addr, same.id]
  apply h

theorem Stored.congr {g' : UInt32 → Ptr} (h : Stored σ g ts) (hg : ∀ t ∈ ts, g' t.ps.addr = g t.ps.addr) :
  Stored σ g' ts
  := by
  rw [Stored, List.map_congr_left hg]
  apply h

/-- `scheduler_schedule` rotates the list. -/
theorem performs_schedule (h : Stored σ g ts)
    (hrest : ∀ σ', Stored σ' g (rotate ts) → Performs processDelete Q σ' calls) :
  Performs processDelete Q σ (.op .rotate :: calls)
  := by
  obtain ⟨σ', hσ', as', hlist, has⟩ := schedulerGetAndRotateRunnableProcess_spec h
  have hperform : perform processDelete 0 σ (.op .rotate) = some (.ok σ') := by
    simp [perform, exec, hσ']
  apply performs_cons hperform
  apply hrest
  cases ts with
  | nil =>
      obtain rfl : as' = [] := by simpa [rotateList] using hlist.cells
      exact hlist
  | cons t ts =>
      obtain rfl := has rfl
      simpa [Stored, rotate, entry, rotateList] using hlist

/-- The current process is taken out. -/
theorem performs_remove (h : Stored σ g (t :: ts)) (shouldDelete : Bool)
    (hrest : ∀ σ', Stored σ' g ts → Performs processDelete Q σ' calls) :
  Performs processDelete Q σ (removeCalls t ts shouldDelete :: calls)
  := by
  rw [removeCalls]
  split
  case isTrue hts =>
    subst hts
    obtain ⟨c, hc⟩ := h.exists_cell (a := g t.ps.addr) (by simp)
    have hnext : c.next = none := by simpa [nextOf, hc] using h.chain.2
    have hstart : σ.pss.start = some (g t.ps.addr) := h.chain.1
    have hperform : perform processDelete 0 σ (.removeOnly shouldDelete)
        = some (unlinkOnly processDelete σ shouldDelete) := rfl
    rw [unlinkOnly, hstart, Pointer.readCell_some hc, Pointer.ok_bind] at hperform
    apply performs_cons hperform
    apply hrest
    exact ⟨hnext, rfl, rfl, List.nodup_nil⟩
  case isFalse hts =>
    obtain ⟨σ', hσ', hlist⟩ : ∃ σ', schedulerRemoveProcess Prod.snd processDelete 1 σ t.ps.id shouldDelete
        = some (.ok (0, σ')) ∧ Stored σ' g ts :=
      schedulerRemoveProcess_head processDelete h (by simpa using hts) shouldDelete
    have hperform : perform processDelete 1 σ (.op (.remove t.ps.id shouldDelete)) = some (.ok σ') := by
      rw [perform, exec, hσ']
      rfl
    apply performs_cons hperform
    exact hrest σ' hlist

/-- A process is put behind the others. -/
theorem performs_add {new : Ps} {ele : Ptr} (h : Stored σ g ts) (hnew : ∀ t ∈ ts, t.ps.addr ≠ new.addr)
    (hrest : ∀ σ', Stored σ' (Function.update g new.addr ele) (ts ++ [⟨new, .user⟩]) →
      Performs processDelete Q σ' calls) :
  Performs processDelete Q σ (.op (.add ele (entry new)) :: calls)
  := by
  intro hfresh
  obtain ⟨σ', hσ', hlist⟩ := schedulerAddProcess_spec h hfresh (entry new)
  refine ⟨0, σ', by simp [perform, exec, hσ'], hrest σ' ?_⟩
  have hg : ∀ t ∈ ts, Function.update g new.addr ele t.ps.addr = g t.ps.addr := fun t ht =>
    Function.update_of_ne (hnew t ht) ..
  rw [Stored, List.map_append, List.map_append, List.map_append, List.map_congr_left hg]
  simpa using hlist

end Operations

/-! ### Steps -/

section Steps

variable {code : Code} {K : Type} {processDelete : Entry → K → K} {σ : State Entry K}
  {m m' : Inserting} {t : Thread} {ts : List Thread} {o : Effect}

/-- The linked list when no child is linked. -/
theorem holds_iff_stored (hlinked : m.linked = none) (htorn : m.torn = false) :
  Holds m σ ↔ Stored σ m.eleOf m.sys.runnable
  := by
  have hchain : m.chain.map entry = (m.sys.runnable.map Thread.ps).map entry := by
    simp [Inserting.chain, hlinked, System.pss]
  have hele : m.linkedEle = none := by simp [Inserting.linkedEle, hlinked]
  rw [Holds, hchain, hele]
  constructor
  · rintro ⟨as, hlist, has⟩
    obtain ⟨rfl, hend⟩ := has htorn
    simp only [Option.toList_none, List.append_nil] at hlist
    exact ⟨hlist.chain, hend, hlist.cells, hlist.nodup⟩
  · intro h
    exact ⟨m.eles, h.chainOf, fun _ => ⟨by simp, h.endEle_eq⟩⟩

/-- An event of the system that takes no process out and adds none leaves the list as it is, or rotates
it. -/
theorem systemCalls_cases {s s' : System} {e : Event} (hs : s.runnable = t :: ts)
    (h : step code s e = some (o, s')) (hadd : e ≠ .addRunnable true)
    (hexecve : ∀ new ele, e ≠ .execve new ele) (hexit : ∀ ele, e ≠ .exit ele) (ele : Ptr) :
  ∃ t', t.Same t' ∧ (s'.runnable = t' :: ts ∧ systemCalls s t ts ele e = [] ∨
    s'.runnable = rotate (t' :: ts) ∧ systemCalls s t ts ele e = [.op .rotate])
  := by
  obtain ⟨u, us, hs', hstep⟩ := stepOf_of_step h
  obtain ⟨rfl, rfl⟩ := List.cons.inj (hs.symm.trans hs')
  cases e with
  | compute c =>
      simp only [stepOf] at hstep
      split at hstep
      case isFalse => simp at hstep
      obtain ⟨rfl, rfl⟩ := Prod.mk.inj (Option.some.inj hstep)
      exact ⟨t, .rfl, Or.inl ⟨hs, rfl⟩⟩
  | tick =>
      rw [stepOf_tick, schedulerHandlePitInterrupt] at hstep
      split at hstep
      case isFalse => simp at hstep
      by_cases hslice : s.ms + schedulerPitInterval ≥ schedulerTimeSlice
      · rw [if_pos hslice] at hstep
        obtain ⟨rfl, rfl⟩ := Prod.mk.inj (Option.some.inj hstep)
        refine ⟨_, same_updateRegisters t _ _, Or.inr ⟨(schedulerSchedule_spec code _).1.rotated, ?_⟩⟩
        simp [systemCalls, endsSlice, hslice]
      · rw [if_neg hslice] at hstep
        obtain ⟨rfl, rfl⟩ := Prod.mk.inj (Option.some.inj hstep)
        refine ⟨t, .rfl, Or.inl ⟨hs, ?_⟩⟩
        simp [systemCalls, endsSlice, hslice]
  | enter =>
      simp only [stepOf] at hstep
      split at hstep
      case isFalse => simp at hstep
      obtain ⟨rfl, rfl⟩ := Prod.mk.inj (Option.some.inj hstep)
      obtain ⟨t', same, -, hrunnable⟩ := enterSyscall_runnable code s t ts
      exact ⟨t', same, Or.inl ⟨hrunnable, rfl⟩⟩
  | leave eax =>
      simp only [stepOf] at hstep
      split at hstep
      case isFalse => simp at hstep
      obtain ⟨rfl, rfl⟩ := Prod.mk.inj (Option.some.inj hstep)
      obtain ⟨t', same, -, hrunnable⟩ := leaveSyscall_runnable code s t ts eax
      exact ⟨t', same, Or.inl ⟨hrunnable, rfl⟩⟩
  | yield =>
      simp only [stepOf, sysYield] at hstep
      split at hstep
      case isFalse => simp at hstep
      obtain ⟨rfl, rfl⟩ := Prod.mk.inj (Option.some.inj hstep)
      refine ⟨_, .registers _ _ .user, Or.inr ⟨(schedulerSchedule_spec code _).1.rotated, rfl⟩⟩
  | nextPid =>
      simp only [stepOf] at hstep
      split at hstep
      case isFalse => simp at hstep
      obtain ⟨rfl, rfl⟩ := Prod.mk.inj (Option.some.inj hstep)
      exact ⟨_, .rfl, Or.inl ⟨rfl, rfl⟩⟩
  | clone new =>
      rw [stepOf_clone] at hstep
      split at hstep
      case h_1 =>
        obtain ⟨rfl, rfl⟩ := Prod.mk.inj (Option.some.inj hstep)
        obtain ⟨t', same, -, hrunnable⟩ := leaveSyscall_runnable code s t ts (-1)
        exact ⟨t', same, Or.inl ⟨hrunnable, rfl⟩⟩
      case h_2 =>
        split at hstep
        case isFalse => simp at hstep
        obtain ⟨rfl, rfl⟩ := Prod.mk.inj (Option.some.inj hstep)
        exact ⟨_, .rfl, Or.inl ⟨rfl, rfl⟩⟩
      case h_3 => simp at hstep
  | addRunnable ok =>
      obtain ⟨child, t', -, same, -, hrunnable, -⟩ := addRunnable_spec hstep
      cases ok with
      | true => exact absurd rfl hadd
      | false => exact ⟨t', same, Or.inl ⟨hrunnable, rfl⟩⟩
  | execve new ok => exact absurd rfl (hexecve new ok)
  | exit ok => exact absurd rfl (hexit ok)
  | wait =>
      rw [stepOf_wait] at hstep
      split at hstep
      case isFalse => simp at hstep
      split at hstep
      · obtain ⟨rfl, rfl⟩ := Prod.mk.inj (Option.some.inj hstep)
        obtain ⟨t', same, -, hrunnable⟩ := leaveSyscall_runnable code s t ts (-1)
        exact ⟨t', same, Or.inl ⟨hrunnable, rfl⟩⟩
      · obtain ⟨rfl, rfl⟩ := Prod.mk.inj (Option.some.inj hstep)
        exact ⟨_, .rfl, Or.inl ⟨rfl, rfl⟩⟩
  | poll =>
      rw [stepOf_poll] at hstep
      split at hstep
      case isFalse => simp at hstep
      split at hstep
      case isTrue hone =>
        obtain ⟨rfl, rfl⟩ := Prod.mk.inj (Option.some.inj hstep)
        obtain ⟨t', same, -, hrunnable⟩ := leaveSyscall_runnable code s t ts 0
        exact ⟨t', same, Or.inl ⟨hrunnable, by simp [systemCalls, hone]⟩⟩
      case isFalse hnone =>
        obtain ⟨rfl, rfl⟩ := Prod.mk.inj (Option.some.inj hstep)
        refine ⟨_, .registers _ _ .waiting, Or.inr ⟨(schedulerSchedule_spec code _).1.rotated, ?_⟩⟩
        simp [systemCalls, hnone]

/-- An event of the system when no child is linked. -/
theorem performs_system {e : Event} {ele : Ptr} {s' : System} (hs : m.sys.runnable = t :: ts)
    (hnodup : m.sys.addrs.Nodup) (hlinked : m.linked = none) (htorn : m.torn = false)
    (undivided : m.divided t e = false) (h : step code m.sys e = some (o, s')) (hσ : Holds m σ) :
  Performs processDelete (Holds { m with sys := s', eleOf := m.placed t ele e }) σ
    (systemCalls m.sys t ts ele e)
  := by
  have hstored : Stored σ m.eleOf (t :: ts) := by
    rw [← hs]
    exact (holds_iff_stored hlinked htorn).mp hσ
  have hholds : ∀ (g : UInt32 → Ptr) (us : List Thread) (σ' : State Entry K), s'.runnable = us →
      m.placed t ele e = g → Stored σ' g us → Holds { m with sys := s', eleOf := m.placed t ele e } σ' := by
    rintro g us σ' rfl rfl hσ'
    refine (holds_iff_stored ?_ ?_).mpr hσ'
    · exact hlinked
    · exact htorn
  obtain ⟨u, us, hs', hstep⟩ := stepOf_of_step h
  obtain ⟨rfl, rfl⟩ := List.cons.inj (hs.symm.trans hs')
  have haddrs := nodup_listed hnodup
  rw [pss_addr_eq, hs, List.map_cons, List.cons_append, List.nodup_cons] at haddrs
  have hkept : (∀ new ok, e ≠ .execve new ok) → (∀ ok, e ≠ .exit ok) → e ≠ .addRunnable true →
      Performs processDelete (Holds { m with sys := s', eleOf := m.placed t ele e }) σ
        (systemCalls m.sys t ts ele e) := by
    intro hexecve hexit hadd
    have hplaced : m.placed t ele e = m.eleOf := by
      cases e with
      | execve new ok => exact absurd rfl (hexecve new ok)
      | exit ok => exact absurd rfl (hexit ok)
      | compute | tick | enter | leave | yield | nextPid | clone | addRunnable | wait | poll => rfl
    obtain ⟨t', same, ⟨hrunnable, hcalls⟩ | ⟨hrunnable, hcalls⟩⟩ :=
      systemCalls_cases hs h hadd hexecve hexit ele
    · rw [hcalls]
      exact hholds _ _ σ hrunnable hplaced (hstored.same same)
    · rw [hcalls]
      apply performs_schedule (hstored.same same)
      intro σ' hσ'
      exact hholds _ _ σ' hrunnable hplaced hσ'
  cases e with
  | execve new ok =>
      obtain ⟨p, -, hnew, hdispatch, -, -⟩ := execve_spec hstep
      cases ok with
      | false =>
          apply performs_remove hstored
          intro σ' hσ'
          apply performs_schedule hσ'
          intro σ' hσ'
          exact hholds _ _ σ' hdispatch.rotated rfl hσ'
      | true =>
          apply performs_remove hstored
          intro σ' hσ'
          have hfree : ∀ v ∈ ts, v.ps.addr ≠ new.addr := by
            rintro v hv heq
            apply (addr_of_isReplacement hnew).2.2
            rw [← heq, addrs_eq, hs]
            apply List.mem_append_left
            apply (map_addr_sublist _).subset
            exact List.mem_map_of_mem (List.mem_cons_of_mem t hv)
          apply performs_add hσ' hfree
          intro σ' hσ'
          apply performs_schedule hσ'
          intro σ' hσ'
          exact hholds _ _ σ' hdispatch.rotated rfl hσ'
  | exit ok =>
      obtain ⟨p, -, hdispatch, -, -⟩ := exit_spec hstep
      apply performs_remove hstored
      intro σ' hσ'
      apply performs_schedule hσ'
      intro σ' hσ'
      apply hholds _ _ σ' hdispatch.rotated rfl
      apply hσ'.congr
      intro v hv
      have hne : v.ps.addr ≠ t.ps.addr := by
        rintro heq
        apply haddrs.1
        rw [← heq]
        apply List.mem_append_left
        exact List.mem_map_of_mem ((rotate_perm ts).mem_iff.mp hv)
      cases ok with
      | false => rfl
      | true => exact Function.update_of_ne hne ..
  | addRunnable ok =>
      cases ok with
      | true => simp [Inserting.divided] at undivided
      | false => exact hkept (by simp) (by simp) (by simp)
  | compute | tick | enter | leave | yield | nextPid | clone | wait | poll =>
      exact hkept (by simp) (by simp) (by simp)

/-- An event of the system when a child is linked, and no time slice ends. -/
theorem calls_of_adding {e : Event} {ele : Ptr} {child : Ps} {s' : System}
    (hs : m.sys.runnable = t :: ts) (hphase : t.phase = .adding child) (hlinked : m.linked = some child)
    (undivided : m.divided t e = false) (whole : m.tears e = none)
    (h : step code m.sys e = some (o, s')) :
  systemCalls m.sys t ts ele e = [] ∧ m.placed t ele e = m.eleOf
  := by
  cases e with
  | tick =>
      have hslice : endsSlice m.sys = false := by simpa [Inserting.tears, hlinked] using whole
      simp [systemCalls, hslice, Inserting.placed]
  | compute | enter | leave | nextPid | clone | addRunnable | wait => exact ⟨rfl, rfl⟩
  | yield | execve | exit | poll => simp [step, hs, stepOf, hphase] at h

/-- The list holds the same when the runnable processes, their elements and the child that is linked are
the same. -/
theorem holds_of_eq (hσ : Holds m σ) (hrunnable : m'.sys.runnable = m.sys.runnable)
    (heles : m'.eleOf = m.eleOf) (hlinked : m'.linked = m.linked)
    (hele : m'.linkedEle = m.linkedEle) (htorn : m'.torn = m.torn) :
  Holds m' σ
  := by
  have heles' : m'.eles = m.eles := by
    rw [Inserting.eles, Inserting.eles, hrunnable]
    simp [Inserting.threadEle, heles]
  rw [Holds, Inserting.chain, System.pss, hrunnable, hlinked, heles', hele, htorn]
  exact hσ

/-- The element that is linked is in the list. -/
theorem exists_linkedEle {child : Ps} (hσ : Holds m σ) (htorn : m.torn = false)
    (hlinked : m.linked = some child) :
  ∃ ele, m.linkedEle = some ele ∧ σ.pss.endEle = m.eles.getLast? ∧
    ChainOf σ (m.eles ++ [ele]) (m.sys.pss.map entry ++ [entry child])
  := by
  obtain ⟨as, hlist, has⟩ := hσ
  obtain ⟨rfl, hend⟩ := has htorn
  have hchain : m.chain.map entry = m.sys.pss.map entry ++ [entry child] := by
    simp [Inserting.chain, hlinked]
  rw [hchain] at hlist
  cases hele : m.linkedEle with
  | none =>
      have hlen := congrArg List.length hlist.cells
      simp [hele, Inserting.eles, System.pss] at hlen
  | some ele =>
      rw [hele] at hlist
      exact ⟨ele, rfl, hend, hlist⟩

/-- The end of a time slice between the two stores. -/
theorem performs_tear {child : Ps} {t' : Thread} {s' : System} (hs : m.sys.runnable = t :: ts)
    (htorn : m.torn = false) (hlinked : m.linked = some child) (same : t.Same t')
    (runnable : s'.runnable = rotateLinked ⟨child, .user⟩ (t' :: ts)) (hσ : Holds m σ) :
  Performs processDelete (Holds { m with sys := s', linked := none, torn := true }) σ [.op .rotate]
  := by
  obtain ⟨ele, -, hend, hlist⟩ := exists_linkedEle hσ htorn hlinked
  rw [Inserting.eles, System.pss, hs, List.map_cons, List.map_cons, List.map_cons] at hlist
  rw [Inserting.eles, hs] at hend
  obtain ⟨σ', hσ', as', hlist'⟩ := rotate_linked_spec hlist hend
  have hperform : perform processDelete 0 σ (.op .rotate) = some (.ok σ') := by
    simp [perform, exec, hσ']
  apply performs_cons hperform
  refine ⟨as', ?_, by simp⟩
  have hsame : entry t'.ps = entry t.ps := by rw [entry, entry, same.addr, same.id]
  have hentries : s'.pss.map entry
      = rotateLinked (entry child) (entry t.ps :: (ts.map Thread.ps).map entry) := by
    rw [System.pss, runnable, map_rotateLinked, map_rotateLinked, List.map_cons, List.map_cons, hsame]
  simp only [Inserting.chain, Option.toList_none, List.append_nil]
  rw [hentries]
  exact hlist'

/-- The first store, through the element of the process `u`. -/
theorem linkProcess_stored {pre post : List Thread} {u : Thread} {ele : Ptr} {child : Ps}
    (h : Stored σ m.eleOf (pre ++ u :: post)) (hfresh : σ.mem ele = none) :
  ∃ σ', linkProcess σ (some (m.threadEle u)) ele (entry child) = .ok σ' ∧ σ'.pss = σ.pss ∧
    ChainOf σ' ((pre ++ [u]).map m.threadEle ++ [ele])
      (((pre ++ [u]).map Thread.ps ++ [child]).map entry)
  := by
  rw [Stored, List.map_append, List.map_cons, List.map_append, List.map_append, List.map_cons,
    List.map_cons] at h
  obtain ⟨σ', hσ', hlist, hpss⟩ := linkProcess_spec h (by simp) hfresh (entry child)
  refine ⟨σ', hσ', hpss, ?_⟩
  rw [List.map_append, List.map_append, List.map_append, List.map_append]
  exact hlist

theorem linkedEle_eq {m : Inserting} {t : Thread} {ts : List Thread} {child : Ps} {ele last : Ptr}
    (hs : m.sys.runnable = t :: ts) (linked : m.linked = some child)
    (pending : m.pending t.ps.addr = some (ele, last)) :
  m.linkedEle = some ele
  := by
  simp [Inserting.linkedEle, linked, hs, pending]

/-- The first store, through the last element. -/
theorem performs_link {child : Ps} {ele last : Ptr} (hs : m.sys.runnable = t :: ts) (htorn : m.torn = false)
    (pending : m.pending t.ps.addr = some (ele, last)) (linked : m.linked = none)
    (stays : m.lastEle (t :: ts) = some last) (hσ : Holds m σ) :
  Performs processDelete (Holds { m with linked := some child }) σ [.link last ele child]
  := by
  have hstored := (holds_iff_stored linked htorn).mp hσ
  have hend := hstored.endEle_eq
  obtain ⟨us, u, hus⟩ := (List.eq_nil_or_concat' m.sys.runnable).resolve_left (by simp [hs])
  obtain rfl : m.threadEle u = last := by simpa [Inserting.lastEle, ← hs, hus] using stays
  rw [hus] at hstored
  intro hfresh
  obtain ⟨σ', hσ', hpss, hlist⟩ := linkProcess_stored hstored hfresh
  rw [← hus] at hlist
  have hele : Inserting.linkedEle { m with linked := some child } = some ele := by
    apply linkedEle_eq
    · exact hs
    · rfl
    · exact pending
  refine ⟨0, σ', by rw [perform, hσ'], _, hlist, ?_⟩
  intro _
  rw [hele, hpss]
  exact ⟨rfl, hend⟩

/-- The first store, through an element that is not the last. -/
theorem performs_cut {child : Ps} {ele last : Ptr} (htorn : m.torn = false) (linked : m.linked = none)
    (hσ : Holds m σ) :
  Performs processDelete (Holds { m with sys := m.cut last child, torn := true }) σ
    (if last ∈ m.eles then [.link last ele child] else [])
  := by
  have hstored := (holds_iff_stored linked htorn).mp hσ
  have hchain : Inserting.chain { m with sys := m.cut last child, torn := true } =
      (linkBehind (fun t => m.threadEle t == last) ⟨child, .user⟩ m.sys.runnable).map Thread.ps := by
    simp [Inserting.chain, linked, System.pss, Inserting.cut]
  rcases exists_behind (fun t => m.threadEle t == last) m.sys.runnable with
    ⟨pre, u, post, hsplit, hu, hpre⟩ | hnone
  · rw [hsplit, linkBehind_append (p := fun t => m.threadEle t == last) hu hpre,
      List.map_append] at hchain
    obtain rfl : m.threadEle u = last := by simpa using hu
    have hmem : m.threadEle u ∈ m.eles := List.mem_map_of_mem (by simp [hsplit])
    rw [if_pos hmem]
    rw [hsplit] at hstored
    intro hfresh
    obtain ⟨σ', hσ', -, hlist⟩ := linkProcess_stored hstored hfresh
    refine ⟨0, σ', by rw [perform, hσ'], (pre ++ [u]).map m.threadEle ++ [ele], ?_, by simp⟩
    rw [hchain]
    exact hlist
  · have hnot : last ∉ m.eles := by simpa [Inserting.eles] using hnone
    rw [linkBehind_of_notMem hnone] at hchain
    rw [if_neg hnot]
    refine ⟨m.eles, ?_, by simp⟩
    rw [hchain]
    exact hstored.chainOf

/-- The second store. -/
theorem performs_moveEnd {child : Ps} {ele last : Ptr} {s' : System} (hs : m.sys.runnable = t :: ts)
    (hnodup : m.sys.addrs.Nodup) (htorn : m.torn = false) (hphase : t.phase = .adding child)
    (linked : m.linked = some child) (pending : m.pending t.ps.addr = some (ele, last))
    (h : step code m.sys (.addRunnable true) = some (o, s')) (hσ : Holds m σ) :
  Performs processDelete (Holds ⟨s', Function.update m.eleOf child.addr ele,
    Function.update m.pending t.ps.addr none, none, false⟩) σ [.moveEnd ele]
  := by
  obtain ⟨ele', hele, -, hlist⟩ := exists_linkedEle hσ htorn linked
  obtain rfl : ele = ele' := Option.some.inj ((linkedEle_eq hs linked pending).symm.trans hele)
  obtain ⟨u, us, hs', hstep⟩ := stepOf_of_step h
  obtain ⟨rfl, rfl⟩ := List.cons.inj (hs.symm.trans hs')
  obtain ⟨child', t', hphase', same, -, hrunnable, -, -⟩ := addRunnable_spec hstep
  obtain rfl : child = child' := Phase.adding.inj (hphase.symm.trans hphase')
  rw [addProcess, if_pos rfl] at hrunnable
  have hnew := child_notMem hnodup hs hphase
  rw [pss_addr_eq, List.mem_append, not_or] at hnew
  have heles : ∀ v ∈ m.sys.runnable, Function.update m.eleOf child.addr ele v.ps.addr = m.eleOf v.ps.addr := by
    intro v hv
    apply Function.update_of_ne
    rintro heq
    apply hnew.1
    rw [← heq]
    exact List.mem_map_of_mem hv
  have hstored : Stored (moveEnd σ ele) (Function.update m.eleOf child.addr ele)
      (m.sys.runnable ++ [⟨child, .user⟩]) := by
    rw [Stored, List.map_append, List.map_append, List.map_append, List.map_congr_left heles]
    simp only [List.map_cons, List.map_nil, Function.update_self]
    exact ⟨hlist.chain, by simp [moveEnd], hlist.cells, hlist.nodup⟩
  apply performs_cons (n := 0) rfl
  apply (holds_iff_stored rfl rfl).mpr
  rw [hrunnable]
  rw [hs] at hstored
  exact hstored.same same

/-- When the linked list holds the runnable processes, the calls of a step return and leave a list that
holds those after the step. -/
theorem performs_step {e : InsertEvent} (h : m.step code e = some (o, m')) (hs : m.sys.runnable = t :: ts)
    (hnodup : m.sys.addrs.Nodup) (hlinked : m.Linked) (hσ : Holds m σ) :
  Performs processDelete (Holds m') σ (m.calls t ts e)
  := by
  obtain ⟨htorn, u, us, hs', hshape⟩ := insertShape_of_step h
  obtain ⟨rfl, rfl⟩ := List.cons.inj (hs.symm.trans hs')
  have hphase : ∀ child, m.linked = some child → t.phase = .adding child := by
    intro child hchild
    obtain ⟨v, vs, hs'', hphase⟩ := hlinked child hchild
    obtain ⟨rfl, rfl⟩ := List.cons.inj (hs.symm.trans hs'')
    exact hphase
  cases hshape with
  | @system e ele o s' undivided whole step =>
      rw [Inserting.calls, whole, if_neg (by simp)]
      rcases Option.eq_none_or_eq_some m.linked with hchild | ⟨child, hchild⟩
      · exact performs_system hs hnodup hchild htorn undivided step hσ
      · obtain ⟨hcalls, hplaced⟩ := calls_of_adding hs (hphase child hchild) hchild undivided whole step
        obtain ⟨-, hrunnable, -⟩ := step_of_linked hs (hphase child hchild) hchild undivided whole step
        rw [hcalls, hplaced]
        exact holds_of_eq hσ hrunnable rfl rfl (by simp [Inserting.linkedEle, hrunnable]) rfl
  | @tear child t' p ele s' slice linked same runnable zombies =>
      have htears : m.tears .tick = some child := by rw [Inserting.tears, if_pos slice, linked]
      rw [Inserting.calls, htears, Option.isSome_some, if_pos rfl]
      exact performs_tear hs htorn linked same runnable hσ
  | readEnd phase pending read =>
      -- a child that is linked would have its element
      have hnone : m.linked = none := by
        rw [Option.eq_none_iff_forall_not_mem]
        intro child hchild
        obtain ⟨ele, hele, -, -⟩ := exists_linkedEle hσ htorn hchild
        have hchild : m.linked = some child := hchild
        simp [Inserting.linkedEle, hchild, hs, pending] at hele
      exact holds_of_eq hσ rfl rfl rfl (by simp [Inserting.linkedEle, hnone]) rfl
  | @link child ele last phase pending linked stays =>
      obtain ⟨us, u, hus⟩ := (List.eq_nil_or_concat' m.sys.runnable).resolve_left (by simp [hs])
      have hmem : last ∈ m.eles := by
        rw [← hs, hus] at stays
        simp only [Inserting.lastEle, List.getLast?_concat, Option.map_some, Option.some.injEq] at stays
        simp [Inserting.eles, hus, stays]
      simp only [Inserting.calls, phase, pending, if_pos hmem]
      exact performs_link hs htorn pending linked stays hσ
  | cut phase pending linked moved =>
      simp only [Inserting.calls, phase, pending]
      exact performs_cut htorn linked hσ
  | @moveEnd child ele last o s' linked pending step =>
      simp only [Inserting.calls, pending]
      exact performs_moveEnd hs hnodup htorn (hphase child linked) linked pending step hσ

end Steps

/-! ### Runs -/

section Runs

variable {code : Code} {c : IA32.Cpu} {ms : UInt32} {ps : Ps} {ele : Ptr} {tr : List InsertStep}
  {m : Inserting} {K : Type} (processDelete : Entry → K → K) {σ : State Entry K}

/-- When the linked list holds `init`, the calls of every run return, and the list they leave holds the
processes that are runnable after the run. -/
theorem runs_refine (h : Runs (Inserting.step code) (.start (boot code c ms ps) ele) tr m)
    (hσ : ListOf σ [ele] [entry ps]) :
  Performs processDelete (Holds m) σ (tr.flatMap stepCalls)
  := by
  refine h.history (I := fun tr m => Runs (Inserting.step code) (.start (boot code c ms ps) ele) tr m ∧
    Performs processDelete (Holds m) σ (tr.flatMap stepCalls)) ⟨.nil, ?_⟩ ?_ |>.2
  · exact (holds_iff_stored rfl rfl).mpr hσ
  · rintro pre x hpre hstep ⟨hruns, hperforms⟩
    refine ⟨hruns.concat hstep, ?_⟩
    rw [List.flatMap_append]
    apply hperforms.append
    intro σ' hσ'
    obtain ⟨htorn, t, ts, hs, -⟩ := insertShape_of_step hstep
    obtain ⟨tr', hsys⟩ := runs_sys hruns htorn
    have hnodup : x.before.sys.addrs.Nodup := nodup_addrs_runs hsys (List.nodup_singleton ps.addr)
    have hcalls : [x].flatMap stepCalls = x.before.calls t ts x.event := by simp [stepCalls, hs]
    rw [hcalls]
    exact performs_step hstep hs hnodup (linked_runs hruns) hσ'

end Runs

end Scheduler
