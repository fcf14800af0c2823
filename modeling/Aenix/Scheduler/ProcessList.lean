import Aenix.Lib.Loop
import Aenix.Lib.Pointer

/-!
# The process lists of the scheduler

`scheduler.c` keeps its processes in singly linked lists with a pointer to the first and
one to the last element.  The operations follow the source pointer by pointer: reading or
writing through the null pointer, or through a pointer to an element that is not allocated,
is a fault.

`ListOf s as xs` says that the list of `s` consists of the elements at the addresses `as`
and holds the processes `xs`.  On lists the operations are appending, erasing the first
process with the given id, and rotation, with one exception: taking out the only element
writes through `prev`, which is then null.
-/

open Pointer

namespace Scheduler

/-- An address in the kernel's virtual memory. -/
abbrev Ptr := UInt32

/-- `struct ps_list_ele`.  The process pointer may be null. -/
structure PsListEle (P : Type) where
  next : Option Ptr
  ps : Option P

/-- `struct ps_list`. -/
structure PsList where
  start : Option Ptr
  endEle : Option Ptr

/-- A process list, the list elements that are allocated, and the rest of the kernel. -/
structure State (P K : Type) where
  mem : Ptr → Option (PsListEle P)
  pss : PsList
  kernel : K

variable {P K : Type}

/-- The empty list `{ NULL, NULL }`. -/
def empty (k : K) : State P K where
  mem _ := none
  pss := ⟨none, none⟩
  kernel := k

/-! ### The operations -/

/-- `scheduler_add_process`, where `ele` is what `kmalloc` returns. -/
def schedulerAddProcess (s : State P K) (ele : Option Ptr) (ps : Option P) :
    Except Fault (Int × State P K) :=
  match ele with
  | none => .ok (-1, s)
  | some e => do
    let mem := Function.update s.mem e (some ⟨none, ps⟩)
    match s.pss.start with
    | none => return (0, { s with mem := mem, pss := ⟨some e, some e⟩ })
    | some start =>
      let mem ← modifyCell mem s.pss.endEle fun c => { c with next := some e }
      return (0, { s with mem := mem, pss := ⟨some start, some e⟩ })

section Remove

variable (pid : P → UInt32) (processDelete : P → K → K)

/-- The test `current->ps != NULL && current->ps->id == pid`. -/
def hasPid (id : UInt32) (ps : Option P) : Bool :=
  ps.any fun p => pid p == id

/-- What happens to the process of a removed element.  `processDelete` stands for
`process_delete_resources` followed by `kfree` of the process. -/
def deleteRemoved (shouldDelete : Bool) (ps : Option P) (k : K) : K :=
  match shouldDelete, ps with
  | true, some p => processDelete p k
  | _, _ => k

/-- Taking the element `current` out of the list: the body of the test in
`scheduler_remove_process`. -/
def unlink (s : State P K) (shouldDelete : Bool) (prev : Option Ptr) (current : Ptr)
    (c : PsListEle P) : Except Fault (Int × State P K) := do
  let s ← match prev with
    | none => pure { s with pss := { s.pss with start := c.next } }
    | some _ =>
      let mem ← modifyCell s.mem prev fun e => { e with next := c.next }
      pure { s with mem := mem }
  let s ← if s.pss.endEle = some current then
      let mem ← modifyCell s.mem prev fun e => { e with next := none }
      pure { s with mem := mem, pss := { s.pss with endEle := prev } }
    else
      pure s
  return (0, { s with
    mem := Function.update s.mem current none
    kernel := deleteRemoved processDelete shouldDelete c.ps s.kernel })

/-- One round of the search of `scheduler_remove_process`, from `(prev, current)`. -/
def removeBody (s : State P K) (id : UInt32) (shouldDelete : Bool) :
    Option Ptr × Option Ptr → (Option Ptr × Option Ptr) ⊕ Except Fault (Int × State P K)
  | (_, none) => .inr (.ok (-1, s))
  | (prev, some current) =>
    match readCell s.mem (some current) with
    | .error e => .inr (.error e)
    | .ok c =>
      if hasPid pid id c.ps then
        .inr (unlink processDelete s shouldDelete prev current c)
      else
        .inl (some current, c.next)

/-- `scheduler_remove_process`, its search limited to `n` rounds. -/
def schedulerRemoveProcess (n : ℕ) (s : State P K) (id : UInt32) (shouldDelete : Bool) :
    Option (Except Fault (Int × State P K)) :=
  Loop.run (removeBody pid processDelete s id shouldDelete) n (none, s.pss.start)

end Remove

/-- `scheduler_get_and_rotate_runnable_process`. -/
def schedulerGetAndRotateRunnableProcess (s : State P K) :
    Except Fault (Option P × State P K) :=
  match s.pss.start with
  | none => .ok (none, s)
  | some start => do
    let c ← readCell s.mem (some start)
    match c.ps with
    | none => return (none, s)
    | some p =>
      match c.next with
      | none => return (some p, s)
      | some next =>
        let mem ← modifyCell s.mem (some start) fun e => { e with next := none }
        let mem ← modifyCell mem s.pss.endEle fun e => { e with next := some start }
        let first ← readCell mem (some next)
        return (first.ps, { s with mem := mem, pss := ⟨some next, some start⟩ })

/-! ### Lists -/

/-- The `next` pointer of the element at an address. -/
def nextOf (mem : Ptr → Option (PsListEle P)) (a : Ptr) : Option Ptr :=
  (mem a).bind PsListEle.next

/-- The process pointer of the element at an address, if there is an element. -/
def psOf (mem : Ptr → Option (PsListEle P)) (a : Ptr) : Option (Option P) :=
  (mem a).map PsListEle.ps

@[simp]
theorem nextOf_update_self (mem : Ptr → Option (PsListEle P)) (a : Ptr) (c : PsListEle P) :
  nextOf (Function.update mem a (some c)) a = c.next
  := by
  simp [nextOf]

@[simp]
theorem psOf_update_self (mem : Ptr → Option (PsListEle P)) (a : Ptr) (c : PsListEle P) :
  psOf (Function.update mem a (some c)) a = some c.ps
  := by
  simp [psOf]

theorem nextOf_update_of_ne (mem : Ptr → Option (PsListEle P)) {a b : Ptr} (h : b ≠ a)
    (c : Option (PsListEle P)) :
  nextOf (Function.update mem a c) b = nextOf mem b
  := by
  simp [nextOf, Function.update_of_ne h]

theorem psOf_update_of_ne (mem : Ptr → Option (PsListEle P)) {a b : Ptr} (h : b ≠ a)
    (c : Option (PsListEle P)) :
  psOf (Function.update mem a c) b = psOf mem b
  := by
  simp [psOf, Function.update_of_ne h]

/-- Changing a `next` pointer changes no process pointer. -/
theorem psOf_relink {mem : Ptr → Option (PsListEle P)} {a : Ptr} {c : PsListEle P}
    (hc : mem a = some c) (q : Option Ptr) :
  psOf (Function.update mem a (some { c with next := q })) = psOf mem
  := by
  funext b
  by_cases h : b = a
  · subst h
    simp [psOf, hc]
  · apply psOf_update_of_ne mem h

/-- The list of `s` consists of the elements at the addresses `as`, in this order, and
holds the processes `xs`. -/
structure ListOf (s : State P K) (as : List Ptr) (xs : List (Option P)) : Prop where
  /-- Following `next` from `start` visits `as` and ends in the null pointer. -/
  chain : Chain (nextOf s.mem) s.pss.start as none
  /-- The end pointer is the last element, and null when there is none. -/
  endEle_eq : s.pss.endEle = as.getLast?
  cells : as.map (psOf s.mem) = xs.map some
  nodup : as.Nodup

theorem listOf_empty (k : K) :
  ListOf (empty k : State P K) [] []
  where
  chain := rfl
  endEle_eq := rfl
  cells := rfl
  nodup := List.nodup_nil

variable {s : State P K} {as : List Ptr} {xs : List (Option P)}

/-- The start pointer is null exactly when the end pointer is. -/
theorem ListOf.start_eq_none_iff (h : ListOf s as xs) :
  s.pss.start = none ↔ s.pss.endEle = none
  := by
  rw [h.chain.eq_none_iff, h.endEle_eq]
  simp

/-- Every address of the list holds an element. -/
theorem ListOf.exists_cell (h : ListOf s as xs) {a : Ptr} (ha : a ∈ as) :
  ∃ c, s.mem a = some c
  := by
  have hmem : psOf s.mem a ∈ xs.map some := by
    rw [← h.cells]
    apply List.mem_map_of_mem ha
  obtain ⟨x, -, hx⟩ := List.mem_map.mp hmem
  cases hc : s.mem a with
  | none => simp [psOf, hc] at hx
  | some c => exact ⟨c, rfl⟩

/-- `scheduler_add_process` with a fresh element appends one process. -/
theorem schedulerAddProcess_spec (h : ListOf s as xs) {e : Ptr} (he : s.mem e = none)
    (ps : Option P) :
  ∃ s', schedulerAddProcess s (some e) ps = .ok (0, s') ∧ ListOf s' (as ++ [e]) (xs ++ [ps])
  := by
  have hfresh : e ∉ as := by
    intro hmem
    obtain ⟨c, hc⟩ := h.exists_cell hmem
    simp [he] at hc
  have hne : ∀ a ∈ as, a ≠ e := fun a ha heq => hfresh (heq ▸ ha)
  have hnodup : (as ++ [e]).Nodup := by
    rw [List.nodup_append]
    refine ⟨h.nodup, List.nodup_singleton e, ?_⟩
    intro a ha b hb
    simpa [List.mem_singleton.mp hb] using hne a ha
  rcases List.eq_nil_or_concat' as with rfl | ⟨bs, b, rfl⟩
  · have hstart : s.pss.start = none := h.chain
    have hxs : xs = [] := by simpa using h.cells.symm
    refine ⟨{ s with
      mem := Function.update s.mem e (some ⟨none, ps⟩), pss := ⟨some e, some e⟩ }, ?_, ?_⟩
    · simp only [schedulerAddProcess, hstart]
      rfl
    · constructor
      · simp
      · simp
      · simp [hxs]
      · apply hnodup
  · obtain ⟨c, hc⟩ := h.exists_cell (a := b) (by simp)
    have hbe : b ≠ e := hne b (by simp)
    have hend : s.pss.endEle = some b := by simpa using h.endEle_eq
    obtain ⟨hbs, hb⟩ := chain_concat.mp h.chain
    have hbmem : b ∉ bs := by
      have := h.nodup
      grind
    obtain ⟨start, hstart⟩ : ∃ start, s.pss.start = some start := by
      rw [← Option.ne_none_iff_exists']
      intro hnone
      simpa using h.chain.eq_none_iff.mp hnone
    have hc' : Function.update s.mem e (some ⟨none, ps⟩) b = some c := by
      rw [Function.update_of_ne hbe, hc]
    refine ⟨{ s with
      mem := Function.update (Function.update s.mem e (some ⟨none, ps⟩)) b
        (some { c with next := some e }),
      pss := ⟨some start, some e⟩ }, ?_, ?_⟩
    · simp only [schedulerAddProcess, hstart, hend, modifyCell_some hc']
      rfl
    · -- the old last element now points to the new one; the others are as they were
      have hother : ∀ a ∈ bs, a ≠ b ∧ a ≠ e := fun a ha =>
        ⟨fun hab => hbmem (hab ▸ ha), hne a (by simp [ha])⟩
      constructor
      · rw [chain_concat, chain_concat]
        refine ⟨⟨?_, by simp⟩, ?_⟩
        · rw [← hstart]
          apply hbs.congr
          intro a ha
          rw [nextOf_update_of_ne _ (hother a ha).1, nextOf_update_of_ne _ (hother a ha).2]
        · rw [nextOf_update_of_ne _ hbe.symm, nextOf_update_self]
      · simp
      · have hps : bs.map (psOf (Function.update s.mem e (some ⟨none, ps⟩)))
            ++ [psOf (Function.update s.mem e (some ⟨none, ps⟩)) b] = xs.map some := by
          rw [← h.cells, psOf_update_of_ne _ hbe, List.map_append,
            List.map_congr_left fun a ha => psOf_update_of_ne _ (hother a ha).2 _]
          rfl
        simp only [psOf_relink hc', List.map_append, ← hps]
        simp
      · apply hnodup

/-- Cutting the list at an element cuts the processes at its process. -/
theorem ListOf.split {pre post : List Ptr} {a : Ptr} {c : PsListEle P}
    (h : ListOf s (pre ++ a :: post) xs) (hc : s.mem a = some c) :
  ∃ ys zs, xs = ys ++ c.ps :: zs ∧ pre.map (psOf s.mem) = ys.map some ∧
    post.map (psOf s.mem) = zs.map some
  := by
  have hcells := h.cells.symm
  rw [List.map_append, List.map_cons, List.map_eq_append_iff] at hcells
  obtain ⟨ys, rest, rfl, hys, hrest⟩ := hcells
  obtain ⟨x, zs, rfl, hx, hzs⟩ := List.map_eq_cons_iff.mp hrest
  have hxc : x = c.ps := by
    simpa [psOf, hc] using hx
  subst hxc
  exact ⟨ys, zs, rfl, hys.symm, hzs.symm⟩

section Remove

variable {pid : P → UInt32} (processDelete : P → K → K)

/-- Taking out an element that is not the only one removes its process from the list. -/
theorem unlink_spec {pre post : List Ptr} {a : Ptr} {c : PsListEle P}
    {ys zs : List (Option P)} (h : ListOf s (pre ++ a :: post) xs) (hc : s.mem a = some c)
    (hys : pre.map (psOf s.mem) = ys.map some) (hzs : post.map (psOf s.mem) = zs.map some)
    (hother : pre ≠ [] ∨ post ≠ []) (shouldDelete : Bool) :
  ∃ s', unlink processDelete s shouldDelete pre.getLast? a c = .ok (0, s') ∧
    ListOf s' (pre ++ post) (ys ++ zs)
  := by
  have hnodup := h.nodup
  have hapre : ∀ b ∈ pre, b ≠ a := by grind
  have hapost : ∀ b ∈ post, b ≠ a := by grind
  have hdisjoint : ∀ b ∈ pre, b ∉ post := by grind
  have hnext : nextOf s.mem a = c.next := by simp [nextOf, hc]
  obtain ⟨m, hpre, rfl, hpost⟩ := chain_append.mp h.chain
  rw [hnext] at hpost
  -- the end pointer is `a` exactly when nothing follows
  have hend : s.pss.endEle = some a ↔ post = [] := by
    rw [h.endEle_eq]
    rcases List.eq_nil_or_concat' post with rfl | ⟨post', l, rfl⟩
    · simp
    · have hl := hapost l (by simp)
      rw [← List.cons_append, ← List.append_assoc, List.getLast?_concat]
      simpa using hl
  have hlast : post ≠ [] → s.pss.endEle = (pre ++ post).getLast? := by
    intro hne
    rw [h.endEle_eq]
    obtain ⟨post', l, rfl⟩ := (List.eq_nil_or_concat' post).resolve_left hne
    rw [← List.cons_append, ← List.append_assoc, ← List.append_assoc, List.getLast?_concat,
      List.getLast?_concat]
  have hcells : ∀ mem : Ptr → Option (PsListEle P), psOf mem = psOf s.mem →
      (pre ++ post).map (psOf (Function.update mem a none)) = (ys ++ zs).map some := by
    intro mem hmem
    rw [List.map_append, List.map_append, ← hys, ← hzs, ← hmem]
    congr 1
    · apply List.map_congr_left fun b hb => psOf_update_of_ne _ (hapre b hb) _
    · apply List.map_congr_left fun b hb => psOf_update_of_ne _ (hapost b hb) _
  rcases List.eq_nil_or_concat' pre with rfl | ⟨bs, b, rfl⟩
  · -- the head is taken out; something follows it
    have hne : post ≠ [] := by simpa using hother
    refine ⟨_, by simp only [unlink, List.getLast?_nil, pure_bind, hend, hne, if_false]; rfl, ?_⟩
    constructor
    · apply hpost.congr fun b hb => nextOf_update_of_ne _ (hapost b hb) _
    · apply hlast hne
    · apply hcells s.mem rfl
    · apply hnodup.of_cons
  · obtain ⟨cb, hcb⟩ := h.exists_cell (a := b) (by simp)
    have hbb : b ∉ bs := by grind
    have hba : b ≠ a := hapre b (by simp)
    obtain ⟨hbs, -⟩ := chain_concat.mp hpre
    have hnodup' : (bs ++ [b] ++ post).Nodup := by grind
    have hnext' : ∀ mem : Ptr → Option (PsListEle P), nextOf mem b = c.next →
        (∀ d, d ≠ b → nextOf mem d = nextOf s.mem d) →
        Chain (nextOf (Function.update mem a none)) s.pss.start (bs ++ [b] ++ post) none := by
      intro mem hb hmem
      apply chain_append.mpr ⟨c.next, chain_concat.mpr ⟨?_, ?_⟩, ?_⟩
      · apply hbs.congr
        intro d hd
        rw [nextOf_update_of_ne _ (hapre d (by simp [hd])), hmem d (fun hdb => hbb (hdb ▸ hd))]
      · rw [nextOf_update_of_ne _ hba, hb]
      · apply hpost.congr
        intro d hd
        rw [nextOf_update_of_ne _ (hapost d hd),
          hmem d (fun hdb => hdisjoint d (by simp [hdb]) hd)]
    by_cases hpost' : post = []
    · -- the last element is taken out, and the end pointer moves to `b`
      subst hpost'
      have hcnext : c.next = none := hpost
      have hcb' : Function.update s.mem b (some { cb with next := c.next }) b
          = some { cb with next := c.next } := by simp
      refine ⟨_, by
        simp only [unlink, List.getLast?_concat, modifyCell_some hcb, ok_bind, pure_bind, hend,
          if_true, modifyCell_some hcb']
        rfl, ?_⟩
      constructor
      · apply hnext' _ (by simp [hcnext])
        intro d hd
        rw [nextOf_update_of_ne _ hd, nextOf_update_of_ne _ hd]
      · simp
      · apply hcells
        rw [psOf_relink hcb', psOf_relink hcb]
      · apply hnodup'
    · refine ⟨_, by
        simp only [unlink, List.getLast?_concat, modifyCell_some hcb, ok_bind, pure_bind, hend,
          hpost', if_false]
        rfl, ?_⟩
      constructor
      · apply hnext' _ (by simp)
        intro d hd
        rw [nextOf_update_of_ne _ hd]
      · apply hlast hpost'
      · apply hcells
        rw [psOf_relink hcb]
      · apply hnodup'

/-- The list consists of one element, whose process has the given id. -/
def OnlyElement (pid : P → UInt32) (s : State P K) (id : UInt32) : Prop :=
  ∃ a c, s.pss.start = some a ∧ s.mem a = some c ∧ c.next = none ∧ hasPid pid id c.ps = true

/-- The search of `scheduler_remove_process` from the element after `pre`, when no process
of `pre` has the id, is left after at most one round for each element that remains. -/
theorem run_removeBody (h : ListOf s as xs) {id : UInt32}
    (honly : ¬ OnlyElement pid s id) (shouldDelete : Bool) :
  ∀ (post pre : List Ptr) (zs ys : List (Option P)), as = pre ++ post → xs = ys ++ zs →
    pre.map (psOf s.mem) = ys.map some → post.map (psOf s.mem) = zs.map some →
    (∀ y ∈ ys, hasPid pid id y = false) →
    ∃ r s', Loop.run (removeBody pid processDelete s id shouldDelete) (post.length + 1)
        (pre.getLast?, post.head?) = some (.ok (r, s')) ∧
      (r = 0 ↔ ∃ z ∈ zs, hasPid pid id z = true) ∧ (r ≠ 0 → r = -1 ∧ s' = s) ∧
      ∃ as', ListOf s' as' (ys ++ zs.eraseP (hasPid pid id))
  := by
  intro post
  induction post with
  | nil =>
      rintro pre zs ys rfl rfl hys hzs hnot
      obtain rfl : zs = [] := by simpa using hzs.symm
      refine ⟨-1, s, Loop.run_leave rfl 0, by simp, by simp, pre, ?_⟩
      simpa using h
  | cons a post ih =>
      rintro pre zs ys rfl rfl hys hzs hnot
      obtain ⟨c, hc⟩ := h.exists_cell (a := a) (by simp)
      obtain ⟨x, zs, rfl, hx, hrest⟩ := List.map_eq_cons_iff.mp hzs.symm
      obtain rfl : c.ps = x := by simpa [psOf, hc] using hx.symm
      by_cases hpid : hasPid pid id c.ps = true
      · have hother : pre ≠ [] ∨ post ≠ [] := by
          by_contra hboth
          push Not at hboth
          obtain ⟨rfl, rfl⟩ := hboth
          obtain ⟨hstart, hnext⟩ := h.chain
          apply honly
          use a, c, hstart, hc
          exact ⟨by simpa [nextOf, hc] using hnext, hpid⟩
        obtain ⟨s', hs', hlist⟩ := unlink_spec processDelete h hc hys
          hrest.symm hother shouldDelete
        refine ⟨0, s', ?_, by simp [hpid], by simp, pre ++ post, by simpa [hpid] using hlist⟩
        apply Loop.run_leave
        simp [removeBody, readCell_some hc, hpid, hs']
      · have hround : removeBody pid processDelete s id shouldDelete
            (pre.getLast?, (a :: post).head?) = .inl ((pre ++ [a]).getLast?, post.head?) := by
          obtain ⟨m, -, -, hpost⟩ := chain_append.mp h.chain
          have hnext : c.next = post.head? := by
            simpa [nextOf, hc] using hpost.head_eq
          simp [removeBody, readCell_some hc, hpid, hnext]
        obtain ⟨r, s', hrun, hr, hs', as', hlist⟩ := ih (pre ++ [a]) zs (ys ++ [c.ps]) (by simp)
          (by simp) (by simp [hys, psOf, hc]) hrest.symm (by
            intro y hy
            rcases List.mem_append.mp hy with hy | hy
            · apply hnot y hy
            · simpa [List.mem_singleton.mp hy] using hpid)
        refine ⟨r, s', ?_, ?_, hs', as', by simpa [hpid] using hlist⟩
        · rw [List.length_cons, Loop.run_continue hround, hrun]
        · simpa [hpid] using hr

/-- `scheduler_remove_process` removes exactly the first process with the id, if there is
one, and otherwise returns `-1` and changes nothing; the list must not consist of just that
process. -/
theorem schedulerRemoveProcess_spec (h : ListOf s as xs) {id : UInt32}
    (honly : ¬ OnlyElement pid s id) (shouldDelete : Bool) :
  ∃ r s', schedulerRemoveProcess pid processDelete (as.length + 1) s id shouldDelete
        = some (.ok (r, s')) ∧
    (r = 0 ↔ ∃ x ∈ xs, hasPid pid id x = true) ∧ (r ≠ 0 → r = -1 ∧ s' = s) ∧
    ∃ as', ListOf s' as' (xs.eraseP (hasPid pid id))
  := by
  obtain ⟨r, s', hrun, hr, hs', as', hlist⟩ :=
    run_removeBody processDelete h honly shouldDelete as [] xs []
      rfl rfl rfl h.cells (by simp)
  refine ⟨r, s', ?_, hr, hs', as', by simpa using hlist⟩
  have hstart : s.pss.start = as.head? := by simpa using h.chain.head_eq
  rw [schedulerRemoveProcess, hstart]
  apply hrun

/-- The process at the head is found in the first round. -/
theorem schedulerRemoveProcess_head {p : P} {a : Ptr} (h : ListOf s (a :: as) (some p :: xs))
    (has : as ≠ []) (shouldDelete : Bool) :
  ∃ s', schedulerRemoveProcess pid processDelete 1 s (pid p) shouldDelete = some (.ok (0, s')) ∧
    ListOf s' as xs
  := by
  obtain ⟨c, hc⟩ := h.exists_cell (a := a) (by simp)
  obtain ⟨hps, hcells⟩ := List.cons.inj h.cells
  have hp : c.ps = some p := by simpa [psOf, hc] using hps
  have hpre : ListOf s ([] ++ a :: as) (some p :: xs) := h
  have hys : ([] : List Ptr).map (psOf s.mem) = ([] : List (Option P)).map some := rfl
  obtain ⟨s', hs', hlist⟩ := unlink_spec processDelete hpre hc hys hcells (Or.inr has) shouldDelete
  refine ⟨s', ?_, hlist⟩
  simp only [List.getLast?_nil] at hs'
  simp [schedulerRemoveProcess, Loop.run, removeBody, h.chain.1, readCell_some hc, hasPid, hp, hs']

/-- Removing the only process writes through the null pointer. -/
theorem schedulerRemoveProcess_only {id : UInt32} (honly : OnlyElement pid s id)
    (h : ListOf s as xs) (shouldDelete : Bool) :
  schedulerRemoveProcess pid processDelete 1 s id shouldDelete = some (.error .nullPointer)
  := by
  obtain ⟨a, c, hstart, hc, hnext, hpid⟩ := honly
  have hend : s.pss.endEle = some a := by
    have hchain := h.chain
    rw [hstart] at hchain
    cases as with
    | nil => simp at hchain
    | cons b as =>
        obtain ⟨hab, hchain⟩ := hchain
        obtain rfl : a = b := by simpa using hab
        have has : as = [] := by
          apply hchain.eq_none_iff.mp
          simp [nextOf, hc, hnext]
        rw [h.endEle_eq, has]
        rfl
  simp [schedulerRemoveProcess, Loop.run, removeBody, hstart, readCell_some hc, hpid, unlink,
    hend, modifyCell]

end Remove

/-- What `scheduler_get_and_rotate_runnable_process` does to a list: the head is moved to
the back, unless its process pointer is null. -/
def rotateList : List (Option P) → List (Option P)
  | some p :: xs => xs ++ [some p]
  | xs => xs

/-- Moving the head behind the element the end pointer refers to, wherever that element leads to. -/
theorem rotate_chain {a b : Ptr} {bs : List Ptr} {q : Option Ptr} {p : P} {zs : List (Option P)}
    (hchain : Chain (nextOf s.mem) s.pss.start (a :: bs ++ [b]) q)
    (hcells : (a :: bs ++ [b]).map (psOf s.mem) = (some p :: zs).map some)
    (hnodup : (a :: bs ++ [b]).Nodup) (hend : s.pss.endEle = some b) :
  ∃ s', schedulerGetAndRotateRunnableProcess s = .ok (zs.head?.join, s') ∧
    Chain (nextOf s'.mem) s'.pss.start (bs ++ [b] ++ [a]) none ∧
    (bs ++ [b] ++ [a]).map (psOf s'.mem) = (zs ++ [some p]).map some ∧ s'.pss.endEle = some a
  := by
  rw [List.cons_append] at hchain hcells
  obtain ⟨hstart, hchain⟩ := hchain
  obtain ⟨hps, hzs⟩ := List.cons.inj hcells
  obtain ⟨⟨next, _⟩, hc, rfl⟩ : ∃ c, s.mem a = some c ∧ c.ps = some p := by simpa [psOf] using hps
  have hnext : nextOf s.mem a = next := by simp [nextOf, hc]
  obtain ⟨n, ns, hns⟩ : ∃ n ns, bs ++ [b] = n :: ns := List.exists_cons_of_ne_nil (by simp)
  obtain rfl : next = some n := by
    rw [← hnext, hchain.head_eq, hns]
    rfl
  obtain ⟨z, zs, rfl, hz⟩ : ∃ z zs', zs = z :: zs' ∧ psOf s.mem n = some z := by
    rw [hns] at hzs
    obtain ⟨z, zs', rfl, hz, -⟩ := List.map_eq_cons_iff.mp hzs.symm
    exact ⟨z, zs', rfl, hz.symm⟩
  obtain ⟨cb, hcb⟩ : ∃ c, s.mem b = some c := by
    have hmem : psOf s.mem b ∈ (z :: zs).map some := by
      rw [← hzs]
      apply List.mem_map_of_mem (by simp)
    obtain ⟨x, -, hx⟩ := List.mem_map.mp hmem
    obtain ⟨c, hc, -⟩ := Option.map_eq_some_iff.mp hx.symm
    exact ⟨c, hc⟩
  have hba : b ≠ a := by grind
  have hbbs : b ∉ bs := by grind
  have habs : a ∉ bs := by grind
  have hcb' : Function.update s.mem a (some ⟨none, some p⟩) b = some cb := by
    rw [Function.update_of_ne hba, hcb]
  have hpsOf := psOf_relink hcb' (some a)
  rw [psOf_relink (c := ⟨some n, some p⟩) hc] at hpsOf
  obtain ⟨cn, hcn, hcnps⟩ : ∃ cn, Function.update (Function.update s.mem a
      (some ⟨none, some p⟩)) b (some { cb with next := some a }) n = some cn ∧ cn.ps = z := by
    rw [← hpsOf] at hz
    simpa [psOf] using hz
  refine ⟨_, by
    simp only [schedulerGetAndRotateRunnableProcess, hstart, readCell_some hc, ok_bind,
      modifyCell_some hc, hend, modifyCell_some hcb', readCell_some hcn, hcnps]
    rfl, ?_, ?_, rfl⟩
  · obtain ⟨hbs, -⟩ := chain_concat.mp hchain
    apply chain_concat.mpr ⟨chain_concat.mpr ⟨?_, by simp⟩, ?_⟩
    · rw [← hnext]
      apply hbs.congr
      intro d hd
      have hdb : d ≠ b := fun heq => hbbs (heq ▸ hd)
      have hda : d ≠ a := fun heq => habs (heq ▸ hd)
      rw [nextOf_update_of_ne _ hdb, nextOf_update_of_ne _ hda]
    · rw [nextOf_update_of_ne _ hba.symm, nextOf_update_self]
  · rw [hpsOf, List.map_append, hzs]
    simp [psOf, hc]

/-- `scheduler_get_and_rotate_runnable_process` moves the head to the back and returns the
process that is then at the head. -/
theorem schedulerGetAndRotateRunnableProcess_spec (h : ListOf s as xs) :
  ∃ s', schedulerGetAndRotateRunnableProcess s = .ok ((rotateList xs).head?.join, s') ∧
    ∃ as', ListOf s' as' (rotateList xs) ∧ (xs.head?.join.isSome → as' = as.rotate 1)
  := by
  cases as with
  | nil =>
      obtain rfl : xs = [] := by simpa using h.cells.symm
      have hstart : s.pss.start = none := h.chain
      use s
      constructor
      · simp [schedulerGetAndRotateRunnableProcess, hstart, rotateList]
      · exact ⟨[], h, by simp⟩
  | cons a as =>
      obtain ⟨hstart, hchain⟩ := h.chain
      obtain ⟨c, hc⟩ := h.exists_cell (a := a) (by simp)
      obtain ⟨x, zs, rfl, hx, hzs⟩ := List.map_eq_cons_iff.mp h.cells.symm
      obtain rfl : c.ps = x := by simpa [psOf, hc] using hx.symm
      have hnext : c.next = as.head? := by simpa [nextOf, hc] using hchain.head_eq
      cases hps : c.ps with
      | none =>
          use s
          constructor
          · simp [schedulerGetAndRotateRunnableProcess, hstart, readCell_some hc, hps, rotateList]
            rfl
          · rw [hps] at h
            exact ⟨a :: as, h, by simp⟩
      | some p =>
          rw [hps] at h
          rcases List.eq_nil_or_concat' as with rfl | ⟨bs, b, rfl⟩
          · obtain rfl : zs = [] := by simpa using hzs
            use s
            constructor
            · simp [schedulerGetAndRotateRunnableProcess, hstart, readCell_some hc, hps, hnext,
                rotateList]
              rfl
            · exact ⟨[a], h, by simp⟩
          · have hend : s.pss.endEle = some b := by
              rw [h.endEle_eq, ← List.cons_append, List.getLast?_concat]
            obtain ⟨s', hs', hchain', hcells', hend'⟩ := rotate_chain h.chain h.cells h.nodup hend
            have hne : zs ≠ [] := by
              rintro rfl
              simp at hzs
            refine ⟨s', by rw [hs', rotateList, List.head?_append_of_ne_nil _ hne],
              bs ++ [b] ++ [a], ?_, by simp⟩
            constructor
            · apply hchain'
            · simp [hend']
            · apply hcells'
            · have hnodup := h.nodup
              grind

/-! ### Runs -/

/-- A call of one of the list operations.  The element an addition uses is the one `kmalloc`
returns. -/
inductive Op (P : Type) where
  | add (ele : Ptr) (ps : Option P)
  | remove (id : UInt32) (shouldDelete : Bool)
  | rotate

section Run

variable (pid : P → UInt32) (processDelete : P → K → K)

/-- The state after an operation, with searches limited to `n` rounds. -/
def exec (n : ℕ) (s : State P K) : Op P → Option (Except Fault (State P K))
  | .add ele ps => some (Prod.snd <$> schedulerAddProcess s (some ele) ps)
  | .remove id shouldDelete =>
    (schedulerRemoveProcess pid processDelete n s id shouldDelete).map fun r => Prod.snd <$> r
  | .rotate => some (Prod.snd <$> schedulerGetAndRotateRunnableProcess s)

/-- What an operation does to a list of processes. -/
def Op.onList : Op P → List (Option P) → List (Option P)
  | .add _ ps, xs => xs ++ [ps]
  | .remove id _, xs => xs.eraseP (hasPid pid id)
  | .rotate, xs => rotateList xs

/-- The element `kmalloc` returns for an addition is not allocated already. -/
def Fresh (s : State P K) : Op P → Prop
  | .add ele _ => s.mem ele = none
  | _ => True

/-- The operation does not remove the only process of the list. -/
def KeepsOne (s : State P K) : Op P → Prop
  | .remove id _ => ¬ OnlyElement pid s id
  | _ => True

/-- The states reached from the empty list by operations that satisfy `Admissible`. -/
inductive Reachable (Admissible : State P K → Op P → Prop) : State P K → Prop
  | empty (k : K) : Reachable Admissible (empty k)
  | step {s s' : State P K} {op : Op P} {n : ℕ} (hs : Reachable Admissible s)
      (hop : Admissible s op) (hexec : exec pid processDelete n s op = some (.ok s')) :
      Reachable Admissible s'

variable {pid processDelete}

/-- An operation with a fresh element that does not remove the only process returns, and
does to the list what it says. -/
theorem exec_spec {op : Op P} (h : ListOf s as xs) (hfresh : Fresh s op)
    (hone : KeepsOne pid s op) :
  ∃ n s', exec pid processDelete n s op = some (.ok s') ∧ ∃ as', ListOf s' as' (op.onList pid xs)
  := by
  cases op with
  | add ele ps =>
      obtain ⟨s', hs', hlist⟩ := schedulerAddProcess_spec h hfresh ps
      exact ⟨0, s', by simp [exec, hs'], _, hlist⟩
  | remove id shouldDelete =>
      obtain ⟨r, s', hs', -, -, as', hlist⟩ :=
        schedulerRemoveProcess_spec processDelete h hone shouldDelete
      exact ⟨as.length + 1, s', by simp [exec, hs'], as', hlist⟩
  | rotate =>
      obtain ⟨s', hs', as', hlist, -⟩ := schedulerGetAndRotateRunnableProcess_spec h
      exact ⟨0, s', by simp [exec, hs'], as', hlist⟩

/-- An operation that returns gives the same state whatever the limit on its search. -/
theorem exec_unique {op : Op P} {n m : ℕ} {r r' : Except Fault (State P K)}
    (h : exec pid processDelete n s op = some r) (h' : exec pid processDelete m s op = some r') :
  r = r'
  := by
  cases op with
  | add ele ps => simpa [exec] using h.symm.trans h'
  | rotate => simpa [exec] using h.symm.trans h'
  | remove id shouldDelete =>
      simp only [exec, schedulerRemoveProcess, Option.map_eq_some_iff] at h h'
      obtain ⟨q, hq, rfl⟩ := h
      obtain ⟨q', hq', rfl⟩ := h'
      rw [Loop.Returns.unique ⟨n, hq⟩ ⟨m, hq'⟩]

/-- Every state reached without removing the only process of a list holds a list. -/
theorem Reachable.listOf
    (h : Reachable pid processDelete (fun s op => Fresh s op ∧ KeepsOne pid s op) s) :
  ∃ as xs, ListOf s as xs
  := by
  induction h with
  | empty k => exact ⟨[], [], listOf_empty k⟩
  | step hs hop hexec ih =>
      obtain ⟨as, xs, hlist⟩ := ih
      obtain ⟨n, s', hs', as', hlist'⟩ := exec_spec hlist hop.1 hop.2
      have heq := exec_unique hexec hs'
      injection heq with heq
      subst heq
      exact ⟨as', _, hlist'⟩

/-- In every state reached without removing the only process of a list, the start pointer
is null exactly when the end pointer is, following `next` from the start visits every
element and ends at the end pointer, whose `next` is null; and every further such operation
follows no null pointer, returns, and appends, erases the first process with the id, or
rotates. -/
theorem process_lists_well_formed
    (h : Reachable pid processDelete (fun s op => Fresh s op ∧ KeepsOne pid s op) s) :
  ∃ as xs, ListOf s as xs ∧ (s.pss.start = none ↔ s.pss.endEle = none) ∧
    ∀ op, Fresh s op → KeepsOne pid s op →
      (∃ n s', exec pid processDelete n s op = some (.ok s')) ∧
      ∀ n r, exec pid processDelete n s op = some r →
        ∃ s' as', r = .ok s' ∧ ListOf s' as' (op.onList pid xs)
  := by
  obtain ⟨as, xs, hlist⟩ := h.listOf
  use as, xs, hlist, hlist.start_eq_none_iff
  intro op hfresh hone
  obtain ⟨n, s', hs', as', hlist'⟩ := exec_spec hlist hfresh hone
  constructor
  · exact ⟨n, s', hs'⟩
  · intro m r hr
    exact ⟨s', as', exec_unique hr hs', hlist'⟩

/-- The state after an operation that returns. -/
def stateAfter (s : State UInt32 Unit) (op : Op UInt32) : State UInt32 Unit :=
  match exec (fun p => p) (fun _ k => k) 4 s op with
  | some (.ok s') => s'
  | _ => s

/-- Three processes are added, the list is rotated, and the process in its middle is removed. -/
def someOps : List (Op UInt32) :=
  [.add 0x1000 (some 1), .add 0x2000 (some 2), .add 0x3000 (some 3), .rotate, .remove 3 false]

/-- The state after the first operations of the list. -/
def someList (n : ℕ) : State UInt32 Unit := (someOps.take n).foldl stateAfter (empty ())

theorem someList_step {Admissible : State UInt32 Unit → Op UInt32 → Prop} (n : ℕ) (op : Op UInt32)
    (h : Reachable (fun p => p) (fun _ k => k) Admissible (someList n)) (hop : Admissible (someList n) op)
    (hexec : exec (fun p => p) (fun _ k => k) 4 (someList n) op = some (.ok (someList (n + 1)))) :
  Reachable (fun p => p) (fun _ k => k) Admissible (someList (n + 1))
  := h.step hop hexec

theorem someList_reachable :
  Reachable (fun p => p) (fun _ k => k) (fun s op => Fresh s op ∧ KeepsOne (fun p => p) s op)
    (someList 5)
  := by
  -- the head after the rotation is process `2`, and it is followed by two others
  have hkeeps : KeepsOne (fun p => p) (someList 4) (.remove 3 false) := by
    rintro ⟨a, c, hstart, hc, hnext, -⟩
    obtain rfl : 0x2000 = a := Option.some.inj hstart
    obtain rfl : ⟨some 0x3000, some 2⟩ = c := Option.some.inj hc
    cases hnext
  apply someList_step 4 (.remove 3 false) _ ⟨trivial, hkeeps⟩ rfl
  apply someList_step 3 .rotate _ ⟨trivial, trivial⟩ rfl
  apply someList_step 2 (.add 0x3000 (some 3)) _ ⟨rfl, trivial⟩ rfl
  apply someList_step 1 (.add 0x2000 (some 2)) _ ⟨rfl, trivial⟩ rfl
  apply someList_step 0 (.add 0x1000 (some 1)) (.empty ()) ⟨rfl, trivial⟩ rfl

theorem process_lists_well_formed_three :
  ∃ as xs, ListOf (someList 5) as xs ∧
    ((someList 5).pss.start = none ↔ (someList 5).pss.endEle = none) ∧
    ∀ op, Fresh (someList 5) op → KeepsOne (fun p => p) (someList 5) op →
      (∃ n s', exec (fun p => p) (fun _ k => k) n (someList 5) op = some (.ok s')) ∧
      ∀ n r, exec (fun p => p) (fun _ k => k) n (someList 5) op = some r →
        ∃ s' as', r = .ok s' ∧ ListOf s' as' (op.onList (fun p => p) xs)
  := process_lists_well_formed someList_reachable

/-- The list that holds the one process with id `1`, in an element at `0x1000`. -/
def oneProcess : State UInt32 Unit where
  mem := Function.update (fun _ => none) 0x1000 (some ⟨none, some 1⟩)
  pss := ⟨some 0x1000, some 0x1000⟩
  kernel := ()

/-- Removing process `1` from the list that holds just that process, a list reached by one
addition, does not return: it writes through the null pointer. -/
theorem remove_only_process_faults :
  Reachable (fun p => p) (fun _ k => k) Fresh oneProcess ∧
    Fresh oneProcess (.remove 1 false) ∧
    exec (fun p => p) (fun _ k => k) 1 oneProcess (.remove 1 false)
      = some (.error .nullPointer) ∧
    ∀ n s', exec (fun p => p) (fun _ k => k) n oneProcess (.remove 1 false) ≠ some (.ok s')
  := by
  have hfault : exec (fun p => p) (fun _ k => k) 1 oneProcess (.remove 1 false)
      = some (.error .nullPointer) := rfl
  have hadd : Fresh (empty () : State UInt32 Unit) (.add 0x1000 (some 1)) := rfl
  refine ⟨.step (n := 0) (.empty ()) hadd rfl, trivial, hfault, ?_⟩
  intro n s' h
  simpa using exec_unique h hfault

end Run

end Scheduler
