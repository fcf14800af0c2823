import Aenix.Scheduler.ProcessList

/-!
# An insertion between its two stores

`scheduler_add_process` reads `pss->end`, stores the new element as the `next` of the element it has
read, and then makes it the end.  Interrupts are enabled in `sys_fork`, so the list may be rotated in
between, and it may have changed since `pss->end` was read.

A rotation between the two stores does not rotate the list: it takes the new element from it, or all
others when there is one (`rotate_linked_spec`).  A first store through an element that is no longer the
last cuts off those that follow it (`linkProcess_spec`).
-/

open Pointer

namespace Scheduler

variable {α β P K : Type}

/-- What a rotation does to the list `xs` when `a` has been linked behind it and is not the end yet. -/
def rotateLinked (a : α) : List α → List α
  | [] => []
  | [_] => [a]
  | x :: y :: xs => y :: xs ++ [x]

/-- The list when `a` has been linked behind the first element that passes the test. -/
def linkBehind (p : α → Bool) (a : α) : List α → List α
  | [] => []
  | x :: xs => if p x then [x, a] else x :: linkBehind p a xs

theorem linkBehind_append {p : α → Bool} {pre post : List α} {b : α} (hb : p b)
    (hpre : ∀ x ∈ pre, p x = false) (a : α) :
  linkBehind p a (pre ++ b :: post) = pre ++ [b] ++ [a]
  := by
  induction pre with
  | nil => simp [linkBehind, hb]
  | cons x pre ih =>
      rw [List.cons_append, linkBehind, hpre x List.mem_cons_self, if_neg (by simp), ih]
      · simp
      · intro y hy
        apply hpre y (List.mem_cons_of_mem x hy)

theorem linkBehind_of_notMem {p : α → Bool} {xs : List α} (h : ∀ x ∈ xs, p x = false) (a : α) :
  linkBehind p a xs = xs
  := by
  induction xs with
  | nil => rfl
  | cons x xs ih =>
      rw [linkBehind, h x List.mem_cons_self, if_neg (by simp), ih]
      intro y hy
      apply h y (List.mem_cons_of_mem x hy)

theorem map_rotateLinked (f : α → β) (a : α) (xs : List α) :
  (rotateLinked a xs).map f = rotateLinked (f a) (xs.map f)
  := by
  rcases xs with _ | ⟨x, _ | ⟨y, xs⟩⟩
  · rfl
  · rfl
  · simp [rotateLinked]

theorem mem_linkBehind {p : α → Bool} {a x : α} {xs : List α} (h : x ∈ linkBehind p a xs) :
  x ∈ xs ∨ x = a
  := by
  induction xs with
  | nil => simp [linkBehind] at h
  | cons y xs ih =>
      rw [linkBehind] at h
      split at h
      · simp only [List.mem_cons, List.not_mem_nil, or_false] at h
        rcases h with rfl | rfl
        · exact Or.inl List.mem_cons_self
        · exact Or.inr rfl
      · rcases List.mem_cons.mp h with rfl | h
        · exact Or.inl List.mem_cons_self
        · exact (ih h).imp_left (List.mem_cons_of_mem y)

/-- A list is cut behind the first element that passes the test, or none does. -/
theorem exists_behind (p : α → Bool) (xs : List α) :
  (∃ pre b post, xs = pre ++ b :: post ∧ p b ∧ ∀ x ∈ pre, p x = false) ∨ ∀ x ∈ xs, p x = false
  := by
  cases h : xs.find? p with
  | none =>
      right
      simpa using List.find?_eq_none.mp h
  | some b =>
      left
      obtain ⟨hb, pre, post, rfl, hpre⟩ := List.find?_eq_some_iff_append.mp h
      exact ⟨pre, b, post, rfl, hb, by simpa using hpre⟩

/-! ### The two stores -/

/-- `scheduler_add_process` up to the first store, when it has read `last` from `pss->end`; the list is
not empty. -/
def linkProcess (s : State P K) (last : Option Ptr) (ele : Ptr) (ps : Option P) :
    Except Fault (State P K) := do
  let mem := Function.update s.mem ele (some ⟨none, ps⟩)
  let mem ← modifyCell mem last fun c => { c with next := some ele }
  return { s with mem := mem }

/-- The second store of `scheduler_add_process`. -/
def moveEnd (s : State P K) (ele : Ptr) : State P K := { s with pss := { s.pss with endEle := some ele } }

/-- Both stores are what `scheduler_add_process` does to a list that is not empty. -/
theorem schedulerAddProcess_eq {s : State P K} {start : Ptr} (hstart : s.pss.start = some start)
    (ele : Ptr) (ps : Option P) :
  schedulerAddProcess s (some ele) ps =
    (linkProcess s s.pss.endEle ele ps).map fun s => (0, moveEnd s ele)
  := by
  simp only [schedulerAddProcess, linkProcess, hstart]
  cases modifyCell (Function.update s.mem ele (some ⟨none, ps⟩)) s.pss.endEle
      fun c => { c with next := some ele } with
  | error fault => rfl
  | ok mem => simp [moveEnd, hstart, Except.map, Bind.bind, Except.bind, Pure.pure, Except.pure]

/-! ### Lists whose end is elsewhere -/

/-- Following `next` from the start visits the elements at the addresses `as`, which hold the processes
`xs`. -/
structure ChainOf (s : State P K) (as : List Ptr) (xs : List (Option P)) : Prop where
  chain : Chain (nextOf s.mem) s.pss.start as none
  cells : as.map (psOf s.mem) = xs.map some
  nodup : as.Nodup

theorem ListOf.chainOf {s : State P K} {as : List Ptr} {xs : List (Option P)} (h : ListOf s as xs) :
  ChainOf s as xs
  := ⟨h.chain, h.cells, h.nodup⟩

/-- The first store, through an element `b` of the list: the new element comes behind `b`, and nothing
else. -/
theorem linkProcess_spec {s : State P K} {pre post : List Ptr} {b e : Ptr} {ys zs : List (Option P)}
    {x : Option P} (h : ListOf s (pre ++ b :: post) (ys ++ x :: zs)) (hlen : pre.length = ys.length)
    (he : s.mem e = none) (ps : Option P) :
  ∃ s', linkProcess s (some b) e ps = .ok s' ∧
    ChainOf s' (pre ++ [b] ++ [e]) (ys ++ [x] ++ [ps]) ∧ s'.pss = s.pss
  := by
  obtain ⟨hys, hrest⟩ : pre.map (psOf s.mem) = ys.map some ∧
      psOf s.mem b :: post.map (psOf s.mem) = some x :: zs.map some := by
    apply List.append_inj _ (by simp [hlen])
    simpa using h.cells
  obtain ⟨c, hc, rfl⟩ : ∃ c, s.mem b = some c ∧ c.ps = x := by
    simpa [psOf] using (List.cons.inj hrest).1
  have hfresh : ∀ a ∈ pre ++ b :: post, a ≠ e := by
    rintro a ha rfl
    obtain ⟨c, hc⟩ := h.exists_cell ha
    simp [he] at hc
  have hbe : b ≠ e := hfresh b (by simp)
  have hnodup := h.nodup
  have hother : ∀ a ∈ pre, a ≠ b ∧ a ≠ e := fun a ha =>
    ⟨by grind, hfresh a (by simp [ha])⟩
  have hc' : Function.update s.mem e (some ⟨none, ps⟩) b = some c := by
    rw [Function.update_of_ne hbe, hc]
  refine ⟨{ s with
    mem := Function.update (Function.update s.mem e (some ⟨none, ps⟩)) b
      (some { c with next := some e }) }, ?_, ?_, rfl⟩
  · simp only [linkProcess, modifyCell_some hc', ok_bind]
    rfl
  obtain ⟨m, hpre, rfl, -⟩ := chain_append.mp h.chain
  constructor
  · rw [chain_concat, chain_concat]
    refine ⟨⟨?_, by simp⟩, ?_⟩
    · apply hpre.congr
      intro a ha
      rw [nextOf_update_of_ne _ (hother a ha).1, nextOf_update_of_ne _ (hother a ha).2]
    · rw [nextOf_update_of_ne _ hbe.symm, nextOf_update_self]
  · have hpsOf : pre.map (psOf (Function.update s.mem e (some ⟨none, ps⟩))) = ys.map some := by
      rw [← hys]
      apply List.map_congr_left fun a ha => psOf_update_of_ne _ (hother a ha).2 _
    simp only [psOf_relink hc', List.map_append, hpsOf, List.map_cons, List.map_nil,
      psOf_update_of_ne _ hbe, psOf_update_self]
    simp [psOf, hc]
  · grind

/-- A rotation between the two stores. -/
theorem rotate_linked_spec {s : State P K} {a e : Ptr} {as : List Ptr} {xs : List (Option P)} {x p : P}
    (h : ChainOf s (a :: as ++ [e]) (some x :: xs ++ [some p]))
    (hend : s.pss.endEle = (a :: as).getLast?) :
  ∃ s', schedulerGetAndRotateRunnableProcess s =
      .ok ((rotateLinked (some p) (some x :: xs)).head?.join, s') ∧
    ∃ as', ChainOf s' as' (rotateLinked (some p) (some x :: xs))
  := by
  obtain ⟨hchain, hcells, hnodup⟩ := h
  rw [List.map_append, List.map_append] at hcells
  obtain ⟨hcells, hp⟩ := List.append_inj' hcells rfl
  have he : psOf s.mem e = some (some p) := by simpa using hp
  rw [chain_concat] at hchain
  obtain ⟨hchain, hnext⟩ := hchain
  rcases List.eq_nil_or_concat' as with rfl | ⟨bs, b, rfl⟩
  · -- one other element: it is made its own successor
    obtain ⟨ha, rfl⟩ : psOf s.mem a = some (some x) ∧ xs = [] := by simpa using hcells
    obtain ⟨⟨next, _⟩, hc, rfl⟩ : ∃ c, s.mem a = some c ∧ c.ps = some x := by simpa [psOf] using ha
    obtain ⟨ce, hce, hps⟩ : ∃ c, s.mem e = some c ∧ c.ps = some p := by simpa [psOf] using he
    obtain ⟨hstart, hlast⟩ := hchain
    obtain rfl : next = some e := by simpa [nextOf, hc] using hlast
    have hea : e ≠ a := by
      rintro rfl
      simp at hnodup
    have hend : s.pss.endEle = some a := hend
    have hca : Function.update s.mem a (some ⟨none, some x⟩) a = some ⟨none, some x⟩ := by simp
    have hce' : Function.update (Function.update s.mem a (some ⟨none, some x⟩)) a
        (some ⟨some a, some x⟩) e = some ce := by
      rw [Function.update_of_ne hea, Function.update_of_ne hea, hce]
    refine ⟨_, by
      simp only [schedulerGetAndRotateRunnableProcess, hstart, readCell_some hc, ok_bind,
        modifyCell_some hc, hend, modifyCell_some hca, readCell_some hce', hps]
      rfl, [e], ?_⟩
    constructor
    · refine ⟨rfl, ?_⟩
      rw [nextOf_update_of_ne _ hea, nextOf_update_of_ne _ hea, hnext]
      rfl
    · rw [List.map_singleton, psOf_update_of_ne _ hea, psOf_update_of_ne _ hea, he]
      rfl
    · apply List.nodup_singleton
  · have hend : s.pss.endEle = some b := by
      rw [hend, ← List.cons_append, List.getLast?_concat]
    rw [← List.cons_append] at hchain hcells hnodup
    obtain ⟨s', hs', hchain', hcells', -⟩ := rotate_chain hchain hcells hnodup.of_append_left hend
    obtain ⟨y, ys, rfl⟩ : ∃ y ys, xs = y :: ys := by
      apply List.exists_cons_of_ne_nil
      rintro rfl
      simp at hcells
    refine ⟨s', hs', bs ++ [b] ++ [a], hchain', hcells', ?_⟩
    grind

end Scheduler
