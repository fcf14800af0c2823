import Mathlib.Data.List.Basic
import Mathlib.Data.List.Count
import Mathlib.Data.List.Induction

/-!
# Runs of a system

A system takes steps: in a state, an event happens, has an effect that can be seen, and leads to
another state, or cannot happen.  A run is a sequence of steps; its trace lists the transitions.

A property of all runs is proved by an invariant that relates the trace to the state it leads to
(`Runs.history`), or that speaks of the state alone (`Runs.invariant`).  A specification on states of its own
says of each transition how its state may go on; when each step of the system keeps a relation with the states of
the specification, every run follows the specification (`Runs.follows`).
-/

namespace Trace

variable {S E O : Type}

/-- One step that was taken. -/
structure Transition (S E O : Type) where
  before : S
  event : E
  effect : O
  after : S

/-- The runs from one state to another. -/
inductive Runs (step : S → E → Option (O × S)) (s : S) : List (Transition S E O) → S → Prop
  | nil : Runs step s [] s
  | concat {tr : List (Transition S E O)} {s' s'' : S} {e : E} {o : O} (h : Runs step s tr s')
      (hstep : step s' e = some (o, s'')) : Runs step s (tr ++ [⟨s', e, o, s''⟩]) s''

variable {step : S → E → Option (O × S)} {s s' : S} {tr : List (Transition S E O)}

/-- A relation between the trace and the state holds after every run when it holds at first and
every transition of the run keeps it. -/
theorem Runs.history {I : List (Transition S E O) → S → Prop} (h : Runs step s tr s')
    (hinit : I [] s)
    (hstep : ∀ pre x, pre ++ [x] <+: tr → step x.before x.event = some (x.effect, x.after) →
      I pre x.before → I (pre ++ [x]) x.after) :
  I tr s'
  := by
  induction h with
  | nil => apply hinit
  | concat _ heq ih =>
      apply hstep _ _ List.prefix_rfl heq
      apply ih
      intro pre x hpre
      apply hstep pre x (hpre.trans (List.prefix_append _ _))

/-- A property of states holds after every run when it holds at first and every transition of the
run keeps it. -/
theorem Runs.invariant {I : S → Prop} (h : Runs step s tr s') (hinit : I s)
    (hstep : ∀ x ∈ tr, step x.before x.event = some (x.effect, x.after) → I x.before → I x.after) :
  I s'
  := by
  apply h.history (I := fun _ => I) hinit
  intro pre x hpre
  apply hstep x (hpre.subset (by simp))

/-! ### Specifications -/

/-- The transitions are such as the specification allows, one after the other, from one of its states to
another. -/
inductive Follows {T : Type} (spec : T → Transition S E O → T → Prop) (t : T) :
    List (Transition S E O) → T → Prop
  | nil : Follows spec t [] t
  | concat {tr : List (Transition S E O)} {t' t'' : T} {x : Transition S E O} (h : Follows spec t tr t')
      (hspec : spec t' x t'') : Follows spec t (tr ++ [x]) t''

/-- When every step can be followed, so can every run. -/
theorem Runs.follows {T : Type} {spec : T → Transition S E O → T → Prop} {R : S → T → Prop} {t : T}
    (h : Runs step s tr s') (hinit : R s t)
    (hstep : ∀ x ∈ tr, step x.before x.event = some (x.effect, x.after) → ∀ t, R x.before t →
      ∃ t', spec t x t' ∧ R x.after t') :
  ∃ t', Follows spec t tr t' ∧ R s' t'
  := by
  refine h.history (I := fun pre m => ∃ t', Follows spec t pre t' ∧ R m t') ⟨t, .nil, hinit⟩ ?_
  rintro pre x hpre heq ⟨t', hfollows, hR⟩
  obtain ⟨t'', hspec, hR'⟩ := hstep x (hpre.subset (by simp)) heq t' hR
  exact ⟨t'', hfollows.concat hspec, hR'⟩

/-- A relation between the transitions and the state of the specification that every allowed transition keeps. -/
theorem Follows.history {T : Type} {spec : T → Transition S E O → T → Prop} {t t' : T}
    {I : List (Transition S E O) → T → Prop} (h : Follows spec t tr t') (hinit : I [] t)
    (hstep : ∀ pre x t' t'', pre ++ [x] <+: tr → spec t' x t'' → I pre t' → I (pre ++ [x]) t'') :
  I tr t'
  := by
  induction h with
  | nil => exact hinit
  | concat _ hspec ih =>
      apply hstep _ _ _ _ List.prefix_rfl hspec
      apply ih
      intro pre x t' t'' hpre
      exact hstep pre x t' t'' (hpre.trans (List.prefix_append _ _))

/-! ### Parts of a run -/

theorem runs_concat_iff {x : Transition S E O} :
  Runs step s (tr ++ [x]) s' ↔
    Runs step s tr x.before ∧ step x.before x.event = some (x.effect, x.after) ∧ x.after = s'
  := by
  constructor
  · intro h
    generalize hl : tr ++ [x] = l at h
    cases h with
    | nil => simp at hl
    | concat h hstep =>
        obtain ⟨rfl, hx⟩ := List.append_inj' hl rfl
        obtain rfl := List.singleton_inj.mp hx
        exact ⟨h, hstep, rfl⟩
  · rintro ⟨h, hstep, rfl⟩
    apply h.concat hstep

/-- A run can be cut anywhere. -/
theorem Runs.split {tr₁ tr₂ : List (Transition S E O)} (h : Runs step s (tr₁ ++ tr₂) s') :
  ∃ m, Runs step s tr₁ m ∧ Runs step m tr₂ s'
  := by
  induction tr₂ using List.reverseRecOn generalizing s' with
  | nil =>
      use s'
      rw [List.append_nil] at h
      exact ⟨h, .nil⟩
  | append_singleton tr₂ x ih =>
      rw [← List.append_assoc, runs_concat_iff] at h
      obtain ⟨hruns, hstep, rfl⟩ := h
      obtain ⟨m, hfirst, hrest⟩ := ih hruns
      exact ⟨m, hfirst, hrest.concat hstep⟩

theorem Runs.of_isPrefix {pre : List (Transition S E O)} (h : Runs step s tr s') (hpre : pre <+: tr) :
  ∃ m, Runs step s pre m
  := by
  obtain ⟨post, rfl⟩ := hpre
  obtain ⟨m, hruns, -⟩ := h.split
  use m

theorem Runs.of_singleton {x : Transition S E O} (h : Runs step s [x] s') :
  s = x.before ∧ step x.before x.event = some (x.effect, x.after) ∧ x.after = s'
  := by
  obtain ⟨hnil, hstep, heq⟩ := runs_concat_iff.mp (show Runs step s ([] ++ [x]) s' from h)
  generalize hl : ([] : List (Transition S E O)) = l at hnil
  cases hnil with
  | nil => exact ⟨rfl, hstep, heq⟩
  | concat _ _ => simp at hl

/-- A run goes to each of its transitions, takes it, and goes on from there. -/
theorem Runs.cut (h : Runs step s tr s') {x : Transition S E O} (hx : x ∈ tr) :
  ∃ pre post, tr = pre ++ x :: post ∧ Runs step s pre x.before ∧
    step x.before x.event = some (x.effect, x.after) ∧ Runs step x.after post s'
  := by
  obtain ⟨pre, post, rfl⟩ := List.append_of_mem hx
  obtain ⟨m, hpre, hrest⟩ := h.split
  obtain ⟨m', hx', hpost⟩ := Runs.split (show Runs step m ([x] ++ post) s' from hrest)
  obtain ⟨rfl, hstep, rfl⟩ := hx'.of_singleton
  exact ⟨pre, post, rfl, hpre, hstep, hpost⟩

theorem Runs.cons {e : E} {o : O} {m : S} (hstep : step s e = some (o, m)) (h : Runs step m tr s') :
  Runs step s (⟨s, e, o, m⟩ :: tr) s'
  := by
  induction h with
  | nil => apply Runs.nil.concat hstep
  | concat _ hlast ih => apply ih.concat hlast

/-! ### Running a system -/

/-- The run in which the given events happen, unless one of them cannot. -/
def execute (step : S → E → Option (O × S)) : S → List E → Option (List (Transition S E O) × S)
  | s, [] => some ([], s)
  | s, e :: es =>
    match step s e with
    | none => none
    | some (o, m) => (execute step m es).map fun (tr, s') => (⟨s, e, o, m⟩ :: tr, s')

theorem execute_cons {e : E} {es : List E} (h : execute step s (e :: es) = some (tr, s')) :
  ∃ o m tr', step s e = some (o, m) ∧ execute step m es = some (tr', s') ∧ tr = ⟨s, e, o, m⟩ :: tr'
  := by
  rw [execute] at h
  split at h
  case h_1 => simp at h
  case h_2 o m hstep =>
    obtain ⟨⟨tr', s''⟩, hrest, heq⟩ := Option.map_eq_some_iff.mp h
    obtain ⟨rfl, rfl⟩ := Prod.mk.inj heq
    exact ⟨o, m, tr', hstep, hrest, rfl⟩

theorem runs_of_execute {es : List E} (h : execute step s es = some (tr, s')) :
  Runs step s tr s'
  := by
  induction es generalizing s tr with
  | nil =>
      obtain ⟨rfl, rfl⟩ := Prod.mk.inj (Option.some.inj h)
      apply Runs.nil
  | cons e es ih =>
      obtain ⟨o, m, tr', hstep, hrest, rfl⟩ := execute_cons h
      apply Runs.cons hstep (ih hrest)

/-- A property of a run that can be decided is checked by running the system. -/
theorem exists_runs (step : S → E → Option (O × S)) (s : S) (es : List E)
    {P : List (Transition S E O) × S → Prop} [DecidablePred P]
    (h : (execute step s es).any (fun r => decide (P r)) = true) :
  ∃ tr s', Runs step s tr s' ∧ P (tr, s')
  := by
  obtain ⟨⟨tr, s'⟩, hexec, hP⟩ := (Option.any_eq_true _ _).mp h
  exact ⟨tr, s', runs_of_execute hexec, of_decide_eq_true hP⟩

end Trace
