import Mathlib.Tactic

/-!
# Programs with state

A program on states `σ` that may fail to return is an element of `StateT σ Option α`.
`After f s Q` says that whenever the program `f` returns from `s`, its result and the state
after it satisfy `Q`.
-/

universe u

variable {σ α β : Type u} {f : StateT σ Option α} {g : α → StateT σ Option β} {s : σ}

/-- The second program runs from where the first one ends. -/
theorem bind_run {s' : σ} {a : α} (hf : f s = some (a, s')) :
  (f >>= g) s = g a s'
  := by
  simp only [Bind.bind, StateT.bind, hf, Option.bind_some]

/-- Whenever `f` returns from `s`, its result and the state after it satisfy `Q`. -/
def After (f : StateT σ Option α) (s : σ) (Q : α → σ → Prop) : Prop :=
  ∀ a s', f s = some (a, s') → Q a s'

namespace After

variable {P Q : α → σ → Prop} {R : β → σ → Prop}

theorem mono (h : After f s P) (hPQ : ∀ a s', P a s' → Q a s') :
  After f s Q
  := fun a s' hrun => hPQ a s' (h a s' hrun)

theorem and (h : After f s P) (h' : After f s Q) :
  After f s (fun a s' => P a s' ∧ Q a s')
  := fun a s' hrun => ⟨h a s' hrun, h' a s' hrun⟩

theorem pure {a : α} (h : Q a s) :
  After (Pure.pure a) s Q
  := by
  intro a' s' hrun
  obtain ⟨rfl, rfl⟩ := Prod.mk.inj (Option.some.inj hrun)
  exact h

/-- The second program runs from where the first one ends. -/
theorem bind (h : After f s P) (hg : ∀ a s', P a s' → After (g a) s' R) :
  After (f >>= g) s R
  := by
  intro b s'' hrun
  obtain ⟨⟨a, s'⟩, hf, hg'⟩ := Option.bind_eq_some_iff.mp hrun
  exact hg a s' (h a s' hf) b s'' hg'

/-- The same when nothing is said about the first program. -/
theorem next (hg : ∀ a s', After (g a) s' R) :
  After (f >>= g) s R
  := by
  refine bind (P := fun _ _ => True) (fun _ _ _ => trivial) ?_
  intro a s' _
  apply hg

theorem ite {c : Prop} [Decidable c] {f' : StateT σ Option α} (h : c → After f s Q)
    (h' : ¬ c → After f' s Q) :
  After (if c then f else f') s Q
  := by
  split
  case isTrue hc => exact h hc
  case isFalse hc => exact h' hc

end After
