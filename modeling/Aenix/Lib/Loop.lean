import Mathlib.Tactic

/-!
# Loops

A loop is given by its body, which takes a state either to a further state, and the
loop continues, or to a result, and the loop is left.  `Loop.run body n s` runs the loop
from `s` for at most `n` rounds.  A loop returns `r` from `s` when some number of rounds
suffices (`Loop.Returns`), in which case every larger number gives the same result, and
it halts when it returns something (`Loop.Halts`).
-/

namespace Loop

variable {σ ρ : Type*} {body : σ → σ ⊕ ρ}

/-- At most `n` rounds of the loop with the given body. -/
def run (body : σ → σ ⊕ ρ) : ℕ → σ → Option ρ
  | 0, _ => none
  | n + 1, s =>
    match body s with
    | .inl s' => run body n s'
    | .inr r => some r

/-- The loop leaves with result `r` when started in `s`. -/
def Returns (body : σ → σ ⊕ ρ) (s : σ) (r : ρ) : Prop :=
  ∃ n, run body n s = some r

theorem run_continue {s s' : σ} (h : body s = .inl s') (n : ℕ) :
  run body (n + 1) s = run body n s'
  := by
  simp only [run, h]

theorem run_leave {s : σ} {r : ρ} (h : body s = .inr r) (n : ℕ) :
  run body (n + 1) s = some r
  := by
  simp only [run, h]

/-- More rounds do not change the result. -/
theorem run_mono {n m : ℕ} {s : σ} {r : ρ} (h : run body n s = some r) (hnm : n ≤ m) :
  run body m s = some r
  := by
  induction n generalizing m s with
  | zero => simp [run] at h
  | succ n ih =>
      obtain ⟨k, rfl⟩ : ∃ k, m = k + 1 := ⟨m - 1, by omega⟩
      cases hb : body s with
      | inl s' =>
          rw [run_continue hb] at h ⊢
          apply ih h
          omega
      | inr r' =>
          rw [run_leave hb] at h ⊢
          apply h

theorem Returns.unique {s : σ} {r r' : ρ} (h : Returns body s r) (h' : Returns body s r') :
  r = r'
  := by
  obtain ⟨n, hn⟩ := h
  obtain ⟨m, hm⟩ := h'
  have hr := run_mono hn (le_max_left n m)
  rw [run_mono hm (le_max_right n m)] at hr
  injection hr with hr
  apply hr.symm

/-- Partial correctness: if every round from a state of the invariant keeps the invariant, or
leaves with a result satisfying `Post`, then every result satisfies `Post`. -/
theorem run_of_invariant (Inv : σ → Prop) (Post : ρ → Prop)
    (hcontinue : ∀ s s', Inv s → body s = .inl s' → Inv s')
    (hleave : ∀ s r, Inv s → body s = .inr r → Post r) {n : ℕ} {s : σ} {r : ρ} (hs : Inv s)
    (h : run body n s = some r) :
  Post r
  := by
  induction n generalizing s with
  | zero => simp [run] at h
  | succ n ih =>
      cases hb : body s with
      | inl s' =>
          rw [run_continue hb] at h
          apply ih (hcontinue s s' hs hb) h
      | inr r' =>
          rw [run_leave hb, Option.some.injEq] at h
          exact h ▸ hleave s r' hs hb

/-- A loop whose body may give up, with `none`, agrees with every loop whose body agrees with
it where it does not. -/
theorem run_of_body_le {body body' : σ → σ ⊕ Option ρ}
    (hbody : ∀ s, body s = .inr none ∨ body s = body' s) {n : ℕ} {s : σ} {r : ρ}
    (h : run body n s = some (some r)) :
  run body' n s = some (some r)
  := by
  induction n generalizing s with
  | zero => simp [run] at h
  | succ n ih =>
      rcases hbody s with hnone | heq
      · rw [run_leave hnone] at h
        simp at h
      · cases hb : body s with
        | inl s' =>
            rw [run_continue hb] at h
            rw [run_continue (heq ▸ hb)]
            apply ih h
        | inr r' =>
            rw [run_leave hb] at h
            rw [run_leave (heq ▸ hb), h]

/-! ### Termination -/

/-- The loop is left when started in `s`. -/
def Halts (body : σ → σ ⊕ ρ) (s : σ) : Prop :=
  ∃ r, Returns body s r

theorem halts_of_leave {s : σ} {r : ρ} (h : body s = .inr r) :
  Halts body s
  := ⟨r, 1, run_leave h 0⟩

/-- The first round does not matter. -/
theorem halts_continue {s s' : σ} (h : body s = .inl s') :
  Halts body s ↔ Halts body s'
  := by
  constructor
  · rintro ⟨r, n, hn⟩
    cases n with
    | zero => simp [run] at hn
    | succ n =>
        rw [run_continue h] at hn
        exact ⟨r, n, hn⟩
  · rintro ⟨r, n, hn⟩
    exact ⟨r, n + 1, by rwa [run_continue h]⟩

/-- A loop that goes from each state of the invariant to another one is never left. -/
theorem not_halts_of_invariant (Inv : σ → Prop)
    (hcontinue : ∀ s, Inv s → ∃ s', body s = .inl s' ∧ Inv s') {s : σ} (hs : Inv s) :
  ¬ Halts body s
  := by
  rintro ⟨r, n, hn⟩
  refine run_of_invariant Inv (fun _ => False) ?_ ?_ hs hn
  · intro s s' hs hbody
    obtain ⟨s'', hbody', hs''⟩ := hcontinue s hs
    rw [hbody] at hbody'
    obtain rfl := Sum.inl.inj hbody'
    exact hs''
  · intro s r hs hbody
    obtain ⟨s', hbody', -⟩ := hcontinue s hs
    rw [hbody] at hbody'
    simp at hbody'

section Simulation

variable {σ' ρ' : Type*} {body' : σ' → σ' ⊕ ρ'} {f : σ → σ'} {g : ρ → ρ'} {Inv : σ → Prop}

/-- A loop whose rounds follow those of another runs along with it. -/
theorem run_map (hbody : ∀ s, Inv s → body' (f s) = Sum.map f g (body s))
    (hinv : ∀ s s', Inv s → body s = .inl s' → Inv s') (n : ℕ) {s : σ} (hs : Inv s) :
  run body' n (f s) = (run body n s).map g
  := by
  induction n generalizing s with
  | zero => rfl
  | succ n ih =>
      have hfollow := hbody s hs
      cases hb : body s with
      | inl s' =>
          rw [hb, Sum.map_inl] at hfollow
          rw [run_continue hb, run_continue hfollow]
          exact ih (hinv s s' hs hb)
      | inr r =>
          rw [hb, Sum.map_inr] at hfollow
          rw [run_leave hb, run_leave hfollow, Option.map_some]

theorem halts_map (hbody : ∀ s, Inv s → body' (f s) = Sum.map f g (body s))
    (hinv : ∀ s s', Inv s → body s = .inl s' → Inv s') {s : σ} (hs : Inv s) :
  Halts body s ↔ Halts body' (f s)
  := by
  constructor
  · rintro ⟨r, n, hn⟩
    refine ⟨g r, n, ?_⟩
    rw [run_map hbody hinv n hs, hn, Option.map_some]
  · rintro ⟨r', n, hn⟩
    rw [run_map hbody hinv n hs, Option.map_eq_some_iff] at hn
    obtain ⟨r, hr, -⟩ := hn
    exact ⟨r, n, hr⟩

end Simulation

end Loop
