import Aenix.Keyboard.Fifo

/-!
# Reading from the keyboard

A call of `kbd_read` runs while scan codes arrive.  Its outer loop tests `count`, but its inner loop goes on
as long as there are codes in the buffer: when a code is there after the last character has been stored,
it is taken out as well, and when it has a character this is stored behind the caller's buffer.

The steps of a call are given by a relation on its variables and the codes that it has taken out
(`Moves`).  A call that returns has respected the caller's buffer and the codes after the last character
exactly when the buffer was empty at every test of the inner loop with `count` 0 (`kbd_read_respects_iff`):
all codes that have arrived until then have been taken out (`staysQuiet_iff_arrived`).

There is one call at a time, and the interrupt handler runs as a whole.
-/

namespace Keyboard

/-- What happens while a call runs: a scan code arrives, or the call goes on. -/
inductive Tick
  | arrives (scanCode : UInt8)
  | goesOn
  deriving DecidableEq, Repr

/-- The event of a tick. -/
def Tick.event : Tick → Event
  | .arrives scanCode => .interrupt scanCode
  | .goesOn => .step

/-- The scan codes that a call has taken out, each with the character it got for it. -/
abbrev Codes := List (UInt8 × UInt8)

/-- The codes taken out, after a tick. -/
def takenBy (s : State) (codes : Codes) : Tick → Codes
  | .arrives _ => codes
  | .goesOn =>
    if s.call.map Call.pc = some .take then
      codes ++ [(s.kbd.buffer s.kbd.head, (kbdScanCodeToAscii s.modifiers (s.kbd.buffer s.kbd.head)).1)]
    else
      codes

/-- What a sequence of ticks does. -/
def ticks (x : State × Codes) (ts : List Tick) : State × Codes :=
  ts.foldl (fun (s, codes) t => (exec s t.event, takenBy s codes t)) x

/-- A call of `kbd_read`, and what happens while it runs. -/
def kbdRead (b : KbdBuffer) (modifiers : Modifiers) (count : UInt32) (ts : List Tick) : State × Codes :=
  ticks (exec ⟨b, modifiers, none⟩ (.read count), []) ts

/-- The call is about to return `c.i`. -/
def Returns (s : State) (c : Call) : Prop :=
  s.call = some c ∧ c.pc = .outer ∧ c.count = 0

/-- The call that returns has stored `count` characters, those of the codes it took out, and the last
code it took out has the last of them. -/
structure Exact (count : UInt32) (c : Call) (codes : Codes) : Prop where
  returned : c.i = count.toNat
  indices : c.writes.map Prod.fst = List.range count.toNat
  characters : c.writes.map Prod.snd = (codes.map Prod.snd).filter (· ≠ 0xFF)
  last : codes.getLast?.map Prod.snd ≠ some 0xFF

/-- The call has written in the caller's buffer only. -/
def InBuffer (count : UInt32) (s : State) : Prop :=
  ∀ c, s.call = some c → ∀ w ∈ c.writes, w.1 < count.toNat

/-- A call writes in the caller's buffer only, and is exact when it returns. -/
def Respects (b : KbdBuffer) (modifiers : Modifiers) (count : UInt32) (ts : List Tick) : Prop :=
  ∀ p, p <+: ts →
    InBuffer count (kbdRead b modifiers count p).1 ∧
      ∀ c, Returns (kbdRead b modifiers count p).1 c → Exact count c (kbdRead b modifiers count p).2

/-- When the inner loop tests for codes and `count` is 0, there are none. -/
def Quiet (s : State) : Prop :=
  ∀ c, s.call = some c → c.pc = .inner → c.count = 0 → s.kbd.head = s.kbd.tail

/-- All the states of a call are quiet in which it goes on. -/
def StaysQuiet (b : KbdBuffer) (modifiers : Modifiers) (count : UInt32) (ts : List Tick) : Prop :=
  ∀ p, p ++ [.goesOn] <+: ts → Quiet (kbdRead b modifiers count p).1

/-! ### The steps of a call -/

/-- The steps of a call that does not return, in a quiet state (if `Q`) or in any. -/
inductive Moves (Q : Prop) : Call → Codes → Call → Codes → Prop
  | enter {c : Call} {codes : Codes} (h : c.pc = .outer) (hcount : c.count ≠ 0) :
      Moves Q c codes { c with pc := .inner } codes
  | found {c : Call} {codes : Codes} (h : c.pc = .inner) (hquiet : Q → c.count ≠ 0) :
      Moves Q c codes { c with pc := .take } codes
  | leave {c : Call} {codes : Codes} (h : c.pc = .inner) : Moves Q c codes { c with pc := .outer } codes
  | take {c : Call} {codes : Codes} (h : c.pc = .take) (sc ch : UInt8) :
      Moves Q c codes { c with pc := .wrap ch } (codes ++ [(sc, ch)])
  | wrap {c : Call} {codes : Codes} {ch : UInt8} (h : c.pc = .wrap ch) :
      Moves Q c codes { c with pc := .store ch } codes
  | store {c : Call} {codes : Codes} {ch : UInt8} (h : c.pc = .store ch) (hch : ch ≠ 0xFF) :
      Moves Q c codes
        { pc := .inner, i := c.i + 1, count := c.count - 1, writes := c.writes ++ [(c.i, ch)] } codes
  | skip {c : Call} {codes : Codes} (h : c.pc = .store 0xFF) :
      Moves Q c codes { c with pc := .inner } codes

variable {s : State} {c c' : Call} {codes codes' : Codes} {Q : Prop}

/-- When a call goes on, it returns or makes one of the steps. -/
theorem exec_goesOn (codes : Codes) (h : s.call = some c) (hquiet : Q → Quiet s) :
  (exec s Tick.goesOn.event).call = none ∨
    ∃ c', (exec s Tick.goesOn.event).call = some c' ∧
      Moves Q c codes c' (takenBy s codes .goesOn)
  := by
  rw [Tick.event, exec, h]
  simp only [takenBy, h, Option.map_some, Option.some.injEq]
  cases hpc : c.pc with
  | outer =>
      simp only [kbdReadStep, hpc, reduceCtorEq, if_false]
      split
      case isTrue hpos =>
        right
        refine ⟨_, rfl, .enter hpc ?_⟩
        rintro hzero
        simp [hzero] at hpos
      case isFalse => exact Or.inl rfl
  | inner =>
      simp only [kbdReadStep, hpc, reduceCtorEq, if_false]
      right
      refine ⟨_, rfl, ?_⟩
      split
      case isTrue hne =>
        apply Moves.found hpc
        intro hq hzero
        apply hne
        exact hquiet hq c h hpc hzero
      case isFalse => exact .leave hpc
  | take =>
      simp only [kbdReadStep, hpc, if_true]
      right
      exact ⟨_, rfl, .take hpc _ _⟩
  | wrap ch =>
      simp only [kbdReadStep, hpc, reduceCtorEq, if_false]
      right
      exact ⟨_, rfl, .wrap hpc⟩
  | store ch =>
      simp only [kbdReadStep, hpc, reduceCtorEq, if_false]
      right
      refine ⟨_, rfl, ?_⟩
      split
      case isTrue hch => exact .store hpc hch
      case isFalse hch =>
        apply Moves.skip
        rw [hpc, not_not.mp hch]

/-! ### Runs -/

theorem ticks_append (x : State × Codes) (p q : List Tick) :
  ticks x (p ++ q) = ticks (ticks x p) q
  := by
  rw [ticks, List.foldl_append]
  rfl

theorem ticks_concat (x : State × Codes) (p : List Tick) (t : Tick) :
  ticks x (p ++ [t]) = (exec (ticks x p).1 t.event, takenBy (ticks x p).1 (ticks x p).2 t)
  := by
  rw [ticks_append]
  rfl

/-- What the steps of a call keep holds as long as the call runs. -/
theorem ticks_invariant {I : Call → Codes → Prop} {x : State × Codes} {ts : List Tick}
    (hstep : ∀ c codes c' codes', Moves Q c codes c' codes' → I c codes → I c' codes')
    (hquiet : Q → ∀ p, p ++ [.goesOn] <+: ts → Quiet (ticks x p).1)
    (hinit : ∀ c, x.1.call = some c → I c x.2) :
  ∀ c, (ticks x ts).1.call = some c → I c (ticks x ts).2
  := by
  induction ts using List.reverseRecOn with
  | nil => exact hinit
  | append_singleton ts t ih =>
      have hprev := ih fun hq p hp => hquiet hq p (hp.trans (List.prefix_append _ _))
      intro c hc
      rw [ticks_concat] at hc ⊢
      cases t with
      | arrives scanCode => exact hprev c hc
      | goesOn =>
          cases hcall : (ticks x ts).1.call with
          | none =>
              rw [Tick.event, exec, hcall] at hc
              simp [hcall] at hc
          | some c₀ =>
              have hcases := exec_goesOn (ticks x ts).2 hcall fun hq => hquiet hq ts List.prefix_rfl
              rcases hcases with hnone | ⟨c₁, hsome, hmoves⟩
              · simp [hnone] at hc
              · obtain rfl : c₁ = c := by simpa [hsome] using hc
                exact hstep _ _ _ _ hmoves (hprev c₀ hcall)

/-! ### What every call keeps -/

/-- A code has been taken out, or is going to be, and its character is not stored yet. -/
def Pc.taking : Pc → Prop
  | .outer => False
  | .inner => False
  | .take => True
  | .wrap _ => True
  | .store _ => True

/-- The character that is not stored yet. -/
def Pc.pending : Pc → List UInt8
  | .wrap ch => [ch]
  | .store ch => [ch]
  | _ => []

/-- The characters that have been stored are those of the codes, from the beginning of the caller's buffer
on, and `count` has been decremented as often. -/
structure Reading (count : UInt32) (c : Call) (codes : Codes) : Prop where
  indices : c.writes.map Prod.fst = List.range c.i
  count : c.count = count - UInt32.ofNat c.i
  characters : (codes.map Prod.snd).filter (· ≠ 0xFF) =
    c.writes.map Prod.snd ++ c.pc.pending.filter (· ≠ 0xFF)
  pending : ∀ ch ∈ c.pc.pending, codes.getLast?.map Prod.snd = some ch

variable {count : UInt32}

theorem Reading.move (h : Reading count c codes) {pc : Pc} (hpc : pc.pending = c.pc.pending) :
  Reading count { c with pc := pc } codes
  := ⟨h.indices, h.count, by rw [hpc, h.characters], by rw [hpc]; exact h.pending⟩

theorem Reading.step (hmoves : Moves Q c codes c' codes') (h : Reading count c codes) :
  Reading count c' codes'
  := by
  cases hmoves with
  | enter hpc _ => exact h.move (by rw [hpc]; rfl)
  | found hpc _ => exact h.move (by rw [hpc]; rfl)
  | leave hpc => exact h.move (by rw [hpc]; rfl)
  | wrap hpc => exact h.move (by rw [hpc]; rfl)
  | take hpc sc ch =>
      have hchars := h.characters
      rw [hpc] at hchars
      refine ⟨h.indices, h.count, ?_, ?_⟩
      · rw [List.map_append, List.filter_append, hchars]
        simp [Pc.pending]
      · simp [Pc.pending]
  | @store ch hpc hch =>
      have hchars := h.characters
      rw [hpc, Pc.pending, List.filter_cons_of_pos (by simpa using hch)] at hchars
      constructor
      · simp [h.indices, List.range_succ]
      · simp only [h.count, UInt32.ofNat_add]
        apply sub_sub
      · simpa [Pc.pending] using hchars
      · simp [Pc.pending]
  | skip hpc =>
      refine ⟨h.indices, h.count, ?_, by simp [Pc.pending]⟩
      rw [h.characters, hpc]
      rfl

/-- `count` is 0 when as many characters have been stored, and only then, as long as there are not more. -/
theorem Reading.count_eq_zero_iff (h : Reading count c codes) (hle : c.i ≤ count.toNat) :
  c.count = 0 ↔ c.i = count.toNat
  := by
  rw [h.count, sub_eq_zero]
  constructor
  · intro heq
    rw [heq, UInt32.toNat_ofNat', Nat.mod_eq_of_lt (hle.trans_lt count.toNat_lt)]
  · intro heq
    rw [heq, UInt32.ofNat_toNat]

theorem Reading.inBuffer_iff (h : Reading count c codes) :
  (∀ w ∈ c.writes, w.1 < count.toNat) ↔ c.i ≤ count.toNat
  := by
  have hmem : (∀ w ∈ c.writes, w.1 < count.toNat) ↔ ∀ k ∈ c.writes.map Prod.fst, k < count.toNat := by
    simp
  rw [hmem, h.indices]
  simp only [List.mem_range]
  constructor
  · intro hall
    by_contra hgt
    have := hall count.toNat (by omega)
    omega
  · intro hle k hk
    omega

/-! ### Quiet calls -/

/-- At most `count` characters have been stored; fewer, when a further code is taken out; and when all
have been, the last code that was taken out has a character. -/
structure Within (count : UInt32) (c : Call) (codes : Codes) : Prop where
  reading : Reading count c codes
  le : c.i ≤ count.toNat
  lt : c.pc.taking → c.i < count.toNat
  last : ¬ c.pc.taking → c.i = count.toNat → codes.getLast?.map Prod.snd ≠ some 0xFF

theorem Within.step (hmoves : Moves True c codes c' codes') (h : Within count c codes) :
  Within count c' codes'
  := by
  refine ⟨h.reading.step hmoves, ?_, ?_, ?_⟩
  case refine_1 =>
    cases hmoves with
    | store hpc hch => exact h.lt (by rw [hpc]; trivial)
    | _ => exact h.le
  case refine_2 =>
    cases hmoves with
    | found hpc hquiet =>
        intro _
        apply lt_of_le_of_ne h.le
        intro heq
        apply hquiet trivial
        exact (h.reading.count_eq_zero_iff h.le).mpr heq
    | take hpc sc ch => exact fun _ => h.lt (by rw [hpc]; trivial)
    | wrap hpc => exact fun _ => h.lt (by rw [hpc]; trivial)
    | _ => exact fun htaking => htaking.elim
  case refine_3 =>
    cases hmoves with
    | enter hpc _ => exact fun _ => h.last (by rw [hpc]; exact id)
    | leave hpc => exact fun _ => h.last (by rw [hpc]; exact id)
    | @store ch hpc hch =>
        intro _ _
        rw [h.reading.pending ch (by simp [hpc, Pc.pending])]
        simpa using hch
    | skip hpc =>
        intro _ heq
        exact absurd heq (h.lt (by rw [hpc]; trivial)).ne
    | _ => exact fun htaking => absurd trivial htaking

theorem Within.exact (h : Within count c codes) (hpc : c.pc = .outer) (hcount : c.count = 0) :
  Exact count c codes
  := by
  have heq := (h.reading.count_eq_zero_iff h.le).mp hcount
  refine ⟨heq, ?_, ?_, ?_⟩
  · rw [h.reading.indices, heq]
  · rw [h.reading.characters, hpc]
    simp [Pc.pending]
  · apply h.last _ heq
    rw [hpc]
    exact id

/-! ### A code too many -/

/-- More than `count` characters have been stored, or a code has been taken out, or is going to be,
after all of them have been stored. -/
structure Late (count : UInt32) (c : Call) (codes : Codes) : Prop where
  reading : Reading count c codes
  le : count.toNat ≤ c.i
  last : c.i = count.toNat → ¬ c.pc.taking → codes.getLast?.map Prod.snd = some 0xFF

theorem Late.step (hmoves : Moves Q c codes c' codes') (h : Late count c codes) :
  Late count c' codes'
  := by
  refine ⟨h.reading.step hmoves, ?_, ?_⟩
  case refine_1 =>
    cases hmoves with
    | store hpc hch => exact h.le.trans (Nat.le_succ _)
    | _ => exact h.le
  case refine_2 =>
    cases hmoves with
    | enter hpc _ => exact fun heq _ => h.last heq (by rw [hpc]; exact id)
    | leave hpc => exact fun heq _ => h.last heq (by rw [hpc]; exact id)
    | store hpc hch =>
        intro heq _
        have hle := h.le
        dsimp only at heq
        omega
    | skip hpc =>
        intro _ _
        exact h.reading.pending 0xFF (by simp [hpc, Pc.pending])
    | _ => exact fun _ htaking => absurd trivial htaking

theorem Late.not_exact (h : Late count c codes) (hpc : c.pc = .outer) :
  ¬ Exact count c codes
  := by
  intro hexact
  apply hexact.last
  apply h.last hexact.returned
  rw [hpc]
  exact id

/-! ### Calls -/

section Calls

variable (b : KbdBuffer) (modifiers : Modifiers) {ts : List Tick}

theorem reading_start :
  Reading count ⟨.outer, count, 0, []⟩ []
  := by
  constructor <;> simp [Pc.pending]

theorem kbdRead_reading (hc : (kbdRead b modifiers count ts).1.call = some c) :
  Reading count c (kbdRead b modifiers count ts).2
  := by
  apply ticks_invariant (Q := False) (I := Reading count) _ _ _ c hc
  · exact fun _ _ _ _ hmoves => Reading.step hmoves
  · exact False.elim
  · rintro _ ⟨⟩
    exact reading_start

theorem kbdRead_within (hquiet : StaysQuiet b modifiers count ts)
    (hc : (kbdRead b modifiers count ts).1.call = some c) :
  Within count c (kbdRead b modifiers count ts).2
  := by
  apply ticks_invariant (Q := True) (I := Within count) _ _ _ c hc
  · exact fun _ _ _ _ hmoves => Within.step hmoves
  · exact fun _ => hquiet
  · rintro _ ⟨⟩
    refine ⟨reading_start, Nat.zero_le _, ?_, ?_⟩
    · exact False.elim
    · simp

/-- A call that stays quiet respects the caller's buffer. -/
theorem respects_of_staysQuiet (hquiet : StaysQuiet b modifiers count ts) :
  Respects b modifiers count ts
  := by
  intro p hp
  have hprefix : StaysQuiet b modifiers count p := fun q hq => hquiet q (hq.trans hp)
  constructor
  · intro c hc
    have hwithin := kbdRead_within b modifiers hprefix hc
    exact hwithin.reading.inBuffer_iff.mpr hwithin.le
  · rintro c ⟨hc, hpc, hcount⟩
    exact (kbdRead_within b modifiers hprefix hc).exact hpc hcount

/-- When a call goes on in a state that is not quiet, it takes out a code too many. -/
theorem late_of_not_quiet {p : List Tick} (hin : InBuffer count (kbdRead b modifiers count p).1)
    (hloud : ¬ Quiet (kbdRead b modifiers count p).1) :
  ∀ c, (kbdRead b modifiers count (p ++ [.goesOn])).1.call = some c →
    Late count c (kbdRead b modifiers count (p ++ [.goesOn])).2
  := by
  simp only [Quiet, not_forall] at hloud
  obtain ⟨c, hc, hpc, hcount, hne⟩ := hloud
  have hreading := kbdRead_reading b modifiers hc
  have hle := hreading.inBuffer_iff.mp (hin c hc)
  have heq := (hreading.count_eq_zero_iff hle).mp hcount
  intro c' hc'
  rw [kbdRead, ticks_concat, ← kbdRead] at hc' ⊢
  rw [Tick.event, exec, hc] at hc'
  simp only [kbdReadStep, hpc, if_pos hne, Option.some.injEq] at hc'
  subst hc'
  have hcodes : takenBy (kbdRead b modifiers count p).1 (kbdRead b modifiers count p).2 .goesOn =
      (kbdRead b modifiers count p).2 := by
    simp [takenBy, hc, hpc]
  rw [hcodes]
  refine ⟨hreading.move (by rw [hpc]; rfl), heq.ge, ?_⟩
  exact fun _ htaking => absurd trivial htaking

end Calls

/-- A call of `kbd_read` that stays quiet respects the caller's buffer, and a call that returns does so only
when it has stayed quiet. -/
theorem kbd_read_respects_iff (b : KbdBuffer) (modifiers : Modifiers) (count : UInt32) (ts : List Tick) :
  (StaysQuiet b modifiers count ts → Respects b modifiers count ts) ∧
    ∀ c, Returns (kbdRead b modifiers count ts).1 c →
      (Respects b modifiers count ts ↔ StaysQuiet b modifiers count ts)
  := by
  refine ⟨respects_of_staysQuiet b modifiers, ?_⟩
  intro c hreturns
  refine ⟨?_, respects_of_staysQuiet b modifiers⟩
  intro hrespects p hp
  by_contra hloud
  obtain ⟨q, rfl⟩ := hp
  have hin := (hrespects p ((List.prefix_append p [.goesOn]).trans (List.prefix_append _ q))).1
  have hlate := late_of_not_quiet b modifiers hin hloud
  obtain ⟨hc, hpc, hcount⟩ := hreturns
  have hexact := (hrespects _ List.prefix_rfl).2 c ⟨hc, hpc, hcount⟩
  rw [kbdRead, ticks_append] at hc hexact
  have hlate' := ticks_invariant (Q := False) (I := Late count)
    (fun _ _ _ _ hmoves => Late.step hmoves) False.elim hlate c hc
  exact hlate'.not_exact hpc hexact

/-! ### Scan codes that arrive -/

/-- The scan codes that arrive. -/
def arrived (ts : List Tick) : List UInt8 :=
  ts.filterMap fun
    | .arrives scanCode => some scanCode
    | .goesOn => none

section Arrivals

variable {b : KbdBuffer} {modifiers : Modifiers} {l : Log}

/-- As long as there is room, the buffer is a queue while a call runs: what arrives is stored, and what the
call gets is taken out. -/
theorem kbdRead_good (h : Good ⟨b, modifiers, none⟩ l) (count : UInt32) (ts : List Tick)
    (hroom : l.stored.length + (arrived ts).length < kbdBufferSize) :
  ∃ l', Good (kbdRead b modifiers count ts).1 l' ∧ l'.stored = l.stored ++ arrived ts ∧
    l'.taken.length = l.taken.length + (kbdRead b modifiers count ts).2.length
  := by
  induction ts using List.reverseRecOn with
  | nil => exact ⟨l, h.read count, by simp [arrived], by simp [kbdRead, ticks]⟩
  | append_singleton ts t ih =>
      have harrived : arrived (ts ++ [t]) = arrived ts ++ arrived [t] := List.filterMap_append
      rw [harrived, List.length_append] at hroom
      obtain ⟨l', hgood, hstored, htaken⟩ := ih (by omega)
      rw [kbdRead, ticks_concat, ← kbdRead, harrived]
      cases t with
      | arrives scanCode =>
          have hcount := hgood.count
          have hlt : (kbdRead b modifiers count ts).1.kbd.count < 511 := by
            rw [UInt32.lt_iff_toNat_lt, hcount, hstored, List.length_append]
            simp only [arrived, List.filterMap_cons, List.filterMap_nil, List.length_singleton] at hroom
            exact Nat.lt_of_succ_lt_succ hroom
          have hlt' : (kbdRead b modifiers count ts).1.kbd.count < 512 := UInt32.lt_trans hlt (by decide)
          refine ⟨_, hgood.exec (e := .interrupt scanCode) (Or.inl hlt), ?_, htaken⟩
          simp only [Log.next]
          rw [if_pos hlt', hstored, List.append_assoc]
          rfl
      | goesOn =>
          refine ⟨_, hgood.step, ?_, ?_⟩
          · simp only [Log.next]
            split
            · simpa [arrived] using hstored
            · simpa [arrived] using hstored
          · simp only [Log.next, takenBy]
            split
            · simp [htaken, add_assoc]
            · exact htaken

/-- Over the arrivals: a call stays quiet when all codes have been taken out that were in the buffer or have
arrived, whenever the inner loop tests for codes and `count` is 0. -/
theorem staysQuiet_iff_arrived (h : Good ⟨b, modifiers, none⟩ l) {ts : List Tick}
    (hroom : l.stored.length + (arrived ts).length < kbdBufferSize) :
  StaysQuiet b modifiers count ts ↔ ∀ p c, p ++ [.goesOn] <+: ts →
    (kbdRead b modifiers count p).1.call = some c → c.pc = .inner → c.count = 0 →
    l.taken.length + (kbdRead b modifiers count p).2.length = l.stored.length + (arrived p).length
  := by
  have hiff : ∀ p c, p ++ [.goesOn] <+: ts → (kbdRead b modifiers count p).1.call = some c →
      c.pc = .inner → ((kbdRead b modifiers count p).1.kbd.head = (kbdRead b modifiers count p).1.kbd.tail ↔
        l.taken.length + (kbdRead b modifiers count p).2.length = l.stored.length + (arrived p).length) := by
    intro p c hp hc hpc
    have hle : (arrived p).length ≤ (arrived ts).length :=
      (((List.prefix_append p [.goesOn]).trans hp).sublist.filterMap _).length_le
    obtain ⟨l', hgood, hstored, htaken⟩ := kbdRead_good h count p (by omega)
    have hempty := hgood.looks_empty
    rw [Nat.mod_eq_of_lt (hgood.settled (by simp [hc, hpc])), hstored, htaken, List.length_append] at hempty
    exact hempty
  constructor
  · intro hquiet p c hp hc hpc hcount
    exact (hiff p c hp hc hpc).mp (hquiet p hp c hc hpc hcount)
  · intro hall p hp c hc hpc hcount
    exact (hiff p c hp hc hpc).mpr (hall p c hp hc hpc hcount)

end Arrivals

/-! ### Some calls -/

/-- No modifier key is down. -/
abbrev noModifiers : Modifiers := ⟨false, false, false⟩

/-- The call waits, and when it has been called for one character, `a` is pressed.  The key is released
when the call has left its inner loop. -/
def pressedWhileWaiting : List Tick :=
  [.goesOn, .goesOn, .arrives 0x1e] ++ List.replicate 6 .goesOn ++ [.arrives 0x9e]

instance (s : State) : Decidable (Quiet s) :=
  inferInstanceAs (Decidable (∀ c ∈ s.call, c.pc = .inner → c.count = 0 → s.kbd.head = s.kbd.tail))

theorem staysQuiet_of_take {b : KbdBuffer} {modifiers : Modifiers} {ts : List Tick}
    (h : ∀ k < ts.length, Quiet (kbdRead b modifiers count (ts.take k)).1) :
  StaysQuiet b modifiers count ts
  := by
  intro p hp
  have hlen := hp.length_le
  rw [List.length_append, List.length_singleton] at hlen
  have hprefix := (List.prefix_append p [.goesOn]).trans hp
  rw [List.prefix_iff_eq_take.mp hprefix]
  exact h p.length (by omega)

theorem kbd_read_respects_iff_waiting :
  Returns (kbdRead (kbdInit fun _ => 0).kbd noModifiers 1 pressedWhileWaiting).1
      ⟨.outer, 0, 1, [(0, 0x61)]⟩ ∧
    StaysQuiet (kbdInit fun _ => 0).kbd noModifiers 1 pressedWhileWaiting ∧
    Respects (kbdInit fun _ => 0).kbd noModifiers 1 pressedWhileWaiting
  := by
  have hreturns : Returns (kbdRead (kbdInit fun _ => 0).kbd noModifiers 1 pressedWhileWaiting).1
      ⟨.outer, 0, 1, [(0, 0x61)]⟩ := ⟨rfl, rfl, rfl⟩
  have hquiet : StaysQuiet (kbdInit fun _ => 0).kbd noModifiers 1 pressedWhileWaiting :=
    staysQuiet_of_take (by decide +kernel)
  exact ⟨hreturns, hquiet, ((kbd_read_respects_iff _ _ _ _).2 _ hreturns).mpr hquiet⟩

/-- A buffer with two scan codes. -/
abbrev twoCodes (sc sc' : UInt8) : KbdBuffer :=
  ⟨fun k => if k = 0 then sc else sc', 0, 2, 2⟩

/-- The call for one character, when `a` was pressed and released: it returns 1, and the code of the
release has been taken out.  When `a` was pressed twice, it writes behind the caller's buffer. -/
theorem reads_past_count :
  (∃ c, Returns (kbdRead (twoCodes 0x1e 0x9e) noModifiers 1 (List.replicate 10 .goesOn)).1 c ∧
      c.i = 1 ∧
      (kbdRead (twoCodes 0x1e 0x9e) noModifiers 1 (List.replicate 10 .goesOn)).2 =
        [(0x1e, 0x61), (0x9e, 0xFF)] ∧
      ¬ Exact 1 c [(0x1e, 0x61), (0x9e, 0xFF)]) ∧
    (∃ c, (kbdRead (twoCodes 0x1e 0x1e) noModifiers 1 (List.replicate 9 .goesOn)).1.call = some c ∧
      c.writes = [(0, 0x61), (1, 0x61)]) ∧
    ¬ Respects (twoCodes 0x1e 0x1e) noModifiers 1 (List.replicate 9 .goesOn)
  := by
  have hwrites : (kbdRead (twoCodes 0x1e 0x1e) noModifiers 1 (List.replicate 9 .goesOn)).1.call =
      some ⟨.inner, 0xFFFFFFFF, 2, [(0, 0x61), (1, 0x61)]⟩ := by rfl
  refine ⟨⟨⟨.outer, 0, 1, [(0, 0x61)]⟩, ⟨rfl, rfl, rfl⟩, rfl, rfl, ?_⟩, ⟨_, hwrites, rfl⟩, ?_⟩
  · intro hexact
    exact hexact.last rfl
  · intro hrespects
    have hin := (hrespects _ List.prefix_rfl).1 _ hwrites (1, 0x61) (by simp)
    exact absurd hin (by decide)

end Keyboard
