import Aenix.Keyboard.Basic

/-!
# The keyboard buffer as a queue

The buffer is meant to be a queue of `KBD_BUFFER_SIZE` scan codes that discards what arrives while
it is full.  `count` is never decremented, though, and counts the codes that have ever been stored:
the codes after the 512th are lost even when the buffer is empty, and when the 512th is stored
before any has been taken out, `head` and `tail` are equal and the buffer looks empty.  The buffer is a
queue in exactly those runs in which neither happens (`keyboard_fifo_iff`).
-/

namespace Keyboard

/-- What has happened to the scan codes: those that a queue of `KBD_BUFFER_SIZE` codes keeps, those
that the handler has stored, and those that `kbd_read` has taken out. -/
structure Log where
  kept : List UInt8
  stored : List UInt8
  taken : List UInt8

/-- The number of codes that are kept and not taken out. -/
def Log.unread (l : Log) : ℕ :=
  l.kept.length - l.taken.length

/-- The log after an event. -/
def Log.next (s : State) (l : Log) : Event → Log
  | .interrupt scanCode =>
    { l with
      kept := if l.unread < kbdBufferSize then l.kept ++ [scanCode] else l.kept
      stored := if s.kbd.count < 512 then l.stored ++ [scanCode] else l.stored }
  | .read _ => l
  | .step =>
    if s.call.map Call.pc = some .take then { l with taken := l.taken ++ [s.kbd.buffer s.kbd.head] }
    else l

/-- The driver with its log, from `kbd_init` through a sequence of events. -/
def run (buffer : ℕ → UInt8) (es : List Event) : State × Log :=
  es.foldl (fun (s, l) e => (exec s e, l.next s e)) (kbdInit buffer, ⟨[], [], []⟩)

theorem run_concat (buffer : ℕ → UInt8) (es : List Event) (e : Event) :
  run buffer (es ++ [e]) =
    (exec (run buffer es).1 e, (run buffer es).2.next (run buffer es).1 e)
  := by
  rw [run, List.foldl_concat]
  rfl

/-- The codes stored are those to be kept, they are taken out in their order, and the buffer looks
empty exactly when all of them have been taken out.  (While the test for the end of the buffer is
pending, `head` may be at the end.) -/
structure IsFifo (s : State) (l : Log) : Prop where
  stored : l.stored = l.kept
  taken : l.taken <+: l.kept
  empty : s.kbd.head % kbdBufferSize = s.kbd.tail ↔ l.taken = l.kept

/-- A scan code arrives before the 512th has been stored, and when it is the 512th, after one has
been taken out. -/
def Accepts (s : State) (l : Log) : Event → Prop
  | .interrupt _ => s.kbd.count < 511 ∨ (s.kbd.count = 511 ∧ l.taken ≠ [])
  | _ => True

/-! ### The invariant -/

/-- As long as events are accepted, the buffer holds all the codes that have arrived, from its first
place on. -/
structure Good (s : State) (l : Log) : Prop where
  kept : l.kept = l.stored
  count : s.kbd.count.toNat = l.stored.length
  bound : l.stored.length ≤ kbdBufferSize
  tail : s.kbd.tail = l.stored.length % kbdBufferSize
  buffer : ∀ k < l.stored.length, l.stored[k]? = some (s.kbd.buffer k)
  taken : l.taken <+: l.stored
  head : s.kbd.head % kbdBufferSize = l.taken.length % kbdBufferSize
  settled : (∀ ch, s.call.map Call.pc ≠ some (.wrap ch)) → s.kbd.head < kbdBufferSize
  pending : s.kbd.head ≤ kbdBufferSize
  unread : s.call.map Call.pc = some .take → l.taken.length < l.stored.length
  started : l.stored.length = kbdBufferSize → l.taken ≠ []

variable {s : State} {l : Log}

theorem Good.taken_length (h : Good s l) :
  l.taken.length ≤ l.stored.length
  := h.taken.length_le

/-- The buffer looks empty exactly when all the codes have been taken out. -/
theorem Good.looks_empty (h : Good s l) :
  s.kbd.head % kbdBufferSize = s.kbd.tail ↔ l.taken.length = l.stored.length
  := by
  have hle := h.taken_length
  have hbound := h.bound
  have hstarted := h.started
  rw [h.head, h.tail]
  simp only [kbdBufferSize] at hbound hstarted ⊢
  constructor
  · intro heq
    by_contra hne
    have hfull : l.stored.length = 512 := by omega
    have hnone : l.taken = [] := by
      rw [← List.length_eq_zero_iff]
      omega
    exact hstarted hfull hnone
  · intro heq
    rw [heq]

theorem Good.isFifo (h : Good s l) :
  IsFifo s l
  := by
  refine ⟨h.kept.symm, ?_, ?_⟩
  · rw [h.kept]
    exact h.taken
  · rw [h.looks_empty, h.kept]
    exact ⟨fun hlen => h.taken.eq_of_length hlen, fun heq => by rw [heq]⟩

theorem good_init (buffer : ℕ → UInt8) :
  Good (kbdInit buffer) ⟨[], [], []⟩
  := by
  constructor <;> simp [kbdInit]

/-- The place of the next code, as long as there is one. -/
theorem Good.tail_lt (h : Good s l) (hlt : l.stored.length < kbdBufferSize) :
  s.kbd.tail = l.stored.length
  := by
  rw [h.tail, Nat.mod_eq_of_lt hlt]

theorem wrap_succ {p : ℕ} (h : p < kbdBufferSize) :
  wrap (p + 1) = (p + 1) % kbdBufferSize
  := by
  rw [wrap]
  split
  case isTrue heq => rw [heq, Nat.mod_self]
  case isFalse hne => rw [Nat.mod_eq_of_lt (by omega)]

theorem Good.interrupt (h : Good s l) (sc : UInt8) (haccepts : Accepts s l (.interrupt sc)) :
  Good (exec s (.interrupt sc)) (l.next s (.interrupt sc))
  := by
  have hcount := h.count
  have hlt : l.stored.length < kbdBufferSize := by
    rcases haccepts with hless | ⟨heq, -⟩
    · rw [UInt32.lt_iff_toNat_lt, hcount] at hless
      exact hless.trans (by decide)
    · rw [← hcount, heq]
      decide
  have hroom : s.kbd.count < 512 := by
    rw [UInt32.lt_iff_toNat_lt, hcount]
    exact hlt
  have hunread : l.unread < kbdBufferSize := by
    rw [Log.unread, h.kept]
    omega
  have htail := h.tail_lt hlt
  have hlength : (l.stored ++ [sc]).length = l.stored.length + 1 := by simp
  simp only [exec, Log.next, keyboardHandleInterrupt, if_pos hroom, if_pos hunread]
  refine ⟨?_, ?_, ?_, ?_, ?_, ?_, h.head, h.settled, h.pending, ?_, ?_⟩
  · rw [h.kept]
  · rw [UInt32.toNat_add, hcount, hlength, UInt32.toNat_one, Nat.mod_eq_of_lt]
    exact (Nat.succ_le_of_lt hlt).trans_lt (by decide)
  · rw [hlength]
    exact hlt
  · rw [htail, wrap_succ hlt, hlength]
  · intro k hk
    rw [hlength] at hk
    simp only [htail]
    by_cases hend : k = l.stored.length
    · rw [hend, Function.update_self, List.getElem?_concat_length]
    · have hk' : k < l.stored.length := by omega
      rw [Function.update_of_ne hend, List.getElem?_append_left hk', h.buffer k hk']
  · exact h.taken.trans (List.prefix_append _ _)
  · intro hpc
    rw [hlength]
    exact (h.unread hpc).trans (Nat.lt_succ_self _)
  · intro hfull
    rw [hlength, kbdBufferSize] at hfull
    rcases haccepts with hless | ⟨-, hne⟩
    · rw [UInt32.lt_iff_toNat_lt, hcount, show (511 : UInt32).toNat = 511 from rfl] at hless
      omega
    · exact hne

/-- A step that leaves the buffer and the log alone, and does not go on to take out a code. -/
theorem Good.move (h : Good s l) (c : Option Call)
    (hpc : c.map Call.pc = some .take → l.taken.length < l.stored.length)
    (hhead : s.kbd.head < kbdBufferSize) :
  Good { s with call := c } l
  := ⟨h.kept, h.count, h.bound, h.tail, h.buffer, h.taken, h.head, fun _ => hhead, h.pending, hpc,
    h.started⟩

theorem Good.step (h : Good s l) :
  Good (exec s .step) (l.next s .step)
  := by
  cases hcall : s.call with
  | none =>
      simp only [exec, hcall, Log.next, Option.map_none, if_neg (Option.some_ne_none _).symm]
      exact h
  | some c =>
      have hmap : s.call.map Call.pc = some c.pc := by rw [hcall, Option.map_some]
      simp only [exec, hcall, Log.next, Option.map_some, Option.some.injEq]
      cases hpc : c.pc with
      | outer =>
          have hhead := h.settled (by simp [hmap, hpc])
          simp only [kbdReadStep, hpc, reduceCtorEq, if_false]
          apply h.move _ _ hhead
          split
          · simp
          · simp
      | inner =>
          have hhead := h.settled (by simp [hmap, hpc])
          simp only [kbdReadStep, hpc, reduceCtorEq, if_false]
          apply h.move _ _ hhead
          simp only [Option.map_some, Option.some.injEq]
          split
          case isTrue hne =>
            intro _
            have hempty := h.looks_empty
            rw [Nat.mod_eq_of_lt hhead] at hempty
            have hle := h.taken_length
            have hlen : l.taken.length ≠ l.stored.length := fun heq => hne (hempty.mpr heq)
            omega
          case isFalse => simp
      | take =>
          have hhead := h.settled (by simp [hmap, hpc])
          have hlt := h.unread (by rw [hmap, hpc])
          have hbound := h.bound
          have heq : s.kbd.head = l.taken.length := by
            have hmod := h.head
            rw [Nat.mod_eq_of_lt hhead, Nat.mod_eq_of_lt (by omega)] at hmod
            exact hmod
          have hnext : l.taken ++ [s.kbd.buffer s.kbd.head] <+: l.stored := by
            obtain ⟨rest, hrest⟩ := h.taken
            have hget := h.buffer _ hlt
            rw [← hrest, List.getElem?_append_right le_rfl, Nat.sub_self] at hget
            cases rest with
            | nil => simp at hget
            | cons r rest =>
                obtain rfl : r = s.kbd.buffer l.taken.length := by simpa using hget
                refine ⟨rest, ?_⟩
                rw [heq, ← hrest]
                simp
          simp only [kbdReadStep, hpc, if_true]
          refine ⟨h.kept, h.count, h.bound, h.tail, h.buffer, hnext, ?_, ?_, ?_, ?_, ?_⟩
          · rw [heq, List.length_append, List.length_singleton]
          · intro hwrap
            exact absurd rfl (hwrap _)
          · exact hhead
          · simp
          · simp
      | wrap ch =>
          simp only [kbdReadStep, hpc, reduceCtorEq, if_false]
          have hpending := h.pending
          have hmod : wrap s.kbd.head = s.kbd.head % kbdBufferSize := by
            rw [wrap]
            split
            case isTrue heq => rw [heq, Nat.mod_self]
            case isFalse hne => rw [Nat.mod_eq_of_lt (by omega)]
          have hlt : wrap s.kbd.head < kbdBufferSize := by
            rw [hmod]
            exact Nat.mod_lt _ (by decide)
          refine ⟨h.kept, h.count, h.bound, h.tail, h.buffer, h.taken, ?_, fun _ => hlt, hlt.le, ?_,
            h.started⟩
          · simp only [hmod, Nat.mod_mod, h.head]
          · simp
      | store ch =>
          have hhead := h.settled (by simp [hmap, hpc])
          simp only [kbdReadStep, hpc, reduceCtorEq, if_false]
          apply h.move _ _ hhead
          split
          · simp
          · simp

theorem Good.read (h : Good s l) (count : UInt32) :
  Good (exec s (.read count)) (l.next s (.read count))
  := by
  cases hcall : s.call with
  | none =>
      simp only [exec, hcall, Log.next]
      exact h.move _ (by simp) (h.settled (by simp [hcall]))
  | some c =>
      simp only [exec, hcall, Log.next]
      exact h

theorem Good.exec (h : Good s l) {e : Event} (haccepts : Accepts s l e) :
  Good (Keyboard.exec s e) (l.next s e)
  := by
  cases e with
  | interrupt sc => exact h.interrupt sc haccepts
  | read count => exact h.read count
  | step => exact h.step

/-- A code that is not accepted is lost or makes the buffer look empty. -/
theorem Good.not_isFifo (h : Good s l) {e : Event} (hreject : ¬ Accepts s l e) :
  ¬ IsFifo (Keyboard.exec s e) (l.next s e)
  := by
  cases e with
  | read count => exact absurd trivial hreject
  | step => exact absurd trivial hreject
  | interrupt sc =>
      have hcount := h.count
      have hbound : l.stored.length ≤ 512 := h.bound
      simp only [Accepts, not_or, not_and, not_not, UInt32.lt_iff_toNat_lt, hcount] at hreject
      obtain ⟨hmany, hfirst⟩ := hreject
      rw [show (511 : UInt32).toNat = 511 from rfl] at hmany
      rintro ⟨hstored, -, hempty⟩
      by_cases hlast : l.stored.length = 511
      · -- the 512th code is stored before any is taken out
        have hnone : l.taken = [] := hfirst (by
          rw [← UInt32.toNat_inj, hcount, hlast]
          rfl)
        have hroom : s.kbd.count < 512 := by
          rw [UInt32.lt_iff_toNat_lt, hcount, hlast]
          decide
        have hunread : l.unread < kbdBufferSize := by
          rw [Log.unread, h.kept, hlast, hnone]
          decide
        have hhead : s.kbd.head % kbdBufferSize = 0 := by rw [h.head, hnone]; rfl
        have htail : wrap (s.kbd.tail + 1) = 0 := by
          rw [h.tail, hlast]
          rfl
        simp only [Keyboard.exec, Log.next, keyboardHandleInterrupt, if_pos hroom, if_pos hunread,
          hhead, htail, hnone, true_iff] at hempty
        simp at hempty
      · -- a further code is not stored, although there is room
        have hfull : l.stored.length = 512 := by omega
        have hroom : ¬ s.kbd.count < 512 := by
          rw [UInt32.lt_iff_toNat_lt, hcount, hfull]
          decide
        have hsome : 0 < l.taken.length := List.length_pos_iff.mpr (h.started hfull)
        have hunread : l.unread < kbdBufferSize := by
          rw [Log.unread, h.kept, hfull, kbdBufferSize]
          omega
        simp only [Log.next, if_neg hroom, if_pos hunread, h.kept] at hstored
        simpa using congrArg List.length hstored

/-! ### Runs -/

theorem good_run {buffer : ℕ → UInt8} {es : List Event}
    (h : ∀ p e, p ++ [e] <+: es → Accepts (run buffer p).1 (run buffer p).2 e) :
  Good (run buffer es).1 (run buffer es).2
  := by
  induction es using List.reverseRecOn with
  | nil => exact good_init buffer
  | append_singleton es e ih =>
      rw [run_concat]
      apply Good.exec
      · apply ih
        intro p e' hp
        exact h p e' (hp.trans (List.prefix_append _ _))
      · exact h es e (List.prefix_refl _)

/-- The buffer is a queue throughout a run exactly when every scan code arrives before the 512th has
been stored, and the 512th after one has been taken out. -/
theorem keyboard_fifo_iff (buffer : ℕ → UInt8) (es : List Event) :
  (∀ p, p <+: es → IsFifo (run buffer p).1 (run buffer p).2) ↔
    ∀ p e, p ++ [e] <+: es → Accepts (run buffer p).1 (run buffer p).2 e
  := by
  constructor
  · intro hfifo
    induction es using List.reverseRecOn with
    | nil => simp
    | append_singleton es e ih =>
        have hes := ih fun p hp => hfifo p (hp.trans (List.prefix_append _ _))
        intro p e' hp
        rcases List.prefix_concat_iff.mp hp with heq | hp
        · obtain ⟨rfl, rfl⟩ : p = es ∧ e' = e := by simpa using List.append_inj' heq rfl
          by_contra hreject
          have hlast := hfifo _ (List.prefix_refl _)
          rw [run_concat] at hlast
          exact (good_run hes).not_isFifo hreject hlast
        · exact hes p e' hp
  · intro haccepts p hp
    apply Good.isFifo
    apply good_run
    exact fun q e hq => haccepts q e (hq.trans hp)

/-- After 512 scan codes with none taken out, the buffer looks empty. -/
theorem full_buffer_looks_empty :
  ¬ ∀ p, p <+: List.replicate 512 (Event.interrupt 0x1e) →
    IsFifo (run (fun _ => 0) p).1 (run (fun _ => 0) p).2
  := by
  intro h
  have hfifo := h _ (List.prefix_refl _)
  have hempty := hfifo.empty.mp (by decide +kernel)
  exact absurd hempty (by decide +kernel)

end Keyboard
