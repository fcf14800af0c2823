import Aenix.Lib.Loop

/-!
# Nullable pointers and linked lists

A store gives each address the cell allocated there, if any.  A pointer is an address or
null; reading and changing the cell a pointer refers to fails for the null pointer and for
an address where nothing is allocated.

`Chain next p as q` says that following `next` from the pointer `p` visits the addresses
`as` in order and then arrives at the pointer `q`.  Loops that follow a chain to its end find the
first address that passes a test (`searchBody`), or the last address when none before it does
(`tailBody`).
-/

namespace Pointer

/-- What goes wrong when a pointer is followed. -/
inductive Fault where
  | nullPointer
  | danglingPointer
  deriving DecidableEq, Repr

section Store

variable {Addr Cell : Type}

@[simp]
theorem ok_bind {α β : Type} (a : α) (f : α → Except Fault β) :
  (Except.ok a >>= f) = f a
  := rfl

/-- The cell a pointer refers to. -/
def readCell (mem : Addr → Option Cell) : Option Addr → Except Fault Cell
  | none => .error .nullPointer
  | some a =>
    match mem a with
    | none => .error .danglingPointer
    | some c => .ok c

theorem readCell_some {mem : Addr → Option Cell} {a : Addr} {c : Cell} (h : mem a = some c) :
  readCell mem (some a) = .ok c
  := by
  simp only [readCell, h]

variable [DecidableEq Addr]

/-- The store with the cell a pointer refers to changed by `f`. -/
def modifyCell (mem : Addr → Option Cell) (p : Option Addr) (f : Cell → Cell) :
    Except Fault (Addr → Option Cell) :=
  match p with
  | none => .error .nullPointer
  | some a =>
    match mem a with
    | none => .error .danglingPointer
    | some c => .ok (Function.update mem a (some (f c)))

theorem modifyCell_some {mem : Addr → Option Cell} {a : Addr} {c : Cell} (h : mem a = some c)
    (f : Cell → Cell) :
  modifyCell mem (some a) f = .ok (Function.update mem a (some (f c)))
  := by
  simp only [modifyCell, h]

end Store

section Chain

variable {Addr : Type} {next next' : Addr → Option Addr}

/-- Following `next` from `p` visits `as` in order and arrives at `q`. -/
def Chain (next : Addr → Option Addr) : Option Addr → List Addr → Option Addr → Prop
  | p, [], q => p = q
  | p, a :: as, q => p = some a ∧ Chain next (next a) as q

@[simp]
theorem chain_nil {p q : Option Addr} :
  Chain next p [] q ↔ p = q
  := Iff.rfl

@[simp]
theorem chain_cons {p q : Option Addr} {a : Addr} {as : List Addr} :
  Chain next p (a :: as) q ↔ p = some a ∧ Chain next (next a) as q
  := Iff.rfl

theorem chain_append {p q : Option Addr} {as bs : List Addr} :
  Chain next p (as ++ bs) q ↔ ∃ m, Chain next p as m ∧ Chain next m bs q
  := by
  induction as generalizing p with
  | nil => simp
  | cons a as ih => simp [ih, and_assoc]

theorem chain_concat {p q : Option Addr} {a : Addr} {as : List Addr} :
  Chain next p (as ++ [a]) q ↔ Chain next p as (some a) ∧ next a = q
  := by
  rw [chain_append]
  constructor
  · rintro ⟨m, has, rfl, hq⟩
    exact ⟨has, hq⟩
  · rintro ⟨has, hq⟩
    exact ⟨some a, has, rfl, hq⟩

/-- A chain depends only on `next` at the addresses it visits. -/
theorem Chain.congr {p q : Option Addr} {as : List Addr}
    (h : Chain next p as q) (hnext : ∀ a ∈ as, next' a = next a) :
  Chain next' p as q
  := by
  induction as generalizing p with
  | nil => apply h
  | cons a as ih =>
      obtain ⟨rfl, h⟩ := h
      refine ⟨rfl, ?_⟩
      rw [hnext a List.mem_cons_self]
      apply ih h
      intro b hb
      apply hnext b (List.mem_cons_of_mem a hb)

/-- A chain starts at the first address it visits. -/
theorem Chain.head_eq {p q : Option Addr} {as : List Addr} (h : Chain next p as q) :
  p = as.head?.or q
  := by
  cases as with
  | nil => simpa using h
  | cons a as => simpa using h.1

/-- A chain that ends in the null pointer is null at its start exactly when it is empty. -/
theorem Chain.eq_none_iff {p : Option Addr} {as : List Addr} (h : Chain next p as none) :
  p = none ↔ as = []
  := by
  rw [h.head_eq]
  cases as with
  | nil => simp
  | cons a as => simp

/-- The addresses that a pointer leads to are determined by it. -/
theorem Chain.unique {p : Option Addr} {as bs : List Addr} (h : Chain next p as none)
    (h' : Chain next p bs none) :
  as = bs
  := by
  induction as generalizing p bs with
  | nil => exact (h'.eq_none_iff.mp h).symm
  | cons a as ih =>
      obtain ⟨rfl, h⟩ := h
      cases bs with
      | nil => simp at h'
      | cons b bs =>
          obtain ⟨heq, h'⟩ := h'
          obtain rfl := Option.some.inj heq
          rw [ih h h']

/-- A chain that ends visits no address twice. -/
theorem Chain.nodup {p : Option Addr} {as : List Addr} (h : Chain next p as none) :
  as.Nodup
  := by
  induction as generalizing p with
  | nil => exact List.nodup_nil
  | cons a as ih =>
      refine List.nodup_cons.mpr ⟨?_, ih h.2⟩
      -- the part after a second visit would be as long as the whole
      intro ha
      obtain ⟨bs, cs, rfl⟩ := List.append_of_mem ha
      obtain ⟨m, -, rfl, hcs⟩ := chain_append.mp h.2
      have hlen := congrArg List.length (h.2.unique hcs)
      simp only [List.length_append, List.length_cons] at hlen
      omega

end Chain

section Search

variable {Addr : Type} (next : Addr → Option Addr) (test : Addr → Bool)

/-- A round of `for (i = p; i != NULL; i = i->next)`, which is left when `i` passes the test. -/
def searchBody : Option Addr → Option Addr ⊕ Option Addr
  | none => .inr none
  | some i => if test i then .inr (some i) else .inl (next i)

/-- A round of `while (i->next != NULL)`, which is left with `none` when `i` passes the test. -/
def tailBody (i : Addr) : Addr ⊕ Option Addr :=
  match next i with
  | none => .inr (some i)
  | some j => if test i then .inr none else .inl j

variable {next}

theorem Chain.search {p : Option Addr} {as : List Addr} (h : Chain next p as none) :
  Loop.Returns (searchBody next test) p (as.find? test)
  := by
  induction as generalizing p with
  | nil =>
      obtain rfl : p = none := h
      exact ⟨1, rfl⟩
  | cons a as ih =>
      obtain ⟨rfl, h⟩ := h
      rw [List.find?_cons]
      cases ha : test a with
      | true =>
          refine ⟨1, Loop.run_leave ?_ 0⟩
          simp [searchBody, ha]
      | false =>
          obtain ⟨n, hn⟩ := ih h
          have hstep : searchBody next test (some a) = .inl (next a) := by simp [searchBody, ha]
          refine ⟨n + 1, ?_⟩
          rw [Loop.run_continue hstep]
          exact hn

theorem Chain.tail {a b : Addr} {as : List Addr} (h : Chain next (some a) (as ++ [b]) none) :
  Loop.Returns (tailBody next test) a (if as.any test then none else some b)
  := by
  induction as generalizing a with
  | nil =>
      obtain ⟨heq, hb⟩ := h
      obtain rfl := Option.some.inj heq
      refine ⟨1, Loop.run_leave ?_ 0⟩
      simp [tailBody, show next a = none from hb]
  | cons c as ih =>
      obtain ⟨heq, h⟩ := h
      obtain rfl := Option.some.inj heq
      obtain ⟨j, hj⟩ : ∃ j, next a = some j := by
        cases hnext : next a with
        | none =>
            rw [hnext] at h
            simpa using h.eq_none_iff.mp rfl
        | some j => exact ⟨j, rfl⟩
      rw [hj] at h
      cases ha : test a with
      | true =>
          refine ⟨1, Loop.run_leave ?_ 0⟩
          simp [tailBody, hj, ha]
      | false =>
          obtain ⟨n, hn⟩ := ih h
          have hstep : tailBody next test a = .inl j := by simp [tailBody, hj, ha]
          refine ⟨n + 1, ?_⟩
          rw [Loop.run_continue hstep]
          simpa [ha] using hn

end Search

end Pointer
