import Aenix.Process.Labels

/-!
# Worlds

`Keeps new gone` says what a program leaves alone: only labels in `new` are given and only labels
in `gone` are taken away, only frames with such labels are written to, and what the kernel has
mapped stays mapped.  `Spec` adds this to what holds after a program.
-/

open Aenix
open Paging hiding Call exec Step

namespace Process

/-- A state of the kernel with labels that fit it. -/
structure World where
  heap : Kmalloc.Heap State
  own : Labels
  labelled : Labelled heap.kernel own

/-- The state of paging. -/
abbrev World.state (w : World) : State :=
  w.heap.kernel

/-- The entry for a page of the kernel. -/
abbrev World.page (w : World) (v : UInt32) : Option Entry :=
  w.state.page w.state.kernelPdt v

/-- The kernel has frames with this label mapped as long as they are in use. -/
def Tag.Mapped : Tag → Prop
  | .heap => True
  | .pdt _ => True
  | .kernelStack _ => True
  | _ => False

/-- The pages of a region are mapped to memory of the heap. -/
def World.OnHeap (w : World) (r : Frames.Region) : Prop :=
  ∀ v : UInt32, r.Contains v.toNat → ∃ e, w.page v = some e ∧ w.own e.paddr = some .heap

/-- The second world differs from the first one in what `new` and `gone` allow. -/
structure Keeps (new gone : Set Tag) (w w' : World) : Prop where
  map : Pfa.SameMap w.state.pfa w'.state.pfa
  vars : SameVars w.state w'.state
  label : ∀ f t, w.own f = some t → t ∉ gone → w'.own f = some t
  fresh : ∀ f t, w'.own f = some t → w.own f = some t ∨ t ∈ new
  contents : ∀ f t, w.own f = some t → t ∉ new → t ∉ gone → w'.state.mem f = w.state.mem f
  page : ∀ v e t, w.page v = some e → w.own e.paddr = some t → t.Mapped → t ∉ gone →
    w'.page v = some e
  acquired : ∀ r ∈ w'.heap.acquired, r ∈ w.heap.acquired ∨ w'.OnHeap r

namespace Keeps

variable {new new' gone gone' : Set Tag} {w w' w'' : World}

theorem refl (new gone : Set Tag) (w : World) :
  Keeps new gone w w
  := by
  refine ⟨Pfa.SameMap.refl _, SameVars.refl _, ?_, ?_, ?_, ?_, ?_⟩
  · exact fun _ _ h _ => h
  · exact fun _ _ h => Or.inl h
  · exact fun _ _ _ _ _ => rfl
  · exact fun _ _ _ h _ _ _ => h
  · exact fun _ h => Or.inl h

theorem mono (h : Keeps new gone w w') (hnew : new ⊆ new') (hgone : gone ⊆ gone') :
  Keeps new' gone' w w'
  := by
  refine ⟨h.map, h.vars, ?_, ?_, ?_, ?_, h.acquired⟩
  · exact fun f t hf ht => h.label f t hf fun hin => ht (hgone hin)
  · exact fun f t hf => (h.fresh f t hf).imp_right fun hin => hnew hin
  · exact fun f t hf ht ht' => h.contents f t hf (fun hin => ht (hnew hin)) fun hin => ht' (hgone hin)
  · exact fun v e t hv he ht ht' => h.page v e t hv he ht fun hin => ht' (hgone hin)

/-- Memory of the heap stays what it is. -/
theorem onHeap (h : Keeps new gone w w') (hgone : .heap ∉ gone) {r : Frames.Region}
    (hr : w.OnHeap r) :
  w'.OnHeap r
  := by
  intro v hv
  obtain ⟨e, he, hown⟩ := hr v hv
  exact ⟨e, h.page v e _ he hown trivial hgone, h.label _ _ hown hgone⟩

theorem trans (h : Keeps new gone w w') (h' : Keeps new gone w' w'') (hgone : .heap ∉ gone) :
  Keeps new gone w w''
  := by
  refine ⟨h.map.trans h'.map, h.vars.trans h'.vars, ?_, ?_, ?_, ?_, ?_⟩
  · exact fun f t hf ht => h'.label f t (h.label f t hf ht) ht
  · intro f t hf
    rcases h'.fresh f t hf with hf' | ht
    · exact h.fresh f t hf'
    · exact Or.inr ht
  · intro f t hf ht ht'
    rw [h'.contents f t (h.label f t hf ht') ht ht', h.contents f t hf ht ht']
  · exact fun v e t hv he ht ht' =>
      h'.page v e t (h.page v e t hv he ht ht') (h.label _ t he ht') ht ht'
  · intro r hr
    rcases h'.acquired r hr with hr' | hon
    · exact (h.acquired r hr').imp_right fun hon => h'.onHeap hgone hon
    · exact Or.inr hon

/-- A label that is neither new nor gone. -/
theorem own_iff (h : Keeps new gone w w') {t : Tag} (hnew : t ∉ new) (hgone : t ∉ gone)
    (f : UInt32) :
  w'.own f = some t ↔ w.own f = some t
  := by
  constructor
  · intro hf
    exact (h.fresh f t hf).resolve_right hnew
  · exact fun hf => h.label f t hf hgone

/-- What the kernel has mapped stays mapped. -/
theorem resolve (h : Keeps new gone w w') {v f : UInt32} {t : Tag}
    (hv : w.state.resolve v = some f) (hf : w.own f = some t) (ht : t.Mapped) (hgone : t ∉ gone) :
  w'.state.resolve v = some f
  := by
  obtain ⟨e, he, rfl⟩ := Option.map_eq_some_iff.mp hv
  exact Option.map_eq_some_iff.mpr ⟨e, h.page v e t he hf ht hgone, rfl⟩

end Keeps

/-- When the program returns from the world `w`, the state after it belongs to a world that is
related to `w` by `Keeps`, and satisfies `Q`. -/
def Spec {α : Type} (new gone : Set Tag) (f : Kern α) (w : World) (Q : α → World → Prop) : Prop :=
  After f w.heap fun a h => ∃ w', w'.heap = h ∧ Keeps new gone w w' ∧ Q a w'

namespace Spec

variable {α β : Type} {new new' gone gone' : Set Tag} {f : Kern α} {g : α → Kern β} {w : World}
  {P Q : α → World → Prop} {R : β → World → Prop}

theorem mono (h : Spec new gone f w P) (hnew : new ⊆ new') (hgone : gone ⊆ gone')
    (hPQ : ∀ a w', Keeps new gone w w' → P a w' → Q a w') :
  Spec new' gone' f w Q
  := by
  refine After.mono h ?_
  rintro a h' ⟨w', rfl, hkeeps, ha⟩
  exact ⟨w', rfl, hkeeps.mono hnew hgone, hPQ a w' hkeeps ha⟩

theorem pure {a : α} (h : Q a w) :
  Spec new gone (Pure.pure a) w Q
  := After.pure ⟨w, rfl, Keeps.refl new gone w, h⟩

/-- The second program runs in the world that the first one leaves. -/
theorem bind (h : Spec new' gone' f w P) (hnew : new' ⊆ new) (hgone : gone' ⊆ gone)
    (hheap : .heap ∉ gone)
    (hg : ∀ a w', Keeps new' gone' w w' → P a w' → Spec new gone (g a) w' R) :
  Spec new gone (f >>= g) w R
  := by
  refine After.bind h ?_
  rintro a h' ⟨w', rfl, hkeeps, ha⟩
  refine After.mono (hg a w' hkeeps ha) ?_
  rintro b h'' ⟨w'', rfl, hkeeps', hb⟩
  exact ⟨w'', rfl, (hkeeps.mono hnew hgone).trans hkeeps' hheap, hb⟩

theorem ite {c : Prop} [Decidable c] {f' : Kern α} (h : c → Spec new gone f w Q)
    (h' : ¬ c → Spec new gone f' w Q) :
  Spec new gone (if c then f else f') w Q
  := After.ite h h'

/-- A program on the state of paging. -/
theorem paging {f : State → Option (α × State)}
    (h : ∀ a s', f w.state = some (a, s') →
      ∃ w', w'.heap = { w.heap with kernel := s' } ∧ Keeps new gone w w' ∧ Q a w') :
  Spec new gone (Process.paging f) w Q
  := by
  intro a h' hrun
  obtain ⟨⟨a', s'⟩, hf, heq⟩ := Option.map_eq_some_iff.mp hrun
  obtain ⟨rfl, rfl⟩ := Prod.mk.inj heq
  exact h a' s' hf

end Spec

end Process
