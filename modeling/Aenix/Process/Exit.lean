import Aenix.Process.Whole

/-!
# The end of a process

`process_delete_resources` frees the directory of a process, the frames of its lists and its stack in the kernel, each
once, and of the rest of the kernel at most page tables of the kernel that have become empty (`Frees`).  Frames that are
free have no label.
-/

open Aenix
open Paging hiding Call exec Step

namespace Process

variable {w w' w'' : World} {gone gone' : Set Tag} {F F' : Set UInt32} {p n : UInt32} {t : Tag} {ps : Ps}

/-! ### Freeing -/

/-- A frame with this label may be freed: it is not a page table, and no directory that is in use maps it for a user. -/
def World.Loose (w : World) (t : Tag) : Prop :=
  t ≠ .kernelTable ∧ (∀ d, t ≠ .table d) ∧ ∀ d, t = .user d → w.own d ≠ some (.pdt d)

/-- The page tables of the kernel. -/
def World.kernelTables (w : World) : Set UInt32 :=
  {f | ∃ i < 1024, w.state.has w.state.kernelPdt i ∧ f = w.state.table w.state.kernelPdt i}

/-- The frames `F` have become free and have lost their labels, which are in `gone`, and nothing else has, but for
page tables of the kernel. -/
structure Frees (gone : Set Tag) (F : Set UInt32) (w w' : World) : Prop where
  keeps : Keeps ∅ gone w w'
  stays : ∀ f t, w.own f = some t → f ∉ F → t ≠ .kernelTable → w'.own f = some t
  freed : ∀ f : UInt32, f.toNat ∈ w.state.pfa.free ∨ f ∈ F → f.toNat ∈ w'.state.pfa.free
  only : ∀ f : UInt32, f.toNat ∈ w'.state.pfa.free → f.toNat ∈ w.state.pfa.free ∨ f ∈ F ∨ f ∈ w.kernelTables
  tables : w'.kernelTables ⊆ w.kernelTables

namespace Frees

theorem mono (h : Frees gone F w w') (hgone : gone ⊆ gone') :
  Frees gone' F w w'
  := ⟨h.keeps.mono subset_rfl hgone, h.stays, h.freed, h.only, h.tables⟩

theorem refl (gone : Set Tag) (w : World) :
  Frees gone ∅ w w
  := by
  refine ⟨Keeps.refl ∅ gone w, fun _ _ h _ _ => h, ?_, ?_, subset_rfl⟩
  · exact fun f hf => hf.resolve_right (Set.notMem_empty _)
  · exact fun f hf => Or.inl hf

theorem trans (h : Frees gone F w w') (h' : Frees gone F' w' w'') (hgone : .heap ∉ gone) :
  Frees gone (F ∪ F') w w''
  := by
  refine ⟨h.keeps.trans h'.keeps hgone, ?_, ?_, ?_, h'.tables.trans h.tables⟩
  · intro f t hf hnot ht
    rw [Set.mem_union, not_or] at hnot
    exact h'.stays f t (h.stays f t hf hnot.1 ht) hnot.2 ht
  · rintro f (hf | hf | hf)
    · exact h'.freed f (Or.inl (h.freed f (Or.inl hf)))
    · exact h'.freed f (Or.inl (h.freed f (Or.inr hf)))
    · exact h'.freed f (Or.inr hf)
  · intro f hf
    rcases h'.only f hf with hf | hf | hf
    · exact (h.only f hf).imp_right fun hf => hf.imp_left Or.inl
    · exact Or.inr (Or.inl (Or.inr hf))
    · exact Or.inr (Or.inr (h.tables hf))

/-- A frame that has become free has no label. -/
theorem own_eq_none (h : Frees gone F w w') {f : UInt32} (hf : f ∈ F) :
  w'.own f = none
  := by
  by_contra hsome
  obtain ⟨t, ht⟩ := Option.ne_none_iff_exists'.mp hsome
  exact (w'.labelled.held f t ht).2 (h.freed f (Or.inr hf))

theorem loose (h : Frees gone F w w') (ht : w.Loose t) :
  w'.Loose t
  := by
  refine ⟨ht.1, ht.2.1, ?_⟩
  intro d hd hown
  exact ht.2.2 d hd ((h.keeps.fresh d _ hown).resolve_right (Set.notMem_empty _))

end Frees

/-- Frames become free that may be freed. -/
theorem World.release (w : World) {pfa : Pfa.State} (hmap : Pfa.SameMap w.state.pfa pfa)
    (hfree : ∀ f : UInt32, f.toNat ∈ pfa.free ↔ f.toNat ∈ w.state.pfa.free ∨ f ∈ F)
    (hF : ∀ f ∈ F, ∃ t ∈ gone, w.own f = some t) (hgone : ∀ t ∈ gone, w.Loose t) :
  ∃ w' : World, w'.heap = { w.heap with kernel := { w.state with pfa := pfa } } ∧ Frees gone F w w'
  := by
  have hl := w.labelled
  have hused : ∀ {f}, f.toNat ∉ w.state.pfa.free → (∀ t ∈ gone, w.own f ≠ some t) → f.toNat ∉ pfa.free := by
    intro f hf ht hin
    obtain ⟨t, hmem, hown⟩ := hF f (((hfree f).mp hin).resolve_left hf)
    exact ht t hmem hown
  have hkept : ∀ {f t}, w.own f = some t → t ∉ gone → f.toNat ∉ pfa.free := by
    intro f t hf ht
    apply hused (hl.held f t hf).2
    rintro t' hmem hown
    rw [hf] at hown
    exact ht (Option.some.inj hown ▸ hmem)
  have hne : ∀ t ∈ gone, t ≠ .kernelTable := fun t ht => (hgone t ht).1
  have hlabel : ∀ {f t}, w.own f = some t → t ∉ gone →
      relabel w.state { w.state with pfa := pfa } .heap w.own f = some t := by
    intro f t hf ht
    rw [relabel_of_used (hl.held f t hf).2 (hkept hf ht)]
    exact hf
  refine ⟨⟨{ w.heap with kernel := { w.state with pfa := pfa } },
    relabel w.state { w.state with pfa := pfa } .heap w.own, ?_⟩, rfl,
    ⟨hmap, ⟨rfl, rfl, rfl⟩, fun f t hf ht => hlabel hf ht, ?_, fun _ _ _ _ _ => rfl, fun _ _ _ h _ _ _ => h,
    fun _ hr => Or.inl hr⟩, ?_, fun f => (hfree f).mpr, fun f hf => ((hfree f).mp hf).imp_right Or.inl, subset_rfl⟩
  · refine hl.relabel hmap ⟨rfl, rfl, rfl⟩ ?_ (by simp) rfl (fun _ _ _ => Or.inl rfl) ?_
    · -- the directory of the kernel and its page tables are not freed
      obtain ⟨⟨hpdt, hpt, hnept, htable, hself, hinj⟩, htmp⟩ := hl.kernel
      refine ⟨⟨hused hpdt ?_, hused hpt ?_, hnept, fun i hi hhas => hused (htable i hi hhas) ?_, hself, hinj⟩, htmp⟩
      · exact fun t _ hown => hl.ne_pdt hown rfl
      · exact fun t _ hown => hl.ne_pt hown rfl
      · exact fun t ht hown => hl.ne_kernelTable hown (hne t ht) hi hhas rfl
    · intro d hd hdfree
      refine (hl.dirs d hd).congr rfl (fun _ _ => rfl) ?_
      rintro f t (rfl | rfl) hf
      · exact hlabel hf fun hin => (hgone _ hin).2.1 d rfl
      · exact hlabel hf fun hin => (hgone _ hin).2.2 d rfl hd
  · intro f t hf
    obtain ⟨hnot, ⟨hin, -⟩ | hold⟩ := relabel_eq_some hf
    · exact absurd ((hfree f).mpr (Or.inl hin)) hnot
    · exact Or.inl hold
  · intro f t hf hnot _
    have hin : f.toNat ∉ pfa.free := fun hin => ((hfree f).mp hin).elim (hl.held f t hf).2 hnot
    exact (relabel_of_used (hl.held f t hf).2 hin).trans hf

/-! ### The lists -/

theorem Run.mem_contFrames (h : Run p n) (x : ℕ) :
  x ∈ Pfa.contFrames p n ↔ ∃ f ∈ framesFrom p n, x = f.toNat
  := by
  simp only [Pfa.contFrames, List.mem_map, List.mem_range]
  constructor
  · rintro ⟨k, hk, rfl⟩
    exact ⟨nthPage p k, nthPage_mem hk, frameOf_of_dvd (h.dvd_nthPage hk)⟩
  · rintro ⟨f, ⟨k, hk, rfl⟩, rfl⟩
    exact ⟨k, hk, frameOf_of_dvd (h.dvd_nthPage hk)⟩

theorem Run.nodup_contFrames (h : Run p n) :
  (Pfa.contFrames p n).Nodup
  := by
  rw [Pfa.contFrames, List.nodup_map_iff_inj_on List.nodup_range]
  simp only [List.mem_range]
  intro j hj k hk heq
  have hj' := frameOf_of_dvd (h.dvd_nthPage hj)
  have hk' := frameOf_of_dvd (h.dvd_nthPage hk)
  exact h.nthPage_inj hj hk (UInt32.toNat_inj.mp (by rw [← hj', ← hk']; exact heq))

/-- `pfa_free_cont` of frames with one label. -/
theorem pfaFreeCont_frees (w : World) (hrun : Run p n) (hown : ∀ f ∈ framesFrom p n, w.own f = some t)
    (hloose : w.Loose t) :
  After (pfaFreeCont p n) w.heap fun _ h' => ∃ w', w'.heap = h' ∧ Frees {t} (framesFrom p n) w w'
  := by
  intro _ h' hfree
  obtain ⟨-, rfl⟩ := Prod.mk.inj (Option.some.inj hfree)
  have hused : ∀ x ∈ Pfa.contFrames p n, x ∈ w.state.pfa.frames ∧ x ∉ w.state.pfa.free := by
    intro x hx
    obtain ⟨f, hf, rfl⟩ := (hrun.mem_contFrames x).mp hx
    exact w.labelled.held f t (hown f hf)
  obtain ⟨hmap, heq⟩ := w.labelled.pfa.pfaFreeCont_free hused hrun.nodup_contFrames
  apply w.release hmap
  · intro f
    rw [heq, Set.mem_union, Set.mem_ofPred_eq, hrun.mem_contFrames]
    constructor
    · rintro (hf | ⟨g, hg, hfg⟩)
      · exact Or.inl hf
      · rw [UInt32.toNat_inj.mp hfg]
        exact Or.inr hg
    · rintro (hf | hf)
      · exact Or.inl hf
      · exact Or.inr ⟨f, hf, rfl⟩
  · exact fun f hf => ⟨t, rfl, hown f hf⟩
  · rintro _ rfl
    exact hloose

theorem kfree_frees (w : World) (env : Env) (gone : Set Tag) (ap : UInt32) :
  After (kfree env ap) w.heap fun _ h' => ∃ w', w'.heap = h' ∧ Frees gone ∅ w w'
  := by
  refine After.mono (kfree_spec w env ap) ?_
  rintro - - ⟨w', rfl, hkeeps, hown, hstate⟩
  refine ⟨w', rfl, hkeeps.mono subset_rfl (Set.empty_subset _), ?_, ?_, ?_, ?_⟩
  · rw [hown]
    exact fun _ _ h _ _ => h
  · rw [hstate]
    exact fun f hf => hf.resolve_right (Set.notMem_empty _)
  · rw [hstate]
    exact fun f hf => Or.inl hf
  · rw [World.kernelTables, hstate]
    exact subset_rfl

/-- The frames of a list. -/
def listFrames (es : List PaddrEle) : Set UInt32 :=
  {f | ∃ e ∈ es, f ∈ e.frames}

/-- `delete_paddr_list` frees the frames of the list. -/
theorem deletePaddrList_frees (env : Env) {es : List PaddrEle} (hruns : ∀ e ∈ es, Run e.paddr e.count)
    (hown : ∀ e ∈ es, ∀ f ∈ e.frames, w.own f = some t) (hapart : es.Pairwise fun e e' => Disjoint e.frames e'.frames)
    (hloose : w.Loose t) (hheap : t ≠ .heap) (size : UInt32) :
  After (deletePaddrList env es size) w.heap fun _ h' => ∃ w', w'.heap = h' ∧ Frees {t} (listFrames es) w w'
  := by
  induction es generalizing w size with
  | nil =>
      refine After.pure ⟨w, rfl, ?_⟩
      rw [show listFrames [] = ∅ by simp [listFrames]]
      exact Frees.refl {t} w
  | cons e es ih =>
      rw [List.forall_mem_cons] at hruns hown
      obtain ⟨hdisjoint, hapart⟩ := List.pairwise_cons.mp hapart
      have hlist : listFrames (e :: es) = e.frames ∪ listFrames es := by
        ext f
        simp [listFrames]
      rw [deletePaddrList]
      refine After.bind (pfaFreeCont_frees w hruns.1 hown.1 hloose) ?_
      rintro - - ⟨w₁, rfl, hfrees₁⟩
      refine After.bind (kfree_frees w₁ env {t} e.addr) ?_
      rintro - - ⟨w₂, rfl, hfrees₂⟩
      have hfrees : Frees {t} e.frames w w₂ := by
        have hboth := hfrees₁.trans hfrees₂ (by simpa using hheap.symm)
        rwa [Set.union_empty] at hboth
      refine After.mono (ih hruns.2 ?_ hapart ?_ _) ?_
      · -- the frames of the rest of the list have not been freed
        intro e' he' f hf
        exact hfrees.stays f t (hown.2 e' he' f hf) (Set.disjoint_right.mp (hdisjoint e' he') hf) hloose.1
      · exact hfrees.loose hloose
      · rintro - - ⟨w₃, rfl, hfrees₃⟩
        refine ⟨w₃, rfl, ?_⟩
        rw [hlist]
        exact hfrees.trans hfrees₃ (by simpa using hheap.symm)

/-! ### The parts of a process -/

/-- A process that may not be complete: what has been built of it is its own. -/
structure Owns (w : World) (ps : Ps) : Prop where
  own : w.own ps.pdtPaddr = some (.pdt ps.pdtPaddr)
  pdt : w.state.resolve ps.pdt = some ps.pdtPaddr
  pdt_ne : ps.pdt ≠ 0
  pdt_tmp : ¬ IsTmp ps.pdt
  runs : ∀ q ∈ ps.image, Run q.paddr q.count
  apart : ps.image.Pairwise fun q q' => Disjoint q.frames q'.frames
  label : ∀ q ∈ ps.image, ∀ f ∈ q.frames, w.own f = some (.user ps.pdtPaddr)
  top : (ps.kernelStackStartVaddr = 0 ∧ ps.kernelStackPaddrs = []) ∨ (ps.kernelStackStartVaddr ≠ 0 ∧
    ¬ IsTmp ps.kernelStackStartVaddr ∧ ∃ a p, ps.kernelStackPaddrs = [⟨a, p, 1⟩] ∧
      Run p 1 ∧ w.own p = some (.kernelStack ps.pdtPaddr) ∧ w.state.resolve ps.kernelStackStartVaddr = some p)

theorem Whole.owns (h : Whole w ps) :
  Owns w ps
  := by
  obtain ⟨a, p, hlist, hrun, hres⟩ := h.top
  exact ⟨h.own, h.pdt, h.pdt_ne, h.pdt_tmp, h.runs, h.apart, h.image_label, Or.inr ⟨h.top_ne, h.top_tmp, a, p, hlist,
    hrun, h.top_label hlist, hres⟩⟩

/-- The labels that the end of a process takes away. -/
def processTags (d : UInt32) : Set Tag :=
  {.pdt d, .user d, .kernelStack d, .kernelTable}

/-- `pdt_delete` frees the directory. -/
theorem Owns.pdtDelete_frees (h : Owns w ps) :
  After (paging fun s => (pdtDelete s ps.pdt).map fun s => ((), s)) w.heap fun _ h' => ∃ w', w'.heap = h' ∧
    Frees {.pdt ps.pdtPaddr} {ps.pdtPaddr} w w'
  := by
  intro _ h' hrun
  obtain ⟨⟨_, s'⟩, hmap, heq⟩ := Option.map_eq_some_iff.mp hrun
  obtain ⟨-, rfl⟩ := Prod.mk.inj heq
  simp only [pdtDelete_run w.labelled.kernelState h.pdt h.pdt_tmp, Option.map_some] at hmap
  obtain ⟨-, rfl⟩ := Prod.mk.inj (Option.some.inj hmap)
  have hheld := w.labelled.held_of_label h.own (by simp)
  obtain ⟨hsame, hfree⟩ := hheld.pfaFree w.labelled.kernelState (dvd_of_resolve h.pdt)
  apply w.release hsame
  · intro f
    rw [hfree, Set.mem_insert_iff, UInt32.toNat_inj, Set.mem_singleton_iff]
    exact or_comm
  · rintro _ rfl
    exact ⟨_, rfl, h.own⟩
  · rintro _ rfl
    exact ⟨by simp, by simp, by simp⟩

/-- The page of the stack in the kernel is unmapped when its frame has been freed. -/
theorem unmapStack_frees (w : World) (env : Env) {v : UInt32} (hres : w.state.resolve v = some p) (hp : w.own p = none)
    (htmp : ¬ IsTmp v) :
  After (unmapKernelMemory env v 4096) w.heap fun _ h' => ∃ w', w'.heap = h' ∧ Frees {.kernelTable} ∅ w w'
  := by
  have hone : pages 4096 = 1 := by decide
  have hlt := virtualToPtIdx_lt v
  have hhas : w.state.has w.state.kernelPdt (virtualToPdtIdx v) := by
    by_contra hnot
    rw [State.resolve, State.page_of_not_has hnot] at hres
    simp at hres
  have hpos : 0 < pages 4096 := by omega
  have hspec := unmapKernelMemory_spec w env hhas hpos (by omega) ?_ ?_
  · refine After.mono (hspec.and (unmapKernelMemory_run w env)) ?_
    rintro r - ⟨⟨w', rfl, hkeeps, -⟩, w'', hw'', -, hunmap, -, -⟩
    have hstate : w''.state = w'.state := by rw [World.state, hw'']
    rw [hstate] at hunmap
    have hunmaps := pdtUnmapMemory_spec w.labelled.pfa w.labelled.kernel w.labelled.managed hunmap
    refine ⟨w', rfl, hkeeps, ?_, ?_, ?_, ?_⟩
    · exact fun f t hf _ ht => hkeeps.label f t hf ht
    · exact fun f hf => hunmaps.kept (hf.resolve_right (Set.notMem_empty _))
    · intro f hf
      rcases hunmaps.freed _ hf with hf | ⟨i, hi, -, hhas, -, heq⟩
      · exact Or.inl hf
      · exact Or.inr (Or.inr ⟨i, hi, hhas, UInt32.toNat_inj.mp heq⟩)
    · rintro f ⟨i, hi, hhas, rfl⟩
      rw [hkeeps.vars.kernelPdt] at hhas ⊢
      obtain ⟨hhas', hmem⟩ := hunmaps.has hi hhas
      exact ⟨i, hi, hhas', by rw [State.table, hmem, State.table]⟩
  · intro hi
    by_contra hgt
    exact htmp ⟨hi, by rw [kernelTmpPtIdx] at hgt ⊢; omega⟩
  · intro u e t hu he ht
    rw [hone] at hu
    have hsame := (pageOff_lt_iff (by omega)).mp hu
    have hidx : virtualToPtIdx u = virtualToPtIdx v := by omega
    rw [World.page, State.page, hsame.1, hidx, ← State.page] at he
    rw [State.resolve, he, Option.map_some, Option.some.injEq] at hres
    rw [hres, hp] at ht
    simp at ht

/-- The stack in the kernel is freed and unmapped. -/
theorem deleteStack_frees (w : World) (env : Env) {d a v : UInt32} (hrun : Run p 1)
    (hown : w.own p = some (.kernelStack d)) (hres : w.state.resolve v = some p) (htmp : ¬ IsTmp v) :
  After (do
    let size ← deletePaddrList env [⟨a, p, 1⟩] 0
    unmapKernelMemory env v size) w.heap fun _ h' => ∃ w', w'.heap = h' ∧
    Frees {.kernelStack d, .kernelTable} (listFrames [⟨a, p, 1⟩]) w w'
  := by
  have hframes : ∀ f, f ∈ PaddrEle.frames ⟨a, p, 1⟩ ↔ f = p := by simp [PaddrEle.frames, framesFrom_one]
  have hruns : ∀ e ∈ [(⟨a, p, 1⟩ : PaddrEle)], Run e.paddr e.count := by simpa using hrun
  have hlist := deletePaddrList_frees (w := w) (t := .kernelStack d) env hruns ?_
    (List.pairwise_singleton _ _) ⟨by simp, by simp, by simp⟩ (by simp) 0
  · refine After.bind (hlist.and (deletePaddrList_one env a p w.heap)) ?_
    rintro size - ⟨⟨w₁, rfl, hfrees₁⟩, rfl, hkernel⟩
    have hres₁ : w₁.state.resolve v = some p := by
      rw [World.state, hkernel]
      exact hres
    have hfree : w₁.own p = none := hfrees₁.own_eq_none (by simp [listFrames, hframes])
    refine After.mono (unmapStack_frees w₁ env hres₁ hfree htmp) ?_
    rintro - - ⟨w₂, rfl, hfrees₂⟩
    refine ⟨w₂, rfl, ?_⟩
    have hlist : {.kernelStack d} ⊆ ({.kernelStack d, .kernelTable} : Set Tag) := by simp
    have hboth := (hfrees₁.mono hlist).trans (hfrees₂.mono (by simp)) (by simp)
    rwa [Set.union_empty] at hboth
  · simpa [hframes] using hown

/-- The code and the stack are freed. -/
theorem deleteImage_frees (env : Env) {d : UInt32} (hruns : ∀ q ∈ ps.image, Run q.paddr q.count)
    (hlabel : ∀ q ∈ ps.image, ∀ f ∈ q.frames, w.own f = some (.user d))
    (hapart : ps.image.Pairwise fun q q' => Disjoint q.frames q'.frames) (hdir : w.own d ≠ some (.pdt d)) :
  After (do
    let _ ← deletePaddrList env ps.codePaddrs 0
    let _ ← deletePaddrList env ps.stackPaddrs 0) w.heap fun _ h' => ∃ w', w'.heap = h' ∧
    Frees {.user d} (listFrames ps.image) w w'
  := by
  have hloose : w.Loose (.user d) := by
    refine ⟨by simp, by simp, ?_⟩
    rintro _ ⟨⟩
    exact hdir
  obtain ⟨hcode, hstack, hboth⟩ := List.pairwise_append.mp hapart
  simp only [Ps.image, List.forall_mem_append] at hruns hlabel
  refine After.bind (deletePaddrList_frees env hruns.1 hlabel.1 hcode hloose (by simp) 0) ?_
  rintro - - ⟨w₁, rfl, hfrees₁⟩
  refine After.bind (deletePaddrList_frees env hruns.2 ?_ hstack (hfrees₁.loose hloose) (by simp) 0) ?_
  · -- the frames of the stack are not those of the code
    intro q hq f hf
    refine hfrees₁.stays f _ (hlabel.2 q hq f hf) ?_ (by simp)
    rintro ⟨q', hq', hf'⟩
    exact Set.disjoint_left.mp (hboth q' hq' q hq) hf' hf
  rintro - - ⟨w₂, rfl, hfrees₂⟩
  refine After.pure ⟨w₂, rfl, ?_⟩
  have hlist : listFrames ps.image = listFrames ps.codePaddrs ∪ listFrames ps.stackPaddrs := by
    ext f
    simp [listFrames, Ps.image, or_and_right, exists_or]
  rw [hlist]
  exact hfrees₁.trans hfrees₂ (by simp)

theorem Ps.frames_eq (ps : Ps) :
  ps.frames = {ps.pdtPaddr} ∪ (listFrames ps.kernelStackPaddrs ∪ listFrames ps.image)
  := by
  ext f
  simp only [Ps.frames, listFrames, Ps.image, PaddrEle.frames, List.mem_append, Set.mem_ofPred_eq, Set.mem_union,
    Set.mem_singleton_iff, or_and_right, exists_or]
  exact or_congr_right or_comm

/-- `process_delete_resources` frees the frames of the process, and nothing else but page tables of the kernel. -/
theorem processDeleteResources_frees (env : Env) (h : Owns w ps) :
  After (processDeleteResources env ps) w.heap fun _ h' => ∃ w', w'.heap = h' ∧
    Frees (processTags ps.pdtPaddr) ps.frames w w'
  := by
  unfold processDeleteResources
  rw [if_pos h.pdt_ne]
  refine After.bind h.pdtDelete_frees ?_
  rintro - - ⟨w₁, rfl, hfrees₁⟩
  have hdir : w₁.own ps.pdtPaddr ≠ some (.pdt ps.pdtPaddr) := by
    rw [hfrees₁.own_eq_none (Set.mem_singleton _)]
    simp
  have hstays : ∀ {f t}, w.own f = some t → t ≠ .pdt ps.pdtPaddr → t ≠ .kernelTable → w₁.own f = some t := by
    intro f t hf ht ht'
    apply hfrees₁.stays f t hf _ ht'
    rintro rfl
    rw [h.own] at hf
    exact ht (Option.some.inj hf).symm
  -- the rest, when the stack in the kernel has been deleted
  have himage : ∀ w₂, Frees (processTags ps.pdtPaddr) (listFrames ps.kernelStackPaddrs) w₁ w₂ →
      (∀ q ∈ ps.image, ∀ f ∈ q.frames, f ∉ listFrames ps.kernelStackPaddrs) → After (do
        let _ ← deletePaddrList env ps.codePaddrs 0
        let _ ← deletePaddrList env ps.stackPaddrs 0) w₂.heap fun _ h' => ∃ w', w'.heap = h' ∧
        Frees (processTags ps.pdtPaddr) ps.frames w w' := by
    intro w₂ hfrees₂ hother
    refine After.mono (deleteImage_frees (w := w₂) env (d := ps.pdtPaddr) h.runs ?_ h.apart ?_) ?_
    · intro q hq f hf
      exact hfrees₂.stays f _ (hstays (h.label q hq f hf) (by simp) (by simp)) (hother q hq f hf) (by simp)
    · exact fun hown => hdir ((hfrees₂.keeps.fresh _ _ hown).resolve_right (Set.notMem_empty _))
    · rintro - - ⟨w₃, rfl, hfrees₃⟩
      refine ⟨w₃, rfl, ?_⟩
      rw [Ps.frames_eq]
      refine (hfrees₁.mono ?_).trans (hfrees₂.trans (hfrees₃.mono ?_) ?_) ?_
      · simp [processTags]
      · simp [processTags]
      · simp [processTags]
      · simp [processTags]
  rcases h.top with ⟨hzero, hnil⟩ | ⟨hne, htmp, a, p, hlist, hrun, hown, hres⟩
  · rw [if_neg (not_not.mpr hzero)]
    apply himage w₁
    · rw [hnil, show listFrames [] = ∅ by simp [listFrames]]
      exact Frees.refl _ w₁
    · simp [hnil, listFrames]
  · rw [if_pos hne, hlist]
    have hres₁ : w₁.state.resolve ps.kernelStackStartVaddr = some p :=
      hfrees₁.keeps.resolve hres hown trivial (by simp)
    have hown₁ := hstays hown (by simp) (by simp)
    have hdelete := deleteStack_frees w₁ env (d := ps.pdtPaddr) (a := a) hrun hown₁ hres₁ htmp
    have hbind := After.bind hdelete (g := fun _ => do
      let _ ← deletePaddrList env ps.codePaddrs 0
      let _ ← deletePaddrList env ps.stackPaddrs 0) (R := fun _ h' => ∃ w', w'.heap = h' ∧
        Frees (processTags ps.pdtPaddr) ps.frames w w') ?_
    · rwa [bind_assoc] at hbind
    · rintro - - ⟨w₂, rfl, hfrees₂⟩
      rw [← hlist] at hfrees₂
      apply himage w₂ (hfrees₂.mono (by simp [processTags, Set.subset_def]))
      intro q hq f hf
      rw [hlist]
      rintro ⟨e, he, hfe⟩
      obtain rfl := List.mem_singleton.mp he
      rw [PaddrEle.frames, framesFrom_one, Set.mem_singleton_iff] at hfe
      have hlabel := h.label q hq f hf
      rw [hfe, hown] at hlabel
      simp at hlabel

end Process
