import Aenix.Process.Directory

/-!
# Copying a process

`process_copy_paddr_list` copies the frames of the parent one element of a list at a time: it takes frames for
the child, writes to them through pages of the kernel, and maps them in the directory of the child at the
addresses of the parent.  What has been built of the child is not disturbed by what follows (`Grows`), and the
parent is not disturbed at all.
-/

open Aenix
open Paging hiding Call exec Step

namespace Process

variable {w w' w'' : World} {s s' : State} {own : Labels} {new gone : Set Tag} {c d p v vaddr pdt : UInt32} {m : ℕ}

/-! ### Images -/

/-- The frames of the list are mapped one after the other at the addresses from `v` on, which are below the
kernel. -/
def Image (s : State) (d : UInt32) : UInt32 → List PaddrEle → Prop
  | _, [] => True
  | v, p :: ps => 4096 ∣ v.toNat ∧ p.count.toNat ≤ 1024 ∧ v.toNat + 4096 * p.count.toNat ≤ 0xC0000000 ∧
    (∀ k < p.count.toNat, ∃ e, s.page d (nthPage v k) = some e ∧ e.paddr = nthPage p.paddr k) ∧
    Image s d (v + p.count * fourKb) ps

/-- Frames of the second list hold what those of the first one held. -/
def Copy (s s' : State) (p q : PaddrEle) : Prop :=
  q.count = p.count ∧ ∀ k < p.count.toNat, s'.mem (nthPage q.paddr k) = s.mem (nthPage p.paddr k)

theorem nthPage_lt_kernel {k n : ℕ} (h : v.toNat + 4096 * n ≤ 0xC0000000) (hk : k < n) :
  nthPage v k < kernelStartVaddr
  := by
  rw [UInt32.lt_iff_toNat_lt, toNat_nthPage (by omega), show kernelStartVaddr.toNat = 0xC0000000 from rfl]
  omega

theorem lt_kernel_of_pageOff {n : ℕ} {u : UInt32} (hdvd : 4096 ∣ v.toNat) (h : v.toNat + 4096 * n ≤ 0xC0000000)
    (hu : pageOff v u < n) :
  u < kernelStartVaddr
  := by
  have hlt := u.toNat_lt
  rw [pageOff] at hu
  rw [UInt32.lt_iff_toNat_lt, show kernelStartVaddr.toNat = 0xC0000000 from rfl]
  omega

theorem pageOff_nthPage_user {k n : ℕ} (h : v.toNat + 4096 * n ≤ 0xC0000000) (hk : k < n) :
  pageOff v (nthPage v k) = k
  := by
  rw [pageOff, toNat_nthPage (by omega)]
  omega

theorem Run.nthPage_inj {n : UInt32} (h : Run p n) {j k : ℕ} (hj : j < n.toNat) (hk : k < n.toNat)
    (heq : nthPage p j = nthPage p k) :
  j = k
  := by
  have hnat := congrArg UInt32.toNat heq
  rw [h.toNat_nthPage hj, h.toNat_nthPage hk] at hnat
  omega

theorem Image.congr {ps : List PaddrEle} (h : Image s d v ps)
    (hpage : ∀ u < kernelStartVaddr, ∀ e, s.page d u = some e → s'.page d u = some e) :
  Image s' d v ps
  := by
  induction ps generalizing v with
  | nil => trivial
  | cons p ps ih =>
      obtain ⟨hdvd, hcount, hend, hmapped, hrest⟩ := h
      refine ⟨hdvd, hcount, hend, ?_, ih hrest⟩
      intro k hk
      obtain ⟨e, he, hpaddr⟩ := hmapped k hk
      exact ⟨e, hpage _ (nthPage_lt_kernel hend hk) e he, hpaddr⟩

/-- The frames of an image belong to the process. -/
theorem Image.label {ps : List PaddrEle} (h : Image w.state d v ps) (hd : w.own d = some (.pdt d)) :
  ∀ p ∈ ps, ∀ k < p.count.toNat, w.own (nthPage p.paddr k) = some (.user d)
  := by
  induction ps generalizing v with
  | nil => simp
  | cons p ps ih =>
      obtain ⟨hdvd, hcount, hend, hmapped, hrest⟩ := h
      intro q hq k hk
      rcases List.mem_cons.mp hq with rfl | hq
      · obtain ⟨e, he, hpaddr⟩ := hmapped k hk
        rw [← hpaddr]
        exact (w.labelled.dirs d hd).page _ (nthPage_lt_kernel hend hk) e he
      · exact ih hrest q hq k hk

/-! ### What is built of the child -/

/-- What the frames are used for that `process_clone` takes for the child with the directory `c`. -/
def childTags (c : UInt32) : Set Tag :=
  {.pdt c, .table c, .user c, .kernelStack c, .heap, .kernelTable}

/-- The second world has more of the child, and otherwise what the first one has. -/
structure Grows (c : UInt32) (w w' : World) : Prop where
  keeps : Keeps (childTags c) {.kernelTable} w w'
  user : ∀ f, w.own f = some (.user c) → w'.state.mem f = w.state.mem f
  page : ∀ v e, w.state.page c v = some e → w'.state.page c v = some e
  child : Child w' c

theorem Grows.refl (h : Child w c) :
  Grows c w w
  := ⟨Keeps.refl _ _ w, fun _ _ => rfl, fun _ _ h => h, h⟩

theorem Grows.trans (h : Grows c w w') (h' : Grows c w' w'') :
  Grows c w w''
  := by
  refine ⟨h.keeps.trans h'.keeps (by simp), ?_, ?_, h'.child⟩
  · intro f hf
    rw [h'.user f (h.keeps.label f _ hf (by simp)), h.user f hf]
  · exact fun v e hv => h'.page v e (h.page v e hv)

/-- A directory without a kernel half maps user space only. -/
theorem Child.lt_kernel {e : Entry} (h : Child w c) (hv : w.state.page c v = some e) :
  v < kernelStartVaddr
  := by
  by_contra hle
  rw [State.page_of_not_has (h.half _ (kernelPdtIdx_le_of_le (UInt32.not_lt.mp hle)) (virtualToPdtIdx_lt v))] at hv
  simp at hv

/-- A program that leaves the directory and the page tables of the child alone. -/
theorem Child.grows (h : Child w c) (hkeeps : Keeps new gone w w') (hnew : new ⊆ childTags c)
    (hgone : gone ⊆ {.kernelTable}) (hpdt : .pdt c ∉ new) (htable : .table c ∉ new)
    (huser : ∀ f, w.own f = some (.user c) → w'.state.mem f = w.state.mem f) :
  Grows c w w'
  := by
  have hpdt' : .pdt c ∉ gone := fun hin => by simpa using hgone hin
  have htable' : .table c ∉ gone := fun hin => by simpa using hgone hin
  refine ⟨hkeeps.mono hnew hgone, huser, ?_, h.keeps hkeeps ⟨hpdt, hpdt'⟩⟩
  intro v e hv
  rw [hkeeps.user_page h.own (h.lt_kernel hv) ⟨hpdt, hpdt'⟩ ⟨htable, htable'⟩]
  exact hv

/-- A program that takes neither frames for user space nor page tables of the child. -/
theorem Child.steady (h : Child w c) (hkeeps : Keeps new gone w w')
    (hnew : new ⊆ {.kernelStack c, .heap, .kernelTable}) (hgone : gone ⊆ {.kernelTable}) :
  Grows c w w'
  := by
  have hout : ∀ t, t ≠ .kernelStack c → t ≠ .heap → t ≠ .kernelTable → t ∉ new := by
    intro t h₁ h₂ h₃ ht
    simpa [h₁, h₂, h₃] using hnew ht
  have huser : .user c ∉ new := hout _ (by simp) (by simp) (by simp)
  refine h.grows hkeeps ?_ hgone (hout _ (by simp) (by simp) (by simp)) (hout _ (by simp) (by simp) (by simp)) ?_
  · intro t ht
    rcases hnew ht with rfl | rfl | rfl
    · simp [childTags]
    · simp [childTags]
    · simp [childTags]
  · exact fun f hf => hkeeps.contents f _ hf huser fun hin => by simpa using hgone hin

/-- The frames of an element of a list. -/
abbrev PaddrEle.frames (e : PaddrEle) : Set UInt32 :=
  framesFrom e.paddr e.count

/-- The processor lets a user read and write what the directory maps below the kernel. -/
structure Open (s : State) (d : UInt32) : Prop where
  slot : ∀ i < kernelPdtIdx, s.has d i → (s.mem d i).user = true ∧ (s.mem d i).writable = true
  page : ∀ v < kernelStartVaddr, ∀ e, s.page d v = some e → e.user = true ∧ e.writable = true

theorem Open.congr (h : Open s d) (hslot : ∀ i < kernelPdtIdx, s'.mem d i = s.mem d i)
    (hpage : ∀ v < kernelStartVaddr, s'.page d v = s.page d v) :
  Open s' d
  := by
  constructor
  · intro i hi hhas
    rw [State.has, hslot i hi] at hhas
    rw [hslot i hi]
    exact h.slot i hi hhas
  · intro u hu e he
    rw [hpage u hu] at he
    exact h.page u hu e he

/-- Pages that are mapped for a user can be read and written. -/
theorem Open.maps (h : Open s d) (hmaps : Maps s s' d p vaddr pagingReadWrite pagingPl3 m) :
  Open s' d
  := by
  constructor
  · intro i hi hhas
    have hlt : i < 1024 := Nat.lt_trans hi (by decide)
    by_cases hold : s.has d i
    · rw [hmaps.kept i hlt hold]
      exact h.slot i hi hold
    · rcases hmaps.opened i hlt hold with heq | ⟨t, -, -, -, heq, -⟩
      · rw [State.has, heq] at hhas
        exact absurd hhas hold
      · rw [heq]
        exact access_createPdtEntry t pagingReadWrite pagingPl3
  · intro u hu e he
    rw [hmaps.page] at he
    split at he
    case isTrue =>
      obtain rfl := Option.some.inj he
      exact access_createPtEntry _ pagingReadWrite pagingPl3
    case isFalse => exact h.page u hu e he

/-- No two pages below the kernel are mapped to one frame. -/
def Alone (s : State) (d : UInt32) : Prop :=
  ∀ v < kernelStartVaddr, ∀ v' < kernelStartVaddr, ∀ e e', s.page d v = some e → s.page d v' = some e' →
    e.paddr = e'.paddr → v.toNat / 4096 = v'.toNat / 4096

theorem Alone.congr (h : Alone s d) (hpage : ∀ v < kernelStartVaddr, s'.page d v = s.page d v) :
  Alone s' d
  := by
  intro u hu u' hu' e e' he he'
  rw [hpage u hu] at he
  rw [hpage u' hu'] at he'
  exact h u hu u' hu' e e' he he'

/-- Pages are mapped to frames that follow each other and have not been mapped. -/
theorem Alone.maps {rw pl : UInt8} {n : UInt32} (h : Alone s d) (hrun : Run p n) (hm : m ≤ n.toNat)
    (hmaps : Maps s s' d p vaddr rw pl m)
    (hnew : ∀ v < kernelStartVaddr, ∀ e, s.page d v = some e → e.paddr ∉ framesFrom p n) :
  Alone s' d
  := by
  have hpaddr : ∀ {u e}, pageOff vaddr u < m →
      some (createPtEntry (nthPage p (pageOff vaddr u)) rw pl) = some e → e.paddr = nthPage p (pageOff vaddr u) := by
    intro u e hu he
    rw [← Option.some.inj he, paddr_createPtEntry (hrun.dvd_nthPage (by omega))]
  intro u hu u' hu' e e' he he' heq
  rw [hmaps.page] at he he'
  split at he
  case isTrue hlt =>
    rw [hpaddr hlt he] at heq
    split at he'
    case isTrue hlt' =>
      rw [hpaddr hlt' he'] at heq
      have hoff := hrun.nthPage_inj (by omega) (by omega) heq
      have hvaddr := vaddr.toNat_lt
      have hlt₁ := u.toNat_lt
      have hlt₂ := u'.toNat_lt
      rw [pageOff, pageOff] at hoff
      omega
    case isFalse => exact absurd ⟨_, by omega, heq.symm⟩ (hnew u' hu' e' he')
  case isFalse =>
    split at he'
    case isTrue hlt' =>
      rw [hpaddr hlt' he'] at heq
      exact absurd ⟨_, by omega, heq⟩ (hnew u hu e he)
    case isFalse => exact h u hu u' hu' e e' he he' heq

/-- The second world has more of the child; what its directory maps that it did not map before are the frames of
the elements `es`, which are new and have not been used otherwise. -/
structure Adds (c : UInt32) (es : List PaddrEle) (w w' : World) : Prop extends Grows c w w' where
  only : ∀ u e, w'.state.page c u = some e → w.state.page c u = some e ∨ ∃ q ∈ es, e.paddr ∈ q.frames
  runs : ∀ q ∈ es, Run q.paddr q.count
  fresh : ∀ q ∈ es, ∀ f ∈ q.frames, ∀ t, w.own f = some t → t = .kernelTable
  own : ∀ q ∈ es, ∀ f ∈ q.frames, w'.own f = some (.user c)
  apart : es.Pairwise fun q q' => ∀ f ∈ q.frames, f ∉ q'.frames
  opens : Open w.state c → Open w'.state c
  alone : Alone w.state c → Alone w'.state c

/-- The directory and the page tables of the child are left alone. -/
theorem Grows.adds (h : Grows c w w') (hown : w.own c = some (.pdt c)) (hkeeps : Keeps new gone w w')
    (hpdt : .pdt c ∉ new ∧ .pdt c ∉ gone) (htable : .table c ∉ new ∧ .table c ∉ gone) :
  Adds c [] w w'
  := by
  have hpage : ∀ u < kernelStartVaddr, w'.state.page c u = w.state.page c u :=
    fun u hu => hkeeps.user_page hown hu hpdt htable
  refine ⟨h, ?_, by simp, by simp, by simp, List.Pairwise.nil, fun hopen => hopen.congr ?_ hpage,
    fun halone => halone.congr hpage⟩
  · intro u e hu
    left
    rwa [← hpage u (h.child.lt_kernel hu)]
  · intro i _
    rw [hkeeps.contents c _ hown hpdt.1 hpdt.2]

theorem Adds.refl (h : Child w c) :
  Adds c [] w w
  := (Grows.refl h).adds h.own (Keeps.refl ∅ ∅ w) (by simp) (by simp)

theorem Adds.trans {es es' : List PaddrEle} (h : Adds c es w w') (h' : Adds c es' w' w'') :
  Adds c (es ++ es') w w''
  := by
  refine ⟨h.toGrows.trans h'.toGrows, ?_, ?_, ?_, ?_, ?_, fun hopen => h'.opens (h.opens hopen),
    fun halone => h'.alone (h.alone halone)⟩
  · intro u e hu
    simp only [List.mem_append]
    rcases h'.only u e hu with hu' | ⟨q, hq, hin⟩
    · refine (h.only u e hu').imp_right ?_
      rintro ⟨q, hq, hin⟩
      exact ⟨q, Or.inl hq, hin⟩
    · exact Or.inr ⟨q, Or.inr hq, hin⟩
  · exact List.forall_mem_append.mpr ⟨h.runs, h'.runs⟩
  · apply List.forall_mem_append.mpr ⟨h.fresh, ?_⟩
    intro q hq f hf t ht
    by_contra hne
    exact hne (h'.fresh q hq f hf t (h.keeps.label f t ht hne))
  · exact List.forall_mem_append.mpr ⟨fun q hq f hf => h'.keeps.label f _ (h.own q hq f hf) (by simp), h'.own⟩
  · apply List.pairwise_append.mpr ⟨h.apart, h'.apart, ?_⟩
    intro q hq q' hq' f hf hf'
    simpa using h'.fresh q' hq' f hf' _ (h.own q hq f hf)

/-- Frames are taken for the child and filled through pages of the kernel, which are unmapped afterwards. -/
theorem Child.fills (h : Child w c) (hkeeps : Keeps {.user c, .kernelTable} ∅ w w')
    (hsame : ∀ f, w.own f = some (.user c) → w'.state.mem f = w.state.mem f)
    (hkeeps' : Keeps ∅ {.kernelTable} w' w'') :
  Adds c [] w w''
  := by
  have hall : Keeps {.user c, .kernelTable} {.kernelTable} w w'' :=
    (hkeeps.mono subset_rfl (by simp)).trans (hkeeps'.mono (by simp) subset_rfl) (by simp)
  refine (h.grows hall (by simp [childTags, Set.subset_def]) subset_rfl (by simp) (by simp) ?_).adds h.own hall
    (by simp) (by simp)
  intro f hf
  rw [hkeeps'.contents f _ (hkeeps.label f _ hf (by simp)) (by simp) (by simp), hsame f hf]

/-- The frames that the child had are not written to when new ones are taken, mapped in the kernel and filled. -/
theorem same_of_new {w₁ w₂ w₃ : World} {n : UInt32} (hkeeps₁ : Keeps {.user c} ∅ w w₁)
    (hmem : w₁.state.mem = w.state.mem) (hfresh : ∀ f ∈ framesFrom p n, w.own f = none)
    (hkeeps₂ : Keeps {.kernelTable} ∅ w₁ w₂) (hm : m ≤ n.toNat)
    (hother : ∀ f, (∀ k < m, f ≠ nthPage p k) → w₃.state.mem f = w₂.state.mem f) :
  ∀ f, w.own f = some (.user c) → w₃.state.mem f = w.state.mem f
  := by
  intro f hf
  have hne : ∀ k < m, f ≠ nthPage p k := by
    rintro k hk rfl
    rw [hfresh _ (nthPage_mem (by omega))] at hf
    simp at hf
  rw [hother f hne, hkeeps₂.contents f _ (hkeeps₁.label f _ hf (Set.notMem_empty _)) (by simp) (by simp), hmem]

/-- Memory is taken for the heap. -/
theorem Child.adds_heap (h : Child w c) (hkeeps : Keeps {.heap, .kernelTable} ∅ w w') :
  Adds c [] w w'
  := (h.steady hkeeps (by simp [Set.subset_def]) (by simp)).adds h.own hkeeps (by simp) (by simp)

theorem kmalloc_adds (h : Child w c) (env : Env) (nbytes : UInt32) :
  After (kmalloc env nbytes) w.heap fun _ h' => ∃ w', w'.heap = h' ∧ Adds c [] w w'
  := by
  refine After.mono (kmalloc_spec w env nbytes) ?_
  rintro a - ⟨w', rfl, hkeeps, -⟩
  exact ⟨w', rfl, h.adds_heap hkeeps⟩

theorem kmalloc_grows (h : Child w c) (env : Env) (nbytes : UInt32) :
  After (kmalloc env nbytes) w.heap fun _ h' => ∃ w', w'.heap = h' ∧ Grows c w w'
  := by
  refine After.mono (kmalloc_adds h env nbytes) ?_
  rintro a - ⟨w', rfl, hadds⟩
  exact ⟨w', rfl, hadds.toGrows⟩

/-- The process with the directory `d` runs, and is not the child. -/
structure Running (w : World) (c d : UInt32) : Prop where
  cr3 : w.state.cr3 = d
  own : w.own d = some (.pdt d)
  ne : d ≠ c

theorem not_mem_childTags (h : d ≠ c) :
  .pdt d ∉ childTags c ∧ .table d ∉ childTags c ∧ .user d ∉ childTags c ∧ .kernelStack d ∉ childTags c
  := by
  simp [childTags, h]

namespace Running

theorem keeps (h : Running w c d) (hkeeps : Keeps (childTags c) {.kernelTable} w w') :
  Running w' c d
  := by
  refine ⟨?_, hkeeps.label d _ h.own (by simp), h.ne⟩
  rw [hkeeps.vars.cr3, h.cr3]

/-- The pages of the parent stay what they are. -/
theorem page (h : Running w c d) (hkeeps : Keeps (childTags c) {.kernelTable} w w') (hv : v < kernelStartVaddr) :
  w'.state.page d v = w.state.page d v
  := by
  obtain ⟨hpdt, htable, -⟩ := not_mem_childTags h.ne
  exact hkeeps.user_page h.own hv ⟨hpdt, by simp⟩ ⟨htable, by simp⟩

/-- The memory of the parent stays what it is. -/
theorem mem (h : Running w c d) (hkeeps : Keeps (childTags c) {.kernelTable} w w') {f : UInt32}
    (hf : w.own f = some (.user d)) :
  w'.state.mem f = w.state.mem f
  := by
  obtain ⟨-, -, huser, -⟩ := not_mem_childTags h.ne
  exact hkeeps.contents f _ hf huser (by simp)

/-- The memory of the parent is still what it was in the state `s`. -/
theorem same (h : Running w c d) (hkeeps : Keeps (childTags c) {.kernelTable} w w')
    (hsame : ∀ f, w.own f = some (.user d) → w.state.mem f = s.mem f) :
  ∀ f, w'.own f = some (.user d) → w'.state.mem f = s.mem f
  := by
  intro f hf
  obtain ⟨-, -, huser, -⟩ := not_mem_childTags h.ne
  have hold := (hkeeps.own_iff huser (by simp) f).mp hf
  rw [h.mem hkeeps hold, hsame f hold]

theorem image (h : Running w c d) (hkeeps : Keeps (childTags c) {.kernelTable} w w') {ps : List PaddrEle}
    (himage : Image w.state d v ps) :
  Image w'.state d v ps
  := by
  apply himage.congr
  intro u hu e he
  rw [h.page hkeeps hu, he]

end Running

/-! ### Copying pages -/

/-- The pages of another process are not written to. -/
theorem Wrote.user_page (h : Wrote own c s s') (hl : Labelled s own) (hd : own d = some (.pdt d))
    (hv : v < kernelStartVaddr) :
  s'.page d v = s.page d v
  := by
  have hmem : ∀ {f t}, own f = some t → t ≠ .user c → s'.mem f = s.mem f := by
    intro f t hf ht
    apply h.mem
    rw [hf]
    exact fun heq => ht (Option.some.inj heq)
  apply State.page_congr (by rw [hmem hd (by simp)])
  intro hhas
  rw [hmem ((hl.dirs d hd).table _ (virtualToPdtIdx_lt_kernel hv) hhas) (by simp)]

/-- `memcpy` of pages of the process that runs to frames of another one, which are mapped in the kernel. -/
theorem memcpyPages_copies (hl : Labelled s own) (hcr3 : own s.cr3 = some (.pdt s.cr3)) (hne : s.cr3 ≠ c)
    {dest src : ℕ → UInt32} (hto : ∀ k < m, s.resolve (nthPage v k) = some (dest k) ∧ own (dest k) = some (.user c))
    (hinj : ∀ j < m, ∀ k < m, dest j = dest k → j = k)
    (hsrc : ∀ k < m, nthPage vaddr k < kernelStartVaddr ∧
      ∃ e, s.page s.cr3 (nthPage vaddr k) = some e ∧ e.paddr = src k)
    (hrun : memcpyPages v vaddr m s = some s') :
  (∀ k < m, s'.mem (dest k) = s.mem (src k)) ∧ ∀ f, (∀ k < m, f ≠ dest k) → s'.mem f = s.mem f
  := by
  induction m generalizing s' with
  | zero =>
      obtain rfl := Option.some.inj hrun
      exact ⟨by simp, fun _ _ => rfl⟩
  | succ m ih =>
      obtain ⟨s₁, hs₁, hrun⟩ := Option.bind_eq_some_iff.mp hrun
      obtain ⟨f, hf, hrun⟩ := Option.bind_eq_some_iff.mp hrun
      obtain ⟨e, he, hrun⟩ := Option.bind_eq_some_iff.mp hrun
      obtain rfl := Option.some.inj hrun
      have hwrote : Wrote own c s s₁ := memcpyPages_wrote hl (fun k hk => ⟨dest k, hto k (by omega)⟩) hs₁
      obtain ⟨hcopied, hother⟩ := ih (fun k hk => hto k (by omega)) (fun j hj k hk => hinj j (by omega) k (by omega))
        (fun k hk => hsrc k (by omega)) hs₁
      obtain ⟨hlt, e', he', hpaddr⟩ := hsrc m (by omega)
      obtain rfl : dest m = f := by
        rw [hwrote.resolve hl, (hto m (by omega)).1] at hf
        exact Option.some.inj hf
      obtain rfl : e' = e := by
        rw [hwrote.vars.cr3, hwrote.user_page hl hcr3 hlt, he'] at he
        exact Option.some.inj he
      have hown : own (src m) = some (.user s.cr3) := by
        rw [← hpaddr]
        exact (hl.dirs _ hcr3).page _ hlt e' he'
      have hsource : s₁.mem e'.paddr = s.mem (src m) := by
        rw [hpaddr]
        apply hother
        intro k hk heq
        rw [heq, (hto k (by omega)).2] at hown
        exact hne (by simpa using hown.symm)
      constructor
      · intro k hk
        rw [State.mem_fill]
        by_cases hkm : k = m
        · rw [hkm, Function.update_self, hsource]
        · rw [Function.update_of_ne fun heq => hkm (hinj k hk m (by omega) heq)]
          exact hcopied k (by omega)
      · intro f hf
        rw [State.mem_fill, Function.update_of_ne (hf m (by omega))]
        exact hother f fun k hk => hf k (by omega)

/-- Pages of the parent are copied to frames of the child, and no other frame is written to. -/
theorem Window.copy_spec {n : UInt32} (h : Window w c v (pages (n * fourKb))) (hrunning : Running w c d)
    (hrun : Run p n) (hres : ∀ k < n.toNat, w.state.resolve (nthPage v k) = some (nthPage p k))
    (hown : ∀ k < n.toNat, w.own (nthPage p k) = some (.user c)) {src : ℕ → UInt32}
    (hsrc : ∀ k < n.toNat, nthPage vaddr k < kernelStartVaddr ∧
      ∃ e, w.state.page d (nthPage vaddr k) = some e ∧ e.paddr = src k) :
  Spec {.user c} ∅ (memcpy v vaddr (n * fourKb)) w fun _ w' =>
    w'.own = w.own ∧ Window w' c v (pages (n * fourKb)) ∧
      (∀ k < n.toNat, w'.state.mem (nthPage p k) = w.state.mem (src k)) ∧
      ∀ f, (∀ k < n.toNat, f ≠ nthPage p k) → w'.state.mem f = w.state.mem f
  := by
  intro a h' hmemcpy
  obtain ⟨w', rfl, hkeeps, hsame, hwindow⟩ := h.memcpy_spec vaddr a h' hmemcpy
  obtain ⟨⟨u, s₁⟩, hcopy, heq⟩ := Option.map_eq_some_iff.mp hmemcpy
  obtain ⟨s', hpages, hs'⟩ := Option.map_eq_some_iff.mp hcopy
  obtain ⟨-, rfl⟩ := Prod.mk.inj hs'
  have hstate : w'.state = s' := by rw [World.state, ← (Prod.mk.inj heq).2]
  rw [hrun.pages_eq] at hpages
  have hcr3 : w.own w.state.cr3 = some (.pdt w.state.cr3) := by
    rw [hrunning.cr3]
    exact hrunning.own
  have hcopies := memcpyPages_copies w.labelled hcr3 (by rw [hrunning.cr3]; exact hrunning.ne)
    (fun k hk => ⟨hres k hk, hown k hk⟩) (fun j hj k hk => hrun.nthPage_inj hj hk)
    (by rw [hrunning.cr3]; exact hsrc) hpages
  refine ⟨w', rfl, hkeeps, hsame, hwindow, ?_⟩
  rw [hstate]
  exact hcopies

/-! ### Copying a list -/

/-- The part of a round of `process_copy_paddr_list` in which frames are taken and filled. -/
def copyFrames (env : Env) (vaddr count : UInt32) : Kern UInt32 := do
  let paddr ← pfaAllocate count
  if paddr = 0 then
    return 0
  let kernelVaddr ← findNextVaddr (count * fourKb)
  if kernelVaddr = 0 then
    pfaFreeCont paddr count
    return 0
  let mapped ← mapKernelMemory paddr kernelVaddr (count * fourKb)
  if mapped < count * fourKb then
    let _ ← unmapKernelMemory env kernelVaddr (count * fourKb)
    pfaFreeCont paddr count
    return 0
  memcpy kernelVaddr vaddr (count * fourKb)
  let _ ← unmapKernelMemory env kernelVaddr (count * fourKb)
  return paddr

theorem processCopyPaddrList_cons (env : Env) (pdt vaddr : UInt32) (p : PaddrEle) (ps dest : List PaddrEle) :
  processCopyPaddrList env pdt vaddr (p :: ps) dest = (do
    let paddr ← copyFrames env vaddr p.count
    if paddr = 0 then
      return (false, dest)
    let pe ← kmalloc env paddrEleSize
    if pe = 0 then
      pfaFreeCont paddr p.count
      return (false, dest)
    let dest := dest ++ [⟨pe, paddr, p.count⟩]
    let mapped ← mapMemory pdt paddr vaddr (p.count * fourKb)
    if mapped < p.count * fourKb then
      kfree env pe
      pfaFreeCont paddr p.count
      return (false, dest)
    processCopyPaddrList env pdt (vaddr + p.count * fourKb) ps dest)
  := by
  rw [processCopyPaddrList, copyFrames]
  simp only [bind_assoc]
  congr 1
  funext paddr
  by_cases hp : paddr = 0
  · simp [hp]
  simp only [if_neg hp, bind_assoc]
  congr 1
  funext v
  by_cases hv : v = 0
  · simp [hv]
  simp only [if_neg hv, bind_assoc]
  congr 1
  funext r
  by_cases hr : r < p.count * fourKb
  · simp [hr]
  simp only [if_neg hr, bind_assoc, pure_bind, if_neg hp]

/-- New frames of the child that hold what pages of the parent hold. -/
theorem copyFrames_adds (env : Env) (h : Child w c) (hrunning : Running w c d) {n : UInt32} (hle : n.toNat ≤ 1024)
    (src : ℕ → UInt32) (hsrc : ∀ k < n.toNat, nthPage vaddr k < kernelStartVaddr ∧
      ∃ e, w.state.page d (nthPage vaddr k) = some e ∧ e.paddr = src k) :
  After (copyFrames env vaddr n) w.heap fun p h' => p ≠ 0 → ∃ w', w'.heap = h' ∧ Adds c [] w w' ∧ Run p n ∧
    (∀ f ∈ framesFrom p n, w.own f = none) ∧ (∀ k < n.toNat, w'.own (nthPage p k) = some (.user c)) ∧
    ∀ k < n.toNat, w'.state.mem (nthPage p k) = w.state.mem (src k)
  := by
  unfold copyFrames
  refine After.bind (pfaAllocate_spec w n (.user c) (by simp)) ?_
  rintro p - ⟨w₁, rfl, hkeeps₁, halloc⟩
  refine After.ite (fun _ => After.pure fun hne => absurd rfl hne) ?_
  intro hp
  obtain ⟨-, hrun, hmem₁, hfresh, hown₁⟩ := halloc.resolve_left fun h => hp h.1
  have hpages := hrun.pages_eq
  refine After.bind (findNextVaddr_spec w₁ _) ?_
  rintro v - ⟨w₂, rfl, -, rfl, hspare⟩
  refine After.ite (fun _ => After.next fun _ _ => After.pure fun hne => absurd rfl hne) ?_
  intro hv
  refine After.bind (mapKernelMemory_spec w₂ p v _) ?_
  rintro r - ⟨w₃, rfl, hkeeps₃, m, hmaps, hr⟩
  refine After.ite (fun _ => After.next fun _ _ => After.next fun _ _ => After.pure fun hne => absurd rfl hne) ?_
  intro hmapped
  rw [hrun.all_mapped hr hmapped] at hmaps
  have hframe : ∀ k < n.toNat, w₂.own (nthPage p k) = some (.user c) :=
    fun k hk => (hown₁ _).mpr (Or.inr (nthPage_mem hk))
  have hframe₃ : ∀ k < n.toNat, w₃.own (nthPage p k) = some (.user c) :=
    fun k hk => hkeeps₃.label _ _ (hframe k hk) (Set.notMem_empty _)
  have hwindow : Window w₃ c v (pages (n * fourKb)) := by
    apply (hspare hv).1.window
    · rw [hpages]
      exact hrun.pos
    · rw [hpages]
      exact hle
    · rwa [hpages]
    · rw [hpages]
      exact fun k hk => ⟨hrun.dvd_nthPage hk, hframe₃ k hk⟩
  have hrunning₃ : Running w₃ c d := by
    refine ⟨?_, ?_, hrunning.ne⟩
    · rw [hkeeps₃.vars.cr3, hkeeps₁.vars.cr3, hrunning.cr3]
    · exact hkeeps₃.label _ _ (hkeeps₁.label _ _ hrunning.own (Set.notMem_empty _)) (Set.notMem_empty _)
  have hkeeps : Keeps {.user c, .kernelTable} ∅ w w₃ :=
    (hkeeps₁.mono (by simp) subset_rfl).trans (hkeeps₃.mono (by simp) subset_rfl) (by simp)
  have hsrc₃ : ∀ k < n.toNat, nthPage vaddr k < kernelStartVaddr ∧
      ∃ e, w₃.state.page d (nthPage vaddr k) = some e ∧ e.paddr = src k := by
    intro k hk
    obtain ⟨hlt, e, he, hpaddr⟩ := hsrc k hk
    refine ⟨hlt, e, ?_, hpaddr⟩
    rw [hkeeps.user_page hrunning.own hlt (by simp) (by simp), he]
  refine After.bind (hwindow.copy_spec hrunning₃ hrun ?_ hframe₃ hsrc₃) ?_
  · exact fun k hk => resolve_of_maps hrun hmaps le_rfl hk
  rintro - - ⟨w₄, rfl, hkeeps₄, hown₄, hwindow₄, hcopied, hother⟩
  refine After.bind (hwindow₄.unmap_spec env) ?_
  rintro - - ⟨w₅, rfl, hkeeps₅, -⟩
  have hadds := h.fills (hkeeps.trans (hkeeps₄.mono (by simp) subset_rfl) (by simp))
    (same_of_new hkeeps₁ hmem₁ hfresh hkeeps₃ le_rfl hother) hkeeps₅
  refine After.pure fun _ => ⟨w₅, rfl, hadds, hrun, hfresh, ?_, ?_⟩
  · intro k hk
    apply hkeeps₅.label _ _ _ (by simp)
    rw [hown₄]
    exact hframe₃ k hk
  · intro k hk
    obtain ⟨hlt, e, he, hpaddr⟩ := hsrc k hk
    have hown : w.own (src k) = some (.user d) := by
      rw [← hpaddr]
      exact (w.labelled.dirs d hrunning.own).page _ hlt e he
    rw [hkeeps₅.contents _ _ (by rw [hown₄]; exact hframe₃ k hk) (by simp) (by simp), hcopied k hk,
      hkeeps.contents _ _ hown (by simp [hrunning.ne]) (by simp)]

/-- Pages that are mapped for the child come to what it has. -/
theorem Child.grows_of_maps (hkeeps : Keeps {.pdt c, .table c} ∅ w w') (h : Child w' c)
    (hmaps : Maps w.state w'.state c p vaddr pagingReadWrite pagingPl3 m) :
  Grows c w w'
  := by
  refine ⟨hkeeps.mono (by simp [childTags, Set.subset_def]) (by simp), ?_, ?_, h⟩
  · exact fun f hf => hkeeps.contents f _ hf (by simp) (by simp)
  · intro u e hu
    rw [hmaps.page, if_neg]
    · exact hu
    · intro hlt
      rw [hmaps.vacant u hlt] at hu
      simp at hu

/-- Frames that are new and that are mapped for the child, all of them. -/
theorem Adds.maps {e : PaddrEle} (h : Adds c [] w w') (hpdt : w.own c = some (.pdt c)) (hrun : Run e.paddr e.count)
    (hfresh : ∀ f ∈ e.frames, ∀ t, w.own f = some t → t = .kernelTable)
    (hown : ∀ f ∈ e.frames, w'.own f = some (.user c)) (hkeeps : Keeps {.pdt c, .table c} ∅ w' w'')
    (hchild : Child w'' c)
    (hmaps : Maps w'.state w''.state c e.paddr vaddr pagingReadWrite pagingPl3 m) (hm : m ≤ e.count.toNat) :
  Adds c [e] w w''
  := by
  have hgrows := Child.grows_of_maps hkeeps hchild hmaps
  refine ⟨h.toGrows.trans hgrows, ?_, ?_, ?_, ?_, List.pairwise_singleton _ _, fun hopen => (h.opens hopen).maps hmaps,
    fun halone => (h.alone halone).maps hrun hm hmaps ?_⟩
  · intro u e' hu
    rw [hmaps.page] at hu
    split at hu
    case isTrue hlt =>
      right
      obtain rfl := Option.some.inj hu
      refine ⟨e, List.mem_singleton_self _, ?_⟩
      rw [paddr_createPtEntry (hrun.dvd_nthPage (by omega))]
      exact nthPage_mem (by omega)
    case isFalse => exact Or.inl ((h.only u e' hu).resolve_right (by simp))
  · simpa using hrun
  · simpa using hfresh
  · simp only [List.mem_singleton, forall_eq]
    exact fun f hf => hgrows.keeps.label f _ (hown f hf) (by simp)
  · -- frames that were mapped before are not new
    intro u hu e' he' hin
    have hold := (h.only u e' he').resolve_right (by simp)
    simpa using hfresh _ hin _ ((w.labelled.dirs c hpdt).page u hu e' hold)

/-- `process_copy_paddr_list` gives the child an image in new frames, with the contents of the parent's. -/
theorem processCopyPaddrList_adds (env : Env) (h : Child w c) (hrunning : Running w c d)
    (hpdt : w.state.resolve pdt = some c) (hsame : ∀ f, w.own f = some (.user d) → w.state.mem f = s.mem f)
    {ps : List PaddrEle} (himage : Image w.state d vaddr ps) (dest : List PaddrEle) :
  After (processCopyPaddrList env pdt vaddr ps dest) w.heap fun r h' => r.1 = true →
    ∃ w' qs, w'.heap = h' ∧ Adds c qs w w' ∧ r.2 = dest ++ qs ∧ Image w'.state c vaddr qs ∧
      List.Forall₂ (Copy s w'.state) ps qs
  := by
  induction ps generalizing w vaddr dest with
  | nil =>
      refine After.pure fun _ => ⟨w, [], rfl, Adds.refl h, by simp, trivial, List.Forall₂.nil⟩
  | cons q ps ih =>
      obtain ⟨hdvd, hcount, hend, hmapped, hrest⟩ := himage
      rw [processCopyPaddrList_cons]
      refine After.bind (copyFrames_adds env h hrunning hcount (nthPage q.paddr) ?_) ?_
      · exact fun k hk => ⟨nthPage_lt_kernel hend hk, hmapped k hk⟩
      rintro p h₁ hcopy
      refine After.ite (fun _ => After.pure (by simp)) ?_
      intro hp
      obtain ⟨w₁, rfl, hadds₁, hrun, hfresh, hown, hmem⟩ := hcopy hp
      have hgrows₁ := hadds₁.toGrows
      refine After.bind (kmalloc_adds hgrows₁.child env _) ?_
      rintro pe - ⟨w₂, rfl, hadds₂⟩
      have hgrows₂ := hadds₂.toGrows
      refine After.ite (fun _ => After.next fun _ _ => After.pure (by simp)) ?_
      intro hpe
      have hpages := hrun.pages_eq
      have hgrows := hgrows₁.trans hgrows₂
      have hframes : ∀ k < q.count.toNat, 4096 ∣ (nthPage p k).toNat ∧ w₂.own (nthPage p k) = some (.user c) :=
        fun k hk => ⟨hrun.dvd_nthPage hk, hgrows₂.keeps.label _ _ (hown k hk) (by simp)⟩
      have hpdt₂ : w₂.state.resolve pdt = some c := hgrows.keeps.resolve hpdt h.own trivial (by simp)
      refine After.bind (mapMemory_spec w₂ hgrows₂.child hpdt₂ ?_ ?_) ?_
      · rw [hpages]
        exact fun u hu => lt_kernel_of_pageOff hdvd hend hu
      · rw [hpages]
        exact hframes
      rintro r - ⟨w₃, rfl, hkeeps₃, hchild₃, m, hmaps, hr⟩
      refine After.ite (fun _ => After.next fun _ _ => After.next fun _ _ => After.pure (by simp)) ?_
      intro hle
      rw [hrun.all_mapped hr hle] at hmaps
      have hgrows₃ := Child.grows_of_maps hkeeps₃ hchild₃ hmaps
      have hall := hgrows.trans hgrows₃
      have hadds : Adds c [⟨pe, p, q.count⟩] w w₃ := by
        refine (hadds₁.trans hadds₂).maps h.own hrun ?_ ?_ hkeeps₃ hchild₃ hmaps le_rfl
        · intro f hf t ht
          rw [hfresh f hf] at ht
          simp at ht
        · rintro f ⟨k, hk, rfl⟩
          exact (hframes k hk).2
      refine After.mono (ih hchild₃ (hrunning.keeps hall.keeps)
        (hgrows₃.keeps.resolve hpdt₂ hgrows₂.child.own trivial (by simp))
        (hrunning.same hall.keeps hsame) (hrunning.image hall.keeps hrest) _) ?_
      intro r h' hcopies hok
      obtain ⟨w', qs, rfl, hadds', heq, himage, hforall⟩ := hcopies hok
      have hgrows' := hadds'.toGrows
      refine ⟨w', ⟨pe, p, q.count⟩ :: qs, rfl, hadds.trans hadds', ?_, ⟨hdvd, hcount, hend, ?_, himage⟩, ?_⟩
      · rw [heq, List.append_assoc, List.singleton_append]
      · intro k hk
        refine ⟨createPtEntry (nthPage p k) pagingReadWrite pagingPl3, hgrows'.page _ _ ?_,
          paddr_createPtEntry (hrun.dvd_nthPage hk) _ _⟩
        rw [hmaps.page, pageOff_nthPage_user hend hk, if_pos hk]
      · refine List.Forall₂.cons ⟨rfl, ?_⟩ hforall
        intro k hk
        have hsrc : w.own (nthPage q.paddr k) = some (.user d) := by
          obtain ⟨e, he, hpaddr⟩ := hmapped k hk
          rw [← hpaddr]
          exact (w.labelled.dirs d hrunning.own).page _ (nthPage_lt_kernel hend hk) e he
        rw [(hgrows₂.trans (hgrows₃.trans hgrows')).user _ (hown k hk), hmem k hk, hsame _ hsrc]

theorem processCopyPaddrList_spec (env : Env) (h : Child w c) (hrunning : Running w c d)
    (hpdt : w.state.resolve pdt = some c) (hsame : ∀ f, w.own f = some (.user d) → w.state.mem f = s.mem f)
    {ps : List PaddrEle} (himage : Image w.state d vaddr ps) (dest : List PaddrEle) :
  After (processCopyPaddrList env pdt vaddr ps dest) w.heap fun r h' => r.1 = true →
    ∃ w' qs, w'.heap = h' ∧ Grows c w w' ∧ r.2 = dest ++ qs ∧ Image w'.state c vaddr qs ∧
      List.Forall₂ (Copy s w'.state) ps qs
  := by
  refine After.mono (processCopyPaddrList_adds env h hrunning hpdt hsame himage dest) ?_
  intro r h' hcopies hok
  obtain ⟨w', qs, rfl, hadds, hrest⟩ := hcopies hok
  exact ⟨w', qs, rfl, hadds.toGrows, hrest⟩

/-- Copies keep what they hold while the rest of the child is built. -/
theorem copies_grow {ps qs : List PaddrEle} (h : List.Forall₂ (Copy s w.state) ps qs) (hgrows : Grows c w w')
    (hown : ∀ q ∈ qs, ∀ k < q.count.toNat, w.own (nthPage q.paddr k) = some (.user c)) :
  List.Forall₂ (Copy s w'.state) ps qs
  := by
  induction h with
  | nil => exact List.Forall₂.nil
  | @cons p q ps qs hcopy _ ih =>
      rw [List.forall_mem_cons] at hown
      refine List.Forall₂.cons ⟨hcopy.1, ?_⟩ (ih hown.2)
      intro k hk
      rw [hgrows.user _ (hown.1 k (by rwa [hcopy.1])), hcopy.2 k hk]

theorem Image.grows {ps : List PaddrEle} (h : Image w.state c v ps) (hgrows : Grows c w w') :
  Image w'.state c v ps
  := h.congr fun u _ e he => hgrows.page u e he

end Process
