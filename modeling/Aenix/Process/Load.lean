import Aenix.Process.Built

/-!
# What a process is given

The loaders give a process frames that nothing else uses, and its directory maps these and nothing else.  The pages of
the code hold what `vfs_read` has left in them (`Holds`).
-/

open Aenix
open Paging hiding Call exec Step

namespace Process

variable {w w' : World} {s s' : State} {own : Labels} {new gone : Set Tag} {c p v size : UInt32} {ps : Ps} {m : ℕ}

/-! ### Reading a file -/

/-- The pages that are written to hold what is written. -/
theorem writePages_fills (hl : Labelled s own) {new : ℕ → Table} {dest : ℕ → UInt32}
    (hto : ∀ k < m, s.resolve (nthPage v k) = some (dest k) ∧ own (dest k) = some (.user c))
    (hinj : ∀ j < m, ∀ k < m, dest j = dest k → j = k) (hrun : writePages v new m s = some s') :
  (∀ k < m, s'.mem (dest k) = new k) ∧ ∀ f, (∀ k < m, f ≠ dest k) → s'.mem f = s.mem f
  := by
  induction m generalizing s' with
  | zero =>
      obtain rfl := Option.some.inj hrun
      exact ⟨by simp, fun _ _ => rfl⟩
  | succ m ih =>
      obtain ⟨s₁, hs₁, hrun⟩ := Option.bind_eq_some_iff.mp hrun
      obtain ⟨f, hf, hrun⟩ := Option.bind_eq_some_iff.mp hrun
      obtain rfl := Option.some.inj hrun
      have hwrote : Wrote own c s s₁ := writePages_wrote hl (fun k hk => ⟨dest k, hto k (by omega)⟩) hs₁
      have hinj₁ := fun j (hj : j < m) k (hk : k < m) => hinj j (by omega) k (by omega)
      obtain ⟨hfilled, hother⟩ := ih (fun k hk => hto k (by omega)) hinj₁ hs₁
      obtain rfl : dest m = f := by
        rw [hwrote.resolve hl, (hto m (by omega)).1] at hf
        exact Option.some.inj hf
      constructor
      · intro k hk
        rw [State.mem_fill]
        by_cases hkm : k = m
        · rw [hkm, Function.update_self]
        · rw [Function.update_of_ne fun heq => hkm (hinj k hk m (by omega) heq)]
          exact hfilled k (by omega)
      · intro f hf
        rw [State.mem_fill, Function.update_of_ne (hf m (by omega))]
        exact hother f fun k hk => hf k (by omega)

/-- The frames of the element hold what `vfs_read` leaves when it reads all of the file at `path` into frames that
held something. -/
def Holds (vfs : Vfs) (path : List UInt8) (s : State) (e : PaddrEle) : Prop :=
  ∃ node size old, vfs.lookup path = some node ∧ vfs.fileSize node = some size ∧ e.count = divCeil size fourKb ∧
    (vfs.read node size old).1 = size ∧ ∀ k < pages size, s.mem (nthPage e.paddr k) = (vfs.read node size old).2 k

/-- What the frames hold stays while the rest of the process is built. -/
theorem Holds.grows {vfs : Vfs} {path : List UInt8} {e : PaddrEle} (h : Holds vfs path w.state e)
    (hown : ∀ f ∈ e.frames, w.own f = some (.user c)) (hgrows : Grows c w w') :
  Holds vfs path w'.state e
  := by
  obtain ⟨node, size, old, hlookup, hsize, hcount, hread, hmem⟩ := h
  refine ⟨node, size, old, hlookup, hsize, hcount, hread, fun k hk => ?_⟩
  have hpages := pages_le_divCeil size
  rw [hgrows.user _ (hown _ (nthPage_mem (by rw [hcount]; omega))), hmem k hk]

/-- `vfs_read` into a window on new frames. -/
theorem Window.fill_spec {n count : UInt32} (h : Window w c v (pages count)) (hrun : Run p n)
    (hle : pages count ≤ n.toNat) (env : Env) (node : Vnode)
    (hres : ∀ k < pages count, w.state.resolve (nthPage v k) = some (nthPage p k))
    (hown : ∀ k < n.toNat, w.own (nthPage p k) = some (.user c)) :
  Spec {.user c} ∅ (vfsRead env node v count) w fun r w' =>
    w'.own = w.own ∧ Window w' c v (pages count) ∧ (∃ old, r = (env.vfs.read node count old).1 ∧
      ∀ k < pages count, w'.state.mem (nthPage p k) = (env.vfs.read node count old).2 k) ∧
      ∀ f, (∀ k < pages count, f ≠ nthPage p k) → w'.state.mem f = w.state.mem f
  := by
  intro r h' hread
  obtain ⟨w', rfl, hkeeps, hsame, hwindow⟩ := h.vfsRead_spec env node r h' hread
  obtain ⟨⟨r', s₁⟩, hpages, heq⟩ := Option.map_eq_some_iff.mp hread
  obtain ⟨s', hwrite, hs'⟩ := Option.map_eq_some_iff.mp hpages
  obtain ⟨rfl, rfl⟩ := Prod.mk.inj hs'
  obtain ⟨rfl, hheap⟩ := Prod.mk.inj heq
  have hstate : w'.state = s' := by rw [World.state, ← hheap]
  obtain ⟨hfilled, hother⟩ := writePages_fills w.labelled (fun k hk => ⟨hres k hk, hown k (by omega)⟩)
    (fun j hj k hk => hrun.nthPage_inj (by omega) (by omega)) hwrite
  rw [← hstate] at hfilled hother
  exact ⟨w', rfl, hkeeps, hsame, hwindow, ⟨_, rfl, hfilled⟩, hother⟩

/-! ### Loading -/

/-- The files that are found are no larger than the memory that one page table maps. -/
def Small (vfs : Vfs) : Prop :=
  ∀ path node size, vfs.lookup path = some node → vfs.fileSize node = some size → size.toNat ≤ 4096 * 1024

theorem pages_eq_divCeil (hpos : 0 < size.toNat) (hle : size.toNat ≤ 4096 * 1024) :
  pages size = (divCeil size fourKb).toNat
  := by
  rw [pages_eq (by omega), toNat_divCeil hpos, toNat_fourKb]
  omega

/-- No frames are given for an empty file. -/
theorem Run.size_pos (h : Run p (divCeil size fourKb)) :
  0 < size.toNat
  := by
  by_contra hzero
  obtain rfl : size = 0 := UInt32.toNat_inj.mp (by rw [UInt32.toNat_zero]; omega)
  have hfits := h.fits
  rw [show divCeil 0 fourKb = 1048576 by decide, show (1048576 : UInt32).toNat = 1048576 from rfl] at hfits
  omega

/-- Frames that are mapped from a page on are an image. -/
theorem image_of_maps {e : PaddrEle} (hrun : Run e.paddr e.count) (hdvd : 4096 ∣ v.toNat) (hle : e.count.toNat ≤ 1024)
    (hend : v.toNat + 4096 * e.count.toNat ≤ 0xC0000000)
    (hmaps : Maps s s' c e.paddr v pagingReadWrite pagingPl3 e.count.toNat) :
  Image s' c v [e]
  := by
  refine ⟨hdvd, hle, hend, ?_, trivial⟩
  intro k hk
  refine ⟨createPtEntry (nthPage e.paddr k) pagingReadWrite pagingPl3, ?_,
    paddr_createPtEntry (hrun.dvd_nthPage hk) _ _⟩
  rw [hmaps.page, pageOff_nthPage_user hend hk, if_pos hk]

theorem vfsLookup_eq (env : Env) (path : List UInt8) (h : Kmalloc.Heap State) :
  After (vfsLookup env path) h fun node _ => node = env.vfs.lookup path
  := After.next fun _ _ => After.next fun _ _ => After.pure rfl

/-- `process_load_code` gives the process new frames with the contents of the file. -/
theorem processLoadCode_adds (env : Env) (h : Child w c) (hpdt : w.state.resolve ps.pdt = some c)
    (hsmall : Small env.vfs) (path : List UInt8) :
  After (processLoadCode env ps path 0) w.heap fun r h' => ∀ ps', r = some ps' →
    ∃ w' e, w'.heap = h' ∧ Adds c [e] w w' ∧ Image w'.state c 0 [e] ∧ Holds env.vfs path w'.state e ∧
      ps' = { ps with codePaddrs := [e], userMode := { ps.userMode with eip := 0 }, codeStartVaddr := 0 }
  := by
  unfold processLoadCode
  refine After.bind ((vfsLookup_spec w env path).and (vfsLookup_eq env path w.heap)) ?_
  rintro node - ⟨⟨w₀, rfl, hkeeps₀, -⟩, hnode⟩
  have hadds₀ := h.adds_heap hkeeps₀
  cases node with
  | none => exact After.pure (by simp)
  | some node =>
  dsimp only
  cases hsize : env.vfs.fileSize node with
  | none => exact After.pure (by simp)
  | some fileSize =>
  dsimp only
  have hsizeLe := hsmall path node fileSize hnode.symm hsize
  refine After.bind (pfaAllocate_spec w₀ _ (.user c) (by simp)) ?_
  rintro p - ⟨w₁, rfl, hkeeps₁, halloc⟩
  refine After.ite (fun _ => After.pure (by simp)) ?_
  intro hp
  obtain ⟨-, hrun, hmem₁, hfresh, hown₁⟩ := halloc.resolve_left fun h => hp h.1
  have hpages := pages_eq_divCeil hrun.size_pos hsizeLe
  have hpos := hrun.pos
  have hcount : pages fileSize ≤ 1024 := by
    rw [pages_eq (by omega)]
    omega
  refine After.bind (findNextVaddr_spec w₁ _) ?_
  rintro v - ⟨w₂, rfl, -, rfl, hspare⟩
  refine After.ite (fun _ => After.pure (by simp)) ?_
  intro hv
  refine After.bind (mapKernelMemory_spec w₂ p v _) ?_
  rintro r - ⟨w₃, rfl, hkeeps₃, m, hmaps, hr⟩
  refine After.ite (fun _ => After.next fun _ _ => After.pure (by simp)) ?_
  intro hle
  rw [all_mapped hr hle] at hmaps
  have hframe₃ : ∀ k < (divCeil fileSize fourKb).toNat, w₃.own (nthPage p k) = some (.user c) :=
    fun k hk => hkeeps₃.label _ _ ((hown₁ _).mpr (Or.inr (nthPage_mem hk))) (Set.notMem_empty _)
  have hwindow : Window w₃ c v (pages fileSize) := by
    apply (hspare hv).1.window (by omega) hcount hmaps
    exact fun k hk => ⟨hrun.dvd_nthPage (by omega), hframe₃ k (by omega)⟩
  refine After.bind (hwindow.fill_spec hrun hpages.le env node ?_ hframe₃) ?_
  · exact fun k hk => resolve_of_maps hrun hmaps hpages.le hk
  rintro count - ⟨w₄, rfl, hkeeps₄, hown₄, hwindow₄, ⟨old, hcount₄, hfilled⟩, hother⟩
  refine After.ite (fun _ => After.next fun _ _ => After.pure (by simp)) ?_
  intro hread
  refine After.bind (hwindow₄.unmap_spec env) ?_
  rintro - - ⟨w₅, rfl, hkeeps₅, -⟩
  have hkeeps : Keeps {.user c, .kernelTable} ∅ w₀ w₄ :=
    ((hkeeps₁.mono (by simp) subset_rfl).trans (hkeeps₃.mono (by simp) subset_rfl) (by simp)).trans
      (hkeeps₄.mono (by simp) subset_rfl) (by simp)
  have hadds₅ := hadds₀.trans (hadds₀.child.fills hkeeps
    (same_of_new hkeeps₁ hmem₁ hfresh hkeeps₃ hpages.le hother) hkeeps₅)
  have hown₅ : ∀ k < (divCeil fileSize fourKb).toNat, w₅.own (nthPage p k) = some (.user c) := by
    intro k hk
    apply hkeeps₅.label _ _ _ (by simp)
    rw [hown₄]
    exact hframe₃ k hk
  have hpdt₅ : w₅.state.resolve ps.pdt = some c := hadds₅.keeps.resolve hpdt h.own trivial (by simp)
  have hend : (0 : UInt32).toNat + 4096 * pages fileSize ≤ 0xC0000000 := by
    rw [UInt32.toNat_zero]
    omega
  refine After.bind (mapMemory_spec w₅ hadds₅.child hpdt₅ ?_ ?_) ?_
  · exact fun u hu => lt_kernel_of_pageOff (by simp) hend hu
  · exact fun k hk => ⟨hrun.dvd_nthPage (by omega), hown₅ k (by omega)⟩
  rintro r - ⟨w₆, rfl, hkeeps₆, hchild₆, m, hmaps₆, hr₆⟩
  refine After.ite (fun _ => After.pure (by simp)) ?_
  intro hle₆
  rw [all_mapped hr₆ hle₆] at hmaps₆
  have hadds₆ : ∀ pe, Adds c [⟨pe, p, divCeil fileSize fourKb⟩] w w₆ := by
    intro pe
    refine hadds₅.maps h.own hrun ?_ ?_ hkeeps₆ hchild₆ hmaps₆ hpages.le
    · intro f hf t ht
      by_contra hne
      have hold := hadds₀.keeps.label f t ht hne
      rw [hfresh f hf] at hold
      simp at hold
    · rintro f ⟨k, hk, rfl⟩
      exact hown₅ k hk
  refine After.bind (kmalloc_adds hchild₆ env _) ?_
  rintro pe - ⟨w₇, rfl, hadds₇⟩
  refine After.ite (fun _ => After.pure (by simp)) ?_
  intro hpe
  have himage : Image w₆.state c 0 [⟨pe, p, divCeil fileSize fourKb⟩] := by
    rw [hpages] at hmaps₆ hend
    apply image_of_maps hrun (by simp) (by simp only; omega) hend hmaps₆
  refine After.pure fun ps' hps' => ⟨w₇, ⟨pe, p, divCeil fileSize fourKb⟩, rfl, (hadds₆ pe).trans hadds₇,
    himage.grows hadds₇.toGrows, ⟨node, fileSize, old, hnode.symm, hsize, rfl, ?_, ?_⟩, (Option.some.inj hps').symm⟩
  · rw [← hcount₄]
    exact not_not.mp hread
  · intro k hk
    rw [hadds₇.user _ (hkeeps₆.label _ _ (hown₅ k (by omega)) (by simp)),
      hkeeps₆.contents _ _ (hown₅ k (by omega)) (by simp) (by simp),
      hkeeps₅.contents _ _ (by rw [hown₄]; exact hframe₃ k (by omega)) (by simp) (by simp)]
    exact hfilled k hk

/-- The last word of a page of the kernel that has been mapped. -/
theorem topOfStack (hrun : Run p 1) (hdvd : 4096 ∣ v.toNat)
    (hmaps : Maps w.state w'.state w.state.kernelPdt p v pagingReadWrite pagingPl0 m) (hone : m = 1) :
  w'.state.resolve (v + 4096 - 4) = some p ∧ v + 4096 - 4 ≠ 0 ∧ ¬ IsTmp (v + 4096 - 4)
  := by
  obtain ⟨hidx, hidx'⟩ := lastWord_page hdvd
  refine ⟨?_, ?_, ?_⟩
  · have hfirst := resolve_of_maps hrun hmaps (by rw [hone, UInt32.toNat_one]) (k := 0) (by omega)
    rw [nthPage_zero, nthPage_zero] at hfirst
    rw [State.resolve, State.page, hidx, hidx']
    exact hfirst
  · intro hzero
    have hlt := v.toNat_lt
    have hnat := congrArg UInt32.toNat hzero
    rw [UInt32.toNat_sub, UInt32.toNat_add, show (4096 : UInt32).toNat = 4096 from rfl,
      show (4 : UInt32).toNat = 4 from rfl, UInt32.toNat_zero] at hnat
    omega
  · rintro ⟨hi, hj⟩
    rw [hidx] at hi
    rw [hidx'] at hj
    have hself : pageOff v v < m := by
      have hlt := v.toNat_lt
      rw [pageOff]
      omega
    exact hmaps.spared v hself ⟨hj, Or.inl hi⟩

/-- `process_load_stack` gives the process one new frame for its stack. -/
theorem processLoadStack_adds (env : Env) (h : Child w c) (hpdt : w.state.resolve ps.pdt = some c) :
  After (processLoadStack env ps) w.heap fun r h' => ∀ ps', r = some ps' →
    ∃ w' e, w'.heap = h' ∧ Adds c [e] w w' ∧ Image w'.state c procInitialStackVaddr [e] ∧ e.count = 1 ∧
      ps' = { ps with stackPaddrs := [e], stackStartVaddr := procInitialStackVaddr,
                      userMode := { ps.userMode with esp := procInitialEsp } }
  := by
  unfold processLoadStack
  rw [show divCeil procInitialStackSize fourKb = 1 by decide]
  dsimp only
  refine After.bind (pfaAllocate_spec w 1 (.user c) (by simp)) ?_
  rintro p - ⟨w₁, rfl, hkeeps₁, halloc⟩
  refine After.ite (fun _ => After.pure (by simp)) ?_
  intro hp
  obtain ⟨-, hrun, hmem₁, hfresh, hown₁⟩ := halloc.resolve_left fun h => hp h.1
  have hadds₁ : Adds c [] w w₁ := by
    refine (h.grows hkeeps₁ ?_ ?_ ?_ ?_ ?_).adds h.own hkeeps₁ ?_ ?_
    · simp [childTags]
    · simp
    · simp
    · simp
    · exact fun f _ => by rw [hmem₁]
    · simp
    · simp
  have hpdt₁ : w₁.state.resolve ps.pdt = some c := hadds₁.keeps.resolve hpdt h.own trivial (by simp)
  have hpages : pages (1 * fourKb) = (1 : UInt32).toNat := hrun.pages_eq
  have hend : procInitialStackVaddr.toNat + 4096 * (1 : UInt32).toNat ≤ 0xC0000000 := by decide
  have hframe₁ : ∀ k < (1 : UInt32).toNat, w₁.own (nthPage p k) = some (.user c) :=
    fun k hk => (hown₁ _).mpr (Or.inr (nthPage_mem hk))
  refine After.bind (mapMemory_spec w₁ hadds₁.child hpdt₁ ?_ ?_) ?_
  · rw [hpages]
    exact fun u hu => lt_kernel_of_pageOff (by decide) hend hu
  · rw [hpages]
    exact fun k hk => ⟨hrun.dvd_nthPage hk, hframe₁ k hk⟩
  rintro r - ⟨w₂, rfl, hkeeps₂, hchild₂, m, hmaps, hr⟩
  refine After.ite (fun _ => After.pure (by simp)) ?_
  intro hle
  rw [hrun.all_mapped hr hle] at hmaps
  refine After.bind (kmalloc_adds hchild₂ env _) ?_
  rintro pe - ⟨w₃, rfl, hadds₃⟩
  refine After.ite (fun _ => After.pure (by simp)) ?_
  intro hpe
  have hadds₂ : Adds c [⟨pe, p, 1⟩] w w₂ := by
    refine hadds₁.maps h.own hrun ?_ ?_ hkeeps₂ hchild₂ hmaps le_rfl
    · intro f hf t ht
      rw [hfresh f hf] at ht
      simp at ht
    · rintro f ⟨k, hk, rfl⟩
      exact hframe₁ k hk
  have himage : Image w₂.state c procInitialStackVaddr [⟨pe, p, 1⟩] :=
    image_of_maps hrun (by decide) (show (1 : UInt32).toNat ≤ 1024 by decide) hend hmaps
  exact After.pure fun ps' hps' => ⟨w₃, ⟨pe, p, 1⟩, rfl, hadds₂.trans hadds₃, himage.grows hadds₃.toGrows, rfl,
    (Option.some.inj hps').symm⟩

/-- `process_load_kernel_stack` gives the process one frame, which the kernel has mapped. -/
theorem processLoadKernelStack_adds (env : Env) (h : Child w c) (ps : Ps) :
  After (processLoadKernelStack env ps) w.heap fun r h' => ∀ ps', r = some ps' →
    ∃ w' a p v, w'.heap = h' ∧ Adds c [] w w' ∧ Run p 1 ∧ w'.own p = some (.kernelStack c) ∧
      w'.state.resolve v = some p ∧ v ≠ 0 ∧ ¬ IsTmp v ∧
      ps' = { ps with kernelStackPaddrs := [⟨a, p, 1⟩], kernelStackStartVaddr := v }
  := by
  unfold processLoadKernelStack
  rw [show divCeil kernelStackSize fourKb = 1 by decide]
  dsimp only
  rw [show (1 : UInt32) * fourKb = 4096 from rfl]
  refine After.bind (pfaAllocate_spec w 1 (.kernelStack c) (by simp)) ?_
  rintro p - ⟨w₁, rfl, hkeeps₁, halloc⟩
  refine After.ite (fun _ => After.pure (by simp)) ?_
  intro hp
  obtain ⟨-, hrun, -, -, hown₁⟩ := halloc.resolve_left fun h => hp h.1
  have hadds₁ : Adds c [] w w₁ := (h.steady hkeeps₁ (by simp) (by simp)).adds h.own hkeeps₁ (by simp) (by simp)
  refine After.bind (findNextVaddr_spec w₁ _) ?_
  rintro v - ⟨w₂, rfl, -, rfl, hspare⟩
  refine After.ite (fun _ => After.pure (by simp)) ?_
  intro hv
  refine After.bind (mapKernelMemory_spec w₂ p v _) ?_
  rintro r - ⟨w₃, rfl, hkeeps₃, m, hmaps, hr⟩
  have hadds₃ : Adds c [] w₂ w₃ := (hadds₁.child.steady hkeeps₃ (by simp) (by simp)).adds hadds₁.child.own hkeeps₃
    (by simp) (by simp)
  refine After.ite (fun _ => After.pure (by simp)) ?_
  intro hmapped
  have hone : m = 1 := hrun.all_mapped hr (by simp [not_not.mp hmapped, fourKb])
  have hown₃ : w₃.own p = some (.kernelStack c) :=
    hkeeps₃.label _ _ ((hown₁ p).mpr (Or.inr (by simp [framesFrom_one]))) (Set.notMem_empty _)
  obtain ⟨hres, hne, htmp⟩ := topOfStack hrun (hspare hv).1.dvd hmaps hone
  refine After.bind (kmalloc_adds hadds₃.child env _) ?_
  rintro pe - ⟨w₄, rfl, hadds₄⟩
  refine After.ite (fun _ => After.pure (by simp)) ?_
  intro hpe
  exact After.pure fun ps' hps' => ⟨w₄, pe, p, v + 4096 - 4, rfl, hadds₁.trans (hadds₃.trans hadds₄), hrun,
    hadds₄.keeps.label _ _ hown₃ (by simp), hadds₄.keeps.resolve hres hown₃ trivial (by simp), hne, htmp,
    (Option.some.inj hps').symm⟩

end Process
