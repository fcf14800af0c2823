import Aenix.Process.Isolation

/-!
# Programs that start and end

The address space of a process that `process_create` returns in a state that has been reached: the pages of the file
from address 0 on, and one page for the stack (`create_loads_program`).  When the process ends, its frames become free
and those of the others stay in use (`exit_frees`).
-/

open Aenix
open Paging hiding Call exec Step

namespace Process

variable {env : Env} {w w' : World} {ps : Ps} {s : State} {d u v : UInt32}

/-! ### Pages -/

/-- Addresses in one page are mapped alike. -/
theorem page_eq_of_div (h : u.toNat / 4096 = v.toNat / 4096) :
  s.page d u = s.page d v
  := by
  have hidx : virtualToPdtIdx u = virtualToPdtIdx v := by rw [virtualToPdtIdx_eq, virtualToPdtIdx_eq, h]
  have hidx' : virtualToPtIdx u = virtualToPtIdx v := by rw [virtualToPtIdx_eq, virtualToPtIdx_eq, h]
  rw [State.page, State.page, hidx, hidx']

theorem nthPage_div {k n : ℕ} (h : v.toNat + 4096 * n ≤ 0xC0000000) (hk : k < n) :
  (nthPage v k).toNat / 4096 = v.toNat / 4096 + k
  := by
  rw [toNat_nthPage (by omega)]
  omega

/-- The pages of an image with one element. -/
theorem Image.page_iff {e : PaddrEle} (h : Image s d v [e]) (halone : Alone s d) {entry : Entry}
    (hu : u < kernelStartVaddr) (hentry : s.page d u = some entry) :
  entry.paddr ∈ e.frames ↔ v.toNat / 4096 ≤ u.toNat / 4096 ∧ u.toNat / 4096 < v.toNat / 4096 + e.count.toNat
  := by
  obtain ⟨-, -, hend, hmapped, -⟩ := h
  constructor
  · rintro ⟨k, hk, hpaddr⟩
    obtain ⟨e', he', hpaddr'⟩ := hmapped k hk
    have heq := halone u hu _ (nthPage_lt_kernel hend hk) entry e' hentry he' (hpaddr.trans hpaddr'.symm)
    rw [heq, nthPage_div hend hk]
    omega
  · rintro ⟨hle, hlt⟩
    have hk : u.toNat / 4096 - v.toNat / 4096 < e.count.toNat := by omega
    obtain ⟨e', he', hpaddr'⟩ := hmapped _ hk
    have hdiv : u.toNat / 4096 = (nthPage v (u.toNat / 4096 - v.toNat / 4096)).toNat / 4096 := by
      rw [nthPage_div hend hk]
      omega
    rw [page_eq_of_div hdiv, he', Option.some.injEq] at hentry
    rw [← hentry, hpaddr']
    exact nthPage_mem hk

theorem Image.isSome {e : PaddrEle} (h : Image s d v [e]) (hle : v.toNat / 4096 ≤ u.toNat / 4096)
    (hlt : u.toNat / 4096 < v.toNat / 4096 + e.count.toNat) :
  (s.page d u).isSome
  := by
  obtain ⟨-, -, hend, hmapped, -⟩ := h
  have hk : u.toNat / 4096 - v.toNat / 4096 < e.count.toNat := by omega
  obtain ⟨e', he', -⟩ := hmapped _ hk
  have hdiv : u.toNat / 4096 = (nthPage v (u.toNat / 4096 - v.toNat / 4096)).toNat / 4096 := by
    rw [nthPage_div hend hk]
    omega
  rw [page_eq_of_div hdiv, he', Option.isSome_some]

/-! ### The program -/

/-- The process begins at address 0 with the file at `path` there, its stack in the page below the kernel, and nothing
else that it may access. -/
structure Started (vfs : Vfs) (path : List UInt8) (s : State) (ps : Ps) : Prop where
  file : ∃ node size old, vfs.lookup path = some node ∧ vfs.fileSize node = some size ∧
    (vfs.read node size old).1 = size ∧
    (∀ k < pages size, ∃ e, s.page ps.pdtPaddr (nthPage 0 k) = some e ∧ s.mem e.paddr = (vfs.read node size old).2 k) ∧
    ∀ v, (∃ b, s.rights ps.pdtPaddr v = some (b, true)) ↔
      v.toNat / 4096 < (size.toNat + 4095) / 4096 ∨ v.toNat / 4096 = 0xBFFFF
  registers : ps.current = { Registers.zero with ss := 0x23, esp := 0xBFFFFFFC, eflags := 0x202, cs := 0x1B, eip := 0 }

/-- A process that has been made of a file. -/
theorem Loads.started {live : List Ps} {path : List UInt8} (h : Loads env.vfs path w.state ps) (hinv : Invariant w live)
    (hps : ps ∈ live) :
  Started env.vfs path w.state ps
  := by
  obtain ⟨e, hcode, node, size, old, hlookup, hsize, hcount, hread, hmem⟩ := h.code
  obtain ⟨e', hstack, hone⟩ := h.stack
  have hwhole := hinv.whole ps hps
  have himage := hwhole.code
  have himage' := hwhole.stack
  rw [hcode, h.codeStart] at himage
  rw [hstack, h.stackStart] at himage'
  have hrun := hwhole.runs e (by simp [Ps.image, hcode])
  have hcountLe : e.count.toNat ≤ 1024 := himage.2.1
  rw [hcount] at hrun
  have hpos := hrun.size_pos
  have hle : size.toNat ≤ 4096 * 1024 := by
    rw [hcount, toNat_divCeil hpos, toNat_fourKb] at hcountLe
    omega
  have hpages : pages size = e.count.toNat := by
    rw [hcount]
    exact pages_eq_divCeil hpos hle
  have hup : pages size = (size.toNat + 4095) / 4096 := Paging.pages_eq (by omega)
  refine ⟨⟨node, size, old, hlookup, hsize, hread, ?_, ?_⟩, ?_⟩
  · intro k hk
    rw [hpages] at hk
    obtain ⟨entry, hentry, hpaddr⟩ := himage.2.2.2.1 k hk
    exact ⟨entry, hentry, by rw [hpaddr, hmem k (by omega)]⟩
  · intro v
    rw [hinv.rights hps, ← hup, hpages]
    have hkernel : v < kernelStartVaddr ↔ v.toNat < 0xC0000000 := UInt32.lt_iff_toNat_lt
    have hbase : procInitialStackVaddr.toNat / 4096 = 0xBFFFF := by decide
    have hend : (0 : UInt32).toNat + 4096 * e.count.toNat ≤ 0xC0000000 := himage.2.2.1
    rw [UInt32.toNat_zero] at hend
    constructor
    · rintro ⟨hv, hsome⟩
      obtain ⟨entry, hentry⟩ := Option.isSome_iff_exists.mp hsome
      obtain ⟨q, hq, hin⟩ := hwhole.only v hv entry hentry
      simp only [Ps.image, hcode, hstack, List.cons_append, List.nil_append, List.mem_cons, List.not_mem_nil,
        or_false] at hq
      rcases hq with rfl | rfl
      · have hrange := (himage.page_iff hwhole.alone hv hentry).mp hin
        rw [UInt32.toNat_zero] at hrange
        omega
      · have hrange := (himage'.page_iff hwhole.alone hv hentry).mp hin
        rw [hone, hbase, UInt32.toNat_one] at hrange
        omega
    · rintro (hlt | heq)
      · refine ⟨hkernel.mpr (by omega), himage.isSome ?_ ?_⟩
        · simp
        · simpa using hlt
      · refine ⟨hkernel.mpr (by omega), himage'.isSome ?_ ?_⟩
        · rw [hbase, heq]
        · rw [hbase, heq, hone]
          decide
  · obtain ⟨addr, id, hmode⟩ := h.userMode
    rw [h.current, hmode]
    rfl

section Runs

variable {h h' : Kmalloc.Heap State} {sys : System} {tr : List (Trace.Transition System Action Unit)}
  {path : List UInt8} {id : UInt32}

/-- In every state that is reached, what `process_create` returns begins with the file in its address space, in
memory of its own, and with a stack; both, and nothing else, are what it may access. -/
theorem create_loads_program (hsmall : Small env.vfs) (hboot : Booted h)
    (hrun : Trace.Runs (System.step env) ⟨h, []⟩ tr sys)
    (hcreate : processCreate env path id sys.heap = some (some ps, h')) :
  Started env.vfs path h'.kernel ps ∧ ∀ f, System.Maps ⟨h', ps :: sys.live⟩ ps f →
    System.Exclusive ⟨h', ps :: sys.live⟩ ps f
  := by
  have hsound : System.Sound ⟨h, []⟩ := hboot.invariant
  obtain ⟨w, hw, hinv⟩ := sound_of_runs hsmall hsound hrun
  have hspec := processCreate_made w env hsmall path id
  rw [hw] at hspec
  obtain ⟨w', rfl, hmade, hloads⟩ := hspec _ _ hcreate ps rfl
  have hinv' := (hinv.made hmade).1
  have hmem : ps ∈ ps :: sys.live := List.mem_cons_self
  exact ⟨hloads.started hinv' hmem, fun f hf => hinv'.exclusive hmem hf⟩

/-- The first process is created from two pages. -/
theorem create_loads_program_boot :
  processCreate Boot.files [] 1 Boot.heap = some (some Boot.init, Boot.heapOn Boot.taken₄ Boot.whole) ∧
    Started Boot.files.vfs [] Boot.whole Boot.init
  := by
  have hrun := Boot.run_create []
  exact ⟨hrun, (create_loads_program Boot.small Boot.booted Trace.Runs.nil hrun).1⟩

/-! ### The end -/

/-- In every state that is reached, the end of the process that runs makes the frames on its lists and its directory
free, and of the others at most page tables of the kernel; the other processes keep their memory, which stays in
use. -/
theorem exit_frees (hsmall : Small env.vfs) (hboot : Booted h)
    (hrun : Trace.Runs (System.step env) ⟨h, []⟩ tr sys) (hps : sys.running = some ps) {sys' : System} {u : Unit}
    (hexit : System.step env sys .exit = some (u, sys')) :
  (∀ f ∈ ps.frames, f.toNat ∉ sys.state.pfa.free ∧ f.toNat ∈ sys'.state.pfa.free) ∧
    (∀ f : UInt32, f.toNat ∈ sys'.state.pfa.free → f.toNat ∈ sys.state.pfa.free ∨ f ∈ ps.frames ∨
      ∃ i < 1024, sys.state.has sys.state.kernelPdt i ∧ f = sys.state.table sys.state.kernelPdt i) ∧
    sys'.live = sys.live.erase ps ∧ ∀ ps' ∈ sys'.live, Undisturbed sys.state sys'.state ps' ∧
      ∀ f ∈ ps'.frames, f.toNat ∉ sys'.state.pfa.free
  := by
  have hsound : System.Sound ⟨h, []⟩ := hboot.invariant
  obtain ⟨w, hw, hinv⟩ := sound_of_runs hsmall hsound hrun
  obtain ⟨hmem, -⟩ := System.running_spec hps
  have hwhole := hinv.whole ps hmem
  simp only [System.step, hps, Option.bind_eq_bind, Option.bind_some] at hexit
  obtain ⟨⟨_, h'⟩, hdelete, heq⟩ := Option.bind_eq_some_iff.mp hexit
  obtain ⟨-, rfl⟩ := Prod.mk.inj (Option.some.inj heq)
  have hspec := processDeleteResources_frees (w := w) env hwhole.owns
  rw [hw] at hspec
  obtain ⟨w', rfl, hfrees⟩ := hspec _ _ hdelete
  obtain ⟨hinv', hothers⟩ := hinv.freed hmem hfrees
  have hstate : w.state = sys.state := by rw [World.state, hw]
  have hin : ∀ {w₀ : World} {q : Ps} {f : UInt32}, Whole w₀ q → f ∈ q.frames → f.toNat ∉ w₀.state.pfa.free := by
    intro w₀ q f hq hf hfree
    rcases hq.label hf with hl | hl | hl
    all_goals exact (w₀.labelled.held _ _ hl).2 hfree
  rw [← hstate]
  refine ⟨fun f hf => ⟨hin hwhole hf, hfrees.freed f (Or.inr hf)⟩, hfrees.only, rfl, fun ps' hps' => ?_⟩
  exact ⟨hothers ps' hps', fun f hf => hin (hinv'.whole ps' hps') hf⟩

namespace Boot

theorem run_exit :
  (processDeleteResources files init (heapOn taken₈ both)).isSome
  := by
  unfold processDeleteResources
  rw [pdtDelete_eq_fun]
  decide +kernel

/-- The first process ends, and leaves its clone. -/
theorem exists_exit :
  ∃ sys', twins.running = some init ∧ System.step files twins .exit = some ((), sys') ∧ sys'.live = [clone]
  := by
  obtain ⟨⟨_, h'⟩, hdelete⟩ := Option.isSome_iff_exists.mp run_exit
  have hrunning : twins.running = some init := by rfl
  have hne : clone ≠ init := fun heq => absurd (congrArg Ps.id heq) (by decide)
  exact ⟨⟨h', twins.live.erase init⟩, hrunning, step_exit hrunning hdelete, by simp [twins, hne]⟩

end Boot

/-- The first process ends; its clone keeps its frames. -/
theorem exit_frees_boot :
  ∃ sys' : System, System.step Boot.files Boot.twins .exit = some ((), sys') ∧ sys'.live = [Boot.clone] ∧
    (∀ f ∈ Boot.init.frames, f.toNat ∉ Boot.twins.state.pfa.free ∧ f.toNat ∈ sys'.state.pfa.free) ∧
    ∀ f ∈ Boot.clone.frames, f.toNat ∉ sys'.state.pfa.free
  := by
  obtain ⟨tr, hrun⟩ := Boot.exists_run
  obtain ⟨sys', hrunning, hexit, hlive⟩ := Boot.exists_exit
  obtain ⟨hfrees, -, -, hothers⟩ := exit_frees Boot.small Boot.booted hrun hrunning hexit
  exact ⟨sys', hexit, hlive, hfrees, (hothers Boot.clone (by simp [hlive])).2⟩

end Runs

end Process
