import Aenix.Lib.Trace
import Aenix.Syscall.Files

/-!
# Failed calls of `sys_open`

`sys_open` allocates a vnode, and `vfs_lookup` in it a copy of the path.  The copy is freed on every path
through `vfs_lookup`, and the vnode when the table is full and when `vn_open` refuses; but not when the path is
not found.  So a call that returns -1 has no effect on the table, and none on the live blocks of the heap unless
there was memory for the vnode and the path was not found (`failed_open_leaks_iff`).
-/

open Kmalloc (Safe Allowed)
open Process (Vnode vnodeSize)

namespace Syscall

variable {K : Type}

/-- A call of `sys_open`: the memory of the process, the number of the system call and the address of the
arguments. -/
structure OpenCall where
  user : User
  syscall : UInt32
  stack : UInt32

/-- The path that is to be opened. -/
def OpenCall.path (c : OpenCall) : Vfs.Str :=
  c.user.str (c.user.mem c.stack)

/-- The system that calls `sys_open` again and again. -/
def openStep (env : Env K) (s : Files K) (c : OpenCall) : Option (UInt32 × Files K) :=
  sysOpen env c.user c.syscall c.stack s

variable {env : Env K} {s s' : Files K} {path : Vfs.Str}

/-- The path is found, or `kmalloc` has no memory for the vnode that it is to be found in. -/
def Released (env : Env K) (s : Files K) (path : Vfs.Str) : Prop :=
  ∀ vnode client,
    Kmalloc.exec env.kernel env.base env.rounds s.client (.kmalloc vnodeSize) = some (vnode, client) →
    vnode = 0 ∨ ∃ v, Vfs.vfsLookup env.ops.toVnodeops env.vfsList path (s.nodes vnode) = some (0, v)

/-- The memory that the heap gets from the rest of the kernel in a call of `sys_open`, if any, is fresh. -/
structure Supplied (env : Env K) (s : Files K) (path : Vfs.Str) : Prop where
  vnode : Allowed env.kernel env.base s.client (.kmalloc vnodeSize)
  copy : ∀ vnode client root rest,
    Kmalloc.exec env.kernel env.base env.rounds s.client (.kmalloc vnodeSize) = some (vnode, client) →
    Vfs.selected env.vfsList path = some (root, rest) → rest.length ≠ 0 →
    Allowed env.kernel env.base client (.kmalloc (UInt32.ofNat (rest.length + 1)))

/-! ### Parts of `sys_open` -/

/-- The live blocks are `live`, of which the heap consists and of free blocks, provided that `p`; and the
table is that of `s`. -/
structure Holds (env : Env K) (p : Prop) (s : Files K) (live : List UInt32) (s' : Files K) : Prop where
  safe : p → Safe env.base s'.client
  live_eq : s'.client.live = live
  nonnull : 0 ∉ live
  mem : s'.mem = s.mem

variable {p : Prop}

theorem Holds.trans {live live' : List UInt32} {s'' : Files K} (h : Holds env p s live s')
    (h' : Holds env p s' live' s'') :
  Holds env p s live' s''
  := ⟨h'.safe, h'.live_eq, h'.nonnull, h'.mem.trans h.mem⟩

/-- The state itself. -/
theorem Holds.same (hsafe : p → Safe env.base s.client) (hnonnull : 0 ∉ s.client.live) :
  Holds env p s s.client.live s
  := ⟨hsafe, rfl, hnonnull, rfl⟩

theorem heapCall_run {x : Kmalloc.Call} {r : UInt32} (hrun : heapCall env x s = some (r, s')) :
  ∃ client, Kmalloc.exec env.kernel env.base env.rounds s.client x = some (r, client) ∧
    s' = { s with client := client }
  := by
  obtain ⟨⟨_, client⟩, hexec, heq⟩ := Option.map_eq_some_iff.mp hrun
  obtain ⟨rfl, rfl⟩ := Prod.mk.inj heq
  exact ⟨client, hexec, rfl⟩

theorem kmalloc_live {nbytes r : UInt32} {client : Kmalloc.Client K}
    (hexec : Kmalloc.exec env.kernel env.base env.rounds s.client (.kmalloc nbytes) = some (r, client)) :
  client.live = if r = 0 then s.client.live else r :: s.client.live
  := by
  obtain ⟨_, -, heq⟩ := Option.map_eq_some_iff.mp hexec
  obtain ⟨rfl, rfl⟩ := Prod.mk.inj heq
  rfl

theorem kmalloc_holds (h : Holds env p s s.client.live s) {nbytes : UInt32}
    (hallowed : p → env.base ≠ 0 ∧ Allowed env.kernel env.base s.client (.kmalloc nbytes)) :
  After (kmalloc env nbytes) s fun r s' =>
    Holds env p s (if r = 0 then s.client.live else r :: s.client.live) s' ∧ s'.nodes = s.nodes
  := by
  intro r s' hrun
  obtain ⟨client, hexec, rfl⟩ := heapCall_run hrun
  refine ⟨⟨?_, kmalloc_live hexec, ?_, rfl⟩, rfl⟩
  · intro hp
    obtain ⟨hbase, hallowed⟩ := hallowed hp
    exact (h.safe hp).exec _ hbase hallowed hexec
  · split
    case isTrue => exact h.nonnull
    case isFalse hr => exact List.not_mem_cons_of_ne_of_not_mem (Ne.symm hr) h.nonnull

/-- Freeing what `kmalloc` has returned. -/
theorem kfree_holds (hbase : p → env.base ≠ 0) {s₀ : Files K} {live : List UInt32} {ap : UInt32}
    (h : Holds env p s₀ (if ap = 0 then live else ap :: live) s) :
  After (kfree env ap) s fun _ s' => Holds env p s₀ live s' ∧ s'.nodes = s.nodes
  := by
  refine After.bind (P := fun _ s' => Holds env p s₀ live s' ∧ s'.nodes = s.nodes) ?_
    (fun _ _ hholds => After.pure hholds)
  intro r s' hrun
  obtain ⟨client, hexec, rfl⟩ := heapCall_run hrun
  have hap : Allowed env.kernel env.base s.client (.kfree ap) := by
    by_cases hzero : ap = 0
    · apply Or.inl hzero
    · right
      rw [h.live_eq, if_neg hzero]
      apply List.mem_cons_self
  have herase : client.live = s.client.live.erase ap := by
    obtain ⟨_, -, heq⟩ := Option.map_eq_some_iff.mp hexec
    obtain ⟨-, rfl⟩ := Prod.mk.inj heq
    rfl
  have hnonnull := h.nonnull
  rw [h.live_eq] at herase
  refine ⟨⟨fun hp => (h.safe hp).exec _ (hbase hp) hap hexec, ?_, ?_, h.mem⟩, rfl⟩
  · show client.live = live
    rw [herase]
    split
    case isTrue hnull =>
      rw [if_pos hnull] at hnonnull
      rw [hnull, List.erase_of_not_mem hnonnull]
    case isFalse => exact List.erase_cons_head ..
  · split at hnonnull
    case isTrue => exact hnonnull
    case isFalse => exact fun hin => hnonnull (List.mem_cons_of_mem ap hin)

/-- `vfs_lookup` finds what it finds without the copy of the path, and frees the copy. -/
theorem vfsLookup_holds (h : Holds env p s s.client.live s) (hbase : p → env.base ≠ 0) (res : UInt32)
    (hcopy : p → ∀ root rest, Vfs.selected env.vfsList path = some (root, rest) → rest.length ≠ 0 →
      Allowed env.kernel env.base s.client (.kmalloc (UInt32.ofNat (rest.length + 1)))) :
  After (vfsLookup env path res) s fun ret s' =>
    Holds env p s s.client.live s' ∧
      Vfs.vfsLookup env.ops.toVnodeops env.vfsList path (s.nodes res) = some (ret, s'.nodes res)
  := by
  refine After.ite (fun hshort => After.pure ⟨h, ?_⟩) fun hshort => ?_
  · rw [Vfs.vfsLookup, if_pos hshort]
  refine After.ite (fun hrelative => After.pure ⟨h, ?_⟩) fun hrelative => ?_
  · rw [Vfs.vfsLookup, if_neg hshort, if_pos hrelative]
  rw [Vfs.vfsLookup, if_neg hshort, if_neg hrelative]
  split
  case h_2 => exact fun _ _ hrun => by simp [failure, Alternative.failure, StateT.failure] at hrun
  case h_1 root rest hselected =>
    rw [hselected, Option.map_some]
    cases hroot : root.vfsRoot with
    | none => exact After.pure ⟨h, by simp only [Vfs.lookupIn, hroot]⟩
    | some vnode =>
      simp only [Vfs.lookupIn, hroot]
      refine After.ite ?_ fun hrest => ?_
      · intro hrest ret s' hrun
        obtain ⟨rfl, rfl⟩ := Prod.mk.inj (Option.some.inj hrun)
        rw [if_pos hrest]
        exact ⟨⟨h.safe, rfl, h.nonnull, rfl⟩, by simp⟩
      · rw [if_neg hrest]
        refine After.bind
          (kmalloc_holds h fun hp => ⟨hbase hp, hcopy hp root rest hselected hrest⟩) ?_
        rintro orgp s₁ ⟨hholds, hnodes⟩
        refine After.bind (P := fun ret s₂ =>
          Holds env p s (if orgp = 0 then s.client.live else orgp :: s.client.live) s₂ ∧
            (ret, s₂.nodes res) =
              Vfs.walkFrom env.ops.toVnodeops rest.length vnode rest 0 (s.nodes res)) ?_ ?_
        · intro ret s₂ hrun
          obtain ⟨rfl, rfl⟩ := Prod.mk.inj (Option.some.inj hrun)
          refine ⟨⟨hholds.safe, hholds.live_eq, hholds.nonnull, hholds.mem⟩, ?_⟩
          simp [hnodes]
        · rintro ret s₂ ⟨hholds₂, hwalk⟩
          refine After.bind (kfree_holds hbase hholds₂) ?_
          rintro _ s₃ ⟨hholds₃, hnodes₃⟩
          exact After.pure ⟨hholds₃, by rw [hnodes₃, hwalk]⟩

theorem callVnode_holds {live : List UInt32} {s₀ : Files K} (h : Holds env p s₀ live s) (c : VnodeCall) :
  After (callVnode env c) s fun _ s' => Holds env p s₀ live s'
  := by
  intro r s' hrun
  obtain ⟨-, rfl⟩ := Prod.mk.inj (Option.some.inj hrun)
  exact ⟨fun hp => (h.safe hp).with_kernel _, h.live_eq, h.nonnull, h.mem⟩

/-- The search for an empty element does not use the heap. -/
theorem getNextFd_holds {live : List UInt32} {s₀ : Files K} (h : Holds env p s₀ live s) {n : ℕ}
    {i : UInt32} :
  After (getNextFdFrom env n i) s fun _ s' => Holds env p s₀ live s'
  := by
  induction n generalizing s i with
  | zero => exact After.pure h
  | succ n ih =>
      refine After.bind (P := fun _ s' => Holds env p s₀ live s') ?_ ?_
      · intro vnode s' hrun
        obtain ⟨-, rfl⟩ := Prod.mk.inj (Option.some.inj hrun)
        exact ⟨h.safe, h.live_eq, h.nonnull, h.mem⟩
      · intro vnode s' hholds
        exact After.ite (fun _ => After.pure hholds) fun _ => ih hholds

/-! ### Failed calls -/

/-- A call that has failed leaves the table as it was, and the vnode live unless it is freed again. -/
theorem sysOpen_failed (h : Holds env p s s.client.live s) (user : User) (syscall stack : UInt32)
    (hsupplied : p → env.base ≠ 0 ∧ Supplied env s (user.str (user.mem stack))) :
  After (sysOpen env user syscall stack) s fun r s' => r = -1 →
    ∃ leaked, Holds env p s (leaked ++ s.client.live) s' ∧
      (leaked = [] ↔ Released env s (user.str (user.mem stack)))
  := by
  have hbase : p → env.base ≠ 0 := fun hp => (hsupplied hp).1
  refine After.bind (After.and (fun _ _ => heapCall_run)
    (kmalloc_holds h fun hp => ⟨hbase hp, (hsupplied hp).2.vnode⟩)) ?_
  rintro vnode _ ⟨⟨client, hexec, rfl⟩, hholds₁, -⟩
  have hreleased : Released env s (user.str (user.mem stack)) ↔ vnode = 0 ∨ ∃ v,
      Vfs.vfsLookup env.ops.toVnodeops env.vfsList (user.str (user.mem stack)) (s.nodes vnode) =
        some (0, v) := by
    constructor
    · exact fun h => h vnode client hexec
    · intro h vnode' client' hexec'
      obtain ⟨rfl, rfl⟩ := Prod.mk.inj (Option.some.inj (hexec.symm.trans hexec'))
      apply h
  -- after the path has been found, the vnode is freed on every path that returns -1
  have hdone : ∀ {s₂}, Holds env p s s.client.live s₂ → vnode = 0 ∨ (∃ v,
      Vfs.vfsLookup env.ops.toVnodeops env.vfsList (user.str (user.mem stack)) (s.nodes vnode) =
        some (0, v)) →
      ∃ leaked, Holds env p s (leaked ++ s.client.live) s₂ ∧
        (leaked = [] ↔ Released env s (user.str (user.mem stack))) :=
    fun h hfound => ⟨[], h, by simp [hreleased.mpr hfound]⟩
  have hclient : client.live = if vnode = 0 then s.client.live else vnode :: s.client.live :=
    hholds₁.live_eq
  have hsame : Holds env p { s with client := client } client.live { s with client := client } :=
    Holds.same hholds₁.safe (hclient ▸ hholds₁.nonnull)
  refine After.bind (vfsLookup_holds hsame hbase vnode ?_) ?_
  · exact fun hp root rest hselected hne =>
      (hsupplied hp).2.copy vnode client root rest hexec hselected hne
  rintro ret s₂ ⟨hholds₂, hlookup⟩
  have hholds₂ := hholds₁.trans hholds₂
  simp only [hclient] at hholds₂
  refine After.ite ?_ fun hfound => ?_
  · intro hmissing
    refine After.pure fun _ => ⟨if vnode = 0 then [] else [vnode], ?_, ?_⟩
    · split
      case isTrue hnull => rwa [if_pos hnull] at hholds₂
      case isFalse hnull => rwa [if_neg hnull] at hholds₂
    · rw [hreleased]
      constructor
      · intro hnil
        by_contra hnull
        rw [if_neg fun hzero => hnull (Or.inl hzero)] at hnil
        simp at hnil
      · rintro (hnull | ⟨v, hv⟩)
        · rw [if_pos hnull]
        · have heq := hlookup.symm.trans hv
          simp [hmissing] at heq
  · have hfound : ∃ v, Vfs.vfsLookup env.ops.toVnodeops env.vfsList (user.str (user.mem stack))
        (s.nodes vnode) = some (0, v) := by
      rw [not_not.mp hfound] at hlookup
      exact ⟨_, hlookup⟩
    refine After.bind (getNextFd_holds hholds₂) ?_
    intro fd s₃ hholds₃
    refine After.ite ?_ fun hfd => ?_
    · intro _
      refine After.bind (kfree_holds hbase hholds₃) ?_
      rintro _ s₄ ⟨hholds₄, -⟩
      exact After.pure fun _ => hdone hholds₄ (Or.inr hfound)
    · refine After.bind (callVnode_holds hholds₃ _) ?_
      intro ret' s₄ hholds₄
      refine After.ite ?_ fun _ => ?_
      · intro _
        refine After.bind (kfree_holds hbase hholds₄) ?_
        rintro _ s₅ ⟨hholds₅, -⟩
        exact After.pure fun _ => hdone hholds₅ (Or.inr hfound)
      · -- the call has succeeded
        refine After.next ?_
        exact fun _ _ => After.pure fun hfailed => absurd hfailed hfd

/-- Calls of `sys_open` that return -1 leave the table as it was, and the heap safe; and they leave the live
blocks as they were exactly when in every call the path was found or there was no memory for the vnode. -/
theorem failed_open_leaks_iff {tr : List (Trace.Transition (Files K) OpenCall UInt32)}
    (hnonnull : 0 ∉ s.client.live) (hrun : Trace.Runs (openStep env) s tr s')
    (hfailed : ∀ x ∈ tr, x.effect = -1) :
  s'.mem = s.mem ∧
    (s'.client.live = s.client.live ↔ ∀ x ∈ tr, Released env x.before x.event.path) ∧
    (env.base ≠ 0 → Safe env.base s.client → (∀ x ∈ tr, Supplied env x.before x.event.path) →
      Safe env.base s'.client)
  := by
  set p := env.base ≠ 0 ∧ Safe env.base s.client ∧ ∀ x ∈ tr, Supplied env x.before x.event.path
  have hall : ∃ leaked, Holds env p s (leaked ++ s.client.live) s' ∧
      (leaked = [] ↔ ∀ x ∈ tr, Released env x.before x.event.path) := by
    refine hrun.history (I := fun pre m => ∃ leaked, Holds env p s (leaked ++ s.client.live) m ∧
      (leaked = [] ↔ ∀ x ∈ pre, Released env x.before x.event.path)) ?_ ?_
    · exact ⟨[], Holds.same (fun h => h.2.1) hnonnull, by simp⟩
    · rintro pre x hpre hstep ⟨leaked, hholds, hleaked⟩
      have hx : x ∈ tr := hpre.subset (by simp)
      have hsame : Holds env p x.before x.before.client.live x.before :=
        Holds.same hholds.safe (hholds.live_eq ▸ hholds.nonnull)
      obtain ⟨leaked', hholds', hleaked'⟩ := sysOpen_failed hsame x.event.user x.event.syscall
        x.event.stack (fun h => ⟨h.1, h.2.2 x hx⟩) _ _ hstep (hfailed x hx)
      rw [hholds.live_eq, ← List.append_assoc] at hholds'
      refine ⟨leaked' ++ leaked, hholds.trans hholds', ?_⟩
      rw [List.append_eq_nil_iff, List.forall_mem_append, List.forall_mem_singleton, and_comm]
      apply and_congr hleaked hleaked'
  obtain ⟨leaked, hholds, hleaked⟩ := hall
  refine ⟨hholds.mem, ?_, fun hbase hsafe hsupplied => hholds.safe ⟨hbase, hsafe, hsupplied⟩⟩
  rw [hholds.live_eq, ← hleaked, List.append_left_eq_self]

/-- Devices that refuse every operation. -/
def refusing : Env Unit :=
  { rootOnly with ops := { nameless with run := fun _ _ k => (-1, k) } }

/-- A program that opens a file. -/
def opens (path : Vfs.Str) : OpenCall where
  user := ⟨fun _ => 0x2000, fun _ => path⟩
  syscall := 0
  stack := 0x1000

/-- The root directory is found, but cannot be opened. -/
theorem failed_open_leaks_iff_refusing :
  ∃ s', openStep refusing noFiles (opens [Vfs.slash]) = some (-1, s') ∧
    s'.client.live = noFiles.client.live
  := by
  have hresult : (openStep refusing noFiles (opens [Vfs.slash])).map Prod.fst = some (-1) := by decide
  obtain ⟨⟨_, s'⟩, hstep, rfl⟩ := Option.map_eq_some_iff.mp hresult
  refine ⟨s', hstep, ?_⟩
  have hrun := Trace.Runs.nil.concat hstep
  have hreleased : Released refusing noFiles (opens [Vfs.slash]).path :=
    fun vnode _ _ => Or.inr ⟨⟨1, 2⟩, rfl⟩
  exact (failed_open_leaks_iff (by decide) hrun (by simp)).2.1.mpr (by simpa using hreleased)

/-- A file that does not exist is to be opened: the vnode stays allocated. -/
theorem missing_file_leaks :
  ∃ s', sysOpen rootOnly (opens [Vfs.slash, 0x78]).user 0 0x1000 noFiles = some (-1, s') ∧
    s'.client.live ≠ noFiles.client.live
  := by
  have hresult : (sysOpen rootOnly (opens [Vfs.slash, 0x78]).user 0 0x1000 noFiles).map
      (fun r => (r.1, r.2.client.live)) = some (-1, [0xD0001FF8]) := by decide
  obtain ⟨⟨_, s'⟩, hopen, heq⟩ := Option.map_eq_some_iff.mp hresult
  obtain ⟨rfl, hlive⟩ := Prod.mk.inj heq
  refine ⟨s', hopen, ?_⟩
  rw [show s'.client.live = _ from hlive]
  decide

end Syscall
