import Aenix.Syscall.Open
import Aenix.Vfs.Mounted

/-!
# Files of a process

In the kernel that has mounted an image, a process opens paths and reads and writes the descriptors that it gets.
What it sees is described by a table of what its descriptors stand for (`OpenFiles`): a file or directory of the
tree, or a device.  Every run of calls that are as they should be (`Proper`) follows this description
(`files_served`); so whatever such calls a process has made before, reading from a descriptor gives the beginning of
the file whose path it was opened with (`reads_opened_file`).  The memory of the process is apart from that of the
kernel, so reads into addresses of the kernel are not among these calls; nor is writing to a descriptor past the end
of the table, where `sys_write` takes what is there for a pointer to a vnode (`sysWrite_validated_iff`).
-/

open Aenix (kernelStartVaddr)
open Bytes (Memory)
open Kmalloc (Safe)
open Process (Vnode vnodeSize processMaxNumFd)
open Trace (Transition Runs)
open Vfs (Str Mounted Target resolvePath segments)

namespace Syscall

variable {R : Type}

/-! ### The operations of vnodes -/

/-- The memory of the process, and the rest of the kernel. -/
structure Machine (R : Type) where
  mem : Memory
  rest : R

/-- The devices: `kbd_read`, which gets a buffer and a count, and `fb_put_s`, which gets a string. -/
structure Drivers (R : Type) where
  kbdRead : UInt32 → UInt32 → Machine R → UInt32 × Machine R
  fbPutS : UInt32 → Machine R → Machine R

/-- The operations of the vnodes that `kinit` sets up.  `aefs_open`, `fb_open` and `kbd_open` return 0, and
`devfs_open` -1; `devfs_read`, `fb_read`, `aefs_write`, `devfs_write` and `kbd_write` return -1. -/
def mountedOps (f : Mounted) (drivers : Drivers R) : Ops (Machine R) where
  toVnodeops := f.vnodeops
  run
    | .vnOpen _, v, k => (if v.vOp = f.devfs then -1 else 0, k)
    | .vnRead _ buf count, v, k =>
      if v.vOp = f.aefs then
        let (read, mem) := Aefs.aefsRead f.image (f.inodeOf v) buf.toNat count k.mem
        (UInt32.ofInt read, { k with mem := mem })
      else if v.vOp = f.kbd then drivers.kbdRead buf count k
      else (-1, k)
    | .vnWrite _ str _, v, k => if v.vOp = f.fb then (0, drivers.fbPutS str k) else (-1, k)

/-! ### What a process sees -/

/-- Whether `vn_open` succeeds. -/
def canOpen : Target → Bool
  | .devfs => false
  | _ => true

/-- Reading from what has been opened. -/
def readTarget (drivers : Drivers R) (buf count : UInt32) (k : Machine R) : Target → UInt32 × Machine R
  | .node n =>
    let (read, mem) := n.read buf.toNat count k.mem
    (UInt32.ofInt read, { k with mem := mem })
  | .devfs => (-1, k)
  | .console => (-1, k)
  | .keyboard => drivers.kbdRead buf count k

/-- Writing to what has been opened. -/
def writeTarget (drivers : Drivers R) (str : UInt32) (k : Machine R) : Target → UInt32 × Machine R
  | .console => (0, drivers.fbPutS str k)
  | _ => (-1, k)

/-- What the descriptors of a process stand for. -/
abbrev OpenFiles := UInt32 → Option Target

/-- The first descriptor that is free. -/
def OpenFiles.next (t : OpenFiles) : Option UInt32 :=
  ((List.range processMaxNumFd).find? fun i => (t (UInt32.ofNat i)).isNone).map UInt32.ofNat

/-- What opening a path returns, and the table after it.  When there is no memory for a vnode, the descriptor is
returned nevertheless, and stays free. -/
def Opened (tree : Aefs.Tree) (path : Str) (memory : Prop) [Decidable memory] (t : OpenFiles) (r : UInt32)
    (t' : OpenFiles) : Prop :=
  match resolvePath tree path, t.next with
  | some target, some fd =>
    if canOpen target then r = fd ∧ t' = if memory then Function.update t fd (some target) else t
    else r = -1 ∧ t' = t
  | _, _ => r = -1 ∧ t' = t

/-- A system call with its arguments on the stack of the process. -/
structure SystemCall where
  kind : FileCall
  user : User
  stack : UInt32

/-- The path that is to be opened. -/
def SystemCall.path (c : SystemCall) : Str := c.user.str (c.user.mem c.stack)

/-- The descriptor that is read or written. -/
def SystemCall.fd (c : SystemCall) : UInt32 := c.user.mem c.stack

/-- The system of a process that calls the kernel. -/
def callStep {K : Type} (env : Env K) (s : Files K) (c : SystemCall) : Option (UInt32 × Files K) :=
  match c.kind with
  | .sysOpen => sysOpen env c.user 0 c.stack s
  | .sysRead => sysRead env c.user 1 c.stack s
  | .sysWrite => sysWrite env c.user 2 c.stack s

/-- A call returns what it should, and the table is as it should be after it. -/
def Served (tree : Aefs.Tree) (drivers : Drivers R) (env : Env (Machine R)) (t : OpenFiles)
    (x : Transition (Files (Machine R)) SystemCall UInt32) (t' : OpenFiles) : Prop :=
  match x.event.kind with
  | .sysOpen => ∃ vnode client,
    Kmalloc.exec env.kernel env.base env.rounds x.before.client (.kmalloc vnodeSize) = some (vnode, client) ∧
      Opened tree x.event.path (vnode ≠ 0) t x.effect t'
  | .sysRead => t' = t ∧ (x.effect, x.after.client.heap.kernel) =
    match t x.event.fd with
    | none => (-1, x.before.client.heap.kernel)
    | some target => readTarget drivers (x.event.user.mem (x.event.stack + 4)) (x.event.user.mem (x.event.stack + 8))
      x.before.client.heap.kernel target
  | .sysWrite => t' = t ∧ (x.effect, x.after.client.heap.kernel) =
    match t x.event.fd with
    | none => (-1, x.before.client.heap.kernel)
    | some target => writeTarget drivers (x.event.user.mem (x.event.stack + 4)) x.before.client.heap.kernel target

/-- The calls that a process should make: the names in its paths are not empty, it reads into its own memory, which
is below the kernel, and it writes to descriptors within the table.  The memory that the heap gets is fresh. -/
structure Proper {K : Type} (env : Env K) (s : Files K) (c : SystemCall) : Prop where
  supplied : c.kind = .sysOpen → Supplied env s c.path
  named : c.kind = .sysOpen → ∀ name ∈ segments c.path.tail, Aefs.Named name
  own : c.kind = .sysRead →
    (c.user.mem (c.stack + 4)).toNat + (c.user.mem (c.stack + 8)).toNat ≤ kernelStartVaddr.toNat
  fd : c.kind = .sysWrite → c.fd.toNat < processMaxNumFd

/-! ### The table -/

variable {f : Mounted} {drivers : Drivers R} {env : Env (Machine R)} {s s' : Files (Machine R)} {t : OpenFiles}

/-- The table of the process holds pointers to the vnodes of what it stands for, which are live. -/
structure Represents (f : Mounted) (env : Env (Machine R)) (s : Files (Machine R)) (t : OpenFiles) : Prop where
  free : ∀ fd, fd.toNat < processMaxNumFd → t fd = none → s.mem (env.slot fd) = 0
  used : ∀ fd target, t fd = some target → fd.toNat < processMaxNumFd ∧ s.mem (env.slot fd) ∈ s.client.live ∧
    f.Shows target (s.nodes (s.mem (env.slot fd)))
  safe : Safe env.base s.client

theorem slot_injective {fd fd' : UInt32} (h : fd.toNat < processMaxNumFd) (h' : fd'.toNat < processMaxNumFd)
    (heq : env.slot fd = env.slot fd') :
  fd = fd'
  := by
  rw [Env.slot, Env.slot, UInt32.add_right_inj] at heq
  have hnat := congrArg UInt32.toNat heq
  rw [UInt32.toNat_mul, UInt32.toNat_mul] at hnat
  simp only [UInt32.reduceToNat, processMaxNumFd] at hnat h h'
  apply UInt32.toNat_inj.mp
  omega

/-- The operations do what should be done to what a vnode shows. -/
theorem run_vnOpen {target : Target} {v : Vnode} (h : f.Shows target v) (p : UInt32) (k : Machine R) :
  (mountedOps f drivers).run (.vnOpen p) v k = (if canOpen target then 0 else -1, k)
  := by
  have hnodup := f.ops_nodup
  simp only [List.nodup_cons, List.mem_cons, List.not_mem_nil, or_false, not_or] at hnodup
  cases target with
  | node n => simp [mountedOps, canOpen, h.1, hnodup.1.1]
  | devfs =>
      obtain rfl : v = f.devfsRoot := h
      simp [mountedOps, canOpen, Vfs.Addresses.devfsRoot]
  | console =>
      obtain rfl : v = f.fbGetVnode := h
      simp [mountedOps, canOpen, Vfs.Addresses.fbGetVnode, Ne.symm hnodup.2.1.1]
  | keyboard =>
      obtain rfl : v = f.kbdGetVnode := h
      simp [mountedOps, canOpen, Vfs.Addresses.kbdGetVnode, Ne.symm hnodup.2.1.2]

theorem run_vnRead {target : Target} {v : Vnode} (h : f.Shows target v) (p buf count : UInt32) (k : Machine R) :
  (mountedOps f drivers).run (.vnRead p buf count) v k = readTarget drivers buf count k target
  := by
  have hnodup := f.ops_nodup
  simp only [List.nodup_cons, List.mem_cons, List.not_mem_nil, or_false, not_or] at hnodup
  cases target with
  | node n => simp [mountedOps, readTarget, h.1, h.2.1]
  | devfs =>
      obtain rfl : v = f.devfsRoot := h
      simp [mountedOps, readTarget, Vfs.Addresses.devfsRoot, Ne.symm hnodup.1.1, hnodup.2.1.2]
  | console =>
      obtain rfl : v = f.fbGetVnode := h
      simp [mountedOps, readTarget, Vfs.Addresses.fbGetVnode, Ne.symm hnodup.1.2.1, hnodup.2.2.1]
  | keyboard =>
      obtain rfl : v = f.kbdGetVnode := h
      simp [mountedOps, readTarget, Vfs.Addresses.kbdGetVnode, Ne.symm hnodup.1.2.2]

theorem run_vnWrite {target : Target} {v : Vnode} (h : f.Shows target v) (p str len : UInt32) (k : Machine R) :
  (mountedOps f drivers).run (.vnWrite p str len) v k = writeTarget drivers str k target
  := by
  have hnodup := f.ops_nodup
  simp only [List.nodup_cons, List.mem_cons, List.not_mem_nil, or_false, not_or] at hnodup
  cases target with
  | node n => simp [mountedOps, writeTarget, h.1, hnodup.1.2.1]
  | devfs =>
      obtain rfl : v = f.devfsRoot := h
      simp [mountedOps, writeTarget, Vfs.Addresses.devfsRoot, hnodup.2.1.1]
  | console =>
      obtain rfl : v = f.fbGetVnode := h
      simp [mountedOps, writeTarget, Vfs.Addresses.fbGetVnode]
  | keyboard =>
      obtain rfl : v = f.kbdGetVnode := h
      simp [mountedOps, writeTarget, Vfs.Addresses.kbdGetVnode, Ne.symm hnodup.2.2.1]

/-! ### Reading and writing -/

/-- Reading and writing call the operation of what the descriptor stands for, and leave the table as it is. -/
theorem callDescriptor_served (h : Represents f env s t) {fd : UInt32}
    (hfd : fd.toNat < processMaxNumFd) {op : UInt32 → VnodeCall} {r : UInt32}
    {result : Target → UInt32 × Machine R}
    (hop : ∀ target p, f.Shows target (s.nodes p) → (op p).vnode = p ∧
      env.ops.run (op p) (s.nodes p) s.client.heap.kernel = result target)
    (hrun : callDescriptor env fd op s = some (r, s')) :
  Represents f env s' t ∧ (r, s'.client.heap.kernel) =
    match t fd with
    | none => (-1, s.client.heap.kernel)
    | some target => result target
  := by
  rw [callDescriptor_eq] at hrun
  cases htarget : t fd with
  | none =>
      rw [if_pos (h.free fd hfd htarget)] at hrun
      obtain ⟨rfl, rfl⟩ := Prod.mk.inj (Option.some.inj hrun)
      exact ⟨⟨h.free, h.used, h.safe⟩, rfl⟩
  | some target =>
      obtain ⟨-, hlive, hshows⟩ := h.used fd target htarget
      have hnonnull : s.mem (env.slot fd) ≠ 0 := fun hnull => h.safe.zero_notMem (hnull ▸ hlive)
      obtain ⟨hvnode, hresult⟩ := hop target _ hshows
      rw [if_neg hnonnull] at hrun
      obtain ⟨rfl, rfl⟩ := Prod.mk.inj (Option.some.inj hrun)
      refine ⟨⟨h.free, h.used, h.safe.with_kernel _⟩, ?_⟩
      dsimp only
      rw [hvnode]
      exact hresult

/-! ### Opening -/

section Open

variable {K : Type} {env : Env K} {s s' : Files K}

/-- The vnodes other than at `p` are as they were. -/
def NodesKept (p : UInt32) (s s' : Files K) : Prop :=
  ∀ q, q ≠ p → s'.nodes q = s.nodes q

/-- The search for a free descriptor finds the first one. -/
theorem getNextFdFrom_eq (s : Files K) {n i : ℕ} (hi : i + n = processMaxNumFd) :
  After (getNextFdFrom env n (UInt32.ofNat i)) s fun fd s' =>
    s'.mem = s.mem ∧ s'.nodes = s.nodes ∧ s'.client = s.client ∧
      fd = (((List.range' i n).find? fun j => s.mem (env.slot (UInt32.ofNat j)) = 0).map UInt32.ofNat).getD (-1)
  := by
  induction n generalizing s i with
  | zero => exact After.pure ⟨rfl, rfl, rfl, rfl⟩
  | succ n ih =>
      refine After.bind (P := fun vnode s' => s'.mem = s.mem ∧ s'.nodes = s.nodes ∧ s'.client = s.client ∧
        vnode = s.mem (env.slot (UInt32.ofNat i))) ?_ ?_
      · intro vnode s' hrun
        obtain ⟨rfl, rfl⟩ := Prod.mk.inj (Option.some.inj hrun)
        exact ⟨rfl, rfl, rfl, rfl⟩
      rintro vnode s₁ ⟨hmem, hnodes, hclient, rfl⟩
      rw [List.range'_succ, List.find?_cons]
      refine After.ite ?_ ?_
      · intro hnull
        exact After.pure ⟨hmem, hnodes, hclient, by simp [hnull]⟩
      · intro hused
        have hnext : UInt32.ofNat i + 1 = UInt32.ofNat (i + 1) := by simp
        rw [hnext]
        refine (ih s₁ (by omega)).mono ?_
        rintro fd s₂ ⟨hmem', hnodes', hclient', hfd⟩
        refine ⟨hmem'.trans hmem, hnodes'.trans hnodes, hclient'.trans hclient, ?_⟩
        simp only [hused, decide_false]
        rw [hfd, hmem]

/-- `vfs_lookup` changes the vnode `res` only. -/
theorem vfsLookup_nodes (s : Files K) (path : Str) (res : UInt32) :
  After (vfsLookup env path res) s fun _ s' => NodesKept res s s'
  := by
  have hheap : ∀ (x : Kmalloc.Call) s₀, After (heapCall env x) s₀ fun _ s' => s'.nodes = s₀.nodes := by
    intro x s₀ r s' hrun
    obtain ⟨client, -, rfl⟩ := heapCall_run hrun
    rfl
  have hupdate : ∀ (s₀ : Files K) (v : Vnode), NodesKept res s₀ { s₀ with nodes := Function.update s₀.nodes res v } :=
    fun s₀ v q hq => Function.update_of_ne hq _ _
  refine After.ite (fun _ => After.pure fun q _ => rfl) fun _ => ?_
  refine After.ite (fun _ => After.pure fun q _ => rfl) fun _ => ?_
  split
  case h_2 => exact fun _ _ hrun => by simp [failure, Alternative.failure, StateT.failure] at hrun
  case h_1 root path _ =>
    split
    case h_2 => exact After.pure fun q _ => rfl
    case h_1 vnode _ =>
      refine After.ite ?_ ?_
      · intro _ r s' hrun
        obtain ⟨-, rfl⟩ := Prod.mk.inj (Option.some.inj hrun)
        exact hupdate s vnode
      · intro _
        refine After.bind (hheap _ s) ?_
        intro orgp s₁ hnodes₁
        refine After.bind (P := fun _ s' => NodesKept res s s') ?_ ?_
        · intro r s' hrun
          obtain ⟨-, rfl⟩ := Prod.mk.inj (Option.some.inj hrun)
          intro q hq
          rw [← hnodes₁]
          exact hupdate s₁ _ q hq
        · intro ret s₂ hkept
          refine After.bind (P := fun _ s' => NodesKept res s s') ?_ fun _ _ hkept' => After.pure hkept'
          refine After.bind (hheap _ s₂) fun _ s₃ hnodes₃ => After.pure ?_
          intro q hq
          rw [hnodes₃, hkept q hq]

theorem callVnode_run (s : Files K) (c : VnodeCall) :
  After (callVnode env c) s fun r s' =>
    s'.nodes = s.nodes ∧ r = (env.ops.run c (s.nodes c.vnode) s.client.heap.kernel).1
  := by
  intro r s' hrun
  obtain ⟨rfl, rfl⟩ := Prod.mk.inj (Option.some.inj hrun)
  exact ⟨rfl, rfl⟩

end Open

/-- What represents the table still does when the vnodes of the open files are as they were. -/
theorem Represents.keep (h : Represents f env s t) (hmem : s'.mem = s.mem)
    (hlive : s.client.live ⊆ s'.client.live) (hnodes : ∀ p ∈ s.client.live, s'.nodes p = s.nodes p)
    (hsafe : Safe env.base s'.client) :
  Represents f env s' t
  := by
  refine ⟨by rw [hmem]; exact h.free, ?_, hsafe⟩
  intro fd target htarget
  obtain ⟨hfd, hin, hshows⟩ := h.used fd target htarget
  rw [hmem]
  exact ⟨hfd, hlive hin, by rw [hnodes _ hin]; exact hshows⟩

/-- The free descriptors are those where the table of the process holds no pointer. -/
theorem Represents.next_eq (h : Represents f env s t) :
  ((List.range' 0 processMaxNumFd).find? fun j => s.mem (env.slot (UInt32.ofNat j)) = 0).map UInt32.ofNat = t.next
  := by
  rw [OpenFiles.next, ← List.range_eq_range']
  congr 1
  apply List.find?_congr
  intro j hj
  have hlt : (UInt32.ofNat j).toNat < processMaxNumFd := by
    rw [List.mem_range, processMaxNumFd] at hj
    rw [processMaxNumFd, UInt32.toNat_ofNat']
    omega
  cases htarget : t (UInt32.ofNat j) with
  | none => simp [h.free _ hlt htarget]
  | some target =>
      obtain ⟨-, hin, -⟩ := h.used _ target htarget
      have hnonnull : s.mem (env.slot (UInt32.ofNat j)) ≠ 0 := fun hnull => h.safe.zero_notMem (hnull ▸ hin)
      simp [hnonnull]

theorem OpenFiles.next_spec {fd : UInt32} (h : t.next = some fd) :
  fd.toNat < processMaxNumFd ∧ t fd = none
  := by
  obtain ⟨j, hj, rfl⟩ := Option.map_eq_some_iff.mp h
  have hlt := List.mem_range.mp (List.mem_of_find?_eq_some hj)
  rw [processMaxNumFd] at hlt ⊢
  exact ⟨by rw [UInt32.toNat_ofNat']; omega, by simpa using List.find?_some hj⟩

/-- What a call of `sys_open` does to the table, when it is given a path and memory for a vnode. -/
theorem sysOpen_served (hops : env.ops = mountedOps f drivers) (hmounts : env.vfsList = f.mounts) {image : Aefs.Image}
    {fsSize : ℕ} {tree : Aefs.Tree} (himage : f.image = image.mem) (hholds : Aefs.Holds fsSize tree image)
    (hfits : Aefs.Fits fsSize tree) (hbase : env.base ≠ 0) (h : Represents f env s t) (user : User)
    (syscall stack : UInt32) (hsupplied : Supplied env s (user.str (user.mem stack)))
    (hnamed : ∀ name ∈ segments (user.str (user.mem stack)).tail, Aefs.Named name) :
  After (sysOpen env user syscall stack) s fun r s' => ∃ vnode client,
    Kmalloc.exec env.kernel env.base env.rounds s.client (.kmalloc vnodeSize) = some (vnode, client) ∧
      ∃ t', Opened tree (user.str (user.mem stack)) (vnode ≠ 0) t r t' ∧ Represents f env s' t'
  := by
  have hsame : Holds env True s s.client.live s := Holds.same (fun _ => h.safe) h.safe.zero_notMem
  refine After.bind (After.and (fun _ _ => heapCall_run)
    (kmalloc_holds hsame fun _ => ⟨hbase, hsupplied.vnode⟩)) ?_
  rintro vnode _ ⟨⟨client, hexec, rfl⟩, hholds₁, -⟩
  -- the vnode is not one of those of open files
  have hclient : client.live = if vnode = 0 then s.client.live else vnode :: s.client.live := hholds₁.live_eq
  have hsub : s.client.live ⊆ if vnode = 0 then s.client.live else vnode :: s.client.live := by
    split
    · exact List.Subset.refl _
    · exact List.subset_cons_self _ _
  have hfresh : ∀ p ∈ s.client.live, p ≠ vnode := by
    rintro p hp rfl
    have hnodup := (hholds₁.safe trivial).nodup_live
    have hnonnull : p ≠ 0 := fun hnull => h.safe.zero_notMem (hnull ▸ hp)
    rw [hholds₁.live_eq, if_neg hnonnull] at hnodup
    exact (List.nodup_cons.mp hnodup).1 hp
  have hsame₁ : Holds env True { s with client := client } client.live { s with client := client } :=
    Holds.same hholds₁.safe (hclient ▸ hholds₁.nonnull)
  refine After.bind (After.and (vfsLookup_holds hsame₁ (fun _ => hbase) vnode fun _ root rest hselected hne =>
    hsupplied.copy vnode client root rest hexec hselected hne) (vfsLookup_nodes _ _ _)) ?_
  rintro ret s₂ ⟨⟨hholds₂, hlookup⟩, hkept₂⟩
  have hholds₂ := hholds₁.trans hholds₂
  simp only [hclient] at hholds₂
  -- whatever happens to the vnode, the table is as it was unless a descriptor is stored
  have hkeep : ∀ {s₃ live}, Holds env True s live s₃ → s.client.live ⊆ live → NodesKept vnode s₂ s₃ →
      Represents f env s₃ t := by
    intro s₃ live hholds₃ hlive hkept₃
    refine h.keep hholds₃.mem (by rw [hholds₃.live_eq]; exact hlive) ?_ (hholds₃.safe trivial)
    intro p hp
    rw [hkept₃ p (hfresh p hp), hkept₂ p (hfresh p hp)]
  obtain ⟨found, hfound, hfinds⟩ := f.path_finds himage hholds hfits hnamed (s.nodes vnode)
  have hvnodeops : env.ops.toVnodeops = f.vnodeops := by rw [hops]; rfl
  rw [hvnodeops, hmounts, hfound, Option.some.injEq] at hlookup
  subst hlookup
  refine After.ite ?_ fun hzero => ?_
  · -- the path is not found
    intro hmissing
    refine After.pure ⟨vnode, client, hexec, t, ?_, hkeep hholds₂ hsub fun q _ => rfl⟩
    cases hresolve : resolvePath tree (user.str (user.mem stack)) with
    | none => simp [Opened, hresolve]
    | some target =>
        rw [hresolve] at hfinds
        exact absurd hfinds.1 hmissing
  obtain ⟨target, hresolve, hshows⟩ : ∃ target, resolvePath tree (user.str (user.mem stack)) = some target ∧
      f.Shows target (s₂.nodes vnode) := by
    cases hresolve : resolvePath tree (user.str (user.mem stack)) with
    | none =>
        rw [hresolve] at hfinds
        rw [not_not] at hzero
        exact absurd (hzero.symm.trans hfinds) (by decide)
    | some target =>
        rw [hresolve] at hfinds
        exact ⟨target, rfl, f.shows_of_refers himage hholds hfits hfinds.2⟩
  refine After.bind (After.and (getNextFdFrom_eq s₂ rfl) (getNextFd_holds hholds₂)) ?_
  rintro fd s₃ ⟨⟨hmem₃, hnodes₃, hclient₃, hfd⟩, hholds₃⟩
  rw [hholds₂.mem, h.next_eq] at hfd
  have hkept₃ : NodesKept vnode s₂ s₃ := fun q _ => by rw [hnodes₃]
  refine After.ite ?_ fun hfree => ?_
  · -- the table is full
    intro hfull
    have hnone : t.next = none := by
      cases hnext : t.next with
      | none => rfl
      | some fd' =>
          rw [hnext, Option.getD_some] at hfd
          have hlt := (OpenFiles.next_spec hnext).1
          rw [← hfd, hfull] at hlt
          exact absurd hlt (by decide)
    refine After.bind (kfree_holds (fun _ => hbase) hholds₃) ?_
    rintro _ s₄ ⟨hholds₄, hnodes₄⟩
    refine After.pure ⟨vnode, client, hexec, t, by simp [Opened, hresolve, hnone],
      hkeep hholds₄ (List.Subset.refl _) fun q hq => by rw [hnodes₄, hkept₃ q hq]⟩
  obtain ⟨fd', hnext⟩ : ∃ fd', t.next = some fd' := by
    cases hnext : t.next with
    | none =>
        rw [hnext, Option.getD_none] at hfd
        exact absurd hfd hfree
    | some fd' => exact ⟨fd', rfl⟩
  rw [hnext, Option.getD_some] at hfd
  subst hfd
  refine After.bind (After.and (callVnode_run s₃ _) (callVnode_holds hholds₃ _)) ?_
  rintro ret' s₄ ⟨⟨hnodes₄, hret'⟩, hholds₄⟩
  have hkept₄ : NodesKept vnode s₂ s₄ := fun q hq => by rw [hnodes₄, hkept₃ q hq]
  change ret' = (env.ops.run (.vnOpen vnode) (s₃.nodes vnode) _).1 at hret'
  rw [hops, hnodes₃, run_vnOpen hshows] at hret'
  refine After.ite ?_ fun hopened => ?_
  · -- the vnode cannot be opened
    intro hrefused
    have hcannot : canOpen target = false := by
      by_contra hcan
      rw [Bool.not_eq_false] at hcan
      exact hrefused (by rw [hret', if_pos hcan])
    refine After.bind (kfree_holds (fun _ => hbase) hholds₄) ?_
    rintro _ s₅ ⟨hholds₅, hnodes₅⟩
    exact After.pure ⟨vnode, client, hexec, t, by simp [Opened, hresolve, hnext, hcannot],
      hkeep hholds₅ (List.Subset.refl _) fun q hq => by rw [hnodes₅, hkept₄ q hq]⟩
  have hcan : canOpen target = true := by
    by_contra hcannot
    apply hopened
    rw [hret', if_neg hcannot]
    exact (by decide : (-1 : UInt32) ≠ 0)
  have hrep := hkeep hholds₄ hsub hkept₄
  refine After.bind (P := fun _ s' => s' = { s₄ with
    mem := Function.update s₄.mem (env.slot fd) vnode, accessed := s₄.accessed ++ [fd] }) ?_ ?_
  · intro _ s' hrun
    exact (Prod.mk.inj (Option.some.inj hrun)).2.symm
  rintro _ s₅ rfl
  refine After.pure ⟨vnode, client, hexec, if vnode ≠ 0 then Function.update t fd (some target) else t,
    by simp [Opened, hresolve, hnext, hcan], ?_⟩
  obtain ⟨hfd, hnone⟩ := OpenFiles.next_spec hnext
  by_cases hnull : vnode = 0
  · -- NULL is stored where it was
    rw [if_neg (not_not.mpr hnull), hnull]
    have hslot : Function.update s₄.mem (env.slot fd) 0 = s₄.mem := by
      rw [← hrep.free fd hfd hnone, Function.update_eq_self]
    exact hrep.keep hslot (List.Subset.refl _) (fun p _ => rfl) hrep.safe
  · rw [if_pos hnull]
    rw [if_neg hnull] at hholds₄
    refine ⟨?_, ?_, hrep.safe⟩
    · intro fd' hfd' htarget
      have hne : fd' ≠ fd := by
        rintro rfl
        simp at htarget
      rw [Function.update_of_ne hne] at htarget
      dsimp only
      rw [Function.update_of_ne fun heq => hne (slot_injective hfd' hfd heq)]
      exact hrep.free fd' hfd' htarget
    · intro fd' target' htarget
      dsimp only
      by_cases heq : fd' = fd
      · subst heq
        rw [Function.update_self, Option.some.injEq] at htarget
        subst htarget
        rw [Function.update_self, hholds₄.live_eq, hnodes₄, hnodes₃]
        exact ⟨hfd, List.mem_cons_self, hshows⟩
      · rw [Function.update_of_ne heq] at htarget
        obtain ⟨hfd', hin, hshows'⟩ := hrep.used fd' target' htarget
        rw [Function.update_of_ne fun h => heq (slot_injective hfd' hfd h)]
        exact ⟨hfd', hin, hshows'⟩

/-! ### Runs -/

/-- The operations of the vnodes and the mounts are those of the kernel that has mounted an image. -/
structure Serves (f : Mounted) (drivers : Drivers R) (env : Env (Machine R)) : Prop where
  ops : env.ops = mountedOps f drivers
  vfsList : env.vfsList = f.mounts
  base : env.base ≠ 0

/-- Every call is served, and the table is as it should be after it. -/
theorem Serves.step (henv : Serves f drivers env) {image : Aefs.Image} {fsSize : ℕ} {tree : Aefs.Tree}
    (himage : f.image = image.mem) (hholds : Aefs.Holds fsSize tree image) (hfits : Aefs.Fits fsSize tree)
    {x : Transition (Files (Machine R)) SystemCall UInt32}
    (hstep : callStep env x.before x.event = some (x.effect, x.after)) (hproper : Proper env x.before x.event)
    (h : Represents f env x.before t) :
  ∃ t', Served tree drivers env t x t' ∧ Represents f env x.after t'
  := by
  obtain ⟨before, ⟨kind, user, stack⟩, effect, after⟩ := x
  cases kind with
  | sysOpen =>
      obtain ⟨vnode, client, hexec, t', hopened, h'⟩ := sysOpen_served henv.ops henv.vfsList himage hholds hfits
        henv.base h user 0 stack (hproper.supplied rfl) (hproper.named rfl) effect after hstep
      exact ⟨t', ⟨vnode, client, hexec, hopened⟩, h'⟩
  | sysRead =>
      change sysRead env user 1 stack before = some (effect, after) at hstep
      by_cases hbad : processMaxNumFd ≤ (user.mem stack).toNat
      · rw [sysRead, if_pos hbad] at hstep
        obtain ⟨rfl, rfl⟩ := Prod.mk.inj (Option.some.inj hstep)
        have hnone : t (user.mem stack) = none := by
          cases htarget : t (user.mem stack) with
          | none => rfl
          | some target =>
              have hfd := (h.used _ target htarget).1
              omega
        exact ⟨t, ⟨rfl, by simp [SystemCall.fd, hnone]⟩, h⟩
      · rw [sysRead, if_neg hbad] at hstep
        obtain ⟨h', hserved⟩ := callDescriptor_served h (by omega) (fun target p hshows =>
          ⟨rfl, by rw [henv.ops]; exact run_vnRead hshows p _ _ _⟩) hstep
        exact ⟨t, ⟨rfl, hserved⟩, h'⟩
  | sysWrite =>
      obtain ⟨h', hserved⟩ := callDescriptor_served h (hproper.fd rfl) (fun target p hshows =>
        ⟨rfl, by rw [henv.ops]; exact run_vnWrite hshows p _ _ _⟩) hstep
      exact ⟨t, ⟨rfl, hserved⟩, h'⟩

/-- What a call of `sys_open` has found that returns a descriptor. -/
def OpenedAs (tree : Aefs.Tree) (fd : UInt32) (target : Target)
    (y : Transition (Files (Machine R)) SystemCall UInt32) : Prop :=
  y.event.kind = .sysOpen ∧ y.effect = fd ∧ resolvePath tree y.event.path = some target ∧ canOpen target = true

/-- What a descriptor stands for is what a call of `sys_open` that returned it has found. -/
theorem follows_opened {tree : Aefs.Tree} {tr : List (Transition (Files (Machine R)) SystemCall UInt32)}
    (h : Trace.Follows (Served tree drivers env) (fun _ => none) tr t) :
  ∀ fd target, t fd = some target → ∃ y ∈ tr, OpenedAs tree fd target y
  := by
  refine h.history (I := fun pre t => ∀ fd target, t fd = some target → ∃ y ∈ pre, OpenedAs tree fd target y)
    (by simp) ?_
  intro pre x t' t'' _ hserved ih fd target htarget
  have hold : t' fd = some target → ∃ y ∈ pre ++ [x], OpenedAs tree fd target y := by
    intro hin
    obtain ⟨y, hy, hopened⟩ := ih fd target hin
    exact ⟨y, List.mem_append_left _ hy, hopened⟩
  rw [Served] at hserved
  split at hserved
  case h_1 hkind =>
    obtain ⟨vnode, client, -, hopened⟩ := hserved
    rw [Opened] at hopened
    split at hopened
    case h_1 found fd' hresolve hnext =>
      split at hopened
      case isTrue hcan =>
        obtain ⟨heffect, rfl⟩ := hopened
        split at htarget
        case isTrue =>
          by_cases heq : fd = fd'
          · subst heq
            rw [Function.update_self, Option.some.injEq] at htarget
            subst htarget
            exact ⟨x, by simp, hkind, heffect, hresolve, hcan⟩
          · rw [Function.update_of_ne heq] at htarget
            exact hold htarget
        case isFalse => exact hold htarget
      case isFalse => exact hold (hopened.2 ▸ htarget)
    case h_2 => exact hold (hopened.2 ▸ htarget)
  case h_2 => exact hold (hserved.1 ▸ htarget)
  case h_3 => exact hold (hserved.1 ▸ htarget)

/-- Every call of `sys_read` in a run returns -1 and changes nothing, or reads from what a call of `sys_open`
before has found that returned the descriptor: from a file, its beginning. -/
theorem reads_opened_file {fsSize : ℕ} {tree : Aefs.Tree} (hfits : Aefs.Fits fsSize tree)
    (hsupported : tree.Supported) (hsmall : tree.Small) :
  ∃ image, Aefs.mkfs fsSize tree = some image ∧
    ∀ (f : Mounted) (drivers : Drivers R) (env : Env (Machine R)) (s s' : Files (Machine R))
      (tr : List (Transition (Files (Machine R)) SystemCall UInt32)),
      f.image = image.mem → Serves f drivers env →
      Represents f env s (fun _ => none) → Runs (callStep env) s tr s' → (∀ x ∈ tr, Proper env x.before x.event) →
      ∀ pre x post, tr = pre ++ x :: post → x.event.kind = .sysRead →
        (x.effect, x.after.client.heap.kernel) = (-1, x.before.client.heap.kernel) ∨
          ∃ y ∈ pre, ∃ target, OpenedAs tree x.event.fd target y ∧
            (x.effect, x.after.client.heap.kernel) = readTarget drivers (x.event.user.mem (x.event.stack + 4))
              (x.event.user.mem (x.event.stack + 8)) x.before.client.heap.kernel target
  := by
  obtain ⟨image, hmkfs, hholds⟩ := Aefs.mkfs_spec hfits hsupported hsmall
  refine ⟨image, hmkfs, ?_⟩
  intro f drivers env s s' tr himage henv hinit hrun hproper pre x post heq hkind
  subst heq
  obtain ⟨m, hpre, hrest⟩ := Runs.split hrun
  obtain ⟨t, hfollows, hrep⟩ := hpre.follows (R := Represents f env) hinit fun y hy hstep t ht =>
    henv.step himage hholds hfits hstep (hproper y (by simp [hy])) ht
  obtain ⟨m', hx, -⟩ := Runs.split (show Runs (callStep env) m ([x] ++ post) s' from hrest)
  obtain ⟨rfl, hstep, -⟩ := hx.of_singleton
  obtain ⟨t', hserved, -⟩ := henv.step himage hholds hfits hstep (hproper x (by simp)) hrep
  simp only [Served, hkind] at hserved
  cases htarget : t x.event.fd with
  | none =>
      rw [htarget] at hserved
      exact Or.inl hserved.2
  | some target =>
      rw [htarget] at hserved
      obtain ⟨y, hy, hopened⟩ := follows_opened hfollows _ _ htarget
      exact Or.inr ⟨y, hy, target, hopened, hserved.2⟩

/-! ### A run -/

/-- A kernel that gives the heap one region of memory. -/
def regionOnce : Kmalloc.Kernel (Machine Bool) where
  pfaAllocate := fun _ k => if k.rest then (0, k) else (0x400000, { k with rest := true })
  pdtKernelFindNextVaddr := fun _ k => (0xD0000000, k)
  pdtMapKernelMemory := fun _ _ size k => (size, k)
  contents := fun _ _ => ⟨0, 0⟩

/-- Devices that do nothing. -/
def silent : Drivers Bool where
  kbdRead := fun _ _ k => (0, k)
  fbPutS := fun _ k => k

/-- The kernel with a mounted image. -/
def envAt (m : Memory) : Env (Machine Bool) where
  kernel := regionOnce
  base := 0xC0100000
  rounds := 8
  ops := mountedOps (Vfs.mountedAt m) silent
  vfsList := (Vfs.mountedAt m).mounts
  fds := 0xC0200000

/-- A process without open files. -/
def nothingOpen : Files (Machine Bool) where
  client := ⟨⟨fun _ => ⟨0, 0⟩, 0, [], ⟨fun _ => 0, false⟩⟩, []⟩
  mem := fun _ => 0
  nodes := fun _ => ⟨0, 0⟩
  accessed := []
  calls := []

/-- The words on the stack of a process that reads or writes. -/
def given (fd buf count : UInt32) : User :=
  ⟨fun a => if a = 0x1000 then fd else if a = 0x1004 then buf else count, fun _ => []⟩

/-- A process opens `/a`, reads two bytes, opens `/dev/console` and writes to it. -/
def someCalls : List SystemCall :=
  [⟨.sysOpen, ⟨fun _ => 0, fun _ => [0x2f, 0x61]⟩, 0x1000⟩, ⟨.sysRead, given 0 0x2000 2, 0x1000⟩,
   ⟨.sysOpen, ⟨fun _ => 0, fun _ => Vfs.slash :: Vfs.devName ++ Vfs.consoleName⟩, 0x1000⟩,
   ⟨.sysWrite, given 1 0x2000 2, 0x1000⟩]

/-- The state after a call that returns. -/
def stateAfter (m : Memory) (s : Files (Machine Bool)) (c : SystemCall) : Files (Machine Bool) :=
  ((callStep (envAt m) s c).map Prod.snd).getD s

/-- The state after the first calls. -/
def someFiles (m : Memory) (n : ℕ) : Files (Machine Bool) := (someCalls.take n).foldl (stateAfter m) nothingOpen

/-- The calls with what they return. -/
def someRun (m : Memory) : List (Transition (Files (Machine Bool)) SystemCall UInt32) :=
  (someCalls.zip [0, 2, 1, 0]).mapIdx fun n (c, r) => ⟨someFiles m n, c, r, someFiles m (n + 1)⟩

theorem nothingOpen_represents (m : Memory) :
  Represents (Vfs.mountedAt m) (envAt m) nothingOpen fun _ => none
  := ⟨fun _ _ _ => rfl, by simp, Or.inl ⟨rfl, rfl, rfl⟩⟩

theorem envAt_serves (m : Memory) :
  Serves (Vfs.mountedAt m) silent (envAt m)
  := ⟨rfl, rfl, (by decide : (0xC0100000 : UInt32) ≠ 0)⟩

/-- What the calls return with `smallTree` mounted. -/
theorem someCalls_effects :
  (Aefs.mkfs 1 Aefs.smallTree).map (fun image =>
    someCalls.mapIdx fun n c => (callStep (envAt image.mem) (someFiles image.mem n) c).map Prod.fst) =
    some [some 0, some 2, some 1, some 0]
  := by
  decide +kernel

/-- The heap gets its memory in the first call. -/
theorem someFiles_exhausted :
  (Aefs.mkfs 1 Aefs.smallTree).map (fun image =>
    let c := (someFiles image.mem 2).client
    (c.heap.kernel.rest, (Kmalloc.exec regionOnce 0xC0100000 8 c (.kmalloc vnodeSize)).map (·.2.heap.kernel.rest))) =
    some (true, some true)
  := by
  decide +kernel

theorem someFiles_step {m : Memory} {n : ℕ} {c : SystemCall} {r : UInt32} (hc : someCalls[n]? = some c)
    (hr : (callStep (envAt m) (someFiles m n) c).map Prod.fst = some r) :
  callStep (envAt m) (someFiles m n) c = some (r, someFiles m (n + 1))
  := by
  obtain ⟨⟨r', s'⟩, hstep, rfl⟩ := Option.map_eq_some_iff.mp hr
  have hnext : someFiles m (n + 1) = stateAfter m (someFiles m n) c := by
    simp only [someFiles, List.take_add_one, hc, Option.toList_some, List.foldl_append, List.foldl_cons,
      List.foldl_nil]
  rw [hnext, stateAfter, hstep]
  rfl

theorem someRun_runs {image : Aefs.Image} (hmkfs : Aefs.mkfs 1 Aefs.smallTree = some image) :
  Runs (callStep (envAt image.mem)) nothingOpen (someRun image.mem) (someFiles image.mem 4)
  := by
  have heffects := someCalls_effects
  rw [hmkfs, Option.map_some, Option.some.injEq] at heffects
  simp only [someCalls, List.mapIdx_cons, List.mapIdx_nil, List.cons.injEq, and_true] at heffects
  obtain ⟨h₀, h₁, h₂, h₃⟩ := heffects
  exact (((Runs.nil.concat (someFiles_step (n := 0) rfl h₀)).concat (someFiles_step (n := 1) rfl h₁)).concat
    (someFiles_step (n := 2) rfl h₂)).concat (someFiles_step (n := 3) rfl h₃)

/-- When the memory has been given away, the heap gets no more. -/
theorem allowed_exhausted {c : Kmalloc.Client (Machine Bool)} {nbytes : UInt32} (hsmall : nbytes.toNat ≤ 2 ^ 31)
    (h : c.heap.kernel.rest = true) :
  Kmalloc.Allowed regionOnce 0xC0100000 c (.kmalloc nbytes)
  := by
  refine ⟨hsmall, ?_⟩
  intro vaddr k hbacking
  simp [Kmalloc.backing, regionOnce, h] at hbacking

theorem allowed_first :
  Kmalloc.Allowed regionOnce 0xC0100000 nothingOpen.client (.kmalloc vnodeSize)
  := by
  refine ⟨by decide, ?_⟩
  intro vaddr k hbacking
  have hvaddr : (Kmalloc.backing regionOnce (Kmalloc.unitsFor vnodeSize) nothingOpen.client.heap.kernel).1 =
      some 0xD0000000 := rfl
  obtain rfl : 0xD0000000 = vaddr := by
    rw [hbacking] at hvaddr
    exact (Option.some.inj hvaddr).symm
  exact ⟨by decide, by decide, by decide, by simp [nothingOpen]⟩

/-- A call of `sys_open` that is as it should be. -/
theorem proper_open {m : Memory} {s : Files (Machine Bool)} {path : Str} (rest : Str)
    (hvnode : Kmalloc.Allowed regionOnce 0xC0100000 s.client (.kmalloc vnodeSize))
    (hexhausted : (Kmalloc.exec regionOnce 0xC0100000 8 s.client (.kmalloc vnodeSize)).map (·.2.heap.kernel.rest) =
      some true)
    (hselected : (Vfs.selected (envAt m).vfsList path).map Prod.snd = some rest)
    (hsmall : (UInt32.ofNat (rest.length + 1)).toNat ≤ 2 ^ 31) (hnamed : ∀ name ∈ segments path.tail, Aefs.Named name) :
  Proper (envAt m) s ⟨.sysOpen, ⟨fun _ => 0, fun _ => path⟩, 0x1000⟩
  := by
  refine ⟨fun _ => ⟨hvnode, ?_⟩, fun _ => hnamed, by simp, by simp⟩
  intro vnode client root rest' hexec hselected' _
  have hrest : client.heap.kernel.rest = true := by
    rw [show Kmalloc.exec regionOnce 0xC0100000 8 s.client (.kmalloc vnodeSize) = _ from hexec] at hexhausted
    exact Option.some.inj hexhausted
  obtain rfl : rest' = rest := by
    rw [show Vfs.selected (envAt m).vfsList path = _ from hselected'] at hselected
    exact Option.some.inj hselected
  exact allowed_exhausted hsmall hrest

/-- The calls are as they should be. -/
theorem someRun_proper {image : Aefs.Image} (hmkfs : Aefs.mkfs 1 Aefs.smallTree = some image) :
  ∀ x ∈ someRun image.mem, Proper (envAt image.mem) x.before x.event
  := by
  have hexhausted := someFiles_exhausted
  rw [hmkfs, Option.map_some, Option.some.injEq] at hexhausted
  obtain ⟨hrest, hrest'⟩ := Prod.mk.inj hexhausted
  simp only [someRun, someCalls, List.zip_cons_cons, List.zip_nil_right, List.mapIdx_cons, List.mapIdx_nil,
    List.forall_mem_cons, List.not_mem_nil, false_imp_iff, implies_true, and_true]
  refine ⟨?_, ⟨by simp, by simp, fun _ => by decide, by simp⟩, ?_, ⟨by simp, by simp, by simp, fun _ => by decide⟩⟩
  · apply proper_open [0x61] allowed_first rfl rfl (by decide)
    unfold Aefs.Named
    decide
  · apply proper_open Vfs.consoleName (allowed_exhausted (by decide) hrest) hrest' rfl (by decide)
    unfold Aefs.Named
    decide

/-- The same run, in which the second call reads what the first one has opened. -/
theorem reads_opened_file_smallTree :
  ∃ image, Aefs.mkfs 1 Aefs.smallTree = some image ∧ ∃ s',
    Runs (callStep (envAt image.mem)) nothingOpen (someRun image.mem) s' ∧
    ∀ pre x post, someRun image.mem = pre ++ x :: post → x.event.kind = .sysRead →
      (x.effect, x.after.client.heap.kernel) = (-1, x.before.client.heap.kernel) ∨
        ∃ y ∈ pre, ∃ target, OpenedAs Aefs.smallTree x.event.fd target y ∧
          (x.effect, x.after.client.heap.kernel) = readTarget silent (x.event.user.mem (x.event.stack + 4))
            (x.event.user.mem (x.event.stack + 8)) x.before.client.heap.kernel target
  := by
  obtain ⟨image, hmkfs, hreads⟩ :=
    reads_opened_file (R := Bool) Aefs.smallTree_fits Aefs.smallTree_supported Aefs.smallTree_small
  have hrun := someRun_runs hmkfs
  exact ⟨image, hmkfs, _, hrun, hreads (Vfs.mountedAt image.mem) silent (envAt image.mem) nothingOpen _ _ rfl
    (envAt_serves _) (nothingOpen_represents _) hrun (someRun_proper hmkfs)⟩

end Syscall
