import Aenix.Lib.Bytes
import Aenix.Lib.Loop
import Aenix.Vfs.Mount
import Mathlib.Data.List.TakeWhile

/-!
# Walking through a path

`vfs_lookup` cuts the rest of a path, behind the mount path, into names: it copies the rest, and in each
round of its loop overwrites the first slash in the copy with a 0.  Here the strings are in memory, and
the names that were passed to `vn_lookup` are recorded.

The names are the segments of the rest of the path between slashes, without an empty one at the end
(`segments`), and are looked up one after the other until one is not found (`path_walk_fold`).
-/

open Bytes

namespace Vfs

/-! ### Strings in memory -/

/-- The string `s` is stored at the address `a`. -/
structure StringAt (m : Memory) (a : ℕ) (s : Str) : Prop where
  nonzero : 0 ∉ s
  stored : load m a (s.length + 1) = s ++ [0]

/-- `strlen`, for strings shorter than `n`. -/
def strlen (m : Memory) : ℕ → ℕ → ℕ
  | 0, _ => 0
  | n + 1, s => if m s = 0 then 0 else strlen m n (s + 1) + 1

/-- `strcspn`, for strings shorter than `n`. -/
def strcspn (m : Memory) (reject : Str) : ℕ → ℕ → ℕ
  | 0, _ => 0
  | n + 1, s =>
    if m s = 0 then 0
    else if reject.contains (m s) then 0
    else strcspn m reject n (s + 1) + 1

variable {m m' : Memory} {a n : ℕ} {s seg rest : Str}

theorem stringAt_nil :
  StringAt m a [] ↔ m a = 0
  := by
  constructor
  · intro h
    simpa [load] using h.stored
  · intro h
    exact ⟨by simp, by simp [load, h]⟩

theorem stringAt_cons {c : UInt8} :
  StringAt m a (c :: s) ↔ c ≠ 0 ∧ m a = c ∧ StringAt m (a + 1) s
  := by
  have hload : load m a ((c :: s).length + 1) = m a :: load m (a + 1) (s.length + 1) := by
    rw [List.length_cons, Nat.add_right_comm, Nat.add_comm (s.length + 1) 1, load_add]
    simp [load]
  constructor
  · rintro ⟨hnonzero, hstored⟩
    rw [hload, List.cons_append, List.cons.injEq] at hstored
    rw [List.mem_cons, not_or] at hnonzero
    exact ⟨Ne.symm hnonzero.1, hstored.1, hnonzero.2, hstored.2⟩
  · rintro ⟨hc, ha, hnonzero, hstored⟩
    refine ⟨?_, ?_⟩
    · rw [List.mem_cons, not_or]
      exact ⟨Ne.symm hc, hnonzero⟩
    · rw [hload, ha, hstored]
      rfl

theorem StringAt.congr (h : StringAt m a s) (heq : Set.EqOn m' m (Set.Ico a (a + s.length + 1))) :
  StringAt m' a s
  := ⟨h.nonzero, (load_congr heq).trans h.stored⟩

theorem StringAt.load_eq (h : StringAt m a s) :
  load m a s.length = s
  := by
  have hstored := h.stored
  rw [load_add] at hstored
  exact (List.append_inj' hstored (by simp)).1

theorem StringAt.strlen_eq (h : StringAt m a s) (hn : s.length < n) :
  strlen m n a = s.length
  := by
  induction s generalizing a n with
  | nil =>
      obtain ⟨n, rfl⟩ := Nat.exists_eq_add_of_lt hn
      simp [strlen, stringAt_nil.mp h]
  | cons c s ih =>
      obtain ⟨hc, ha, hs⟩ := stringAt_cons.mp h
      obtain ⟨n, rfl⟩ : ∃ k, n = k + 1 := ⟨n - 1, by omega⟩
      rw [strlen, ha, if_neg hc, ih hs (by simpa using hn), List.length_cons]

theorem StringAt.strcspn_eq {c : UInt8} (h : StringAt m a s) (hn : s.length < n) :
  strcspn m [c] n a = (s.takeWhile (· ≠ c)).length
  := by
  induction s generalizing a n with
  | nil =>
      obtain ⟨n, rfl⟩ := Nat.exists_eq_add_of_lt hn
      simp [strcspn, stringAt_nil.mp h]
  | cons b s ih =>
      obtain ⟨hb, ha, hs⟩ := stringAt_cons.mp h
      obtain ⟨n, rfl⟩ : ∃ k, n = k + 1 := ⟨n - 1, by omega⟩
      rw [strcspn, ha, if_neg hb, ih hs (by simpa using hn)]
      by_cases hbc : b = c
      · simp [hbc]
      · simp [hbc]

/-- The end of a string is a string. -/
theorem StringAt.drop (h : StringAt m a (seg ++ rest)) :
  StringAt m (a + seg.length) rest
  := by
  induction seg generalizing a with
  | nil => simpa using h
  | cons c seg ih =>
      rw [List.cons_append, stringAt_cons] at h
      rw [List.length_cons, Nat.add_comm seg.length 1, ← Nat.add_assoc]
      exact ih h.2.2

/-- Overwriting a character with 0 cuts a string in two. -/
theorem StringAt.cut {c : UInt8} (h : StringAt m a (seg ++ c :: rest)) :
  StringAt (store m (a + seg.length) [0]) a seg ∧
    StringAt (store m (a + seg.length) [0]) (a + seg.length + 1) rest
  := by
  have hout := store_eqOn m (a + seg.length) [0]
  have hrest : StringAt m (a + seg.length + 1) rest := (stringAt_cons.mp h.drop).2.2
  constructor
  · refine ⟨fun hin => h.nonzero (List.mem_append_left _ hin), ?_⟩
    have hseg : load m a seg.length = seg := by
      have hstored := h.stored
      rw [List.length_append, Nat.add_assoc, load_add, List.append_assoc] at hstored
      exact (List.append_inj hstored (by simp)).1
    rw [load_add, load_congr (hout.mono ?_), hseg]
    · simp [load, store]
    · intro x hx
      rw [Set.mem_Ico] at hx
      rw [Set.mem_compl_iff, Set.mem_Ico]
      omega
  · apply hrest.congr
    apply hout.mono
    intro x hx
    rw [Set.mem_Ico] at hx
    rw [Set.mem_compl_iff, Set.mem_Ico, List.length_singleton]
    omega

/-! ### The code -/

variable {V : Type}

/-- The variables of the loop of `vfs_lookup`, what `res` points to, and the names that have been
looked up. -/
structure Walk (V : Type) where
  mem : Memory
  p : ℕ
  vnode : V
  ret : Int
  res : V
  names : List Str

/-- A round of the loop of `vfs_lookup`, for strings shorter than `n`. -/
def walkBody (ops : Vnodeops V) (n : ℕ) (w : Walk V) : Walk V ⊕ Walk V :=
  if strlen w.mem n w.p ≠ 0 ∧ w.ret = 0 then
    let slashIndex := strcspn w.mem [slash] n w.p
    let (mem, inc) :=
      if slashIndex ≠ strlen w.mem n w.p then (store w.mem (w.p + slashIndex) [0], slashIndex + 1)
      else (w.mem, slashIndex)
    let name := load mem w.p (strlen mem n w.p)
    let (ret, res) := ops.vnLookup w.vnode name w.res
    .inl ⟨mem, w.p + inc, res, ret, res, w.names ++ [name]⟩
  else
    .inr w

/-- What `vfs_lookup` returns, what `res` points to then, the names that were looked up, and the
memory. -/
structure Outcome (V : Type) where
  ret : Int
  res : V
  names : List Str
  mem : Memory

/-- `vfs_lookup` with the path at the address `path`, for strings shorter than `n`.  `copy` is what
`kmalloc` returns.  `none` when the variable `root` is used without a value. -/
def vfsLookupAt (ops : Vnodeops V) (vfsList : List (VfsT V)) (n : ℕ) (m : Memory) (path copy : ℕ)
    (res : V) : Option (Outcome V) :=
  if strlen m n path < 1 then some ⟨-1, res, [], m⟩
  else if m path ≠ slash then some ⟨-1, res, [], m⟩
  else
    match findLongestMountPath vfsList (load m path (strlen m n path)) with
    | (_, none) => none
    | (maxLen, some root) =>
      let path := path + maxLen
      match root.vfsRoot with
      | none => some ⟨-1, res, [], m⟩
      | some vnode =>
        if strlen m n path = 0 then
          some ⟨0, vnode, [], m⟩
        else
          let m := store m copy (load m path (strlen m n path + 1))
          (Loop.run (walkBody ops n) n ⟨m, copy, vnode, 0, res, []⟩).map fun w =>
            ⟨w.ret, w.res, w.names, w.mem⟩

/-! ### Segments -/

/-- The parts of a path between slashes, without the last one when it is empty. -/
def segments (s : Str) : List Str :=
  let parts := s.splitOn slash
  if parts.getLast? = some [] then parts.dropLast else parts

/-- The segments are looked up one after the other, each in the vnode before, until one is not found:
what the last call returned, the vnode that was found or what the failed call has left in `out`, and
the segments that were looked up. -/
def lookupSegments (ops : Vnodeops V) : V → V → List Str → Int × V × List Str
  | vnode, _, [] => (0, vnode, [])
  | vnode, out, s :: ss =>
    match ops.vnLookup vnode s out with
    | (ret, res) =>
      if ret = 0 then
        match lookupSegments ops res res ss with
        | (ret, res, names) => (ret, res, s :: names)
      else
        (ret, res, [s])

@[simp]
theorem segments_nil :
  segments [] = []
  := by
  simp [segments, List.splitOn_eq_singleton]

theorem segments_of_notMem (hne : s ≠ []) (h : slash ∉ s) :
  segments s = [s]
  := by
  simp [segments, List.splitOn_eq_singleton h, hne]

theorem segments_append (h : slash ∉ seg) :
  segments (seg ++ slash :: rest) = seg :: segments rest
  := by
  have hne := List.splitOn_ne_nil slash rest
  obtain ⟨part, parts, hparts⟩ := List.exists_cons_of_ne_nil hne
  simp only [segments, List.splitOn_append_cons_self_of_not_mem h, hparts, List.getLast?_cons_cons,
    List.dropLast_cons_cons]
  split
  · rfl
  · rfl

theorem takeWhile_of_notMem (h : slash ∉ s) :
  s.takeWhile (· ≠ slash) = s
  := by
  rw [List.takeWhile_eq_self_iff]
  intro x hx
  simpa using fun heq : x = slash => h (heq ▸ hx)

theorem takeWhile_append (h : slash ∉ seg) :
  (seg ++ slash :: rest).takeWhile (· ≠ slash) = seg
  := by
  rw [List.takeWhile_append_of_pos]
  · simp
  · intro x hx
    simpa using fun heq : x = slash => h (heq ▸ hx)

/-! ### The loop -/

variable (ops : Vnodeops V) {w : Walk V}

theorem walkBody_end (h : StringAt w.mem w.p []) (hn : 0 < n) :
  walkBody ops n w = .inr w
  := by
  rw [walkBody, h.strlen_eq (by simpa using hn)]
  simp

theorem walkBody_failed (h : w.ret ≠ 0) :
  walkBody ops n w = .inr w
  := by
  rw [walkBody, if_neg (fun hand => h hand.2)]

/-- A round on a path without a slash. -/
theorem walkBody_last (h : StringAt w.mem w.p s) (hn : s.length < n) (hret : w.ret = 0) (hne : s ≠ [])
    (hslash : slash ∉ s) :
  walkBody ops n w = .inl ⟨w.mem, w.p + s.length, (ops.vnLookup w.vnode s w.res).2,
    (ops.vnLookup w.vnode s w.res).1, (ops.vnLookup w.vnode s w.res).2, w.names ++ [s]⟩
  := by
  have hlen : s.length ≠ 0 := by simpa using hne
  simp only [walkBody, h.strlen_eq hn, h.strcspn_eq hn, takeWhile_of_notMem hslash, ne_eq,
    not_true_eq_false, if_false, h.load_eq]
  rw [if_pos ⟨hlen, hret⟩]

/-- A round on a path with a slash. -/
theorem walkBody_cut (h : StringAt w.mem w.p (seg ++ slash :: rest))
    (hn : (seg ++ slash :: rest).length < n) (hret : w.ret = 0) (hslash : slash ∉ seg) :
  walkBody ops n w = .inl ⟨store w.mem (w.p + seg.length) [0], w.p + (seg.length + 1),
    (ops.vnLookup w.vnode seg w.res).2, (ops.vnLookup w.vnode seg w.res).1,
    (ops.vnLookup w.vnode seg w.res).2, w.names ++ [seg]⟩
  := by
  have hlen : (seg ++ slash :: rest).length ≠ 0 := by simp
  have hcut : seg.length ≠ (seg ++ slash :: rest).length := by simp
  have hshort : seg.length < n := by
    rw [List.length_append] at hn
    omega
  simp only [walkBody, h.strlen_eq hn, h.strcspn_eq hn, takeWhile_append hslash]
  rw [if_pos ⟨hlen, hret⟩, if_pos hcut]
  simp only [h.cut.1.strlen_eq hshort, h.cut.1.load_eq]

/-- The loop looks up the segments of the string at `p`, and changes nothing but the string. -/
theorem walk_spec (h : StringAt w.mem w.p s) (hn : s.length < n) (hret : w.ret = 0)
    (hres : s = [] → w.res = w.vnode) :
  ∃ w', Loop.run (walkBody ops n) (s.length + 1) w = some w' ∧
    w'.ret = (lookupSegments ops w.vnode w.res (segments s)).1 ∧
    w'.res = (lookupSegments ops w.vnode w.res (segments s)).2.1 ∧
    w'.names = w.names ++ (lookupSegments ops w.vnode w.res (segments s)).2.2 ∧
    Set.EqOn w'.mem w.mem (Set.Ico w.p (w.p + s.length + 1))ᶜ
  := by
  induction hlen : s.length using Nat.strong_induction_on generalizing s w with
  | _ len ih =>
      subst hlen
      by_cases hne : s = []
      · subst hne
        refine ⟨w, Loop.run_leave (walkBody_end ops h (by simpa using hn)) _, ?_⟩
        simp [lookupSegments, hret, hres rfl, Set.EqOn]
      by_cases hslash : slash ∈ s
      · obtain ⟨seg, rest, rfl, hseg⟩ := List.eq_append_cons_of_mem hslash
        have hstep := walkBody_cut ops h hn hret hseg
        have hlen : (seg ++ slash :: rest).length = rest.length + 1 + seg.length := by
          simp
          omega
        have hframe : Set.EqOn (store w.mem (w.p + seg.length) [0]) w.mem
            (Set.Ico w.p (w.p + (seg ++ slash :: rest).length + 1))ᶜ := by
          apply (store_eqOn _ _ _).mono
          intro x hx
          rw [Set.mem_compl_iff, Set.mem_Ico] at hx ⊢
          rw [List.length_singleton]
          omega
        rw [Loop.run_continue hstep, segments_append hseg, lookupSegments]
        rcases hlookup : ops.vnLookup w.vnode seg w.res with ⟨ret, res⟩
        by_cases hok : ret = 0
        · obtain ⟨w', hrun, hret', hres', hnames, heq⟩ := ih rest.length (by omega) (s := rest)
            (w := ⟨store w.mem (w.p + seg.length) [0], w.p + (seg.length + 1), res, ret, res,
              w.names ++ [seg]⟩)
            (by rw [← Nat.add_assoc]; exact h.cut.2) (by omega) hok (fun _ => rfl) rfl
          refine ⟨w', Loop.run_mono hrun (by omega), ?_⟩
          simp only [if_pos hok]
          refine ⟨hret', hres', by simp [hnames], ?_⟩
          refine Set.EqOn.trans (heq.mono ?_) hframe
          intro x hx
          rw [Set.mem_compl_iff, Set.mem_Ico] at hx ⊢
          simp only
          omega
        · refine ⟨_, Loop.run_mono (Loop.run_leave (walkBody_failed ops hok) 0) (by omega), ?_⟩
          simp only [if_neg hok, true_and]
          exact hframe
      · have hlen : s.length ≠ 0 := by simpa using hne
        rw [Loop.run_continue (walkBody_last ops h hn hret hne hslash), segments_of_notMem hne hslash,
          lookupSegments]
        rcases hlookup : ops.vnLookup w.vnode s w.res with ⟨ret, res⟩
        have hend : StringAt w.mem (w.p + s.length) [] := by
          apply StringAt.drop
          rwa [List.append_nil]
        by_cases hok : ret = 0
        · refine ⟨_, Loop.run_mono (Loop.run_leave (walkBody_end ops hend (by omega)) 0) (by omega), ?_⟩
          simp [hok, lookupSegments, Set.EqOn]
        · refine ⟨_, Loop.run_mono (Loop.run_leave (walkBody_failed ops hok) 0) (by omega), ?_⟩
          simp [hok, Set.EqOn]

/-! ### Looking up -/

theorem commonLength_le (path mp : Str) :
  commonLength path mp ≤ path.length
  := by
  induction path generalizing mp with
  | nil => simp [commonLength]
  | cons p path ih =>
      cases mp with
      | nil => simp [commonLength]
      | cons c mp =>
          rw [commonLength]
          split
          · have hle := ih mp
            rw [List.length_cons]
            omega
          · omega

/-- The rest of the path is where `vfs_lookup` goes on. -/
theorem selected_spec {vfsList : List (VfsT V)} {path : Str} {root : VfsT V}
    (h : selected vfsList path = some (root, rest)) :
  ∃ maxLen, findLongestMountPath vfsList path = (maxLen, some root) ∧ maxLen ≤ path.length ∧
    rest = path.drop maxLen
  := by
  rcases findLongestMountPath_spec vfsList path with ⟨heq, -⟩ | ⟨v, heq, -⟩
  · simp [selected, heq] at h
  · simp only [selected, heq, Option.map_some, Option.some.injEq, Prod.mk.injEq] at h
    obtain ⟨rfl, hrest⟩ := h
    exact ⟨_, heq, commonLength_le _ _, hrest.symm⟩

/-- A list of characters in the place of the copy in memory gives the same. -/
theorem walkFrom_eq (vnode out : V) (hn : s.length ≤ n) (hout : s = [] → out = vnode) :
  walkFrom ops n vnode s 0 out =
    ((lookupSegments ops vnode out (segments s)).1, (lookupSegments ops vnode out (segments s)).2.1)
  := by
  induction n generalizing s vnode out with
  | zero =>
      obtain rfl : s = [] := by simpa using hn
      simp [walkFrom, lookupSegments, hout rfl]
  | succ n ih =>
      by_cases hne : s = []
      · subst hne
        simp [walkFrom, lookupSegments, hout rfl]
      have hlen : s.length ≠ 0 := by simpa using hne
      have hstop : ∀ (p : Str) (ret : Int) (v : V), ret ≠ 0 → walkFrom ops n v p ret v = (ret, v) := by
        intro p ret v hret
        cases n with
        | zero => rfl
        | succ n => rw [walkFrom, if_neg (fun hand => hret hand.2)]
      rw [walkFrom, if_pos ⟨hlen, rfl⟩]
      by_cases hslash : slash ∈ s
      · obtain ⟨seg, rest, rfl, hseg⟩ := List.eq_append_cons_of_mem hslash
        have hcut : seg.length ≠ (seg ++ slash :: rest).length := by simp
        have hdrop : (seg ++ slash :: rest).drop (seg.length + 1) = rest := by simp
        simp only [takeWhile_append hseg, if_pos hcut, List.take_left', hdrop, segments_append hseg,
          lookupSegments]
        by_cases hok : (ops.vnLookup vnode seg out).1 = 0
        · rw [if_pos hok, hok]
          apply ih _ _ (by simp at hn; omega) (fun _ => rfl)
        · rw [if_neg hok, hstop _ _ _ hok]
      · simp only [takeWhile_of_notMem hslash, ne_eq, not_true_eq_false, if_false, List.take_length,
          List.drop_length, segments_of_notMem hne hslash, lookupSegments]
        by_cases hok : (ops.vnLookup vnode s out).1 = 0
        · rw [if_pos hok, hok, ih _ _ (by simp) (fun _ => rfl)]
          simp [lookupSegments]
        · rw [if_neg hok, hstop _ _ _ hok]

/-- `vfs_lookup` looks up the segments of the rest of the path, and changes nothing but its copy of
it. -/
theorem vfsLookupAt_spec {vfsList : List (VfsT V)} {path : Str} {root : VfsT V} {vnode : V}
    (copy : ℕ) (res : V) (hpath : StringAt m a path) (habs : path.head? = some slash)
    (hsel : selected vfsList path = some (root, rest)) (hroot : root.vfsRoot = some vnode)
    (hn : path.length < n) :
  ∃ m', vfsLookupAt ops vfsList n m a copy res = some
      ⟨(lookupSegments ops vnode res (segments rest)).1, (lookupSegments ops vnode res (segments rest)).2.1,
        (lookupSegments ops vnode res (segments rest)).2.2, m'⟩ ∧
    Set.EqOn m' m (Set.Ico copy (copy + rest.length + 1))ᶜ
  := by
  obtain ⟨maxLen, hfind, hle, rfl⟩ := selected_spec hsel
  obtain ⟨c, path', rfl⟩ : ∃ c path', path = c :: path' := by
    cases path with
    | nil => simp at habs
    | cons c path' => exact ⟨c, path', rfl⟩
  have hslash : m a = slash := by
    rw [(stringAt_cons.mp hpath).2.1]
    simpa using habs
  have hrest : StringAt m (a + maxLen) ((c :: path').drop maxLen) := by
    have hsplit := hpath
    rw [← List.take_append_drop maxLen (c :: path')] at hsplit
    have hdrop := hsplit.drop
    rwa [List.length_take, Nat.min_eq_left hle] at hdrop
  have hshort : ((c :: path').drop maxLen).length < n := by
    rw [List.length_drop]
    omega
  have hlen : strlen m n a = (c :: path').length := hpath.strlen_eq hn
  have hstr : load m a (strlen m n a) = c :: path' := by rw [hlen, hpath.load_eq]
  rw [vfsLookupAt, if_neg (by rw [hlen, List.length_cons]; omega), if_neg (by simp [hslash]), hstr, hfind]
  simp only [hroot, hrest.strlen_eq hshort]
  by_cases hend : (c :: path').drop maxLen = []
  · rw [if_pos (by simp [hend]), hend]
    exact ⟨m, rfl, Set.eqOn_refl _ _⟩
  rw [if_neg (fun hzero => hend (List.length_eq_zero_iff.mp hzero)), hrest.stored]
  -- the copy of the rest is a string of its own
  have hcopy : StringAt (store m copy ((c :: path').drop maxLen ++ [0])) copy ((c :: path').drop maxLen) := by
    refine ⟨hrest.nonzero, ?_⟩
    have hload := load_store m copy ((c :: path').drop maxLen ++ [0])
    rwa [List.length_append, List.length_singleton] at hload
  obtain ⟨w', hrun, hret, hres, hnames, heq⟩ := walk_spec ops
    (w := ⟨store m copy ((c :: path').drop maxLen ++ [0]), copy, vnode, 0, res, []⟩) hcopy hshort rfl
    (fun hnil => absurd hnil hend)
  rw [Loop.run_mono hrun hshort]
  refine ⟨w'.mem, ?_, ?_⟩
  · simp [hret, hres, hnames]
  · refine heq.trans ((store_eqOn _ _ _).mono ?_)
    intro x hx
    rw [Set.mem_compl_iff, Set.mem_Ico] at hx ⊢
    rw [List.length_append, List.length_singleton]
    omega

/-- The strings in memory may be taken for lists of characters. -/
theorem vfsLookup_of_vfsLookupAt {vfsList : List (VfsT V)} {path : Str} {root : VfsT V} {vnode : V}
    {copy : ℕ} {res : V} {o : Outcome V} (hpath : StringAt m a path) (habs : path.head? = some slash)
    (hsel : selected vfsList path = some (root, rest)) (hroot : root.vfsRoot = some vnode)
    (hn : path.length < n) (ho : vfsLookupAt ops vfsList n m a copy res = some o) :
  vfsLookup ops vfsList path res = some (o.ret, o.res)
  := by
  obtain ⟨m', heq, -⟩ := vfsLookupAt_spec ops copy res hpath habs hsel hroot hn
  rw [ho, Option.some.injEq] at heq
  have hne : path.length ≠ 0 := by
    intro hzero
    rw [List.length_eq_zero_iff.mp hzero] at habs
    simp at habs
  rw [vfsLookup, if_neg (by omega), if_neg (by simp [habs]), hsel]
  simp only [Option.map_some, lookupIn, hroot, heq]
  by_cases hend : rest = []
  · simp [hend, lookupSegments]
  · rw [if_neg (fun hzero => hend (List.length_eq_zero_iff.mp hzero)),
      walkFrom_eq ops vnode res le_rfl (fun hnil => absurd hnil hend)]

/-- For a path that leads into the file system `root` and goes on with `rest`, `vfs_lookup` folds
`vn_lookup` over the segments of `rest`, from the root of the file system on, and does not modify the
path. -/
theorem path_walk_fold (vfsList : List (VfsT V)) (path : Str) (root : VfsT V) (vnode res : V)
    (copy : ℕ) (hpath : StringAt m a path) (habs : path.head? = some slash)
    (hsel : selected vfsList path = some (root, rest)) (hroot : root.vfsRoot = some vnode)
    (hn : path.length < n) (hcopy : copy + rest.length + 1 ≤ a ∨ a + path.length + 1 ≤ copy) :
  ∃ o, vfsLookupAt ops vfsList n m a copy res = some o ∧
    (o.ret, o.res, o.names) = lookupSegments ops vnode res (segments rest) ∧ StringAt o.mem a path
  := by
  obtain ⟨m', heq, hframe⟩ := vfsLookupAt_spec ops copy res hpath habs hsel hroot hn
  refine ⟨_, heq, rfl, hpath.congr (hframe.mono ?_)⟩
  intro x hx
  rw [Set.mem_Ico] at hx
  rw [Set.mem_compl_iff, Set.mem_Ico]
  omega

/-- The path `/dev/a//b/`. -/
abbrev somePath : Str := [0x2f, 0x64, 0x65, 0x76, 0x2f, 0x61, 0x2f, 0x2f, 0x62, 0x2f]

/-- `vn_lookup` that finds every name: its characters are appended to the number of the vnode. -/
abbrev appended : Vnodeops ℕ :=
  ⟨fun vnode name _ => (0, name.foldl (fun v c => 256 * v + c.toNat) vnode)⟩

/-- In the file system at `/dev/`, the names `a`, the empty name between the slashes, and `b` are looked up,
and no name behind the last slash. -/
theorem path_walk_fold_segments :
  segments [0x61, 0x2f, 0x2f, 0x62, 0x2f] = [[0x61], [], [0x62]] ∧
    ∃ o, vfsLookupAt appended rootAndDev 16 (store (fun _ => 0) 0 somePath) 0 16 0 = some o ∧
      (o.ret, o.res, o.names) = lookupSegments appended 1 0 (segments [0x61, 0x2f, 0x2f, 0x62, 0x2f]) ∧
      StringAt o.mem 0 somePath
  := by
  have hpath : StringAt (store (fun _ => 0) 0 somePath) 0 somePath := ⟨by decide, by decide⟩
  refine ⟨by decide, ?_⟩
  exact path_walk_fold appended rootAndDev somePath ⟨[0x2f, 0x64, 0x65, 0x76, 0x2f], some 1⟩ 1 0 16 hpath
    rfl rfl rfl (by decide) (by decide)

end Vfs
