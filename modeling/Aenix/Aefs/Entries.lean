import Aenix.Aefs.Lookup

/-!
# The entries that a lookup reads

`aefs_lookup` scans whole blocks, and the number of them comes from `div_ceil`.  The entries of a directory
are numbered along its inodes (`slot`), and a lookup is a search for the first character of a name in a
range of them (`aefsLookup_eq_firstOf`).  The range is the one of the directory's own entries exactly when
they fill its blocks, and there is one: `lookup_own_entries_iff`.
-/

open Bytes Aenix

namespace Aefs

/-! ### The slots of a directory -/

/-- The inodes of a file, from the one at `inode` on. -/
def chainInode (m : Memory) (inode : ℕ) : ℕ → ℕ
  | 0 => inode
  | c + 1 => getInode (inodeTail m (chainInode m inode c))

/-- The address of the block `i` of a file. -/
def fileBlock (m : Memory) (inode i : ℕ) : ℕ :=
  getBlock (sbStartBlock m) (inodeBlock m (chainInode m inode (i / inodeNumBlocks)) (i % inodeNumBlocks))

/-- The address of the entry `e` of a directory. -/
def slot (m : Memory) (inode e : ℕ) : ℕ :=
  fileBlock m inode (e / direntriesPerBlock) + 256 * (e % direntriesPerBlock)

/-- The inode of the first entry, among those at the given addresses, whose name begins as `name`. -/
def firstOf (m name : Memory) (entries : List ℕ) : Option ℕ :=
  (entries.find? fun entry => m entry = name 0).map fun entry => getInode (entryInodeId m entry)

variable {m m' name : Memory} {inode : ℕ}

theorem firstOf_append (l₁ l₂ : List ℕ) :
  firstOf m name (l₁ ++ l₂) =
    match firstOf m name l₁ with
    | some inode => some inode
    | none => firstOf m name l₂
  := by
  rw [firstOf, firstOf, firstOf, List.find?_append]
  cases l₁.find? fun entry => decide (m entry = name 0) with
  | none => rfl
  | some entry => rfl

theorem firstOf_congr {entries : List ℕ}
    (h : ∀ entry ∈ entries, m entry = m' entry ∧ entryInodeId m entry = entryInodeId m' entry) :
  firstOf m name entries = firstOf m' name entries
  := by
  induction entries with
  | nil => rfl
  | cons entry entries ih =>
      obtain ⟨hfirst, hid⟩ := h entry List.mem_cons_self
      have hrest := ih (fun e he => h e (List.mem_cons_of_mem entry he))
      rw [firstOf, firstOf] at hrest ⊢
      rw [List.find?_cons, List.find?_cons, hfirst]
      cases decide (m' entry = name 0) with
      | true => simp [hid]
      | false => simpa using hrest

/-- The entry that is found, when none of the ones before begins as the name. -/
theorem firstOf_range (f : ℕ → ℕ) {n e : ℕ} (he : e < n) (hbefore : ∀ i < e, m (f i) ≠ name 0)
    (hfound : m (f e) = name 0) :
  firstOf m name ((List.range n).map f) = some (getInode (entryInodeId m (f e)))
  := by
  obtain ⟨k, rfl⟩ := Nat.exists_eq_add_of_lt he
  have hnone : firstOf m name ((List.range e).map f) = none := by
    rw [firstOf, Option.map_eq_none_iff, List.find?_eq_none]
    intro entry hentry
    obtain ⟨i, hi, rfl⟩ := List.mem_map.mp hentry
    simpa using hbefore i (List.mem_range.mp hi)
  rw [add_assoc, List.range_add, List.map_append, firstOf_append, hnone, List.range_succ_eq_map]
  simp [firstOf, hfound]

/-! ### Scanning -/

theorem scanEntries_eq_firstOf (n entry : ℕ) :
  scanEntries m name n entry = firstOf m name ((List.range n).map fun j => entry + 256 * j)
  := by
  induction n generalizing entry with
  | zero => rfl
  | succ n ih =>
      rw [scanEntries, ih, List.range_succ_eq_map, List.map_cons, List.map_map]
      have hshift : ((fun j => entry + 256 * j) ∘ Nat.succ) = fun j => entry + 256 + 256 * j := by
        funext j
        simp only [Function.comp_apply]
        omega
      rw [hshift]
      by_cases hfirst : m entry = name 0
      · rw [if_pos ((strncmp_eq_zero_iff _ _ (by decide)).mpr hfirst)]
        simp [firstOf, hfirst]
      · rw [if_neg (fun h => hfirst ((strncmp_eq_zero_iff _ _ (by decide)).mp h))]
        simp [firstOf, hfirst]

/-- The inode at which the round `i` begins. -/
theorem nextInode_chainInode (i : ℕ) :
  nextInode m i (chainInode m inode (tailsFor i)) = chainInode m inode (i / inodeNumBlocks)
  := by
  rw [nextInode, tailsFor]
  split
  case isTrue h =>
    have hsucc : i / inodeNumBlocks = (i - 1) / 5 + 1 := by
      simp only [inodeNumBlocks] at h ⊢
      omega
    rw [hsucc, chainInode]
  case isFalse h =>
    congr 1
    simp only [inodeNumBlocks] at h ⊢
    omega

theorem lookupRounds_eq_firstOf (m name : Memory) (inode n i : ℕ) :
  lookupRounds m name n i (chainInode m inode (tailsFor i)) =
    firstOf m name ((List.range' (4 * i) (4 * n)).map (slot m inode))
  := by
  induction n generalizing i with
  | zero => rfl
  | succ n ih =>
      have hblock : ∀ j < 4, slot m inode (4 * i + j) = fileBlock m inode i + 256 * j := by
        intro j hj
        have hdiv : (4 * i + j) / 4 = i := by omega
        have hmod : (4 * i + j) % 4 = j := by omega
        rw [slot, hdiv, hmod]
      have hslots : (List.range' (4 * i) 4).map (slot m inode) =
          (List.range 4).map fun j => fileBlock m inode i + 256 * j := by
        rw [List.range'_eq_map_range, List.map_map]
        apply List.map_congr_left
        intro j hj
        apply hblock j (List.mem_range.mp hj)
      have hnext : chainInode m inode (i / inodeNumBlocks) = chainInode m inode (tailsFor (i + 1)) := by
        rw [tailsFor, Nat.add_sub_cancel]
      rw [lookupRounds, nextInode_chainInode, scanEntries_eq_firstOf,
        show 4 * (n + 1) = 4 + 4 * n by ring, ← List.range'_append_1, List.map_append, hslots,
        firstOf_append, show 4 * i + 4 = 4 * (i + 1) by ring, ← ih (i + 1), ← hnext]
      rfl

/-- A lookup is a search in the slots of the blocks of a directory. -/
theorem aefsLookup_eq_firstOf (res : ℕ) (htype : inodeType m inode = filetypeDir) :
  aefsLookup m inode name res =
    match firstOf m name
      ((List.range (4 * (divCeil (inodeSize m inode) 1024).toNat)).map (slot m inode)) with
    | some entry => (0, entry)
    | none => (-1, res)
  := by
  have hrounds := lookupRounds_eq_firstOf m name inode (divCeil (inodeSize m inode) 1024).toNat 0
  rw [Nat.mul_zero, ← List.range_eq_range', show chainInode m inode (tailsFor 0) = inode from rfl]
    at hrounds
  rw [aefsLookup, if_neg (by simp [htype])]
  cases hfirst : firstOf m name
      ((List.range (4 * (divCeil (inodeSize m inode) 1024).toNat)).map (slot m inode)) with
  | none => simp only [hrounds, hfirst]
  | some entry => simp only [hrounds, hfirst]

/-! ### Images with the same directory -/

/-- The inode `id` is a directory with `k` entries. -/
structure DirectoryOf (m : Memory) (id k : UInt16) : Prop where
  type : inodeType m (getInode id) = filetypeDir
  size : (inodeSize m (getInode id)).toNat = 256 * k.toNat

/-- Two images have the same superblock, and a directory with the same inodes and the same `k` entries. -/
structure SameDirectory (m m' : Memory) (id k : UInt16) : Prop where
  superblock : Set.EqOn m m' (Set.Iio 8)
  chain : ∀ c ≤ tailsFor (blocksFor (256 * k.toNat)),
    Set.EqOn m m' (Set.Ico (chainInode m (getInode id) c) (chainInode m (getInode id) c + 16))
  entries : ∀ e < k.toNat,
    Set.EqOn m m' (Set.Ico (slot m (getInode id) e) (slot m (getInode id) e + 256))

/-- Lookups in directories of `k` entries depend only on the entries; without entries they fail. -/
def OwnEntriesOnly (k : UInt16) : Prop :=
  (∀ m m' id, DirectoryOf m id k → SameDirectory m m' id k →
    ∀ name res, aefsLookup m (getInode id) name res = aefsLookup m' (getInode id) name res) ∧
  (k = 0 → ∀ m id, DirectoryOf m id k → ∀ name res, (aefsLookup m (getInode id) name res).1 = -1)

namespace SameDirectory

variable {id k : UInt16}

theorem sbStartBlock_eq (h : SameDirectory m m' id k) :
  sbStartBlock m = sbStartBlock m'
  := by
  apply load16_congr
  apply h.superblock.mono
  intro x hx
  rw [Set.mem_Ico] at hx
  rw [Set.mem_Iio]
  omega

/-- A word of an inode of the chain. -/
theorem load16_inode (h : SameDirectory m m' id k) {c a : ℕ}
    (hc : c ≤ tailsFor (blocksFor (256 * k.toNat))) (ha : a + 2 ≤ 16) :
  load16 m (chainInode m (getInode id) c + a) = load16 m' (chainInode m (getInode id) c + a)
  := by
  apply load16_congr
  apply (h.chain c hc).mono
  intro x hx
  rw [Set.mem_Ico] at hx ⊢
  omega

theorem chainInode_eq (h : SameDirectory m m' id k) {c : ℕ}
    (hc : c ≤ tailsFor (blocksFor (256 * k.toNat))) :
  chainInode m (getInode id) c = chainInode m' (getInode id) c
  := by
  induction c with
  | zero => rfl
  | succ c ih =>
      rw [chainInode, chainInode, ← ih (by omega), inodeTail, inodeTail,
        h.load16_inode (by omega) (by decide)]

theorem inodeSize_eq (h : SameDirectory m m' id k) :
  inodeSize m (getInode id) = inodeSize m' (getInode id)
  := by
  have hlow : inodeSizeLow m (getInode id) = inodeSizeLow m' (getInode id) :=
    h.load16_inode (Nat.zero_le _) (by decide)
  have hhigh : inodeSizeHigh m (getInode id) = inodeSizeHigh m' (getInode id) := by
    apply h.chain 0 (Nat.zero_le _)
    simp [chainInode]
  rw [inodeSize, inodeSize, hlow, hhigh]

theorem inodeType_eq (h : SameDirectory m m' id k) :
  inodeType m (getInode id) = inodeType m' (getInode id)
  := by
  apply h.chain 0 (Nat.zero_le _)
  simp [chainInode]

theorem slot_eq (h : SameDirectory m m' id k) {e : ℕ} (he : e < k.toNat) :
  slot m (getInode id) e = slot m' (getInode id) e
  := by
  have hc : e / direntriesPerBlock / inodeNumBlocks ≤ tailsFor (blocksFor (256 * k.toNat)) := by
    simp only [tailsFor, blocksFor, direntriesPerBlock, inodeNumBlocks]
    omega
  have hj : 4 + 2 * (e / direntriesPerBlock % inodeNumBlocks) + 2 ≤ 16 := by
    simp only [inodeNumBlocks]
    omega
  rw [slot, slot, fileBlock, fileBlock, ← h.chainInode_eq hc, inodeBlock, inodeBlock, add_assoc,
    h.load16_inode hc hj, h.sbStartBlock_eq]

theorem entry_eq (h : SameDirectory m m' id k) {e : ℕ} (he : e < k.toNat) :
  m (slot m (getInode id) e) = m' (slot m (getInode id) e) ∧
    entryInodeId m (slot m (getInode id) e) = entryInodeId m' (slot m (getInode id) e)
  := by
  have hentry := h.entries e he
  constructor
  · apply hentry
    simp
  · apply load16_congr
    apply hentry.mono
    intro x hx
    rw [Set.mem_Ico] at hx ⊢
    simp only [filenameMaxLen] at hx
    omega

end SameDirectory

/-- When the entries fill the blocks, the slots that are scanned are the entries. -/
theorem ownEntriesOnly_of_dvd {k : UInt16} (hk : k ≠ 0) (hdvd : 4 ∣ k.toNat) :
  OwnEntriesOnly k
  := by
  refine ⟨?_, fun h0 => absurd h0 hk⟩
  intro m m' id hdir hsame name res
  have hpos : 0 < k.toNat := by
    rw [Nat.pos_iff_ne_zero]
    intro h0
    apply hk
    apply UInt16.toNat_inj.mp h0
  have hblocks : 4 * (divCeil (inodeSize m (getInode id)) 1024).toNat = k.toNat := by
    rw [toNat_divCeil_block (by rw [hdir.size]; omega), hdir.size, blocksFor]
    omega
  rw [aefsLookup_eq_firstOf res hdir.type,
    aefsLookup_eq_firstOf res (hsame.inodeType_eq ▸ hdir.type), ← hsame.inodeSize_eq, hblocks]
  have hslots : (List.range k.toNat).map (slot m' (getInode id)) =
      (List.range k.toNat).map (slot m (getInode id)) := by
    apply List.map_congr_left
    intro e he
    rw [hsame.slot_eq (List.mem_range.mp he)]
  have hfirst : firstOf m name ((List.range k.toNat).map (slot m (getInode id))) =
      firstOf m' name ((List.range k.toNat).map (slot m (getInode id))) := by
    apply firstOf_congr
    intro entry hentry
    obtain ⟨e, he, rfl⟩ := List.mem_map.mp hentry
    apply hsame.entry_eq (List.mem_range.mp he)
  rw [hslots, hfirst]

/-! ### A directory with something behind its last entry -/

/-- A memory with the given words of 16 bits. -/
def ofWords (f : ℕ → ℕ) : Memory :=
  fun a => if a % 2 = 0 then UInt8.ofNat (f (a / 2)) else UInt8.ofNat (f (a / 2) / 256)

theorem load16_ofWords (f : ℕ → ℕ) (w : ℕ) :
  load16 (ofWords f) (2 * w) = UInt16.ofNat (f w)
  := by
  have hlow : ofWords f (2 * w) = UInt8.ofNat (f w) := by
    rw [ofWords, if_pos (by omega), Nat.mul_div_cancel_left _ (by decide)]
  have hhigh : ofWords f (2 * w + 1) = UInt8.ofNat (f w / 256) := by
    rw [ofWords, if_neg (by omega), show (2 * w + 1) / 2 = w by omega]
  apply load16_bytes16
  have hbytes : bytes16 (UInt16.ofNat (f w)) = [UInt8.ofNat (f w), UInt8.ofNat (f w / 256)] := by
    rw [bytes16]
    congr 2
    · apply UInt8.toNat_inj.mp
      simp
    · apply UInt8.toNat_inj.mp
      simp [Nat.shiftRight_eq_div_pow]
      omega
  rw [hbytes]
  simp [load, List.range_succ, hlow, hhigh]

/-- The word `j` of the inode `i` of an image in which the inode 1 is a directory of `k` entries.  The
block `k / 4` of the directory is the data block 1, all blocks before are the data block 0. -/
def inodeWord (k i : ℕ) : ℕ → ℕ
  | 0 => 1 + 256 * (k / 256)
  | 1 => 256 * (k % 256)
  | 7 => i + 1
  | j + 2 => if 5 * i + j = 5 + k / 4 then 1 else 0

/-- The place of the first word behind the `k` entries. -/
def staleWord (k : ℕ) : ℕ := 31232 + 128 * (k % 4)

/-- The words of the image, with an entry for the inode `x` behind those of the directory. -/
def staleWords (k x w : ℕ) : ℕ :=
  if w = 3 then 60
  else if 512 ≤ w ∧ w < 30720 then inodeWord k ((w - 512) / 8) ((w - 512) % 8)
  else if w = staleWord k then 1
  else if w = staleWord k + 127 then x
  else 0

/-- The image. -/
def staleImage (k x : ℕ) : Memory := ofWords (staleWords k x)

section Stale

variable {k x : ℕ}

theorem load16_staleImage_inode {i j : ℕ} (hi : i ≤ 3600) (hj : j < 8) :
  load16 (staleImage k x) (getInode (UInt16.ofNat i) + 2 * j) = UInt16.ofNat (inodeWord k i j)
  := by
  have haddr : getInode (UInt16.ofNat i) + 2 * j = 2 * (512 + 8 * i + j) := by
    rw [getInode, UInt16.toNat_ofNat', Nat.mod_eq_of_lt (by omega)]
    simp only [blockSize]
    omega
  have hdiv : (512 + 8 * i + j - 512) / 8 = i := by omega
  have hmod : (512 + 8 * i + j - 512) % 8 = j := by omega
  rw [haddr, staleImage, load16_ofWords, staleWords, if_neg (by omega), if_pos (by omega), hdiv, hmod]

theorem chainInode_staleImage {c : ℕ} (hc : c ≤ 3300) :
  chainInode (staleImage k x) (getInode 1) c = getInode (UInt16.ofNat (c + 1))
  := by
  induction c with
  | zero => rfl
  | succ c ih =>
      rw [chainInode, ih (by omega), inodeTail]
      exact congrArg getInode (load16_staleImage_inode (by omega) (j := 7) (by decide))

theorem sbStartBlock_staleImage :
  sbStartBlock (staleImage k x) = 60
  := by
  exact load16_ofWords _ 3

theorem slot_staleImage {e : ℕ} (he : e < 65536) :
  slot (staleImage k x) (getInode 1) e =
    1024 * (60 + if e / 4 = k / 4 then 1 else 0) + 256 * (e % 4)
  := by
  have hc : e / 4 / 5 ≤ 3300 := by omega
  have hword : inodeWord k (e / 4 / 5 + 1) (e / 4 % 5 + 2) = if e / 4 = k / 4 then 1 else 0 := by
    have hlt : e / 4 % 5 < 5 := Nat.mod_lt _ (by decide)
    rw [inodeWord]
    · congr 1
      apply propext
      omega
    · omega
  have hblock : inodeBlock (staleImage k x) (chainInode (staleImage k x) (getInode 1) (e / 4 / 5))
      (e / 4 % 5) = UInt16.ofNat (if e / 4 = k / 4 then 1 else 0) := by
    have hload := load16_staleImage_inode (k := k) (x := x) (i := e / 4 / 5 + 1) (j := e / 4 % 5 + 2)
      (by omega) (by omega)
    rw [hword] at hload
    rw [chainInode_staleImage hc, inodeBlock, ← hload]
    congr 1
    omega
  rw [slot, fileBlock, hblock, sbStartBlock_staleImage, getBlock]
  split
  · rfl
  · rfl

/-- The first characters of the entries, and of what stands behind them. -/
theorem staleImage_slot {e : ℕ} (he : e ≤ k) (hk : k < 65536) :
  staleImage k x (slot (staleImage k x) (getInode 1) e) = if e = k then 1 else 0
  := by
  rw [slot_staleImage (by omega), staleImage, ofWords, if_pos (by omega), staleWords, staleWord]
  by_cases hlast : e / 4 = k / 4
  · rw [if_pos hlast, if_neg (by omega), if_neg (by omega)]
    by_cases heq : e = k
    · subst heq
      rw [if_pos (by omega), if_pos rfl]
      rfl
    · rw [if_neg (by omega), if_neg (by omega), if_neg heq]
      rfl
  · rw [if_neg hlast, if_neg (by omega), if_neg (by omega), if_neg (by omega), if_neg (by omega),
      if_neg (by omega)]
    rfl

theorem entryInodeId_staleImage (hk : k < 65536) :
  entryInodeId (staleImage k x) (slot (staleImage k x) (getInode 1) k) = UInt16.ofNat x
  := by
  have haddr : slot (staleImage k x) (getInode 1) k + filenameMaxLen = 2 * (staleWord k + 127) := by
    rw [slot_staleImage hk, if_pos rfl, staleWord]
    simp only [filenameMaxLen]
    omega
  rw [entryInodeId, haddr, staleImage, load16_ofWords, staleWords, if_neg, if_neg, if_neg, if_pos rfl]
  · omega
  · rw [staleWord]
    omega
  · rw [staleWord]
    omega

/-- Images with different entries behind those of the directory agree elsewhere. -/
theorem staleImage_eqOn (x' : ℕ) :
  Set.EqOn (staleImage k x) (staleImage k x') {a | a / 2 ≠ staleWord k + 127}
  := by
  intro a ha
  have hwords : staleWords k x (a / 2) = staleWords k x' (a / 2) := by
    rw [staleWords, staleWords, if_neg (c := a / 2 = staleWord k + 127) ha,
      if_neg (c := a / 2 = staleWord k + 127) ha]
  rw [staleImage, staleImage, ofWords, ofWords, hwords]

end Stale

section Bad

variable {k : UInt16}

theorem directoryOf_staleImage (x : ℕ) :
  DirectoryOf (staleImage k.toNat x) 1 k
  := by
  have hk := k.toNat_lt
  have hword : ofWords (staleWords k.toNat x) 1040 = UInt8.ofNat (1 + 256 * (k.toNat / 256)) := rfl
  have hhigh : ofWords (staleWords k.toNat x) 1041 = UInt8.ofNat ((1 + 256 * (k.toNat / 256)) / 256) :=
    rfl
  constructor
  · apply UInt8.toNat_inj.mp
    rw [show inodeType (staleImage k.toNat x) (getInode 1) = _ from hword]
    simp [filetypeDir]
  · have hlow := load16_staleImage_inode (k := k.toNat) (x := x) (i := 1) (j := 1) (by decide) (by decide)
    rw [toNat_inodeSize, show inodeSizeHigh (staleImage k.toNat x) (getInode 1) = _ from hhigh,
      show inodeSizeLow (staleImage k.toNat x) (getInode 1) = _ from hlow, inodeWord]
    simp only [UInt16.toNat_ofNat', UInt8.toNat_ofNat']
    omega

theorem sameDirectory_staleImage (x x' : ℕ) :
  SameDirectory (staleImage k.toNat x) (staleImage k.toNat x') 1 k
  := by
  have hk := k.toNat_lt
  have hsame := staleImage_eqOn (k := k.toNat) (x := x) x'
  constructor
  · apply hsame.mono
    intro a ha
    rw [Set.mem_Iio] at ha
    rw [Set.mem_ofPred_eq, staleWord]
    omega
  · intro c hc
    have hle : c ≤ 3300 := by
      simp only [tailsFor, blocksFor] at hc
      omega
    apply hsame.mono
    intro a ha
    rw [chainInode_staleImage hle, getInode, UInt16.toNat_ofNat', Nat.mod_eq_of_lt (by omega),
      Set.mem_Ico] at ha
    simp only [blockSize] at ha
    rw [Set.mem_ofPred_eq, staleWord]
    omega
  · intro e he
    apply hsame.mono
    intro a ha
    rw [slot_staleImage (by omega), Set.mem_Ico] at ha
    rw [Set.mem_ofPred_eq, staleWord]
    split at ha
    · omega
    · omega

/-- The string of one character that stands behind the entries. -/
abbrev staleName : Memory := fun i => if i = 0 then 1 else 0

/-- When the entries do not fill the blocks, or there are none, what stands behind them is found. -/
theorem aefsLookup_staleImage (x res : ℕ) (hbad : k = 0 ∨ ¬ 4 ∣ k.toNat) :
  aefsLookup (staleImage k.toNat x) (getInode 1) staleName res = (0, getInode (UInt16.ofNat x))
  := by
  have hk := k.toNat_lt
  have hdir := directoryOf_staleImage (k := k) x
  have hscanned : k.toNat < 4 * (divCeil (inodeSize (staleImage k.toNat x) (getInode 1)) 1024).toNat := by
    rcases hbad with rfl | hndvd
    · have hzero : inodeSize (staleImage (0 : UInt16).toNat x) (getInode 1) = 0 :=
        UInt32.toNat_inj.mp hdir.size
      rw [hzero, divCeil_zero]
      decide
    · rw [toNat_divCeil_block (by rw [hdir.size]; omega), hdir.size, blocksFor]
      omega
  rw [aefsLookup_eq_firstOf res hdir.type, firstOf_range _ hscanned, entryInodeId_staleImage hk]
  · intro e he
    rw [staleImage_slot he.le hk, if_neg he.ne]
    decide
  · rw [staleImage_slot le_rfl hk, if_pos rfl]
    rfl

theorem not_ownEntriesOnly (hbad : k = 0 ∨ ¬ 4 ∣ k.toNat) :
  ¬ OwnEntriesOnly k
  := by
  intro hown
  have heq := hown.1 _ _ 1 (directoryOf_staleImage 1) (sameDirectory_staleImage 1 2) staleName 0
  rw [aefsLookup_staleImage 1 0 hbad, aefsLookup_staleImage 2 0 hbad] at heq
  simp [getInode] at heq

end Bad

/-- Lookups in directories of `k` entries depend only on the entries exactly when the entries fill at
least one block, and no block in part. -/
theorem lookup_own_entries_iff (k : UInt16) :
  OwnEntriesOnly k ↔ k ≠ 0 ∧ 4 ∣ k.toNat
  := by
  constructor
  · intro hown
    by_contra hbad
    apply not_ownEntriesOnly _ hown
    tauto
  · rintro ⟨hk, hdvd⟩
    apply ownEntriesOnly_of_dvd hk hdvd

/-- A lookup in an empty directory finds a name that stands in a data block. -/
theorem lookup_in_empty_directory :
  DirectoryOf (staleImage 0 2) 1 0 ∧
    aefsLookup (staleImage 0 2) (getInode 1) staleName 0 = (0, getInode 2) ∧ ¬ OwnEntriesOnly 0
  := by
  have hlookup := aefsLookup_staleImage (k := 0) 2 0 (Or.inl rfl)
  refine ⟨directoryOf_staleImage (k := 0) 2, hlookup, ?_⟩
  intro hown
  have hfails := hown.2 rfl _ 1 (directoryOf_staleImage 2) staleName 0
  rw [hlookup] at hfails
  exact absurd hfails (by decide)

end Aefs
