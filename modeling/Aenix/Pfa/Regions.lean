import Aenix.Pfa.MemoryMap

/-!
# The regions of the frame allocator

When the regions that `pfa_init` computes are memory that exists (`regions_real_ram`), and
when they leave the kernel and the file system module alone (`regions_spare_kernel_iff`).
Both fail where a length underflows, where the part after the module keeps the length of the
whole entry, and, for the module, where it touches an end of its entry.
-/

open Aenix

namespace Pfa

variable {b : Boot} {e : Entry}

/-- The available entries are ascending, disjoint and end below `2 ^ 32`, and the kernel and
the module each lie in one of them. -/
structure Boot.WellFormed (b : Boot) : Prop where
  below : ∀ e ∈ b.available, e.last < 2 ^ 32
  ascending : b.available.Pairwise fun e e' => e.last ≤ e'.first
  kernel_le : b.kernelPhysicalStart.toNat ≤ b.kernelPhysicalEnd.toNat
  kernel : ∃ e ∈ b.available, e.first ≤ b.kernelPhysicalStart.toNat ∧
    b.kernelPhysicalEnd.toNat ≤ e.last
  module : ∃ e ∈ b.available, e.first ≤ b.fsPaddr.toNat ∧ b.fsEnd ≤ e.last

theorem Boot.WellFormed.fsEnd_lt (h : b.WellFormed) :
  b.fsEnd < 2 ^ 32
  := by
  obtain ⟨e, he, -, hle⟩ := h.module
  apply hle.trans_lt (h.below e he)

/-- Two available entries are the same, or one lies below the other. -/
theorem Boot.WellFormed.eq_or_le (h : b.WellFormed) {e e' : Entry} (he : e ∈ b.available)
    (he' : e' ∈ b.available) :
  e = e' ∨ e.last ≤ e'.first ∨ e'.last ≤ e.first
  := by
  have hsymm : Std.Symm fun e e' : Entry => e.last ≤ e'.first ∨ e'.last ≤ e.first :=
    ⟨fun _ _ => Or.symm⟩
  have hpair : b.available.Pairwise fun e e' : Entry => e.last ≤ e'.first ∨ e'.last ≤ e.first :=
    h.ascending.imp Or.inl
  by_cases heq : e = e'
  · left
    apply heq
  · right
    apply hpair.forall he he' heq

/-! ### The number of regions -/

/-- The number of regions of an entry. -/
def pieces (b : Boot) (e : Entry) : ℕ :=
  if restFirst b e ≤ 2 ^ 20 then 0 else if Split b e then 2 else 1

/-- There is a memory map. -/
def Boot.HasMap (b : Boot) : Prop :=
  b.flags &&& 0x20 ≠ 0

/-- The regions fit into `mmap`. -/
def Boot.Fits (b : Boot) : Prop :=
  (b.available.map (pieces b)).sum ≤ maxNumMemoryMap

instance : Decidable b.Fits :=
  inferInstanceAs (Decidable (_ ≤ _))

theorem length_fillEntry (h : e.last < 2 ^ 32) (hfs : b.fsEnd < 2 ^ 32) :
  (fillEntry b e).length = pieces b e
  := by
  rw [← List.length_map alignRegion, pieces]
  rcases fillEntry_spec h hfs with ⟨hlow, hnil⟩ | ⟨hlow, hsplit, r, r', hcons, -⟩ |
    ⟨hlow, hsplit, r, hcons, -⟩
  · rw [hnil, if_pos hlow, List.length_nil]
  · rw [hcons, if_neg (not_le.mpr hlow), if_pos hsplit]
    rfl
  · rw [hcons, if_neg (not_le.mpr hlow), if_neg hsplit]
    rfl

/-- The regions that `pfa_init` computes. -/
theorem pfaInitRegions_eq (h : b.WellFormed) (hmap : b.HasMap) :
  pfaInitRegions b = if b.Fits then
    some (b.available.flatMap fun e => (fillEntry b e).map alignRegion) else none
  := by
  have hlen : (b.available.flatMap (fillEntry b)).length = (b.available.map (pieces b)).sum := by
    rw [List.length_flatMap]
    congr 1
    apply List.map_congr_left
    intro e he
    apply length_fillEntry (h.below e he) h.fsEnd_lt
  rw [pfaInitRegions, fillMemoryMap, if_neg hmap]
  simp only [hlen]
  by_cases hfits : (b.available.map (pieces b)).sum ≤ maxNumMemoryMap
  · rw [if_pos hfits, if_pos (by apply hfits), Option.map_some, List.map_flatMap]
  · rw [if_neg hfits, if_neg (by apply hfits), Option.map_none]

theorem pfaInitRegions_of_not_hasMap (h : ¬ b.HasMap) :
  pfaInitRegions b = some []
  := by
  rw [pfaInitRegions, fillMemoryMap, if_pos (not_not.mp h)]
  rfl

/-! ### Regions that are memory -/

/-- Every region lies in an available entry, and the regions are disjoint. -/
def RealRam (b : Boot) : Prop :=
  ∃ rs, pfaInitRegions b = some rs ∧
    (∀ r ∈ rs, ∃ e ∈ b.available, ∀ x, r.Owns x → e.first ≤ x.toNat ∧ x.toNat < e.last) ∧
    rs.Pairwise fun r r' => ∀ x, ¬ (r.Owns x ∧ r'.Owns x)

/-- What is left of the entry reaches a page boundary; and if the module lies inside of it, so
do the parts before and after the module, and rounding cuts off what the latter has too
much. -/
def Sound (b : Boot) (e : Entry) : Prop :=
  restFirst b e ≤ 2 ^ 20 ∨
    if Split b e then
      up (restFirst b e) ≤ b.fsPaddr.toNat ∧ up b.fsEnd ≤ tailLast b e ∧
        down (tailLast b e) ≤ e.last
    else
      up (restFirst b e) ≤ restLast b e

theorem first_le_restFirst (h : b.WellFormed) :
  e.first ≤ restFirst b e
  := by
  rw [restFirst]
  split
  case isTrue hclip => apply hclip.1.trans h.kernel_le
  case isFalse hclip => apply le_rfl

theorem restLast_le_last :
  restLast b e ≤ e.last
  := by
  rw [restLast]
  split
  case isTrue hclip => apply Nat.le_add_left
  case isFalse hclip => apply le_rfl

theorem le_up (n : ℕ) :
  n ≤ up n
  := by
  rw [up]
  omega

theorem down_le (n : ℕ) :
  down n ≤ n
  := by
  rw [down]
  omega

/-- The points of an arc that does not wrap around. -/
theorem InArc.bounds {p q x : ℕ} (h : InArc (p % 2 ^ 32) (down q) x) (hpq : p ≤ q)
    (hq : q < 2 ^ 32) (hdvd : 4096 ∣ p) :
  p ≤ x ∧ x < down q
  := by
  rw [Nat.mod_eq_of_lt (by omega), InArc, if_pos] at h
  · apply h
  · obtain ⟨k, rfl⟩ := hdvd
    rw [down]
    omega

theorem dvd_up (n : ℕ) :
  4096 ∣ up n
  := Nat.dvd_mul_left _ _

/-- The regions of a sound entry lie in the entry and are disjoint. -/
theorem Sound.inside (hb : b.WellFormed) (he : e ∈ b.available) (h : Sound b e) :
  (∀ r ∈ (fillEntry b e).map alignRegion, ∀ x, r.Owns x → e.first ≤ x.toNat ∧ x.toNat < e.last) ∧
    ((fillEntry b e).map alignRegion).Pairwise fun r r' => ∀ x, ¬ (r.Owns x ∧ r'.Owns x)
  := by
  have hlast := hb.below e he
  have hfs := hb.fsEnd_lt
  have hfirst := first_le_restFirst (e := e) hb
  have hrest := restLast_le_last (b := b) (e := e)
  have hup := le_up (restFirst b e)
  have hup' := le_up b.fsEnd
  have hdown := down_le (restLast b e)
  have hdown' := down_le b.fsPaddr.toNat
  have hend : b.fsPaddr.toNat ≤ b.fsEnd := Nat.le_add_right _ _
  rcases fillEntry_spec hlast hfs with ⟨-, hnil⟩ | ⟨hlow, hsplit, r, r', hcons, hr, hr'⟩ |
    ⟨hlow, hsplit, r, hcons, hr⟩
  · rw [hnil]
    simp
  · rcases h with h | h
    · omega
    rw [if_pos hsplit] at h
    obtain ⟨hleft, hright, htail⟩ := h
    have htail' : tailLast b e < 2 ^ 32 := by
      rw [down] at htail
      omega
    rw [Nat.mod_eq_of_lt htail'] at hr'
    have hbounds : ∀ x, r.Owns x → restFirst b e ≤ x.toNat ∧ x.toNat < b.fsPaddr.toNat := by
      intro x hx
      have harc := ((hr x).mp hx).bounds hleft (by omega) (dvd_up _)
      omega
    have hbounds' : ∀ x, r'.Owns x → b.fsEnd ≤ x.toNat ∧ x.toNat < e.last := by
      intro x hx
      have harc := ((hr' x).mp hx).bounds hright htail' (dvd_up _)
      omega
    rw [hcons]
    have hfirst' := hsplit.1
    have hsecond' := hsplit.2
    constructor
    · simp only [List.forall_mem_cons, List.not_mem_nil, false_implies, implies_true, and_true]
      constructor
      · intro x hx
        have := hbounds x hx
        omega
      · intro x hx
        have := hbounds' x hx
        omega
    · simp only [List.pairwise_cons, List.mem_singleton, forall_eq, List.not_mem_nil,
        false_implies, implies_true, List.Pairwise.nil, and_true]
      rintro x ⟨hx, hx'⟩
      have h1 := hbounds x hx
      have h2 := hbounds' x hx'
      omega
  · rcases h with h | h
    · omega
    rw [if_neg hsplit] at h
    rw [hcons]
    constructor
    · simp only [List.forall_mem_cons, List.not_mem_nil, false_implies, implies_true, and_true]
      intro x hx
      have harc := ((hr x).mp hx).bounds h (by omega) (dvd_up _)
      omega
    · simp

/-- When every entry is sound, the regions are disjoint and lie in available entries. -/
theorem realRam_of_sound (h : b.WellFormed) (hfits : b.Fits)
    (hsound : ∀ e ∈ b.available, Sound b e) (hmap : b.HasMap) :
  RealRam b
  := by
  refine ⟨_, by rw [pfaInitRegions_eq h hmap, if_pos hfits], ?_, ?_⟩
  · intro r hr
    obtain ⟨e, he, hr⟩ := List.mem_flatMap.mp hr
    exact ⟨e, he, ((hsound e he).inside h he).1 r hr⟩
  · rw [List.pairwise_flatMap]
    constructor
    · intro e he
      apply ((hsound e he).inside h he).2
    · apply h.ascending.imp_of_mem
      rintro e e' he he' hle r hr r' hr' x ⟨hx, hx'⟩
      have h1 := ((hsound e he).inside h he).1 r hr x hx
      have h2 := ((hsound e' he').inside h he').1 r' hr' x hx'
      omega

/-- The condition under which the regions are memory that exists. -/
def AllSound (b : Boot) : Prop :=
  b.HasMap → b.Fits ∧ ∀ e ∈ b.available, Sound b e

/-- No entry reaches into the last page of the address space, and a module inside of what is
left of an entry does not end in the last page of the entry. -/
structure Clear (b : Boot) : Prop where
  last : ∀ e ∈ b.available, e.last ≤ 2 ^ 32 - 4096
  module : ∀ e ∈ b.available, Split b e → up b.fsEnd < e.last

/-- An arc of memory that exists does not wrap around. -/
theorem le_of_inside {p q : ℕ} {r : MemoryMap} (hb : b.WellFormed) (he : e ∈ b.available)
    (hr : ∀ x, r.Owns x ↔ InArc (p % 2 ^ 32) q x.toNat) (hp : p < 2 ^ 32)
    (hinside : ∀ x, r.Owns x → e.first ≤ x.toNat ∧ x.toNat < e.last) :
  p ≤ q
  := by
  by_contra hlt
  have htop : r.Owns 0xFFFFFFFF := by
    rw [hr, Nat.mod_eq_of_lt hp, InArc, if_neg hlt]
    left
    have : (0xFFFFFFFF : UInt32).toNat = 2 ^ 32 - 1 := rfl
    omega
  have hlast := (hinside _ htop).2
  have := hb.below e he
  have : (0xFFFFFFFF : UInt32).toNat = 2 ^ 32 - 1 := rfl
  omega

/-- The address `n` as a word. -/
theorem toNat_ofNat_of_lt {n : ℕ} (h : n < 2 ^ 32) :
  (UInt32.ofNat n).toNat = n
  := UInt32.toNat_ofNat_of_lt' h

/-- In memory without the exceptions of `Clear`, an entry of which all regions are memory that
exists is sound. -/
theorem sound_of_inside (hb : b.WellFormed) (hclear : Clear b) (he : e ∈ b.available)
    (hinside : ∀ r ∈ (fillEntry b e).map alignRegion, ∃ e' ∈ b.available,
      ∀ x, r.Owns x → e'.first ≤ x.toNat ∧ x.toNat < e'.last) :
  Sound b e
  := by
  have hlast := hclear.last e he
  have hfs := hb.fsEnd_lt
  have hfirst := first_le_restFirst (e := e) hb
  have hrest := restLast_le_last (b := b) (e := e)
  have hstart : restFirst b e ≤ e.last := by
    rw [restFirst]
    split
    case isTrue hclip => apply hclip.2.le
    case isFalse hclip => apply Nat.le_add_right
  have hupstart : up (restFirst b e) < 2 ^ 32 := by
    rw [up]
    omega
  rcases fillEntry_spec (hb.below e he) hfs with ⟨hlow, -⟩ |
    ⟨hlow, hsplit, r, r', hcons, hr, hr'⟩ | ⟨hlow, hsplit, r, hcons, hr⟩
  · left
    apply hlow
  · right
    have hfsend := hsplit.2
    have hupend : up b.fsEnd < e.last := hclear.module e he hsplit
    rw [hcons] at hinside
    simp only [List.forall_mem_cons, List.not_mem_nil, false_implies, implies_true,
      and_true] at hinside
    obtain ⟨⟨e₁, he₁, hin₁⟩, e₂, he₂, hin₂⟩ := hinside
    have hle₁ := le_of_inside hb he₁ hr hupstart hin₁
    have hle₂ := le_of_inside hb he₂ hr' (by omega) hin₂
    have hdown := down_le b.fsPaddr.toNat
    have hdown' := down_le (tailLast b e % 2 ^ 32)
    have hup := le_up b.fsEnd
    have htail : tailLast b e < 2 ^ 32 := by
      -- an end beyond `2 ^ 32` would wrap to before the module
      by_contra hge
      have : tailLast b e = b.fsEnd + (restLast b e - restFirst b e) := rfl
      omega
    rw [Nat.mod_eq_of_lt htail] at hle₂ hr' hdown'
    rw [if_pos hsplit]
    refine ⟨by omega, by omega, ?_⟩
    by_contra hgt
    have hmem : ∀ n, up b.fsEnd ≤ n → n < down (tailLast b e) → r'.Owns (UInt32.ofNat n) := by
      intro n hn hn'
      rw [hr', Nat.mod_eq_of_lt (by omega), InArc, if_pos hle₂, toNat_ofNat_of_lt (by omega)]
      exact ⟨hn, hn'⟩
    have hfrom := hin₂ _ (hmem (up b.fsEnd) le_rfl (by omega))
    have hto := hin₂ _ (hmem e.last (by omega) (by omega))
    rw [toNat_ofNat_of_lt (by omega)] at hfrom hto
    have hsplit' := hsplit.1
    have hend : b.fsPaddr.toNat ≤ b.fsEnd := Nat.le_add_right _ _
    rcases hb.eq_or_le he he₂ with rfl | hbelow | habove
    · omega
    · omega
    · omega
  · right
    rw [hcons] at hinside
    simp only [List.forall_mem_cons, List.not_mem_nil, false_implies, implies_true,
      and_true] at hinside
    obtain ⟨e₁, he₁, hin₁⟩ := hinside
    have hle₁ := le_of_inside hb he₁ hr hupstart hin₁
    rw [if_neg hsplit]
    apply hle₁.trans (down_le _)

/-- For every memory map with the kernel and the module in it, the regions of the allocator
are disjoint and lie in available entries if all entries are sound; and apart from the
exceptions of `Clear`, in which a wrong region may happen to be memory that exists, only if
they are. -/
theorem regions_real_ram (h : b.WellFormed) :
  (AllSound b → RealRam b) ∧ (Clear b → RealRam b → AllSound b)
  := by
  constructor
  · intro hsound
    by_cases hmap : b.HasMap
    · obtain ⟨hfits, hall⟩ := hsound hmap
      apply realRam_of_sound h hfits hall hmap
    · refine ⟨[], pfaInitRegions_of_not_hasMap hmap, ?_, List.Pairwise.nil⟩
      simp
  · rintro hclear ⟨rs, hrs, hinside, -⟩ hmap
    rw [pfaInitRegions_eq h hmap] at hrs
    by_cases hfits : b.Fits
    · refine ⟨hfits, ?_⟩
      rw [if_pos hfits, Option.some.injEq] at hrs
      subst hrs
      intro e he
      apply sound_of_inside h hclear he
      intro r hr
      apply hinside r (List.mem_flatMap.mpr ⟨e, he, hr⟩)
    · rw [if_neg hfits] at hrs
      cases hrs

/-- 3 MB of memory from 1 MB on, of which the code sees 2 MB, and a module at the start of
another entry. -/
def soundBoot : Boot where
  flags := 0x20
  entries := [⟨1, 0, 0x9FC00⟩, ⟨2, 0x9FC00, 0x400⟩, ⟨1, 0x100000, 0x200000⟩, ⟨1, 0x1000000, 0x100000⟩]
  kernelPhysicalStart := 0x100000
  kernelPhysicalEnd := 0x110000
  fsPaddr := 0x1000000
  fsSize := 0x10000

/-- 128 MB of memory with a module at 2 MB. -/
def splitBoot : Boot where
  flags := 0x20
  entries := [⟨1, 0, 0x9FC00⟩, ⟨2, 0x9FC00, 0x400⟩, ⟨1, 0x100000, 0x7EE0000⟩]
  kernelPhysicalStart := 0x100000
  kernelPhysicalEnd := 0x110000
  fsPaddr := 0x200000
  fsSize := 0x100000

theorem wellFormed_soundBoot :
  soundBoot.WellFormed
  := by
  constructor
  · decide
  · decide
  · decide
  · decide
  · decide

theorem wellFormed_splitBoot :
  splitBoot.WellFormed
  := by
  constructor
  · decide
  · decide
  · decide
  · decide
  · decide

theorem allSound_soundBoot :
  AllSound soundBoot
  := by
  intro _
  constructor
  · decide
  · intro e he
    fin_cases he
    · left
      decide
    · right
      decide
    · right
      decide

/-- The regions from the end of the kernel and of the entry of the module are memory. -/
theorem regions_real_ram_soundBoot :
  pfaInitRegions soundBoot = some [⟨0x110000, 0xF0000⟩, ⟨0x1000000, 0x100000⟩] ∧ RealRam soundBoot
  := ⟨by decide, (regions_real_ram wellFormed_soundBoot).1 allSound_soundBoot⟩

/-- The part after the module reaches beyond the end of the memory, which is `0x7FE0000`. -/
theorem split_region_beyond_ram :
  splitBoot.WellFormed ∧
    pfaInitRegions splitBoot = some [⟨0x110000, 0xF0000⟩, ⟨0x300000, 0x7DD0000⟩] ∧
    ¬ RealRam splitBoot
  := by
  have hregions : pfaInitRegions splitBoot
      = some [⟨0x110000, 0xF0000⟩, ⟨0x300000, 0x7DD0000⟩] := by decide
  refine ⟨wellFormed_splitBoot, hregions, ?_⟩
  rintro ⟨rs, hrs, hinside, -⟩
  obtain rfl := Option.some.inj (hregions.symm.trans hrs)
  obtain ⟨e, he, hin⟩ := hinside ⟨0x300000, 0x7DD0000⟩ (by decide)
  have hlast : ∀ e ∈ splitBoot.available, e.last ≤ 0x7FE0000 := by decide
  have hx := (hin 0x7FE0000 (by decide)).2
  have hle := hlast e he
  have hval : (0x7FE0000 : UInt32).toNat = 0x7FE0000 := rfl
  omega

/-! ### Regions that spare the kernel and the module -/

/-- No region meets the kernel or the module. -/
def SparesKernel (b : Boot) : Prop :=
  ∃ rs, pfaInitRegions b = some rs ∧ ∀ r ∈ rs, ∀ x, r.Owns x →
    ¬ (b.kernelPhysicalStart.toNat ≤ x.toNat ∧ x.toNat < b.kernelPhysicalEnd.toNat) ∧
    ¬ (b.fsPaddr.toNat ≤ x.toNat ∧ x.toNat < b.fsEnd)

/-- The kernel starts at 1 MB, and the module starts at a page and does not meet the kernel. -/
structure Boot.Loaded (b : Boot) : Prop extends b.WellFormed where
  start : b.kernelPhysicalStart = oneMb
  nonempty : b.kernelPhysicalStart < b.kernelPhysicalEnd
  aligned : 4096 ∣ b.fsPaddr.toNat
  disjoint : b.fsSize = 0 ∨ b.fsEnd ≤ b.kernelPhysicalStart.toNat ∨
    b.kernelPhysicalEnd.toNat ≤ b.fsPaddr.toNat

/-- The entry leaves the kernel and the module alone: if the module lies inside of what is left
of the entry, the part after it reaches a page boundary and goes no further than to 1 MB
beyond `2 ^ 32`; else what is left reaches a page boundary and the module lies before it, or
not before its last incomplete page; or it does not, and both the kernel and the module lie in
the gap that is left on the circle of addresses. -/
def Spared (b : Boot) (e : Entry) : Prop :=
  restFirst b e ≤ 2 ^ 20 ∨
    if Split b e then
      up b.fsEnd ≤ tailLast b e ∧ down (tailLast b e) ≤ 2 ^ 32 + 2 ^ 20
    else if up (restFirst b e) ≤ restLast b e then
      b.fsSize = 0 ∨ b.fsEnd ≤ restFirst b e ∨ down (restLast b e) ≤ b.fsPaddr.toNat
    else
      down (restLast b e) ≤ 2 ^ 20 ∧
        (b.fsSize = 0 ∨ (down (restLast b e) ≤ b.fsPaddr.toNat ∧ b.fsPaddr.toNat < restFirst b e))

/-- When an arc does not meet an interval. -/
theorem forall_inArc_iff {p q lo hi : ℕ} (hhi : hi ≤ 2 ^ 32) :
  (∀ x : UInt32, InArc p q x.toNat → ¬ (lo ≤ x.toNat ∧ x.toNat < hi)) ↔
    hi ≤ lo ∨ if p ≤ q then q ≤ p ∨ q ≤ lo ∨ hi ≤ p else q ≤ lo ∧ hi ≤ p
  := by
  constructor
  · intro h
    have hpoint : ∀ n < 2 ^ 32, InArc p q n → ¬ (lo ≤ n ∧ n < hi) := by
      intro n hn harc
      have := h (UInt32.ofNat n)
      rw [toNat_ofNat_of_lt hn] at this
      apply this harc
    simp only [InArc] at hpoint
    split
    case isTrue hpq =>
      simp only [if_pos hpq] at hpoint
      by_contra hne
      apply hpoint (max p lo)
      · omega
      · omega
      · omega
    case isFalse hpq =>
      simp only [if_neg hpq] at hpoint
      by_contra hne
      have hlo := hpoint lo
      have hhi' := hpoint (hi - 1)
      omega
  · intro h x harc hx
    rw [InArc] at harc
    split at harc
    case isTrue hpq =>
      rw [if_pos hpq] at h
      omega
    case isFalse hpq =>
      rw [if_neg hpq] at h
      omega

/-- What is left of an entry above 1 MB does not start before the end of the kernel, and a
module that starts before it also ends before it. -/
theorem Boot.Loaded.before (h : b.Loaded) (he : e ∈ b.available) (hlow : 2 ^ 20 < restFirst b e) :
  b.kernelPhysicalEnd.toNat ≤ restFirst b e ∧
    (b.fsSize ≠ 0 → b.fsPaddr.toNat < restFirst b e → b.fsEnd ≤ restFirst b e)
  := by
  have hstart : b.kernelPhysicalStart.toNat = 2 ^ 20 := by rw [h.start]; rfl
  have hdisjoint := h.disjoint
  obtain ⟨ek, hek, hkfirst, hklast⟩ := h.kernel
  obtain ⟨em, hem, hmfirst, hmlast⟩ := h.module
  rw [restFirst] at hlow ⊢
  split at hlow
  case isTrue hclip =>
    rw [if_pos hclip]
    refine ⟨le_rfl, ?_⟩
    intro hsize hlt
    have hle := h.kernel_le
    rcases hdisjoint with hzero | hbelow | habove
    · exact absurd hzero hsize
    · omega
    · omega
  case isFalse hclip =>
    rw [if_neg hclip]
    have hle : e.first ≤ e.last := Nat.le_add_right _ _
    constructor
    · rcases h.eq_or_le he hek with rfl | hbelow | habove
      · omega
      · omega
      · omega
    · intro _ hlt
      rcases h.eq_or_le he hem with rfl | hbelow | habove
      · omega
      · omega
      · omega

theorem exists_up (n : ℕ) :
  ∃ u, up n = 4096 * u ∧ n ≤ 4096 * u ∧ 4096 * u < n + 4096
  := by
  use (n + 4095) / 4096
  rw [up]
  omega

theorem exists_down (n : ℕ) :
  ∃ d, down n = 4096 * d ∧ 4096 * d ≤ n ∧ n < 4096 * d + 4096
  := by
  use n / 4096
  rw [down]
  omega

/-- The rest of an entry in one piece. -/
theorem spares_rest_iff {ke fs fe f l : ℕ} (hlow : 2 ^ 20 < f) (hk : 2 ^ 20 < ke) (hkf : ke ≤ f)
    (hf : f < 2 ^ 32) (hl : l < 2 ^ 32) (hfe : fe < 2 ^ 32) (hdvd : 4096 ∣ fs)
    (hbefore : fs < fe → fs < f → fe ≤ f) :
  (∀ x : UInt32, InArc (up f % 2 ^ 32) (down l) x.toNat →
      ¬ (2 ^ 20 ≤ x.toNat ∧ x.toNat < ke) ∧ ¬ (fs ≤ x.toNat ∧ x.toNat < fe)) ↔
    if up f ≤ l then fe ≤ fs ∨ fe ≤ f ∨ down l ≤ fs
    else down l ≤ 2 ^ 20 ∧ (fe ≤ fs ∨ (down l ≤ fs ∧ fs < f))
  := by
  simp only [imp_and, forall_and]
  rw [forall_inArc_iff (by omega), forall_inArc_iff (by omega)]
  obtain ⟨m, rfl⟩ := hdvd
  obtain ⟨u, hu, hfu, huf⟩ := exists_up f
  obtain ⟨d, hd, hdl, hld⟩ := exists_down l
  rw [hu, hd]
  rcases Nat.lt_or_ge (4096 * u) (2 ^ 32) with hlt | hge
  · rw [Nat.mod_eq_of_lt hlt]
    by_cases hle : 4096 * u ≤ l
    · rw [if_pos hle, if_pos (by omega), if_pos (by omega)]
      omega
    · rw [if_neg hle, if_neg (by omega), if_neg (by omega)]
      omega
  · -- the start wraps to address 0
    have hzero : 4096 * u % 2 ^ 32 = 0 := by omega
    rw [hzero, if_pos (Nat.zero_le _), if_pos (Nat.zero_le _), if_neg (by omega)]
    omega

/-- The rest of an entry around a module. -/
theorem spares_split_iff {ke fs fe f l : ℕ} (hlow : 2 ^ 20 < f) (hk : 2 ^ 20 < ke) (hkf : ke ≤ f)
    (hl : l < 2 ^ 32) (hfs : f < fs) (hfe : fs ≤ fe) (hfl : fe < l) (hdvd : 4096 ∣ fs) :
  (∀ x : UInt32, InArc (up f % 2 ^ 32) (down fs) x.toNat →
      ¬ (2 ^ 20 ≤ x.toNat ∧ x.toNat < ke) ∧ ¬ (fs ≤ x.toNat ∧ x.toNat < fe)) ∧
  ((∀ x : UInt32, InArc (up fe % 2 ^ 32) (down ((fe + (l - f)) % 2 ^ 32)) x.toNat →
      ¬ (2 ^ 20 ≤ x.toNat ∧ x.toNat < ke) ∧ ¬ (fs ≤ x.toNat ∧ x.toNat < fe)) ↔
    up fe ≤ fe + (l - f) ∧ down (fe + (l - f)) ≤ 2 ^ 32 + 2 ^ 20)
  := by
  simp only [imp_and, forall_and]
  rw [forall_inArc_iff (by omega), forall_inArc_iff (by omega), forall_inArc_iff (by omega),
    forall_inArc_iff (by omega)]
  obtain ⟨m, rfl⟩ := hdvd
  obtain ⟨u, hu, hfu, huf⟩ := exists_up f
  obtain ⟨v, hv, hfv, hvf⟩ := exists_up fe
  obtain ⟨d, hd, hdl, hld⟩ := exists_down (4096 * m)
  obtain ⟨k, hk', hkl, hlk⟩ := exists_down (fe + (l - f))
  constructor
  · rw [hu, hd, Nat.mod_eq_of_lt (by omega), if_pos (by omega), if_pos (by omega)]
    omega
  · rw [hv, hk']
    rcases Nat.lt_or_ge (fe + (l - f)) (2 ^ 32) with hlt | hge
    · rw [Nat.mod_eq_of_lt hlt, hk']
      rcases Nat.lt_or_ge (4096 * v) (2 ^ 32) with hvlt | hvge
      · rw [Nat.mod_eq_of_lt hvlt]
        by_cases hle : 4096 * v ≤ 4096 * k
        · rw [if_pos hle, if_pos hle]
          omega
        · rw [if_neg hle, if_neg hle]
          omega
      · have hzero : 4096 * v % 2 ^ 32 = 0 := by omega
        rw [hzero, if_pos (Nat.zero_le _), if_pos (Nat.zero_le _)]
        omega
    · -- the end wraps to below the module
      have hmod : (fe + (l - f)) % 2 ^ 32 = fe + (l - f) - 2 ^ 32 := by omega
      have hdown : down (fe + (l - f) - 2 ^ 32) = 4096 * k - 2 ^ 32 := by
        rw [down]
        omega
      rw [hmod, hdown]
      rcases Nat.lt_or_ge (4096 * v) (2 ^ 32) with hvlt | hvge
      · rw [Nat.mod_eq_of_lt hvlt, if_neg (by omega), if_neg (by omega)]
        omega
      · have hzero : 4096 * v % 2 ^ 32 = 0 := by omega
        rw [hzero, if_pos (Nat.zero_le _), if_pos (Nat.zero_le _)]
        omega

/-- The regions of an entry meet neither the kernel nor the module exactly when the entry
leaves them alone. -/
theorem spared_iff (h : b.Loaded) (he : e ∈ b.available) :
  Spared b e ↔ ∀ r ∈ (fillEntry b e).map alignRegion, ∀ x, r.Owns x →
    ¬ (b.kernelPhysicalStart.toNat ≤ x.toNat ∧ x.toNat < b.kernelPhysicalEnd.toNat) ∧
    ¬ (b.fsPaddr.toNat ≤ x.toNat ∧ x.toNat < b.fsEnd)
  := by
  have hlast := h.below e he
  have hfs := h.fsEnd_lt
  have hrest := restLast_le_last (b := b) (e := e)
  have hstart : b.kernelPhysicalStart.toNat = 2 ^ 20 := by rw [h.start]; rfl
  have hkernel : 2 ^ 20 < b.kernelPhysicalEnd.toNat := by
    rw [← hstart]
    apply UInt32.lt_iff_toNat_lt.mp h.nonempty
  have hend : b.fsPaddr.toNat ≤ b.fsEnd := Nat.le_add_right _ _
  have hsize : b.fsSize = 0 ↔ b.fsEnd ≤ b.fsPaddr.toNat := by
    rw [← UInt32.toNat_inj, UInt32.toNat_zero, Boot.fsEnd]
    omega
  rw [hstart, Spared]
  rcases fillEntry_spec hlast hfs with ⟨hlow, hnil⟩ | ⟨hlow, hsplit, r, r', hcons, hr, hr'⟩ |
    ⟨hlow, hsplit, r, hcons, hr⟩
  · rw [hnil, or_iff_left_of_imp fun _ => hlow]
    simp only [hlow, List.not_mem_nil, false_implies, implies_true]
  · obtain ⟨hkf, -⟩ := h.before he hlow
    obtain ⟨hleft, hright⟩ := spares_split_iff hlow hkernel hkf (hrest.trans_lt hlast) hsplit.1
      hend hsplit.2 h.aligned
    rw [hcons, if_pos hsplit, or_iff_right (not_le.mpr hlow), tailLast, ← hright]
    simp only [List.forall_mem_cons, List.not_mem_nil, false_implies, implies_true, and_true, hr, hr']
    constructor
    · intro hall
      exact ⟨hleft, hall⟩
    · intro hall
      exact hall.2
  · obtain ⟨hkf, hbefore⟩ := h.before he hlow
    have hfirst : restFirst b e < 2 ^ 32 := by
      have hk := b.kernelPhysicalEnd.toNat_lt
      have hle : e.first ≤ e.last := Nat.le_add_right _ _
      rw [restFirst]
      split
      · apply hk
      · omega
    have hbefore' : b.fsPaddr.toNat < b.fsEnd → b.fsPaddr.toNat < restFirst b e →
        b.fsEnd ≤ restFirst b e := by
      intro hlt
      apply hbefore
      rw [ne_eq, hsize]
      omega
    have hiff := spares_rest_iff hlow hkernel hkf hfirst (hrest.trans_lt hlast) hfs h.aligned hbefore'
    rw [hcons, if_neg hsplit, or_iff_right (not_le.mpr hlow), hsize, ← hiff]
    simp only [List.forall_mem_cons, List.not_mem_nil, false_implies, implies_true, and_true, hr]

/-- The condition under which the regions leave the kernel and the module alone. -/
def AllSpared (b : Boot) : Prop :=
  b.HasMap → b.Fits ∧ ∀ e ∈ b.available, Spared b e

/-- For every memory map with the kernel at 1 MB and a module at a page boundary, no region of
the allocator meets the kernel or the module exactly when every entry leaves them alone. -/
theorem regions_spare_kernel_iff (h : b.Loaded) :
  SparesKernel b ↔ AllSpared b
  := by
  constructor
  · rintro ⟨rs, hrs, hspare⟩ hmap
    rw [pfaInitRegions_eq h.toWellFormed hmap] at hrs
    by_cases hfits : b.Fits
    · refine ⟨hfits, ?_⟩
      rw [if_pos hfits, Option.some.injEq] at hrs
      subst hrs
      intro e he
      rw [spared_iff h he]
      intro r hr
      apply hspare r (List.mem_flatMap.mpr ⟨e, he, hr⟩)
    · rw [if_neg hfits] at hrs
      cases hrs
  · intro hall
    by_cases hmap : b.HasMap
    · obtain ⟨hfits, hspared⟩ := hall hmap
      refine ⟨_, by rw [pfaInitRegions_eq h.toWellFormed hmap, if_pos hfits], ?_⟩
      intro r hr
      obtain ⟨e, he, hr⟩ := List.mem_flatMap.mp hr
      apply (spared_iff h he).mp (hspared e he) r hr
    · refine ⟨[], pfaInitRegions_of_not_hasMap hmap, ?_⟩
      simp

theorem loaded_splitBoot :
  splitBoot.Loaded
  := by
  refine ⟨wellFormed_splitBoot, ?_, ?_, ?_, ?_⟩
  · decide
  · decide
  · decide
  · decide

/-- A module inside of its entry is left alone. -/
theorem regions_spare_kernel_iff_splitBoot :
  splitBoot.Loaded ∧ SparesKernel splitBoot
  := by
  refine ⟨loaded_splitBoot, (regions_spare_kernel_iff loaded_splitBoot).mpr ?_⟩
  intro _
  constructor
  · decide
  · intro e he
    fin_cases he
    · left
      decide
    · right
      decide

/-- 8 MB of memory, with the module from the end of the kernel on. -/
def adjacentBoot : Boot where
  flags := 0x20
  entries := [⟨1, 0, 0x9FC00⟩, ⟨2, 0x9FC00, 0x400⟩, ⟨1, 0x100000, 0x700000⟩]
  kernelPhysicalStart := 0x100000
  kernelPhysicalEnd := 0x110000
  fsPaddr := 0x110000
  fsSize := 0x10000

theorem loaded_adjacentBoot :
  adjacentBoot.Loaded
  := by
  refine ⟨⟨?_, ?_, ?_, ?_, ?_⟩, ?_, ?_, ?_, ?_⟩
  · decide
  · decide
  · decide
  · decide
  · decide
  · decide
  · decide
  · decide
  · decide

/-- A module right after the kernel is handed out as free memory. -/
theorem adjacent_module_in_region :
  adjacentBoot.Loaded ∧ pfaInitRegions adjacentBoot = some [⟨0x110000, 0x5F0000⟩] ∧
    ¬ SparesKernel adjacentBoot
  := by
  have hregions : pfaInitRegions adjacentBoot = some [⟨0x110000, 0x5F0000⟩] := by decide
  refine ⟨loaded_adjacentBoot, hregions, ?_⟩
  rintro ⟨rs, hrs, hspare⟩
  obtain rfl := Option.some.inj (hregions.symm.trans hrs)
  apply (hspare ⟨0x110000, 0x5F0000⟩ (by decide) 0x110000 (by decide)).2
  decide

end Pfa
