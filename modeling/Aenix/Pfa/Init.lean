import Aenix.Pfa.Bitmap
import Aenix.Pfa.Regions

/-!
# The initialisation of the allocator

`pfa_init` computes the regions, rounds them to pages and cuts the room for the bitmap off one of them.  When the
entries of the memory map are sound, the regions that are left are a frame map (`frameMap_of_cut`), whose frames are
in the regions that were there before.
-/

open Aenix

namespace Pfa

variable {b : Boot} {e : Entry} {r : MemoryMap} {rs rs' : List MemoryMap} {f l : ℕ}

/-- `pfa_init`, with `m` the memory that is mapped for the bitmap. -/
def pfaInit (s : Paging.State) (b : Boot) (m : Bytes.Memory) : Option (UInt32 × Paging.State) :=
  (pfaInitRegions b).map fun rs =>
    if rs = [] then (1, s) else constructBitmap { s with pfa := { s.pfa with mmap := rs } } m

/-! ### The regions of an entry -/

/-- A region of whole pages above 1 MB that lies in the entry. -/
structure Within (e : Entry) (r : MemoryMap) : Prop where
  aligned : 4096 ∣ r.addr.toNat ∧ 4096 ∣ r.len.toNat
  above : oneMb < r.addr
  first : e.first ≤ r.addr.toNat
  last : r.addr.toNat + r.len.toNat ≤ e.last

/-- A region that reaches a page boundary is rounded to its pages. -/
theorem toNat_alignRegion (hf : r.addr.toNat = f) (hl : (r.addr + r.len).toNat = l) (hle : up f ≤ l) :
  (alignRegion r).addr.toNat = up f ∧ up f + (alignRegion r).len.toNat = down l
  := by
  have hlt : l < 2 ^ 32 := hl ▸ UInt32.toNat_lt _
  obtain ⟨u, hu, hfu, huf⟩ := exists_up f
  have haddr : (alignUp r.addr fourKb).toNat = up f := by
    rw [toNat_alignUp, hf, Nat.mod_eq_of_lt (by omega)]
  have hsub : r.len - (alignUp r.addr fourKb - r.addr) = (r.addr + r.len) - alignUp r.addr fourKb := by grind
  have hlen : (r.addr + r.len - alignUp r.addr fourKb).toNat = l - up f := by
    rw [UInt32.toNat_sub_of_le, hl, haddr]
    rw [UInt32.le_iff_toNat_le, hl, haddr]
    exact hle
  refine ⟨haddr, ?_⟩
  rw [alignRegion, hsub]
  simp only [toNat_alignDown, hlen]
  rw [hu, down, down]
  omega

theorem Within.alignRegion (hf : r.addr.toNat = f) (hl : (r.addr + r.len).toNat = l) (hle : up f ≤ l)
    (hlow : 2 ^ 20 < f) (hfirst : e.first ≤ f) (hlast : down l ≤ e.last) :
  Within e (alignRegion r)
  := by
  obtain ⟨haddr, hlen⟩ := toNat_alignRegion hf hl hle
  obtain ⟨u, hu, hfu, huf⟩ := exists_up f
  obtain ⟨d, hd, hdl, hld⟩ := exists_down l
  refine ⟨⟨?_, ?_⟩, ?_, ?_, ?_⟩
  · omega
  · omega
  · rw [UInt32.lt_iff_toNat_lt, toNat_oneMb, haddr]
    omega
  · omega
  · omega

/-- The regions of a sound entry ascend in it. -/
theorem Sound.within (hb : b.WellFormed) (he : e ∈ b.available) (h : Sound b e) :
  (∀ r ∈ (fillEntry b e).map alignRegion, Within e r) ∧
    ((fillEntry b e).map alignRegion).Pairwise fun r r' => r.addr.toNat + r.len.toNat ≤ r'.addr.toNat
  := by
  have hlast := hb.below e he
  have hfs := hb.fsEnd_lt
  have hfirst := first_le_restFirst (e := e) hb
  have hrest := restLast_le_last (b := b) (e := e)
  have hend : b.fsPaddr.toNat ≤ b.fsEnd := Nat.le_add_right _ _
  rcases fillEntry_cases hlast hfs with ⟨-, hnil⟩ | ⟨hlow, hsplit, r, r', hcons, ⟨haddr, hl⟩, haddr', hl'⟩ |
    ⟨hlow, hsplit, r, hcons, haddr, hl⟩
  · simp [hnil]
  · rw [Sound, or_iff_right (not_le.mpr hlow), if_pos hsplit] at h
    obtain ⟨hleft, hright, htail⟩ := h
    obtain ⟨hsplit, hsplit'⟩ := hsplit
    have htail' : tailLast b e < 2 ^ 32 := by
      rw [down] at htail
      omega
    rw [Nat.mod_eq_of_lt htail'] at hl'
    have hdown := down_le b.fsPaddr.toNat
    have hup := le_up b.fsEnd
    rw [hcons]
    simp only [List.map_cons, List.map_nil, List.forall_mem_cons, List.not_mem_nil, false_implies, implies_true,
      and_true, List.pairwise_cons, List.Pairwise.nil]
    refine ⟨⟨?_, ?_⟩, ?_⟩
    · exact Within.alignRegion haddr hl hleft hlow hfirst (by omega)
    · exact Within.alignRegion haddr' hl' hright (by omega) (by omega) htail
    · obtain ⟨hstart, hlen⟩ := toNat_alignRegion haddr hl hleft
      obtain ⟨hstart', -⟩ := toNat_alignRegion haddr' hl' hright
      omega
  · rw [Sound, or_iff_right (not_le.mpr hlow), if_neg hsplit] at h
    have hdown := down_le (restLast b e)
    rw [hcons]
    simp only [List.map_cons, List.map_nil, List.forall_mem_singleton, List.pairwise_singleton, and_true]
    exact Within.alignRegion haddr hl h hlow hfirst (by omega)

/-- The regions when every entry is sound. -/
theorem pfaInitRegions_within (hb : b.WellFormed) (hmap : b.HasMap) (hsound : ∀ e ∈ b.available, Sound b e)
    (hrs : pfaInitRegions b = some rs) :
  (∀ r ∈ rs, ∃ e ∈ b.available, Within e r) ∧ Frames.Ascending (rs.map MemoryMap.region)
  := by
  rw [pfaInitRegions_eq hb hmap] at hrs
  split at hrs
  case isFalse => simp at hrs
  obtain rfl := Option.some.inj hrs
  constructor
  · intro r hr
    obtain ⟨e, he, hr⟩ := List.mem_flatMap.mp hr
    exact ⟨e, he, ((hsound e he).within hb he).1 r hr⟩
  · rw [Frames.Ascending, List.pairwise_map, List.pairwise_flatMap]
    constructor
    · exact fun e he => ((hsound e he).within hb he).2
    · apply hb.ascending.imp_of_mem
      intro e e' he he' hle r hr r' hr'
      have hlast := (((hsound e he).within hb he).1 r hr).last
      have hfirst := (((hsound e' he').within hb he').1 r' hr').first
      show r.addr.toNat + r.len.toNat ≤ r'.addr.toNat
      omega

/-! ### The bitmap -/

/-- One region is cut, the others stay. -/
theorem cutBitmap_spec {bytes p : UInt32} (h : cutBitmap bytes rs = (some p, rs')) :
  ∃ pre r post, rs = pre ++ r :: post ∧ bytes ≤ r.len ∧ p = r.addr ∧
    rs' = pre ++ ⟨r.addr + bytes, r.len - bytes⟩ :: post
  := by
  induction rs generalizing rs' with
  | nil => simp [cutBitmap] at h
  | cons r rs ih =>
      rw [cutBitmap] at h
      split at h
      case isTrue hle =>
        obtain ⟨hp, rfl⟩ := Prod.mk.inj h
        exact ⟨[], r, rs, rfl, hle, (Option.some.inj hp).symm, rfl⟩
      case isFalse =>
        dsimp only at h
        obtain ⟨hp, rfl⟩ := Prod.mk.inj h
        obtain ⟨pre, r', post, hrs, hle, hp, hcut⟩ := ih (Prod.ext hp rfl)
        refine ⟨r :: pre, r', post, by rw [hrs, List.cons_append], hle, hp, ?_⟩
        exact congrArg (r :: ·) hcut

/-- A region with room is found. -/
theorem exists_cutBitmap {bytes : UInt32} (h : ∃ r ∈ rs, bytes ≤ r.len) :
  ∃ p rs', cutBitmap bytes rs = (some p, rs')
  := by
  induction rs with
  | nil => simp at h
  | cons r rs ih =>
      rw [cutBitmap]
      split
      case isTrue => exact ⟨_, _, rfl⟩
      case isFalse hlt =>
        obtain ⟨q, hq, hle⟩ := h
        rcases List.mem_cons.mp hq with rfl | hq
        · exact absurd hle hlt
        · obtain ⟨p, rs', heq⟩ := ih ⟨q, hq, hle⟩
          rw [heq]
          exact ⟨p, _, rfl⟩

/-- A region whose beginning has been cut off lies in the region. -/
theorem cut_region {bytes : UInt32} (hle : bytes ≤ r.len) (hlt : r.addr.toNat + r.len.toNat < 2 ^ 32) :
  (r.addr + bytes).toNat = r.addr.toNat + bytes.toNat ∧ (r.len - bytes).toNat = r.len.toNat - bytes.toNat
  := by
  have hle' := UInt32.le_iff_toNat_le.mp hle
  rw [UInt32.toNat_add, UInt32.toNat_sub_of_le _ _ hle]
  omega

/-- When the room for the bitmap has been cut off, the regions are a frame map. -/
theorem frameMap_of_cut {pages p len : UInt32} (start : ℕ → UInt32)
    (haligned : ∀ r ∈ rs, 4096 ∣ r.addr.toNat ∧ 4096 ∣ r.len.toNat)
    (habove : ∀ r ∈ rs, oneMb < r.addr) (hbelow : ∀ r ∈ rs, r.addr.toNat + r.len.toNat < 2 ^ 32)
    (hasc : Frames.Ascending (rs.map MemoryMap.region)) (hpages : pages.toNat < 2 ^ 20)
    (hcut : cutBitmap (pages * fourKb) rs = (some p, rs'))
    (hlen : (rs.map fun r => r.len.toNat).sum = (pages.toNat + len.toNat) * 4096) (hpos : 0 < len) :
  FrameMap ⟨start, len, rs'⟩ ∧ ∀ x ∈ framesOf rs', ∃ r ∈ rs, r.addr.toNat ≤ x ∧ x < r.addr.toNat + r.len.toNat
  := by
  obtain ⟨pre, r, post, rfl, hle, -, rfl⟩ := cutBitmap_spec hcut
  have hbytes : (pages * fourKb).toNat = 4096 * pages.toNat := by
    rw [UInt32.toNat_mul, toNat_fourKb]
    omega
  have hlt := hbelow r (by simp)
  obtain ⟨haddr, hrest⟩ := cut_region hle hlt
  have hle' := UInt32.le_iff_toNat_le.mp hle
  rw [hbytes] at haddr hrest hle'
  obtain ⟨hdvd, hdvd'⟩ := haligned r (by simp)
  have hother : ∀ q, q ∈ pre ++ (⟨r.addr + pages * fourKb, r.len - pages * fourKb⟩ : MemoryMap) :: post →
      q = ⟨r.addr + pages * fourKb, r.len - pages * fourKb⟩ ∨ q ∈ pre ++ r :: post := by
    intro q hq
    simp only [List.mem_append, List.mem_cons] at hq ⊢
    rcases hq with hq | rfl | hq
    · exact Or.inr (Or.inl hq)
    · exact Or.inl rfl
    · exact Or.inr (Or.inr (Or.inr hq))
  constructor
  · refine ⟨?_, ?_, ?_, ?_, ?_, hpos⟩
    · intro q hq
      rcases hother q hq with rfl | hq
      · simp only [haddr, hrest]
        omega
      · exact haligned q hq
    · simp only [List.map_append, List.map_cons, Frames.Ascending, List.pairwise_append, List.pairwise_cons,
        List.mem_cons, forall_eq_or_imp] at hasc ⊢
      obtain ⟨hpre, ⟨hr, hpost⟩, hboth⟩ := hasc
      simp only [MemoryMap.region] at hr hboth ⊢
      refine ⟨hpre, ⟨?_, hpost⟩, ?_⟩
      · intro q hq
        have hle := hr q hq
        omega
      · intro q hq
        obtain ⟨hle, hlate⟩ := hboth q hq
        refine ⟨by omega, hlate⟩
    · intro q hq
      rcases hother q hq with rfl | hq
      · have hlow := UInt32.lt_iff_toNat_lt.mp (habove r (by simp))
        rw [UInt32.lt_iff_toNat_lt, haddr]
        omega
      · exact habove q hq
    · intro q hq
      rcases hother q hq with rfl | hq
      · rw [haddr, hrest]
        omega
      · exact hbelow q hq
    · simp only [List.map_append, List.map_cons, List.sum_append, List.sum_cons, hrest] at hlen ⊢
      omega
  · intro x hx
    obtain ⟨_, hregion, k, hk, rfl⟩ := Frames.mem_frames.mp hx
    obtain ⟨q, hmem, rfl⟩ := List.mem_map.mp hregion
    have hkq : 4096 * k < q.len.toNat := by
      have hlt : k < q.len.toNat / 4096 := hk
      omega
    show ∃ r' ∈ pre ++ r :: post, r'.addr.toNat ≤ q.addr.toNat + 4096 * k ∧
      q.addr.toNat + 4096 * k < r'.addr.toNat + r'.len.toNat
    rcases hother q hmem with rfl | hq
    · rw [hrest] at hkq
      refine ⟨r, by simp, ?_⟩
      rw [haddr]
      omega
    · exact ⟨q, hq, by omega⟩

/-- The frames that `construct_bitmap` takes for the bitmap of the regions, and the number of those that are left. -/
abbrev bitmapPfs (rs : List MemoryMap) : UInt32 :=
  divCeil (divCeil (totalPfs rs) 8) fourKb

abbrev restLen (rs : List MemoryMap) : UInt32 :=
  totalPfs rs - bitmapPfs rs

/-- `construct_bitmap` succeeds when there is room for the bitmap and it can be mapped. -/
theorem constructBitmap_run {s s' : Paging.State} {p v mapped : UInt32}
    (hcut : cutBitmap (bitmapPfs s.pfa.mmap * fourKb) s.pfa.mmap = (some p, rs'))
    (hfind : Paging.pdtKernelFindNextVaddr { s with pfa := ⟨s.pfa.start, restLen s.pfa.mmap, rs'⟩ }
      (divCeil (restLen s.pfa.mmap) 8) = (v, { s with pfa := ⟨s.pfa.start, restLen s.pfa.mmap, rs'⟩ })) (hv : v ≠ 0)
    (hmap : Paging.pdtMapKernelMemory { s with pfa := ⟨s.pfa.start, restLen s.pfa.mmap, rs'⟩ } p v
      (divCeil (restLen s.pfa.mmap) 8) Paging.pagingPl0 Paging.pagingReadWrite = (mapped, s'))
    (hmapped : divCeil (restLen s.pfa.mmap) 8 ≤ mapped) (m : Bytes.Memory) :
  ∃ start, constructBitmap s m = (0, { s' with pfa := { s'.pfa with start := start } })
  := by
  simp only [constructBitmap, hcut, hfind, if_neg hv, hmap, if_neg (UInt32.not_lt.mpr hmapped)]
  exact ⟨_, rfl⟩

end Pfa
