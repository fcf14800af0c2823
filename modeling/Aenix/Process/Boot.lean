import Aenix.Paging.Loader
import Aenix.Pfa.Init
import Aenix.Process.Isolation

/-!
# From the loader to the first process

The loader leaves page tables in which the directory of the kernel has one page table, and `pfa_init` maps the bitmap
in it.  On a machine whose memory map is sound and spares the kernel, this is the state from which the isolation of
processes is shown (`booted_of_boot`).
-/

open Aenix
open Paging hiding Call exec Step

namespace Process

variable {b : Pfa.Boot} {m : UInt32 → UInt32} {bits : Bytes.Memory} {e pt v size : UInt32} {n p : ℕ} {s s' : State}

/-! ### The allocator -/

/-- The machine: the memory map is well formed, its entries are sound, and the regions fit into `mmap`; the kernel is
loaded at 1 MB and spared, with its page tables in it; one region has room for the bitmap, and frames are left then; and
32 pages of the page table are left for the bitmap. -/
structure Machine (b : Pfa.Boot) (pt : UInt32) : Prop where
  loaded : b.Loaded
  hasMap : b.HasMap
  fits : b.Fits
  sound : ∀ e ∈ b.available, Pfa.Sound b e
  spared : ∀ e ∈ b.available, Pfa.Spared b e
  bitmap : ∀ rs, Pfa.pfaInitRegions b = some rs →
    0 < Pfa.managed rs ∧ ∃ r ∈ rs, Pfa.bitmapPfs rs * fourKb ≤ r.len
  placed : Placed b.kernelPhysicalEnd pt
  above : b.kernelPhysicalStart ≤ pt
  room : ptRounds b.kernelPhysicalEnd + 32 ≤ kernelTmpPtIdx

/-- The regions are above 1 MB, and the frames in them are not the kernel's. -/
theorem Machine.regions (h : Machine b pt) {rs : List Pfa.MemoryMap} (hrs : Pfa.pfaInitRegions b = some rs) :
  Pfa.Regions rs ∧ (∀ r ∈ rs, oneMb < r.addr) ∧ (∀ r ∈ rs, r.addr.toNat + r.len.toNat < 2 ^ 32) ∧
    ∀ r ∈ rs, ∀ x : UInt32, r.addr.toNat ≤ x.toNat → x.toNat < r.addr.toNat + r.len.toNat →
      ¬ (b.kernelPhysicalStart.toNat ≤ x.toNat ∧ x.toNat < b.kernelPhysicalEnd.toNat)
  := by
  have hb := h.loaded.toWellFormed
  obtain ⟨hwithin, hasc⟩ := Pfa.pfaInitRegions_within hb h.hasMap h.sound hrs
  have hbelow : ∀ r ∈ rs, r.addr.toNat + r.len.toNat < 2 ^ 32 := by
    intro r hr
    obtain ⟨e, he, hin⟩ := hwithin r hr
    exact hin.last.trans_lt (hb.below e he)
  refine ⟨⟨fun r hr => ?_, hasc, fun r hr => (hbelow r hr).le⟩, fun r hr => ?_, hbelow, ?_⟩
  · obtain ⟨e, he, hin⟩ := hwithin r hr
    exact hin.aligned
  · obtain ⟨e, he, hin⟩ := hwithin r hr
    exact hin.above
  · intro r hr x hle hlt
    rw [Pfa.pfaInitRegions_eq hb h.hasMap] at hrs
    split at hrs
    case isFalse => simp at hrs
    obtain rfl := Option.some.inj hrs
    obtain ⟨e, he, hr⟩ := List.mem_flatMap.mp hr
    refine ((Pfa.spared_iff h.loaded he).mp (h.spared e he) r hr x ?_).1
    rw [Pfa.MemoryMap.Owns, UInt32.lt_iff_toNat_lt, UInt32.toNat_sub_of_le _ _ (UInt32.le_iff_toNat_le.mpr hle)]
    omega

/-- The kernel's page table and its directory behind it are in the kernel. -/
theorem Machine.tables (h : Machine b pt) :
  (b.kernelPhysicalStart.toNat ≤ pt.toNat ∧ pt.toNat < b.kernelPhysicalEnd.toNat) ∧
    b.kernelPhysicalStart.toNat ≤ (pt + fourKb).toNat ∧ (pt + fourKb).toNat < b.kernelPhysicalEnd.toNat
  := by
  have habove := UInt32.le_iff_toNat_le.mp h.above
  have hinside := h.placed.inside
  have hpdt := h.placed.toNat_pdt
  omega

/-- `pfa_init` succeeds after the loader, and leaves the directory as it was. -/
theorem Machine.init (h : Machine b pt) (hboots : Boots s pt (ptRounds b.kernelPhysicalEnd)) (bits : Bytes.Memory) :
  ∃ s', Pfa.pfaInit s b bits = some (0, s') ∧ Pfa.FrameMap s'.pfa ∧ SameVars s s' ∧
    (∀ i < 1024, s'.mem s.kernelPdt i = s.mem s.kernelPdt i) ∧
    s.kernelPdt.toNat ∉ s'.pfa.frames ∧ s.kernelPt.toNat ∉ s'.pfa.frames
  := by
  obtain ⟨rs, hrs⟩ : ∃ rs, Pfa.pfaInitRegions b = some rs :=
    ⟨_, (Pfa.pfaInitRegions_eq h.loaded.toWellFormed h.hasMap).trans (if_pos h.fits)⟩
  obtain ⟨hregions, habove, hbelow, hspared⟩ := h.regions hrs
  obtain ⟨hpt, hpdt⟩ := h.tables
  obtain ⟨hpos, hbitmap⟩ := h.bitmap rs hrs
  obtain ⟨p, rs', hcut⟩ := Pfa.exists_cutBitmap hbitmap
  have hlen : (Pfa.restLen rs).toNat = Pfa.managed rs := hregions.toNat_len hpos
  have hle := hregions.length_le
  have hmanaged : Pfa.managed rs = (Pfa.framesOf rs).length - ((Pfa.framesOf rs).length + 32767) / 32768 := rfl
  have hpfs : (Pfa.bitmapPfs rs).toNat = ((Pfa.framesOf rs).length + 32767) / 32768 :=
    hregions.toNat_bitmapPfs (by omega)
  have hmul := hregions.mul_length
  have hpos' : 0 < Pfa.restLen rs := by
    rw [UInt32.lt_iff_toNat_lt, hlen]
    exact hpos
  have hframes : ∀ start, Pfa.FrameMap ⟨start, Pfa.restLen rs, rs'⟩ ∧
      ∀ f : UInt32, b.kernelPhysicalStart.toNat ≤ f.toNat → f.toNat < b.kernelPhysicalEnd.toNat →
        f.toNat ∉ Pfa.framesOf rs' := by
    intro start
    obtain ⟨hmap, hin⟩ := Pfa.frameMap_of_cut start hregions.aligned habove hbelow hregions.ascending
      (by omega) hcut (by rw [hlen, hpfs]; omega) hpos'
    refine ⟨hmap, fun f hfirst hlast hf => ?_⟩
    obtain ⟨r, hr, hle, hlt⟩ := hin _ hf
    exact hspared r hr f hle hlt ⟨hfirst, hlast⟩
  -- the bitmap, of at most 32 pages, is mapped behind the kernel
  set s₀ : State := { s with pfa := ⟨s.pfa.start, Pfa.restLen rs, rs'⟩ }
  have hboots₀ : Boots s₀ pt (ptRounds b.kernelPhysicalEnd) :=
    ⟨hboots.kernelPdt, hboots.kernelPt, hboots.cr3, hboots.dir, hboots.table⟩
  obtain ⟨hpfa₀, hkernel₀⟩ := hframes s.pfa.start
  have hpdt₀ : s.kernelPdt.toNat ∉ Pfa.framesOf rs' := by
    rw [hboots.kernelPdt]
    exact hkernel₀ _ hpdt.1 hpdt.2
  have hpt₀ : s.kernelPt.toNat ∉ Pfa.framesOf rs' := by
    rw [hboots.kernelPt]
    exact hkernel₀ _ hpt.1 hpt.2
  have hseparate : Separate s₀ s₀.kernelPdt := hboots₀.separate h.placed.dvd (hboots₀.ne h.placed)
    (fun hin => hpdt₀ (Pfa.free_subset_frames hin)) (fun hin => hpt₀ (Pfa.free_subset_frames hin))
  have hsize : (divCeil (Pfa.restLen rs) 8).toNat = (Pfa.managed rs - 1) / 8 + 1 := by
    rw [toNat_divCeil (by omega), hlen]
    rfl
  have hpages : pages (divCeil (Pfa.restLen rs) 8) ≤ 32 ∧ 0 < pages (divCeil (Pfa.restLen rs) 8) := by
    rw [pages_eq (by omega), hsize]
    omega
  have hmapped : divCeil (Pfa.restLen rs) 8 ≤ alignUp (divCeil (Pfa.restLen rs) 8) fourKb := by
    rw [UInt32.le_iff_toNat_le, toNat_alignUp_fourKb, pages_eq (by omega)]
    omega
  have hroom := h.room
  obtain ⟨v, s₁, hne, hfind, hmap, hsame, hvars, hdir⟩ := hboots₀.find_map h.placed.dvd hpfa₀ hseparate hpages.2
    (by omega) p pagingPl0 pagingReadWrite
  obtain ⟨start, hrun⟩ := Pfa.constructBitmap_run (s := { s with pfa := { s.pfa with mmap := rs } }) hcut hfind hne hmap
    hmapped bits
  have hmmap : s₁.pfa.mmap = rs' := hsame.mmap
  have hlen' : s₁.pfa.len = Pfa.restLen rs := hsame.len
  have hnil : rs ≠ [] := by
    rintro rfl
    simp [Pfa.managed, Pfa.framesOf, Frames.frames] at hpos
  refine ⟨{ s₁ with pfa := { s₁.pfa with start := start } }, ?_, ?_, ⟨hvars.kernelPdt, hvars.kernelPt, hvars.cr3⟩, hdir,
    ?_, ?_⟩
  · rw [Pfa.pfaInit, hrs, Option.map_some, if_neg hnil, hrun]
  · show Pfa.FrameMap ⟨start, s₁.pfa.len, s₁.pfa.mmap⟩
    rw [hmmap, hlen']
    exact (hframes start).1
  · show s.kernelPdt.toNat ∉ Pfa.framesOf s₁.pfa.mmap
    rw [hmmap]
    exact hpdt₀
  · show s.kernelPt.toNat ∉ Pfa.framesOf s₁.pfa.mmap
    rw [hmmap]
    exact hpt₀

/-- On a machine whose memory map is sound and spares the kernel, the loader and `pfa_init` succeed, and they leave the
state from which processes are kept apart: one page table for the kernel, which nothing else may use. -/
theorem booted_of_boot (h : Machine b pt) (himage : KernelImage m pt) (pfa : Pfa.State) (bits : Bytes.Memory) :
  ∃ s s', loader pfa b.kernelPhysicalEnd pt m 1024 = some s ∧ Pfa.pfaInit s b bits = some (0, s') ∧
    ∀ heap : Kmalloc.Heap State, heap.kernel = s' → heap.acquired = [] → Booted heap
  := by
  have hroom := h.room
  have hdvd := h.placed.dvd
  obtain ⟨s, hs, -, hboots⟩ := loader_boots pfa h.placed himage
    (show ptRounds b.kernelPhysicalEnd ≤ 1024 by rw [kernelTmpPtIdx] at hroom; omega)
  obtain ⟨s', hinit, hpfa, hvars, hdir, hpdt, hpt⟩ := h.init hboots bits
  refine ⟨s, s', hs, hinit, ?_⟩
  rintro heap rfl hacquired
  have hdir' : ∀ i < 1024, heap.kernel.mem heap.kernel.kernelPdt i =
      if i = kernelPdtIdx then createPdtEntry pt ps4Kb pagingReadWrite pagingPl0 else Entry.zero := by
    intro i hi
    rw [hvars.kernelPdt, hdir i hi, hboots.dir i hi]
  have hfirst := hdir' kernelPdtIdx (by decide)
  rw [if_pos rfl] at hfirst
  refine ⟨hpfa, by rwa [hvars.kernelPdt], by rwa [hvars.kernelPt], ?_, ?_, ?_, ?_, hacquired⟩
  · rw [hvars.kernelPdt, hvars.kernelPt]
    exact hboots.ne h.placed
  · intro i hi
    rw [State.has, hdir' i hi]
    split
    case isTrue heq => simp [heq]
    case isFalse hother => simp [hother]
  · rw [State.table, hfirst, paddr_createPdtEntry hdvd, hvars.kernelPt, hboots.kernelPt]
  · rw [hfirst, user_createPdtEntry_pl0]

/-! ### A machine -/

namespace Boot

/-- 8 MB of memory, with a module of 32 KB behind the kernel. -/
def machine : Pfa.Boot where
  flags := 0x20
  entries := [⟨1, 0, 0x9FC00⟩, ⟨2, 0x9FC00, 0x400⟩, ⟨1, 0x100000, 0x700000⟩]
  kernelPhysicalStart := 0x100000
  kernelPhysicalEnd := 0x110000
  fsPaddr := 0x111000
  fsSize := 0x8000

theorem machine_spec :
  Machine machine 0x101000
  := by
  have hwf : machine.WellFormed := ⟨by decide, by decide, by decide, by decide, by decide⟩
  have hregions : Pfa.pfaInitRegions machine = some [⟨0x110000, 0x1000⟩, ⟨0x119000, 0x5F0000⟩] := by decide
  have hmap : machine.flags &&& 0x20 ≠ 0 := by decide
  refine ⟨⟨hwf, by decide, by decide, by decide, by decide⟩, hmap, by decide, ?_, ?_, ?_, ?_, by decide, by decide⟩
  · intro e he
    fin_cases he
    · left
      decide
    · right
      decide
  · intro e he
    fin_cases he
    · left
      decide
    · right
      decide
  · intro rs hrs
    obtain rfl := Option.some.inj (hregions.symm.trans hrs)
    rw [Pfa.managed, Pfa.length_framesOf_cons, Pfa.length_framesOf_cons]
    exact ⟨by decide, by decide⟩
  · exact ⟨by decide, by decide, by decide⟩

end Boot

/-- The machine boots. -/
theorem booted_of_boot_machine :
  ∃ s s', loader ⟨fun _ => 0, 0, []⟩ 0x110000 0x101000 bareImage 1024 = some s ∧
    Pfa.pfaInit s Boot.machine (fun _ => 0) = some (0, s') ∧ Booted { Boot.heap with kernel := s' }
  := by
  obtain ⟨s, s', hs, hinit, hbooted⟩ :=
    booted_of_boot Boot.machine_spec kernelImage_bareImage ⟨fun _ => 0, 0, []⟩ fun _ => 0
  exact ⟨s, s', hs, hinit, hbooted _ rfl rfl⟩

end Process
