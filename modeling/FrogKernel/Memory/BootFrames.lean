import FrogKernel.Memory.PmmInit

/-!
# The frames that are free at boot

`Offered` reads the free frames off the multiboot tags and the kernel image,
and `SafeFrame` says what a frame given to a caller must be: memory, and nothing
that is still in use.  The initial ramdisk is in use until `initrd_remap` has
copied it, and no `pmm_mark_used` is about it.
-/

namespace FrogKernel.PmmInit

open FrogKernel.Pmm FrogKernel.Pages FrogKernel.PageTables FrogKernel.Paging FrogKernel.Runs
open FrogKernel.Initrd (InitrdT)
open FrogKernel.Kheap (add32 sub32 add32_lt)

/-! ## Accepted boots -/

/-- A boot with all three tags. -/
structure BootInfo where
  kernel : KernelImage
  tags : List Tag
  entries : List MmapEntry
  modTag : ModuleTag
  fbTag : FramebufferTag
  mmap_eq : mmapTag tags = some entries
  module_eq : moduleTag tags = some modTag
  fb_eq : framebufferTag tags = some fbTag

/-- Every boot that does not panic is one. -/
theorem exists_bootInfo {kernel : KernelImage} {tags : List Tag} {mem : Bitmap} {s : Booted}
    (h : boot kernel tags mem = some s) : ∃ b : BootInfo, b.kernel = kernel ∧ b.tags = tags := by
  cases hmmap : mmapTag tags with
  | none => simp [boot, mmapInit, hmmap] at h
  | some entries =>
    cases hmodule : moduleTag tags with
    | none => simp [boot, initrdInit, hmodule] at h
    | some modTag =>
      cases hfb : framebufferTag tags with
      | none => simp [boot, fbParseTag, hfb] at h
      | some fbTag => exact ⟨⟨kernel, tags, entries, modTag, fbTag, hmmap, hmodule, hfb⟩, rfl, rfl⟩

/-- What `mmap_init` looks at below 4 GiB. -/
def isLow (e : MmapEntry) : Bool := e.baseAddr < 2 ^ 32
def isUsable (e : MmapEntry) : Bool := e.type = 1 ∧ e.baseAddr < 2 ^ 32

namespace BootInfo

variable (b : BootInfo)

/-- The entries that become usable regions. -/
def usable : List MmapEntry :=
  (b.entries.filter isUsable).take MAX_MEM_REGIONS

/-- The frames there are, counting every entry below 4 GiB. -/
def pages : Nat :=
  ((b.entries.filter isLow).map clipped).sum % 2 ^ 32 / PAGE_SIZE

def bitmapStart : Nat := pageCount PAGE_SIZE b.kernel.physEnd * PAGE_SIZE
def bitmapEnd : Nat := b.bitmapStart + (b.pages + 7) / 8

end BootInfo

/-- What `mmap_init` leaves behind. -/
structure Scanned (b : BootInfo) (m : Mmap) : Prop where
  kend : m.kend = b.kernel.virtEnd
  kpstart : m.kpstart = b.kernel.physStart
  kpend : m.kpend = b.kernel.physEnd
  regions : m.usableRegions = b.usable.map fun e => ⟨e.baseAddr, clipped e⟩
  pages : totalPages m = b.pages

theorem foldl_mmapEntry_fixed (es : List MmapEntry) (m : Mmap) :
    (es.foldl mmapEntry m).kend = m.kend ∧ (es.foldl mmapEntry m).kpstart = m.kpstart ∧
      (es.foldl mmapEntry m).kpend = m.kpend := by
  induction es generalizing m with
  | nil => exact ⟨rfl, rfl, rfl⟩
  | cons e es ih =>
    rw [List.foldl_cons, (ih _).1, (ih _).2.1, (ih _).2.2, mmapEntry]
    split <;> exact ⟨rfl, rfl, rfl⟩

theorem foldl_mmapEntry_total (es : List MmapEntry) (m : Mmap) :
    (es.foldl mmapEntry m).totalMemory =
      (m.totalMemory + ((es.filter isLow).map clipped).sum) % 2 ^ 32 := by
  induction es generalizing m with
  | nil => exact (Nat.mod_eq_of_lt m.total_lt).symm
  | cons e es ih =>
    rw [List.foldl_cons, ih, mmapEntry]
    split
    case isTrue he =>
      have hlow : isLow e = true := decide_eq_true he
      rw [List.filter_cons_of_pos hlow, List.map_cons, List.sum_cons]
      simp only [add32, Nat.mod_add_mod, Nat.add_assoc]
    case isFalse he => rw [List.filter_cons_of_neg (by simpa [isLow] using he)]

theorem foldl_mmapEntry_regions (es : List MmapEntry) (m : Mmap) :
    (es.foldl mmapEntry m).usableRegions = m.usableRegions ++
      ((es.filter isUsable).take
        (MAX_MEM_REGIONS - m.usableRegions.length)).map fun e => ⟨e.baseAddr, clipped e⟩ := by
  induction es generalizing m with
  | nil => simp
  | cons e es ih =>
    rw [List.foldl_cons, ih, mmapEntry]
    by_cases he : e.baseAddr < 2 ^ 32
    · rw [if_pos he]
      by_cases ht : e.type = 1
      · have husable : isUsable e = true := decide_eq_true ⟨ht, he⟩
        rw [List.filter_cons_of_pos husable]
        by_cases hroom : m.usableRegions.length < MAX_MEM_REGIONS
        · have hleft : MAX_MEM_REGIONS - m.usableRegions.length =
              MAX_MEM_REGIONS - (m.usableRegions.length + 1) + 1 := by omega
          simp [ht, hroom, hleft]
        · have hfull : MAX_MEM_REGIONS - m.usableRegions.length = 0 := by omega
          simp [hroom, hfull]
      · rw [List.filter_cons_of_neg (by simp [isUsable, ht])]
        simp [ht]
    · rw [if_neg he, List.filter_cons_of_neg (by simpa [isUsable] using fun _ => he)]

theorem boot_some (b : BootInfo) (mem : Bitmap) :
    ∃ s, boot b.kernel b.tags mem = some s ∧ Scanned b s.mmap ∧
      s.pmm = pmmInit s.mmap b.fbTag b.kernel.fb mem := by
  refine ⟨_, by simp only [boot, mmapInit, initrdInit, fbParseTag, b.mmap_eq, b.module_eq, b.fb_eq,
    Option.map_some, Option.bind_eq_bind, Option.bind_some]; rfl, ?_, rfl⟩
  refine ⟨?_, ?_, ?_, ?_, ?_⟩
  · exact (foldl_mmapEntry_fixed _ _).1
  · exact (foldl_mmapEntry_fixed _ _).2.1
  · exact (foldl_mmapEntry_fixed _ _).2.2
  · rw [foldl_mmapEntry_regions]
    rfl
  · rw [totalPages, foldl_mmapEntry_total, Nat.zero_add]
    rfl

/-! ## The free frames -/

/-- Frame `k` is free at boot, in terms of what the boot loader and the linker
hand over. -/
structure Offered (b : BootInfo) (k : Nat) : Prop where
  lt : k < b.pages
  usable : ∃ e ∈ b.usable, Marked e.baseAddr (clipped e) k
  low : ¬ Touches PAGE_SIZE 0 0x100000 k
  kernel : ¬ Touches PAGE_SIZE b.kernel.physStart b.kernel.physEnd k
  bitmap : ¬ Touches PAGE_SIZE b.bitmapStart b.bitmapEnd k
  framebuffer : ¬ Marked (b.fbTag.framebufferAddr % 2 ^ 32)
    (b.fbTag.framebufferPitch * b.fbTag.framebufferHeight % 2 ^ 32) k

/-- A range rounded outward to pages on both sides. -/
theorem marked_rounded {first last k : Nat} (hlast : last + 0xfff < 2 ^ 32) (hle : first ≤ last)
    (hne : first < last ∨ first % PAGE_SIZE = 0) :
    Marked (first &&& 0xfffff000)
        (sub32 (add32 last 0xfff &&& 0xfffff000) (first &&& 0xfffff000)) k ↔
      Touches PAGE_SIZE first last k := by
  rw [and_mask (show first < 2 ^ 32 by omega), and_mask (add32_lt last 0xfff),
    touches_iff (by decide)]
  simp only [Marked, addrToPage, markCount, add32, sub32, frameOf, PAGE_SIZE] at *
  omega

theorem bitmapAddr_eq {b : BootInfo} {m : Mmap} (h : Scanned b m) :
    bitmapAddr m = b.bitmapStart + KERNEL_OFFSET := by
  have hstart := b.kernel.start_ge
  have hfb := b.kernel.fb_ge
  have hfbEnd := b.kernel.fb_le
  have hend := b.kernel.end_le
  rw [bitmapAddr, h.kend, and_mask (add32_lt _ _)]
  simp only [BootInfo.bitmapStart, KernelImage.physEnd, pageCount, add32, frameOf, PAGE_SIZE,
    KERNEL_OFFSET, sizeofFb] at *
  omega

theorem pages_lt (b : BootInfo) : b.pages < 2 ^ 20 := by
  rw [BootInfo.pages, PAGE_SIZE, Nat.div_lt_iff_lt_mul (by decide)]
  exact Nat.mod_lt _ (by decide)

theorem bitmapStart_le (b : BootInfo) : b.bitmapStart ≤ 0x400000 ∧ b.bitmapStart % PAGE_SIZE = 0 := by
  have hend := b.kernel.end_le
  constructor
  · simp only [BootInfo.bitmapStart, KernelImage.physEnd, pageCount, PAGE_SIZE, KERNEL_OFFSET] at *
    omega
  · exact Nat.mul_mod_left _ _

theorem bitmapPhys_eq {b : BootInfo} {m : Mmap} (h : Scanned b m) :
    sub32 (bitmapAddr m) KERNEL_OFFSET = b.bitmapStart := by
  have hstart := (bitmapStart_le b).1
  rw [bitmapAddr_eq h, sub32, KERNEL_OFFSET]
  omega

theorem bitmapEnd_eq {b : BootInfo} {m : Mmap} (h : Scanned b m) :
    add32 b.bitmapStart (bitmapSize m) = b.bitmapEnd := by
  have hpages := pages_lt b
  have hstart := (bitmapStart_le b).1
  rw [bitmapSize, h.pages, add32, Nat.mod_eq_of_lt (by omega)]
  rfl

/-- The fifth mark, of the variable `fb`, is about the kernel again. -/
theorem marked_fb {k : KernelImage} {i : Nat}
    (h : Marked (sub32 k.fb KERNEL_OFFSET) sizeofFb i) :
    Touches PAGE_SIZE k.physStart k.physEnd i := by
  have hstart := k.start_ge
  have hfb := k.fb_ge
  have hfbEnd := k.fb_le
  have hend := k.end_le
  rw [touches_iff (by decide)]
  simp only [Marked, addrToPage, markCount, add32, sub32, sizeofFb, PAGE_SIZE, KERNEL_OFFSET,
    KernelImage.physStart, KernelImage.physEnd] at *
  omega

theorem kernel_rounded (kernel : KernelImage) (k : Nat) :
    Marked (kernel.physStart &&& 0xfffff000)
        (sub32 (add32 kernel.physEnd 0xfff &&& 0xfffff000) (kernel.physStart &&& 0xfffff000)) k ↔
      Touches PAGE_SIZE kernel.physStart kernel.physEnd k := by
  have hstart := kernel.start_ge
  have hfb := kernel.fb_ge
  have hfbEnd := kernel.fb_le
  have hend := kernel.end_le
  simp only [sizeofFb, KERNEL_OFFSET] at hstart hfbEnd hend
  have hne : kernel.physStart < kernel.physEnd := by
    simp only [KernelImage.physStart, KernelImage.physEnd, KERNEL_OFFSET]
    omega
  have hlast : kernel.physEnd ≤ 0x400000 := by
    simp only [KernelImage.physEnd, KERNEL_OFFSET]
    omega
  exact marked_rounded (by omega) (by omega) (.inl hne)

theorem bitmapEnd_lt (b : BootInfo) : b.bitmapEnd + 0xfff < 2 ^ 32 := by
  have hpages := pages_lt b
  have hstart := (bitmapStart_le b).1
  rw [BootInfo.bitmapEnd]
  omega

theorem not_reserved_iff {b : BootInfo} {m : Mmap} {k : Nat} (h : Scanned b m) :
    (∀ r ∈ reserved m b.fbTag b.kernel.fb, ¬ Marked r.1 r.2 k) ↔
      ¬ Touches PAGE_SIZE 0 0x100000 k ∧
      ¬ Touches PAGE_SIZE b.kernel.physStart b.kernel.physEnd k ∧
      ¬ Touches PAGE_SIZE b.bitmapStart b.bitmapEnd k ∧
      ¬ Marked (b.fbTag.framebufferAddr % 2 ^ 32)
        (b.fbTag.framebufferPitch * b.fbTag.framebufferHeight % 2 ^ 32) k := by
  have hlow : Marked 0 0x100000 k ↔ Touches PAGE_SIZE 0 0x100000 k := by
    rw [touches_iff (by decide)]
    simp only [Marked, addrToPage, markCount, add32, PAGE_SIZE]
    omega
  have hbitmap := marked_rounded (k := k) (bitmapEnd_lt b) (Nat.le_add_right _ _)
    (.inr (bitmapStart_le b).2)
  simp only [reserved, bitmapEnd_eq h, bitmapPhys_eq h, h.kpstart, h.kpend, List.forall_mem_cons,
    hlow, kernel_rounded, hbitmap]
  constructor
  · rintro ⟨hlow, hkernel, hbitmap, hfb, -⟩
    exact ⟨hlow, hkernel, hbitmap, hfb⟩
  · rintro ⟨hlow, hkernel, hbitmap, hfb⟩
    exact ⟨hlow, hkernel, hbitmap, hfb, fun hmarked => hkernel (marked_fb hmarked), by simp⟩

theorem free_iff_offered {b : BootInfo} {m : Mmap} {mem : Bitmap} {k : Nat} (h : Scanned b m) :
    (k < totalPages m ∧ Free (pmmInit m b.fbTag b.kernel.fb mem) k) ↔ Offered b k := by
  rw [h.pages]
  constructor
  · rintro ⟨hk, hfree⟩
    rw [pmmInit_free (h.pages ▸ hk), not_reserved_iff h, h.regions] at hfree
    obtain ⟨⟨r, hr, hmarked⟩, hlow, hkernel, hbitmap, hfb⟩ := hfree
    obtain ⟨e, he, rfl⟩ := List.mem_map.mp hr
    exact ⟨hk, ⟨e, he, hmarked⟩, hlow, hkernel, hbitmap, hfb⟩
  · rintro ⟨hk, ⟨e, he, hmarked⟩, hlow, hkernel, hbitmap, hfb⟩
    refine ⟨hk, ?_⟩
    rw [pmmInit_free (h.pages ▸ hk), not_reserved_iff h, h.regions]
    exact ⟨⟨_, List.mem_map_of_mem he, hmarked⟩, hlow, hkernel, hbitmap, hfb⟩

theorem boot_offered (b : BootInfo) (mem : Bitmap) :
    ∃ s, boot b.kernel b.tags mem = some s ∧ Scanned b s.mmap ∧
      ∀ k, (k < s.pmm.totalPages ∧ Free s.pmm k) ↔ Offered b k := by
  obtain ⟨s, hboot, hscan, hpmm⟩ := boot_some b mem
  refine ⟨s, hboot, hscan, fun k => ?_⟩
  rw [hpmm]
  exact free_iff_offered hscan

/-! ## What a frame may be given out for -/

/-- Frame `k` is memory and holds nothing the kernel needs. -/
structure SafeFrame (b : BootInfo) (m : Mmap) (k : Nat) : Prop where
  memory : ∃ e ∈ b.entries, e.type = 1 ∧ Within PAGE_SIZE e.baseAddr (e.baseAddr + e.length) k
  low : ¬ Touches PAGE_SIZE 0 0x100000 k
  kernel : ¬ Touches PAGE_SIZE b.kernel.physStart b.kernel.physEnd k
  bitmap : ¬ Touches PAGE_SIZE (bitmapAddr m - KERNEL_OFFSET)
    (bitmapAddr m - KERNEL_OFFSET + bitmapSize m) k
  framebuffer : ¬ Touches PAGE_SIZE b.fbTag.framebufferAddr
    (b.fbTag.framebufferAddr + b.fbTag.framebufferPitch * b.fbTag.framebufferHeight) k
  initrd : ¬ Touches PAGE_SIZE b.modTag.modStart b.modTag.modEnd k

/-- Every frame freed was handed out before. -/
def Given (ops : List PmmOp) : Prop :=
  ∀ past addr rest, ops = past ++ .free addr :: rest → .alloc addr ∈ past

/-- Every free frame is safe, and so is every frame handed out later on. -/
structure BootSafe (b : BootInfo) (s : Booted) : Prop where
  free : ∀ k < s.pmm.totalPages, Free s.pmm k → SafeFrame b s.mmap k
  handed : ∀ ops p addr p', Run PmmStep s.pmm ops p → Given ops →
    pmmAllocFrame p = some (addr, p') → SafeFrame b s.mmap (addrToPage addr)

/-- The first and the last frame of a usable region lie inside memory. -/
def EdgesInside (b : BootInfo) : Prop :=
  ∀ e ∈ b.usable, ∀ k, Offered b k →
    (k = addrToPage e.baseAddr ∨ k + 1 = addrToPage e.baseAddr + markCount (clipped e)) →
    ∃ e' ∈ b.entries, e'.type = 1 ∧ Within PAGE_SIZE e'.baseAddr (e'.baseAddr + e'.length) k

/-- The framebuffer starts below 4 GiB and its size is a 32-bit value. -/
def FitsWord (t : FramebufferTag) : Prop :=
  t.framebufferAddr < 2 ^ 32 ∧ t.framebufferPitch * t.framebufferHeight + 0xfff < 2 ^ 32

/-- No free frame is the one behind the marks of the framebuffer, unless the
framebuffer ends before it. -/
def FramebufferClear (b : BootInfo) : Prop :=
  ∀ k, Offered b k →
    (FitsWord b.fbTag → k = addrToPage b.fbTag.framebufferAddr +
      pageCount PAGE_SIZE (b.fbTag.framebufferPitch * b.fbTag.framebufferHeight)) →
    ¬ Touches PAGE_SIZE b.fbTag.framebufferAddr
      (b.fbTag.framebufferAddr + b.fbTag.framebufferPitch * b.fbTag.framebufferHeight) k

/-- The initial ramdisk lies outside the free frames. -/
def ModuleClear (b : BootInfo) : Prop :=
  ∀ k, Touches PAGE_SIZE b.modTag.modStart b.modTag.modEnd k → ¬ Offered b k

/-! ## Given frames -/

theorem given_of_append {past rest : List PmmOp} (h : Given (past ++ rest)) : Given past := by
  intro past' addr rest' heq
  exact h past' addr (rest' ++ rest) (by rw [heq, List.append_assoc, List.cons_append])

/-- What allocating and giving back keeps: only frames free at first are free
or have been handed out. -/
def FromFirst (p₀ : PmmState) (past : List PmmOp) (p : PmmState) : Prop :=
  Given past → (∀ addr, .alloc addr ∈ past → Free p₀ (addrToPage addr)) ∧
    ∀ i, Free p i → Free p₀ i

theorem fromFirst_step {p₀ p p' : PmmState} {past : List PmmOp} {op : PmmOp}
    (h : FromFirst p₀ past p) (hs : PmmStep p op p') : FromFirst p₀ (past ++ [op]) p' := by
  intro hgiven
  obtain ⟨halloc, hfree⟩ := h (given_of_append hgiven)
  cases hs with
  | @alloc _ addr hs =>
    have hh := pmmAllocFrame_handed hs
    constructor
    · intro addr' hmem
      rcases List.mem_append.mp hmem with hmem | hmem
      · exact halloc addr' hmem
      · obtain rfl : addr' = addr := by simpa using hmem
        exact hfree _ hh.free
    · intro i hi
      by_cases heq : i = addrToPage addr
      · exact hfree _ (heq ▸ hh.free)
      · exact hfree i ((hh.others i heq).mp hi)
  | @free _ addr hs =>
    have hmem : PmmOp.alloc addr ∈ past := hgiven past addr [] rfl
    constructor
    · intro addr' hmem'
      exact halloc addr' (by simpa using hmem')
    · intro i hi
      rcases ((pmmFreeFrame_some hs).2.2.2.2.1 i).mp hi with rfl | hi
      · exact halloc addr hmem
      · exact hfree i hi

theorem run_fromFirst {p₀ p : PmmState} {ops : List PmmOp} (h : Run PmmStep p₀ ops p) :
    FromFirst p₀ ops p := by
  have hstart : FromFirst p₀ [] p₀ := fun _ => ⟨by simp, fun _ hi => hi⟩
  exact h.history (fun _ _ _ _ => fromFirst_step) hstart

/-- Frames handed out later on were free at first. -/
theorem handed_free {p₀ p p' : PmmState} {ops : List PmmOp} {addr : Nat}
    (h : Run PmmStep p₀ ops p) (hgiven : Given ops) (halloc : pmmAllocFrame p = some (addr, p')) :
    addrToPage addr < p₀.totalPages ∧ Free p₀ (addrToPage addr) := by
  have hh := pmmAllocFrame_handed halloc
  have hbelow := hh.below
  rw [run_total h, PAGE_SIZE] at hbelow
  refine ⟨?_, (run_fromFirst h hgiven).2 _ hh.free⟩
  rw [addrToPage, PAGE_SIZE]
  omega

/-! ## When the free frames are safe -/

theorem clipped_le (e : MmapEntry) : clipped e ≤ e.length ∨ 2 ^ 32 ≤ e.baseAddr + e.length := by
  rw [clipped]
  split
  · omega
  · exact .inl (Nat.mod_le _ _)

/-- Inside a usable region the rounding is right. -/
theorem marked_within {e : MmapEntry} {k : Nat} (hk : k < 2 ^ 20)
    (h : Marked e.baseAddr (clipped e) k) (hfirst : k ≠ addrToPage e.baseAddr)
    (hlast : k + 1 ≠ addrToPage e.baseAddr + markCount (clipped e)) :
    Within PAGE_SIZE e.baseAddr (e.baseAddr + e.length) k := by
  have hcount := markCount_le (clipped e)
  have hinner : k + 1 ≠ e.baseAddr / PAGE_SIZE + pageCount PAGE_SIZE (clipped e) := by
    obtain ⟨_, hlt⟩ := h
    rw [addrToPage] at hlast hlt
    omega
  have hwithin := counted_within (by decide) h.counted hfirst hinner
  obtain ⟨hlo, hhi⟩ := (within_iff (by decide)).mp hwithin
  have hclip := clipped_le e
  refine (within_iff (by decide)).mpr ⟨hlo, ?_⟩
  rw [PAGE_SIZE] at *
  omega

/-- The marks of a framebuffer miss at most one frame of it. -/
theorem framebuffer_missed {t : FramebufferTag} {k : Nat} (hfits : FitsWord t)
    (hmarked : ¬ Marked (t.framebufferAddr % 2 ^ 32)
      (t.framebufferPitch * t.framebufferHeight % 2 ^ 32) k)
    (h : Touches PAGE_SIZE t.framebufferAddr
      (t.framebufferAddr + t.framebufferPitch * t.framebufferHeight) k) :
    k = addrToPage t.framebufferAddr +
      pageCount PAGE_SIZE (t.framebufferPitch * t.framebufferHeight) := by
  obtain ⟨haddr, hsize⟩ := hfits
  rw [Nat.mod_eq_of_lt haddr, Nat.mod_eq_of_lt (by omega), Marked,
    markCount_eq (by rw [PAGE_SIZE]; omega)] at hmarked
  rcases touches_counted (by decide) h with hcounted | ⟨-, hk⟩
  · exact absurd hcounted hmarked
  · exact hk

theorem safeFrame_of_offered {b : BootInfo} {m : Mmap} {k : Nat} (h : Scanned b m)
    (hk : Offered b k) (hedges : EdgesInside b) (hfb : FramebufferClear b)
    (hmodule : ModuleClear b) : SafeFrame b m k where
  memory := by
    obtain ⟨e, he, hmarked⟩ := hk.usable
    by_cases hfirst : k = addrToPage e.baseAddr
    · exact hedges e he k hk (.inl hfirst)
    by_cases hlast : k + 1 = addrToPage e.baseAddr + markCount (clipped e)
    · exact hedges e he k hk (.inr hlast)
    have hmem := List.mem_filter.mp (List.mem_of_mem_take he)
    have husable : e.type = 1 ∧ e.baseAddr < 2 ^ 32 := of_decide_eq_true hmem.2
    exact ⟨e, hmem.1, husable.1,
      marked_within (Nat.lt_trans hk.lt (pages_lt b)) hmarked hfirst hlast⟩
  low := hk.low
  kernel := hk.kernel
  bitmap := by
    rw [bitmapAddr_eq h, Nat.add_sub_cancel, bitmapSize, h.pages]
    exact hk.bitmap
  framebuffer := fun htouch =>
    hfb k hk (fun hfits => framebuffer_missed hfits hk.framebuffer htouch) htouch
  initrd := fun htouch => hmodule k htouch hk

/-- **Free frames at boot.**  They are safe exactly when the usable regions
begin and end inside memory wherever their edge frames are free, the frame
behind the marks of the framebuffer is none of its own or not free, and no
frame of the initial ramdisk is free. -/
theorem bootSafe_iff (b : BootInfo) (mem : Bitmap) :
    ∃ s, boot b.kernel b.tags mem = some s ∧
      (BootSafe b s ↔ EdgesInside b ∧ FramebufferClear b ∧ ModuleClear b) := by
  obtain ⟨s, hboot, hscan, hfree⟩ := boot_offered b mem
  refine ⟨s, hboot, ?_, ?_⟩
  · intro hsafe
    have hoffered : ∀ k, Offered b k → SafeFrame b s.mmap k := fun k hk =>
      have h := (hfree k).mpr hk
      hsafe.free k h.1 h.2
    exact ⟨fun e _ k hk _ => (hoffered k hk).memory, fun k hk _ => (hoffered k hk).framebuffer,
      fun k htouch hk => (hoffered k hk).initrd htouch⟩
  · rintro ⟨hedges, hfb, hmodule⟩
    have hsafe : ∀ k < s.pmm.totalPages, Free s.pmm k → SafeFrame b s.mmap k := fun k hlt hk =>
      safeFrame_of_offered hscan ((hfree k).mp ⟨hlt, hk⟩) hedges hfb hmodule
    refine ⟨hsafe, fun ops p addr p' hrun hgiven halloc => ?_⟩
    obtain ⟨hlt, hk⟩ := handed_free hrun hgiven halloc
    exact hsafe _ hlt hk

/-! ## A boot that is not safe -/

/-- A machine of 128 MiB, the ramdisk behind the kernel. -/
def ramdiskBoot : BootInfo where
  kernel := ⟨0xc0201000, 0xc0260000, 0xc0250000, by decide, by decide, by decide, by decide⟩
  tags :=
    [.module ⟨0x300000, 0x340000, by decide, by decide⟩,
     .mmap [⟨0, 0x9fc00, 1, by decide, by decide⟩, ⟨0x100000, 0x7ee0000, 1, by decide, by decide⟩],
     .framebuffer ⟨0xfd000000, 4096, 768, by decide, by decide, by decide⟩]
  entries := [⟨0, 0x9fc00, 1, by decide, by decide⟩, ⟨0x100000, 0x7ee0000, 1, by decide, by decide⟩]
  modTag := ⟨0x300000, 0x340000, by decide, by decide⟩
  fbTag := ⟨0xfd000000, 4096, 768, by decide, by decide, by decide⟩
  mmap_eq := rfl
  module_eq := rfl
  fb_eq := rfl

/-- The first frame of the ramdisk is free. -/
theorem ramdiskBoot_offered : Offered ramdiskBoot 0x300 where
  lt := by decide
  usable := ⟨⟨0x100000, 0x7ee0000, 1, by decide, by decide⟩, .tail _ (.head _), by decide⟩
  low := (not_touches_iff (by decide)).mpr (by decide)
  kernel := (not_touches_iff (by decide)).mpr (by decide)
  bitmap := (not_touches_iff (by decide)).mpr (by decide)
  framebuffer := by decide

theorem ramdiskBoot_unsafe :
    ¬ ∀ (b : BootInfo) (mem : Bitmap) (s : Booted), boot b.kernel b.tags mem = some s →
      BootSafe b s := by
  intro h
  obtain ⟨s, hboot, -, hfree⟩ := boot_offered ramdiskBoot fun _ => 0
  obtain ⟨hlt, hk⟩ := (hfree 0x300).mpr ramdiskBoot_offered
  have htouch : Touches PAGE_SIZE 0x300000 0x340000 0x300 :=
    (touches_iff (by decide)).mpr (by decide)
  exact ((h _ _ _ hboot).free _ hlt hk).initrd htouch

end FrogKernel.PmmInit
