import FrogKernel.Memory.BootFrames

/-!
# The marks of `pmm_init` (`memory/pmm.c`)

`pmm_mark_used` and `pmm_mark_free` round start and length on their own, and
compare neither with `total_pages`.  `marksRound_iff` says for which ranges the
rounding is right, `marksFit_iff` for which boots all marks stay in the bitmap.
-/

namespace FrogKernel.PmmInit

open FrogKernel.Pmm FrogKernel.Pages FrogKernel.PageTables FrogKernel.Paging
open FrogKernel.Kheap (add32 sub32)

/-! ## One range -/

/-- A range is marked as it should be: used where it touches a page, free where it
holds one. -/
structure MarksRound (addr len : Nat) : Prop where
  used : ∀ map k, Touches PAGE_SIZE addr (addr + len) k → bitTest (pmmMarkUsed map addr len) k = true
  others : ∀ map k, ¬ Touches PAGE_SIZE addr (addr + len) k →
    bitTest (pmmMarkUsed map addr len) k = bitTest map k
  freed : ∀ map k, bitTest map k = true → bitTest (pmmMarkFree map addr len) k = false →
    Within PAGE_SIZE addr (addr + len) k

theorem bitTest_pmmMarkUsed (map : Bitmap) (addr len k : Nat) :
    bitTest (pmmMarkUsed map addr len) k = (decide (Marked addr len k) || bitTest map k) :=
  bitTest_setRange map (addrToPage addr) k (markCount len)

theorem bitTest_pmmMarkFree (map : Bitmap) (addr len k : Nat) :
    bitTest (pmmMarkFree map addr len) k = (!decide (Marked addr len k) && bitTest map k) :=
  bitTest_clearRange map (addrToPage addr) k (markCount len)

theorem bitTest_zero (k : Nat) : bitTest (fun _ => 0#8) k = false := by
  rw [bitTest_eq_getLsbD, BitVec.getLsbD_zero]

theorem bitTest_ones (k : Nat) : bitTest (fun _ => 0xff#8) k = true := by
  have hones : 0xff#8 = BitVec.allOnes 8 := by decide
  have hbit : k % 8 < 8 := Nat.mod_lt _ (by decide)
  rw [bitTest_eq_getLsbD, hones, BitVec.getLsbD_allOnes]
  exact decide_eq_true hbit

/-- The bitmap does not matter. -/
theorem marksRound_marked {addr len : Nat} : MarksRound addr len ↔
    (∀ k, Touches PAGE_SIZE addr (addr + len) k ↔ Marked addr len k) ∧
      ∀ k, Marked addr len k → Within PAGE_SIZE addr (addr + len) k := by
  constructor
  · intro h
    refine ⟨fun k => ⟨fun ht => ?_, fun hm => ?_⟩, fun k hm => ?_⟩
    · have hset := h.used (fun _ => 0#8) k ht
      rw [bitTest_pmmMarkUsed, bitTest_zero, Bool.or_false] at hset
      exact of_decide_eq_true hset
    · by_contra ht
      have hsame := h.others (fun _ => 0#8) k ht
      rw [bitTest_pmmMarkUsed, bitTest_zero, Bool.or_false, decide_eq_true hm] at hsame
      cases hsame
    · refine h.freed (fun _ => 0xff#8) k (bitTest_ones k) ?_
      rw [bitTest_pmmMarkFree, decide_eq_true hm]
      rfl
  · rintro ⟨htouches, hwithin⟩
    refine ⟨fun map k ht => ?_, fun map k ht => ?_, fun map k hset hfree => ?_⟩
    · rw [bitTest_pmmMarkUsed, decide_eq_true ((htouches k).mp ht), Bool.true_or]
    · rw [bitTest_pmmMarkUsed, decide_eq_false fun hm => ht ((htouches k).mpr hm), Bool.false_or]
    · rw [bitTest_pmmMarkFree, hset, Bool.and_true, Bool.not_eq_false'] at hfree
      exact hwithin k (of_decide_eq_true hfree)

/-- Whole pages are counted right. -/
theorem marked_whole {addr len k : Nat} (hlen : len < 2 ^ 32) (haddr : addr % PAGE_SIZE = 0)
    (hwhole : len % PAGE_SIZE = 0) :
    (Touches PAGE_SIZE addr (addr + len) k ↔ Marked addr len k) ∧
      (Marked addr len k → Within PAGE_SIZE addr (addr + len) k) := by
  rw [touches_iff (by decide), within_iff (by decide)]
  simp only [Marked, addrToPage, markCount, add32, PAGE_SIZE] at *
  omega

/-- A range that starts or ends inside a page is not. -/
theorem marked_partial {addr len : Nat} (hlen : len < 2 ^ 32) (hpos : 0 < len)
    (hpart : ¬ (addr % PAGE_SIZE = 0 ∧ len % PAGE_SIZE = 0))
    (htouches : ∀ k, Touches PAGE_SIZE addr (addr + len) k ↔ Marked addr len k) :
    ¬ ∀ k, Marked addr len k → Within PAGE_SIZE addr (addr + len) k := by
  intro hwithin
  -- the first and the last page of the range are counted, and do not lie in it
  have hfirst := (htouches (addr / PAGE_SIZE)).mp ⟨addr, Nat.le_refl _, by omega, rfl⟩
  have hlast := (htouches ((addr + len - 1) / PAGE_SIZE)).mp ⟨_, by omega, by omega, rfl⟩
  have hin := (within_iff (by decide)).mp (hwithin _ hfirst)
  have hin' := (within_iff (by decide)).mp (hwithin _ hlast)
  simp only [PAGE_SIZE] at *
  omega

/-- **Rounding.**  A range is marked as it should be exactly when it is empty or made
of whole pages. -/
theorem marksRound_iff {addr len : Nat} (hlen : len < 2 ^ 32) :
    MarksRound addr len ↔ len = 0 ∨ addr % PAGE_SIZE = 0 ∧ len % PAGE_SIZE = 0 := by
  rw [marksRound_marked]
  constructor
  · rintro ⟨htouches, hwithin⟩
    by_contra hpart
    rw [not_or] at hpart
    exact marked_partial hlen (by omega) hpart.2 htouches hwithin
  · rintro (rfl | ⟨haddr, hwhole⟩)
    · have hnone : ∀ k, ¬ Marked addr 0 k := fun k hm => Nat.not_lt.mpr hm.1 hm.2
      have hempty : ∀ k, ¬ Touches PAGE_SIZE addr (addr + 0) k := by
        rintro k ⟨a, h1, h2, -⟩
        omega
      exact ⟨fun k => iff_of_false (hempty k) (hnone k), fun k hm => absurd hm (hnone k)⟩
    · exact ⟨fun k => (marked_whole hlen haddr hwhole).1, fun k => (marked_whole hlen haddr hwhole).2⟩

theorem wholePages_round : MarksRound 0x100000 0x3000 :=
  (marksRound_iff (by decide)).mpr (by decide)

/-- Of two bytes on either side of a page border only the first is in a marked page. -/
theorem border_missed : Touches PAGE_SIZE 0x1fff (0x1fff + 2) 2 ∧
    bitTest (pmmMarkUsed (fun _ => 0#8) 0x1fff 2) 2 = false ∧ ¬ MarksRound 0x1fff 2 := by
  have htouch : Touches PAGE_SIZE 0x1fff (0x1fff + 2) 2 := ⟨0x2000, by decide, by decide, rfl⟩
  have hmiss : bitTest (pmmMarkUsed (fun _ => 0#8) 0x1fff 2) 2 = false := by decide
  refine ⟨htouch, hmiss, fun h => ?_⟩
  have hset := h.used (fun _ => 0#8) 2 htouch
  rw [hmiss] at hset
  cases hset

/-! ## All marks of a boot -/

/-- `BIT_SET` and `BIT_CLEAR`, with their index. -/
inductive BitOp where
  | set (bit : Nat)
  | clear (bit : Nat)

def BitOp.bit : BitOp → Nat
  | .set i | .clear i => i

def BitOp.apply (map : Bitmap) : BitOp → Bitmap
  | .set i => bitSet map i
  | .clear i => bitClear map i

/-- The indices that a mark goes through. -/
def markedBits (addr len : Nat) : List Nat :=
  (List.range (markCount len)).map (addrToPage addr + ·)

/-- What `pmm_init` does to single bits. -/
def pmmInitOps (m : Mmap) (tag : FramebufferTag) (fb : Nat) : List BitOp :=
  (m.usableRegions.flatMap fun r => (markedBits r.base r.length).map .clear) ++
    (reserved m tag fb).flatMap fun r => (markedBits r.1 r.2).map .set

theorem pmmInit_ops (m : Mmap) (tag : FramebufferTag) (fb : Nat) (mem : Bitmap) :
    (pmmInit m tag fb mem).pmmBitmap =
      (pmmInitOps m tag fb).foldl BitOp.apply (memset mem 0xff (bitmapSize m)) := by
  simp only [pmmInit, pmmInitOps, List.foldl_append, List.foldl_flatMap, markedBits, List.map_map,
    List.foldl_map]
  rfl

theorem mem_markedBits {addr len k : Nat} : k ∈ markedBits addr len ↔ Marked addr len k := by
  simp only [markedBits, List.mem_map, List.mem_range, Marked]
  constructor
  · rintro ⟨i, hi, rfl⟩
    omega
  · rintro ⟨h1, h2⟩
    exact ⟨k - addrToPage addr, by omega, by omega⟩

/-- Every bit that `pmm_init` sets or clears belongs to a frame. -/
def InBitmap (m : Mmap) (tag : FramebufferTag) (fb : Nat) : Prop :=
  ∀ op ∈ pmmInitOps m tag fb, op.bit < totalPages m

/-- Then no byte behind the bitmap changes. -/
theorem InBitmap.bytes_kept {m : Mmap} {tag : FramebufferTag} {fb : Nat} (h : InBitmap m tag fb)
    (mem : Bitmap) {k : Nat} (hk : bitmapSize m ≤ k) :
    (pmmInit m tag fb mem).pmmBitmap k = mem k := by
  rw [pmmInit_ops]
  have hset : memset mem 0xff (bitmapSize m) k = mem k := if_neg (by omega)
  rw [← hset]
  generalize memset mem 0xff (bitmapSize m) = map
  rw [InBitmap] at h
  generalize pmmInitOps m tag fb = ops at h
  induction ops generalizing map with
  | nil => rfl
  | cons op ops ih =>
    rw [List.forall_mem_cons] at h
    rw [List.foldl_cons, ih _ h.2]
    have hne : ¬ k = op.bit / 8 := by
      have hlt := h.1
      simp only [bitmapSize] at hk
      omega
    cases op with
    | set i => exact if_neg hne
    | clear i => exact if_neg hne

/-- A mark of `len` bytes from `addr` on ends within `pages` frames. -/
def EndsBelow (pages addr len : Nat) : Prop :=
  markCount len = 0 ∨ addrToPage addr + markCount len ≤ pages

/-- The frames counted from the memory map reach above everything that is marked. -/
structure MarksFit (b : BootInfo) : Prop where
  usable : ∀ e ∈ b.usable, EndsBelow b.pages e.baseAddr (clipped e)
  low : 256 ≤ b.pages
  kernel : b.kernel.physEnd ≤ b.pages * PAGE_SIZE
  bitmap : b.bitmapEnd ≤ b.pages * PAGE_SIZE
  framebuffer : EndsBelow b.pages (b.fbTag.framebufferAddr % 2 ^ 32)
    (b.fbTag.framebufferPitch * b.fbTag.framebufferHeight % 2 ^ 32)

theorem endsBelow_iff {pages addr len : Nat} :
    EndsBelow pages addr len ↔ ∀ k, Marked addr len k → k < pages := by
  constructor
  · rintro (h0 | hle) k ⟨h1, h2⟩
    · omega
    · omega
  · intro h
    by_cases h0 : markCount len = 0
    · exact Or.inl h0
    · have hlast := h (addrToPage addr + (markCount len - 1)) ⟨by omega, by omega⟩
      exact Or.inr (by omega)

theorem touches_below {lo hi : Nat} (pages : Nat) (hne : lo < hi) :
    (∀ k, Touches PAGE_SIZE lo hi k → k < pages) ↔ hi ≤ pages * PAGE_SIZE := by
  constructor
  · intro h
    have hlast := h ((hi - 1) / PAGE_SIZE) ⟨hi - 1, by omega, by omega, rfl⟩
    simp only [PAGE_SIZE] at *
    omega
  · rintro h k ⟨a, -, h2, rfl⟩
    simp only [PAGE_SIZE] at *
    omega

theorem kernel_nonempty (k : KernelImage) : k.physStart < k.physEnd := by
  have hstart := k.start_ge
  have hfb := k.fb_ge
  have hfbEnd := k.fb_le
  simp only [KernelImage.physStart, KernelImage.physEnd, KERNEL_OFFSET, sizeofFb] at *
  omega

/-- The reserved ranges, one by one. -/
theorem reserved_below_iff {b : BootInfo} {m : Mmap} (h : Scanned b m) :
    (∀ r ∈ reserved m b.fbTag b.kernel.fb, ∀ k, Marked r.1 r.2 k → k < b.pages) ↔
      256 ≤ b.pages ∧ b.kernel.physEnd ≤ b.pages * PAGE_SIZE ∧ b.bitmapEnd ≤ b.pages * PAGE_SIZE ∧
      EndsBelow b.pages (b.fbTag.framebufferAddr % 2 ^ 32)
        (b.fbTag.framebufferPitch * b.fbTag.framebufferHeight % 2 ^ 32) := by
  have hall : (∀ r ∈ reserved m b.fbTag b.kernel.fb, ∀ k, Marked r.1 r.2 k → k < b.pages) ↔
      ∀ k, ¬ k < b.pages → ∀ r ∈ reserved m b.fbTag b.kernel.fb, ¬ Marked r.1 r.2 k :=
    ⟨fun hb k hk r hr hm => hk (hb r hr k hm),
      fun hb r hr k hm => by_contra fun hk => hb k hk r hr hm⟩
  have hlow : (∀ k, Touches PAGE_SIZE 0 0x100000 k → k < b.pages) ↔ 256 ≤ b.pages := by
    rw [touches_below b.pages (by decide)]
    simp only [PAGE_SIZE]
    omega
  have hkernel := touches_below b.pages (kernel_nonempty b.kernel)
  have hbitmap : 256 ≤ b.pages → ((∀ k, Touches PAGE_SIZE b.bitmapStart b.bitmapEnd k →
      k < b.pages) ↔ b.bitmapEnd ≤ b.pages * PAGE_SIZE) := fun hpages =>
    touches_below b.pages (by rw [BootInfo.bitmapEnd]; omega)
  rw [hall, endsBelow_iff]
  simp only [not_reserved_iff h]
  constructor
  · intro hb
    have hlow' := hlow.mp fun k ht => by_contra fun hk => (hb k hk).1 ht
    exact ⟨hlow', hkernel.mp fun k ht => by_contra fun hk => (hb k hk).2.1 ht,
      (hbitmap hlow').mp fun k ht => by_contra fun hk => (hb k hk).2.2.1 ht,
      fun k hm => by_contra fun hk => (hb k hk).2.2.2 hm⟩
  · rintro ⟨hlow', hkernel', hbitmap', hfb⟩ k hk
    exact ⟨fun ht => hk (hlow.mpr hlow' k ht), fun ht => hk (hkernel.mpr hkernel' k ht),
      fun ht => hk ((hbitmap hlow').mpr hbitmap' k ht), fun hm => hk (hfb k hm)⟩

theorem inBitmap_marked {m : Mmap} {tag : FramebufferTag} {fb : Nat} :
    InBitmap m tag fb ↔ (∀ r ∈ m.usableRegions, ∀ k, Marked r.base r.length k → k < totalPages m) ∧
      ∀ r ∈ reserved m tag fb, ∀ k, Marked r.1 r.2 k → k < totalPages m := by
  simp only [InBitmap, pmmInitOps, List.mem_append, List.mem_flatMap, List.mem_map, mem_markedBits]
  constructor
  · intro h
    exact ⟨fun r hr k hm => h (.clear k) (Or.inl ⟨r, hr, k, hm, rfl⟩),
      fun r hr k hm => h (.set k) (Or.inr ⟨r, hr, k, hm, rfl⟩)⟩
  · rintro ⟨hfree, hused⟩ op (⟨r, hr, k, hm, rfl⟩ | ⟨r, hr, k, hm, rfl⟩)
    · exact hfree r hr k hm
    · exact hused r hr k hm

/-- **The bitmap's bounds.**  All marks of a boot stay in the bitmap exactly when the
frames counted from the memory map reach above everything that is marked. -/
theorem marksFit_iff (b : BootInfo) (mem : Bitmap) :
    ∃ s, boot b.kernel b.tags mem = some s ∧
      (InBitmap s.mmap b.fbTag b.kernel.fb ↔ MarksFit b) := by
  obtain ⟨s, hboot, hscan, -⟩ := boot_some b mem
  refine ⟨s, hboot, ?_⟩
  rw [inBitmap_marked, hscan.pages, reserved_below_iff hscan, hscan.regions]
  simp only [List.forall_mem_map, ← endsBelow_iff]
  constructor
  · rintro ⟨husable, hlow, hkernel, hbitmap, hfb⟩
    exact ⟨husable, hlow, hkernel, hbitmap, hfb⟩
  · rintro ⟨husable, hlow, hkernel, hbitmap, hfb⟩
    exact ⟨husable, hlow, hkernel, hbitmap, hfb⟩

/-- The framebuffer of this boot lies above its memory. -/
theorem ramdiskBoot_outside : ∃ s, boot ramdiskBoot.kernel ramdiskBoot.tags (fun _ => 0) = some s ∧
    ¬ InBitmap s.mmap ramdiskBoot.fbTag ramdiskBoot.kernel.fb := by
  obtain ⟨s, hboot, hscan, -⟩ := boot_some ramdiskBoot fun _ => 0
  refine ⟨s, hboot, fun h => ?_⟩
  have hbelow := (inBitmap_marked.mp h).2
  rw [hscan.pages, reserved_below_iff hscan] at hbelow
  exact absurd hbelow.2.2.2 (by unfold EndsBelow; decide)

end FrogKernel.PmmInit
