import FrogKernel.Memory.KheapRuns
import FrogKernel.Memory.Paging

/-!
# The kernel's virtual areas

The heap grows from `KHEAP_VIRT_START` upwards, `kalloc_pages` from
`LARGE_ALLOC_BASE` upwards, and the tables are seen from `RECURSIVE_BASE` on.
Neither pointer is checked against the area above it.

`KernelMem` joins the heap, the pages of `kalloc_pages` and the page tables; a
step is a step of the heap or one round of the loop of `kalloc_pages`.

Main result: `areas_apart_iff`.
-/

namespace FrogKernel.KernelAreas

open FrogKernel.Bytes FrogKernel.PageTables FrogKernel.Pmm FrogKernel.Paging FrogKernel.Kheap
  FrogKernel.Runs

/-- `frame_phys = pmm_alloc_frame(); map_page(frame_phys, virt, PAGE_PRESENT | PAGE_RW)` -/
def newKernelPage (s : Machine) (virt : Nat) : Option Machine :=
  (pmmAllocFrame s.pmm).bind fun (phys, pmm) =>
    mapPage { s with pmm } phys virt (PAGE_PRESENT ||| PAGE_RW)

/-- The heap, on the page tables, and the static variable of `kalloc_pages`. -/
structure KernelMem where
  heap : KHeap Machine
  largeAllocBase : Nat

def KernelMem.tables (s : KernelMem) : Machine := s.heap.pages

/-- One round of the loop of `kalloc_pages`. -/
def kallocPage (s : KernelMem) : Option KernelMem :=
  (newKernelPage s.heap.pages s.largeAllocBase).map fun pages =>
    { heap := { s.heap with pages }, largeAllocBase := add32 s.largeAllocBase PAGE_SIZE }

def kallocLoop : Nat → KernelMem → Option KernelMem
  | 0, s => some s
  | n + 1, s => (kallocPage s).bind (kallocLoop n)

def kallocPages (s : KernelMem) (numPages : Nat) : Option (Nat × KernelMem) :=
  (kallocLoop numPages s).map fun s' => (s.largeAllocBase, s')

inductive MemEvent where
  | heap (e : HeapEvent)
  | page
  deriving DecidableEq

inductive MemStep : KernelMem × List Alloc → MemEvent → KernelMem × List Alloc → Prop
  | heap {s : KernelMem} {live live' : List Alloc} {e : HeapEvent} {h' : KHeap Machine} :
      HeapStep newKernelPage (s.heap, live) e (h', live') →
      MemStep (s, live) (.heap e) ({ s with heap := h' }, live')
  | page {s s' : KernelMem} {live : List Alloc} :
      kallocPage s = some s' → MemStep (s, live) .page (s', live)

/-- A call of `kalloc_pages` that returns is a run. -/
theorem kallocPages_run {s s' : KernelMem} {live : List Alloc} {n p : Nat}
    (hcall : kallocPages s n = some (p, s')) :
    Run MemStep (s, live) (List.replicate n .page) (s', live) := by
  obtain ⟨t, hloop, heq⟩ := Option.map_eq_some_iff.mp hcall
  obtain ⟨-, rfl⟩ := Prod.mk.inj heq
  clear hcall heq
  induction n generalizing s with
  | zero =>
    obtain rfl := Option.some.inj hloop
    exact .refl _
  | succ n ih =>
    obtain ⟨u, hpage, hrest⟩ := Option.bind_eq_some_iff.mp hloop
    exact .step (.page hpage) (ih hrest)

/-- The page a step maps. -/
def MemEvent.target (s : KernelMem) : MemEvent → Option Nat
  | .heap (.grow _) => some s.heap.kheapEnd
  | .page => some s.largeAllocBase
  | _ => none

/-- The areas have not met, and the next `map_page` finds no page at its target. -/
structure Apart (s : KernelMem × List Alloc) (e : MemEvent) : Prop where
  heap : s.1.heap.kheapEnd ≤ LARGE_ALLOC_BASE
  pages : s.1.largeAllocBase ≤ RECURSIVE_BASE
  fresh : ∀ virt, e.target s.1 = some virt → ¬ Mapped s.1.tables.phys s.1.tables.cr3 virt

/-- The area of the next page is not full. -/
def Room (s : KernelMem × List Alloc) : MemEvent → Prop
  | .heap (.grow _) => s.1.heap.kheapEnd < LARGE_ALLOC_BASE
  | .page => s.1.largeAllocBase < RECURSIVE_BASE
  | _ => True

/-- The tables `kheap_init` finds: none for the areas, and the directory and all
tables in frames that are in use. -/
structure BootTables (s : Machine) : Prop where
  recursive : Recursive s.phys s.cr3
  empty : ∀ i, dirIndex KHEAP_VIRT_START ≤ i → i < 1023 → present (entryAt s.phys s.cr3 i) = false
  apart : ∀ i < 1023, present (entryAt s.phys s.cr3 i) = true →
    frameOf (entryAt s.phys s.cr3 i) ≠ s.cr3
  used : ∀ i < 1024, present (entryAt s.phys s.cr3 i) = true →
    ¬ Free s.pmm (addrToPage (frameOf (entryAt s.phys s.cr3 i)))

/-! ## The tables of the areas -/

/-- Every directory entry of the areas has a table of its own. -/
structure OwnTables (s : Machine) : Prop where
  recursive : Recursive s.phys s.cr3
  apart : ∀ i < 1023, present (entryAt s.phys s.cr3 i) = true →
    frameOf (entryAt s.phys s.cr3 i) ≠ s.cr3
  used : ∀ i < 1024, present (entryAt s.phys s.cr3 i) = true →
    ¬ Free s.pmm (addrToPage (frameOf (entryAt s.phys s.cr3 i)))
  own : ∀ i j, dirIndex KHEAP_VIRT_START ≤ i → i < 1023 → j < 1023 → i ≠ j →
    present (entryAt s.phys s.cr3 i) = true → present (entryAt s.phys s.cr3 j) = true →
    frameOf (entryAt s.phys s.cr3 i) ≠ frameOf (entryAt s.phys s.cr3 j)

/-- An address in the areas. -/
def InAreas (virt : Nat) : Prop := KHEAP_VIRT_START ≤ virt ∧ virt < RECURSIVE_BASE

theorem InAreas.dirIndex {virt : Nat} (h : InAreas virt) :
    dirIndex KHEAP_VIRT_START ≤ dirIndex virt ∧ dirIndex virt < 1023 := by
  simp only [InAreas, KHEAP_VIRT_START, RECURSIVE_BASE, PageTables.dirIndex] at h ⊢
  omega

theorem same_page {v w : Nat} (hv : InAreas v) (hw : InAreas w) :
    dirIndex v = dirIndex w ∧ tabIndex v = tabIndex w ↔ v / 4096 = w / 4096 := by
  simp only [InAreas, RECURSIVE_BASE, dirIndex, tabIndex] at *
  omega

theorem OwnTables.cr3_used {s : Machine} (h : OwnTables s) : ¬ Free s.pmm (addrToPage s.cr3) := by
  have hused := h.used 1023 (by decide) h.recursive.present
  rwa [h.recursive.frame] at hused

theorem OwnTables.more_used {s : Machine} {pmm : PmmState} (h : OwnTables s)
    (hpmm : ∀ i, Free pmm i → Free s.pmm i) : OwnTables { s with pmm } :=
  ⟨h.recursive, h.apart, fun i hi hp hfree => h.used i hi hp (hpmm _ hfree), h.own⟩

theorem OwnTables.setEntry {s : Machine} {virt e : Nat} (h : OwnTables s) (harea : InAreas virt)
    (hp : present (dirEntry s.phys s.cr3 virt) = true) (he : e < 2 ^ 32)
    (hpresent : present e = true) :
    OwnTables { s with phys := setEntry s.phys s.cr3 virt e } ∧
      ∀ v, InAreas v → (Mapped (setEntry s.phys s.cr3 virt e) s.cr3 v ↔
        Mapped s.phys s.cr3 v ∨ v / 4096 = virt / 4096) := by
  have hi := harea.dirIndex
  have hne : s.cr3 ≠ frameOf (dirEntry s.phys s.cr3 virt) := (h.apart _ hi.2 hp).symm
  have hsame := setEntry_sameDir (e := e) h.recursive.aligned hne
  refine ⟨⟨⟨?_, ?_⟩, ?_, ?_, ?_⟩, ?_⟩
  · rw [hsame 1023 (by decide)]
    exact h.recursive.present
  · rw [hsame 1023 (by decide)]
    exact h.recursive.frame
  · intro i hlt
    rw [hsame i (by omega)]
    exact h.apart i hlt
  · intro i hlt
    rw [hsame i hlt]
    exact h.used i hlt
  · intro i j h1 h2 h3
    rw [hsame i (by omega), hsame j (by omega)]
    exact h.own i j h1 h2 h3
  · intro v hv
    have hvi := hv.dirIndex
    rw [Mapped, lookup_setEntry h.recursive.aligned hne he]
    split
    case isTrue hc =>
      obtain ⟨hvp, hframe, htab⟩ := hc
      have hdir : dirIndex v = dirIndex virt := by
        by_contra hdir
        exact h.own _ _ hvi.1 hvi.2 hi.2 hdir hvp hp hframe
      exact iff_of_true hpresent (Or.inr ((same_page hv harea).mp ⟨hdir, htab⟩))
    case isFalse hc =>
      refine ⟨Or.inl, fun hor => hor.resolve_right fun hpage => hc ?_⟩
      obtain ⟨hdir, htab⟩ := (same_page hv harea).mpr hpage
      rw [dirEntry, hdir]
      exact ⟨hp, rfl, htab⟩

theorem OwnTables.newTable {s : Machine} {pmm : PmmState} {virt frame : Nat}
    (h : OwnTables s) (flags : Nat) (harea : InAreas virt)
    (hp : ¬ present (dirEntry s.phys s.cr3 virt) = true) (hh : Handed s.pmm frame pmm) :
    OwnTables { s with
      phys := newTable s.phys s.cr3 (dirIndex virt) frame (frame ||| pdFlags flags), pmm } ∧
    present (dirEntry (newTable s.phys s.cr3 (dirIndex virt) frame (frame ||| pdFlags flags))
      s.cr3 virt) = true ∧
    ∀ v, InAreas v → (Mapped (newTable s.phys s.cr3 (dirIndex virt) frame (frame ||| pdFlags flags))
      s.cr3 v ↔ Mapped s.phys s.cr3 v) := by
  have hi := harea.dirIndex
  have hlt := dirIndex_lt virt
  have he := tableEntry_entry flags hh.aligned (handed_lt hh)
  have hal := h.recursive.aligned
  have hne : s.cr3 ≠ frame := fun heq => h.cr3_used (heq ▸ hh.free)
  have hentry : ∀ i < 1024,
      entryAt (PageTables.newTable s.phys s.cr3 (dirIndex virt) frame (frame ||| pdFlags flags))
        s.cr3 i = if i = dirIndex virt then frame ||| pdFlags flags else entryAt s.phys s.cr3 i := by
    intro i hi'
    rw [entryAt_newTable hal hh.aligned hlt he.lt hal hi' hne]
    simp
  have hfresh : ∀ i < 1024, present (entryAt s.phys s.cr3 i) = true →
      frameOf (entryAt s.phys s.cr3 i) ≠ frame :=
    fun i hi' hpi heq => h.used i hi' hpi (heq ▸ hh.free)
  refine ⟨⟨?_, ?_, ?_, ?_⟩, ?_, ?_⟩
  · exact (h.recursive.writeEntry (by omega) hlt).clear hh.aligned hne
  · intro i hi'
    dsimp only
    rw [hentry i (by omega)]
    split
    · rw [he.frameOf]
      exact fun _ => hne.symm
    · exact h.apart i hi'
  · intro i hi'
    dsimp only
    rw [hentry i hi']
    split
    · rw [he.frameOf]
      exact fun _ => hh.used
    · exact fun hpi hfree => h.used i hi' hpi (hh.fewer _ hfree)
  · intro i j h1 h2 h3 hij
    dsimp only
    rw [hentry i (by omega), hentry j (by omega)]
    split
    case isTrue hiv =>
      rw [if_neg (by omega), he.frameOf]
      exact fun _ hpj heq => hfresh j (by omega) hpj heq.symm
    case isFalse =>
      split
      · rw [he.frameOf]
        exact fun hpi _ => hfresh i (by omega) hpi
      · exact h.own i j h1 h2 h3 hij
  · rw [dirEntry, hentry _ hlt, if_pos rfl]
    exact he.present
  · intro v hv
    have hvi := hv.dirIndex
    rw [Mapped, lookup_newTable hal hh.aligned hlt he.lt he.frameOf hal hne
      fun hpv => ⟨hfresh _ (dirIndex_lt v) hpv, h.apart _ hvi.2 hpv⟩]
    split
    case isTrue hc =>
      have hlookup : lookup s.phys s.cr3 v = 0 := by
        rw [lookup, if_neg]
        rwa [dirEntry, hc.2]
      rw [Mapped, hlookup]
    case isFalse => rfl

/-- **`map_page` in the areas** gives exactly the target page an entry. -/
theorem newKernelPage_maps {s s' : Machine} {virt : Nat} (h : OwnTables s) (harea : InAreas virt)
    (hpage : newKernelPage s virt = some s') :
    OwnTables s' ∧ s'.cr3 = s.cr3 ∧ ∀ v, InAreas v →
      (Mapped s'.phys s'.cr3 v ↔ Mapped s.phys s.cr3 v ∨ v / 4096 = virt / 4096) := by
  obtain ⟨⟨phys, pmm⟩, halloc, hmap⟩ := Option.bind_eq_some_iff.mp hpage
  have hh := pmmAllocFrame_handed halloc
  have h1 : OwnTables { s with pmm } := h.more_used hh.fewer
  have hlt : virt < 2 ^ 32 := by
    have hv := harea.2
    simp only [RECURSIVE_BASE] at hv
    omega
  have he := pageEntry_entry (PAGE_PRESENT ||| PAGE_RW) (handed_lt hh)
  dsimp only at hmap
  rw [mapPage_eq phys _ h1.recursive harea.dirIndex.2 hlt h1.cr3_used] at hmap
  obtain ⟨⟨m, pmm'⟩, hat, heq⟩ := Option.map_eq_some_iff.mp hmap
  subst heq
  rw [mapAt] at hat
  split at hat
  case isTrue hp =>
    obtain ⟨rfl, rfl⟩ := Prod.mk.inj (Option.some.inj hat)
    obtain ⟨hown, hmapped⟩ := h1.setEntry harea hp he.lt he.present
    exact ⟨hown, rfl, hmapped⟩
  case isFalse hp =>
    obtain ⟨⟨frame, pmm2⟩, halloc2, heq2⟩ := Option.map_eq_some_iff.mp hat
    obtain ⟨rfl, rfl⟩ := Prod.mk.inj heq2
    have hh2 := pmmAllocFrame_handed halloc2
    obtain ⟨h2, hp2, hmapped2⟩ := h1.newTable (PAGE_PRESENT ||| PAGE_RW) harea hp hh2
    obtain ⟨hown, hmapped⟩ := h2.setEntry harea hp2 he.lt he.present
    exact ⟨hown, rfl, fun v hv => (hmapped v hv).trans (or_congr_left (hmapped2 v hv))⟩

/-! ## Runs -/

/-- The invariant: only the pages of the two areas are mapped. -/
structure AreasInv (s : KernelMem) : Prop where
  own : OwnTables s.tables
  mapped : ∀ v, InAreas v → Mapped s.tables.phys s.tables.cr3 v →
    v < s.heap.kheapEnd ∨ LARGE_ALLOC_BASE ≤ v ∧ v < s.largeAllocBase
  heapAligned : s.heap.kheapEnd % 4096 = 0
  pagesAligned : s.largeAllocBase % 4096 = 0
  heapStart : KHEAP_VIRT_START ≤ s.heap.kheapEnd
  pagesStart : LARGE_ALLOC_BASE ≤ s.largeAllocBase
  heapEnd : s.heap.kheapEnd ≤ LARGE_ALLOC_BASE
  pagesEnd : s.largeAllocBase ≤ RECURSIVE_BASE

theorem AreasInv.apart {s : KernelMem} {live : List Alloc} {e : MemEvent} (h : AreasInv s)
    (hroom : Room (s, live) e) : Apart (s, live) e := by
  refine ⟨h.heapEnd, h.pagesEnd, fun virt ht hmapped => ?_⟩
  have hstart := h.heapStart
  have hstart' := h.pagesStart
  have hend := h.heapEnd
  simp only [KHEAP_VIRT_START, LARGE_ALLOC_BASE] at hstart hstart' hend
  cases e with
  | heap e =>
    cases e with
    | grow size =>
      obtain rfl : s.heap.kheapEnd = virt := Option.some.inj ht
      simp only [Room, LARGE_ALLOC_BASE] at hroom
      have harea : InAreas s.heap.kheapEnd :=
        ⟨h.heapStart, by simp only [RECURSIVE_BASE]; omega⟩
      have hin := h.mapped _ harea hmapped
      simp only [LARGE_ALLOC_BASE] at hin
      omega
    | kmalloc _ _ | kfree _ | write _ => cases ht
  | page =>
    obtain rfl : s.largeAllocBase = virt := Option.some.inj ht
    have harea : InAreas s.largeAllocBase := ⟨by simp only [KHEAP_VIRT_START]; omega, hroom⟩
    have hin := h.mapped _ harea hmapped
    omega

/-- **Step.** -/
theorem areas_step {s s' : KernelMem} {live live' : List Alloc} {e : MemEvent} (h : AreasInv s)
    (hroom : Room (s, live) e) (hstep : MemStep (s, live) e (s', live')) : AreasInv s' := by
  have hstart := h.heapStart
  have hstart' := h.pagesStart
  have hend := h.heapEnd
  have hend' := h.pagesEnd
  have hal := h.heapAligned
  have hal' := h.pagesAligned
  simp only [KHEAP_VIRT_START, LARGE_ALLOC_BASE, RECURSIVE_BASE] at hstart hstart' hend hend'
  cases hstep with
  | @heap _ _ _ e h' hheap =>
    cases e with
    | grow size =>
      obtain ⟨-, hgrow⟩ := hheap.of_grow
      obtain ⟨pages, _, hpage, -, rfl⟩ := growHeap_some hgrow
      simp only [Room, LARGE_ALLOC_BASE] at hroom
      have harea : InAreas s.heap.kheapEnd := ⟨h.heapStart, by simp only [RECURSIVE_BASE]; omega⟩
      obtain ⟨hown, -, hmapped⟩ := newKernelPage_maps h.own harea hpage
      have hadd : add32 s.heap.kheapEnd PAGE_SIZE = s.heap.kheapEnd + 4096 :=
        add32_eq (by simp only [PAGE_SIZE]; omega)
      refine ⟨hown, fun v hv hm => ?_, ?_, hal', ?_, h.pagesStart, ?_, h.pagesEnd⟩
      · rcases (hmapped v hv).mp hm with hold | hpage
        · have hin := h.mapped v hv hold
          simp only [hadd]
          omega
        · simp only [hadd]
          omega
      · simp only [hadd]; omega
      · simp only [hadd, KHEAP_VIRT_START]; omega
      · simp only [hadd, LARGE_ALLOC_BASE]; omega
    | kmalloc _ _ | kfree _ | write _ =>
      have hsame := heapStep_bounds hheap rfl
      have htables : ({ s with heap := h' } : KernelMem).tables = s.tables := hsame.pages
      refine ⟨htables ▸ h.own, ?_, ?_, hal', ?_, h.pagesStart, ?_, h.pagesEnd⟩
      · rw [htables]
        simp only [hsame.end_]
        exact h.mapped
      · simp only [hsame.end_]; exact hal
      · simp only [hsame.end_]; exact h.heapStart
      · simp only [hsame.end_]; exact h.heapEnd
  | page hcall =>
    obtain ⟨pages, hpage, rfl⟩ := Option.map_eq_some_iff.mp hcall
    simp only [Room, RECURSIVE_BASE] at hroom
    have harea : InAreas s.largeAllocBase :=
      ⟨by simp only [KHEAP_VIRT_START]; omega, by simp only [RECURSIVE_BASE]; omega⟩
    obtain ⟨hown, -, hmapped⟩ := newKernelPage_maps h.own harea hpage
    have hadd : add32 s.largeAllocBase PAGE_SIZE = s.largeAllocBase + 4096 :=
      add32_eq (by simp only [PAGE_SIZE]; omega)
    refine ⟨hown, fun v hv hm => ?_, hal, ?_, h.heapStart, ?_, h.heapEnd, ?_⟩
    · rcases (hmapped v hv).mp hm with hold | hpage
      · have hin := h.mapped v hv hold
        simp only [hadd]
        omega
      · simp only [hadd, LARGE_ALLOC_BASE]
        omega
    · simp only [hadd]; omega
    · simp only [hadd, LARGE_ALLOC_BASE]; omega
    · simp only [hadd, RECURSIVE_BASE]; omega

/-- A page past the end of its area takes the pointer past it too. -/
theorem room_of_apart {s s' : KernelMem} {live live' : List Alloc} {e : MemEvent}
    (hs : s.heap.kheapEnd ≤ LARGE_ALLOC_BASE ∧ s.largeAllocBase ≤ RECURSIVE_BASE)
    (hs' : s'.heap.kheapEnd ≤ LARGE_ALLOC_BASE ∧ s'.largeAllocBase ≤ RECURSIVE_BASE)
    (hstep : MemStep (s, live) e (s', live')) : Room (s, live) e := by
  simp only [LARGE_ALLOC_BASE, RECURSIVE_BASE] at hs hs'
  cases hstep with
  | @heap _ _ _ e h' hheap =>
    cases e with
    | grow size =>
      obtain ⟨_, _, -, -, rfl⟩ := growHeap_some hheap.of_grow.2
      have hadd : add32 s.heap.kheapEnd PAGE_SIZE = s.heap.kheapEnd + 4096 :=
        add32_eq (by simp only [PAGE_SIZE]; omega)
      simp only [hadd] at hs'
      simp only [Room, LARGE_ALLOC_BASE]
      omega
    | kmalloc _ _ | kfree _ | write _ => trivial
  | page hcall =>
    obtain ⟨_, -, rfl⟩ := Option.map_eq_some_iff.mp hcall
    have hadd : add32 s.largeAllocBase PAGE_SIZE = s.largeAllocBase + 4096 :=
      add32_eq (by simp only [PAGE_SIZE]; omega)
    simp only [hadd] at hs'
    simp only [Room, RECURSIVE_BASE]
    omega

/-- The bounds of the areas. -/
def Bounds (s : KernelMem × List Alloc) : Prop :=
  s.1.heap.kheapEnd ≤ LARGE_ALLOC_BASE ∧ s.1.largeAllocBase ≤ RECURSIVE_BASE

theorem room_run {s t : KernelMem × List Alloc} {es : List MemEvent}
    (hrun : Run (Guarded Apart MemStep) s es t) (ht : Bounds t) :
    Run (Guarded Room MemStep) s es t ∧ Bounds s := by
  induction hrun with
  | refl => exact ⟨.refl _, ht⟩
  | step hr _ ih =>
    obtain ⟨hrun, hbounds⟩ := ih ht
    have hs := And.intro hr.1.heap hr.1.pages
    exact ⟨.step ⟨room_of_apart hs hbounds hr.2, hr.2⟩ hrun, hs⟩

theorem apart_run {s t : KernelMem × List Alloc} {es : List MemEvent}
    (hrun : Run (Guarded Room MemStep) s es t) (hs : AreasInv s.1) :
    Run (Guarded Apart MemStep) s es t ∧ AreasInv t.1 := by
  induction hrun with
  | refl => exact ⟨.refl _, hs⟩
  | step hr _ ih =>
    obtain ⟨hrun, ht⟩ := ih (areas_step hs hr.1 hr.2)
    exact ⟨.step ⟨hs.apart hr.1, hr.2⟩ hrun, ht⟩

/-! ## The start -/

theorem BootTables.own {s : Machine} (h : BootTables s) : OwnTables s := by
  refine ⟨h.recursive, h.apart, h.used, fun i j h1 h2 _ _ hp => ?_⟩
  rw [h.empty i h1 h2] at hp
  cases hp

theorem BootTables.nothing_mapped {s : Machine} (h : BootTables s) {v : Nat} (hv : InAreas v) :
    ¬ Mapped s.phys s.cr3 v := by
  have hi := hv.dirIndex
  rw [Mapped, lookup, dirEntry, h.empty _ hi.1 hi.2]
  simp

/-- The pages of `kheap_init`. -/
theorem mapPages_maps {s s' : Machine} {virt n : Nat} (h : OwnTables s)
    (hlo : KHEAP_VIRT_START ≤ virt) (hhi : virt + n * 4096 ≤ LARGE_ALLOC_BASE)
    (haligned : virt % 4096 = 0) (hpages : mapPages newKernelPage s virt n = some s') :
    OwnTables s' ∧ ∀ v, InAreas v → Mapped s'.phys s'.cr3 v →
      Mapped s.phys s.cr3 v ∨ v < virt + n * 4096 := by
  induction n generalizing s virt with
  | zero =>
    obtain rfl := Option.some.inj hpages
    exact ⟨h, fun v _ hm => Or.inl hm⟩
  | succ n ih =>
    obtain ⟨s1, hpage, hrest⟩ := Option.bind_eq_some_iff.mp hpages
    have harea : InAreas virt := by
      simp only [InAreas, KHEAP_VIRT_START, LARGE_ALLOC_BASE, RECURSIVE_BASE] at *
      omega
    obtain ⟨hown, -, hmapped⟩ := newKernelPage_maps h harea hpage
    simp only [PAGE_SIZE] at hrest
    obtain ⟨hown', hmapped'⟩ := ih hown (by omega) (by omega) (by omega) hrest
    refine ⟨hown', fun v hv hm => ?_⟩
    rcases hmapped' v hv hm with hm | hlt
    · rcases (hmapped v hv).mp hm with hm | hpage
      · exact Or.inl hm
      · exact Or.inr (by omega)
    · exact Or.inr (by omega)

theorem kheapInit_pages {s : Machine} {mem : Mem} {h : KHeap Machine}
    (hinit : kheapInit newKernelPage mem s = some h) :
    mapPages newKernelPage s KHEAP_VIRT_START (KHEAP_INITIAL_SIZE / PAGE_SIZE) = some h.pages ∧
      h.kheapEnd = KHEAP_VIRT_START + KHEAP_INITIAL_SIZE := by
  obtain ⟨pages, hpages, rfl⟩ := Option.map_eq_some_iff.mp hinit
  exact ⟨hpages, rfl⟩

theorem kheapInit_areas {s : Machine} {mem : Mem} {h : KHeap Machine} (hboot : BootTables s)
    (hinit : kheapInit newKernelPage mem s = some h) : AreasInv ⟨h, LARGE_ALLOC_BASE⟩ := by
  obtain ⟨hpages, hend⟩ := kheapInit_pages hinit
  obtain ⟨hown, hmapped⟩ := mapPages_maps hboot.own (Nat.le_refl _) (by decide) rfl hpages
  refine ⟨hown, fun v hv hm => ?_, ?_, show LARGE_ALLOC_BASE % 4096 = 0 by decide, ?_,
    Nat.le_refl _, ?_, show LARGE_ALLOC_BASE ≤ RECURSIVE_BASE by decide⟩
  · rcases hmapped v hv hm with hm | hlt
    · exact absurd hm (hboot.nothing_mapped hv)
    · refine Or.inl ?_
      simp only [hend]
      exact hlt
  all_goals
    simp only [hend]
    decide

/-- **The areas.**  In a run from `kheap_init` on, the areas stay apart and every
`map_page` finds its target unmapped, exactly when no page is asked for past
the end of its area. -/
theorem areas_apart_iff {s : Machine} {mem : Mem} {h : KHeap Machine} {t : KernelMem × List Alloc}
    {es : List MemEvent} (hboot : BootTables s) (hinit : kheapInit newKernelPage mem s = some h) :
    Run (Guarded Apart MemStep) (⟨h, LARGE_ALLOC_BASE⟩, []) es t ∧ Bounds t ↔
      Run (Guarded Room MemStep) (⟨h, LARGE_ALLOC_BASE⟩, []) es t := by
  constructor
  · rintro ⟨hapart, hbounds⟩
    exact (room_run hapart hbounds).1
  · intro hroom
    obtain ⟨hapart, ht⟩ := apart_run hroom (kheapInit_areas hboot hinit)
    exact ⟨hapart, ht.heapEnd, ht.pagesEnd⟩

/-! ## A machine with enough memory -/

/-- All frames from `k` on are free. -/
def FreeFrom (p : PmmState) (k : Nat) : Prop := ∀ i, k ≤ i → Free p i

theorem FreeFrom.spare {p : PmmState} {k n : Nat} (h : FreeFrom p k) (h1 : 1 ≤ k)
    (hn : k + n ≤ p.totalPages) : Spare n p := by
  have hsub : Finset.Ico k (k + n) ⊆ freeFrames p := by
    intro i hi
    rw [Finset.mem_Ico] at hi
    simp only [freeFrames, Finset.mem_filter, Finset.mem_range]
    exact ⟨by omega, by omega, h i hi.1⟩
  have hcard := Finset.card_le_card hsub
  rwa [Nat.card_Ico, Nat.add_sub_cancel_left] at hcard

/-- The kernel reaches the table of directory entry `i`, which is not the directory. -/
structure Reaches (s : Machine) (i : Nat) : Prop where
  recursive : Recursive s.phys s.cr3
  used : ¬ Free s.pmm (addrToPage s.cr3)
  apart : present (entryAt s.phys s.cr3 i) = true → frameOf (entryAt s.phys s.cr3 i) ≠ s.cr3

theorem OwnTables.reaches {s : Machine} {virt : Nat} (h : OwnTables s) (harea : InAreas virt) :
    Reaches s (dirIndex virt) where
  recursive := h.recursive
  used := h.cr3_used
  apart := h.apart _ harea.dirIndex.2

/-- Two frames are enough for a page. -/
theorem Reaches.page {s : Machine} {virt n : Nat} (h : Reaches s (dirIndex virt))
    (hdir : dirIndex virt < 1023) (hvirt : virt < 2 ^ 32) (hspare : Spare (n + 2) s.pmm) :
    ∃ s', newKernelPage s virt = some s' ∧ Reaches s' (dirIndex virt) ∧ Spare n s'.pmm := by
  have hal := h.recursive.aligned
  cases halloc : pmmAllocFrame s.pmm with
  | none => exact absurd halloc (hspare.mono (by omega)).ne_none
  | some r =>
    obtain ⟨phys, pmm⟩ := r
    have hh := pmmAllocFrame_handed halloc
    have hused : ¬ Free pmm (addrToPage s.cr3) := fun hf => h.used (hh.fewer _ hf)
    have hspare1 : Spare (n + 1) pmm := hspare.alloc halloc
    have hmap := mapPage_eq (s := { s with pmm }) phys (PAGE_PRESENT ||| PAGE_RW) h.recursive hdir
      hvirt hused
    rw [newKernelPage, halloc, Option.bind_some]
    dsimp only at hmap ⊢
    rw [hmap, mapAt]
    -- the entry goes to a table other than the directory
    have hset : ∀ (m : Mem) (pmm' : PmmState), Recursive m s.cr3 → ¬ Free pmm' (addrToPage s.cr3) →
        frameOf (dirEntry m s.cr3 virt) ≠ s.cr3 → ∀ e,
        Reaches { phys := setEntry m s.cr3 virt e, pmm := pmm', cr3 := s.cr3 } (dirIndex virt) := by
      intro m pmm' hrec hused' hapart e
      have hsame := setEntry_sameDir (e := e) hal hapart.symm
      refine ⟨⟨?_, ?_⟩, hused', ?_⟩
      · rw [hsame 1023 (by decide)]
        exact hrec.present
      · rw [hsame 1023 (by decide)]
        exact hrec.frame
      · rw [hsame _ (dirIndex_lt virt)]
        exact fun _ => hapart
    by_cases hp : present (dirEntry s.phys s.cr3 virt) = true
    · rw [if_pos hp]
      exact ⟨_, rfl, hset s.phys pmm h.recursive hused (h.apart hp) _, hspare1.mono (by omega)⟩
    · rw [if_neg hp]
      cases halloc2 : pmmAllocFrame pmm with
      | none => exact absurd halloc2 (hspare1.mono (by omega)).ne_none
      | some r =>
        obtain ⟨frame, pmm2⟩ := r
        have hh2 := pmmAllocFrame_handed halloc2
        have hne : s.cr3 ≠ frame := fun heq => hused (heq ▸ hh2.free)
        have he := tableEntry_entry (PAGE_PRESENT ||| PAGE_RW) hh2.aligned (handed_lt hh2)
        have hlt := dirIndex_lt virt
        refine ⟨_, rfl, hset _ pmm2 ?_ (fun hf => hused (hh2.fewer _ hf)) ?_ _, hspare1.alloc halloc2⟩
        · exact (h.recursive.writeEntry (by omega) hlt).clear hh2.aligned hne
        · rw [dirEntry, entryAt_newTable hal hh2.aligned hlt he.lt hal hlt hne, if_pos ⟨rfl, rfl⟩,
            he.frameOf]
          exact hne.symm

theorem OwnTables.page {s : Machine} {virt n : Nat} (h : OwnTables s) (harea : InAreas virt)
    (hspare : Spare (n + 2) s.pmm) : ∃ s', newKernelPage s virt = some s' ∧ Spare n s'.pmm := by
  have hlt : virt < 2 ^ 32 := by
    have hv := harea.2
    simp only [RECURSIVE_BASE] at hv
    omega
  obtain ⟨s', hpage, -, hspare'⟩ := (h.reaches harea).page harea.dirIndex.2 hlt hspare
  exact ⟨s', hpage, hspare'⟩

theorem mapPages_some {s : Machine} {k virt n : Nat} (h : OwnTables s)
    (hlo : KHEAP_VIRT_START ≤ virt) (hhi : virt + n * 4096 ≤ LARGE_ALLOC_BASE)
    (hspare : Spare (k + 2 * n) s.pmm) :
    ∃ s', mapPages newKernelPage s virt n = some s' ∧ Spare k s'.pmm := by
  induction n generalizing s virt with
  | zero => exact ⟨s, rfl, hspare⟩
  | succ n ih =>
    have harea : InAreas virt := by
      simp only [InAreas, KHEAP_VIRT_START, LARGE_ALLOC_BASE, RECURSIVE_BASE] at *
      omega
    obtain ⟨s1, hpage, hspare1⟩ := h.page (n := k + 2 * n) harea (hspare.mono (by omega))
    obtain ⟨hown, -, -⟩ := newKernelPage_maps h harea hpage
    have hlo' : KHEAP_VIRT_START ≤ virt + 4096 := by omega
    obtain ⟨s2, hrest, hspare2⟩ := ih hown hlo' (by omega) hspare1
    refine ⟨s2, ?_, hspare2⟩
    rw [mapPages, hpage, Option.bind_some, PAGE_SIZE]
    exact hrest

/-- `kalloc_pages` goes on while its area and the frames last. -/
theorem page_run {s : KernelMem} {k n : Nat} (live : List Alloc) (h : AreasInv s)
    (hspare : Spare (k + 2 * n) s.tables.pmm) (hroom : s.largeAllocBase + n * 4096 ≤ RECURSIVE_BASE) :
    ∃ s', Run (Guarded Room MemStep) (s, live) (List.replicate n .page) (s', live) ∧
      s'.largeAllocBase = s.largeAllocBase + n * 4096 ∧ AreasInv s' ∧ Spare k s'.tables.pmm := by
  induction n generalizing s with
  | zero => exact ⟨s, .refl _, rfl, h, hspare⟩
  | succ n ih =>
    have hstart := h.pagesStart
    have harea : InAreas s.largeAllocBase := by
      simp only [InAreas, KHEAP_VIRT_START, LARGE_ALLOC_BASE, RECURSIVE_BASE] at *
      omega
    obtain ⟨pages, hpage, hspare1⟩ := h.own.page (n := k + 2 * n) harea (hspare.mono (by omega))
    have hcall : kallocPage s =
        some ⟨{ s.heap with pages }, add32 s.largeAllocBase PAGE_SIZE⟩ :=
      congrArg (Option.map _) hpage
    have hadd : add32 s.largeAllocBase PAGE_SIZE = s.largeAllocBase + 4096 :=
      add32_eq (by simp only [PAGE_SIZE, RECURSIVE_BASE] at *; omega)
    rw [hadd] at hcall
    have hr : Room (s, live) .page := harea.2
    have hinv := areas_step h hr (.page hcall)
    obtain ⟨s2, hrun, hbase, hinv2, hspare2⟩ := ih hinv hspare1 (by dsimp only; omega)
    refine ⟨s2, .step ⟨hr, .page hcall⟩ hrun, ?_, hinv2, hspare2⟩
    rw [hbase]
    dsimp only
    omega

/-- The page after the last one of the area is the first of the window, and
`map_page` maps it too. -/
theorem newKernelPage_window {s : Machine} (h : OwnTables s) (hspare : Spare 1 s.pmm) :
    ∃ s', newKernelPage s RECURSIVE_BASE = some s' := by
  obtain ⟨⟨phys, pmm⟩, halloc⟩ := Option.ne_none_iff_exists'.mp hspare.ne_none
  have hdir : RECURSIVE_BASE >>> 22 = 1023 := by decide
  have htab : (RECURSIVE_BASE >>> 12) &&& 0x3ff = 0 := by decide
  have hload := load32_dir (s := { s with pmm }) h.recursive (i := 1023) (by decide)
  have hstore := store32_table (s := { s with pmm }) (i := 1023) (j := 0)
    (v := pageEntry phys (PAGE_PRESENT ||| PAGE_RW)) h.recursive (by decide) (by decide)
    h.recursive.present
  have hpresent := (and_present (entryAt s.phys s.cr3 1023)).not.mpr (by simp [h.recursive.present])
  rw [newKernelPage, halloc, Option.bind_some]
  dsimp only at hload hstore ⊢
  rw [mapPage, hdir, htab, hload, Option.bind_some, if_neg hpresent, Option.bind_some]
  exact ⟨_, hstore⟩

/-- 4 GiB of memory.  The first 4 MiB are in use and mapped at `0` and at
`KERNEL_OFFSET`, with the page directory and that table among them. -/
def bootMachine : Machine where
  phys :=
    let identity : Mem := fun a =>
      if 0x301000 ≤ a ∧ a < 0x302000 then
        BitVec.ofNat 8 (((a - 0x301000) / 4 * 4096 + 3) / 256 ^ (a % 4))
      else 0
    writeEntry (writeEntry (writeEntry identity 0x300000 0 (0x301000 + 3)) 0x300000 768
      (0x301000 + 3)) 0x300000 1023 (0x300000 + 3)
  pmm := ⟨2 ^ 20 - 1, fun k => if k < 128 then 0xff else 0, by decide⟩
  cr3 := 0x300000

theorem bootMachine_entry {i : Nat} (hi : i < 1024) :
    entryAt bootMachine.phys bootMachine.cr3 i =
      if i = 1023 then 0x300003 else if i = 0 ∨ i = 768 then 0x301003 else 0 := by
  -- the table lies behind the directory
  have hzero : ∀ identity : Mem, (∀ a < 0x301000, identity a = 0) →
      entryAt identity 0x300000 i = 0 := by
    intro identity hbelow
    exact readN_congr (m := fun _ => 0) fun x _ hx => hbelow x (by omega)
  unfold bootMachine
  dsimp only
  rw [entryAt_writeEntry (by decide) (by decide) (by decide) hi (by decide),
    entryAt_writeEntry (by decide) (by decide) (by decide) hi (by decide),
    entryAt_writeEntry (by decide) (by decide) (by decide) hi (by decide),
    hzero _ fun a ha => if_neg (by omega)]
  split_ifs <;> first | rfl | omega

theorem bootMachine_tables : BootTables bootMachine where
  recursive := ⟨by rw [bootMachine_entry (by decide)]; rfl, by rw [bootMachine_entry (by decide)]; rfl⟩
  empty i h1 h2 := by
    have h1' : 832 ≤ i := h1
    rw [bootMachine_entry (by omega), if_neg (by omega), if_neg (by omega), present_zero]
  apart i hi hp := by
    rw [bootMachine_entry (by omega), if_neg (by omega)] at hp ⊢
    split at hp
    case isTrue h =>
      rw [if_pos h]
      decide
    case isFalse => cases hp
  used i hi hp := by
    rw [bootMachine_entry hi] at hp ⊢
    split_ifs at hp ⊢
    · decide +kernel
    · decide +kernel
    · cases hp

theorem bootMachine_free : FreeFrom bootMachine.pmm 1024 := by
  intro i hi
  have hbyte : bootMachine.pmm.pmmBitmap (i / 8) = 0 := if_neg (by omega)
  rw [Free, bitTest, hbyte]
  simp

theorem bootMachine_spare {n : Nat} (hn : n ≤ 2 ^ 20 - 1025) : Spare n bootMachine.pmm := by
  refine bootMachine_free.spare (by decide) ?_
  have htotal : bootMachine.pmm.totalPages = 2 ^ 20 - 1 := rfl
  omega

/-- `kheap_init` on this machine: each of its 1024 pages takes at most two frames. -/
theorem bootMachine_init : ∃ h, kheapInit newKernelPage (fun _ => 0) bootMachine = some h ∧
    AreasInv ⟨h, LARGE_ALLOC_BASE⟩ ∧ Spare 0xff000 h.pages.pmm := by
  obtain ⟨pages, hpages, hspare⟩ := mapPages_some (k := 0xff000) (n := 1024) bootMachine_tables.own
    (Nat.le_refl _) (by decide) (bootMachine_spare (by decide))
  have hinit : ∃ h, kheapInit newKernelPage (fun _ => 0) bootMachine = some h ∧ h.pages = pages := by
    have hcount : KHEAP_INITIAL_SIZE / PAGE_SIZE = 1024 := by decide
    rw [kheapInit, hcount, hpages]
    exact ⟨_, rfl, rfl⟩
  obtain ⟨h, hinit, rfl⟩ := hinit
  exact ⟨h, hinit, kheapInit_areas bootMachine_tables hinit, hspare⟩

/-- One page of `kalloc_pages`. -/
theorem onePage_apart : ∃ h t, kheapInit newKernelPage (fun _ => 0) bootMachine = some h ∧
    Run (Guarded Apart MemStep) (⟨h, LARGE_ALLOC_BASE⟩, []) [.page] t ∧ Bounds t := by
  obtain ⟨h, hinit, hinv, hspare⟩ := bootMachine_init
  obtain ⟨t, hrun, -, -, -⟩ := page_run (k := 0) (n := 1) [] hinv (hspare.mono (by decide))
    (show LARGE_ALLOC_BASE + 1 * 4096 ≤ RECURSIVE_BASE by decide)
  obtain ⟨hapart, hbounds⟩ := (areas_apart_iff bootMachine_tables hinit).mpr hrun
  exact ⟨h, _, hinit, hapart, hbounds⟩

/-- `kalloc_pages(0x1fc01)` leaves its area: the last page it maps is the first
one of the recursive window. -/
theorem manyPages_overrun : ∃ h s, kheapInit newKernelPage (fun _ => 0) bootMachine = some h ∧
    Run MemStep (⟨h, LARGE_ALLOC_BASE⟩, []) (List.replicate 0x1fc00 .page ++ [.page]) (s, []) ∧
    RECURSIVE_BASE < s.largeAllocBase := by
  obtain ⟨h, hinit, hinv, hspare⟩ := bootMachine_init
  obtain ⟨s, hrun, hbase, hs, hsspare⟩ := page_run (k := 1) (n := 0x1fc00) [] hinv
    (hspare.mono (by decide)) (show LARGE_ALLOC_BASE + 0x1fc00 * 4096 ≤ RECURSIVE_BASE by decide)
  have hsum : LARGE_ALLOC_BASE + 0x1fc00 * 4096 = RECURSIVE_BASE := by decide
  have hfull : s.largeAllocBase = RECURSIVE_BASE := hbase.trans hsum
  obtain ⟨pages, hpage⟩ := newKernelPage_window hs.own hsspare
  have hcall : kallocPage s = some ⟨{ s.heap with pages }, add32 s.largeAllocBase PAGE_SIZE⟩ := by
    rw [kallocPage, hfull]
    exact congrArg (Option.map _) hpage
  refine ⟨h, _, hinit, hrun.of_guarded.snoc (.page hcall), ?_⟩
  show RECURSIVE_BASE < add32 s.largeAllocBase PAGE_SIZE
  rw [hfull]
  decide

end FrogKernel.KernelAreas
