import FrogKernel.Userspace.NewProcess

/-!
# The kernel half of the page directories

`uprocess_create_pagedir` copies the upper entries of the loaded directory once.
`map_page` adds a table only to the directory that is loaded when the heap or
`kalloc_pages` gets to a new 4 MiB.

Main result: `halves_shared_iff`, over runs of `MemStep`, new processes and switches.
-/

namespace FrogKernel.KernelHalf

open FrogKernel.Bytes FrogKernel.PageTables FrogKernel.Pmm FrogKernel.Paging FrogKernel.ForeignMap
  FrogKernel.AddressSpace FrogKernel.Loader FrogKernel.Kheap FrogKernel.KernelAreas FrogKernel.Runs

/-- Entry `i` of two directories refers to the same table, or is absent in both. -/
def SameTable (m : Mem) (d d' i : Nat) : Prop :=
  present (entryAt m d i) = present (entryAt m d' i) ∧
    (present (entryAt m d i) = true → frameOf (entryAt m d i) = frameOf (entryAt m d' i))

/-- The directories agree on the kernel half below the slots. -/
def SharedIn (m : Mem) (ds : List Nat) : Prop :=
  ∀ d ∈ ds, ∀ d' ∈ ds, ∀ i, 768 ≤ i → i < TEMP_PD_SLOT → SameTable m d d' i

/-! ## The page directories -/

/-- Each directory can be loaded, and the tables of its kernel half are none of
the directories. -/
structure Tables (m : Machine) (ds : List Nat) : Prop where
  loaded : m.cr3 ∈ ds
  recursive : ∀ d ∈ ds, Recursive m.phys d
  closed : ∀ d ∈ ds, present (entryAt m.phys d TEMP_PT_SLOT) = false
  used : ∀ d ∈ ds, ¬ Free m.pmm (addrToPage d)
  apart : ∀ d ∈ ds, ∀ i, 768 ≤ i → i < TEMP_PD_SLOT → present (entryAt m.phys d i) = true →
    frameOf (entryAt m.phys d i) ∉ ds
  taken : ∀ d ∈ ds, ∀ i, 768 ≤ i → i < TEMP_PD_SLOT → present (entryAt m.phys d i) = true →
    ¬ Free m.pmm (addrToPage (frameOf (entryAt m.phys d i)))

section Tables

variable {m m' : Machine} {ds : List Nat}

theorem Tables.ready (h : Tables m ds) : Ready m where
  recursive := h.recursive _ h.loaded
  used := h.used _ h.loaded
  closed := h.closed _ h.loaded

theorem Tables.switch (h : Tables m ds) {d : Nat} (hd : d ∈ ds) : Tables { m with cr3 := d } ds where
  loaded := hd
  recursive := h.recursive
  closed := h.closed
  used := h.used
  apart := h.apart
  taken := h.taken

/-- What a page of the kernel changes in the directories: at most entry `k` of the
loaded one, which becomes `e`. -/
structure Added (m m' : Machine) (ds : List Nat) (k e : Nat) : Prop where
  cr3 : m'.cr3 = m.cr3
  fewer : ∀ i, Free m'.pmm i → Free m.pmm i
  valid : present e = true
  frame : frameOf e ∉ ds
  taken : ¬ Free m'.pmm (addrToPage (frameOf e))
  entries : ∀ d ∈ ds, ∀ j < 1024, entryAt m'.phys d j =
    if present (entryAt m.phys m.cr3 k) = false ∧ d = m.cr3 ∧ j = k then e
    else entryAt m.phys d j

/-- **`map_page`** in the kernel half. -/
theorem Tables.added (h : Tables m ds) {virt : Nat} (hlow : 768 ≤ dirIndex virt)
    (hhigh : dirIndex virt < TEMP_PD_SLOT) (hvirt : virt < 2 ^ 32)
    (hpage : newKernelPage m virt = some m') : ∃ e, Added m m' ds (dirIndex virt) e := by
  have hlt := dirIndex_lt virt
  have hrec := h.recursive _ h.loaded
  have hal := hrec.aligned
  obtain ⟨⟨phys, pmm⟩, halloc, hmap⟩ := Option.bind_eq_some_iff.mp hpage
  have hh := pmmAllocFrame_handed halloc
  have hused : ∀ d ∈ ds, ¬ Free pmm (addrToPage d) := fun d hd hf => h.used d hd (hh.fewer _ hf)
  have hdir : dirIndex virt < 1023 := by
    simp only [TEMP_PD_SLOT] at hhigh
    omega
  dsimp only at hmap
  rw [mapPage_eq (s := { m with pmm }) phys _ hrec hdir hvirt (hused _ h.loaded)] at hmap
  obtain ⟨⟨mem, pmm'⟩, hat, rfl⟩ := Option.map_eq_some_iff.mp hmap
  rcases mapAt_cases hat with ⟨hp, rfl, rfl⟩ | ⟨hp, frame, halloc', rfl⟩
  · have hapart := h.apart _ h.loaded _ hlow hhigh hp
    refine ⟨dirEntry m.phys m.cr3 virt, rfl, hh.fewer, hp, hapart,
      fun hf => h.taken _ h.loaded _ hlow hhigh hp (hh.fewer _ hf), fun d hd j hj => ?_⟩
    have hne : d ≠ frameOf (dirEntry m.phys m.cr3 virt) := fun heq => hapart (heq ▸ hd)
    rw [if_neg fun hc => by rw [dirEntry, hc.1] at hp; cases hp]
    exact setEntry_sameDir (h.recursive d hd).aligned hne j hj
  · have hh' := pmmAllocFrame_handed halloc'
    have he := tableEntry_entry (PAGE_PRESENT ||| PAGE_RW) hh'.aligned (handed_lt hh')
    have hfresh : ∀ d ∈ ds, d ≠ frame := fun d hd heq => hused d hd (heq ▸ hh'.free)
    have hnew : ∀ d ∈ ds, ∀ j < 1024, entryAt (newTable m.phys m.cr3 (dirIndex virt) frame
        (frame ||| pdFlags (PAGE_PRESENT ||| PAGE_RW))) d j =
        if d = m.cr3 ∧ j = dirIndex virt then frame ||| pdFlags (PAGE_PRESENT ||| PAGE_RW)
        else entryAt m.phys d j := fun d hd j hj =>
      entryAt_newTable hal hh'.aligned hlt he.lt (h.recursive d hd).aligned hj (hfresh d hd)
    refine ⟨frame ||| pdFlags (PAGE_PRESENT ||| PAGE_RW), rfl,
      fun i hi => hh.fewer i (hh'.fewer i hi), he.present, ?_, ?_, fun d hd j hj => ?_⟩
    · rw [he.frameOf]
      exact fun hmem => hfresh frame hmem rfl
    · rw [he.frameOf]
      exact hh'.used
    · have hself := hnew _ h.loaded _ hlt
      rw [if_pos ⟨rfl, rfl⟩] at hself
      have hne : d ≠ frameOf (dirEntry (newTable m.phys m.cr3 (dirIndex virt) frame
          (frame ||| pdFlags (PAGE_PRESENT ||| PAGE_RW))) m.cr3 virt) := by
        rw [dirEntry, hself, he.frameOf]
        exact hfresh d hd
      rw [dirEntry] at hp
      dsimp only
      rw [setEntry_sameDir (h.recursive d hd).aligned hne j hj, hnew d hd j hj]
      simp only [hp, true_and]

theorem Added.tables {k e : Nat} (ha : Added m m' ds k e) (h : Tables m ds) (hk : k < TEMP_PD_SLOT) :
    Tables m' ds := by
  simp only [TEMP_PD_SLOT] at hk
  have hother : ∀ d ∈ ds, ∀ j < 1024, 1020 ≤ j → entryAt m'.phys d j = entryAt m.phys d j := by
    intro d hd j hj hlow
    rw [ha.entries d hd j hj, if_neg (by omega)]
  refine ⟨ha.cr3 ▸ h.loaded, fun d hd => ⟨?_, ?_⟩, fun d hd => ?_,
    fun d hd hf => h.used d hd (ha.fewer _ hf), fun d hd i hlow hi => ?_, fun d hd i hlow hi => ?_⟩
  · rw [hother d hd 1023 (by decide) (by decide)]
    exact (h.recursive d hd).present
  · rw [hother d hd 1023 (by decide) (by decide)]
    exact (h.recursive d hd).frame
  · rw [hother d hd TEMP_PT_SLOT (by decide) (by decide)]
    exact h.closed d hd
  · have hlt : i < 1024 := Nat.lt_trans hi (by decide)
    rw [ha.entries d hd i hlt]
    split
    · exact fun _ => ha.frame
    · exact h.apart d hd i hlow hi
  · have hlt : i < 1024 := Nat.lt_trans hi (by decide)
    rw [ha.entries d hd i hlt]
    split
    · exact fun _ => ha.taken
    · exact fun hp hf => h.taken d hd i hlow hi hp (ha.fewer _ hf)

/-- Without a new table the directories stay as they are. -/
theorem Added.shared {k e : Nat} (ha : Added m m' ds k e)
    (hkeep : present (entryAt m.phys m.cr3 k) = true ∨ ∀ d ∈ ds, d = m.cr3)
    (hshared : SharedIn m.phys ds) : SharedIn m'.phys ds := by
  intro d hd d' hd' i hlow hi
  have hlt : i < 1024 := Nat.lt_trans hi (by decide)
  rcases hkeep with hp | hone
  · have hsame : ∀ d ∈ ds, entryAt m'.phys d i = entryAt m.phys d i := by
      intro d hd
      rw [ha.entries d hd i hlt, if_neg fun hc => by rw [hp] at hc; cases hc.1]
    rw [SameTable, hsame d hd, hsame d' hd']
    exact hshared d hd d' hd' i hlow hi
  · obtain rfl := (hone d hd).trans (hone d' hd').symm
    exact ⟨rfl, fun _ => rfl⟩

/-- A new table is in one directory only. -/
theorem Added.not_shared {k e : Nat} (ha : Added m m' ds k e) (h : Tables m ds) (hlow : 768 ≤ k)
    (hk : k < TEMP_PD_SLOT) (hp : present (entryAt m.phys m.cr3 k) = false) {d : Nat} (hd : d ∈ ds)
    (hne : d ≠ m.cr3) (hshared : SharedIn m.phys ds) : ¬ SharedIn m'.phys ds := by
  intro hshared'
  have hlt : k < 1024 := Nat.lt_trans hk (by decide)
  have hbefore := (hshared d hd _ h.loaded k hlow hk).1
  have hafter := (hshared' d hd _ h.loaded k hlow hk).1
  rw [ha.entries d hd k hlt, if_neg fun hc => hne hc.2.1, ha.entries _ h.loaded k hlt,
    if_pos ⟨hp, rfl, rfl⟩, ha.valid, hbefore, hp] at hafter
  cases hafter

/-- **A new process** has the kernel half of the loaded directory. -/
theorem Tables.create {k : Bytes32} {data pd : Nat} {argv : List Nat} {l : Loaded} {ds' : List Nat}
    (h : Tables m ds) (hok : newProcess k m data argv = .ok (pd, l, m'))
    (hds : ∀ d, d ∈ ds' ↔ d = pd ∨ d ∈ ds) :
    pd ∉ ds ∧ Tables m' ds' ∧ (SharedIn m.phys ds → SharedIn m'.phys ds') ∧ m'.cr3 = m.cr3 ∧
      ∀ d ∈ ds, ∀ j < TEMP_PD_SLOT, entryAt m'.phys d j = entryAt m.phys d j := by
  obtain ⟨e, buf, -, hmade⟩ := Made.of_ok h.ready hok
  obtain ⟨role, hb⟩ := hmade.building
  obtain ⟨hpd, hpdlt, -, hpdused⟩ := hb.pd_frame
  have hpdfree : Free m.pmm (addrToPage pd) := by
    refine (hb.taken pd ?_).1
    rw [hb.space.directory]
    exact Option.some_ne_none _
  have hnew : pd ∉ ds := fun hmem => h.used pd hmem hpdfree
  -- the other directories change in the slots of the loaded one only
  have hold : ∀ d ∈ ds, ∀ j < 1024, j < TEMP_PD_SLOT ∨ RECURSIVE_SLOT ≤ j ∨ d ≠ m.cr3 →
      entryAt m'.phys d j = entryAt m.phys d j := by
    intro d hd j hj hslot
    have hal := (h.recursive d hd).aligned
    have hal' := (h.recursive _ h.loaded).aligned
    have hrole : role d = none := by
      by_contra hrole
      exact h.used d hd (hb.taken d hrole).1
    refine readN_congr fun x h1 h2 => hb.elsewhere x ?_ ?_
    · have hframe : frameOf x = d := by
        simp only [frameOf]
        omega
      rw [hframe, hrole]
    · simp only [SlotByte, TEMP_PD_SLOT, RECURSIVE_SLOT] at hslot ⊢
      omega
  have hcopy : ∀ j, 768 ≤ j → j < TEMP_PD_SLOT → entryAt m'.phys pd j = entryAt m.phys m.cr3 j := by
    intro j hlow hj
    simp only [TEMP_PD_SLOT] at hj
    rw [hb.upper j (by omega) hlow, upperEntry, if_neg (by simp only [RECURSIVE_SLOT]; omega),
      if_neg (by simp only [TEMP_PD_SLOT]; omega)]
  have hlt : ∀ {j}, j < TEMP_PD_SLOT → j < 1024 := fun hj => Nat.lt_trans hj (by decide)
  -- each entry of the kernel half was there before
  have hentry : ∀ d ∈ ds', ∃ d₀ ∈ ds, ∀ j, 768 ≤ j → j < TEMP_PD_SLOT →
      entryAt m'.phys d j = entryAt m.phys d₀ j := by
    intro d hd
    rcases (hds d).mp hd with rfl | hd
    · exact ⟨m.cr3, h.loaded, hcopy⟩
    · exact ⟨d, hd, fun j _ hj => hold d hd j (hlt hj) (Or.inl hj)⟩
  refine ⟨hnew, ⟨?_, ?_, ?_, ?_, ?_, ?_⟩, ?_, hb.cr3,
    fun d hd j hj => hold d hd j (hlt hj) (Or.inl hj)⟩
  · exact hb.cr3 ▸ (hds _).mpr (Or.inr h.loaded)
  · intro d hd
    rcases (hds d).mp hd with rfl | hd
    · have he := slotEntry hpd hpdlt
      have hself : entryAt m'.phys d 1023 = d ||| PAGE_PRESENT ||| PAGE_RW := by
        rw [hb.upper 1023 (by decide) (by decide), upperEntry, if_pos (by decide)]
      exact ⟨hself ▸ he.present, hself ▸ he.frameOf⟩
    · have hsame := hold d hd 1023 (by decide) (Or.inr (Or.inl (Nat.le_refl _)))
      exact ⟨hsame ▸ (h.recursive d hd).present, hsame ▸ (h.recursive d hd).frame⟩
  · intro d hd
    rcases (hds d).mp hd with rfl | hd
    · rw [hb.upper TEMP_PT_SLOT (by decide) (by decide), upperEntry, if_neg (by decide),
        if_neg (by decide)]
      exact h.closed _ h.loaded
    · by_cases hcr3 : d = m.cr3
      · rw [hcr3, ← hb.cr3]
        exact hb.ready.closed
      · rw [hold d hd TEMP_PT_SLOT (by decide) (Or.inr (Or.inr hcr3))]
        exact h.closed d hd
  · intro d hd
    rcases (hds d).mp hd with rfl | hd
    · exact hpdused
    · exact fun hf => h.used d hd (hb.fewer _ hf)
  · intro d hd i hlow hi
    obtain ⟨d₀, hd₀, hsame⟩ := hentry d hd
    rw [hsame i hlow hi]
    intro hp hmem
    rcases (hds _).mp hmem with heq | hmem
    · exact h.taken d₀ hd₀ i hlow hi hp (heq ▸ hpdfree)
    · exact h.apart d₀ hd₀ i hlow hi hp hmem
  · intro d hd i hlow hi
    obtain ⟨d₀, hd₀, hsame⟩ := hentry d hd
    rw [hsame i hlow hi]
    exact fun hp hf => h.taken d₀ hd₀ i hlow hi hp (hb.fewer _ hf)
  · intro hshared d hd d' hd' i hlow hi
    obtain ⟨d₀, hd₀, hsame⟩ := hentry d hd
    obtain ⟨d₀', hd₀', hsame'⟩ := hentry d' hd'
    rw [SameTable, hsame i hlow hi, hsame' i hlow hi]
    exact hshared d₀ hd₀ d₀' hd₀' i hlow hi

end Tables

/-! ## Runs -/

/-- The memory of the kernel, its page directory and those of the processes. -/
structure DirState where
  mem : KernelMem
  live : List Alloc
  kernelPd : Nat
  dirs : List Nat

def DirState.tables (s : DirState) : Machine := s.mem.tables

def DirState.all (s : DirState) : List Nat := s.kernelPd :: s.dirs

def withTables (mem : KernelMem) (m : Machine) : KernelMem :=
  { mem with heap := { mem.heap with pages := m } }

inductive DirEvent where
  | mem (e : MemEvent)
  | create (pd : Nat)
  | switch (dir : Nat)

/-- `kmalloc`, `kfree` and `kalloc_pages`, the creation of a process and the load of
a directory. -/
inductive DirStep : DirState → DirEvent → DirState → Prop
  | mem {s : DirState} {e : MemEvent} {mem : KernelMem} {live : List Alloc} :
      MemStep (s.mem, s.live) e (mem, live) → DirStep s (.mem e) { s with mem, live }
  | create {s : DirState} {k : Bytes32} {data pd : Nat} {argv : List Nat} {l : Loaded} {m : Machine} :
      newProcess k s.tables data argv = .ok (pd, l, m) →
      DirStep s (.create pd) { s with mem := withTables s.mem m, dirs := pd :: s.dirs }
  | switch {s : DirState} {dir : Nat} : dir ∈ s.all →
      DirStep s (.switch dir) { s with mem := withTables s.mem { s.tables with cr3 := dir } }

/-- After `kheap_init`, with the kernel's directory loaded. -/
def booted (h : KHeap Machine) : DirState := ⟨⟨h, LARGE_ALLOC_BASE⟩, [], h.pages.cr3, []⟩

/-- All address spaces share one kernel half. -/
def Shared (s : DirState) : Prop := SharedIn s.tables.phys s.all

/-- The next page lies below the addresses that the slots translate. -/
def BelowSlots (s : DirState) : DirEvent → Prop
  | .mem e => ∀ virt, e.target s.mem = some virt → virt < 0xff000000
  | _ => True

/-- The next page needs no new table, or there is no other directory. -/
def KeepsTables (s : DirState) : DirEvent → Prop
  | .mem e => ∀ virt, e.target s.mem = some virt →
      present (dirEntry s.tables.phys s.tables.cr3 virt) = true ∨ s.dirs = []
  | _ => True

structure HalfInv (s : DirState) : Prop where
  heapStart : KHEAP_VIRT_START ≤ s.mem.heap.kheapEnd
  pagesStart : KHEAP_VIRT_START ≤ s.mem.largeAllocBase
  kernel : s.kernelPd ∉ s.dirs
  tables : Tables s.tables s.all
  shared : Shared s

theorem kernelIndex {virt : Nat} (hlow : KHEAP_VIRT_START ≤ virt) (hhigh : virt < 0xff000000) :
    768 ≤ dirIndex virt ∧ dirIndex virt < TEMP_PD_SLOT ∧ virt < 2 ^ 32 := by
  simp only [KHEAP_VIRT_START, dirIndex, TEMP_PD_SLOT] at *
  omega

/-- A step of the memory maps a page at its target, or leaves the tables alone. -/
theorem memStep_cases {s : KernelMem} {live live' : List Alloc} {e : MemEvent} {s' : KernelMem}
    (hstep : MemStep (s, live) e (s', live')) :
    (e.target s = none ∧ s'.tables = s.tables ∧ s'.heap.kheapEnd = s.heap.kheapEnd ∧
      s'.largeAllocBase = s.largeAllocBase) ∨
    ∃ virt, e.target s = some virt ∧ newKernelPage s.tables virt = some s'.tables ∧
      (virt = s.heap.kheapEnd ∧ s'.heap.kheapEnd = add32 virt PAGE_SIZE ∧
          s'.largeAllocBase = s.largeAllocBase ∨
        virt = s.largeAllocBase ∧ s'.largeAllocBase = add32 virt PAGE_SIZE ∧
          s'.heap.kheapEnd = s.heap.kheapEnd) := by
  cases hstep with
  | @heap _ _ _ e h' hheap =>
    cases e with
    | grow size =>
      obtain ⟨pages, _, hpage, -, rfl⟩ := growHeap_some hheap.of_grow.2
      exact Or.inr ⟨_, rfl, hpage, Or.inl ⟨rfl, rfl, rfl⟩⟩
    | kmalloc _ _ | kfree _ | write _ =>
      have hsame := heapStep_bounds hheap rfl
      exact Or.inl ⟨rfl, hsame.pages, hsame.end_, rfl⟩
  | page hcall =>
    obtain ⟨pages, hpage, rfl⟩ := Option.map_eq_some_iff.mp hcall
    exact Or.inr ⟨_, rfl, hpage, Or.inr ⟨rfl, rfl, rfl⟩⟩

theorem HalfInv.target {s : DirState} {e : MemEvent} {virt : Nat} (h : HalfInv s)
    (ht : e.target s.mem = some virt) : KHEAP_VIRT_START ≤ virt := by
  cases e with
  | heap e =>
    cases e with
    | grow size => exact Option.some.inj ht ▸ h.heapStart
    | kmalloc _ _ | kfree _ | write _ => cases ht
  | page => exact Option.some.inj ht ▸ h.pagesStart

/-- **Step.** -/
theorem halfInv_step {s s' : DirState} {e : DirEvent} (h : HalfInv s)
    (hstep : Guarded KeepsTables (Guarded BelowSlots DirStep) s e s') : HalfInv s' := by
  obtain ⟨hkeeps, hbelow, hstep⟩ := hstep
  cases hstep with
  | @mem e mem live hmem =>
    rcases memStep_cases hmem with ⟨-, htables, hend, hbase⟩ | ⟨virt, ht, hpage, hends⟩
    · refine ⟨hend ▸ h.heapStart, hbase ▸ h.pagesStart, h.kernel, ?_, ?_⟩
      · show Tables mem.tables s.all
        rw [htables]
        exact h.tables
      · show SharedIn mem.tables.phys s.all
        rw [htables]
        exact h.shared
    · have hlow := h.target ht
      have hhigh := hbelow virt ht
      obtain ⟨hk, hk', hvirt⟩ := kernelIndex hlow hhigh
      obtain ⟨e', ha⟩ := h.tables.added hk hk' hvirt hpage
      have hadd : add32 virt PAGE_SIZE = virt + 4096 := add32_eq (by simp only [PAGE_SIZE]; omega)
      have hstarts : KHEAP_VIRT_START ≤ mem.heap.kheapEnd ∧ KHEAP_VIRT_START ≤ mem.largeAllocBase := by
        rcases hends with ⟨-, hend, hbase⟩ | ⟨-, hbase, hend⟩
        · exact ⟨by rw [hend, hadd]; omega, hbase ▸ h.pagesStart⟩
        · exact ⟨hend ▸ h.heapStart, by rw [hbase, hadd]; omega⟩
      refine ⟨hstarts.1, hstarts.2, h.kernel, ha.tables h.tables hk', ha.shared ?_ h.shared⟩
      refine (hkeeps virt ht).imp id fun hnil d hd => ?_
      have hloaded := h.tables.loaded
      rw [DirState.all, hnil, List.mem_singleton] at hd hloaded
      exact hd.trans hloaded.symm
  | @create _ _ pd _ _ _ hok =>
    have hds : ∀ d, d ∈ s.kernelPd :: pd :: s.dirs ↔ d = pd ∨ d ∈ s.all := by
      intro d
      simp only [DirState.all, List.mem_cons]
      exact or_left_comm
    obtain ⟨hnew, htables, hshared, -⟩ := h.tables.create hok hds
    refine ⟨h.heapStart, h.pagesStart, ?_, htables, hshared h.shared⟩
    rintro hmem
    rcases List.mem_cons.mp hmem with heq | hmem
    · exact hnew (heq ▸ List.mem_cons_self)
    · exact h.kernel hmem
  | switch hdir => exact ⟨h.heapStart, h.pagesStart, h.kernel, h.tables.switch hdir, h.shared⟩

/-- **A new table** with a process around ends the sharing. -/
theorem newTable_breaks {s s' : DirState} {e : DirEvent} (h : HalfInv s) (hnew : ¬ KeepsTables s e)
    (hstep : Guarded BelowSlots DirStep s e s') : ¬ Shared s' := by
  obtain ⟨hbelow, hstep⟩ := hstep
  cases hstep with
  | @mem e mem live hmem =>
    simp only [KeepsTables, not_forall] at hnew
    obtain ⟨virt, ht, hno⟩ := hnew
    obtain ⟨hp, hdirs⟩ := not_or.mp hno
    rcases memStep_cases hmem with ⟨ht', -⟩ | ⟨virt', ht', hpage, -⟩
    · rw [ht] at ht'
      cases ht'
    · obtain rfl := Option.some.inj (ht.symm.trans ht')
      obtain ⟨hk, hk', hvirt⟩ := kernelIndex (h.target ht) (hbelow virt ht)
      obtain ⟨e', ha⟩ := h.tables.added hk hk' hvirt hpage
      obtain ⟨d, hd, hne⟩ : ∃ d ∈ s.all, d ≠ s.tables.cr3 := by
        by_cases hcr3 : s.kernelPd = s.tables.cr3
        · obtain ⟨d, hd⟩ := List.exists_mem_of_ne_nil _ hdirs
          exact ⟨d, List.mem_cons_of_mem _ hd, fun heq => h.kernel ((hcr3.trans heq.symm) ▸ hd)⟩
        · exact ⟨_, List.mem_cons_self, hcr3⟩
      rw [Bool.not_eq_true] at hp
      exact ha.not_shared h.tables hk hk' hp hd hne h.shared
  | create => exact absurd trivial hnew
  | switch => exact absurd trivial hnew

/-! ## The start -/

theorem tables_boot {m : Machine} (h : BootTables m) : Tables m [m.cr3] := by
  have hused := h.used 1023 (by decide) h.recursive.present
  rw [h.recursive.frame] at hused
  have hlt : ∀ {i}, i < TEMP_PD_SLOT → i < 1023 := fun hi => Nat.lt_trans hi (by decide)
  refine ⟨List.mem_singleton_self _, ?_, ?_, ?_, ?_, ?_⟩ <;> intro d hd <;>
    obtain rfl := List.mem_singleton.mp hd
  · exact h.recursive
  · exact h.empty TEMP_PT_SLOT (by decide) (by decide)
  · exact hused
  · intro i _ hi hp hmem
    exact h.apart i (hlt hi) hp (List.mem_singleton.mp hmem)
  · exact fun i _ hi => h.used i (Nat.lt_succ_of_lt (hlt hi))

/-- The pages of `kheap_init` change the entries that they need. -/
theorem mapPages_tables {m m' : Machine} {virt n : Nat} (h : Tables m [m.cr3])
    (hlow : KHEAP_VIRT_START ≤ virt) (hhigh : virt + n * 4096 ≤ 0xff000000)
    (hpages : mapPages newKernelPage m virt n = some m') :
    m'.cr3 = m.cr3 ∧ Tables m' [m.cr3] ∧ ∀ j < 1024,
      (∀ v, virt ≤ v → v < virt + n * 4096 → dirIndex v ≠ j) →
        entryAt m'.phys m.cr3 j = entryAt m.phys m.cr3 j := by
  induction n generalizing m virt with
  | zero =>
    obtain rfl := Option.some.inj hpages
    exact ⟨rfl, h, fun _ _ _ => rfl⟩
  | succ n ih =>
    obtain ⟨m₁, hpage, hrest⟩ := Option.bind_eq_some_iff.mp hpages
    obtain ⟨hk, hk', hvirt⟩ := kernelIndex hlow (by omega)
    obtain ⟨e, ha⟩ := h.added hk hk' hvirt hpage
    have h₁ := ha.tables h hk'
    rw [← ha.cr3] at h₁
    have hnext : virt + PAGE_SIZE + n * 4096 ≤ 0xff000000 := by
      simp only [PAGE_SIZE]
      omega
    obtain ⟨hcr3, htables, hentries⟩ := ih h₁ (Nat.le_add_right_of_le hlow) hnext hrest
    rw [ha.cr3] at hcr3 htables hentries
    refine ⟨hcr3, htables, fun j hj hout => ?_⟩
    rw [hentries j hj fun v h1 h2 => hout v (by omega) (by simp only [PAGE_SIZE] at h1 h2; omega),
      ha.entries _ (List.mem_singleton_self _) j hj, if_neg]
    exact fun hc => hout virt (Nat.le_refl _) (by omega) hc.2.2.symm

theorem booted_tables {m : Machine} {mem : Mem} {h : KHeap Machine} (hboot : BootTables m)
    (hinit : kheapInit newKernelPage mem m = some h) :
    Tables h.pages [h.pages.cr3] ∧ ∀ j < 1023, 833 ≤ j →
      present (entryAt h.pages.phys h.pages.cr3 j) = false := by
  obtain ⟨hpages, -⟩ := kheapInit_pages hinit
  obtain ⟨hcr3, htables, hentries⟩ :=
    mapPages_tables (tables_boot hboot) (Nat.le_refl _) (by decide) hpages
  refine ⟨hcr3 ▸ htables, fun j hj hlow => ?_⟩
  rw [hcr3, hentries j (by omega)]
  · exact hboot.empty j (Nat.le_trans (by decide) hlow) hj
  · intro v _ hv heq
    simp only [KHEAP_VIRT_START, KHEAP_INITIAL_SIZE, PAGE_SIZE] at hv
    simp only [dirIndex] at heq
    omega

theorem booted_inv {m : Machine} {mem : Mem} {h : KHeap Machine} (hboot : BootTables m)
    (hinit : kheapInit newKernelPage mem m = some h) : HalfInv (booted h) where
  heapStart := by
    show KHEAP_VIRT_START ≤ h.kheapEnd
    rw [(kheapInit_pages hinit).2]
    exact Nat.le_add_right _ _
  pagesStart := show KHEAP_VIRT_START ≤ LARGE_ALLOC_BASE by decide
  kernel := List.not_mem_nil
  tables := (booted_tables hboot hinit).1
  shared := by
    intro d hd d' hd' i _ _
    obtain rfl := (List.mem_singleton.mp hd).trans (List.mem_singleton.mp hd').symm
    exact ⟨rfl, fun _ => rfl⟩

/-- **One kernel half.**  As long as the heap and `kalloc_pages` stay below the slots,
the address spaces share the kernel half in every state of a run exactly when no
page needs a new table while there is a process. -/
theorem halves_shared_iff {m : Machine} {mem : Mem} {h : KHeap Machine} {s : DirState}
    {es : List DirEvent} (hboot : BootTables m) (hinit : kheapInit newKernelPage mem m = some h) :
    Always (Guarded BelowSlots DirStep) Shared (booted h) es s ↔
      EachStep (Guarded BelowSlots DirStep) KeepsTables (booted h) es s :=
  Run.always_iff (I := HalfInv) (fun _ hs => hs.shared) (fun _ _ _ hs hstep => halfInv_step hs hstep)
    (fun _ _ _ hs hnew hstep => newTable_breaks hs hnew hstep) (booted_inv hboot hinit)

/-- A process on a machine with 4 GiB, after `kheap_init`. -/
theorem emptyFile_created : ∃ h pd l m', kheapInit newKernelPage (fun _ => 0) bootMachine = some h ∧
    newProcess (fileMemory emptyFile) h.pages 0xd0000000 [0xd0000040] = .ok (pd, l, m') ∧
    Spare 2 m'.pmm := by
  obtain ⟨h, hinit, -, hspare₀⟩ := bootMachine_init
  have hready := (booted_tables bootMachine_tables hinit).1.ready
  have hspare : Spare 7 h.pages.pmm := hspare₀.mono (by decide)
  obtain ⟨pd, l, m', hok⟩ := emptyFile_loads hready (hspare.mono (by decide))
  obtain ⟨e, buf', huses, hmade⟩ := Made.of_ok hready hok
  have heq := hmade.header
  rw [emptyFile_header] at heq
  obtain rfl := Except.ok.inj heq
  rw [noHeaders_frames] at huses
  exact ⟨h, pd, l, m', hinit, hok, huses 2 hspare⟩

/-- Creating a process and switching to it needs no table of the kernel half. -/
theorem oneProcess_shared : ∃ h pd s, kheapInit newKernelPage (fun _ => 0) bootMachine = some h ∧
    Run (Guarded BelowSlots DirStep) (booted h) [.create pd, .switch pd] s ∧ Shared s := by
  obtain ⟨h, pd, l, m', hinit, hok, -⟩ := emptyFile_created
  have hcreate : Guarded BelowSlots DirStep (booted h) (.create pd) _ := ⟨trivial, .create hok⟩
  obtain ⟨s, hswitch⟩ : ∃ s, Guarded BelowSlots DirStep { booted h with
      mem := withTables (booted h).mem m', dirs := [pd] } (.switch pd) s :=
    ⟨_, trivial, .switch (List.mem_cons_of_mem _ (List.mem_singleton_self pd))⟩
  have hrun := Run.step hcreate (.single hswitch)
  refine ⟨h, pd, s, hinit, hrun, (halves_shared_iff bootMachine_tables hinit).mpr ?_
    [.create pd, .switch pd] [] s rfl hrun (.refl s)⟩
  intro past e rest t heq _ _
  have hmem : e ∈ past ++ e :: rest := by simp
  rw [← heq] at hmem
  simp only [List.append_nil, List.mem_cons, List.not_mem_nil, or_false] at hmem
  rcases hmem with rfl | rfl <;> trivial

/-- The first page of `kalloc_pages` after a process was created: its table is in the
kernel's directory only. -/
theorem lateTable_notShared : ∃ h pd s, kheapInit newKernelPage (fun _ => 0) bootMachine = some h ∧
    Run (Guarded BelowSlots DirStep) (booted h) [.create pd, .mem .page] s ∧ ¬ Shared s := by
  obtain ⟨h, pd, l, m', hinit, hok, hspare⟩ := emptyFile_created
  have hinv := booted_inv bootMachine_tables hinit
  have hcreate : Guarded BelowSlots DirStep (booted h) (.create pd) _ := ⟨trivial, .create hok⟩
  have hkeeps : KeepsTables (booted h) (.create pd) := trivial
  have hinv₁ := halfInv_step hinv ⟨hkeeps, hcreate⟩
  have hds : ∀ d, d ∈ [h.pages.cr3, pd] ↔ d = pd ∨ d ∈ (booted h).all := fun d => by
    simp [DirState.all, booted, or_comm]
  obtain ⟨-, -, -, hcr3, hentries⟩ := hinv.tables.create hok hds
  -- the directory has no table for the addresses of `kalloc_pages`
  have habsent : present (entryAt m'.phys m'.cr3 896) = false := by
    rw [hcr3]
    exact (congrArg present (hentries _ hinv.tables.loaded 896 (by decide))).trans
      ((booted_tables bootMachine_tables hinit).2 896 (by decide) (by decide))
  have hreach : Reaches m' (dirIndex LARGE_ALLOC_BASE) :=
    ⟨hinv₁.tables.ready.recursive, hinv₁.tables.ready.used, fun hp => by
      rw [show dirIndex LARGE_ALLOC_BASE = 896 from rfl, habsent] at hp
      cases hp⟩
  obtain ⟨m'', hpage, -⟩ := hreach.page (n := 0) (by decide) (by decide) hspare
  have hcall : kallocPage (withTables ⟨h, LARGE_ALLOC_BASE⟩ m') =
      some ⟨{ h with pages := m'' }, add32 LARGE_ALLOC_BASE PAGE_SIZE⟩ :=
    congrArg (Option.map _) hpage
  have hstep : Guarded BelowSlots DirStep
      { booted h with mem := withTables ⟨h, LARGE_ALLOC_BASE⟩ m', dirs := [pd] } (.mem .page) _ :=
    ⟨fun virt ht => Option.some.inj ht ▸ show LARGE_ALLOC_BASE < 0xff000000 by decide,
      .mem (.page hcall)⟩
  refine ⟨h, pd, _, hinit, .step hcreate (.single hstep), newTable_breaks hinv₁ ?_ hstep⟩
  intro hkeeps
  rcases hkeeps LARGE_ALLOC_BASE rfl with hp | hnil
  · exact absurd (hp.symm.trans habsent) (by decide)
  · cases hnil

end FrogKernel.KernelHalf
