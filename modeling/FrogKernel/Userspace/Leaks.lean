import FrogKernel.Userspace.NewProcess
import FrogKernel.Userspace.Ownership

/-!
# What a child leaves behind

Frames are taken by `uprocess_create_pagedir`, `uprocess_load` and `kalloc_pages`
for every child of `sys_spawn`.  No call of the process system gives a frame back:
`Takes` counts what a call takes at least, and is added up over the loader
and over runs.

Main results: `reaped_not_conserved`, and `spawns_bounded` for the number of
children that a run can create.
-/

namespace FrogKernel.Leaks

open FrogKernel.Bytes FrogKernel.PageTables FrogKernel.Pmm FrogKernel.Paging FrogKernel.ForeignMap
  FrogKernel.Loader FrogKernel.KernelAreas FrogKernel.Runs FrogKernel.Process FrogKernel.Ownership
open FrogKernel.Kheap (mapPages)
open FrogKernel.Vfs (Drivers getFile)

/-! ## What a call takes -/

/-- `s'` has at least `n` free frames less than `s`, and no other ones. -/
structure Takes (n : Nat) (s s' : Machine) : Prop where
  fewer : ∀ i, Free s'.pmm i → Free s.pmm i
  card : (freeFrames s'.pmm).card + n ≤ (freeFrames s.pmm).card

theorem Takes.same {s s' : Machine} (h : s'.pmm = s.pmm) : Takes 0 s s' where
  fewer i hi := h ▸ hi
  card := by rw [h, Nat.add_zero]

theorem Takes.trans {s s' s'' : Machine} {m n : Nat} (h : Takes m s s') (h' : Takes n s' s'') :
    Takes (m + n) s s'' where
  fewer i hi := h.fewer i (h'.fewer i hi)
  card := by
    have h1 := h.card
    have h2 := h'.card
    omega

theorem Takes.less {s s' : Machine} {m n : Nat} (h : Takes n s s') (hle : m ≤ n) : Takes m s s' where
  fewer := h.fewer
  card := by
    have hcard := h.card
    omega

theorem Takes.handed {s s' : Machine} {f : Nat} (hh : Handed s.pmm f s'.pmm) : Takes 1 s s' where
  fewer := hh.fewer
  card := by
    have hmem : addrToPage f ∈ freeFrames s.pmm := by
      have hnonzero := hh.nonzero
      have haligned := hh.aligned
      have hbelow := hh.below
      simp only [Pmm.PAGE_SIZE] at haligned hbelow
      simp only [freeFrames, Finset.mem_filter, Finset.mem_range]
      refine ⟨?_, ?_, hh.free⟩ <;> simp only [addrToPage, Pmm.PAGE_SIZE] <;> omega
    have hsub : freeFrames s'.pmm ⊆ (freeFrames s.pmm).erase (addrToPage f) := by
      intro i hi
      simp only [freeFrames, Finset.mem_filter, Finset.mem_range, Finset.mem_erase, hh.total] at hi ⊢
      exact ⟨fun heq => hh.used (heq ▸ hi.2.2), hi.1, hi.2.1, hh.fewer i hi.2.2⟩
    have hle := Finset.card_le_card hsub
    have hone := Finset.card_erase_add_one hmem
    omega

variable {W : Type}

section Calls

variable {s s' : Machine}

theorem store32_takes {virt v : Nat} (h : store32 s virt v = some s') : Takes 0 s s' := by
  obtain ⟨_, -, rfl⟩ := Option.map_eq_some_iff.mp h
  exact .same rfl

theorem memset_takes {virt c n : Nat} (h : memset s virt c n = some s') : Takes 0 s s' := by
  obtain ⟨_, -, rfl⟩ := Option.map_eq_some_iff.mp h
  exact .same rfl

theorem setSlot_takes {slot v : Nat} (h : setSlot s slot v = .ok s') : Takes 0 s s' :=
  store32_takes (orFault_ok h)

theorem allocFrame_takes {f : Nat} (h : allocFrame s = .ok (f, s')) : Takes 1 s s' :=
  .handed (AddressSpace.allocFrame_ok h)

theorem memcpy_takes {src : Nat → Option (BitVec 8)} {dst start n : Nat}
    (h : memcpy src s dst start n = .ok s') : Takes 0 s s' := by
  induction n generalizing s dst start with
  | zero =>
    cases h
    exact .same rfl
  | succ n ih =>
    obtain ⟨_, -, h⟩ := bind_ok h
    obtain ⟨_, -, h⟩ := bind_ok h
    exact ⟨(ih h).fewer, (ih h).card⟩

theorem copyToPhys_takes {src : Nat → Option (BitVec 8)} {phys o start n : Nat}
    (h : copyToPhys src s phys o start n = .ok s') : Takes 0 s s' := by
  obtain ⟨s₁, h1, h⟩ := bind_ok h
  obtain ⟨s₂, h2, h3⟩ := bind_ok h
  exact ((setSlot_takes h1).trans (memcpy_takes h2)).trans (setSlot_takes h3)

theorem zeroPhys_takes {phys o n : Nat} (h : zeroPhys s phys o n = .ok s') : Takes 0 s s' := by
  obtain ⟨s₁, h1, h⟩ := bind_ok h
  obtain ⟨s₂, h2, h3⟩ := bind_ok h
  exact ((setSlot_takes h1).trans (memset_takes (orFault_ok h2))).trans (setSlot_takes h3)

theorem foreignTable_takes {pdIndex flags : Nat} (h : foreignTable s pdIndex flags = .ok s') :
    Takes 1 s s' := by
  obtain ⟨⟨ptPhys, s₁⟩, h1, h⟩ := bind_ok h
  obtain ⟨s₂, h2, h⟩ := bind_ok h
  obtain ⟨s₃, h3, h⟩ := bind_ok h
  obtain ⟨s₄, h4, h5⟩ := bind_ok h
  have htable := (allocFrame_takes h1).trans (store32_takes (orFault_ok h2))
  exact ((htable.trans (setSlot_takes h3)).trans (memset_takes (orFault_ok h4))).trans
    (setSlot_takes h5)

theorem foreignEntry_takes {pdIndex ptIndex entry : Nat}
    (h : foreignEntry s pdIndex ptIndex entry = .ok s') : Takes 0 s s' := by
  obtain ⟨_, -, h⟩ := bind_ok h
  obtain ⟨s₁, h1, h⟩ := bind_ok h
  obtain ⟨s₂, h2, h⟩ := bind_ok h
  obtain ⟨s₃, h3, h4⟩ := bind_ok h
  exact (((setSlot_takes h1).trans (store32_takes (orFault_ok h2))).trans (setSlot_takes h3)).trans
    (setSlot_takes h4)

theorem foreignMapPage_takes {pdPhys phys virt flags : Nat}
    (h : foreignMapPage s pdPhys phys virt flags = .ok s') : Takes 0 s s' := by
  obtain ⟨s₁, h1, h⟩ := bind_ok h
  obtain ⟨pde, -, h⟩ := bind_ok h
  obtain ⟨s₂, h2, h3⟩ := bind_ok h
  have htable : Takes 0 s₁ s₂ := by
    split at h2
    · exact (foreignTable_takes h2).less (Nat.zero_le 1)
    · cases h2
      exact .same rfl
  exact ((setSlot_takes h1).trans htable).trans (foreignEntry_takes h3)

/-- A loop whose rounds take nothing back takes nothing back. -/
theorem foldlM_takes {α β : Type} {f : β → α → Except Halt β} (mach : β → Machine)
    (hf : ∀ b a b', f b a = .ok b' → Takes 0 (mach b) (mach b')) {as : List α} {b b' : β}
    (h : as.foldlM f b = .ok b') : Takes 0 (mach b) (mach b') := by
  induction as generalizing b with
  | nil =>
    cases h
    exact .same rfl
  | cons a as ih =>
    rw [List.foldlM_cons] at h
    obtain ⟨b₁, h1, h2⟩ := bind_ok h
    exact (hf b a b₁ h1).trans (ih h2)

theorem copyEntry_takes {i : Nat} (h : copyEntry s i = .ok s') : Takes 0 s s' := by
  obtain ⟨_, -, h⟩ := bind_ok h
  exact store32_takes (orFault_ok h)

/-- The page directory. -/
theorem uprocessCreatePagedir_takes {pd : Nat} (h : uprocessCreatePagedir s = .ok (pd, s')) :
    Takes 1 s s' ∧ (∃ pmm, Handed s.pmm pd pmm) ∧ ¬ Free s'.pmm (addrToPage pd) := by
  obtain ⟨⟨pdPhys, s₁⟩, h1, h⟩ := bind_ok h
  obtain ⟨s₂, h2, h⟩ := bind_ok h
  obtain ⟨s₃, h3, h⟩ := bind_ok h
  obtain ⟨s₄, h4, h⟩ := bind_ok h
  obtain ⟨s₅, h5, h⟩ := bind_ok h
  obtain ⟨s₆, h6, h⟩ := bind_ok h
  obtain ⟨s₇, h7, h⟩ := bind_ok h
  cases h
  have hclear := (setSlot_takes h2).trans (memset_takes (orFault_ok h3))
  have hcopy := hclear.trans (foldlM_takes id (fun _ _ _ => copyEntry_takes) h4)
  have hslots := (store32_takes (orFault_ok h5)).trans (store32_takes (orFault_ok h6))
  have hrest := (hcopy.trans hslots).trans (setSlot_takes h7)
  have hh := AddressSpace.allocFrame_ok h1
  exact ⟨(allocFrame_takes h1).trans hrest, ⟨_, hh⟩, fun hfree => hh.used (hrest.fewer _ hfree)⟩

theorem loadPage_takes {k : Bytes32} {data pdPhys virt : Nat} {p : Phdr}
    (h : loadPage k data p pdPhys s virt = .ok s') : Takes 1 s s' := by
  obtain ⟨⟨phys, s₁⟩, h1, h⟩ := bind_ok h
  obtain ⟨s₂, h2, h⟩ := bind_ok h
  have hmap := (allocFrame_takes h1).trans (foreignMapPage_takes h2)
  dsimp only at h
  split at h
  · exact hmap.trans (zeroPhys_takes h)
  · obtain ⟨s₃, h3, h4⟩ := bind_ok h
    exact (hmap.trans (zeroPhys_takes h3)).trans (copyToPhys_takes h4)

theorem loadHeader_takes {k : Bytes32} {data pdPhys i : Nat} {e : Ehdr} {r r' : Machine × Nat}
    (h : loadHeader k data e pdPhys r i = .ok r') : Takes 0 r.1 r'.1 := by
  obtain ⟨o, -, h⟩ := bind_ok h
  cases o with
  | none =>
    cases h
    exact .same rfl
  | some p =>
    obtain ⟨s₁, h1, h⟩ := bind_ok h
    cases h
    exact foldlM_takes id (fun _ _ _ hp => (loadPage_takes hp).less (Nat.zero_le 1)) h1

/-- The two pages of the stack. -/
theorem loadStack_takes {k : Bytes32} {pdPhys esp : Nat} {argv : List Nat}
    (h : loadStack k s pdPhys argv = .ok (esp, s')) : Takes 2 s s' := by
  obtain ⟨⟨stackPhys0, s₁⟩, h1, h⟩ := bind_ok h
  obtain ⟨⟨stackPhys1, s₂⟩, h2, h⟩ := bind_ok h
  obtain ⟨s₃, h3, h⟩ := bind_ok h
  obtain ⟨s₄, h4, h⟩ := bind_ok h
  obtain ⟨s₅, h5, h⟩ := bind_ok h
  obtain ⟨s₆, h6, h⟩ := bind_ok h
  obtain ⟨⟨pageBuf, initialUserEsp⟩, -, h⟩ := bind_ok h
  obtain ⟨s₇, h7, h⟩ := bind_ok h
  cases h
  have hmap := (foreignMapPage_takes h3).trans (foreignMapPage_takes h4)
  have hzero := (zeroPhys_takes h5).trans (zeroPhys_takes h6)
  exact (((allocFrame_takes h1).trans (allocFrame_takes h2)).trans (hmap.trans hzero)).trans
    (copyToPhys_takes h7)

theorem uprocessLoad_takes {k : Bytes32} {pdPhys data : Nat} {argv : List Nat} {l : Loaded}
    (h : uprocessLoad k s pdPhys data argv = .ok (l, s')) : Takes 2 s s' := by
  obtain ⟨e, -, h⟩ := bind_ok h
  obtain ⟨⟨s₁, highest⟩, h1, h⟩ := bind_ok h
  obtain ⟨⟨esp, s₂⟩, h2, h⟩ := bind_ok h
  cases h
  have hsegments : Takes 0 s s₁ := foldlM_takes Prod.fst (fun _ _ _ => loadHeader_takes) h1
  exact (hsegments.trans (loadStack_takes h2)).less (by decide)

/-- **A new process** takes at least three frames, its page directory among them. -/
theorem newProcess_takes {k : Bytes32} {data pd : Nat} {argv : List Nat} {l : Loaded}
    (h : newProcess k s data argv = .ok (pd, l, s')) :
    Takes 3 s s' ∧ (∃ pmm, Handed s.pmm pd pmm) ∧ ¬ Free s'.pmm (addrToPage pd) := by
  obtain ⟨⟨pdPhys, s₁⟩, h1, h⟩ := bind_ok h
  obtain ⟨⟨l', s₂⟩, h2, h⟩ := bind_ok h
  cases h
  obtain ⟨htakes, hhanded, hused⟩ := uprocessCreatePagedir_takes h1
  have hload := uprocessLoad_takes h2
  exact ⟨htakes.trans hload, hhanded, fun hf => hused (hload.fewer _ hf)⟩

theorem newKernelPage_takes {virt : Nat} (h : newKernelPage s virt = some s') : Takes 1 s s' := by
  obtain ⟨⟨phys, pmm⟩, halloc, h⟩ := Option.bind_eq_some_iff.mp h
  have hframe : Takes 1 s { s with pmm } := .handed (pmmAllocFrame_handed halloc)
  obtain ⟨pde, -, h⟩ := Option.bind_eq_some_iff.mp h
  obtain ⟨s₁, h1, h2⟩ := Option.bind_eq_some_iff.mp h
  have htable : Takes 0 { s with pmm } s₁ := by
    split at h1
    · obtain ⟨⟨ptPhys, pmm'⟩, halloc', h1⟩ := Option.bind_eq_some_iff.mp h1
      obtain ⟨s₂, h3, h4⟩ := Option.bind_eq_some_iff.mp h1
      have hpt : Takes 1 { s with pmm } { s with pmm := pmm' } :=
        .handed (pmmAllocFrame_handed halloc')
      exact ((hpt.trans (store32_takes h3)).trans (memset_takes h4)).less (Nat.zero_le 1)
    · cases h1
      exact .same rfl
  exact (hframe.trans htable).trans (store32_takes h2)

theorem mapPages_takes {virt n : Nat} (h : mapPages newKernelPage s virt n = some s') :
    Takes n s s' := by
  induction n generalizing s virt with
  | zero =>
    cases h
    exact .same rfl
  | succ n ih =>
    obtain ⟨s₁, h1, h2⟩ := Option.bind_eq_some_iff.mp h
    exact ((newKernelPage_takes h1).trans (ih h2)).less (by omega)

end Calls

/-! ## The process system with its memory -/

/-- The kernel with the page tables and the frames. -/
structure Host (W : Type) where
  kernel : Kernel W
  mach : Machine

/-- The pages that calls of `kmalloc` add to the heap. -/
inductive HeapGrows : Machine → Machine → Prop
  | refl (s : Machine) : HeapGrows s s
  | page {s s' s'' : Machine} {virt : Nat} :
      newKernelPage s virt = some s' → HeapGrows s' s'' → HeapGrows s s''

/-- The frames that were allocated from `s` to `s'`. -/
def allocated (s s' : Machine) : Set Nat := {i | Free s.pmm i ∧ ¬ Free s'.pmm i}

inductive HostEvent where
  /-- A child, with the frames of its address space and of its kernel stack. -/
  | spawn (pid : Nat) (frames : Set Nat)
  | kernel (e : KEvent)

/-- The steps of the kernel on its memory.  For a child `sys_spawn` reads the file
into a buffer (`bytes` at `data`), makes the address space, allocates the records
and maps the kernel stack.  In all other steps the heap can grow, and what is
written to memory is left open. -/
inductive HostStep (d : Drivers W) : Host W → HostEvent → Host W → Prop
  | spawn {k k' : Kernel W} {m m₁ m₂ m₃ m₄ : Machine} {bytes : Bytes32} {data pd pid : Nat}
      {argv : List Nat} {l : Loaded} {child : Ptr} : KStep d k (.sysSpawn (some pid)) k' →
      HeapGrows m m₁ → newProcess bytes m₁ data argv = .ok (pd, l, m₂) → HeapGrows m₂ m₃ →
      mapPages newKernelPage m₃ k.sys.largeAllocBase (KSTACK_SIZE / Process.PAGE_SIZE) = some m₄ →
      child ∈ k'.sys.procs → (k'.sys.proc child).pid = pid → (k'.sys.proc child).pageDir = pd →
      HostStep d ⟨k, m⟩ (.spawn pid (allocated m₁ m₂ ∪ allocated m₃ m₄)) ⟨k', m₄⟩
  | kernel {k k' : Kernel W} {m m₁ : Machine} {e : KEvent} {phys : Mem} : KStep d k e k' →
      (∀ pid, e ≠ .sysSpawn (some pid)) → HeapGrows m m₁ →
      HostStep d ⟨k, m⟩ (.kernel e) ⟨k', { m₁ with phys, cr3 := k'.sys.cr3 }⟩

/-- The `file_t`s of the process that runs. -/
def openFiles (k : Kernel W) : Set Ptr := {file | file ≠ 0 ∧ ∃ fd, getFile (caller k) fd = file}

/-- Nothing of a child is left: none of its frames and none of its `file_t`s. -/
structure Conserved (frames : Set Nat) (files : Set Ptr) (h : Host W) : Prop where
  freed : ∀ i ∈ frames, Free h.mach.pmm i
  closed : ∀ file ∈ files, h.kernel.vfs.live file = false

/-- The children created in a run. -/
def spawns : List HostEvent → Nat
  | [] => 0
  | .spawn _ _ :: es => spawns es + 1
  | .kernel _ :: es => spawns es

/-! ## Runs -/

variable {d : Drivers W} {h h' : Host W}

theorem HeapGrows.takes {s s' : Machine} (h : HeapGrows s s') : Takes 0 s s' := by
  induction h with
  | refl => exact .same rfl
  | page hpage _ ih => exact ((newKernelPage_takes hpage).trans ih).less (Nat.zero_le _)

/-- A child takes at least five frames. -/
theorem spawn_takes {pid : Nat} {frames : Set Nat} (hstep : HostStep d h (.spawn pid frames) h') :
    Takes 5 h.mach h'.mach ∧ frames.Nonempty ∧ ∀ i ∈ frames, ¬ Free h'.mach.pmm i := by
  cases hstep with
  | @spawn _ _ _ m₁ m₂ m₃ m₄ _ _ pd _ _ _ _ _ hgrow hnew hgrow' hstack =>
    obtain ⟨htakes, ⟨_, hh⟩, hused⟩ := newProcess_takes hnew
    have hkstack : Takes 2 m₃ m₄ := mapPages_takes hstack
    have hrest := hgrow'.takes.trans hkstack
    refine ⟨((hgrow.takes.trans htakes).trans hrest).less (by decide),
      ⟨addrToPage pd, Or.inl ⟨hh.free, hused⟩⟩, ?_⟩
    rintro i (⟨-, hi⟩ | ⟨-, hi⟩)
    · exact fun hf => hi (hrest.fewer i hf)
    · exact hi

theorem step_takes {e : HostEvent} (hstep : HostStep d h e h') :
    Takes (5 * spawns [e]) h.mach h'.mach := by
  cases e with
  | spawn pid frames => exact (spawn_takes hstep).1
  | kernel e =>
    cases hstep with
    | kernel _ _ hgrow => exact ⟨hgrow.takes.fewer, hgrow.takes.card⟩

theorem spawns_cons (e : HostEvent) (es : List HostEvent) :
    spawns (e :: es) = spawns [e] + spawns es := by
  cases e with
  | spawn => exact Nat.add_comm _ _
  | kernel => exact (Nat.zero_add _).symm

theorem run_takes {es : List HostEvent} (hrun : Run (HostStep d) h es h') :
    Takes (5 * spawns es) h.mach h'.mach := by
  induction hrun with
  | refl => exact .same rfl
  | @step _ _ _ e es hstep _ ih =>
    rw [spawns_cons e es, Nat.mul_add]
    exact (step_takes hstep).trans ih

/-- **Exhaustion.**  A run creates at most a fifth as many children as there were
free frames, however many of them exit and are reaped. -/
theorem spawns_bounded {es : List HostEvent} (hrun : Run (HostStep d) h es h') :
    5 * spawns es ≤ (freeFrames h.mach.pmm).card :=
  Nat.le_trans (Nat.le_add_left _ _) (run_takes hrun).card

/-- The steps between `sys_open`s, `sys_close`s and `sys_spawn`s. -/
def KeepsFiles (_ : Host W) : HostEvent → Prop
  | .kernel (.sys _) => True
  | .kernel .between => True
  | _ => False

/-- `sys_exit` and `sys_wait` release no `file_t`. -/
theorem run_live {es : List HostEvent} (hrun : Run (Guarded KeepsFiles (HostStep d)) h es h') :
    h'.kernel.vfs.live = h.kernel.vfs.live := by
  induction hrun with
  | refl => rfl
  | @step s t u e es hstep _ ih =>
    refine ih.trans ?_
    obtain ⟨hkeeps, hstep⟩ := hstep
    cases hstep with
    | spawn => exact hkeeps.elim
    | kernel hk =>
      cases hk with
      | sys => rfl
      | between => rfl
      | _ => exact hkeeps.elim

/-! ## A child of init -/

/-- A run of the kernel without spawns is a run on any memory. -/
theorem host_run {k k' : Kernel W} {es : List KEvent} (hrun : Run (KStep d) k es k')
    (hes : ∀ e ∈ es, ∀ pid, e ≠ .sysSpawn (some pid)) (m : Machine) :
    ∃ m', Run (HostStep d) ⟨k, m⟩ (es.map .kernel) ⟨k', m'⟩ ∧
      (m.cr3 = k.sys.cr3 → m' = { m with cr3 := k'.sys.cr3 }) := by
  induction hrun generalizing m with
  | refl k => exact ⟨m, .refl _, fun hcr3 => hcr3 ▸ rfl⟩
  | @step k k₁ k₂ e es hstep _ ih =>
    obtain ⟨m', hrest, hm'⟩ := ih (fun e he => hes e (List.mem_cons_of_mem _ he))
      { m with cr3 := k₁.sys.cr3 }
    have hfirst : HostStep d ⟨k, m⟩ (.kernel e) ⟨k₁, { m with cr3 := k₁.sys.cr3 }⟩ :=
      .kernel hstep (hes e List.mem_cons_self) (.refl m)
    exact ⟨m', .step hfirst hrest, fun _ => hm' rfl⟩

theorem bootMachine_first {addr : Nat} {pmm : PmmState} (h : Handed bootMachine.pmm addr pmm) :
    addr = 0x400000 := by
  have hused : ∀ i < 1024, ¬ Free bootMachine.pmm i := by decide +kernel
  have hlow : ¬ 1024 < addrToPage addr :=
    fun hlt => h.lowest 1024 (by decide) hlt (bootMachine_free 1024 (Nat.le_refl _))
  have hhigh : ¬ addrToPage addr < 1024 := fun hlt => hused _ hlt h.free
  have haligned := h.aligned
  simp only [addrToPage, Pmm.PAGE_SIZE] at hlow hhigh haligned
  omega

theorem bootMachine_reaches {k : Bytes32} {data pd : Nat} {argv : List Nat} {l : Loaded}
    {s' : Machine} (hok : newProcess k bootMachine data argv = .ok (pd, l, s')) : Reaches s' 896 := by
  obtain ⟨e, buf, -, hmade⟩ := Made.of_ok bootMachine_ready hok
  obtain ⟨role, hb⟩ := hmade.building
  have hloaded := hb.loaded
  have hcr3 : s'.cr3 = 0x300000 := hb.cr3
  rw [hcr3] at hloaded
  have hentry : entryAt s'.phys s'.cr3 896 = entryAt bootMachine.phys bootMachine.cr3 896 := by
    rw [hb.cr3]
    refine readN_congr fun x h1 h2 => hb.elsewhere x ?_ ?_
    · have hframe : frameOf x = 0x300000 := by
        simp only [bootMachine] at h1 h2
        simp only [frameOf]
        omega
      rw [hframe, hloaded]
    · simp only [SlotByte, TEMP_PD_SLOT]
      omega
  refine ⟨hb.ready.recursive, hb.ready.used, fun hp => ?_⟩
  rw [hentry, bootMachine_tables.empty 896 (by decide) (by decide)] at hp
  cases hp

theorem emptyFile_pages : ∃ l s s', newProcess (fileMemory emptyFile) bootMachine 0xd0000000
      [0xd0000040] = .ok (0x400000, l, s) ∧ mapPages newKernelPage s
      (Process.LARGE_ALLOC_BASE + 3 * KSTACK_SIZE) (KSTACK_SIZE / Process.PAGE_SIZE) = some s' := by
  obtain ⟨pd, l, s, hok⟩ := emptyFile_made
  obtain ⟨e, buf, huses, hmade⟩ := Made.of_ok bootMachine_ready hok
  have heq := hmade.header
  rw [emptyFile_header] at heq
  obtain rfl := Except.ok.inj heq
  rw [noHeaders_frames] at huses
  obtain ⟨-, ⟨pmm, hh⟩, -⟩ := newProcess_takes hok
  obtain rfl := bootMachine_first hh
  have hspare : Spare 4 s.pmm := huses 4 (bootMachine_spare (by decide))
  have hlow : Process.LARGE_ALLOC_BASE + 3 * KSTACK_SIZE < 2 ^ 32 := by decide
  have hhigh : Process.LARGE_ALLOC_BASE + 3 * KSTACK_SIZE + Pmm.PAGE_SIZE < 2 ^ 32 := by decide
  have hsame : dirIndex (Process.LARGE_ALLOC_BASE + 3 * KSTACK_SIZE) =
      dirIndex (Process.LARGE_ALLOC_BASE + 3 * KSTACK_SIZE + Pmm.PAGE_SIZE) := by decide
  obtain ⟨s₁, hpage1, hreach1, hspare1⟩ := (bootMachine_reaches hok).page (by decide) hlow hspare
  rw [hsame] at hreach1
  obtain ⟨s₂, hpage2, -, -⟩ := hreach1.page (by decide) hhigh hspare1
  have hcount : KSTACK_SIZE / Process.PAGE_SIZE = 2 := rfl
  refine ⟨l, s, s₂, hok, ?_⟩
  rw [hcount, mapPages, hpage1, Option.bind_some, mapPages, hpage2, Option.bind_some, mapPages]

deriving instance DecidableEq for KEvent

/-- A boot that puts init into the page directory of `bootMachine`. -/
def hostBoot : Boot :=
  { smallBoot with pageDir := bootMachine.cr3, pageDir_ne := by decide }

def startsChild : KEvent → Bool
  | .sysSpawn (some _) => true
  | _ => false

theorem startsChild_none {es : List KEvent} (h : es.all (fun e => !startsChild e) = true) :
    ∀ e ∈ es, ∀ pid, e ≠ .sysSpawn (some pid) := by
  rintro e he pid rfl
  simpa [startsChild] using List.all_eq_true.mp h _ he

/-- init spawns a child, the child opens a file and exits with status 7, and init
awaits it. -/
theorem lifetime_plays : ((kmain hostBoot).any fun s =>
    (follow kChoose (smallKernel s) (tick.map .sys)).any fun r₁ =>
    (kChoose r₁.2 (.spawn ⟨[], [], 0x130, 0, 64, 0x140⟩ 0x50 0x60 0x400000)).any fun r₂ =>
    (follow kChoose r₂.2 (tick.map .sys ++ [.sysOpen 0x170 [.devfs 0x180]])).any fun r₃ =>
    (kChoose r₃.2 (.sys (.exit 7))).any fun r₄ =>
    (follow kChoose r₄.2 ([.sys (.irq .other), .sys .switch] ++ tick.map .sys ++ tick.map .sys ++
      [.sys (.wait 2 0)] ++ List.replicate 5 (.sys .waitOn))).any fun r₅ =>
    (kChoose r₅.2 (.sys .waitOn)).any fun r₆ =>
      decide (r₁.2.sys.cr3 = bootMachine.cr3 ∧
        r₁.2.sys.largeAllocBase = Process.LARGE_ALLOC_BASE + 3 * KSTACK_SIZE ∧
        0x50 ∈ r₂.2.sys.procs ∧ (r₂.2.sys.proc 0x50).pid = 2 ∧
        (r₂.2.sys.proc 0x50).pageDir = 0x400000) &&
      decide (r₂.1 = .sysSpawn (some 2) ∧ r₄.1 = .sys (.exit 0x60 2 7 0) ∧
        r₆.1 = .sys (.waitReturn 1 2 none) ∧ getFile (caller r₃.2) 0 = 0x170 ∧
        r₆.2.vfs.live 0x170 = true) &&
      (r₁.1 ++ r₃.1 ++ r₅.1).all (fun e => !startsChild e)) = true := by
  decide +kernel

/-- A run in which init reaps its child: frame `0x400000` was its page directory, and
the `file_t` at `0x170` stays allocated. -/
theorem child_reaped : ∃ (k₀ : Kernel Unit) (m₀ : Machine) (h₀ h₁ h₂ h₃ h₄ h₅ : Host Unit)
    (es₀ es es' : List HostEvent) (frames : Set Nat), Start k₀ ∧
    Run (HostStep oneFile) ⟨k₀, m₀⟩ es₀ h₀ ∧
    HostStep oneFile h₀ (.spawn 2 frames) h₁ ∧ Run (HostStep oneFile) h₁ es h₂ ∧
    HostStep oneFile h₂ (.kernel (.sys (.exit 0x60 2 7 0))) h₃ ∧
    Run (HostStep oneFile) h₃ es' h₄ ∧
    HostStep oneFile h₄ (.kernel (.sys (.waitReturn 1 2 none))) h₅ ∧
    addrToPage 0x400000 ∈ frames ∧ 0x170 ∈ openFiles h₂.kernel ∧
    h₅.kernel.vfs.live 0x170 = true := by
  obtain ⟨s, hboot, h⟩ := Option.any_eq_true _ _ |>.mp lifetime_plays
  obtain ⟨⟨es₀, k₁⟩, hrun₀, h⟩ := Option.any_eq_true _ _ |>.mp h
  obtain ⟨⟨e₂, k₂⟩, hspawn, h⟩ := Option.any_eq_true _ _ |>.mp h
  obtain ⟨⟨es, k₃⟩, hrun, h⟩ := Option.any_eq_true _ _ |>.mp h
  obtain ⟨⟨e₄, k₄⟩, hexit, h⟩ := Option.any_eq_true _ _ |>.mp h
  obtain ⟨⟨es', k₅⟩, hrun', h⟩ := Option.any_eq_true _ _ |>.mp h
  obtain ⟨⟨e₆, k₆⟩, hwait, h⟩ := Option.any_eq_true _ _ |>.mp h
  simp only [Bool.and_eq_true, decide_eq_true_eq, List.all_append] at h
  obtain ⟨⟨⟨hcr3, hbase, hchild, hpid, hdir⟩, rfl, rfl, rfl, hfile, hlive⟩, ⟨hes₀, hes⟩, hes'⟩ := h
  have hstep : ∀ (k : Kernel Unit) c e k', kChoose k c = some (e, k') → KStep oneFile k e k' :=
    fun _ _ _ _ => kChoose_step
  obtain ⟨m₁, hhost₀, hm₁⟩ := host_run (follow_run hstep hrun₀) (startsChild_none hes₀)
    { bootMachine with cr3 := s.cr3 }
  obtain rfl : m₁ = bootMachine := by
    rw [hm₁ rfl, hcr3]
  obtain ⟨l, m₂, m₄, hnew, hstack⟩ := emptyFile_pages
  have hhost₁ : HostStep oneFile ⟨k₁, bootMachine⟩
      (.spawn 2 (allocated bootMachine m₂ ∪ allocated m₂ m₄)) ⟨k₂, m₄⟩ :=
    .spawn (kChoose_step hspawn) (.refl _) hnew (.refl _) (hbase ▸ hstack) hchild hpid hdir
  obtain ⟨m₃, hhost₂, -⟩ := host_run (follow_run hstep hrun) (startsChild_none hes) m₄
  have hhost₃ : HostStep oneFile ⟨k₃, m₃⟩ (.kernel (.sys (.exit 0x60 2 7 0)))
      ⟨k₄, { m₃ with cr3 := k₄.sys.cr3 }⟩ :=
    .kernel (kChoose_step hexit) (fun _ => by simp) (.refl m₃)
  obtain ⟨m₅, hhost₄, -⟩ := host_run (follow_run hstep hrun') (startsChild_none hes') _
  have hhost₅ : HostStep oneFile ⟨k₅, m₅⟩ (.kernel (.sys (.waitReturn 1 2 none)))
      ⟨k₆, { m₅ with cr3 := k₆.sys.cr3 }⟩ :=
    .kernel (kChoose_step hwait) (fun _ => by simp) (.refl m₅)
  obtain ⟨-, ⟨pmm, hh⟩, hused⟩ := newProcess_takes hnew
  exact ⟨smallKernel s, _, _, _, _, _, _, _, _, _, _, _, smallKernel_start hboot, hhost₀, hhost₁,
    hhost₂, hhost₃, hhost₄, hhost₅, Or.inl ⟨hh.free, hused⟩,
    ⟨by decide, 0, hfile⟩, hlive⟩

/-! ## Reaping -/

/-- **Reaping.**  After a child was created, exited and was reaped, in any run,
none of its frames is free: its resources are never conserved. -/
theorem reaped_not_conserved {h₀ h₁ h₂ h₃ h₄ h₅ : Host W} {es es' : List HostEvent}
    {pid code parent : Nat} {t woken : Ptr} {stored : Option Nat} {frames : Set Nat}
    (hspawn : HostStep d h₀ (.spawn pid frames) h₁) (hrun : Run (HostStep d) h₁ es h₂)
    (hexit : HostStep d h₂ (.kernel (.sys (.exit t pid code woken))) h₃)
    (hrun' : Run (HostStep d) h₃ es' h₄)
    (hwait : HostStep d h₄ (.kernel (.sys (.waitReturn parent pid stored))) h₅) :
    (∀ i ∈ frames, ¬ Free h₅.mach.pmm i) ∧ ¬ Conserved frames (openFiles h₂.kernel) h₅ := by
  obtain ⟨-, ⟨i, hi⟩, hused⟩ := spawn_takes hspawn
  have hafter := run_takes ((hrun.snoc hexit).trans (hrun'.snoc hwait))
  have hkept : ∀ i ∈ frames, ¬ Free h₅.mach.pmm i :=
    fun i hi hfree => hused i hi (hafter.fewer i hfree)
  exact ⟨hkept, fun hconserved => hkept i hi (hconserved.freed i hi)⟩

theorem reapedChild_leaks : ∃ (h₀ h₂ h₅ : Host Unit) (es : List HostEvent) (frames : Set Nat),
    Run (HostStep oneFile) h₀ es h₅ ∧ .kernel (.sys (.waitReturn 1 2 none)) ∈ es ∧
    ¬ Conserved frames (openFiles h₂.kernel) h₅ := by
  obtain ⟨-, -, h₀, h₁, h₂, h₃, h₄, h₅, -, es, es', frames, -, -, hspawn, hrun, hexit, hrun', hwait,
    -, -, -⟩ := child_reaped
  have hleft := reaped_not_conserved hspawn hrun hexit hrun' hwait
  exact ⟨h₀, h₂, h₅, _, frames, .step hspawn ((hrun.snoc hexit).trans (hrun'.snoc hwait)), by simp,
    hleft.2⟩

/-- The page directory of the child is still in use, and so is its open file. -/
theorem reapedChild_remains : ∃ (k₀ : Kernel Unit) (m₀ : Machine) (h₀ h₁ h₂ h₃ h₄ h₅ : Host Unit)
    (es₀ es es' : List HostEvent) (frames : Set Nat), Start k₀ ∧
    Run (HostStep oneFile) ⟨k₀, m₀⟩ es₀ h₀ ∧
    HostStep oneFile h₀ (.spawn 2 frames) h₁ ∧ Run (HostStep oneFile) h₁ es h₂ ∧
    HostStep oneFile h₂ (.kernel (.sys (.exit 0x60 2 7 0))) h₃ ∧
    Run (HostStep oneFile) h₃ es' h₄ ∧
    HostStep oneFile h₄ (.kernel (.sys (.waitReturn 1 2 none))) h₅ ∧
    ¬ Conserved frames (openFiles h₂.kernel) h₅ := by
  obtain ⟨k₀, m₀, h₀, h₁, h₂, h₃, h₄, h₅, es₀, es, es', frames, hstart, hboot, hspawn, hrun, hexit,
    hrun', hwait, -, hfile, hlive⟩ := child_reaped
  refine ⟨k₀, m₀, h₀, h₁, h₂, h₃, h₄, h₅, es₀, es, es', frames, hstart, hboot, hspawn, hrun, hexit,
    hrun', hwait, fun hconserved => ?_⟩
  have hclosed := hconserved.closed _ hfile
  rw [hlive] at hclosed
  cases hclosed

end FrogKernel.Leaks
