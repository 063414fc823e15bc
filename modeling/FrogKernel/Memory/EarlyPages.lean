import FrogKernel.Memory.BootPaging
import FrogKernel.Memory.KernelPages

/-!
# What `kmain` maps at first (`memory/paging.c`, `memory/kheap.c`, `kernel.c`)

Between `paging_init` and `remove_identity_map` the kernel runs with the first mapping of 4 MiB and
maps pages behind it: for the heap, for the framebuffer, for its back buffer and for the initrd.
-/

namespace FrogKernel.EarlyPages

open FrogKernel.Bytes FrogKernel.PageTables FrogKernel.Paging FrogKernel.Pmm FrogKernel.KernelPages
open FrogKernel.BootPaging (BootData bootMap pagingInit booted_of_start start_tables
  pagingInit_booted zero_entry)
open FrogKernel.KernelAreas (newKernelPage)
open FrogKernel.Pages (Touches not_touches_iff)
open FrogKernel.PmmInit (KernelImage KERNEL_OFFSET BootInfo Offered boot boot_offered ramdiskBoot
  markCount clipped)
open FrogKernel.Runs (Run)

inductive BootEvent where
  | page
  | map (phys : Nat)
  | store

/-- A page of a new frame, a page of a frame that the allocator does not have, as the pages of the
framebuffer, or a byte stored through such a page. -/
inductive BootStep : Machine → BootEvent → Machine → Prop
  | page {s s' : Machine} {virt : Nat} : KernelVirt virt → virt % 4096 = 0 →
      newKernelPage s virt = some s' → BootStep s .page s'
  | map {s s' : Machine} {phys virt flags : Nat} : KernelVirt virt → virt % 4096 = 0 →
      phys < 2 ^ 32 → DataFrame s (frameOf phys) → mapPage s phys virt flags = some s' →
      BootStep s (.map phys) s'
  | store {s s' : Machine} {virt : Nat} (b : BitVec 8) : KernelVirt virt →
      store8 s virt b = some s' → BootStep s .store s'

/-- The first mapping is there, nothing else is below the kernel, and the pages above it are data. -/
structure Before (s : Machine) : Prop where
  own : OwnPages s
  low : ∀ v < 0x400000, translate s.phys s.cr3 v = some v
  user : ∀ v, 0x400000 ≤ v → v < KERNEL_OFFSET → translate s.phys s.cr3 v = none
  pages : ∀ v, KernelVirt v → ∀ a, translate s.phys s.cr3 v = some a → DataFrame s (frameOf a)

section Boot

variable {s s' : Machine} {base n : Nat} {entry : Nat → Nat}

theorem kernelVirt_below {v : Nat} (hv : v < KERNEL_OFFSET) : v < 2 ^ 32 ∧ dirIndex v < 1020 := by
  simp only [KERNEL_OFFSET, dirIndex] at *
  omega

theorem Before.edits (h : Before s) (hedits : Edits s s' base n entry) (hbase : 0xc0400000 ≤ base)
    (hnew : ∀ i < n, present (entry i) = true → DataFrame s' (frameOf (entry i))) : Before s' := by
  have hlow : ∀ v < KERNEL_OFFSET, translate s'.phys s'.cr3 v = translate s.phys s.cr3 v := by
    intro v hv
    obtain ⟨hlt, hi⟩ := kernelVirt_below hv
    simp only [KERNEL_OFFSET] at hv
    exact hedits.others hlt hi (by omega)
  refine ⟨hedits.own, fun v hv => ?_, fun v hlo hhi => ?_, fun v hv a ha => ?_⟩
  · rw [hlow v (Nat.lt_trans hv (by decide))]
    exact h.low v hv
  · rw [hlow v hhi]
    exact h.user v hlo hhi
  · by_cases hin : base ≤ v ∧ v < base + n * 4096
    · rw [PageTables.translate, hedits.lookups v hv.lt hv.dirIndex.2, if_pos hin] at ha
      by_cases hp : present (entry ((v - base) / 4096)) = true
      · rw [if_pos hp] at ha
        obtain rfl := Option.some.inj ha
        have hframe := frameOf_aligned (entry ((v - base) / 4096))
        have hsame : frameOf (frameOf (entry ((v - base) / 4096)) + v % 4096) =
            frameOf (entry ((v - base) / 4096)) := by
          simp only [frameOf] at *
          omega
        rw [hsame]
        exact hnew _ (by omega) hp
      · rw [if_neg hp] at ha
        cases ha
    · rw [hedits.others hv.lt hv.dirIndex.2 hin] at ha
      exact (hedits.kept _ (frameOf_aligned _) (h.pages v hv a ha)).1

theorem Before.stores (h : Before s) (hstores : Stores s s') : Before s' := by
  refine ⟨hstores.own h.own, fun v hv => ?_, fun v hlo hhi => ?_, fun v hv a ha => ?_⟩
  · rw [hstores.translate]
    exact h.low v hv
  · rw [hstores.translate]
    exact h.user v hlo hhi
  · rw [hstores.translate] at ha
    exact hstores.data (h.pages v hv a ha)

/-- What a step does: it maps one page to a frame for data, which is a new one or the one that was
asked for, or it stores a byte. -/
theorem boot_cases {e : BootEvent} (h : Before s) (hstep : BootStep s e s') :
    (∃ virt phys flags, KernelVirt virt ∧ phys < 2 ^ 32 ∧
      Edits s s' virt 1 (fun _ => pageEntry phys flags) ∧ DataFrame s' (frameOf phys) ∧
      ((∀ f, DataFrame s f → frameOf phys ≠ f) ∨ e = .map phys)) ∨
    ∃ virt a b, KernelVirt virt ∧ translate s.phys s.cr3 virt = some a ∧
      s' = { s with phys := Function.update s.phys a b } := by
  cases hstep with
  | @page _ virt hv haligned hpage =>
    obtain ⟨f, hedits, hframes⟩ := h.own.newPage hv haligned hpage
    have hf : frameOf f = f :=
      Nat.div_mul_cancel (Nat.dvd_of_mod_eq_zero (hframes.aligned 0 Nat.one_pos))
    refine Or.inl ⟨virt, f, _, hv, hframes.lt 0 Nat.one_pos, hedits, ?_, Or.inl fun f' hf' => ?_⟩
    · rw [hf]
      exact hframes.data 0 Nat.one_pos
    · rw [hf]
      exact hframes.ne_data Nat.one_pos hf'
  | @map _ phys virt flags hv haligned hphys hdata hmap =>
    have hedits := h.own.map hv haligned hphys hmap
    exact Or.inl ⟨virt, phys, flags, hv, hphys, hedits,
      (hedits.kept _ (frameOf_aligned _) hdata).1, Or.inr rfl⟩
  | @store _ virt b hv hstore =>
    obtain ⟨a, ha, rfl⟩ := Option.map_eq_some_iff.mp hstore
    exact Or.inr ⟨virt, a, b, hv, ha, rfl⟩

theorem before_step {e : BootEvent} (h : Before s) (hstep : BootStep s e s') : Before s' := by
  rcases boot_cases h hstep with ⟨virt, phys, flags, hv, hphys, hedits, hdata, -⟩ |
    ⟨virt, a, b, hv, ha, rfl⟩
  · refine h.edits hedits hv.1 fun i hi _ => ?_
    rw [(pageEntry_entry _ hphys).frameOf]
    exact hdata
  · exact h.stores (stores_byte h.own (h.pages _ hv a ha) b)

/-- Frames for data that no page leads to, as they were at first. -/
structure Apart (frames : Nat → Prop) (s₀ s : Machine) : Prop where
  before : Before s
  data : ∀ f, frames f → DataFrame s f
  pages : ∀ v, KernelVirt v → ∀ a, translate s.phys s.cr3 v = some a → ¬ frames (frameOf a)
  kept : ∀ a, frames (frameOf a) → s.phys a = s₀.phys a

theorem apart_step {frames : Nat → Prop} {s₀ : Machine} {e : BootEvent}
    (haligned : ∀ f, frames f → f % 4096 = 0) (hmap : ∀ phys, e = .map phys → ¬ frames (frameOf phys))
    (h : Apart frames s₀ s) (hstep : BootStep s e s') : Apart frames s₀ s' := by
  have hbefore := before_step h.before hstep
  rcases boot_cases h.before hstep with ⟨virt, phys, flags, hv, hphys, hedits, -, hnew⟩ |
    ⟨virt, a, b, hv, ha, rfl⟩
  · refine ⟨hbefore, fun f hf => (hedits.kept f (haligned f hf) (h.data f hf)).1, fun v hv' a ha => ?_,
      fun a ha => ?_⟩
    · by_cases hin : virt ≤ v ∧ v < virt + 1 * 4096
      · rw [PageTables.translate, hedits.lookups v hv'.lt hv'.dirIndex.2, if_pos hin,
          if_pos (pageEntry_entry _ hphys).present] at ha
        obtain rfl := Option.some.inj ha
        have hframe : frameOf (frameOf (pageEntry phys flags) + v % 4096) = frameOf phys := by
          rw [(pageEntry_entry _ hphys).frameOf]
          simp only [frameOf]
          omega
        rw [hframe]
        rcases hnew with hne | heq
        · exact fun hf => hne _ (h.data _ hf) rfl
        · exact hmap phys heq
      · rw [hedits.others hv'.lt hv'.dirIndex.2 hin] at ha
        exact h.pages v hv' a ha
    · rw [(hedits.kept _ (haligned _ ha) (h.data _ ha)).2 a rfl]
      exact h.kept a ha
  · have hstores := stores_byte h.before.own (h.before.pages _ hv a ha) b
    refine ⟨hbefore, fun f hf => hstores.data (h.data f hf), fun v hv' x hx => ?_, fun x hx => ?_⟩
    · rw [hstores.translate] at hx
      exact h.pages v hv' x hx
    · have hne : x ≠ a := by
        rintro rfl
        exact h.pages _ hv _ ha hx
      dsimp only
      rw [Function.update_of_ne hne]
      exact h.kept x hx

theorem apart_run {frames : Nat → Prop} {s₀ : Machine} {es : List BootEvent}
    (haligned : ∀ f, frames f → f % 4096 = 0)
    (hmap : ∀ phys, BootEvent.map phys ∈ es → ¬ frames (frameOf phys)) (hrun : Run BootStep s es s')
    (h : Apart frames s₀ s) : Apart frames s₀ s' := by
  induction hrun with
  | refl => exact h
  | step hstep _ ih =>
    refine ih (fun phys hmem => hmap phys (List.mem_cons_of_mem _ hmem)) ?_
    exact apart_step haligned (fun phys heq => hmap phys (heq ▸ List.mem_cons_self)) h hstep

theorem booted_entry {k : KernelImage} {d : BootData k} (h : BootPaging.Booted d s) :
    ∀ i < 1023, present (entryAt s.phys s.cr3 i) = true →
      (i = 0 ∨ i = 768) ∧ frameOf (entryAt s.phys s.cr3 i) = d.table := by
  intro i hi hp
  rw [h.cr3, h.entries i (by omega), if_neg (by omega)] at hp ⊢
  by_cases hlow : i = 0 ∨ i = 768
  · rw [if_pos hlow]
    exact ⟨hlow, d.entry.frameOf⟩
  · rw [if_neg hlow] at hp
    cases hp

theorem booted_unmapped {k : KernelImage} {d : BootData k} (h : BootPaging.Booted d s) {v : Nat}
    (hv : KernelVirt v) : translate s.phys s.cr3 v = none := by
  obtain ⟨hlo, hhi⟩ := hv
  rw [h.translate (by omega), bootMap, if_neg (by omega), if_neg, if_neg]
  · simp only [RECURSIVE_BASE]
    omega
  · simp only [KERNEL_OFFSET]
    omega

/-- `paging_init` leaves such a state. -/
theorem before_booted {k : KernelImage} {d : BootData k} (h : BootPaging.Booted d s)
    (hdir : ¬ Free s.pmm (addrToPage d.directory)) (htable : ¬ Free s.pmm (addrToPage d.table)) :
    Before s := by
  have hentry := booted_entry h
  have hrec : Recursive s.phys s.cr3 := h.cr3 ▸ h.recursive
  refine ⟨⟨hrec, fun j hj hp => ?_, fun j hj hp => ?_, fun i j hlo hi hj hne hpi hpj => ?_⟩,
    fun v hv => ?_, fun v hlo hhi => ?_, fun v hv a ha => ?_⟩
  · rw [(hentry j hj hp).2, h.cr3]
    exact d.directory_ne.symm
  · by_cases h1023 : j = 1023
    · rw [h1023, hrec.frame, h.cr3]
      exact hdir
    · rw [(hentry j (by omega) hp).2]
      exact htable
  · have := (hentry i (by omega) hpi).1
    omega
  · rw [h.translate (Nat.lt_trans hv (by decide)), bootMap, if_pos hv]
  · simp only [KERNEL_OFFSET] at hhi
    rw [h.translate (by omega), bootMap, if_neg (by omega), if_neg, if_neg]
    · simp only [RECURSIVE_BASE]
      omega
    · simp only [KERNEL_OFFSET]
      omega
  · rw [booted_unmapped h hv] at ha
    cases ha

end Boot

/-! ## From the start of the kernel -/

section Start

variable {b : BootInfo} {d : BootData b.kernel} {boot₀ : PmmInit.Booted} {s₀ s : Machine}
  {es : List BootEvent}

/-- The kernel has come through `paging_init` to a later place of `kmain`. -/
structure Reached (b : BootInfo) (d : BootData b.kernel) (boot₀ : PmmInit.Booted) (s₀ : Machine)
    (es : List BootEvent) (s : Machine) : Prop where
  start : ∃ m m' cr3 mem, (∀ i < 1024, entryAt m d.directory i = 0) ∧
    b.kernel.physEnd ≤ b.pages * PAGE_SIZE ∧ BootPaging.start d 1024 m = some (m', cr3) ∧
    boot b.kernel b.tags mem = some boot₀ ∧ pagingInit d ⟨m', boot₀.pmm, cr3⟩ = some s₀
  run : Run BootStep s₀ es s

theorem Reached.booted (h : Reached b d boot₀ s₀ es s) : Before s₀ ∧ BootPaging.Booted d s₀ := by
  obtain ⟨m, m', cr3, mem, hzero, hmem, hstart, hboot, hpaging⟩ := h.start
  obtain ⟨hbooted, hdir, htable⟩ := booted_of_start b d hzero hmem hstart hboot hpaging
  exact ⟨before_booted hbooted hdir htable, hbooted⟩

theorem Reached.before (h : Reached b d boot₀ s₀ es s) : Before s :=
  h.run.invariant (fun _ _ _ h hstep => before_step h hstep) h.booted.1

/-- A frame that is not free at boot and not the kernel's. -/
theorem Reached.dataFrame (h : Reached b d boot₀ s₀ es s) {f : Nat} (hf : f % 4096 = 0)
    (hoffered : ¬ Offered b (addrToPage f))
    (hkernel : ¬ Touches PAGE_SIZE b.kernel.physStart b.kernel.physEnd (addrToPage f)) :
    DataFrame s₀ f := by
  have hbooted := h.booted.2
  obtain ⟨m, m', cr3, mem, -, -, -, hboot, hpaging⟩ := h.start
  have hne : ∀ t, t % 4096 = 0 → b.kernel.physStart ≤ t → t + 4096 ≤ b.kernel.physEnd → t ≠ f := by
    rintro t ht hlo hhi rfl
    exact hkernel ⟨t, hlo, by omega, rfl⟩
  have htaken : addrToPage f < s₀.pmm.totalPages → ¬ Free s₀.pmm (addrToPage f) := by
    obtain ⟨boot₁, hboot', -, hfree⟩ := boot_offered b mem
    rw [hboot] at hboot'
    obtain rfl := Option.some.inj hboot'
    have hpmm : s₀.pmm = boot₀.pmm := by
      obtain ⟨_, -, rfl⟩ := Option.map_eq_some_iff.mp hpaging
      rfl
    rw [hpmm]
    exact fun hlt hk => hoffered ((hfree _).mp ⟨hlt, hk⟩)
  obtain ⟨hdir0, -, hdirlo, hdirhi⟩ := d.directory_eq
  obtain ⟨htable0, -, htablelo, htablehi⟩ := d.table_eq
  refine ⟨htaken, ?_, fun j hj hp => ?_⟩
  · rw [hbooted.cr3]
    exact (hne _ hdir0 hdirlo hdirhi).symm
  · by_cases h1023 : j = 1023
    · rw [h1023, hbooted.cr3, hbooted.recursive.frame]
      exact hne _ hdir0 hdirlo hdirhi
    · rw [(booted_entry hbooted j (by omega) hp).2]
      exact hne _ htable0 htablelo htablehi

/-- Such frames stay apart unless `kmain` maps them. -/
theorem Reached.apart (h : Reached b d boot₀ s₀ es s) {frames : Nat → Prop}
    (haligned : ∀ f, frames f → f % 4096 = 0)
    (hoffered : ∀ f, frames f → ¬ Offered b (addrToPage f))
    (hkernel : ∀ f, frames f →
      ¬ Touches PAGE_SIZE b.kernel.physStart b.kernel.physEnd (addrToPage f))
    (hmap : ∀ phys, BootEvent.map phys ∈ es → ¬ frames (frameOf phys)) : Apart frames s₀ s := by
  obtain ⟨hbefore, hbooted⟩ := h.booted
  refine apart_run haligned hmap h.run ⟨hbefore, fun f hf => ?_, fun v hv a ha => ?_, fun _ _ => rfl⟩
  · exact h.dataFrame (haligned f hf) (hoffered f hf) (hkernel f hf)
  · rw [booted_unmapped hbooted hv] at ha
    cases ha

end Start

/-- Every such kernel comes through `paging_init`, with the frames that are free at boot. -/
theorem reached_start (b : BootInfo) (d : BootData b.kernel)
    (hmem : b.kernel.physEnd ≤ b.pages * PAGE_SIZE) {lo n : Nat} (hlo : 1 ≤ lo)
    (hoffered : ∀ k, lo ≤ k → k < lo + n → Offered b k) :
    ∃ boot₀ s, Reached b d boot₀ s [] s ∧ Spare n s.pmm := by
  have hzero : ∀ i < 1024, entryAt (fun _ => 0) d.directory i = 0 := fun i _ => zero_entry _ i
  obtain ⟨boot₀, hboot, -, hfree⟩ := boot_offered b fun _ => 0
  obtain ⟨m', hstart, hidentity, hentries⟩ := start_tables (d := d) hzero
  obtain ⟨s, hpaging, hpmm, -⟩ := pagingInit_booted boot₀.pmm hidentity hentries
  refine ⟨boot₀, s, ⟨⟨_, _, _, _, hzero, hmem, hstart, hboot, hpaging⟩, .refl s⟩, ?_⟩
  have hsub : Finset.Ico lo (lo + n) ⊆ freeFrames s.pmm := by
    intro k hk
    rw [Finset.mem_Ico] at hk
    obtain ⟨hlt, hk'⟩ := (hfree k).mpr (hoffered k hk.1 hk.2)
    simp only [freeFrames, Finset.mem_filter, Finset.mem_range, hpmm]
    exact ⟨hlt, by omega, hk'⟩
  have hcard := Finset.card_le_card hsub
  rwa [Nat.card_Ico, Nat.add_sub_cancel_left] at hcard

/-- The memory of `ramdiskBoot` from 4 MiB on. -/
theorem ramdiskBoot_offers {k : Nat} (hlo : 0x400 ≤ k) (hhi : k < 0x7000) : Offered ramdiskBoot k where
  lt := Nat.lt_trans hhi (by decide)
  usable := by
    refine ⟨⟨0x100000, 0x7ee0000, 1, by decide, by decide⟩, .tail _ (.head _), ?_⟩
    have hcount : 0x7000 ≤ markCount (clipped ⟨0x100000, 0x7ee0000, 1, by decide, by decide⟩) := by
      decide
    refine ⟨Nat.le_trans (by decide) hlo, ?_⟩
    exact Nat.lt_of_lt_of_le hhi (Nat.le_trans hcount (Nat.le_add_left _ _))
  low := (not_touches_iff (by decide)).mpr (by simp only [PAGE_SIZE]; omega)
  kernel := by
    have hend : ramdiskBoot.kernel.physEnd = 0x260000 := rfl
    rw [not_touches_iff (by decide), hend]
    simp only [PAGE_SIZE]
    omega
  bitmap := by
    have hend : ramdiskBoot.bitmapEnd ≤ 0x300000 := by decide
    rw [not_touches_iff (by decide)]
    simp only [PAGE_SIZE]
    omega
  framebuffer := by
    rintro ⟨hfb, -⟩
    have hpage : addrToPage (ramdiskBoot.fbTag.framebufferAddr % 2 ^ 32) = 0xfd000 := rfl
    omega

end FrogKernel.EarlyPages
