import FrogKernel.Thread.Frames
import Mathlib.Data.List.Nodup

/-!
# Descriptor tables (`gdt/gdt.c`, `idt/idt.c`)

`gdt_init`, `tss_init` and `idt_init` write tables of packed records into the memory,
and the processor takes them apart in its own way.  Here is what it finds there.

Main result: `io_denied`, no program in user mode gets at an I/O port, whatever kernel
stack `tss_set_kernel_stack` has put into the task state segment since.
-/

namespace FrogKernel.Interrupts

open FrogKernel.Bytes FrogKernel.Stacks
open FrogKernel.Process (Selector SEG_KCODE SEG_KDATA SEG_UCODE SEG_UDATA)

/-- Where the linker has put the tables. -/
structure Tables where
  gdt : Nat
  tss : Nat
  idt : Nat
  gdt_lt : gdt + 48 ≤ 2 ^ 32
  tss_lt : tss + 104 ≤ 2 ^ 32
  idt_lt : idt + 2048 ≤ 2 ^ 32
  gdt_tss : gdt + 48 ≤ tss ∨ tss + 104 ≤ gdt
  gdt_idt : gdt + 48 ≤ idt ∨ idt + 2048 ≤ gdt
  tss_idt : tss + 104 ≤ idt ∨ idt + 2048 ≤ tss

/-! ## `gdt.c` -/

section

variable (t : Tables) (m : Mem)

/-- The stores of `gdt_set_tss` and `gdt_set_entry`, to the fields `base_low`, `base_mid`,
`base_high`, `limit_low`, `granularity` and `access` of a `gdt_entry_t`. -/
def storeEntry (i : Nat) (base limit : Word) (granularity access : BitVec 8) : Mem :=
  let entry := t.gdt + 8 * i
  let m := writeN m (entry + 2) 2 (base &&& 0xffff).toNat
  let m := writeN m (entry + 4) 1 ((base >>> 16) &&& 0xff).toNat
  let m := writeN m (entry + 7) 1 ((base >>> 24) &&& 0xff).toNat
  let m := writeN m entry 2 (limit &&& 0xffff).toNat
  let m := writeN m (entry + 6) 1 granularity.toNat
  writeN m (entry + 5) 1 access.toNat

/-- `gdt_set_tss` -/
def gdtSetTss (i : Nat) (base limit : Word) : Mem := storeEntry t m i base limit 0x00 0x89

/-- `gdt_set_entry` -/
def gdtSetEntry (i : Nat) (base limit : Word) (access gran : BitVec 8) : Mem :=
  storeEntry t m i base limit (((limit >>> 16) &&& 0x0f).setWidth 8 ||| (gran &&& 0xf0)) access

/-- `tss_init`: `ss0`, `esp0` and `iomap_base` have the offsets 8, 4 and 102. -/
def tssInit : Mem :=
  let m := fill m t.tss 0 104
  let m := write32 m (t.tss + 8) SEG_KDATA.toNat
  let m := write32 m (t.tss + 4) 0
  let m := writeN m (t.tss + 102) 2 104
  gdtSetTss t m 5 (BitVec.ofNat 32 t.tss) (104 - 1)

/-- `gdt_init` -/
def gdtInit : Mem :=
  let m := gdtSetEntry t m 0 0 0x00000000 0x00 0x00
  let m := gdtSetEntry t m 1 0 0xffffffff 0x9a 0xcf
  let m := gdtSetEntry t m 2 0 0xffffffff 0x92 0xcf
  let m := gdtSetEntry t m 3 0 0xffffffff 0xfa 0xcf
  let m := gdtSetEntry t m 4 0 0xffffffff 0xf2 0xcf
  tssInit t m

/-- `tss_set_kernel_stack` -/
def tssSetKernelStack (esp0 : Word) : Mem := write32 m (t.tss + 4) esp0.toNat

end

/-! ## The processor -/

/-- A descriptor of the GDT. -/
structure Descriptor where
  base : Nat
  limit : Nat
  access : BitVec 8
  flags : Nat
  deriving DecidableEq

section

variable (m : Mem)

def readDescriptor (gdt i : Nat) : Descriptor :=
  let a := gdt + 8 * i
  { base := readN m (a + 2) 2 + 2 ^ 16 * readN m (a + 4) 1 + 2 ^ 24 * readN m (a + 7) 1
    limit := readN m a 2 + 2 ^ 16 * (readN m (a + 6) 1 % 16)
    access := BitVec.ofNat 8 (readN m (a + 5) 1)
    flags := readN m (a + 6) 1 / 16 }

end

/-- The last offset; the limit counts bytes or pages. -/
def Descriptor.lastOffset (d : Descriptor) : Nat :=
  if d.flags.testBit 3 then d.limit * 4096 + 4095 else d.limit

def accessPresent (access : BitVec 8) : Bool := access.getLsbD 7

/-- The privilege level in an access byte, of a descriptor or of a gate. -/
def accessDpl (access : BitVec 8) : Nat := (access >>> 5 &&& 3).toNat

/-- A segment of the whole memory. -/
def Flat (d : Descriptor) : Prop :=
  accessPresent d.access = true ∧ d.base = 0 ∧ d.lastOffset = 0xffffffff

instance : DecidablePred Flat := fun _ => inferInstanceAs (Decidable (_ ∧ _ ∧ _))

/-- Entry 5, the one that `ltr` is given. -/
def SEG_TSS : Selector := 0x28

/-- A port in user mode without `IOPL`: the bit in the map of the task state segment,
when the map reaches there. -/
def ioAllowed (m : Mem) (gdt : Nat) (tr : Selector) (port : Nat) : Bool :=
  let tss := readDescriptor m gdt (tr.toNat / 8)
  let map := readN m (tss.base + 102) 2
  decide (map + port / 8 + 1 ≤ tss.lastOffset) && !(m (tss.base + map + port / 8)).getLsbD (port % 8)

/-! ## What the processor finds -/

section

variable {t : Tables} {m : Mem}

theorem field_lt (w : Word) (k : Nat) : ((w >>> k) &&& 0xff).toNat < 256 ^ 1 := by
  rw [BitVec.toNat_and]
  exact Nat.and_lt_two_pow _ (show (0xff : Word).toNat < 2 ^ 8 by decide)

theorem low_lt (w : Word) : (w &&& 0xffff).toNat < 256 ^ 2 := by
  rw [BitVec.toNat_and]
  exact Nat.and_lt_two_pow _ (show (0xffff : Word).toNat < 2 ^ 16 by decide)

/-- An address is put together from its three parts. -/
theorem base_parts (w : Word) :
    (w &&& 0xffff).toNat + 2 ^ 16 * ((w >>> 16) &&& 0xff).toNat + 2 ^ 24 * ((w >>> 24) &&& 0xff).toNat =
      w.toNat := by
  have h16 : (0xffff : Word).toNat = 2 ^ 16 - 1 := rfl
  have h8 : (0xff : Word).toNat = 2 ^ 8 - 1 := rfl
  rw [BitVec.toNat_and, BitVec.toNat_and, BitVec.toNat_and, h16, h8, Nat.and_two_pow_sub_one_eq_mod,
    Nat.and_two_pow_sub_one_eq_mod, Nat.and_two_pow_sub_one_eq_mod, BitVec.toNat_ushiftRight,
    BitVec.toNat_ushiftRight, Nat.shiftRight_eq_div_pow, Nat.shiftRight_eq_div_pow]
  have hlt := w.isLt
  omega

/-- **An entry.**  The processor puts the fields together again. -/
theorem readDescriptor_store (i : Nat) (base limit : Word) (granularity access : BitVec 8) :
    readDescriptor (storeEntry t m i base limit granularity access) t.gdt i =
      { base := base.toNat
        limit := (limit &&& 0xffff).toNat + 2 ^ 16 * (granularity.toNat % 16)
        access
        flags := granularity.toNat / 16 } := by
  have hbyte : ∀ b : BitVec 8, b.toNat < 256 ^ 1 := fun b => b.isLt
  have hlow := low_lt base
  have hmid := field_lt base 16
  have hhigh := field_lt base 24
  have hlimit := low_lt limit
  simp only [readDescriptor, storeEntry]
  simp (disch := omega) only [readN_writeN_apart, readN_writeN_self _ hlow, readN_writeN_self _ hmid,
    readN_writeN_self _ hhigh, readN_writeN_self _ hlimit, readN_writeN_self _ (hbyte _), base_parts,
    BitVec.ofNat_toNat, BitVec.setWidth_eq]

/-- Stores to an entry are stores to its eight bytes. -/
theorem storeEntry_outside {i : Nat} {base limit : Word} {granularity access : BitVec 8} {a : Nat}
    (h : a < t.gdt + 8 * i ∨ t.gdt + 8 * i + 8 ≤ a) :
    storeEntry t m i base limit granularity access a = m a := by
  simp only [storeEntry]
  simp (disch := omega) only [writeN_outside]

theorem readDescriptor_congr {m' : Mem} {gdt i : Nat}
    (h : ∀ a, gdt + 8 * i ≤ a → a < gdt + 8 * i + 8 → m' a = m a) :
    readDescriptor m' gdt i = readDescriptor m gdt i := by
  have hfield : ∀ off k, off + k ≤ 8 → readN m' (gdt + 8 * i + off) k = readN m (gdt + 8 * i + off) k :=
    fun off k hle => readN_congr fun a hlo hhi => h a (by omega) (by omega)
  have hfirst := hfield 0 2 (by decide)
  rw [Nat.add_zero] at hfirst
  simp only [readDescriptor, hfirst, hfield 2 2 (by decide), hfield 4 1 (by decide),
    hfield 5 1 (by decide), hfield 6 1 (by decide), hfield 7 1 (by decide)]

/-- The entries of the GDT. -/
def descriptor (t : Tables) : Nat → Descriptor
  | 0 => ⟨0, 0, 0x00, 0⟩
  | 1 => ⟨0, 0xfffff, 0x9a, 0xc⟩
  | 2 => ⟨0, 0xfffff, 0x92, 0xc⟩
  | 3 => ⟨0, 0xfffff, 0xfa, 0xc⟩
  | 4 => ⟨0, 0xfffff, 0xf2, 0xc⟩
  | _ => ⟨t.tss, 103, 0x89, 0⟩

theorem tss_toNat (t : Tables) : (BitVec.ofNat 32 t.tss).toNat = t.tss := by
  have hlt := t.tss_lt
  rw [BitVec.toNat_ofNat]
  exact Nat.mod_eq_of_lt (by omega)

theorem readDescriptor_ne {i j : Nat} (h : i ≠ j) (base limit : Word) (granularity access : BitVec 8) :
    readDescriptor (storeEntry t m i base limit granularity access) t.gdt j =
      readDescriptor m t.gdt j :=
  readDescriptor_congr fun _ hlo hhi => storeEntry_outside (by omega)

/-- A store to the task state segment leaves the GDT alone. -/
theorem readDescriptor_tss {k off v i : Nat} (hoff : off + k ≤ 104) (hi : i < 6) :
    readDescriptor (writeN m (t.tss + off) k v) t.gdt i = readDescriptor m t.gdt i := by
  have hapart := t.gdt_tss
  exact readDescriptor_congr fun a hlo hhi => writeN_outside m (by omega)

theorem readDescriptor_clear {i : Nat} (hi : i < 6) :
    readDescriptor (fill m t.tss 0 104) t.gdt i = readDescriptor m t.gdt i := by
  have hapart := t.gdt_tss
  refine readDescriptor_congr fun a hlo hhi => ?_
  rw [fill_apply, if_neg (by omega)]

/-- **The GDT.** -/
theorem readDescriptor_gdtInit {i : Nat} (hi : i < 6) :
    readDescriptor (gdtInit t m) t.gdt i = descriptor t i := by
  rw [gdtInit, tssInit, gdtSetTss]
  by_cases h5 : i = 5
  · subst h5
    rw [readDescriptor_store, tss_toNat]
    rfl
  · rw [readDescriptor_ne (Ne.symm h5), readDescriptor_tss (by decide) hi,
      readDescriptor_tss (by decide) hi, readDescriptor_tss (by decide) hi, readDescriptor_clear hi]
    have hcases : i = 0 ∨ i = 1 ∨ i = 2 ∨ i = 3 ∨ i = 4 := by omega
    rcases hcases with rfl | rfl | rfl | rfl | rfl
    all_goals
      simp only [gdtSetEntry]
      simp (disch := decide) only [readDescriptor_ne, readDescriptor_store]
      rfl

/-- The tables when `idt_init` starts, and with any kernel stack since. -/
structure GdtReady (t : Tables) (esp0 : Word) (m : Mem) : Prop where
  descriptors : ∀ i < 6, readDescriptor m t.gdt i = descriptor t i
  esp0 : read32 m (t.tss + 4) = esp0.toNat
  ss0 : read32 m (t.tss + 8) = SEG_KDATA.toNat
  iomap : readN m (t.tss + 102) 2 = 104

theorem gdtInit_ready : GdtReady t 0 (gdtInit t m) := by
  have hentry : ∀ {off k : Nat} {m : Mem}, off + k ≤ 104 →
      readN (gdtSetTss t m 5 (BitVec.ofNat 32 t.tss) (104 - 1)) (t.tss + off) k =
        readN m (t.tss + off) k := by
    intro off k m hoff
    have hapart := t.gdt_tss
    exact readN_congr fun a hlo hhi => storeEntry_outside (by omega)
  have h8 : SEG_KDATA.toNat < 256 ^ 4 := by decide
  have h104 : 104 < 256 ^ 2 := by decide
  refine ⟨fun i hi => readDescriptor_gdtInit hi, ?_, ?_, ?_⟩
  all_goals
    rw [gdtInit, tssInit]
    refine (hentry (by decide)).trans ?_
  · refine (readN_writeN_apart _ _ (by omega)).trans ?_
    exact readN_writeN_self _ (by decide)
  · refine (readN_writeN_apart _ _ (by omega)).trans ?_
    exact (readN_writeN_apart _ _ (by omega)).trans (readN_writeN_self _ h8)
  · exact readN_writeN_self _ h104

/-- `tss_set_kernel_stack` changes the kernel stack. -/
theorem GdtReady.setKernelStack {esp0 : Word} (h : GdtReady t esp0 m) (esp0' : Word) :
    GdtReady t esp0' (tssSetKernelStack t m esp0') := by
  have hesp : esp0'.toNat < 256 ^ 4 := esp0'.isLt
  refine ⟨fun i hi => ?_, readN_writeN_self _ hesp, ?_, ?_⟩
  · rw [tssSetKernelStack, readDescriptor_tss (by decide) hi, h.descriptors i hi]
  · exact (readN_writeN_apart _ _ (by omega)).trans h.ss0
  · exact (readN_writeN_apart _ _ (by omega)).trans h.iomap

/-- The tables stay when nobody stores there. -/
theorem GdtReady.congr {esp0 : Word} {m' : Mem} (h : GdtReady t esp0 m)
    (hgdt : ∀ a, t.gdt ≤ a → a < t.gdt + 48 → m' a = m a)
    (htss : ∀ a, t.tss ≤ a → a < t.tss + 104 → m' a = m a) : GdtReady t esp0 m' := by
  refine ⟨fun i hi => ?_, ?_, ?_, ?_⟩
  · rw [← h.descriptors i hi]
    exact readDescriptor_congr fun a hlo hhi => hgdt a (by omega) (by omega)
  · rw [← h.esp0]
    exact readN_congr fun a hlo hhi => htss a (by omega) (by omega)
  · rw [← h.ss0]
    exact readN_congr fun a hlo hhi => htss a (by omega) (by omega)
  · rw [← h.iomap]
    exact readN_congr fun a hlo hhi => htss a (by omega) (by omega)

/-- **The segments.**  Those of the kernel and those of the user are the whole memory. -/
theorem GdtReady.flat {esp0 : Word} (h : GdtReady t esp0 m) {s : Selector}
    (hs : s ∈ [SEG_KCODE, SEG_KDATA, SEG_UCODE, SEG_UDATA]) :
    Flat (readDescriptor m t.gdt (s.toNat / 8)) ∧
      accessDpl (readDescriptor m t.gdt (s.toNat / 8)).access = s.toNat % 4 := by
  simp only [List.mem_cons, List.not_mem_nil, or_false] at hs
  rcases hs with rfl | rfl | rfl | rfl
  all_goals
    rw [h.descriptors _ (by decide)]
    exact ⟨show Flat ⟨0, 0xfffff, _, 0xc⟩ by decide,
      show accessDpl (Descriptor.access ⟨0, 0xfffff, _, 0xc⟩) = _ by decide⟩

/-- **Ports.**  The map of the task state segment lies behind its end. -/
theorem GdtReady.io_denied {esp0 : Word} (h : GdtReady t esp0 m) (port : Nat) :
    ioAllowed m t.gdt SEG_TSS port = false := by
  have htss : readDescriptor m t.gdt (SEG_TSS.toNat / 8) = ⟨t.tss, 103, 0x89, 0⟩ :=
    h.descriptors 5 (by decide)
  have hlast : Descriptor.lastOffset ⟨t.tss, 103, 0x89, 0⟩ = 103 :=
    if_neg (show ¬ Nat.testBit 0 3 = true by decide)
  rw [ioAllowed, htss, hlast, h.iomap, decide_eq_false (by omega), Bool.false_and]

end

end FrogKernel.Interrupts
