import FrogKernel.Initrd.Initrd
import FrogKernel.Lib.Pages
import FrogKernel.Memory.Paging

/-!
# From the multiboot tags to the first free frames

`mmap_init`, `initrd_init`, `fb_parse_tag` and `pmm_init`, in the order of
`kmain`.  `pmm_init` marks every frame used, frees the usable regions and takes
back what is occupied; both directions round to pages the same way.
-/

namespace FrogKernel.PmmInit

open FrogKernel.Pmm FrogKernel.Pages FrogKernel.PageTables FrogKernel.Paging FrogKernel.Runs
open FrogKernel.Initrd (InitrdT)
open FrogKernel.Kheap (add32 sub32 add32_lt)

def KERNEL_OFFSET : Nat := 0xc0000000
def MAX_MEM_REGIONS : Nat := 32

/-- `sizeof(framebuffer_t)` -/
def sizeofFb : Nat := 28

/-! ## What the boot loader and the linker hand over -/

/-- `mb2_mmap_entry_t` -/
structure MmapEntry where
  baseAddr : Nat
  length : Nat
  type : Nat
  base_lt : baseAddr < 2 ^ 64
  length_lt : length < 2 ^ 64

/-- `mb2_tag_framebuffer_t` -/
structure FramebufferTag where
  framebufferAddr : Nat
  framebufferPitch : Nat
  framebufferHeight : Nat
  addr_lt : framebufferAddr < 2 ^ 64
  pitch_lt : framebufferPitch < 2 ^ 32
  height_lt : framebufferHeight < 2 ^ 32

/-- `mb2_tag_module_t` -/
structure ModuleTag where
  modStart : Nat
  modEnd : Nat
  start_lt : modStart < 2 ^ 32
  end_lt : modEnd < 2 ^ 32

/-- The tags up to the end tag. -/
inductive Tag where
  | mmap (entries : List MmapEntry)
  | module (tag : ModuleTag)
  | framebuffer (tag : FramebufferTag)
  | other (type : Nat)

/-- The symbols of `linker.ld` and the address of `fb`.  `boot.s` maps the
first 4 MiB, and the kernel runs there. -/
structure KernelImage where
  virtStart : Nat
  virtEnd : Nat
  fb : Nat
  start_ge : KERNEL_OFFSET ≤ virtStart
  fb_ge : virtStart ≤ fb
  fb_le : fb + sizeofFb ≤ virtEnd
  end_le : virtEnd ≤ KERNEL_OFFSET + 0x400000

def KernelImage.physStart (k : KernelImage) : Nat := k.virtStart - KERNEL_OFFSET
def KernelImage.physEnd (k : KernelImage) : Nat := k.virtEnd - KERNEL_OFFSET

/-! ## `mmap_init`, `initrd_init`, `fb_parse_tag` -/

/-- `mem_region_t` -/
structure MemRegion where
  base : Nat
  length : Nat

/-- The variables of `mmap.c`. -/
structure Mmap where
  kstart : Nat
  kend : Nat
  ksize : Nat
  kpstart : Nat
  kpend : Nat
  usableRegions : List MemRegion
  totalMemory : Nat
  total_lt : totalMemory < 2 ^ 32

/-- The loop over the tags: the first one that `sel` takes. -/
def firstTag {α : Type} (sel : Tag → Option α) : List Tag → Option α
  | [] => none
  | tag :: tags => (sel tag).or (firstTag sel tags)

def mmapTag : List Tag → Option (List MmapEntry) :=
  firstTag fun | .mmap entries => some entries | _ => none

def moduleTag : List Tag → Option ModuleTag :=
  firstTag fun | .module tag => some tag | _ => none

def framebufferTag : List Tag → Option FramebufferTag :=
  firstTag fun | .framebuffer tag => some tag | _ => none

/-- `length` of `mmap_init`: what lies below 4 GiB, in 32 bits. -/
def clipped (e : MmapEntry) : Nat :=
  if (e.baseAddr + e.length) % 2 ^ 64 > 2 ^ 32 then (2 ^ 32 - e.baseAddr) % 2 ^ 32
  else e.length % 2 ^ 32

/-- The body of the loop over the entries. -/
def mmapEntry (m : Mmap) (e : MmapEntry) : Mmap :=
  if e.baseAddr < 2 ^ 32 then
    { m with
      usableRegions :=
        if e.type = 1 ∧ m.usableRegions.length < MAX_MEM_REGIONS then
          m.usableRegions ++ [⟨e.baseAddr, clipped e⟩]
        else m.usableRegions
      totalMemory := add32 m.totalMemory (clipped e)
      total_lt := add32_lt _ _ }
  else m

def mmapInit (k : KernelImage) (tags : List Tag) : Option Mmap :=
  (mmapTag tags).map fun entries =>
    entries.foldl mmapEntry
      { kstart := k.virtStart
        kend := k.virtEnd
        ksize := k.virtEnd - k.virtStart
        kpstart := k.physStart
        kpend := k.physEnd
        usableRegions := []
        totalMemory := 0
        total_lt := by decide }

def initrdInit (tags : List Tag) : Option InitrdT :=
  (moduleTag tags).map fun tag => ⟨0, tag.modStart, sub32 tag.modEnd tag.modStart⟩

def fbParseTag (tags : List Tag) : Option FramebufferTag := framebufferTag tags

/-! ## `pmm_init` -/

/-- `memset` of the bitmap. -/
def memset (map : Bitmap) (c : BitVec 8) (n : Nat) : Bitmap := fun k => if k < n then c else map k

/-- `(len + PAGE_SIZE - 1) / PAGE_SIZE` in 32 bits. -/
def markCount (len : Nat) : Nat := add32 len (PAGE_SIZE - 1) / PAGE_SIZE

def pmmMarkUsed (map : Bitmap) (addr len : Nat) : Bitmap :=
  (List.range (markCount len)).foldl (fun map i => bitSet map (addrToPage addr + i)) map

def pmmMarkFree (map : Bitmap) (addr len : Nat) : Bitmap :=
  (List.range (markCount len)).foldl (fun map i => bitClear map (addrToPage addr + i)) map

def totalPages (m : Mmap) : Nat := m.totalMemory / PAGE_SIZE
def bitmapAddr (m : Mmap) : Nat := add32 m.kend 0xfff &&& 0xfffff000
def bitmapSize (m : Mmap) : Nat := (totalPages m + 7) / 8

/-- The five `pmm_mark_used` of `pmm_init`, as addresses and lengths. -/
def reserved (m : Mmap) (tag : FramebufferTag) (fb : Nat) : List (Nat × Nat) :=
  let startPage := m.kpstart &&& 0xfffff000
  let endPage := add32 m.kpend 0xfff &&& 0xfffff000
  let bitmapPhys := sub32 (bitmapAddr m) KERNEL_OFFSET
  let bitmapStartPage := bitmapPhys &&& 0xfffff000
  let bitmapEndPage := add32 (add32 bitmapPhys (bitmapSize m)) 0xfff &&& 0xfffff000
  [(0, 0x100000),
   (startPage, sub32 endPage startPage),
   (bitmapStartPage, sub32 bitmapEndPage bitmapStartPage),
   (tag.framebufferAddr % 2 ^ 32, tag.framebufferPitch * tag.framebufferHeight % 2 ^ 32),
   (sub32 fb KERNEL_OFFSET, sizeofFb)]

/-- `mem` holds the bytes from `pmm_bitmap` on before the call. -/
def pmmInit (m : Mmap) (tag : FramebufferTag) (fb : Nat) (mem : Bitmap) : PmmState :=
  let map := memset mem 0xff (bitmapSize m)
  let map := m.usableRegions.foldl (fun map r => pmmMarkFree map r.base r.length) map
  let map := (reserved m tag fb).foldl (fun map r => pmmMarkUsed map r.1 r.2) map
  ⟨totalPages m, map, by
    have hlt := m.total_lt
    unfold totalPages PAGE_SIZE
    omega⟩

/-- The variables after `pmm_init`. -/
structure Booted where
  mmap : Mmap
  initrd : InitrdT
  fbTag : FramebufferTag
  pmm : PmmState

/-- `kmain` up to `pmm_init`; `none` is a `panic` for want of a tag. -/
def boot (k : KernelImage) (tags : List Tag) (mem : Bitmap) : Option Booted := do
  let mmap ← mmapInit k tags
  let initrd ← initrdInit tags
  let fbTag ← fbParseTag tags
  return ⟨mmap, initrd, fbTag, pmmInit mmap fbTag k.fb mem⟩

/-! ## The bitmap after the marks -/

/-- The frames that a mark of `len` bytes from `addr` on reaches. -/
def Marked (addr len k : Nat) : Prop := addrToPage addr ≤ k ∧ k < addrToPage addr + markCount len

instance (addr len k : Nat) : Decidable (Marked addr len k) := inferInstanceAs (Decidable (_ ∧ _))

theorem markCount_eq {len : Nat} (h : len + PAGE_SIZE - 1 < 2 ^ 32) :
    markCount len = pageCount PAGE_SIZE len := by
  rw [markCount, add32, pageCount, ← Nat.add_sub_assoc (by decide), Nat.mod_eq_of_lt h]

theorem markCount_le (len : Nat) : markCount len ≤ pageCount PAGE_SIZE len := by
  rw [markCount, add32, pageCount, ← Nat.add_sub_assoc (by decide)]
  exact Nat.div_le_div_right (Nat.mod_le _ _)

theorem Marked.counted {addr len k : Nat} (h : Marked addr len k) :
    Counted PAGE_SIZE addr len k :=
  ⟨h.1, Nat.lt_of_lt_of_le h.2 (Nat.add_le_add_left (markCount_le len) _)⟩

theorem bitTest_setRange (map : Bitmap) (a k n : Nat) :
    bitTest ((List.range n).foldl (fun map i => bitSet map (a + i)) map) k =
      (decide (a ≤ k ∧ k < a + n) || bitTest map k) := by
  induction n with
  | zero =>
    have hnone : ¬ (a ≤ k ∧ k < a + 0) := by omega
    simp only [List.range_zero, List.foldl_nil, decide_eq_false hnone, Bool.false_or]
  | succ n ih =>
    have hstep : (a ≤ k ∧ k < a + (n + 1)) ↔ a + n = k ∨ (a ≤ k ∧ k < a + n) := by omega
    rw [List.range_succ, List.foldl_append, List.foldl_cons, List.foldl_nil, bitTest_bitSet, ih,
      ← Bool.or_assoc, ← Bool.decide_or, decide_eq_decide.mpr hstep]

theorem bitTest_clearRange (map : Bitmap) (a k n : Nat) :
    bitTest ((List.range n).foldl (fun map i => bitClear map (a + i)) map) k =
      (!decide (a ≤ k ∧ k < a + n) && bitTest map k) := by
  induction n with
  | zero =>
    have hnone : ¬ (a ≤ k ∧ k < a + 0) := by omega
    simp only [List.range_zero, List.foldl_nil, decide_eq_false hnone, Bool.not_false,
      Bool.true_and]
  | succ n ih =>
    have hstep : (a ≤ k ∧ k < a + (n + 1)) ↔ a + n = k ∨ (a ≤ k ∧ k < a + n) := by omega
    rw [List.range_succ, List.foldl_append, List.foldl_cons, List.foldl_nil, bitTest_bitClear, ih,
      ← Bool.and_assoc, ← Bool.not_or, ← Bool.decide_or, decide_eq_decide.mpr hstep]

theorem pmmMarkUsed_free {map : Bitmap} {addr len k : Nat} :
    bitTest (pmmMarkUsed map addr len) k = false ↔
      ¬ Marked addr len k ∧ bitTest map k = false := by
  rw [pmmMarkUsed, bitTest_setRange, Bool.or_eq_false_iff, decide_eq_false_iff_not, Marked]

theorem pmmMarkFree_free {map : Bitmap} {addr len k : Nat} :
    bitTest (pmmMarkFree map addr len) k = false ↔
      Marked addr len k ∨ bitTest map k = false := by
  rw [pmmMarkFree, bitTest_clearRange, Bool.and_eq_false_iff, Bool.not_eq_false',
    decide_eq_true_eq, Marked]

theorem markAllUsed_free {rs : List (Nat × Nat)} {map : Bitmap} {k : Nat} :
    bitTest (rs.foldl (fun map r => pmmMarkUsed map r.1 r.2) map) k = false ↔
      (∀ r ∈ rs, ¬ Marked r.1 r.2 k) ∧ bitTest map k = false := by
  induction rs generalizing map with
  | nil => simp
  | cons r rs ih =>
    rw [List.foldl_cons, ih, pmmMarkUsed_free, List.forall_mem_cons]
    tauto

theorem markAllFree_free {rs : List MemRegion} {map : Bitmap} {k : Nat} :
    bitTest (rs.foldl (fun map r => pmmMarkFree map r.base r.length) map) k = false ↔
      (∃ r ∈ rs, Marked r.base r.length k) ∨ bitTest map k = false := by
  induction rs generalizing map with
  | nil => simp
  | cons r rs ih =>
    simp only [List.foldl_cons, ih, pmmMarkFree_free, List.mem_cons, exists_eq_or_imp]
    rw [or_left_comm, or_assoc]

theorem bitTest_memset {map : Bitmap} {k n : Nat} (h : k < 8 * n) :
    bitTest (memset map 0xff n) k = true := by
  have hbyte : k / 8 < n := by omega
  have hbit : k % 8 < 8 := Nat.mod_lt _ (by decide)
  have hones : (0xff : BitVec 8) = BitVec.allOnes 8 := by decide
  rw [bitTest_eq_getLsbD, memset, if_pos hbyte, hones, BitVec.getLsbD_allOnes]
  exact decide_eq_true hbit

/-- A frame is free after `pmm_init` when a usable region reaches it and
nothing reserved does. -/
theorem pmmInit_free {m : Mmap} {tag : FramebufferTag} {fb k : Nat} {mem : Bitmap}
    (hk : k < totalPages m) :
    Free (pmmInit m tag fb mem) k ↔ (∃ r ∈ m.usableRegions, Marked r.base r.length k) ∧
      ∀ r ∈ reserved m tag fb, ¬ Marked r.1 r.2 k := by
  have hset : bitTest (memset mem 0xff (bitmapSize m)) k = true := by
    refine bitTest_memset ?_
    unfold bitmapSize
    omega
  rw [Free, pmmInit, markAllUsed_free, markAllFree_free, hset, and_comm]
  simp

end FrogKernel.PmmInit
