import Mathlib.Tactic.Common
import FrogKernel.Lib.Bytes
import FrogKernel.Lib.DList
import FrogKernel.Memory.Pmm

/-!
# The kernel heap (`memory/kheap.c`)

The heap is a doubly linked list of blocks whose 20-byte headers lie in the
heap's own memory, so the model keeps the bytes: `loadBlock` reads a header and
the `set…` functions are the assignments to its fields.

A new page comes from `pmm_alloc_frame` and `map_page`.  Together they are the
parameter `newPage`, from the state `π` of frames and page tables and from the
virtual address; it has no result when one of them panics.
-/

namespace FrogKernel.Kheap

open FrogKernel.Bytes FrogKernel.DList FrogKernel.Pmm

def KHEAP_VIRT_START : Nat := 0xd0000000
def KHEAP_INITIAL_SIZE : Nat := 4 * 1024 * 1024

/-- The bound of the heap area: `large_alloc_base` starts here. -/
def LARGE_ALLOC_BASE : Nat := 0xe0000000

/-- `sizeof(k_heap_block_t)` -/
def HEADER : Nat := 20

/-- `uint32_t` addition and subtraction. -/
def add32 (a b : Nat) : Nat := (a + b) % 2 ^ 32
def sub32 (a b : Nat) : Nat := (a + (2 ^ 32 - b % 2 ^ 32)) % 2 ^ 32

theorem add32_lt (a b : Nat) : add32 a b < 2 ^ 32 := Nat.mod_lt _ (by decide)

structure KHeapBlock where
  addr : Nat
  size : Nat
  free : Nat
  prev : Nat
  next : Nat
  deriving DecidableEq

/-- The header at address `b`. -/
def loadBlock (m : Mem) (b : Nat) : KHeapBlock :=
  { addr := read32 m b
    size := read32 m (b + 4)
    free := readN m (b + 8) 1
    prev := read32 m (b + 12)
    next := read32 m (b + 16) }

def setAddr (m : Mem) (b v : Nat) : Mem := write32 m b v
def setSize (m : Mem) (b v : Nat) : Mem := write32 m (b + 4) v
def setFree (m : Mem) (b v : Nat) : Mem := writeN m (b + 8) 1 v
def setPrev (m : Mem) (b v : Nat) : Mem := write32 m (b + 12) v
def setNext (m : Mem) (b v : Nat) : Mem := write32 m (b + 16) v

def prevOf (m : Mem) (b : Nat) : Nat := (loadBlock m b).prev
def nextOf (m : Mem) (b : Nat) : Nat := (loadBlock m b).next

/-- The static variables of `kheap.c`, the memory they point into, and what
`newPage` works on. -/
structure KHeap (π : Type*) where
  mem : Mem
  kheapStart : Nat
  kheapEnd : Nat
  kheapSize : Nat
  head : Nat
  freeHead : Nat
  pages : π

variable {π : Type*} (newPage : π → Nat → Option π)

/-- `for (virt = …; virt < kheap_end; virt += PAGE_SIZE) map_page(…)` -/
def mapPages (s : π) (virt : Nat) : Nat → Option π
  | 0 => some s
  | n + 1 => (newPage s virt).bind (fun s' => mapPages s' (virt + PAGE_SIZE) n)

def kheapInit (mem : Mem) (pages : π) : Option (KHeap π) :=
  (mapPages newPage pages KHEAP_VIRT_START (KHEAP_INITIAL_SIZE / PAGE_SIZE)).map fun pages =>
    let head := KHEAP_VIRT_START
    let mem := setAddr mem head (KHEAP_VIRT_START + HEADER)
    let mem := setSize mem head (KHEAP_INITIAL_SIZE - HEADER)
    let mem := setFree mem head 1
    let mem := setPrev mem head 0
    let mem := setNext mem head 0
    { mem, kheapStart := KHEAP_VIRT_START
      kheapEnd := KHEAP_VIRT_START + KHEAP_INITIAL_SIZE
      kheapSize := KHEAP_INITIAL_SIZE, head, freeHead := head, pages }

/-- The list has fewer nodes than there are addresses, so a walk that takes
more rounds never ends. -/
def walk (m : Mem) (cont : Nat → Bool) (c : Nat) : Option Nat :=
  walkWhile (nextOf m) cont (2 ^ 32) c

/-- `curr->free && curr->size >= size` -/
def fits (m : Mem) (size curr : Nat) : Bool :=
  (loadBlock m curr).free != 0 && size ≤ (loadBlock m curr).size

/-- The first block from `free_head` on that fits, or `NULL`. -/
def searchBlock (h : KHeap π) (size : Nat) : Option Nat :=
  walk h.mem (fun c => c != 0 && !fits h.mem size c) h.freeHead

/-- The rest of `curr` becomes a free block of its own. -/
def splitBlock (m : Mem) (curr size : Nat) : Mem :=
  let newBlock := add32 (loadBlock m curr).addr size
  let m := setAddr m newBlock (add32 (add32 (loadBlock m curr).addr size) HEADER)
  let m := setSize m newBlock (sub32 (sub32 (loadBlock m curr).size size) HEADER)
  let m := setFree m newBlock 1
  let m := setPrev m newBlock curr
  let m := setNext m newBlock (loadBlock m curr).next
  let m := if (loadBlock m curr).next ≠ 0 then setPrev m (loadBlock m curr).next newBlock else m
  setNext m curr newBlock

/-- `while (free_head != NULL && !free_head->free) free_head = free_head->next` -/
def skipUsed (m : Mem) (c : Nat) : Option Nat :=
  walk m (fun c => c != 0 && (loadBlock m c).free == 0) c

/-- The body of the search loop at the block it stops at. -/
def takeBlock (h : KHeap π) (curr size : Nat) : Option (Nat × KHeap π) :=
  let m :=
    if (loadBlock h.mem curr).size ≥ add32 (add32 size HEADER) 1 then splitBlock h.mem curr size
    else h.mem
  let m := setSize m curr size
  let m := setFree m curr 0
  if curr = h.freeHead then
    (skipUsed m (loadBlock m curr).next).map fun freeHead =>
      ((loadBlock m curr).addr, { h with mem := m, freeHead })
  else some ((loadBlock m curr).addr, { h with mem := m })

/-- `while (tail->next != NULL) tail = tail->next` -/
def lastBlock (m : Mem) (c : Nat) : Option Nat := walk m (fun c => nextOf m c != 0) c

/-- The part of `kmalloc` after the search loop: one page more. -/
def growHeap (h : KHeap π) : Option (KHeap π) :=
  (newPage h.pages h.kheapEnd).bind fun pages =>
    let newBlock := h.kheapEnd
    let m := setAddr h.mem newBlock (add32 h.kheapEnd HEADER)
    let m := setSize m newBlock (PAGE_SIZE - HEADER)
    let m := setFree m newBlock 1
    let m := setPrev m newBlock 0
    let m := setNext m newBlock 0
    (lastBlock m h.head).map fun tail =>
      { h with
        mem := setNext (setPrev m newBlock tail) tail newBlock
        kheapEnd := add32 h.kheapEnd PAGE_SIZE
        kheapSize := add32 h.kheapSize PAGE_SIZE
        freeHead := if h.freeHead = 0 then newBlock else h.freeHead
        pages }

/-- `kmalloc` with its recursion bounded by the first argument. -/
def kmalloc : Nat → KHeap π → Nat → Option (Nat × KHeap π)
  | 0, _, _ => none
  | fuel + 1, h, size =>
    (searchBlock h size).bind fun curr =>
      if curr ≠ 0 then takeBlock h curr size
      else (growHeap newPage h).bind fun h' => kmalloc fuel h' size

/-- Merge the next block into `block` when it is free. -/
def coalesceNext (m : Mem) (block : Nat) : Mem :=
  let next := (loadBlock m block).next
  if next ≠ 0 ∧ (loadBlock m next).free ≠ 0 then
    let m := setSize m block (add32 (loadBlock m block).size
      (add32 HEADER (loadBlock m next).size))
    let m := setNext m block (loadBlock m next).next
    if (loadBlock m next).next ≠ 0 then setPrev m (loadBlock m next).next block else m
  else m

/-- Merge `block` into the previous block when that is free; the block that
remains is returned too. -/
def coalescePrev (m : Mem) (block : Nat) : Nat × Mem :=
  let prev := (loadBlock m block).prev
  if prev ≠ 0 ∧ (loadBlock m prev).free ≠ 0 then
    let m := setSize m prev (add32 (loadBlock m prev).size
      (add32 HEADER (loadBlock m block).size))
    let m := setNext m prev (loadBlock m block).next
    let m := if (loadBlock m block).next ≠ 0 then setPrev m (loadBlock m block).next prev else m
    (prev, m)
  else (block, m)

/-- `kfree` from the test of `block->free` on. -/
def releaseBlock (h : KHeap π) (block : Nat) : KHeap π :=
  if (loadBlock h.mem block).free ≠ 0 then h
  else
    let m := setFree h.mem block 1
    let m := coalesceNext m block
    let (block, m) := coalescePrev m block
    { h with
      mem := m
      freeHead := if h.freeHead = 0 ∨ block < h.freeHead then block else h.freeHead }

def kfree (h : KHeap π) (addr : Nat) : KHeap π :=
  if addr = 0 then h else releaseBlock h (sub32 addr HEADER)

/-! ## Headers in memory -/

/-- The headers at `x` and at `b` share no byte. -/
def Apart (x b : Nat) : Prop := x + HEADER ≤ b ∨ b + HEADER ≤ x

/-- A store into the header at `b` leaves a header apart from it as it is. -/
theorem loadBlock_writeN (m : Mem) {x b k : Nat} (off v : Nat) (h : Apart x b)
    (hk : off + k ≤ HEADER) : loadBlock (writeN m (b + off) k v) x = loadBlock m x := by
  simp only [Apart, HEADER] at h hk
  simp only [loadBlock, read32, KHeapBlock.mk.injEq]
  refine ⟨?_, ?_, ?_, ?_, ?_⟩ <;> exact readN_writeN_apart m v (by omega)

section Fields

variable {m : Mem} {x b v : Nat}

theorem loadBlock_setAddr (h : x = b ∨ Apart x b) (hv : v < 2 ^ 32) :
    loadBlock (setAddr m b v) x =
      if x = b then { loadBlock m b with addr := v } else loadBlock m x := by
  split
  case isTrue hx =>
    subst hx
    simp (disch := omega) only [loadBlock, setAddr, readN_writeN_apart,
      readN_writeN_self m (k := 4) hv]
  case isFalse hx => exact loadBlock_writeN m 0 v (h.resolve_left hx) (by decide)

theorem loadBlock_setSize (h : x = b ∨ Apart x b) (hv : v < 2 ^ 32) :
    loadBlock (setSize m b v) x =
      if x = b then { loadBlock m b with size := v } else loadBlock m x := by
  split
  case isTrue hx =>
    subst hx
    simp (disch := omega) only [loadBlock, setSize, readN_writeN_apart,
      readN_writeN_self m (k := 4) hv]
  case isFalse hx => exact loadBlock_writeN m 4 v (h.resolve_left hx) (by decide)

theorem loadBlock_setFree (h : x = b ∨ Apart x b) (hv : v < 2 ^ 8) :
    loadBlock (setFree m b v) x =
      if x = b then { loadBlock m b with free := v } else loadBlock m x := by
  split
  case isTrue hx =>
    subst hx
    simp (disch := omega) only [loadBlock, setFree, readN_writeN_apart,
      readN_writeN_self m (k := 1) hv]
  case isFalse hx => exact loadBlock_writeN m 8 v (h.resolve_left hx) (by decide)

theorem loadBlock_setPrev (h : x = b ∨ Apart x b) (hv : v < 2 ^ 32) :
    loadBlock (setPrev m b v) x =
      if x = b then { loadBlock m b with prev := v } else loadBlock m x := by
  split
  case isTrue hx =>
    subst hx
    simp (disch := omega) only [loadBlock, setPrev, readN_writeN_apart,
      readN_writeN_self m (k := 4) hv]
  case isFalse hx => exact loadBlock_writeN m 12 v (h.resolve_left hx) (by decide)

theorem loadBlock_setNext (h : x = b ∨ Apart x b) (hv : v < 2 ^ 32) :
    loadBlock (setNext m b v) x =
      if x = b then { loadBlock m b with next := v } else loadBlock m x := by
  split
  case isTrue hx =>
    subst hx
    simp (disch := omega) only [loadBlock, setNext, readN_writeN_apart,
      readN_writeN_self m (k := 4) hv]
  case isFalse hx => exact loadBlock_writeN m 16 v (h.resolve_left hx) (by decide)

end Fields

end FrogKernel.Kheap
