import FrogKernel.Userspace.ProcessList
import FrogKernel.Userspace.SpawnArgs
import FrogKernel.Vfs.Opening

/-!
# A `sys_spawn` that fails (`userspace/usyscall.c`)

`sys_spawn` up to `kfree(buf)`: it checks and copies its arguments, opens the file, asks for
its size and reads it into a buffer.  What it leaves behind when it returns -1 is what
`vfs_open` leaves, and the descriptor: `vfs_close` clears an entry of `kernel_fd_table`.

Main result: `spawn_atomic_iff`.
-/

namespace FrogKernel.SpawnFailure

open FrogKernel.Bytes FrogKernel.CStrings FrogKernel.ForeignMap FrogKernel.KernelAreas
  FrogKernel.Kheap FrogKernel.Loader FrogKernel.Opening FrogKernel.Paging FrogKernel.Pmm
open FrogKernel.Process (System ProcList ThreadRing)
open FrogKernel.Syscall (valPtr toInt32)
open FrogKernel.Vfs (Ptr Drivers VfsState FsMount Nodes MAX_FDS findMount skipSlashes
  copyComponent enter vfsStat vfsRead vfsQuery vfsTransfer fileAt tableOf)

structure Kernel where
  sys : System
  vfs : VfsState (World Machine)

/-- The tables, with the process that runs. -/
def caller (k : Kernel) : VfsState (World Machine) := { k.vfs with currProcess := k.sys.currProcess }

/-- The memory of the process and the three arguments, what the arrays `component` and
`kernel_strs` hold before, and the address of `st`. -/
structure SpawnCall where
  u : Bytes32
  path : Nat
  userArgv : Nat
  argc : Nat
  component : Mem
  kernelStrs : Mem
  st : Ptr

/-- The string `path`, in the memory of the process. -/
def SpawnCall.pm (c : SpawnCall) : Mem := bytesAt c.u 0

/-- The checks of `sys_spawn`, and its loop over `user_argv`. -/
def spawnArgs (c : SpawnCall) : Except Early KernelArgs := do
  let _ ← checkString c.u c.path
  if toInt32 c.argc < 0 ∨ toInt32 c.argc > MAX_ARGS then .error .refused
  else if !valPtr c.userArgv (4 * c.argc) then .error .refused
  else copyArgs c.u c.userArgv c.argc c.kernelStrs

/-- Offset of `st_size` in `struct stat`. -/
def ST_SIZE : Nat := 28

/-- `sys_spawn` from `vfs_stat` on: the buffer and its size, if there is an image. -/
def readImage (d : Drivers (World Machine)) (s : VfsState (World Machine)) (fd : Int) (st : Ptr) :
    Option (Option (Ptr × Nat) × VfsState (World Machine)) :=
  let stat := vfsStat d s fd st
  if stat.1 < 0 then some (none, (vfsClose d stat.2 fd).2)
  else
    let size := readN stat.2.world.heap.mem (st + ST_SIZE) 4
    (kmallocCall newKernelPage stat.2.world.heap size).map fun (buf, heap) =>
      let s := { stat.2 with world := { stat.2.world with heap } }
      if buf = 0 then (none, (vfsClose d s fd).2)
      else
        let read := vfsRead d s fd buf size
        if read.1 < 0 then (none, (vfsClose d (kfreeCall read.2 buf) fd).2)
        else (some (buf, size), (vfsClose d read.2 fd).2)

/-- `sys_spawn` up to `kfree(buf)`: no image where it returns -1. -/
def spawnImage (d : Drivers (World Machine)) (fs : Nodes VnodeT)
    (mountTable : List (FsMount (Ptr × VnodeT))) (k : Kernel) (c : SpawnCall) :
    Option (Option (KernelArgs × Ptr × Nat) × Kernel) :=
  match spawnArgs c with
  | .error (.halted _) => none
  | .error .refused => some (none, k)
  | .ok args =>
    (vfsOpen newKernelPage d fs mountTable (caller k) c.component c.pm c.path 0).bind fun (fd, s) =>
      if fd < 0 then some (none, { k with vfs := s })
      else
        (readImage d s fd c.st).map fun (image, s) =>
          (image.map fun (buf, size) => (args, buf, size), { k with vfs := s })

/-- What a failed call must leave as it was. -/
structure Unchanged (k k' : Kernel) : Prop where
  descriptors : k'.vfs.fds k.sys.currProcess = k.vfs.fds k.sys.currProcess
  live : liveBlocks k'.vfs.world.heap = liveBlocks k.vfs.world.heap
  bitmap : k'.vfs.world.heap.pages.pmm.pmmBitmap = k.vfs.world.heap.pages.pmm.pmmBitmap
  processList : ∀ ps, ProcList k'.sys ps ↔ ProcList k.sys ps
  ring : ∀ ts, ThreadRing k'.sys ts ↔ ThreadRing k.sys ts

/-! ## The root of a mount -/

/-- The path has no component behind its mount. -/
def NamesRoot (mountTable : List (FsMount (Ptr × VnodeT))) (pm : Mem) (path : Nat) : Prop :=
  ∃ mnt mlen rel, findMount mountTable pm path = some (some mnt) ∧ mnt.root.isSome ∧
    strlen mnt.path 0 ROUNDS = some mlen ∧ skipSlashes pm ROUNDS (path + mlen) = some rel ∧
    pm rel = 0

section Root

variable {π : Type} {newPage : π → Nat → Option π} {fs : Nodes VnodeT} {pm : Mem}
  {mountTable : List (FsMount (Ptr × VnodeT))}

theorem skipSlashes_end {rel : Nat} (h : pm rel = 0) : skipSlashes pm ROUNDS rel = some rel := by
  rw [show ROUNDS = (ROUNDS - 1) + 1 from rfl, skipSlashes, if_neg]
  rw [h]
  decide

theorem enterNode_none {w : World π} {node : VnodeT} {component : Mem}
    (h : enter fs node component = some none) :
    enterNode newPage fs w node component = some (none, w) := by
  rw [enterNode, h, Option.bind_some]

/-- A resolution that makes no vnode finds a node when there is nothing to look up. -/
theorem resolveLoop_root {n : Nat} {w w' : World π} {component : Mem} {rel : Nat}
    {node : Ptr × VnodeT} {r : Option (Ptr × VnodeT)}
    (hcall : resolveLoop newPage fs pm n w component rel node = some (r, w'))
    (hfirst : firstEntered fs pm component rel node.2 = some none) :
    r.isSome ↔ ∃ rel', skipSlashes pm ROUNDS rel = some rel' ∧ pm rel' = 0 := by
  obtain ⟨n, rfl⟩ : ∃ k, n = k + 1 := by
    cases n with
    | zero => cases hcall
    | succ k => exact ⟨k, rfl⟩
  rw [resolveLoop] at hcall
  rw [firstEntered] at hfirst
  by_cases hnul : pm rel = 0
  · rw [if_pos hnul] at hcall
    cases hcall
    exact iff_of_true rfl ⟨rel, skipSlashes_end hnul, hnul⟩
  rw [if_neg hnul] at hcall hfirst
  obtain ⟨rel1, hskip, hcall1⟩ := Option.bind_eq_some_iff.mp hcall
  clear hcall
  rw [hskip, Option.bind_some] at hfirst
  by_cases hend : pm rel1 = 0
  · rw [if_pos hend] at hcall1
    cases hcall1
    exact iff_of_true rfl ⟨rel1, hskip, hend⟩
  rw [if_neg hend] at hcall1 hfirst
  obtain ⟨⟨component1, i, rel2⟩, hcopy, hcall2⟩ := Option.bind_eq_some_iff.mp hcall1
  clear hcall1
  rw [hcopy, Option.bind_some] at hfirst
  dsimp only at hcall2 hfirst
  rw [enterNode_none hfirst, Option.bind_some] at hcall2
  cases hcall2
  refine iff_of_false (by simp) ?_
  rintro ⟨rel', hskip', hend'⟩
  rw [hskip] at hskip'
  cases hskip'
  exact hend hend'

theorem vfsResolve_root {w w' : World π} {stack : Mem} {path : Nat} {r : Option (Ptr × VnodeT)}
    (hcall : vfsResolve newPage fs mountTable w stack pm path = some (r, w'))
    (hfirst : firstFound fs mountTable stack pm path = some none) :
    r.isSome ↔ NamesRoot mountTable pm path := by
  obtain ⟨best, hbest, hrest⟩ := Option.bind_eq_some_iff.mp hcall
  rw [firstFound, hbest, Option.bind_some] at hfirst
  simp only [NamesRoot, hbest]
  cases best with
  | none =>
    cases hrest
    simp
  | some mnt =>
    dsimp only [Option.bind_some, Option.map_some, Option.getD_some] at hrest hfirst
    cases hroot : mnt.root with
    | none =>
      rw [hroot] at hrest
      cases hrest
      refine iff_of_false (by simp) ?_
      rintro ⟨mnt', mlen, rel, hmnt, hsome, -⟩
      cases hmnt
      rw [hroot] at hsome
      cases hsome
    | some root =>
      rw [hroot] at hrest hfirst
      dsimp only at hrest hfirst
      obtain ⟨mlen, hmlen, hmap⟩ := Option.bind_eq_some_iff.mp hrest
      rw [hmlen, Option.bind_some] at hfirst
      obtain ⟨⟨found, w1⟩, hloop, hr⟩ := Option.map_eq_some_iff.mp hmap
      obtain ⟨rfl, rfl⟩ := Prod.mk.inj hr
      rw [Option.isSome_map, resolveLoop_root hloop hfirst]
      constructor
      · rintro ⟨rel, hskip, hend⟩
        exact ⟨mnt, mlen, rel, rfl, by rw [hroot]; rfl, hmlen, hskip, hend⟩
      · rintro ⟨mnt', mlen', rel, hmnt, -, hmlen', hskip, hend⟩
        cases hmnt
        rw [hmlen] at hmlen'
        cases hmlen'
        exact ⟨rel, hskip, hend⟩

end Root

/-! ## The frames of the heap -/

theorem mapPage_fewer {s s' : Machine} {phys virt flags : Nat}
    (h : mapPage s phys virt flags = some s') (i : Nat) (hi : Free s'.pmm i) : Free s.pmm i := by
  obtain ⟨pde, -, h⟩ := Option.bind_eq_some_iff.mp h
  obtain ⟨s1, htable, hstore⟩ := Option.bind_eq_some_iff.mp h
  clear h
  obtain ⟨a, -, rfl⟩ := Option.map_eq_some_iff.mp hstore
  dsimp only at hi
  split at htable
  · obtain ⟨⟨ptPhys, pmm⟩, halloc, hrest⟩ := Option.bind_eq_some_iff.mp htable
    obtain ⟨s2, hentry, hset⟩ := Option.bind_eq_some_iff.mp hrest
    obtain ⟨b, -, rfl⟩ := Option.map_eq_some_iff.mp hentry
    obtain ⟨b', -, rfl⟩ := Option.map_eq_some_iff.mp hset
    exact (pmmAllocFrame_handed halloc).fewer i hi
  · cases htable
    exact hi

/-- A page takes a frame. -/
theorem newKernelPage_takes {s s' : Machine} {virt : Nat} (h : newKernelPage s virt = some s') :
    (∃ i, Free s.pmm i ∧ ¬ Free s'.pmm i) ∧ ∀ i, Free s'.pmm i → Free s.pmm i := by
  obtain ⟨⟨phys, pmm⟩, halloc, hmap⟩ := Option.bind_eq_some_iff.mp h
  have hh := pmmAllocFrame_handed halloc
  have hfewer := mapPage_fewer hmap
  exact ⟨⟨addrToPage phys, hh.free, fun hi => hh.used (hfewer _ hi)⟩,
    fun i hi => hh.fewer i (hfewer i hi)⟩

theorem heapPage_some {s s' : Machine} {virt : Nat}
    (h : heapPage newKernelPage s virt = some s') : newKernelPage s virt = some s' := by
  rw [heapPage] at h
  split at h
  · exact h
  · cases h

/-- An allocation keeps the bitmap exactly when a free block serves it. -/
theorem kmalloc_bitmap {h h' : KHeap Machine} {live : List Alloc} {size : Nat} {p : Ptr}
    (hh : HeapHolds h live) (hcall : kmallocCall newKernelPage h size = some (p, h')) :
    h'.pages.pmm.pmmBitmap = h.pages.pmm.pmmBitmap ↔ ∃ b, Fits h size b := by
  rcases hh.kmalloc_first hcall with ⟨hfits, hpages⟩ | ⟨hnone, s, m, h1, hpage, hs, hrest⟩
  · exact iff_of_true (by rw [hpages]) hfits
  · refine iff_of_false (fun hmap => ?_) hnone
    obtain ⟨⟨i, hfree, hused⟩, -⟩ := newKernelPage_takes (heapPage_some hpage)
    have hkept : ¬ Free h'.pages.pmm i :=
      kmalloc_pages (P := fun t => ¬ Free t.pmm i)
        (fun t virt t' ht hi hfree => hi ((newKernelPage_takes (heapPage_some ht)).2 i hfree))
        (hs ▸ hused) hrest
    rw [Free, hmap] at hkept
    exact hkept hfree

/-! ## The descriptor -/

section Descriptor

variable {d : Drivers (World Machine)} {s s' : VfsState (World Machine)} {fd : Int}

theorem vfsStat_fds (st : Ptr) : (vfsStat d s fd st).2.fds = s.fds := by
  rw [vfsStat, vfsQuery]
  dsimp only
  split
  · rfl
  · split <;> rfl

theorem vfsRead_fds (buf len : Nat) : (vfsRead d s fd buf len).2.fds = s.fds := by
  rw [vfsRead, vfsTransfer]
  dsimp only
  split
  · rfl
  split
  · rfl
  · split <;> rfl

/-- `vfs_close` leaves the entry of a process. -/
theorem vfsClose_fds : (vfsClose d s fd).2.fds = s.fds := by
  have hfds : (Vfs.vfsClose d s fd).2.fds = s.fds := by
    rw [Vfs.vfsClose]
    dsimp only [Vfs.dropRef]
    split
    · rfl
    · split <;> rfl
  rw [vfsClose]
  split
  · exact hfds
  · exact hfds

/-- Whatever happens to the image, the tables of the processes stay. -/
theorem readImage_fds {st : Ptr} {image : Option (Ptr × Nat)}
    (h : readImage d s fd st = some (image, s')) : s'.fds = s.fds := by
  rw [readImage] at h
  dsimp only at h
  split at h
  · cases h
    rw [vfsClose_fds, vfsStat_fds]
  obtain ⟨⟨buf, heap⟩, -, hrest⟩ := Option.map_eq_some_iff.mp h
  clear h
  dsimp only at hrest
  split at hrest
  · cases hrest
    rw [vfsClose_fds]
    exact vfsStat_fds st
  split at hrest
  · cases hrest
    rw [vfsClose_fds]
    exact (vfsRead_fds ..).trans (vfsStat_fds st)
  · cases hrest
    rw [vfsClose_fds, vfsRead_fds]
    exact vfsStat_fds st

end Descriptor

theorem fileAt_process {s : VfsState (World Machine)} {p : Ptr} (hp : p ≠ 0) {i : Nat}
    (hi : i < MAX_FDS) : fileAt s p i = s.fds p i := by
  rw [fileAt, if_neg (by omega), tableOf, if_pos hp, Int.toNat_natCast]

/-! ## The call -/

section Spawn

variable {d : Drivers (World Machine)} {disk : Disk} {mountTable : List (FsMount (Ptr × VnodeT))}
  {k k' : Kernel} {c : SpawnCall} {live : List Alloc}

/-- How a call that returns -1 went. -/
theorem spawnImage_cases {fs : Nodes VnodeT}
    (hspawn : spawnImage d fs mountTable k c = some (none, k')) :
    (spawnArgs c = .error .refused ∧ k' = k) ∨
    ∃ args fd s, spawnArgs c = .ok args ∧
      vfsOpen newKernelPage d fs mountTable (caller k) c.component c.pm c.path 0 = some (fd, s) ∧
      k'.sys = k.sys ∧ ((fd < 0 ∧ k'.vfs = s) ∨ 0 ≤ fd ∧ k'.vfs.fds = s.fds) := by
  rw [spawnImage] at hspawn
  cases hargs : spawnArgs c with
  | error e =>
    rw [hargs] at hspawn
    cases e with
    | refused =>
      cases hspawn
      exact Or.inl ⟨rfl, rfl⟩
    | halted halt => cases hspawn
  | ok args =>
    rw [hargs] at hspawn
    obtain ⟨⟨fd, s⟩, hopen, hrest⟩ := Option.bind_eq_some_iff.mp hspawn
    clear hspawn
    refine Or.inr ⟨args, fd, s, rfl, hopen, ?_⟩
    dsimp only at hrest
    split at hrest
    case isTrue hneg =>
      cases hrest
      exact ⟨rfl, Or.inl ⟨hneg, rfl⟩⟩
    case isFalse hpos =>
      obtain ⟨⟨image, s1⟩, hread, hk⟩ := Option.map_eq_some_iff.mp hrest
      obtain ⟨-, rfl⟩ := Prod.mk.inj hk
      exact ⟨rfl, Or.inr ⟨Int.not_lt.mp hpos, readImage_fds hread⟩⟩

theorem spawnImage_refused {fs : Nodes VnodeT} {args : KernelArgs} {fd : Int}
    {s s' : VfsState (World Machine)} (hargs : spawnArgs c = .ok args)
    (hopen : vfsOpen newKernelPage d fs mountTable (caller k) c.component c.pm c.path 0 =
      some (fd, s)) (hpos : 0 ≤ fd) (hread : readImage d s fd c.st = some (none, s')) :
    spawnImage d fs mountTable k c = some (none, { k with vfs := s' }) := by
  rw [spawnImage, hargs]
  dsimp only
  rw [hopen, Option.bind_some, if_neg (Int.not_lt.mpr hpos), hread]
  rfl

/-- The arguments are refused, or `vfs_open` makes nothing and gets no descriptor: it finds
nothing to open, or the root of a mount when the table is full and a block is free for the
`file_t`. -/
def NothingToUndo (fs : Nodes VnodeT) (mountTable : List (FsMount (Ptr × VnodeT))) (k : Kernel)
    (c : SpawnCall) : Prop :=
  spawnArgs c = .error .refused ∨
  firstFound fs mountTable c.component c.pm c.path = some none ∧
    (NamesRoot mountTable c.pm c.path →
      TableFull (caller k) ∧ ∃ b, Fits k.vfs.world.heap SIZEOF_FILE b)

/-- A failing `vfs_open` is undone exactly when it made no vnode and took no frame. -/
theorem openFailed_unchanged {fs : Nodes VnodeT} (hd : NoHooks d)
    (hh : HeapHolds k.vfs.world.heap live) {fd : Int} (hneg : fd < 0) (hsys : k'.sys = k.sys)
    (hopen : vfsOpen newKernelPage d fs mountTable (caller k) c.component c.pm c.path 0 =
      some (fd, k'.vfs)) :
    Unchanged k k' ↔ firstFound fs mountTable c.component c.pm c.path = some none ∧
      (NamesRoot mountTable c.pm c.path →
        TableFull (caller k) ∧ ∃ b, Fits k.vfs.world.heap SIZEOF_FILE b) := by
  obtain ⟨sys, s⟩ := k'
  dsimp only at hsys hopen
  subst hsys
  obtain ⟨r, w, news, hresolve, hfirst, hholds, hend⟩ :=
    vfsOpen_cases (s := caller k) hd hh hopen
  -- what is live then
  have hafter : HeapHolds s.world.heap (news ++ live) := by
    cases hend with
    | nothing => exact hholds
    | full hcall _ hheap _ => exact hheap ▸ kmallocCall_kfree hholds hcall
    | opened => exact absurd hneg (by omega)
  rcases hfirst with ⟨hnone, rfl, rfl⟩ | ⟨⟨v, hsome⟩, hne⟩
  case inr =>
    refine iff_of_false (fun h => hne ((liveBlocks_append hh hafter).mp h.live)) ?_
    rintro ⟨hnone, -⟩
    rw [hsome] at hnone
    cases hnone
  have hlive := (liveBlocks_append hh hafter).mpr rfl
  have hroot := vfsResolve_root hresolve hnone
  cases hend with
  | nothing =>
    refine iff_of_true ⟨rfl, hlive, rfl, fun _ => Iff.rfl, fun _ => Iff.rfl⟩ ⟨hnone, ?_⟩
    intro hnames
    cases hroot.mpr hnames
  | @full node file heap _ hcall hfull hheap hfds =>
    have hpages : s.world.heap.pages = heap.pages := by
      rw [hheap]
      exact (kfree_bounds heap file).pages
    have hmap := kmalloc_bitmap hh hcall
    rw [← hpages] at hmap
    constructor
    · intro h
      exact ⟨hnone, fun _ => ⟨hfull, hmap.mp h.bitmap⟩⟩
    · rintro ⟨-, hfits⟩
      exact ⟨congrFun hfds _, hlive, hmap.mpr (hfits (hroot.mp rfl)).2, fun _ => Iff.rfl,
        fun _ => Iff.rfl⟩
  | opened => exact absurd hneg (by omega)

/-- A descriptor that `vfs_open` gave stays. -/
theorem opened_changed {fs : Nodes VnodeT} (hd : NoHooks d) (hproc : k.sys.currProcess ≠ 0)
    (hh : HeapHolds k.vfs.world.heap live) {s : VfsState (World Machine)} {fd : Int} (hpos : 0 ≤ fd)
    (hfds : k'.vfs.fds = s.fds)
    (hopen : vfsOpen newKernelPage d fs mountTable (caller k) c.component c.pm c.path 0 =
      some (fd, s)) :
    ¬ Unchanged k k' ∧ ¬ TableFull (caller k) ∧
      (firstFound fs mountTable c.component c.pm c.path = some none →
        NamesRoot mountTable c.pm c.path) := by
  obtain ⟨r, w, news, hresolve, -, hholds, hend⟩ := vfsOpen_cases (s := caller k) hd hh hopen
  cases hend with
  | nothing => exact absurd hpos (by decide)
  | full => exact absurd hpos (by decide)
  | @opened node file heap _ i hcall hi hfree hheap hcurr hat hcount =>
    have hne : file ≠ 0 := (kmallocCall_holds hholds hcall).2
    refine ⟨fun h => hne ?_, fun hfull => hfull i hi hfree, fun hnone => ?_⟩
    · rw [← hat]
      change fileAt s k.sys.currProcess i = 0
      rw [fileAt_process hproc hi, ← hfds, h.descriptors, ← fileAt_process hproc hi]
      exact hfree
    · exact (vfsResolve_root hresolve hnone).mp rfl

/-- **Failure of `sys_spawn`.**  A call of a process that returns -1 leaves its descriptor
table, the live blocks, the bitmap of the frames, the processes and the ring as they were
exactly when there was nothing to undo. -/
theorem spawn_atomic_iff (hd : NoHooks d) (hproc : k.sys.currProcess ≠ 0)
    (hh : HeapHolds k.vfs.world.heap live)
    (hspawn : spawnImage d disk.nodes mountTable k c = some (none, k')) :
    Unchanged k k' ↔ NothingToUndo disk.nodes mountTable k c := by
  rcases spawnImage_cases hspawn with
    ⟨hargs, rfl⟩ | ⟨args, fd, s, hargs, hopen, hsys, ⟨hneg, rfl⟩ | ⟨hpos, hfds⟩⟩
  · exact iff_of_true ⟨rfl, rfl, rfl, fun _ => Iff.rfl, fun _ => Iff.rfl⟩ (Or.inl hargs)
  · rw [NothingToUndo, hargs, openFailed_unchanged hd hh hneg hsys hopen]
    simp
  · obtain ⟨hchanged, hfree, hnames⟩ := opened_changed hd hproc hh hpos hfds hopen
    refine iff_of_false hchanged ?_
    rintro (hrefused | ⟨hnone, hundo⟩)
    · rw [hargs] at hrefused
      cases hrefused
    · exact hfree (hundo (hnames hnone)).1

end Spawn

/-! ## Two calls -/

def noOps : Drivers (World Machine) := ⟨fun w _ => (none, w), fun _ _ => 0, fun _ _ => none⟩

theorem noOps_noHooks : NoHooks noOps := fun w node ops hops => by cases hops

/-- A process without open files. -/
def shell (h : KHeap Machine) : Kernel where
  sys := { Process.initialData with currProcess := 0x50 }
  vfs := ⟨fun _ => 0, fun _ _ => 0, 0, fun _ => ⟨0, 0, 0, 0⟩, fun _ => false,
    ⟨h, fun _ => none⟩⟩

/-- `sys_spawn` of a path, without arguments. -/
def spawnOf (path : List Char8) : SpawnCall where
  u := argMemory path
  path := 0x1004
  userArgv := 0x1000
  argc := 0
  component := fun _ => 0
  kernelStrs := fun _ => 0
  st := 0xe0001000

theorem freshHeap_holds {h : KHeap Machine}
    (hinit : kheapInit newKernelPage (fun _ => 0) bootMachine = some h) :
    HeapHolds h [] ∧ ∃ b, Fits h SIZEOF_FILE b := by
  refine ⟨kheapInit_holds newKernelPage hinit, (fits_iff (kheapInit_inv hinit)).mpr ?_⟩
  decide

/-- `/x` is in no mount. -/
theorem noMount_unchanged : ∃ h k', kheapInit newKernelPage (fun _ => 0) bootMachine = some h ∧
    spawnImage noOps ttyDisk.nodes devMounts (shell h) (spawnOf [SLASH, 0x78]) = some (none, k') ∧
    Unchanged (shell h) k' := by
  obtain ⟨h, hinit, -, -⟩ := bootMachine_init
  have hspawn : spawnImage noOps ttyDisk.nodes devMounts (shell h) (spawnOf [SLASH, 0x78]) =
      some (none, { shell h with vfs := caller (shell h) }) := rfl
  have hnames : ¬ NamesRoot devMounts (spawnOf [SLASH, 0x78]).pm (spawnOf [SLASH, 0x78]).path := by
    rintro ⟨mnt, mlen, rel, hmnt, -⟩
    cases hmnt
  exact ⟨h, _, hinit, hspawn, (spawn_atomic_iff noOps_noHooks (show (0x50 : Nat) ≠ 0 by decide)
    (freshHeap_holds hinit).1 hspawn).mpr (Or.inr ⟨rfl, fun h => absurd h hnames⟩)⟩

/-- `/dev` is opened, and is no file. -/
theorem devSpawn_changed : ∃ h k', kheapInit newKernelPage (fun _ => 0) bootMachine = some h ∧
    spawnImage noOps ttyDisk.nodes devMounts (shell h) (spawnOf [SLASH, 0x64, 0x65, 0x76]) =
      some (none, k') ∧ ¬ Unchanged (shell h) k' := by
  obtain ⟨h, hinit, -, -⟩ := bootMachine_init
  obtain ⟨hh, hfits⟩ := freshHeap_holds hinit
  have hend : h.kheapEnd ≤ 2 ^ 32 := by
    rw [kheapInit_end hinit]
    decide
  obtain ⟨file, heap, hcall, -⟩ := kmalloc_fits (heapPage newKernelPage) (kheapInit_inv hinit) hend
    hfits (2 ^ 32 - 1)
  have hresolve : vfsResolve newKernelPage ttyDisk.nodes devMounts (caller (shell h)).world
      (fun _ => 0) (spawnOf [SLASH, 0x64, 0x65, 0x76]).pm 0x1004 =
      some (some (0xd0000014, .devfsRoot), (shell h).vfs.world) := rfl
  obtain ⟨fd, s, hopen⟩ : ∃ fd s, vfsOpen newKernelPage noOps ttyDisk.nodes devMounts
      (caller (shell h)) (spawnOf [SLASH, 0x64, 0x65, 0x76]).component
      (spawnOf [SLASH, 0x64, 0x65, 0x76]).pm (spawnOf [SLASH, 0x64, 0x65, 0x76]).path 0 =
      some (fd, s) := vfsOpen_returns noOps_noHooks hresolve hcall
  have hpos : 0 ≤ fd := by
    obtain ⟨r, w, news, hr, -, -, hopened⟩ :=
      vfsOpen_cases (s := caller (shell h)) noOps_noHooks hh hopen
    cases hopened with
    | nothing => cases hresolve.symm.trans hr
    | full _ hfull => exact absurd rfl (hfull 0 (by decide))
    | opened => exact Int.natCast_nonneg _
  -- there is no `stat` to ask
  have hstat : (vfsStat noOps s fd 0xe0001000).1 = -1 := by
    rw [vfsStat, vfsQuery]
    dsimp only
    split <;> rfl
  have hread : readImage noOps s fd 0xe0001000 =
      some (none, (vfsClose noOps (vfsStat noOps s fd 0xe0001000).2 fd).2) := by
    rw [readImage]
    dsimp only
    rw [hstat, if_pos (by decide)]
  have hargs : spawnArgs (spawnOf [SLASH, 0x64, 0x65, 0x76]) = .ok ⟨fun _ => 0, [], []⟩ := rfl
  exact ⟨h, _, hinit, spawnImage_refused hargs hopen hpos hread,
    (opened_changed noOps_noHooks (show (0x50 : Nat) ≠ 0 by decide) hh hpos
      (readImage_fds hread) hopen).1⟩

end FrogKernel.SpawnFailure
