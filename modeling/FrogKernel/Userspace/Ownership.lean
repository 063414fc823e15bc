import FrogKernel.Lib.AllocLog
import FrogKernel.Userspace.Scripts
import FrogKernel.Vfs.FdTables

/-!
# Who owns what is passed to `kfree`

The system calls that allocate and free (`sys_open`, `sys_close`, `sys_spawn`,
`sys_exit`, `sys_wait`) as steps over the process system and the descriptor
tables, with a log of `kmalloc`, `kalloc_pages` and `kfree`.

`kfree_owned`: only what `kmalloc` returned is freed, and once, in every run in
which no `sys_wait` gets to its `kfree`s and no `sys_close` is given a
descriptor that leads to a freed `file_t` with one reference.  `sys_wait` frees
a stack that came from `kalloc_pages` (`reaping_frees_pages`).
-/

namespace FrogKernel.Ownership

open FrogKernel.AllocLog FrogKernel.Runs FrogKernel.Process
open FrogKernel.Vfs (Drivers VfsState vfsOpen vfsClose vfsStat vfsRead openFile allocFd
  allocFd_spec callOpen getFile FileT)

variable {W : Type}

/-! ## The calls and their allocations -/

/-- `kmalloc`, with the pointer it returns. -/
def kmallocOps (p : Ptr) : List (Op Ptr) := if p = 0 then [] else [.alloc p]

def kfreeOps (p : Ptr) : List (Op Ptr) := if p = 0 then [] else [.free p]

/-- A vnode that a `finddir` on the way to a file makes. -/
inductive Created where
  | devfs (node : Ptr)
  | initrd (node priv : Ptr)

/-- `devfs_root_finddir` and `initrd_vnode_create`. -/
def Created.ops : Created → List (Op Ptr)
  | .devfs node => kmallocOps node
  | .initrd node priv =>
    if node = 0 then []
    else if priv = 0 then [.alloc node, .free node]
    else [.alloc node, .alloc priv]

/-- `vfs_open` from `kmalloc(sizeof(file_t))` on. -/
def openFileOps (s : VfsState W) (node : Ptr) (flags : Int) (file : Ptr) : List (Op Ptr) :=
  if file = 0 then []
  else
    let s := { s with
      live := Function.update s.live file true
      files := Function.update s.files file ⟨node, 0, flags, 1⟩ }
    if (allocFd s file).1 < 0 then [.alloc file, .free file] else [.alloc file]

def openOps (d : Drivers W) (s : VfsState W) (path : List (BitVec 8)) (flags : Int) (file : Ptr)
    (created : List Created) : List (Op Ptr) :=
  let r := d.vfsResolve s.world path
  created.flatMap Created.ops ++
    match r.1 with
    | none => []
    | some node =>
      let opened := callOpen d r.2 node flags
      if opened.1 < 0 then [] else openFileOps { s with world := opened.2 } node flags file

def closeOps (s : VfsState W) (fd : Int) : List (Op Ptr) :=
  let file := getFile s fd
  if file = 0 then []
  else if (s.files file).refCount - 1 = 0 then [.free file]
  else []

/-- What `sys_spawn` finds on its way to the loader: the vnodes and the `file_t`
of `vfs_open`, the address of `st`, the size in it, and the buffer. -/
structure SpawnCall where
  path : List (BitVec 8)
  created : List Created
  file : Ptr
  st : Nat
  size : Nat
  buf : Ptr

/-- `sys_spawn` up to `kfree(buf)`: is there an image, the tables after it, and
the allocations. -/
def spawnImage (d : Drivers W) (s : VfsState W) (c : SpawnCall) :
    Bool × VfsState W × List (Op Ptr) :=
  let ops := openOps d s c.path 0 c.file c.created
  let opened := vfsOpen d s c.path 0 c.file
  let fd := opened.1
  if fd < 0 then (false, opened.2, ops)
  else
    let stat := vfsStat d opened.2 fd c.st
    if stat.1 < 0 then (false, (vfsClose d stat.2 fd).2, ops ++ closeOps stat.2 fd)
    else if c.buf = 0 then (false, (vfsClose d stat.2 fd).2, ops ++ closeOps stat.2 fd)
    else
      let read := vfsRead d stat.2 fd c.buf c.size
      if read.1 < 0 then
        (false, (vfsClose d read.2 fd).2,
          ops ++ ([.alloc c.buf] ++ ([.free c.buf] ++ closeOps read.2 fd)))
      else
        (true, (vfsClose d read.2 fd).2,
          ops ++ ([.alloc c.buf] ++ (closeOps read.2 fd ++ [.free c.buf])))

/-- `uprocess_create` -/
def createOps (s : System) (p t : Ptr) : List (Op Ptr) :=
  [.alloc p, .alloc t, .foreign s.largeAllocBase]

/-- The `kfree`s of `sys_wait`. -/
def waitOps (s : System) : Event → List (Op Ptr)
  | .waitStatement _ =>
    match s.running with
    | .waitTail w .freeStack _ => kfreeOps (s.thread (s.proc w.child).thread).stackBase
    | .waitTail w .freeThread _ => kfreeOps (s.proc w.child).thread
    | .waitTail w .freeProcess _ => kfreeOps w.child
    | _ => []
  | _ => []

/-! ## Steps -/

structure Kernel (W : Type) where
  sys : System
  vfs : VfsState W
  log : List (Op Ptr)

/-- The tables, with the process that runs. -/
def caller (k : Kernel W) : VfsState W := { k.vfs with currProcess := k.sys.currProcess }

inductive KEvent where
  | sysOpen
  | sysClose (fd : Int)
  | sysSpawn (pid : Option Nat)
  | sys (e : Event)
  | between

/-- Spawns are steps of their own. -/
def Spawns : Event → Bool
  | .spawn .. => true
  | .spawnFailed _ => true
  | _ => false

def UserRuns (k : Kernel W) : Prop := k.sys.running = .user ∧ k.sys.inIrq = false

/-- The steps of the kernel.  What `kmalloc` returns is no live block, as the log
has it.  Between the calls the drivers work, and the buffers of the heap
overwrite what is no allocated record. -/
inductive KStep (d : Drivers W) : Kernel W → KEvent → Kernel W → Prop
  | sysOpen {k : Kernel W} {path : List (BitVec 8)} {flags : Int} {file : Ptr}
      {created : List Created} : UserRuns k →
      Fits k.log (openOps d (caller k) path flags file created) →
      KStep d k .sysOpen { k with
        vfs := (vfsOpen d (caller k) path flags file).2
        log := k.log ++ openOps d (caller k) path flags file created }
  | sysClose {k : Kernel W} {fd : Int} : UserRuns k →
      KStep d k (.sysClose fd) { k with
        vfs := (vfsClose d (caller k) fd).2
        log := k.log ++ closeOps (caller k) fd }
  | spawnFailed {k : Kernel W} {c : SpawnCall} : UserRuns k →
      (spawnImage d (caller k) c).1 = false → Fits k.log (spawnImage d (caller k) c).2.2 →
      KStep d k (.sysSpawn none) { k with
        vfs := (spawnImage d (caller k) c).2.1
        log := k.log ++ (spawnImage d (caller k) c).2.2 }
  | spawn {k : Kernel W} {s' : System} {c : SpawnCall} {parent pid : Nat} {p t : Ptr}
      {reused : List Ptr} : SysStep k.sys (.spawn parent pid p t reused) s' →
      (spawnImage d (caller k) c).1 = true →
      Fits k.log ((spawnImage d (caller k) c).2.2 ++ createOps k.sys p t) →
      KStep d k (.sysSpawn (some pid))
        { sys := s'
          vfs := { (spawnImage d (caller k) c).2.1 with
            fds := Function.update (spawnImage d (caller k) c).2.1.fds p fun _ => 0 }
          log := k.log ++ ((spawnImage d (caller k) c).2.2 ++ createOps k.sys p t) }
  | sys {k : Kernel W} {e : Event} {s' : System} : Spawns e = false → SysStep k.sys e s' →
      KStep d k (.sys e) { k with sys := s', log := k.log ++ waitOps k.sys e }
  | between {k : Kernel W} {reused : List Ptr} {mt : Ptr → ThreadT} {mp : Ptr → ProcessT}
      {files : Ptr → FileT} {w : W} : Unallocated k.sys reused →
      (∀ x, k.vfs.live x = true → files x = k.vfs.files x) →
      KStep d k .between { k with
        sys := overwrite k.sys reused mt mp, vfs := { k.vfs with files, world := w } }

/-- A run starts after boot, with whatever `kmain` left allocated. -/
structure Start (k : Kernel W) : Prop where
  boot : ∃ b, kmain b = some k.sys
  owned : Owned k.log
  files : ∀ x, k.vfs.live x = true → live k.log x = true

/-- Up to its `kfree`s `sys_wait` is harmless, and so is `sys_close` unless it
finds a freed `file_t` with one reference. -/
def OwnStep (k : Kernel W) : KEvent → Prop
  | .sysClose fd =>
    let file := getFile (caller k) fd
    file = 0 ∨ k.vfs.live file = true ∨ (k.vfs.files file).refCount ≠ 1
  | .sys (.waitStatement stmt) => stmt = .store ∨ stmt = .remove
  | _ => True

/-! ## The calls are safe -/

/-- The `file_t`s that are allocated. -/
def Held (s : VfsState W) (x : Ptr) : Prop := s.live x = true

theorem safe_created {L : Ptr → Prop} (c : Created) : Safe L c.ops L := by
  cases c with
  | devfs node =>
    simp only [Created.ops, kmallocOps]
    split
    · exact .skip fun _ hx => hx
    · exact .alloc fun _ => .skip fun _ hx => Or.inr hx
  | initrd node priv =>
    simp only [Created.ops]
    split
    · exact .skip fun _ hx => hx
    split
    · refine .alloc fun hnew => .free (Or.inl rfl) (.skip fun x hx => ⟨?_, Or.inr hx⟩)
      rintro rfl
      exact hnew hx
    · exact .alloc fun _ => .alloc fun _ => .skip fun _ hx => Or.inr (Or.inr hx)

theorem safe_createds {L : Ptr → Prop} (cs : List Created) : Safe L (cs.flatMap Created.ops) L := by
  induction cs with
  | nil => exact .skip fun _ hx => hx
  | cons c cs ih => exact (safe_created c).trans ih

theorem safe_openFile (s : VfsState W) (node : Ptr) (flags : Int) (file : Ptr) :
    Safe (Held s) (openFileOps s node flags file) (Held (openFile s node flags file).2) := by
  unfold openFileOps openFile
  split
  · exact .skip fun _ hx => hx
  dsimp only
  rcases allocFd_spec { s with
      live := Function.update s.live file true
      files := Function.update s.files file ⟨node, 0, flags, 1⟩ } file with
    hfull | ⟨i, -, -, -, heq⟩
  · have hneg : (-1 : Int) < 0 := by decide
    rw [hfull, if_pos hneg, if_pos hneg]
    refine .alloc fun _ => .free (Or.inl rfl) (.skip fun x hx => ?_)
    simp only [Held, Vfs.kfree, Function.update_apply] at hx
    split at hx
    case isTrue => cases hx
    case isFalse hne => exact ⟨hne, Or.inr hx⟩
  · have hfd : ¬ (i : Int) < 0 := by omega
    rw [heq, if_neg hfd, if_neg hfd]
    refine .alloc fun _ => .skip fun x hx => ?_
    rw [Held, (Vfs.setActive_files _ i file).2] at hx
    simp only [Function.update_apply] at hx
    split at hx
    case isTrue heq => exact Or.inl heq
    case isFalse => exact Or.inr hx

theorem safe_open (d : Drivers W) (s : VfsState W) (path : List (BitVec 8)) (flags : Int)
    (file : Ptr) (created : List Created) :
    Safe (Held s) (openOps d s path flags file created)
      (Held (vfsOpen d s path flags file).2) := by
  unfold openOps vfsOpen
  refine (safe_createds created).trans ?_
  dsimp only
  cases (d.vfsResolve s.world path).1 with
  | none => exact .skip fun _ hx => hx
  | some node =>
    dsimp only
    split
    · exact .skip fun _ hx => hx
    · exact safe_openFile
        { s with world := (callOpen d (d.vfsResolve s.world path).2 node flags).2 } node flags file

/-- What `vfs_close` needs of the descriptor. -/
def Closable (s : VfsState W) (fd : Int) : Prop :=
  getFile s fd = 0 ∨ s.live (getFile s fd) = true ∨ (s.files (getFile s fd)).refCount ≠ 1

theorem safe_close (d : Drivers W) {s : VfsState W} {fd : Int} (h : Closable s fd) :
    Safe (Held s) (closeOps s fd) (Held (vfsClose d s fd).2) := by
  unfold closeOps vfsClose Vfs.dropRef
  dsimp only
  split
  · exact .skip fun _ hx => hx
  case isFalse h0 =>
  dsimp only
  split
  case isTrue hlast =>
    have hlive : s.live (getFile s fd) = true :=
      (h.resolve_left h0).resolve_right fun hne => hne (by omega)
    refine .free hlive (.skip fun x hx => ?_)
    simp only [Held, Vfs.kfree, Function.update_apply] at hx
    split at hx
    case isTrue => cases hx
    case isFalse hne => exact ⟨hne, hx⟩
  case isFalse => exact .skip fun _ hx => hx

theorem mem_closeOps {s : VfsState W} {fd : Int} {p : Ptr} (h : .free p ∈ closeOps s fd) :
    p = getFile s fd := by
  unfold closeOps at h
  dsimp only at h
  split at h
  · cases h
  split at h
  · simpa using h
  · cases h

theorem vfsClose_held {d : Drivers W} {s : VfsState W} {fd : Int} {x : Ptr}
    (h : Held (vfsClose d s fd).2 x) : Held s x := by
  unfold vfsClose Vfs.dropRef at h
  dsimp only at h
  split at h
  case isTrue => exact h
  case isFalse =>
  split at h
  case isFalse => exact h
  case isTrue =>
    simp only [Held, Vfs.kfree, Function.update_apply] at h
    split at h
    case isTrue => cases h
    case isFalse => exact h

/-! ## The loader's file -/

/-- A descriptor that `vfs_open` returned leads to an allocated `file_t`. -/
theorem openFile_live (s : VfsState W) (node : Ptr) (flags : Int) (file : Ptr)
    (h : 0 ≤ (openFile s node flags file).1) :
    (openFile s node flags file).2.live
      (getFile (openFile s node flags file).2 (openFile s node flags file).1) = true := by
  unfold openFile at h ⊢
  dsimp only at h ⊢
  split
  case isTrue h0 => simp [h0] at h
  case isFalse h0 =>
    rcases allocFd_spec { s with
        live := Function.update s.live file true
        files := Function.update s.files file ⟨node, 0, flags, 1⟩ } file with
      hfull | ⟨i, hi, -, -, heq⟩
    · simp [h0, hfull] at h
    · have hfd : ¬ (i : Int) < 0 := by omega
      rw [heq, if_neg hfd, Vfs.getFile_eq, Vfs.fileAt_setActive _ hi, if_pos]
      · rw [(Vfs.setActive_files _ i file).2]
        exact Function.update_self ..
      · refine ⟨?_, rfl⟩
        unfold Vfs.setActive
        split <;> rfl

theorem vfsOpen_live (d : Drivers W) (s : VfsState W) (path : List (BitVec 8)) (flags : Int)
    (file : Ptr) (h : 0 ≤ (vfsOpen d s path flags file).1) :
    (vfsOpen d s path flags file).2.live
      (getFile (vfsOpen d s path flags file).2 (vfsOpen d s path flags file).1) = true := by
  unfold vfsOpen at h ⊢
  cases hnode : (d.vfsResolve s.world path).1 with
  | none => simp [hnode] at h
  | some node =>
    simp only [hnode] at h ⊢
    split
    case isTrue hneg => simp [hneg] at h
    case isFalse hneg =>
      rw [if_neg hneg] at h
      exact openFile_live _ node flags file h

/-- The tables and the allocations are the same. -/
def SameTables (s s' : VfsState W) : Prop :=
  s'.live = s.live ∧ ∀ fd, getFile s' fd = getFile s fd

theorem sameTables_stat (d : Drivers W) (s : VfsState W) (fd : Int) (st : Nat) :
    SameTables s (vfsStat d s fd st).2 := by
  unfold vfsStat Vfs.vfsQuery
  dsimp only
  split
  · exact ⟨rfl, fun _ => rfl⟩
  split <;> exact ⟨rfl, fun _ => rfl⟩

theorem sameTables_read (d : Drivers W) (s : VfsState W) (fd : Int) (buf len : Nat) :
    SameTables s (vfsRead d s fd buf len).2 := by
  unfold vfsRead Vfs.vfsTransfer
  dsimp only
  split
  · exact ⟨rfl, fun _ => rfl⟩
  split
  · exact ⟨rfl, fun _ => rfl⟩
  split <;> exact ⟨rfl, fun _ => rfl⟩

theorem SameTables.trans {s s' s'' : VfsState W} (h : SameTables s s') (h' : SameTables s' s'') :
    SameTables s s'' :=
  ⟨h'.1.trans h.1, fun fd => (h'.2 fd).trans (h.2 fd)⟩

theorem SameTables.held {s s' : VfsState W} (h : SameTables s s') : Held s' = Held s := by
  funext x
  rw [Held, Held, h.1]

theorem SameTables.closable {s s' : VfsState W} (h : SameTables s s') {fd : Int}
    (hlive : s.live (getFile s fd) = true) : Closable s' fd := by
  right
  left
  rw [h.1, h.2]
  exact hlive

/-- **`sys_spawn`** up to `kfree(buf)`, with its failing paths. -/
theorem safe_spawnImage (d : Drivers W) (s : VfsState W) (c : SpawnCall) :
    Safe (Held s) (spawnImage d s c).2.2 (Held (spawnImage d s c).2.1) := by
  have hopen := safe_open d s c.path 0 c.file c.created
  unfold spawnImage
  dsimp only
  split
  case isTrue => exact hopen
  case isFalse hfd =>
  have hlive := vfsOpen_live d s c.path 0 c.file (Int.not_lt.mp hfd)
  generalize vfsOpen d s c.path 0 c.file = opened at *
  have hstat := sameTables_stat d opened.2 opened.1 c.st
  generalize vfsStat d opened.2 opened.1 c.st = stat at *
  have hclose := safe_close d (hstat.closable hlive)
  rw [hstat.held] at hclose
  split
  case isTrue => exact hopen.trans hclose
  case isFalse =>
  split
  case isTrue => exact hopen.trans hclose
  case isFalse =>
  have hread := hstat.trans (sameTables_read d stat.2 opened.1 c.buf c.size)
  generalize vfsRead d stat.2 opened.1 c.buf c.size = read at *
  have hclose := safe_close d (hread.closable hlive)
  rw [hread.held] at hclose
  split
  case isTrue =>
    refine hopen.trans (.alloc fun hnew => .free (Or.inl rfl) ?_)
    refine hclose.pre fun x hx => ⟨?_, Or.inr hx⟩
    rintro rfl
    exact hnew hx
  case isFalse =>
    refine hopen.trans (.alloc fun hnew => ?_)
    have hbuf : Op.free c.buf ∉ closeOps read.2 opened.1 := by
      intro hmem
      have hfile := mem_closeOps hmem
      rw [hread.2] at hfile
      exact hnew (hfile ▸ hlive)
    refine (hclose.frame hbuf).trans (.free (Or.inl rfl) (.skip fun x hx => ⟨?_, Or.inr hx⟩))
    rintro rfl
    exact hnew (hread.held ▸ vfsClose_held hx)

theorem safe_create {L : Ptr → Prop} (s : System) (p t : Ptr) : Safe L (createOps s p t) L :=
  .alloc fun _ => .alloc fun _ => .foreign (.skip fun _ hx => Or.inr (Or.inr hx))

/-! ## Runs -/

structure OwnInv (k : Kernel W) : Prop where
  owned : Owned k.log
  files : ∀ x, Held k.vfs x → live k.log x = true

/-- A call that is safe keeps the invariant. -/
theorem OwnInv.call {k k' : Kernel W} {ops : List (Op Ptr)} (h : OwnInv k)
    (hsafe : Safe (Held k.vfs) ops (Held k'.vfs)) (hfits : Fits k.log ops)
    (hlog : k'.log = k.log ++ ops) : OwnInv k' := by
  obtain ⟨howned, hfiles⟩ := h.owned.safe hsafe h.files hfits
  exact ⟨hlog ▸ howned, hlog ▸ hfiles⟩

theorem waitOps_nil {k : Kernel W} {e : Event} {s' : System} (h : OwnStep k (.sys e))
    (hstep : SysStep k.sys e s') : waitOps k.sys e = [] := by
  cases hstep with
  | @waitStatement _ w stmt sti hrun =>
    have hstmt : stmt = .store ∨ stmt = .remove := h
    rcases hstmt with rfl | rfl <;> simp [waitOps, hrun]
  | _ => rfl

theorem fits_closeOps (s : VfsState W) (fd : Int) (log : List (Op Ptr)) :
    Fits log (closeOps s fd) := by
  unfold closeOps
  dsimp only
  split
  · trivial
  split <;> trivial

/-- **One step.** -/
theorem ownInv_step {d : Drivers W} {k k' : Kernel W} {e : KEvent} (h : OwnInv k)
    (hstep : Guarded OwnStep (KStep d) k e k') : OwnInv k' := by
  obtain ⟨hown, hstep⟩ := hstep
  cases hstep with
  | sysOpen _ hfits => exact h.call (safe_open d (caller k) _ _ _ _) hfits rfl
  | sysClose => exact h.call (safe_close d (s := caller k) hown) (fits_closeOps _ _ _) rfl
  | spawnFailed _ _ hfits => exact h.call (safe_spawnImage d (caller k) _) hfits rfl
  | spawn _ _ hfits =>
    exact h.call ((safe_spawnImage d (caller k) _).trans (safe_create k.sys _ _)) hfits rfl
  | sys _ hstep =>
    rw [waitOps_nil hown hstep, List.append_nil]
    exact ⟨h.owned, h.files⟩
  | between => exact ⟨h.owned, h.files⟩

/-- **Ownership.**  In every run from boot that meets `OwnStep` every pointer
passed to `kfree` was returned by `kmalloc` and not passed to `kfree` since. -/
theorem kfree_owned {d : Drivers W} {k₀ k : Kernel W} {es : List KEvent} (hstart : Start k₀)
    (hrun : Run (Guarded OwnStep (KStep d)) k₀ es k) : Owned k.log :=
  (hrun.invariant (fun _ _ _ h hstep => ownInv_step h hstep) ⟨hstart.owned, hstart.files⟩).owned

/-! ## Scripts -/

/-- A choice between the steps of the kernel. -/
inductive KChoice where
  | sysOpen (file : Ptr) (created : List Created)
  | sysClose (fd : Int)
  | spawn (c : SpawnCall) (p t : Ptr) (pageDir : Nat)
  | sys (c : Choice)

/-- One file system with one file, which any driver call reads in full. -/
def oneFile : Drivers Unit where
  vfsResolve _ _ := (some 0x900, ())
  flags _ _ := 0
  ops _ _ := some { opRead := some fun _ _ _ len _ => (len, ()), opStat := some fun _ _ _ => (0, ()) }

instance (k : Kernel W) : Decidable (UserRuns k) := inferInstanceAs (Decidable (_ ∧ _))

def kChoose (k : Kernel Unit) : KChoice → Option (KEvent × Kernel Unit)
  | .sysOpen file created =>
    if UserRuns k ∧ Fits k.log (openOps oneFile (caller k) [] 0 file created) then
      some (.sysOpen, { k with
        vfs := (vfsOpen oneFile (caller k) [] 0 file).2
        log := k.log ++ openOps oneFile (caller k) [] 0 file created })
    else none
  | .sysClose fd =>
    if UserRuns k then
      some (.sysClose fd, { k with
        vfs := (vfsClose oneFile (caller k) fd).2, log := k.log ++ closeOps (caller k) fd })
    else none
  | .spawn c p t pageDir =>
    let image := spawnImage oneFile (caller k) c
    match choose k.sys (.spawn p t pageDir) with
    | some (.spawn _ pid p t _, s') =>
      if image.1 = true ∧ Fits k.log (image.2.2 ++ createOps k.sys p t) then
        some (.sysSpawn (some pid),
          { sys := s'
            vfs := { image.2.1 with fds := Function.update image.2.1.fds p fun _ => 0 }
            log := k.log ++ (image.2.2 ++ createOps k.sys p t) })
      else none
    | _ => none
  | .sys c =>
    match choose k.sys c with
    | some (e, s') =>
      if Spawns e = false then
        some (.sys e, { k with sys := s', log := k.log ++ waitOps k.sys e })
      else none
    | none => none

theorem kChoose_step {k k' : Kernel Unit} {c : KChoice} {e : KEvent}
    (h : kChoose k c = some (e, k')) : KStep oneFile k e k' := by
  cases c with
  | sysOpen file created =>
    simp only [kChoose] at h
    split at h
    case isFalse => cases h
    case isTrue hg =>
      cases h
      exact .sysOpen hg.1 hg.2
  | sysClose fd =>
    simp only [kChoose] at h
    split at h
    case isFalse => cases h
    case isTrue hg =>
      cases h
      exact .sysClose hg
  | spawn c p t pageDir =>
    simp only [kChoose] at h
    split at h
    case h_2 => cases h
    case h_1 hspawn =>
      split at h
      case isFalse => cases h
      case isTrue hg =>
        cases h
        exact .spawn (choose_step hspawn) hg.1 hg.2
  | sys c =>
    simp only [kChoose] at h
    split at h
    case h_2 => cases h
    case h_1 hsys =>
      split at h
      case isFalse => cases h
      case isTrue hg =>
        cases h
        exact .sys hg (choose_step hsys)

instance (k : Kernel W) (e : KEvent) : Decidable (OwnStep k e) :=
  match e with
  | .sysClose _ => inferInstanceAs (Decidable (_ ∨ _ ∨ _))
  | .sys (.waitStatement _) => inferInstanceAs (Decidable (_ ∨ _))
  | .sysOpen | .sysSpawn _ | .between => .isTrue trivial
  | .sys (.spawn ..) | .sys (.spawnFailed _) | .sys (.exit ..) | .sys (.wait ..) => .isTrue trivial
  | .sys .waitEnds | .sys (.waitReturn ..) | .sys (.ttyRead ..) => .isTrue trivial
  | .sys (.irq _) | .sys .irqReturn | .sys (.switch ..) => .isTrue trivial

/-- After the small boot, with the four records of `kmain` and their stacks. -/
def smallKernel (s : System) : Kernel Unit where
  sys := s
  vfs :=
    { kernelFdTable := fun _ => 0, fds := fun _ _ => 0, currProcess := 0
      files := fun _ => ⟨0, 0, 0, 0⟩, live := fun _ => false, world := () }
  log :=
    [.alloc smallBoot.idle, .foreign LARGE_ALLOC_BASE, .alloc smallBoot.main,
      .foreign (LARGE_ALLOC_BASE + KSTACK_SIZE), .alloc smallBoot.init,
      .alloc smallBoot.initThread, .foreign (LARGE_ALLOC_BASE + 2 * KSTACK_SIZE)]

theorem smallKernel_start {b : Boot} {s : System} (h : kmain b = some s) : Start (smallKernel s) where
  boot := ⟨b, h⟩
  owned := by
    have h : Owned ([] ++ (smallKernel s).log) := owned_nil.append trivial
    exact h
  files x hx := by cases hx

/-- The events and the last state of a script from the small boot, as long as
its steps meet `C`. -/
def kPlay (C : Kernel Unit → KEvent → Prop) [∀ k e, Decidable (C k e)] (cs : List KChoice) :
    Option (System × List KEvent × Kernel Unit) :=
  (kmain smallBoot).bind fun s =>
    (follow (fun k c => (kChoose k c).filter fun r => C k r.1) (smallKernel s) cs).map fun r =>
      (s, r)

theorem kPlay_run {C : Kernel Unit → KEvent → Prop} [∀ k e, Decidable (C k e)] (cs : List KChoice)
    (P : Kernel Unit → Bool) (h : (kPlay C cs).any (fun r => P r.2.2) = true) :
    ∃ k₀ es k, Start k₀ ∧ Run (Guarded C (KStep oneFile)) k₀ es k ∧ P k = true := by
  obtain ⟨⟨s, es, k⟩, hplay, hP⟩ := Option.any_eq_true _ _ |>.mp h
  obtain ⟨s', hboot, hplay⟩ := Option.bind_eq_some_iff.mp hplay
  obtain ⟨⟨es', k'⟩, hplay, heq⟩ := Option.map_eq_some_iff.mp hplay
  cases heq
  refine ⟨_, es, k, smallKernel_start hboot, follow_run (fun k c e k' hc => ?_) hplay, hP⟩
  obtain ⟨hc, hC⟩ := Option.filter_eq_some_iff.mp hc
  exact ⟨of_decide_eq_true hC, kChoose_step hc⟩

/-- init opens a file, spawns a child and closes the file. -/
def openSpawnClose : List KChoice :=
  tick.map .sys ++ [.sysOpen 0x100 [.initrd 0x110 0x120],
    .spawn ⟨[], [.devfs 0x150], 0x130, 0, 64, 0x140⟩ 0x50 0x60 0x3000, .sysClose 0]

theorem openSpawnClose_owned : ∃ k₀ es k, Start k₀ ∧
    Run (Guarded OwnStep (KStep oneFile)) k₀ es k ∧
    k.log.drop 14 = [.free 0x140, .alloc 0x50, .alloc 0x60,
      .foreign (LARGE_ALLOC_BASE + 3 * KSTACK_SIZE), .free 0x100] ∧ Owned k.log := by
  obtain ⟨k₀, es, k, hstart, hrun, hP⟩ :=
    kPlay_run (C := OwnStep) openSpawnClose (fun k => k.log.drop 14 =
    [.free 0x140, .alloc 0x50, .alloc 0x60, .foreign (LARGE_ALLOC_BASE + 3 * KSTACK_SIZE),
      .free 0x100]) (by decide +kernel)
  exact ⟨k₀, es, k, hstart, hrun, of_decide_eq_true hP, kfree_owned hstart hrun⟩

/-- init spawns a child, the child exits, and init awaits it. -/
def reaping : List KChoice :=
  tick.map .sys ++ [.spawn ⟨[], [], 0x130, 0, 64, 0x140⟩ 0x50 0x60 0x3000] ++ tick.map .sys ++
    [.sys (.exit 7), .sys (.irq .other), .sys .switch] ++ tick.map .sys ++ tick.map .sys ++
    [.sys (.wait 2 0), .sys .waitOn, .sys .waitOn, .sys .waitOn]

/-- The first `kfree` of `sys_wait` gets memory of `kalloc_pages`. -/
theorem reaping_frees_pages : ∃ k₀ es k, Start k₀ ∧ Run (KStep oneFile) k₀ es k ∧
    ¬ Owned k.log := by
  obtain ⟨k₀, es, k, hstart, hrun, hP⟩ := kPlay_run (C := fun _ _ => True) reaping (fun k =>
    k.log = k.log.dropLast ++ [.free (LARGE_ALLOC_BASE + 3 * KSTACK_SIZE)] &&
      !live k.log.dropLast (LARGE_ALLOC_BASE + 3 * KSTACK_SIZE)) (by decide +kernel)
  simp only [Bool.and_eq_true, decide_eq_true_eq, Bool.not_eq_true'] at hP
  refine ⟨k₀, es, k, hstart, hrun.of_guarded, fun h => ?_⟩
  rw [hP.1] at h
  exact Bool.false_ne_true (hP.2.symm.trans h.last)

end FrogKernel.Ownership
