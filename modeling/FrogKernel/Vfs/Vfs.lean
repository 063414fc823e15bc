import Mathlib.Algebra.Group.Int.Defs
import Mathlib.Algebra.Group.Nat.Defs
import Mathlib.Logic.Function.Basic
import Mathlib.Tactic.Common
import FrogKernel.Lib.Runs

/-!
# Descriptors of the virtual file system (`vfs/vfs.c`)

Each process has a table of 256 `file_t` pointers, the kernel has one more,
and `curr_process` says which of them a call works on.  What lies behind a
`vnode_t` (mounts, file systems, devices) is the state `W` and the functions of
`Drivers W`; no driver touches a descriptor table.  `kmalloc` enters as the
pointer it returns.
-/

namespace FrogKernel.Vfs

/-- An address; 0 is `NULL`. -/
abbrev Ptr := Nat

def MAX_FDS : Nat := 256

/-- `vnode_ops_t`, the operations `vfs.c` calls on an open file. -/
structure VnodeOps (W : Type) where
  opOpen : Option (W → Ptr → Int → Int × W) := none
  opClose : Option (W → Ptr → Int × W) := none
  opRead : Option (W → Ptr → Nat → Nat → Nat → Int × W) := none
  opWrite : Option (W → Ptr → Nat → Nat → Nat → Int × W) := none
  opReaddir : Option (W → Ptr → Nat → Nat → Nat → Int × W) := none
  opIoctl : Option (W → Ptr → Int → Nat → Int × W) := none
  opStat : Option (W → Ptr → Nat → Int × W) := none

def VFS_DIRECTORY : Nat := 0x02

/-- Path resolution and the `flags` and `ops` fields of the vnodes. -/
structure Drivers (W : Type) where
  vfsResolve : W → List (BitVec 8) → Option Ptr × W
  flags : W → Ptr → Nat
  ops : W → Ptr → Option (VnodeOps W)

/-- `file_t` -/
structure FileT where
  vnode : Ptr
  offset : Nat
  flags : Int
  refCount : Int

/-- `fd_table_t` -/
abbrev FdTable := Nat → Ptr

/-- The globals of `vfs.c`, the tables of all processes, and the `file_t`
memory with the allocations in it. -/
structure VfsState (W : Type) where
  kernelFdTable : FdTable
  fds : Ptr → FdTable
  currProcess : Ptr
  files : Ptr → FileT
  live : Ptr → Bool
  world : W

variable {W : Type}

/-- The table of a caller: a process, or the kernel when `c` is `NULL`. -/
def tableOf (s : VfsState W) (c : Ptr) : FdTable :=
  if c ≠ 0 then s.fds c else s.kernelFdTable

def activeFdTable (s : VfsState W) : FdTable := tableOf s s.currProcess

/-- `active_fd_table()->entries[i] = file` -/
def setActive (s : VfsState W) (i : Nat) (file : Ptr) : VfsState W :=
  if s.currProcess ≠ 0 then
    { s with
      fds := Function.update s.fds s.currProcess
        (Function.update (s.fds s.currProcess) i file) }
  else { s with kernelFdTable := Function.update s.kernelFdTable i file }

/-- The loop of `alloc_fd` from slot `i` on, with `n` slots left. -/
def allocFdLoop (s : VfsState W) (file : Ptr) : Nat → Nat → Int × VfsState W
  | _, 0 => (-1, s)
  | i, n + 1 =>
    if activeFdTable s i = 0 then (i, setActive s i file) else allocFdLoop s file (i + 1) n

def allocFd (s : VfsState W) (file : Ptr) : Int × VfsState W := allocFdLoop s file 0 MAX_FDS

def getFile (s : VfsState W) (fd : Int) : Ptr :=
  if fd < 0 ∨ fd ≥ MAX_FDS then 0 else activeFdTable s fd.toNat

def kfree (s : VfsState W) (file : Ptr) : VfsState W := { s with live := Function.update s.live file false }

/-- The call of `node->ops->open`, if there is one. -/
def callOpen (d : Drivers W) (w : W) (node : Ptr) (flags : Int) : Int × W :=
  match (d.ops w node).bind (·.opOpen) with
  | none => (0, w)
  | some op => op w node flags

/-- `vfs_open` from `kmalloc(sizeof(file_t))` on, which returned `file`. -/
def openFile (s : VfsState W) (node : Ptr) (flags : Int) (file : Ptr) : Int × VfsState W :=
  if file = 0 then (-1, s)
  else
    let s := { s with
      live := Function.update s.live file true
      files := Function.update s.files file ⟨node, 0, flags, 1⟩ }
    let r := allocFd s file
    if r.1 < 0 then (-1, kfree r.2 file) else r

def vfsOpen (d : Drivers W) (s : VfsState W) (path : List (BitVec 8)) (flags : Int) (file : Ptr) :
    Int × VfsState W :=
  let r := d.vfsResolve s.world path
  match r.1 with
  | none => (-1, { s with world := r.2 })
  | some node =>
    let opened := callOpen d r.2 node flags
    if opened.1 < 0 then (-1, { s with world := opened.2 })
    else openFile { s with world := opened.2 } node flags file

/-- `file->vnode->ops->close(file->vnode)`, if there is one. -/
def callClose (d : Drivers W) (w : W) (node : Ptr) : W :=
  match (d.ops w node).bind (·.opClose) with
  | none => w
  | some op => (op w node).2

/-- `vfs_close` up to the table: drop the reference and free the last one. -/
def dropRef (d : Drivers W) (s : VfsState W) (file : Ptr) : VfsState W :=
  let f := s.files file
  let s := { s with files := Function.update s.files file { f with refCount := f.refCount - 1 } }
  if f.refCount - 1 = 0 then kfree { s with world := callClose d s.world f.vnode } file else s

def vfsClose (d : Drivers W) (s : VfsState W) (fd : Int) : Int × VfsState W :=
  let file := getFile s fd
  if file = 0 then (-1, s)
  else
    let s := dropRef d s file
    (0, { s with kernelFdTable := Function.update s.kernelFdTable fd.toNat 0 })

/-- The common part of `vfs_read` and `vfs_write`: `sel` picks the operation. -/
def vfsTransfer (sel : VnodeOps W → Option (W → Ptr → Nat → Nat → Nat → Int × W))
    (d : Drivers W) (s : VfsState W) (fd : Int) (buf len : Nat) : Int × VfsState W :=
  let file := getFile s fd
  if file = 0 then (-1, s)
  else
    let f := s.files file
    match (d.ops s.world f.vnode).bind sel with
    | none => (-1, s)
    | some op =>
      match op s.world f.vnode buf len f.offset with
      | (n, w) =>
        if n > 0 then
          (n, { s with
            world := w
            files := Function.update s.files file
              { f with offset := (f.offset + n.toNat) % 2 ^ 32 } })
        else (n, { s with world := w })

def vfsRead (d : Drivers W) (s : VfsState W) (fd : Int) (buf len : Nat) : Int × VfsState W :=
  vfsTransfer (·.opRead) d s fd buf len

def vfsWrite (d : Drivers W) (s : VfsState W) (fd : Int) (buf len : Nat) : Int × VfsState W :=
  vfsTransfer (·.opWrite) d s fd buf len

/-- The common part of the calls that only ask the vnode; `pick` is `none`
where the source returns -1 before the call. -/
def vfsQuery (pick : W → Ptr → Option (W → Ptr → Int × W)) (s : VfsState W) (fd : Int) :
    Int × VfsState W :=
  let file := getFile s fd
  if file = 0 then (-1, s)
  else
    let node := (s.files file).vnode
    match pick s.world node with
    | none => (-1, s)
    | some op => match op s.world node with
      | (n, w) => (n, { s with world := w })

def vfsStat (d : Drivers W) (s : VfsState W) (fd : Int) (st : Nat) : Int × VfsState W :=
  vfsQuery (fun w node => ((d.ops w node).bind (·.opStat)).map
    (fun op w node => op w node st)) s fd

def vfsReaddir (d : Drivers W) (s : VfsState W) (fd : Int) (index nameOut nameMax : Nat) :
    Int × VfsState W :=
  vfsQuery (fun w node =>
    if d.flags w node &&& VFS_DIRECTORY = 0 then none
    else ((d.ops w node).bind (·.opReaddir)).map
      (fun op w node => op w node index nameOut nameMax)) s fd

def vfsIoctl (d : Drivers W) (s : VfsState W) (fd : Int) (request : Int) (arg : Nat) : Int × VfsState W :=
  vfsQuery (fun w node => ((d.ops w node).bind (·.opIoctl)).map
    (fun op w node => op w node request arg)) s fd

end FrogKernel.Vfs
