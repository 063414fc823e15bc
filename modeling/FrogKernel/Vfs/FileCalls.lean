import FrogKernel.Initrd.Listing
import FrogKernel.Vfs.Opening

/-!
# Calls on the files of the two file systems (`vfs/vfs.c`)

The operations of the vnodes of the initrd and of devfs as the `Drivers` of the
descriptor tables.  `user` is the memory that the calls are given addresses of; a
buffer keeps its indices where its addresses wrap around 2^32.

`vfsTransfer_open` and `vfsQuery_open` say what a call on an open descriptor does.
-/

namespace FrogKernel.FileCalls

open FrogKernel.Bytes FrogKernel.CStrings FrogKernel.Initrd FrogKernel.Opening
open FrogKernel.Kheap (add32 sub32)
open FrogKernel.Vfs (Ptr Drivers VnodeOps VfsState FsMount MAX_FDS VFS_DIRECTORY getFile vfsRead
  vfsStat vfsReaddir vfsTransfer vfsQuery activeFdTable callOpen openFile allocFd allocFdLoop
  setActive tableOf covered)

/-! ## `struct stat` -/

def SIZEOF_STAT : Nat := 64
def ST_MODE : Nat := 8
def ST_SIZE : Nat := 28
def S_IFREG : Nat := 0x8000
def S_IFDIR : Nat := 0x4000

/-- `initrd_file_stat` -/
def initrdFileStat (initrd : InitrdT) (m stack : Mem) (node : Initrd.Vnode) (user : Mem) (st : Nat) :
    Option (Int × Mem) :=
  (initrdLookup initrd m stack node.path 0).map fun f =>
    if f.data = 0 then (-1, user)
    else
      let user := fill user st 0 SIZEOF_STAT
      let user := write32 user (st + ST_SIZE) f.size
      (0, write32 user (st + ST_MODE)
        (if node.flags &&& VFS_DIRECTORY ≠ 0 then S_IFDIR else S_IFREG))

/-! ## The registry of devfs -/

def DEVFS_MAX_DEVICES : Nat := 64

/-- `strncpy(name_out, name, name_max - 1); name_out[name_max - 1] = '\0'` -/
def storeName (out : Mem) (a : Nat) (src : Mem) (name nameMax : Nat) : Mem :=
  write8 (strncpy out a src name (sub32 nameMax 1)) (a + sub32 nameMax 1) 0

/-- The loop of `devfs_root_readdir`. -/
def devfsReaddirLoop (index : Nat) (out : Mem) (a nameMax : Nat) :
    List DevfsEntry → Nat → Int × Mem
  | [], _ => (-1, out)
  | entry :: rest, found =>
    if ¬ entry.active then devfsReaddirLoop index out a nameMax rest found
    else if found = index then (0, storeName out a entry.name 0 nameMax)
    else devfsReaddirLoop index out a nameMax rest (add32 found 1)

def devfsRootReaddir (registry : List DevfsEntry) (index : Nat) (out : Mem) (a nameMax : Nat) :
    Int × Mem :=
  devfsReaddirLoop index out a nameMax registry 0

/-- `devfs_register`; `array` is what `entry->name` holds before. -/
def devfsRegister (array : Mem) (registry : List DevfsEntry) (name : Mem) (flags : Nat) :
    Int × List DevfsEntry :=
  if registry.length ≥ DEVFS_MAX_DEVICES then (-1, registry)
  else (0, registry ++ [⟨write8 (strncpy array 0 name 0 63) 63 0, flags, true⟩])

/-- The registry after some calls of `devfs_register`. -/
inductive Registered : List DevfsEntry → Prop
  | empty : Registered []
  | register {registry : List DevfsEntry} (array name : Mem) (flags : Nat) : Registered registry →
      Registered (devfsRegister array registry name flags).2

/-! ## The world behind the descriptors -/

/-- The file systems, what vnode pointers point to, and the memory of the buffers.
`hung` says that a scan of the archive goes on for ever. -/
structure FsWorld where
  disk : Disk
  mounts : List (FsMount VnodeT)
  vnode : Ptr → VnodeT
  nextVnode : Ptr
  user : Mem
  hung : Bool

/-- What a call returns, and the memory after it. -/
def finish (w : FsWorld) : Option (Int × Mem) → Int × FsWorld
  | none => (-1, { w with hung := true })
  | some (n, user) => (n, { w with user })

/-! ## The operations -/

def fileRead (node : Initrd.Vnode) (w : FsWorld) (_ : Ptr) (buf len offset : Nat) : Int × FsWorld :=
  finish w <|
    Initrd.initrdFileRead w.disk.initrd w.disk.archive w.disk.stack node w.user buf len offset

def fileStat (node : Initrd.Vnode) (w : FsWorld) (_ : Ptr) (st : Nat) : Int × FsWorld :=
  finish w <| initrdFileStat w.disk.initrd w.disk.archive w.disk.stack node w.user st

def dirReaddir (node : Initrd.Vnode) (w : FsWorld) (_ : Ptr) (index nameOut nameMax : Nat) :
    Int × FsWorld :=
  finish w <|
    initrdDirReaddir w.disk.initrd w.disk.archive w.disk.stack node index w.user nameOut nameMax

def devfsReaddir (w : FsWorld) (_ : Ptr) (index nameOut nameMax : Nat) : Int × FsWorld :=
  finish w (some (devfsRootReaddir w.disk.registry index w.user nameOut nameMax))

section Drivers

variable (deviceOps : DevfsEntry → VnodeOps FsWorld)

/-- `node->ops`; no device has a `readdir`. -/
def fsOps : VnodeT → VnodeOps FsWorld
  | .initrd node =>
    match node.ops with
    | .initrdFileOps => { opRead := some (fileRead node), opStat := some (fileStat node) }
    | .initrdDirOps => { opReaddir := some (dirReaddir node) }
  | .devfsRoot => { opReaddir := some devfsReaddir }
  | .device entry => { deviceOps entry with opReaddir := none }

/-- `vfs_resolve`, which puts the vnode it makes at `nextVnode`. -/
def fsResolve (w : FsWorld) (path : List Char8) : Option Ptr × FsWorld :=
  match Vfs.vfsResolve w.disk.nodes w.mounts w.disk.stack (memOf 0 (path ++ [0])) 0 with
  | none => (none, { w with hung := true })
  | some none => (none, w)
  | some (some node) =>
    (some w.nextVnode, { w with
      vnode := Function.update w.vnode w.nextVnode node
      nextVnode := w.nextVnode + 1 })

def fsDrivers : Drivers FsWorld where
  vfsResolve := fsResolve
  flags w p := w.disk.nodes.flags (w.vnode p)
  ops w p := some (fsOps deviceOps (w.vnode p))

end Drivers

/-! ## Calls on an open descriptor -/

section Calls

variable {W : Type} {d : Drivers W} {s : VfsState W} {fd : Int}

/-- A read or write through an open descriptor. -/
theorem vfsTransfer_open {sel : VnodeOps W → Option (W → Ptr → Nat → Nat → Nat → Int × W)}
    {op : W → Ptr → Nat → Nat → Nat → Int × W} (hfile : getFile s fd ≠ 0)
    (hop : (d.ops s.world (s.files (getFile s fd)).vnode).bind sel = some op) (buf len : Nat) :
    vfsTransfer sel d s fd buf len =
      let f := s.files (getFile s fd)
      let r := op s.world f.vnode buf len f.offset
      (r.1, if r.1 > 0 then
        { s with
          world := r.2
          files := Function.update s.files (getFile s fd)
            { f with offset := (f.offset + r.1.toNat) % 2 ^ 32 } }
        else { s with world := r.2 }) := by
  unfold vfsTransfer
  simp only [if_neg hfile, hop]
  split <;> rfl

theorem vfsQuery_open {pick : W → Ptr → Option (W → Ptr → Int × W)} {op : W → Ptr → Int × W}
    (hfile : getFile s fd ≠ 0) (hop : pick s.world (s.files (getFile s fd)).vnode = some op) :
    vfsQuery pick s fd =
      ((op s.world (s.files (getFile s fd)).vnode).1,
        { s with world := (op s.world (s.files (getFile s fd)).vnode).2 }) := by
  unfold vfsQuery
  simp only [if_neg hfile, hop]

/-- A query that does not fail asked an operation of an open file. -/
theorem vfsQuery_cases (pick : W → Ptr → Option (W → Ptr → Int × W)) (s : VfsState W) (fd : Int) :
    vfsQuery pick s fd = (-1, s) ∨ getFile s fd ≠ 0 ∧
      ∃ op, pick s.world (s.files (getFile s fd)).vnode = some op := by
  by_cases hfile : getFile s fd = 0
  · exact Or.inl (by unfold vfsQuery; simp only [hfile, if_true])
  · cases hop : pick s.world (s.files (getFile s fd)).vnode with
    | none => exact Or.inl (by unfold vfsQuery; simp only [if_neg hfile, hop])
    | some op => exact Or.inr ⟨hfile, op, rfl⟩

end Calls

end FrogKernel.FileCalls
