import FrogKernel.Initrd.Scanning
import FrogKernel.Userspace.UserBuffer
import FrogKernel.Vfs.FileCalls

/-!
# The names that `sys_readdir` stores (`userspace/usyscall.c`)

Both file systems copy a name with `strncpy(name_out, name, name_max - 1)` and put a NUL
at `name_max - 1`; `val_ptr` accepts a `name_max` of 0.

Main result: `readdir_stores_iff`, for any archive and registry.
-/

namespace FrogKernel.FileCalls

open FrogKernel.Bytes FrogKernel.CStrings FrogKernel.Initrd FrogKernel.Opening FrogKernel.Loops
open FrogKernel.Kheap (add32 sub32)
open FrogKernel.Vfs (Ptr Drivers VnodeOps VfsState VFS_DIRECTORY getFile vfsReaddir vfsQuery)
open FrogKernel.Syscall (Registers valPtr toInt32 toUint32)

/-- The registers of `sys_readdir`, which takes `name_max` from `ebp`. -/
structure ReaddirRegisters extends Registers where
  ebp : Nat

def sysReaddir {W : Type} (d : Drivers W) (s : VfsState W) (regs : ReaddirRegisters) :
    Nat × VfsState W :=
  if !valPtr regs.edx regs.ebp then (toUint32 (-1), s)
  else
    let r := vfsReaddir d s (toInt32 regs.ebx) regs.ecx regs.edx regs.ebp
    (toUint32 r.1, r.2)

/-! ## Entries and their names -/

section Entries

variable (initrd : InitrdT) (m : Mem) (dir : List Char8)

/-- The headers of a scan, with the names in the directory that lie before them. -/
inductive Counts : Nat → Nat → Prop
  | first : Counts initrd.addr 0
  | skip {ptr k : Nat} : Counts ptr k → ¬ Ends initrd m ptr → nameIn dir (pathOf m ptr) = none →
      Counts (nextHeader m ptr) k
  | name {ptr k : Nat} {c : List Char8} : Counts ptr k → ¬ Ends initrd m ptr →
      nameIn dir (pathOf m ptr) = some c → Counts (nextHeader m ptr) (add32 k 1)

end Entries

/-- The name of the entry with the index, in a directory of one of the file systems. -/
inductive EntryName (disk : Disk) : VnodeT → Nat → List Char8 → Prop
  | initrd {node : Initrd.Vnode} {ptr index : Nat} {name : List Char8} :
      Counts disk.initrd disk.archive (fieldChars node.path 0 255) ptr index →
      ¬ Ends disk.initrd disk.archive ptr →
      nameIn (fieldChars node.path 0 255) (pathOf disk.archive ptr) = some name →
      EntryName disk (.initrd node) index name
  | devfs {entry : DevfsEntry} {index : Nat} {name : List Char8} :
      (disk.registry.filter DevfsEntry.active)[index]? = some entry → CStr entry.name 0 name →
      EntryName disk .devfsRoot index name

/-- `name` is stored in `name_out`, cut where it is too long. -/
structure StoresName (nameOut nameMax : Nat) (name : List Char8) (before after : Mem) : Prop where
  frame : ∀ x, x < nameOut ∨ nameOut + nameMax ≤ x → after x = before x
  terminated : ∃ i < nameMax, after (nameOut + i) = 0
  stored : CStr after nameOut (name.take (nameMax - 1))

/-- The characters of a string that a field has room for. -/
theorem fieldChars_take {m : Mem} {s : List Char8} {a : Nat} (h : CStr m a s) (n : Nat) :
    fieldChars m a n = s.take n := by
  induction n generalizing s a with
  | zero => rw [fieldChars, List.take_zero]
  | succ n ih =>
    rw [fieldChars]
    cases s with
    | nil =>
      have h0 : m a = 0 := h
      rw [if_pos h0, List.take_nil]
    | cons c s => rw [if_neg (h.1 ▸ h.2.1), h.1, ih h.2.2, List.take_succ_cons]

theorem sub32_one {n : Nat} (h0 : n ≠ 0) (hn : n < 2 ^ 32) : sub32 n 1 = n - 1 := by
  rw [sub32]
  omega

/-- **One name.** -/
theorem storeName_stores {out src : Mem} {a name nameMax : Nat} {s : List Char8}
    (hs : CStr src name s) (h0 : nameMax ≠ 0) (hmax : nameMax < 2 ^ 32) :
    StoresName a nameMax s out (storeName out a src name nameMax) := by
  have hstr := strncpy_cstr out src (nameMax - 1) a name
  rw [fieldChars_take hs] at hstr
  rw [storeName, sub32_one h0 hmax]
  refine ⟨fun x hx => ?_, ⟨nameMax - 1, by omega, write8_self _ _ _⟩, hstr⟩
  rw [write8_ne _ _ (by omega)]
  exact (strncpy_holds out src (nameMax - 1) a name).2 x (by omega)

/-! ## The two drivers -/

theorem registered_terminated {registry : List DevfsEntry} (h : Registered registry) :
    ∀ entry ∈ registry, ∃ name, CStr entry.name 0 name := by
  induction h with
  | empty => exact fun entry hentry => nomatch hentry
  | register array name flags _ ih =>
    rw [devfsRegister]
    split
    · exact ih
    · intro entry hentry
      rcases List.mem_append.mp hentry with hold | hnew
      · exact ih entry hold
      · obtain rfl := List.mem_singleton.mp hnew
        exact ⟨_, strncpy_cstr array name 63 0 0⟩

theorem registered_length {registry : List DevfsEntry} (h : Registered registry) :
    registry.length ≤ DEVFS_MAX_DEVICES := by
  induction h with
  | empty => exact Nat.zero_le _
  | register array name flags _ ih =>
    rw [devfsRegister]
    split
    case isTrue => exact ih
    case isFalse hroom =>
      rw [List.length_append, List.length_singleton]
      omega

/-- The loop of devfs from some entry on, with `k` active ones before. -/
theorem devfsReaddirLoop_cases (index : Nat) (out : Mem) (a nameMax : Nat) {k : Nat}
    {registry : List DevfsEntry} (hk : k + registry.length < 2 ^ 32) :
    devfsReaddirLoop index out a nameMax registry k = (-1, out) ∨
      ∃ i entry, k + i = index ∧ (registry.filter DevfsEntry.active)[i]? = some entry ∧
        devfsReaddirLoop index out a nameMax registry k =
          (0, storeName out a entry.name 0 nameMax) := by
  induction registry generalizing k with
  | nil => exact Or.inl rfl
  | cons entry rest ih =>
    rw [List.length_cons] at hk
    rw [devfsReaddirLoop]
    by_cases hactive : entry.active
    · rw [if_neg (not_not.mpr hactive), List.filter_cons_of_pos hactive]
      split
      case isTrue hfound => exact Or.inr ⟨0, entry, hfound, rfl, rfl⟩
      case isFalse =>
        have hsucc : add32 k 1 = k + 1 := Nat.mod_eq_of_lt (by omega)
        rw [hsucc]
        refine (ih (by omega)).imp_right ?_
        rintro ⟨i, e, hi, he, hout⟩
        exact ⟨i + 1, e, by omega, he, hout⟩
    · rw [if_pos hactive, List.filter_cons_of_neg hactive]
      exact ih (by omega)

/-- A header with a name in the directory. -/
theorem readdirVisit_named {m : Mem} (stack out : Mem) {node : Initrd.Vnode}
    (index a nameMax k : Nat) {ptr : Nat} {c : List Char8}
    (h : nameIn (fieldChars node.path 0 255) (pathOf m ptr) = some c) :
    ∃ rest, CStr (headerPath m ptr stack) rest c ∧
      readdirVisit m stack node (strnlen node.path 0 255) index out a nameMax ptr k =
        some (if k = index then .leave (0, storeName out a (headerPath m ptr stack) rest nameMax)
          else .stay (add32 k 1)) := by
  obtain ⟨r, hr, hname⟩ := listed_header (m := m) stack node ptr
  rw [h] at hname
  obtain ⟨rest, rfl, hc⟩ := hname
  exact ⟨rest, hc, by rw [readdirVisit, hr]; rfl⟩

/-- The scan of `initrd_dir_readdir` counts the names. -/
theorem counts_of_reaches {initrd : InitrdT} {m stack out : Mem} {node : Initrd.Vnode}
    {index a nameMax : Nat} {t : Nat × Nat}
    (h : Reaches (readdirRound initrd m stack node index out a nameMax) (initrd.addr, 0) t) :
    Counts initrd m (fieldChars node.path 0 255) t.1 t.2 := by
  induction h with
  | refl => exact .first
  | @tail t u _ hstay ih =>
    obtain ⟨hgo, hnext, hvisit⟩ := scanRound_stays.mp hstay
    rw [hnext]
    cases hin : nameIn (fieldChars node.path 0 255) (pathOf m t.1) with
    | none =>
      rw [readdirVisit_other hin] at hvisit
      have hk : t.2 = u.2 := Round.stay.inj (Option.some.inj hvisit)
      exact hk ▸ .skip ih hgo hin
    | some c =>
      obtain ⟨rest, -, hnamed⟩ := readdirVisit_named stack out index a nameMax t.2 hin
      rw [hnamed] at hvisit
      split at hvisit
      case isTrue => cases hvisit
      case isFalse =>
        have hk : add32 t.2 1 = u.2 := Round.stay.inj (Option.some.inj hvisit)
        exact hk ▸ .name ih hgo hin

/-- **`initrd_dir_readdir`** stores the name with the index when it succeeds. -/
theorem initrdDirReaddir_cases {disk : Disk} {node : Initrd.Vnode} {index a nameMax : Nat}
    {out : Mem} {r : Int × Mem} (h : initrdDirReaddir disk.initrd disk.archive disk.stack node index
      out a nameMax = some r) :
    r = (-1, out) ∨ ∃ name src rest, EntryName disk (.initrd node) index name ∧
      CStr src rest name ∧ r = (0, storeName out a src rest nameMax) := by
  rw [initrdDirReaddir, readdirLoop_eq] at h
  obtain ⟨⟨ptr, k⟩, hreach, hleave⟩ := loop_eq_some.mp ⟨_, h⟩
  have hcount := counts_of_reaches hreach
  by_cases hends : Ends disk.initrd disk.archive ptr
  · rw [readdirRound, scanRound_ends _ _ hends] at hleave
    cases hleave
    exact Or.inl rfl
  · rw [readdirRound, scanRound_visits _ _ hends] at hleave
    cases hin : nameIn (fieldChars node.path 0 255) (pathOf disk.archive ptr) with
    | none =>
      rw [readdirVisit_other hin] at hleave
      cases hleave
    | some c =>
      obtain ⟨rest, hc, hnamed⟩ := readdirVisit_named disk.stack out index a nameMax k hin
      rw [hnamed] at hleave
      by_cases hk : k = index
      · rw [if_pos hk] at hleave
        cases hleave
        exact Or.inr ⟨c, _, rest, .initrd (hk ▸ hcount) hends hin, hc, rfl⟩
      · rw [if_neg hk] at hleave
        cases hleave

/-! ## The system call -/

section Call

variable {deviceOps : DevfsEntry → VnodeOps FsWorld} {s : VfsState FsWorld}

/-- The vnode behind a descriptor. -/
def vnodeAt (s : VfsState FsWorld) (fd : Int) : VnodeT :=
  s.world.vnode (s.files (getFile s fd)).vnode

/-- What a `readdir` of the vnode returns: -1, or 0 and the name of an entry. -/
def ReaddirReturns (w : FsWorld) (v : VnodeT) (index a nameMax : Nat) (r : Int × FsWorld) : Prop :=
  r.1 = -1 ∨ r.1 = 0 ∧ ∃ name src rest, EntryName w.disk v index name ∧ CStr src rest name ∧
    r.2.user = storeName w.user a src rest nameMax

theorem opReaddir_returns {v : VnodeT} {w : FsWorld}
    {op : FsWorld → Vfs.Ptr → Nat → Nat → Nat → Int × FsWorld} (hreg : Registered w.disk.registry)
    (hop : (fsOps deviceOps v).opReaddir = some op) (p : Vfs.Ptr) (index a nameMax : Nat) :
    ReaddirReturns w v index a nameMax (op w p index a nameMax) := by
  cases v with
  | initrd node =>
    obtain ⟨flags, size, ops, mounted, path⟩ := node
    cases ops with
    | initrdFileOps => cases hop
    | initrdDirOps =>
      obtain rfl : dirReaddir ⟨flags, size, .initrdDirOps, mounted, path⟩ = op :=
        Option.some.inj hop
      rw [dirReaddir]
      generalize hread : initrdDirReaddir w.disk.initrd w.disk.archive w.disk.stack
        ⟨flags, size, .initrdDirOps, mounted, path⟩ index w.user a nameMax = r
      cases r with
      | none => exact Or.inl rfl
      | some r =>
        rcases initrdDirReaddir_cases hread with rfl | ⟨name, src, rest, hname, hsrc, rfl⟩
        · exact Or.inl rfl
        · exact Or.inr ⟨rfl, name, src, rest, hname, hsrc, rfl⟩
  | devfsRoot =>
    obtain rfl : devfsReaddir = op := Option.some.inj hop
    rw [devfsReaddir, devfsRootReaddir]
    have hlen : 0 + w.disk.registry.length < 2 ^ 32 := by
      have hmax := registered_length hreg
      rw [DEVFS_MAX_DEVICES] at hmax
      omega
    rcases devfsReaddirLoop_cases index w.user a nameMax hlen with
      hret | ⟨i, entry, hi, hentry, hret⟩
    · rw [hret]
      exact Or.inl rfl
    · have hmem := List.mem_of_mem_filter (List.mem_of_getElem? hentry)
      obtain ⟨name, hname⟩ := registered_terminated hreg entry hmem
      rw [Nat.zero_add] at hi
      rw [hret]
      exact Or.inr ⟨rfl, name, entry.name, 0, .devfs (hi ▸ hentry) hname, hname, rfl⟩
  | device entry => cases hop

/-- `vfs_readdir` returns what the vnode does. -/
theorem vfsReaddir_returns (hreg : Registered s.world.disk.registry) (fd : Int)
    (index a nameMax : Nat) :
    ReaddirReturns s.world (vnodeAt s fd) index a nameMax
      ((vfsReaddir (fsDrivers deviceOps) s fd index a nameMax).1,
        (vfsReaddir (fsDrivers deviceOps) s fd index a nameMax).2.world) := by
  rw [vfsReaddir]
  rcases vfsQuery_cases _ s fd with hfail | ⟨hfile, op, hop⟩
  · rw [hfail]
    exact Or.inl rfl
  · rw [vfsQuery_open hfile hop]
    split at hop
    · cases hop
    obtain ⟨op', hop', rfl⟩ := Option.map_eq_some_iff.mp hop
    exact opReaddir_returns hreg hop' _ _ _ _

/-- **Names.**  A name is stored in `name_out` exactly when `name_max` is not 0. -/
theorem readdir_stores_iff (deviceOps : DevfsEntry → VnodeOps FsWorld) (s : VfsState FsWorld)
    (regs : ReaddirRegisters) (hmax : regs.ebp < 2 ^ 32)
    (hreg : Registered s.world.disk.registry) (haccept : valPtr regs.edx regs.ebp = true)
    (hsuccess : (sysReaddir (fsDrivers deviceOps) s regs).1 = 0) :
    (∃ name, EntryName s.world.disk (vnodeAt s (toInt32 regs.ebx)) regs.ecx name ∧
      StoresName regs.edx regs.ebp name s.world.user
        (sysReaddir (fsDrivers deviceOps) s regs).2.world.user) ↔ regs.ebp ≠ 0 := by
  constructor
  · rintro ⟨name, -, hstores⟩ h0
    obtain ⟨i, hi, -⟩ := hstores.terminated
    omega
  · intro h0
    rw [sysReaddir, haccept] at hsuccess ⊢
    simp only [Bool.not_true, Bool.false_eq_true, if_false] at hsuccess ⊢
    rcases vfsReaddir_returns hreg (toInt32 regs.ebx) regs.ecx regs.edx regs.ebp with
      hret | ⟨-, name, src, rest, hname, hsrc, hstored⟩
    · dsimp only at hret
      rw [hret] at hsuccess
      exact absurd hsuccess (by decide)
    · refine ⟨name, hname, ?_⟩
      rw [hstored]
      exact storeName_stores hsrc h0 hmax

end Call

/-- A registry with the device `tty`. -/
def ttyRegistry : List DevfsEntry :=
  (devfsRegister (fun _ => 0) [] (memOf 0 [0x74, 0x74, 0x79]) 4).2

/-- The root of devfs open as descriptor 0 of the kernel. -/
def devOpen : VfsState FsWorld where
  kernelFdTable i := if i = 0 then 100 else 0
  fds _ _ := 0
  currProcess := 0
  files _ := ⟨1, 0, 0, 1⟩
  live _ := true
  world := ⟨{ ttyDisk with registry := ttyRegistry }, [], fun _ => .devfsRoot, 2, fun _ => 0xff, false⟩

/-- The first name, stored in `name_max` bytes at 0x1000. -/
def readFirst (nameMax : Nat) : Nat × VfsState FsWorld :=
  sysReaddir (fsDrivers fun _ => {}) devOpen ⟨⟨0, 0, 0, 0x1000⟩, nameMax⟩

theorem readdir_four_bytes :
    (∃ name, EntryName devOpen.world.disk (vnodeAt devOpen (toInt32 0)) 0 name ∧
      StoresName 0x1000 4 name devOpen.world.user (readFirst 4).2.world.user) ↔ 4 ≠ 0 :=
  readdir_stores_iff (fun _ => {}) devOpen ⟨⟨0, 0, 0, 0x1000⟩, 4⟩ (by decide)
    (.register _ _ _ .empty) (by decide) (by decide +kernel)

/-- A `name_max` of 0 is accepted, and the NUL goes to `name_out[-1]`. -/
theorem readdir_no_bytes :
    valPtr 0x1000 0 = true ∧ (readFirst 0).1 = 0 ∧
      (readFirst 0).2.world.user (0x1000 + 0xffffffff) = 0 ∧
      devOpen.world.user (0x1000 + 0xffffffff) = 0xff ∧
      ¬ ∃ name, StoresName 0x1000 0 name devOpen.world.user (readFirst 0).2.world.user := by
  refine ⟨by decide, by decide +kernel, by decide +kernel, rfl, ?_⟩
  rintro ⟨name, hstores⟩
  obtain ⟨i, hi, -⟩ := hstores.terminated
  exact absurd hi (Nat.not_lt_zero i)

end FrogKernel.FileCalls
