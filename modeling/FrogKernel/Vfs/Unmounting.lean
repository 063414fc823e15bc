import FrogKernel.Initrd.Initrd
import FrogKernel.Vfs.FindMount
import FrogKernel.Vfs.Mounts

/-!
# Unmounting (`vfs/vfs.c`, `initrd/initrdfs.c`, `devfs/devfs.c`)

`vfs_unmount` with the descriptor tables that it looks at and the vnodes behind them.  Its
check for open files asks for a back pointer that no driver sets, so it never finds one;
and the devfs driver frees the root that it made last, whichever mount that belongs to.

Main result: `unmount_iff`.  `WellFormed.mount` and `WellFormed.unmount`: the states that it
is about stay such states.
-/

namespace FrogKernel.Unmounting

open FrogKernel.Bytes FrogKernel.CStrings FrogKernel.Mounts
open FrogKernel.Initrd (DIRTYPE)
open FrogKernel.Vfs (Ptr FsMount Nodes VfsState MAX_FDS VFS_FILE VFS_DIRECTORY VFS_MOUNTPT
  LongestPrefix FirstLongest findMount findMountLoop_cases vfsResolve resolveLoop covered tableOf
  strlen_name devTable devTable_mounted)

/-! ## Vnodes -/

/-- The fields of a `vnode_t` that say where it is mounted; `mount` is an index into the
mount table. -/
structure VnodeT where
  flags : Nat
  mount : Option Nat
  mountedHere : Option Ptr
  deriving DecidableEq

/-- `memset(node, 0, sizeof(vnode_t))` -/
def zeroVnode : VnodeT := ⟨0, none, none⟩

/-- `initrd_vnode_create` -/
def initrdVnode (typeflag : Char8) : VnodeT :=
  if typeflag = DIRTYPE then { zeroVnode with flags := VFS_DIRECTORY }
  else { zeroVnode with flags := VFS_FILE }

/-- `devfs_vnode_from_entry` -/
def devfsVnode (flags : Nat) : VnodeT := { zeroVnode with flags := flags }

/-- `devfs_mount` -/
def devfsRootVnode : VnodeT := { zeroVnode with flags := VFS_DIRECTORY }

/-- A vnode as one of the drivers has made it. -/
inductive Made : VnodeT → Prop where
  | initrd (typeflag : Char8) : Made (initrdVnode typeflag)
  | devfs (flags : Nat) : Made (devfsVnode flags)
  | devfsRoot : Made devfsRootVnode

/-- The mounts, and the vnodes in memory. -/
structure MountWorld where
  mounts : MountState
  vnode : Ptr → VnodeT

def MountWorld.table (w : MountWorld) : List (FsMount Ptr) :=
  w.mounts.mountTable.map MountT.toFsMount

section

variable (finddir : Ptr → Option (Mem → Option (Option Ptr)))

/-- What `vfs_resolve` sees of them; `finddir` is what the drivers find. -/
def MountWorld.nodes (w : MountWorld) : Nodes Ptr where
  flags p := (w.vnode p).flags
  mountedHere p := (w.vnode p).mountedHere
  finddir := finddir

/-! ## `vfs_unmount` -/

/-- The loop over the descriptors of the kernel. -/
def kernelBusy (s : VfsState MountWorld) (idx : Nat) : Bool :=
  (List.range MAX_FDS).any fun i =>
    let file := s.kernelFdTable i
    decide (file ≠ 0 ∧ (s.files file).vnode ≠ 0 ∧
      (s.world.vnode (s.files file).vnode).mount = some idx)

/-- `if (parent && parent->flags & VFS_MOUNTPT) parent->mounted_here = NULL` -/
def clearMountPoint (w : MountWorld) : Option Ptr → MountWorld
  | none => w
  | some parent =>
    let node := w.vnode parent
    if node.flags &&& VFS_MOUNTPT ≠ 0 then
      { w with vnode := Function.update w.vnode parent { node with mountedHere := none } }
    else w

/-- The `vfs_resolve` of `vfs_unmount`. -/
def unmountParent (w : MountWorld) (stack pm : Mem) (path idx : Nat) : Option (Option Ptr) :=
  if idx > 0 then vfsResolve (w.nodes finddir) w.table stack pm path else some none

/-- `vfs_unmount`; no result where `vfs_resolve` does not return. -/
def vfsUnmount (s : VfsState MountWorld) (stack pm : Mem) (path : Nat) :
    Option (Int × VfsState MountWorld) :=
  match unmountIdx s.world.mounts pm path with
  | none => some (-1, s)
  | some idx =>
    if kernelBusy s idx then some (-1, s)
    else
      (unmountParent finddir s.world stack pm path idx).map fun parent =>
        let w := clearMountPoint s.world parent
        match w.mounts.mountTable[idx]? with
        | none => (-1, s)
        | some mnt =>
          let mounts := mnt.driver.unmount w.mounts
          (0, { s with world := { w with
            mounts := { mounts with mountTable := mounts.mountTable.eraseIdx idx } } })

/-! ## What unmounting should do -/

/-- What `vfs_resolve` returns; nothing is known where the root that it starts from is not
allocated any more. -/
def resolution (w : MountWorld) (stack pm : Mem) (path : Nat) : Option (Option (Option Ptr)) :=
  match resolveRoot w.mounts pm path with
  | some (some root) =>
    if w.mounts.live root then some (vfsResolve (w.nodes finddir) w.table stack pm path) else none
  | _ => some (vfsResolve (w.nodes finddir) w.table stack pm path)

/-- The index of the mount with this path. -/
def mountAt (table : List MountT) (p : List Char8) : Option Nat :=
  table.findIdx? fun mnt => mnt.name = p

/-- The index of the mount that a path selects. -/
def selected (table : List (FsMount Ptr)) (q : List Char8) : Option Nat :=
  table.findIdx? fun mnt => mnt.name ≠ [] ∧ LongestPrefix table q mnt

/-- A file is open, in the kernel or in a process, whose vnode was resolved through the
mount `idx`; `via` says through which mount a vnode was resolved. -/
def OpenThrough (s : VfsState MountWorld) (via : Ptr → Option Nat) (idx : Nat) : Prop :=
  ∃ c i, i < MAX_FDS ∧ tableOf s c i ≠ 0 ∧ via (s.files (tableOf s c i)).vnode = some idx

/-- The mount `idx` is gone, and nothing else. -/
structure Unmounted (s s' : VfsState MountWorld) (stack : Mem) (idx : Nat) : Prop where
  table : s'.world.mounts.mountTable = s.world.mounts.mountTable.eraseIdx idx
  others : { s' with world := s.world } = s
  resolve : ∀ pm path q, CStr pm path q → selected s.world.table q ≠ some idx →
    resolution finddir s'.world stack pm path = resolution finddir s.world stack pm path

/-- The mount at `p` is kept while files are open on it, and removed otherwise. -/
def UnmountsRight (s : VfsState MountWorld) (via : Ptr → Option Nat) (stack pm : Mem) (path : Nat)
    (p : List Char8) : Prop :=
  match mountAt s.world.mounts.mountTable p with
  | none => vfsUnmount finddir s stack pm path = some (-1, s)
  | some idx =>
    (OpenThrough s via idx → vfsUnmount finddir s stack pm path = some (-1, s)) ∧
      (¬ OpenThrough s via idx → ∃ s', vfsUnmount finddir s stack pm path = some (0, s') ∧
        Unmounted finddir s s' stack idx)

/-- The mount is a devfs, and `devfs_root` is the root of another mount, which paths
select. -/
def FreesOther (w : MountWorld) (idx : Nat) : Prop :=
  ∃ mnt r, w.mounts.mountTable[idx]? = some mnt ∧ mnt.driver = .devfs ∧
    w.mounts.devfsRoot = some r ∧ w.mounts.live r = true ∧
    ∃ q j other, j ≠ idx ∧ selected w.table q = some j ∧ w.table[j]? = some other ∧
      other.root = some r

/-- A mount table with terminated paths and with roots that the drivers have made, and
open files of the kernel with vnodes that they have made. -/
structure WellFormed (s : VfsState MountWorld) : Prop where
  named : ∀ mnt ∈ s.world.table, CStr mnt.path 0 mnt.name
  short : ∀ mnt ∈ s.world.table, mnt.name.length < MAX_PATH
  roots : ∀ mnt ∈ s.world.table, ∀ r, mnt.root = some r →
    Made (s.world.vnode r) ∧ (s.world.vnode r).flags = VFS_DIRECTORY
  opened : ∀ i < MAX_FDS, s.kernelFdTable i ≠ 0 → (s.files (s.kernelFdTable i)).vnode ≠ 0 →
    Made (s.world.vnode (s.files (s.kernelFdTable i)).vnode)

end

/-! ## Vnodes of the drivers -/

theorem Made.mount {node : VnodeT} (h : Made node) : node.mount = none := by
  cases h with
  | initrd typeflag =>
    unfold initrdVnode
    split <;> rfl
  | devfs => rfl
  | devfsRoot => rfl

/-- No open file is ever seen on a mount. -/
theorem WellFormed.kernelBusy {s : VfsState MountWorld} (h : WellFormed s) (idx : Nat) :
    kernelBusy s idx = false := by
  refine List.any_eq_false.mpr fun i hi => ?_
  rw [decide_eq_true_eq]
  rintro ⟨hfile, hnode, hmount⟩
  rw [(h.opened i (List.mem_range.mp hi) hfile hnode).mount] at hmount
  cases hmount

/-- A directory is not a mount point. -/
theorem WellFormed.not_mountPoint {s : VfsState MountWorld} (h : WellFormed s) {mnt : FsMount Ptr}
    (hmnt : mnt ∈ s.world.table) {r : Ptr} (hroot : mnt.root = some r) :
    (s.world.vnode r).flags &&& VFS_MOUNTPT = 0 := by
  rw [(h.roots mnt hmnt r hroot).2]
  decide

/-! ## The mount that a path selects -/

section

variable {table xs ys : List (FsMount Ptr)} {mnt : FsMount Ptr} {pm : Mem} {q : List Char8}
  {path idx : Nat}

theorem selected_of_first (h : FirstLongest q xs mnt ys) :
    selected (xs ++ mnt :: ys) q = some xs.length := by
  have hmnt : mnt.name ≠ [] := List.ne_nil_of_length_pos h.nonempty
  have hnone : xs.findIdx? (fun m => m.name ≠ [] ∧ LongestPrefix (xs ++ mnt :: ys) q m) = none := by
    refine List.findIdx?_eq_none_iff.mpr fun m hm => decide_eq_false fun hand => ?_
    have hlt := h.before m hm hand.2.1
    have hle := hand.2.2 mnt (by simp) h.starts
    omega
  rw [selected, List.findIdx?_append, hnone, List.findIdx?_cons,
    if_pos (decide_eq_true ⟨hmnt, h.longest⟩)]
  simp

theorem first_of_selected (h : selected table q = some idx) :
    ∃ xs mnt ys, table = xs ++ mnt :: ys ∧ xs.length = idx ∧ FirstLongest q xs mnt ys := by
  obtain ⟨hlt, hmnt, hbefore⟩ := List.findIdx?_eq_some_iff_getElem.mp h
  obtain ⟨hne, hstarts, hmax⟩ := of_decide_eq_true hmnt
  refine ⟨table.take idx, table[idx], table.drop (idx + 1), ?_, ?_, hstarts,
    List.length_pos_of_ne_nil hne, fun m hm hm' => ?_,
    fun m hm hm' => hmax m (List.mem_of_mem_drop hm) hm'⟩
  · rw [List.getElem_cons_drop, List.take_append_drop]
  · exact List.length_take_of_le (Nat.le_of_lt hlt)
  · obtain ⟨k, hk, rfl⟩ := List.getElem_of_mem hm
    rw [List.length_take] at hk
    rw [List.getElem_take] at hm' ⊢
    by_contra hnot
    -- a mount as long as that would have been found before
    refine hbefore k (by omega) (decide_eq_true ⟨fun hnil => hnot ?_, hm', fun m hm hm' => ?_⟩)
    · rw [hnil]
      exact List.length_pos_of_ne_nil hne
    · have hle := hmax m hm hm'
      omega

/-- The path of a mount selects it if any path does. -/
theorem first_name (h : FirstLongest q xs mnt ys) : FirstLongest mnt.name xs mnt ys :=
  ⟨List.prefix_rfl, h.nonempty, fun m hm hm' => h.before m hm (hm'.trans h.starts),
    fun m hm hm' => h.after m hm (hm'.trans h.starts)⟩

/-- Without a mount, the paths that do not select it find the same mounts. -/
theorem findMount_eraseIdx (htable : ∀ m ∈ table, CStr m.path 0 m.name) (hpath : CStr pm path q)
    (hsel : selected table q ≠ some idx) :
    findMount (table.eraseIdx idx) pm path = findMount table pm path := by
  have herased : ∀ m ∈ table.eraseIdx idx, CStr m.path 0 m.name := fun m hm =>
    htable m (List.mem_of_mem_eraseIdx hm)
  rcases findMountLoop_cases hpath htable none 0 with
    ⟨hloop, hall⟩ | ⟨xs, mnt, ys, rfl, hloop, -, hfirst⟩
  · rcases findMountLoop_cases hpath herased none 0 with
      ⟨hloop', -⟩ | ⟨xs, mnt, ys, heq, -, hlt, hfirst⟩
    · rw [findMount, findMount, hloop, hloop']
    · have hmem : mnt ∈ table.eraseIdx idx := by simp [heq]
      have hle := hall mnt (List.mem_of_mem_eraseIdx hmem) hfirst.starts
      omega
  · rw [selected_of_first hfirst] at hsel
    obtain ⟨xs', ys', heq, hfirst'⟩ := hfirst.eraseIdx fun hlen => hsel (congrArg some hlen)
    rw [heq] at herased ⊢
    rw [hfirst'.findMount hpath herased, findMount, hloop]

end

theorem findIdx?_congr {α : Type} {p q : α → Bool} {l : List α} (h : ∀ x ∈ l, p x = q x) :
    l.findIdx? p = l.findIdx? q := by
  induction l with
  | nil => rfl
  | cons x l ih =>
    obtain ⟨hx, hl⟩ := List.forall_mem_cons.mp h
    rw [List.findIdx?_cons, List.findIdx?_cons, hx, ih hl]

/-! ## `vfs_unmount` on the mount that is found -/

/-- The state without the mount. -/
def unmounted (s : VfsState MountWorld) (idx : Nat) (mnt : MountT) : VfsState MountWorld :=
  { s with world := { s.world with
      mounts := { mnt.driver.unmount s.world.mounts with
        mountTable := s.world.mounts.mountTable.eraseIdx idx } } }

section

variable (finddir : Ptr → Option (Mem → Option (Option Ptr))) {s : VfsState MountWorld}
  (stack : Mem) {pm : Mem} {path : Nat} {p : List Char8}

theorem WellFormed.unmountIdx (h : WellFormed s) (hpath : CStr pm path p) :
    unmountIdx s.world.mounts pm path = mountAt s.world.mounts.mountTable p := by
  refine findIdx?_congr fun mnt hmem => ?_
  have hmem' : mnt.toFsMount ∈ s.world.table := List.mem_map_of_mem hmem
  rw [decide_eq_decide, strncmp_comm]
  exact strncmp_whole hpath (h.named _ hmem') (h.short _ hmem')

/-- The path of the mount resolves to a root, on which nothing is mounted. -/
theorem WellFormed.unmountParent (idx : Nat) (h : WellFormed s) (hpath : CStr pm path p)
    (hmnt : ∃ mnt ∈ s.world.table, mnt.name = p) :
    ∃ parent, unmountParent finddir s.world stack pm path idx = some parent ∧
      clearMountPoint s.world parent = s.world := by
  rw [Unmounting.unmountParent]
  split
  case isFalse => exact ⟨none, rfl, rfl⟩
  rw [vfsResolve]
  rcases findMountLoop_cases hpath h.named none 0 with
    ⟨hloop, -⟩ | ⟨xs, found, ys, heq, hloop, -, hfirst⟩
  · exact ⟨none, by rw [findMount, hloop]; rfl, rfl⟩
  rw [findMount, hloop, Option.bind_some]
  have hfound : found ∈ s.world.table := by rw [heq]; simp
  cases hroot : found.root with
  | none => exact ⟨none, by simp only [hroot], rfl⟩
  | some root =>
    -- the mount that is found has this path, so nothing is left of it
    have hname : found.name = p := by
      obtain ⟨mnt, hmem, hmnt⟩ := hmnt
      have hle := hfirst.longest.2 mnt (heq ▸ hmem) (hmnt ▸ List.prefix_rfl)
      rw [hmnt] at hle
      exact hfirst.starts.eq_of_length_le hle
    have hnul : pm (path + found.name.length) = 0 := by
      rw [hname]
      rw [← List.append_nil p] at hpath
      exact hpath.suffix
    have hflags := h.not_mountPoint hfound hroot
    obtain ⟨k, hk⟩ : ∃ k, ROUNDS = k + 1 := ⟨ROUNDS - 1, by decide⟩
    refine ⟨some root, ?_, ?_⟩
    · dsimp only
      rw [hroot]
      dsimp only
      rw [strlen_name (h.named found hfound), Option.bind_some, hk, resolveLoop, if_pos hnul]
      exact congrArg (fun r => some (some r)) (if_neg (not_not.mpr hflags))
    · rw [clearMountPoint]
      exact if_neg (not_not.mpr hflags)

/-- Whatever is open, the mount is removed. -/
theorem WellFormed.vfsUnmount {idx : Nat} (h : WellFormed s) (hpath : CStr pm path p)
    (hidx : mountAt s.world.mounts.mountTable p = some idx) :
    ∃ mnt, s.world.mounts.mountTable[idx]? = some mnt ∧
      vfsUnmount finddir s stack pm path = some (0, unmounted s idx mnt) := by
  obtain ⟨hlt, hname, -⟩ := List.findIdx?_eq_some_iff_getElem.mp hidx
  have hget := List.getElem?_eq_getElem hlt
  obtain ⟨parent, hparent, hclear⟩ :=
    h.unmountParent finddir stack idx hpath
      ⟨_, List.mem_map_of_mem (List.getElem_mem hlt), of_decide_eq_true hname⟩
  refine ⟨_, hget, ?_⟩
  have hfound := h.unmountIdx hpath
  rw [hidx] at hfound
  simp only [Unmounting.vfsUnmount, hfound, h.kernelBusy, hparent, hclear, hget, Option.map_some,
    unmount_table, unmounted, Bool.false_eq_true, if_false]

theorem WellFormed.vfsUnmount_none (h : WellFormed s) (hpath : CStr pm path p)
    (hidx : mountAt s.world.mounts.mountTable p = none) :
    Unmounting.vfsUnmount finddir s stack pm path = some (-1, s) := by
  rw [Unmounting.vfsUnmount, h.unmountIdx hpath, hidx]

/-! ## What else resolves -/

theorem resolveRoot_found {w : MountWorld} {best : Option (FsMount Ptr)}
    (h : findMount w.table pm path = some best) :
    resolveRoot w.mounts pm path = some (best.bind FsMount.root) :=
  congrArg (Option.map fun best : Option (FsMount Ptr) => best.bind FsMount.root) h

theorem findMount_unmounted {idx : Nat} (h : WellFormed s) (hpath : CStr pm path p)
    (hsel : selected s.world.table p ≠ some idx) (mnt : MountT) :
    findMount (unmounted s idx mnt).world.table pm path = findMount s.world.table pm path := by
  have hmap : (unmounted s idx mnt).world.table = s.world.table.eraseIdx idx :=
    (List.eraseIdx_map ..).symm
  rw [hmap]
  exact findMount_eraseIdx h.named hpath hsel

/-- It depends on the root only. -/
theorem resolution_unmounted {idx : Nat} (h : WellFormed s) (hpath : CStr pm path p)
    (hsel : selected s.world.table p ≠ some idx) (mnt : MountT) :
    resolution finddir (unmounted s idx mnt).world stack pm path =
      match resolveRoot s.world.mounts pm path with
      | some (some root) =>
        if (mnt.driver.unmount s.world.mounts).live root then
          some (vfsResolve (s.world.nodes finddir) s.world.table stack pm path)
        else none
      | _ => some (vfsResolve (s.world.nodes finddir) s.world.table stack pm path) := by
  have hfind := findMount_unmounted h hpath hsel mnt
  have hroot : resolveRoot (unmounted s idx mnt).world.mounts pm path =
      resolveRoot s.world.mounts pm path :=
    congrArg (Option.map fun best : Option (FsMount Ptr) => best.bind FsMount.root) hfind
  rw [resolution, hroot, vfsResolve, hfind]
  rfl

/-- The root that is freed, if one is. -/
theorem unmount_live (w : MountState) (driver : FsDriver) {r : Ptr}
    (h : driver = .devfs → w.devfsRoot = some r → w.live r = false) :
    (driver.unmount w).live r = w.live r := by
  cases driver with
  | initrd => rfl
  | devfs =>
    change (kfree w w.devfsRoot).live r = w.live r
    cases hdevfs : w.devfsRoot with
    | none => rfl
    | some x =>
      simp only [kfree, Function.update_apply]
      split
      case isTrue hx => rw [h rfl (hx ▸ hdevfs)]
      case isFalse => rfl

theorem unmount_freed (w : MountState) {r : Ptr} (h : w.devfsRoot = some r) :
    (FsDriver.devfs.unmount w).live r = false := by
  change (kfree w w.devfsRoot).live r = false
  rw [h]
  exact Function.update_self ..

/-- Nothing else changes, if no other root is freed. -/
theorem WellFormed.unmounted_of_own {idx : Nat} (h : WellFormed s) {mnt : MountT}
    (hget : s.world.mounts.mountTable[idx]? = some mnt) (hown : ¬ FreesOther s.world idx) :
    Unmounted finddir s (unmounted s idx mnt) stack idx := by
  refine ⟨rfl, rfl, fun pm path q hpath hsel => ?_⟩
  rw [resolution_unmounted finddir stack h hpath hsel, resolution]
  rcases findMountLoop_cases hpath h.named none 0 with
    ⟨hloop, -⟩ | ⟨xs, found, ys, heq, hloop, -, hfirst⟩
  · rw [resolveRoot_found hloop]
    rfl
  rw [resolveRoot_found hloop, Option.bind_some]
  cases hr : found.root with
  | none => rfl
  | some r =>
    have hlive : (mnt.driver.unmount s.world.mounts).live r = s.world.mounts.live r := by
      refine unmount_live _ _ fun hdriver hdevfs => Bool.eq_false_iff.mpr fun hlive => hown ?_
      have hsome := selected_of_first hfirst
      rw [← heq] at hsome
      refine ⟨mnt, r, hget, hdriver, hdevfs, hlive, q, xs.length, found, ?_, hsome, ?_, hr⟩
      · rintro rfl
        exact hsel hsome
      · rw [heq, List.getElem?_append_right (Nat.le_refl _), Nat.sub_self, List.getElem?_cons_zero]
    simp only [hlive]

/-- Something else changes, if another root is freed. -/
theorem WellFormed.not_unmounted {idx : Nat} (h : WellFormed s) {mnt : MountT}
    (hget : s.world.mounts.mountTable[idx]? = some mnt) (hother : FreesOther s.world idx) :
    ¬ Unmounted finddir s (unmounted s idx mnt) stack idx := by
  intro hgone
  obtain ⟨mnt', r, hget', hdriver, hdevfs, hlive, q, j, other, hne, hsel, hj, hroot⟩ := hother
  obtain rfl := Option.some.inj (hget.symm.trans hget')
  obtain ⟨xs, found, ys, heq, rfl, hfirst⟩ := first_of_selected hsel
  obtain rfl : found = other := by
    rw [heq, List.getElem?_append_right (Nat.le_refl _), Nat.sub_self,
      List.getElem?_cons_zero] at hj
    exact Option.some.inj hj
  -- the path of the other mount
  have hname := first_name hfirst
  have hpath : CStr found.path 0 found.name := h.named found (by rw [heq]; simp)
  have hsel' : selected s.world.table found.name ≠ some idx := by
    rw [heq, selected_of_first hname]
    exact fun hlen => hne (Option.some.inj hlen)
  have hsame := hgone.resolve _ _ _ hpath hsel'
  have hfind : findMount s.world.table found.path 0 = some (some found) := by
    have hnamed := h.named
    rw [heq] at hnamed ⊢
    exact hname.findMount hpath hnamed
  have hroot' : resolveRoot s.world.mounts found.path 0 = some (some r) := by
    rw [resolveRoot_found hfind, Option.bind_some, hroot]
  rw [resolution_unmounted finddir stack h hpath hsel', resolution, hroot', hdriver] at hsame
  simp only [unmount_freed _ hdevfs, hlive, Bool.false_eq_true, if_false, if_true] at hsame
  cases hsame

end

/-- **Unmounting.**  `vfs_unmount` keeps a mount with open files and otherwise removes that
mount and nothing else exactly when no file is open on the mount, and `devfs_root`, if it is
freed, is not the root of another mount that paths select. -/
theorem unmount_iff {finddir : Ptr → Option (Mem → Option (Option Ptr))} {s : VfsState MountWorld}
    {pm : Mem} {path : Nat} {p : List Char8} (via : Ptr → Option Nat) (stack : Mem)
    (h : WellFormed s) (hpath : CStr pm path p) :
    UnmountsRight finddir s via stack pm path p ↔
      ∀ idx, mountAt s.world.mounts.mountTable p = some idx →
        ¬ OpenThrough s via idx ∧ ¬ FreesOther s.world idx := by
  rw [UnmountsRight]
  cases hidx : mountAt s.world.mounts.mountTable p with
  | none => exact iff_of_true (h.vfsUnmount_none finddir stack hpath hidx) (by rintro _ ⟨⟩)
  | some idx =>
    obtain ⟨mnt, hget, hresult⟩ := h.vfsUnmount finddir stack hpath hidx
    constructor
    · rintro ⟨hbusy, hgone⟩ _ ⟨⟩
      have hclosed : ¬ OpenThrough s via idx := by
        intro hopen
        have hkept : (0 : Int) = -1 :=
          congrArg Prod.fst (Option.some.inj (hresult.symm.trans (hbusy hopen)))
        exact absurd hkept (by decide)
      refine ⟨hclosed, fun hother => ?_⟩
      obtain ⟨s', hs', hunmounted⟩ := hgone hclosed
      obtain rfl := (Prod.ext_iff.mp (Option.some.inj (hresult.symm.trans hs'))).2
      exact h.not_unmounted finddir stack hget hother hunmounted
    · intro hall
      obtain ⟨hclosed, hown⟩ := hall idx rfl
      exact ⟨fun hopen => absurd hopen hclosed, fun _ =>
        ⟨_, hresult, h.unmounted_of_own finddir stack hget hown⟩⟩

/-! ## Well-formed states -/

section

variable {s : VfsState MountWorld}

/-- `vfs_unmount` keeps them so. -/
theorem WellFormed.unmount (h : WellFormed s) (idx : Nat) (mnt : MountT) :
    WellFormed (unmounted s idx mnt) := by
  have hmem : ∀ m ∈ (unmounted s idx mnt).world.table, m ∈ s.world.table := by
    intro m hm
    obtain ⟨m', hm', rfl⟩ := List.mem_map.mp hm
    exact List.mem_map_of_mem (List.mem_of_mem_eraseIdx hm')
  exact ⟨fun m hm => h.named m (hmem m hm), fun m hm => h.short m (hmem m hm),
    fun m hm => h.roots m (hmem m hm), h.opened⟩

/-- The root as the driver makes it. -/
def rootVnode : FsDriver → VnodeT
  | .initrd => initrdVnode DIRTYPE
  | .devfs => devfsRootVnode

/-- A vnode that is in use. -/
def InUse (s : VfsState MountWorld) (r : Ptr) : Prop :=
  (∃ mnt ∈ s.world.table, mnt.root = some r) ∨
    ∃ i < MAX_FDS, s.kernelFdTable i ≠ 0 ∧ (s.files (s.kernelFdTable i)).vnode = r

/-- `vfs_mount`, where `kmalloc` returns `node` for the root. -/
def mounted (s : VfsState MountWorld) (pm : Mem) (path : Nat) (driver : FsDriver) (node : Ptr)
    (priv : Option Ptr) : VfsState MountWorld :=
  { s with world :=
      { mounts := (vfsMount s.world.mounts pm path driver (some node) priv).2
        vnode := Function.update s.world.vnode node (rootVnode driver) } }

theorem vfsMount_table (w : MountState) (pm : Mem) (path : Nat) (driver : FsDriver) (node : Ptr)
    (priv : Option Ptr) :
    (vfsMount w pm path driver (some node) priv).2.mountTable = w.mountTable ∨
      (vfsMount w pm path driver (some node) priv).2.mountTable = w.mountTable ++
        [⟨⟨strncpy (fun _ => 0) 0 pm path (MAX_PATH - 1), some node⟩, driver⟩] := by
  unfold vfsMount
  split
  · exact .inl rfl
  cases driver with
  | initrd =>
    cases priv with
    | none => exact .inl rfl
    | some priv => exact .inr rfl
  | devfs => exact .inr rfl

/-- The path that `vfs_mount` stores: `strncpy` leaves the last byte as it was. -/
theorem mntPath_cstr (pm : Mem) (path : Nat) :
    CStr (strncpy (fun _ => 0) 0 pm path (MAX_PATH - 1)) 0 (fieldChars pm path (MAX_PATH - 1)) := by
  have hcopy := strncpy_cstr (fun _ => 0) pm (MAX_PATH - 1) 0 path
  have hlast : write8 (strncpy (fun _ => 0) 0 pm path (MAX_PATH - 1)) (0 + (MAX_PATH - 1)) 0 =
      strncpy (fun _ => 0) 0 pm path (MAX_PATH - 1) := by
    have hkeep := (strncpy_holds (fun _ => 0) pm (MAX_PATH - 1) 0 path).2 (0 + (MAX_PATH - 1))
      (.inr (Nat.le_refl _))
    funext x
    rw [write8]
    split
    case isTrue hx => rw [hx, hkeep]; rfl
    case isFalse => rfl
  rwa [hlast] at hcopy

/-- `vfs_mount` keeps them so. -/
theorem WellFormed.mount (h : WellFormed s) (pm : Mem) (path : Nat) (driver : FsDriver) {node : Ptr}
    (priv : Option Ptr) (hfresh : ¬ InUse s node) :
    WellFormed (mounted s pm path driver node priv) := by
  have hother : ∀ {r}, InUse s r → (mounted s pm path driver node priv).world.vnode r =
      s.world.vnode r := by
    intro r hr
    refine Function.update_of_ne ?_ _ _
    rintro rfl
    exact hfresh hr
  have hmem : ∀ m ∈ (mounted s pm path driver node priv).world.table, m ∈ s.world.table ∨
      m = ⟨strncpy (fun _ => 0) 0 pm path (MAX_PATH - 1), some node⟩ := by
    intro m hm
    obtain ⟨m', hm', rfl⟩ := List.mem_map.mp hm
    rcases vfsMount_table s.world.mounts pm path driver node priv with heq | heq
    · exact .inl (List.mem_map_of_mem (heq ▸ hm'))
    · rcases List.mem_append.mp (heq ▸ hm' : m' ∈ _) with hm' | hm'
      · exact .inl (List.mem_map_of_mem hm')
      · exact .inr (congrArg MountT.toFsMount (List.mem_singleton.mp hm'))
  have hname : fieldChars (strncpy (fun _ => 0) 0 pm path (MAX_PATH - 1)) 0 Vfs.MAX_PATH =
      fieldChars pm path (MAX_PATH - 1) :=
    fieldChars_cstr (mntPath_cstr pm path) ((fieldChars_length_le ..).trans (by decide))
  refine ⟨fun m hm => ?_, fun m hm => ?_, fun m hm r hroot => ?_, fun i hi hfile hnode => ?_⟩
  · rcases hmem m hm with hm | rfl
    · exact h.named m hm
    · rw [FsMount.name, hname]
      exact mntPath_cstr pm path
  · rcases hmem m hm with hm | rfl
    · exact h.short m hm
    · rw [FsMount.name, hname]
      exact Nat.lt_of_le_of_lt (fieldChars_length_le ..) (by decide)
  · rcases hmem m hm with hm | rfl
    · rw [hother (.inl ⟨m, hm, hroot⟩)]
      exact h.roots m hm r hroot
    · obtain rfl := Option.some.inj hroot
      have hself : (mounted s pm path driver node priv).world.vnode node = rootVnode driver :=
        Function.update_self ..
      rw [hself]
      cases driver with
      | initrd => exact ⟨.initrd DIRTYPE, rfl⟩
      | devfs => exact ⟨.devfsRoot, rfl⟩
  · have hsame := hother (.inr ⟨i, hi, hfile, rfl⟩)
    exact hsame.symm ▸ h.opened i hi hfile hnode

end

/-- The initrd at `/` and a devfs at `/dev`. -/
def bootWorld : MountWorld where
  mounts :=
    { mountTable := [⟨⟨memOf 0 [SLASH, 0], some 1⟩, .initrd⟩,
        ⟨⟨memOf 0 [SLASH, 0x64, 0x65, 0x76, 0], some 2⟩, .devfs⟩]
      devfsRoot := some 2
      live := fun _ => true }
  vnode r := if r = 1 then initrdVnode DIRTYPE else if r = 2 then devfsRootVnode else devfsVnode 4

/-- The kernel has a device open, or nothing. -/
def bootState (file : Ptr) : VfsState MountWorld where
  kernelFdTable i := if i = 0 then file else 0
  fds _ _ := 0
  currProcess := 0
  files _ := ⟨3, 0, 0, 1⟩
  live _ := true
  world := bootWorld

theorem bootState_wellFormed (file : Ptr) : WellFormed (bootState file) := by
  refine ⟨fun mnt hmem => (devTable_mounted mnt hmem).cstr, ?_, ?_, ?_⟩
  · change ∀ mnt ∈ devTable, mnt.name.length < MAX_PATH
    decide +kernel
  · rintro mnt hmem r hroot
    rcases List.mem_cons.mp hmem with rfl | hmem
    · obtain rfl := Option.some.inj hroot
      exact ⟨.initrd DIRTYPE, rfl⟩
    · obtain rfl := List.mem_singleton.mp hmem
      obtain rfl := Option.some.inj hroot
      exact ⟨.devfsRoot, rfl⟩
  · intro i _ _ _
    exact .devfs 4

/-- `/dev` -/
def devPath : List Char8 := [SLASH, 0x64, 0x65, 0x76]

theorem devPath_cstr : CStr (memOf 0 devPath) 0 devPath :=
  memOf_cstr 0 (by decide)

theorem devPath_mountAt : mountAt bootWorld.mounts.mountTable devPath = some 1 := by
  decide +kernel

/-- Only the initrd is left, and the other paths resolve as before. -/
theorem dev_unmounted : UnmountsRight (fun _ => none) (bootState 0) (fun _ => none) (fun _ => 0)
    (memOf 0 devPath) 0 devPath := by
  refine (unmount_iff (fun _ => none) (fun _ => 0) (bootState_wellFormed 0) devPath_cstr).mpr ?_
  intro idx hidx
  obtain rfl := Option.some.inj (devPath_mountAt.symm.trans hidx)
  refine ⟨fun hopen => ?_, fun hother => ?_⟩
  · obtain ⟨c, i, -, -, hvia⟩ := hopen
    cases hvia
  · obtain ⟨mnt, r, hget, -, hdevfs, -, q, j, other, hne, -, hj, hroot⟩ := hother
    obtain rfl := Option.some.inj hdevfs
    rcases j with _ | _ | j
    · obtain rfl := Option.some.inj hj
      cases hroot
    · exact hne rfl
    · cases hj

/-- `/dev` is unmounted while one of its devices is open. -/
theorem dev_unmounted_busy :
    WellFormed (bootState 0x300) ∧ CStr (memOf 0 devPath) 0 devPath ∧
      ¬ UnmountsRight (fun _ => none) (bootState 0x300)
        (fun r => if r = 3 then some 1 else none) (fun _ => 0) (memOf 0 devPath) 0 devPath := by
  refine ⟨bootState_wellFormed _, devPath_cstr, fun hright => ?_⟩
  have hidx : mountAt (bootState 0x300).world.mounts.mountTable devPath = some 1 := devPath_mountAt
  rw [UnmountsRight, hidx] at hright
  have hkept := hright.1 ⟨0, 0, by decide, by decide, by decide⟩
  obtain ⟨mnt, -, hresult⟩ := (bootState_wellFormed 0x300).vfsUnmount (fun _ => none) (fun _ => 0)
    devPath_cstr hidx
  have hzero : (0 : Int) = -1 := congrArg Prod.fst (Option.some.inj (hresult.symm.trans hkept))
  exact absurd hzero (by decide)

end FrogKernel.Unmounting
