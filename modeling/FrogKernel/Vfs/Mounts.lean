import FrogKernel.Lib.Runs
import FrogKernel.Vfs.Resolve

/-!
# The mount table (`vfs/vfs.c`, `devfs/devfs.c`, `initrd/initrdfs.c`)

`vfs_mount` and `vfs_unmount` with the two drivers.  The initrd driver makes a
root for each mount and never frees one.  The devfs driver keeps the root it
made last in a static variable, and that is the one it frees.

`roots_safe_iff`: the roots in the table stay allocated exactly as long as each
unmount of a devfs finds its own root in that variable.
-/

namespace FrogKernel.Mounts

open FrogKernel.Bytes FrogKernel.CStrings FrogKernel.Runs
open FrogKernel.Vfs (Ptr FsMount findMount findMountLoop_some)

def MAX_MOUNTS : Nat := 64
def MAX_PATH : Nat := 256

/-- `fs_driver_t` -/
inductive FsDriver where
  | initrd
  | devfs
  deriving DecidableEq

/-- `fs_mount_t` -/
structure MountT extends FsMount Ptr where
  driver : FsDriver

/-- The first `mount_count` entries of `mount_table`, `devfs_root`, and which
addresses are allocated. -/
structure MountState where
  mountTable : List MountT
  devfsRoot : Option Ptr
  live : Ptr → Bool

/-- `kmalloc`, with what it returns. -/
def kmalloc (s : MountState) (r : Option Ptr) : MountState :=
  match r with
  | none => s
  | some p => { s with live := Function.update s.live p true }

def kfree (s : MountState) (r : Option Ptr) : MountState :=
  match r with
  | none => s
  | some p => { s with live := Function.update s.live p false }

/-! ## The drivers -/

/-- `initrd_vnode_create` of a directory: the vnode, and the memory for its path. -/
def initrdVnodeCreate (s : MountState) (node priv : Option Ptr) : Option Ptr × MountState :=
  if node = none then (none, s)
  else
    let s := kmalloc s node
    if priv = none then (none, kfree s node) else (node, kmalloc s priv)

def devfsMount (s : MountState) (node : Option Ptr) : Int × MountState :=
  let s := { kmalloc s node with devfsRoot := node }
  if s.devfsRoot = none then (-1, s) else (0, s)

def devfsUnmount (s : MountState) : MountState :=
  { kfree s s.devfsRoot with devfsRoot := none }

/-- `driver->mount` -/
def FsDriver.mount (s : MountState) (node : Option Ptr) : FsDriver → Int × MountState
  | .initrd => (0, s)
  | .devfs => devfsMount s node

/-- `driver->get_root` -/
def FsDriver.getRoot (s : MountState) (node priv : Option Ptr) : FsDriver → Option Ptr × MountState
  | .initrd => initrdVnodeCreate s node priv
  | .devfs => (s.devfsRoot, s)

/-- `driver->unmount` -/
def FsDriver.unmount (s : MountState) : FsDriver → MountState
  | .initrd => s
  | .devfs => devfsUnmount s

/-! ## `vfs_mount` and `vfs_unmount` -/

/-- `vfs_mount`; `kmalloc` returns `node`, and `priv` when it is called again. -/
def vfsMount (s : MountState) (pm : Mem) (path : Nat) (driver : FsDriver) (node priv : Option Ptr) :
    Int × MountState :=
  if s.mountTable.length ≥ MAX_MOUNTS then (-1, s)
  else
    let mntPath := strncpy (fun _ => 0) 0 pm path (MAX_PATH - 1)
    let r := driver.mount s node
    if r.1 < 0 then (-1, r.2)
    else
      let g := driver.getRoot r.2 node priv
      if g.1 = none then (-1, g.2)
      else
        let mnt := { path := mntPath, root := g.1, driver }
        (0, { g.2 with mountTable := g.2.mountTable ++ [mnt] })

/-- The index that `vfs_unmount` finds. -/
def unmountIdx (s : MountState) (pm : Mem) (path : Nat) : Option Nat :=
  s.mountTable.findIdx? fun mnt => strncmp mnt.path 0 pm path MAX_PATH = 0

/-- `vfs_unmount`.  `busy` says that a descriptor of the kernel is open on the mount,
and `walked` are the vnodes that `finddir` makes in `vfs_resolve`; no vnode has
anything mounted on it. -/
def vfsUnmount (s : MountState) (pm : Mem) (path : Nat) (busy : Bool) (walked : List Ptr) :
    Int × MountState :=
  match unmountIdx s pm path with
  | none => (-1, s)
  | some idx =>
    if busy then (-1, s)
    else
      let s := if idx > 0 then walked.foldl (fun s p => kmalloc s (some p)) s else s
      match s.mountTable[idx]? with
      | none => (-1, s)
      | some mnt =>
        let s := mnt.driver.unmount s
        (0, { s with mountTable := s.mountTable.eraseIdx idx })

inductive MountEvent where
  | mount (pm : Mem) (path : Nat) (driver : FsDriver) (node priv : Option Ptr)
  | unmount (pm : Mem) (path : Nat) (busy : Bool) (walked : List Ptr)

/-- A call; `kmalloc` returns memory that is not allocated. -/
inductive MountStep : MountState → MountEvent → MountState → Prop
  | mount {s : MountState} (pm : Mem) (path : Nat) (driver : FsDriver) {node priv : Option Ptr} :
      (∀ p ∈ node, s.live p = false) → (∀ p ∈ priv, s.live p = false ∧ node ≠ some p) →
      MountStep s (.mount pm path driver node priv) (vfsMount s pm path driver node priv).2
  | unmount {s : MountState} (pm : Mem) (path : Nat) (busy : Bool) {walked : List Ptr} :
      (∀ p ∈ walked, s.live p = false) →
      MountStep s (.unmount pm path busy walked) (vfsUnmount s pm path busy walked).2

/-! ## What must hold -/

/-- The root that `vfs_resolve` starts from. -/
def resolveRoot (s : MountState) (pm : Mem) (path : Nat) : Option (Option Ptr) :=
  (findMount (s.mountTable.map MountT.toFsMount) pm path).map fun mnt => mnt.bind FsMount.root

/-- Every root in the table is allocated, and so is every root that `vfs_resolve`
dereferences. -/
structure RootsSafe (s : MountState) : Prop where
  table : ∀ mnt ∈ s.mountTable, ∃ r, mnt.root = some r ∧ s.live r = true
  resolve : ∀ pm path r, resolveRoot s pm path = some (some r) → s.live r = true

/-- An unmount of a devfs finds its own root in `devfs_root`, or nothing. -/
def FreesOwn (s : MountState) : MountEvent → Prop
  | .mount .. => True
  | .unmount pm path busy _ => busy = false → ∀ idx mnt, unmountIdx s pm path = some idx →
    s.mountTable[idx]? = some mnt → mnt.driver = .devfs →
      s.devfsRoot = none ∨ s.devfsRoot = mnt.root

/-- The invariant: all roots are allocated and different, and `devfs_root` is
that of a mounted devfs. -/
structure MountInv (s : MountState) : Prop where
  table : ∀ mnt ∈ s.mountTable, ∃ r, mnt.root = some r ∧ s.live r = true
  nodup : (s.mountTable.map fun mnt => mnt.root).Nodup
  devfs : ∀ r, s.devfsRoot = some r → ∃ mnt ∈ s.mountTable, mnt.driver = .devfs ∧ mnt.root = some r

/-! ## Lookup -/

/-- `vfs_resolve` starts from the root of a mount in the table. -/
theorem resolveRoot_mem {s : MountState} {pm : Mem} {path : Nat} {r : Ptr}
    (h : resolveRoot s pm path = some (some r)) : ∃ mnt ∈ s.mountTable, mnt.root = some r := by
  obtain ⟨best, hbest, h⟩ := Option.map_eq_some_iff.mp h
  obtain ⟨mnt, rfl, hroot⟩ := Option.bind_eq_some_iff.mp h
  obtain ⟨hmem, -⟩ := (findMountLoop_some hbest).resolve_left (by simp)
  obtain ⟨m, hm, rfl⟩ := List.mem_map.mp hmem
  exact ⟨m, hm, hroot⟩

theorem MountInv.rootsSafe {s : MountState} (h : MountInv s) : RootsSafe s where
  table := h.table
  resolve pm path r hr := by
    obtain ⟨mnt, hmem, hroot⟩ := resolveRoot_mem hr
    obtain ⟨r', hr', hlive⟩ := h.table mnt hmem
    rw [hroot] at hr'
    rwa [Option.some.inj hr']

/-! ## The heap -/

theorem kmalloc_live {s : MountState} {r : Option Ptr} {x : Ptr} (h : s.live x = true) :
    (kmalloc s r).live x = true := by
  cases r with
  | none => exact h
  | some p =>
    simp only [kmalloc, Function.update_apply]
    split
    · rfl
    · exact h

theorem kmalloc_self (s : MountState) (p : Ptr) : (kmalloc s (some p)).live p = true :=
  Function.update_self ..

theorem kfree_live {s : MountState} {r : Option Ptr} {x : Ptr} (h : s.live x = true)
    (hne : r ≠ some x) : (kfree s r).live x = true := by
  cases r with
  | none => exact h
  | some p =>
    have hx : x ≠ p := fun heq => hne (heq ▸ rfl)
    simp only [kfree, Function.update_apply, if_neg hx]
    exact h

@[simp] theorem kmalloc_table (s : MountState) (r : Option Ptr) :
    (kmalloc s r).mountTable = s.mountTable := by
  cases r <;> rfl

@[simp] theorem kmalloc_devfsRoot (s : MountState) (r : Option Ptr) :
    (kmalloc s r).devfsRoot = s.devfsRoot := by
  cases r <;> rfl

@[simp] theorem kfree_table (s : MountState) (r : Option Ptr) :
    (kfree s r).mountTable = s.mountTable := by
  cases r <;> rfl

@[simp] theorem kfree_devfsRoot (s : MountState) (r : Option Ptr) :
    (kfree s r).devfsRoot = s.devfsRoot := by
  cases r <;> rfl

/-- More memory may be allocated. -/
theorem MountInv.mono {s s' : MountState} (h : MountInv s) (htable : s'.mountTable = s.mountTable)
    (hdevfs : s'.devfsRoot = none ∨ s'.devfsRoot = s.devfsRoot)
    (hlive : ∀ mnt ∈ s.mountTable, ∀ r, mnt.root = some r → s.live r = true → s'.live r = true) :
    MountInv s' := by
  refine ⟨fun mnt hmem => ?_, by rw [htable]; exact h.nodup, fun r hr => ?_⟩
  · rw [htable] at hmem
    obtain ⟨r, hroot, hr⟩ := h.table mnt hmem
    exact ⟨r, hroot, hlive mnt hmem r hroot hr⟩
  · rw [htable]
    rcases hdevfs with hnone | heq
    · rw [hnone] at hr
      cases hr
    · exact h.devfs r (heq ▸ hr)

theorem mountInv_walked {s : MountState} (h : MountInv s) (walked : List Ptr) :
    MountInv (walked.foldl (fun s p => kmalloc s (some p)) s) := by
  induction walked generalizing s with
  | nil => exact h
  | cons p walked ih =>
    exact ih (h.mono (kmalloc_table _ _) (.inr (kmalloc_devfsRoot _ _))
      fun _ _ _ _ hlive => kmalloc_live hlive)

theorem walked_same (s : MountState) (walked : List Ptr) :
    (walked.foldl (fun s p => kmalloc s (some p)) s).mountTable = s.mountTable ∧
      (walked.foldl (fun s p => kmalloc s (some p)) s).devfsRoot = s.devfsRoot := by
  induction walked generalizing s with
  | nil => exact ⟨rfl, rfl⟩
  | cons p walked ih =>
    rw [List.foldl_cons, (ih _).1, (ih _).2, kmalloc_table, kmalloc_devfsRoot]
    exact ⟨rfl, rfl⟩

/-! ## Mounting -/

/-- A root that was not allocated before. -/
theorem MountInv.snoc {s s' : MountState} (h : MountInv s) {mnt : MountT} {r : Ptr}
    (hfresh : s.live r = false) (htable : s'.mountTable = s.mountTable ++ [mnt])
    (hroot : mnt.root = some r) (hlive : s'.live r = true)
    (hkeep : ∀ x, s.live x = true → s'.live x = true)
    (hdevfs : s'.devfsRoot = s.devfsRoot ∨ s'.devfsRoot = some r ∧ mnt.driver = .devfs) :
    MountInv s' := by
  refine ⟨fun m hm => ?_, ?_, fun x hx => ?_⟩
  · rw [htable] at hm
    rcases List.mem_append.mp hm with hm | hm
    · obtain ⟨x, hroot', hx⟩ := h.table m hm
      exact ⟨x, hroot', hkeep x hx⟩
    · obtain rfl := List.mem_singleton.mp hm
      exact ⟨r, hroot, hlive⟩
  · rw [htable, List.map_append, List.nodup_append]
    refine ⟨h.nodup, List.nodup_singleton _, ?_⟩
    intro a ha b hb heq
    obtain ⟨m, hm, rfl⟩ := List.mem_map.mp ha
    obtain ⟨x, hroot', hx⟩ := h.table m hm
    rw [List.map_singleton, List.mem_singleton, hroot] at hb
    rw [heq, hb] at hroot'
    rw [← Option.some.inj hroot', hfresh] at hx
    cases hx
  · rw [htable]
    rcases hdevfs with heq | ⟨heq, hdriver⟩
    · obtain ⟨m, hm, hd⟩ := h.devfs x (heq ▸ hx)
      exact ⟨m, List.mem_append_left _ hm, hd⟩
    · rw [heq] at hx
      exact ⟨mnt, List.mem_append_right _ (List.mem_singleton.mpr rfl), hdriver, hroot.trans hx⟩

theorem mountInv_mount {s : MountState} (h : MountInv s) (pm : Mem) (path : Nat)
    (driver : FsDriver) {node priv : Option Ptr} (hnode : ∀ p ∈ node, s.live p = false)
    (hpriv : ∀ p ∈ priv, s.live p = false ∧ node ≠ some p) :
    MountInv (vfsMount s pm path driver node priv).2 := by
  unfold vfsMount
  split
  · exact h
  cases driver with
  | initrd =>
    cases node with
    | none => exact h
    | some p =>
      have hfresh := hnode p rfl
      cases priv with
      | none =>
        -- the vnode is freed again
        change MountInv (kfree (kmalloc s (some p)) (some p))
        refine h.mono rfl (.inr rfl) fun mnt _ r _ hr => ?_
        refine kfree_live (kmalloc_live hr) fun heq => ?_
        rw [Option.some.inj heq, hr] at hfresh
        cases hfresh
      | some q =>
        change MountInv { kmalloc (kmalloc s (some p)) (some q) with
          mountTable := s.mountTable ++ [⟨⟨_, some p⟩, .initrd⟩] }
        exact h.snoc hfresh rfl rfl (kmalloc_live (r := some q) (kmalloc_self s p))
          (fun _ hx => kmalloc_live (r := some q) (kmalloc_live (r := some p) hx)) (.inl rfl)
  | devfs =>
    cases node with
    | none => exact h.mono rfl (.inl rfl) fun _ _ _ _ hr => hr
    | some p =>
      change MountInv { kmalloc s (some p) with
        devfsRoot := some p, mountTable := s.mountTable ++ [⟨⟨_, some p⟩, .devfs⟩] }
      exact h.snoc (hnode p rfl) rfl rfl (kmalloc_self s p) (fun _ hx => kmalloc_live (r := some p) hx)
        (.inr ⟨rfl, rfl⟩)

/-! ## Unmounting -/

@[simp] theorem unmount_table (s : MountState) (driver : FsDriver) :
    (driver.unmount s).mountTable = s.mountTable := by
  cases driver with
  | initrd => rfl
  | devfs => exact kfree_table s _

/-- `vfs_unmount` gets as far as to the driver; `s₁` is the state then. -/
theorem vfsUnmount_found {s : MountState} (h : MountInv s) {pm : Mem} {path idx : Nat} {mnt : MountT}
    (walked : List Ptr) (hidx : unmountIdx s pm path = some idx)
    (hget : s.mountTable[idx]? = some mnt) :
    ∃ s₁, MountInv s₁ ∧ s₁.mountTable = s.mountTable ∧ s₁.devfsRoot = s.devfsRoot ∧
      (vfsUnmount s pm path false walked).2 =
        { mnt.driver.unmount s₁ with mountTable := s.mountTable.eraseIdx idx } := by
  obtain ⟨s₁, hs₁, h₁, htable, hdevfs⟩ : ∃ s₁, s₁ =
      (if idx > 0 then walked.foldl (fun s p => kmalloc s (some p)) s else s) ∧ MountInv s₁ ∧
      s₁.mountTable = s.mountTable ∧ s₁.devfsRoot = s.devfsRoot := by
    refine ⟨_, rfl, ?_⟩
    split
    · exact ⟨mountInv_walked h walked, walked_same s walked⟩
    · exact ⟨h, rfl, rfl⟩
  refine ⟨s₁, h₁, htable, hdevfs, ?_⟩
  simp only [vfsUnmount, hidx, ← hs₁, htable, hget, unmount_table, Bool.false_eq_true, if_false]

/-- Or it changes nothing. -/
theorem vfsUnmount_cases (s : MountState) (pm : Mem) (path : Nat) (busy : Bool) (walked : List Ptr) :
    (vfsUnmount s pm path busy walked).2 = s ∨ busy = false ∧
      ∃ idx mnt, unmountIdx s pm path = some idx ∧ s.mountTable[idx]? = some mnt := by
  cases hidx : unmountIdx s pm path with
  | none => exact .inl (by rw [vfsUnmount, hidx])
  | some idx =>
    cases busy with
    | true => exact .inl (by simp only [vfsUnmount, hidx, if_true])
    | false =>
      obtain ⟨hlt, -⟩ := List.findIdx?_eq_some_iff_getElem.mp hidx
      exact .inr ⟨rfl, idx, _, rfl, List.getElem?_eq_getElem hlt⟩

/-- A root is that of one mount. -/
theorem MountInv.index {s : MountState} (h : MountInv s) {i j : Nat} {m m' : MountT}
    (hi : s.mountTable[i]? = some m) (hj : s.mountTable[j]? = some m') (hroot : m.root = m'.root) :
    i = j := by
  obtain ⟨hlt, -⟩ := List.getElem?_eq_some_iff.mp hi
  refine (List.getElem?_inj (by rwa [List.length_map]) h.nodup).mp ?_
  rw [List.getElem?_map, List.getElem?_map, hi, hj]
  exact congrArg some hroot

/-- An unmount of an initrd frees nothing, and neither does one of a devfs without
a root in `devfs_root`. -/
theorem MountInv.erase {s : MountState} (h : MountInv s) (idx : Nat)
    (hdevfs : ∀ r, s.devfsRoot = some r → ∀ mnt, s.mountTable[idx]? = some mnt →
      mnt.root ≠ some r) : MountInv { s with mountTable := s.mountTable.eraseIdx idx } := by
  have hsub := List.eraseIdx_sublist s.mountTable idx
  refine ⟨fun mnt hmem => h.table mnt (hsub.subset hmem), h.nodup.sublist (hsub.map _), ?_⟩
  intro r hr
  obtain ⟨mnt, hmem, hdriver, hroot⟩ := h.devfs r hr
  refine ⟨mnt, ?_, hdriver, hroot⟩
  obtain ⟨i, hi⟩ := List.mem_iff_getElem?.mp hmem
  refine List.mem_eraseIdx_iff_getElem?.mpr ⟨i, fun heq => ?_, hi⟩
  exact hdevfs r hr mnt (heq ▸ hi) hroot

theorem mountInv_unmount {s : MountState} (h : MountInv s) (pm : Mem) (path : Nat) (busy : Bool)
    (walked : List Ptr) (hown : FreesOwn s (.unmount pm path busy walked)) :
    MountInv (vfsUnmount s pm path busy walked).2 := by
  rcases vfsUnmount_cases s pm path busy walked with heq | ⟨rfl, idx, mnt, hidx, hget⟩
  · rw [heq]
    exact h
  obtain ⟨s₁, h₁, htable, hdevfs, heq⟩ := vfsUnmount_found h walked hidx hget
  rw [heq, ← htable]
  rw [← htable] at hget
  cases hdriver : mnt.driver with
  | initrd =>
    refine h₁.erase idx fun r hr m hm hroot => ?_
    obtain ⟨m', hmem, hdriver', hroot'⟩ := h₁.devfs r hr
    obtain ⟨j, hj⟩ := List.mem_iff_getElem?.mp hmem
    rw [hget] at hm
    obtain rfl := Option.some.inj hm
    obtain rfl := h₁.index hj hget (hroot'.trans hroot.symm)
    rw [hget] at hj
    rw [Option.some.inj hj, hdriver'] at hdriver
    cases hdriver
  | devfs =>
    have hfreed : MountInv { s₁ with mountTable := s₁.mountTable.eraseIdx idx, devfsRoot := none } := by
      have hnone : MountInv { s₁ with devfsRoot := none } :=
        h₁.mono rfl (.inl rfl) fun _ _ _ _ hr => hr
      refine hnone.erase idx ?_
      rintro r ⟨⟩
    refine hfreed.mono rfl (.inl rfl) fun m hm r hroot hr => kfree_live hr fun hdr => ?_
    -- the root that is freed is that of the mount itself
    obtain ⟨i, hne, hi⟩ := List.mem_eraseIdx_iff_getElem?.mp hm
    rw [hdevfs] at hdr
    rcases hown rfl idx mnt hidx (htable ▸ hget) hdriver with hnone | hself
    · rw [hnone] at hdr
      cases hdr
    · exact hne (h₁.index hi hget (by rw [hroot, ← hself, hdr]))

theorem unsafe_unmount {s : MountState} (h : MountInv s) (pm : Mem) (path : Nat) (busy : Bool)
    (walked : List Ptr) (hown : ¬ FreesOwn s (.unmount pm path busy walked)) :
    ¬ RootsSafe (vfsUnmount s pm path busy walked).2 := by
  intro hsafe
  apply hown
  intro hbusy idx mnt hidx hget hdriver
  by_contra hnot
  obtain ⟨hnone, hother⟩ := not_or.mp hnot
  obtain ⟨r, hr⟩ := Option.ne_none_iff_exists'.mp hnone
  obtain ⟨m, hmem, -, hroot⟩ := h.devfs r hr
  obtain ⟨j, hj⟩ := List.mem_iff_getElem?.mp hmem
  have hne : j ≠ idx := by
    rintro rfl
    rw [hget] at hj
    rw [Option.some.inj hj, hroot] at hother
    exact hother hr
  subst hbusy
  obtain ⟨s₁, -, -, hdevfs, heq⟩ := vfsUnmount_found h walked hidx hget
  rw [heq, hdriver] at hsafe
  obtain ⟨r', hroot', hlive⟩ :=
    hsafe.table m (List.mem_eraseIdx_iff_getElem?.mpr ⟨j, hne, hj⟩)
  obtain rfl := Option.some.inj (hroot.symm.trans hroot')
  have hdead : (devfsUnmount s₁).live r = false := by
    rw [devfsUnmount, hdevfs, hr]
    exact Function.update_self ..
  exact absurd (hdead.symm.trans hlive) (by decide)

/-! ## Runs -/

/-- **Roots.**  From an empty mount table, the roots are allocated in every
state of a run exactly if each unmount of a devfs frees its own root. -/
theorem roots_safe_iff {s₀ s : MountState} {es : List MountEvent}
    (hempty : s₀.mountTable = [] ∧ s₀.devfsRoot = none) :
    Always MountStep RootsSafe s₀ es s ↔ EachStep MountStep FreesOwn s₀ es s := by
  have h₀ : MountInv s₀ := by
    refine ⟨?_, ?_, ?_⟩
    · simp [hempty.1]
    · simp [hempty.1]
    · simp [hempty.2]
  refine Run.always_iff (I := MountInv) (fun _ => MountInv.rootsSafe) ?_ ?_ h₀
  · rintro s e t h ⟨hown, hstep⟩
    cases hstep with
    | mount pm path driver hnode hpriv => exact mountInv_mount h pm path driver hnode hpriv
    | unmount pm path busy => exact mountInv_unmount h pm path busy _ hown
  · rintro s e t h hown hstep
    cases hstep with
    | mount => exact absurd trivial hown
    | unmount pm path busy => exact unsafe_unmount h pm path busy _ hown

def noMounts : MountState := { mountTable := [], devfsRoot := none, live := fun _ => false }

/-- `"/a"` and `"/b"` -/
def pathA : Mem := memOf 0 [SLASH, 0x61]
def pathB : Mem := memOf 0 [SLASH, 0x62]

/-- One devfs mount, unmounted again. -/
def mountedOnce : MountState :=
  (vfsUnmount (vfsMount noMounts pathA 0 .devfs (some 0x100) none).2 pathA 0 false []).2

theorem remount_safe : Always MountStep RootsSafe noMounts
    [.mount pathA 0 .devfs (some 0x100) none, .unmount pathA 0 false []] mountedOnce := by
  refine (roots_safe_iff ⟨rfl, rfl⟩).mpr fun past e rest t heq hpast _ => ?_
  rcases past with _ | ⟨e', past⟩
  · obtain ⟨rfl, -⟩ := List.cons.inj heq
    trivial
  obtain ⟨rfl, htail⟩ := List.cons.inj heq
  obtain ⟨u, hstep, hpast⟩ := hpast.of_cons
  cases hstep
  rcases past with _ | ⟨e', past⟩
  · cases hpast
    obtain ⟨rfl, -⟩ := List.cons.inj htail
    rintro - idx mnt - hget -
    obtain rfl := List.mem_singleton.mp (List.mem_iff_getElem?.mpr ⟨idx, hget⟩)
    exact .inr rfl
  · simp at htail

/-- Two devfs mounts, and the first is unmounted. -/
def secondFreed : MountState :=
  (vfsUnmount (vfsMount (vfsMount noMounts pathA 0 .devfs (some 0x100) none).2
    pathB 0 .devfs (some 0x200) none).2 pathA 0 false []).2

/-- The root of the second mount is freed, and the path of that mount resolves
from it. -/
theorem secondFreed_unsafe : (∃ es, Run MountStep noMounts es secondFreed) ∧
    ¬ RootsSafe secondFreed := by
  refine ⟨⟨_, .step (.mount pathA 0 .devfs (by decide) (by simp))
    (.step (.mount pathB 0 .devfs (by decide) (by simp))
      (.single (.unmount pathA 0 false (by simp))))⟩, fun hsafe => ?_⟩
  have hroot : resolveRoot secondFreed pathB 0 = some (some 0x200) := by decide +kernel
  exact absurd (hsafe.resolve pathB 0 0x200 hroot) (by decide +kernel)

end FrogKernel.Mounts
