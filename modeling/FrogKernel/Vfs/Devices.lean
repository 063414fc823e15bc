import FrogKernel.Vfs.DirNames
import FrogKernel.Vfs.FindMount

/-!
# The names under `/dev` (`devfs/devfs.c`)

`devfs_register` puts a name, cut to 63 characters, at the end of an array of 64;
`devfs_root_finddir` takes the first entry with the name that it is given, and
`devfs_root_readdir` counts the entries.

Main results: `dev_resolves` and `listed_opens`.
-/

namespace FrogKernel.Devices

open FrogKernel.Bytes FrogKernel.CStrings FrogKernel.Paths FrogKernel.Opening FrogKernel.FileCalls
open FrogKernel.Kheap (add32 sub32)
open FrogKernel.Vfs (FsMount Follows Mounted nearest enter covered vfsResolve vfsResolve_nearest
  MAX_PATH VFS_DIRECTORY VFS_MOUNTPT)

/-! ## What was registered -/

/-- A call `devfs_register(name, ops, private_data, flags)`. -/
structure Call where
  name : List Char8
  flags : Nat

/-- The name that `entry->name` has room for. -/
def Call.kept (call : Call) : List Char8 := call.name.take 63

/-- The registry after the calls, the first of them first. -/
inductive Registers : List Call → List DevfsEntry → Prop
  | boot : Registers [] []
  | register {calls : List Call} {registry : List DevfsEntry} (array : Mem) {name : Mem}
      {call : Call} : Registers calls registry → CStr name 0 call.name →
      Registers (calls ++ [call]) (devfsRegister array registry name call.flags).2

/-- The entry that a call makes. -/
structure Holds (call : Call) (entry : DevfsEntry) : Prop where
  name : CStr entry.name 0 call.kept
  flags : entry.flags = call.flags
  active : entry.active = true

/-- The devices are those of the first 64 calls. -/
def devices (calls : List Call) : List Call := calls.take DEVFS_MAX_DEVICES

/-- The first device with the name. -/
def deviceNamed (calls : List Call) (c : List Char8) : Option Nat :=
  (devices calls).findIdx? fun call => call.kept = c

section Registry

variable {calls : List Call} {registry : List DevfsEntry}

theorem Registers.registered (h : Registers calls registry) : Registered registry := by
  induction h with
  | boot => exact .empty
  | register array _ _ ih => exact .register array _ _ ih

/-- A call makes one entry at the end, or is the 65th or a later one. -/
theorem Registers.holds (h : Registers calls registry) :
    List.Forall₂ Holds (devices calls) registry := by
  induction h with
  | boot => exact .nil
  | @register calls registry array name call hreg hname ih =>
    have hlen : min DEVFS_MAX_DEVICES calls.length = registry.length := by
      rw [← List.length_take]
      exact ih.length_eq
    rw [devfsRegister]
    by_cases hfull : registry.length ≥ DEVFS_MAX_DEVICES
    · rw [if_pos hfull, devices, List.take_append_of_le_length (by omega)]
      exact ih
    · rw [if_neg hfull, devices, List.take_of_length_le (by simp; omega)]
      have hall : devices calls = calls := List.take_of_length_le (by omega)
      rw [hall] at ih
      refine List.rel_append ih (.cons ⟨?_, rfl, rfl⟩ .nil)
      rw [Call.kept, ← fieldChars_take hname 63]
      exact strncpy_cstr array name 63 0 0

/-- **`devfs_root_finddir`** is given a name. -/
theorem devfsRootFinddir_eq {ds : List Call} {component : Mem} {c : List Char8}
    (h : List.Forall₂ Holds ds registry) (hc : CStr component 0 c) :
    devfsRootFinddir component registry =
      some ((ds.findIdx? fun call => call.kept = c).bind fun i => registry[i]?.map .device) := by
  induction h with
  | nil => rfl
  | @cons call entry ds registry hentry _ ih =>
    have hshort : call.kept.length < ROUNDS :=
      Nat.lt_of_le_of_lt (List.length_take_le _ _) (by decide)
    obtain ⟨d, hd, hzero⟩ := strcmp_cstr hentry.name hc hshort
    rw [devfsRootFinddir, if_pos hentry.active, hd, Option.bind_some, List.findIdx?_cons]
    by_cases hname : call.kept = c
    · rw [if_pos (hzero.mpr hname), if_pos (decide_eq_true hname)]
      rfl
    · rw [if_neg fun h0 => hname (hzero.mp h0), if_neg (by simpa using hname), ih]
      cases ds.findIdx? fun call => decide (call.kept = c) <;> rfl

/-- The loop of `devfs_root_readdir`, with `k` entries before. -/
theorem devfsReaddirLoop_eq {ds : List Call} (h : List.Forall₂ Holds ds registry) (index : Nat)
    (out : Mem) (a nameMax : Nat) {k : Nat} (hk : k + registry.length < 2 ^ 32) (hle : k ≤ index) :
    devfsReaddirLoop index out a nameMax registry k =
      (registry[index - k]?.map fun entry => ((0 : Int), storeName out a entry.name 0 nameMax)).getD
        (-1, out) := by
  induction h generalizing k with
  | nil => rfl
  | @cons call entry ds registry hentry _ ih =>
    rw [List.length_cons] at hk
    rw [devfsReaddirLoop, if_neg (not_not.mpr hentry.active)]
    by_cases hfound : k = index
    · rw [if_pos hfound, hfound, Nat.sub_self]
      rfl
    · have hsucc : add32 k 1 = k + 1 := Nat.mod_eq_of_lt (by omega)
      have hrest : index - k = index - (k + 1) + 1 := by omega
      rw [if_neg hfound, hsucc, ih (by omega) (by omega), hrest, List.getElem?_cons_succ]

end Registry

/-! ## Paths -/

/-- What a path leads to, by its components behind the mount. -/
def found (calls : List Call) (registry : List DevfsEntry) : List (List Char8) → Option VnodeT
  | [] => some .devfsRoot
  | [c] => (deviceNamed calls c).bind fun i => registry[i]?.map .device
  | _ :: _ :: _ => none

/-- Where a walk is: at the root, or at what `devfs_root_finddir` returned. -/
def place (calls : List Call) (registry : List DevfsEntry) :
    VnodeT → List Char8 → Option VnodeT
  | .devfsRoot, c => found calls registry [c]
  | _, _ => none

theorem foldlM_found (calls : List Call) (registry : List DevfsEntry) (cs : List (List Char8)) :
    cs.foldlM (place calls registry) .devfsRoot = found calls registry cs := by
  cases cs with
  | nil => rfl
  | cons c cs =>
    rw [List.foldlM_cons]
    cases cs with
    | nil =>
      rw [show place calls registry .devfsRoot c = found calls registry [c] from rfl]
      cases found calls registry [c] <;> rfl
    | cons c' cs =>
      -- a device has no `finddir`
      rw [show place calls registry .devfsRoot c =
        (deviceNamed calls c).bind fun i => registry[i]?.map .device from rfl]
      cases deviceNamed calls c with
      | none => rfl
      | some i =>
        cases hentry : registry[i]? with
        | none => rw [Option.bind_some, hentry]; rfl
        | some entry => rw [Option.bind_some, hentry]; rfl

section Paths

variable {calls : List Call} {disk : Disk}

/-- The vnodes of devfs. -/
def OfDevfs (v w : VnodeT) : Prop := v = w ∧ ∀ node, v ≠ .initrd node

theorem devfs_follows (h : Registers calls disk.registry) :
    Follows disk.nodes OfDevfs (place calls disk.registry) := by
  rintro node _ ⟨rfl, hnode⟩ component c hc - - -
  cases node with
  | initrd node => exact absurd rfl (hnode node)
  | device entry =>
    refine ⟨none, ?_, .none⟩
    rw [enter]
    split <;> rfl
  | devfsRoot =>
    have henter : enter disk.nodes .devfsRoot component =
        devfsRootFinddir component disk.registry := by
      have hdir : disk.nodes.flags .devfsRoot &&& (VFS_DIRECTORY ||| VFS_MOUNTPT) ≠ 0 := by
        rw [show disk.nodes.flags .devfsRoot = VFS_DIRECTORY from rfl]
        decide
      rw [enter, if_neg hdir]
      rfl
    refine ⟨_, henter.trans (devfsRootFinddir_eq h.holds hc), ?_⟩
    dsimp only [place, found, deviceNamed]
    generalize ((devices calls).findIdx? fun call => call.kept = c) = first
    cases first with
    | none => exact .none
    | some i =>
      rw [Option.bind_some]
      cases disk.registry[i]? with
      | none => exact .none
      | some entry => exact .some ⟨rfl, fun _ => VnodeT.noConfusion⟩

theorem covered_eq (node : VnodeT) : covered disk.nodes node = node := by
  rw [covered]
  split <;> rfl

variable {table : List (FsMount VnodeT)} {mnt : FsMount VnodeT} {pm : Mem} {path : Nat}
  {p s : List Char8}

theorem resolve_found (h : Registers calls disk.registry) (htable : ∀ m ∈ table, Mounted m)
    (hroot : mnt.root = some .devfsRoot) (hpath : CStr pm path (mnt.name ++ s))
    (hnearest : nearest table (mnt.name ++ s) = some mnt)
    (hlen : (mnt.name ++ s).length < MAX_PATH) (stack : Mem) :
    vfsResolve disk.nodes table stack pm path =
      some (found calls disk.registry (components SLASH s)) := by
  have hdev : OfDevfs .devfsRoot .devfsRoot := ⟨rfl, fun node heq => nomatch heq⟩
  obtain ⟨s', r, heq, hr, hrel⟩ := vfsResolve_nearest (devfs_follows h) hpath
    (Nat.lt_of_lt_of_le hlen (by decide)) htable hnearest hroot hdev stack
  obtain rfl := List.append_cancel_left heq
  rw [foldlM_found] at hrel
  rw [hr]
  generalize found calls disk.registry (components SLASH s) = v at hrel
  cases hrel with
  | none => rfl
  | some hv =>
    obtain ⟨rfl, -⟩ := hv
    rw [Option.map_some, covered_eq]

/-- **Paths below `/dev`.**  Whatever was registered before, a path whose nearest mount is a
devfs leads to the first of the first 64 devices with the name that stands behind the
mount, to the root when nothing stands there, and nowhere when there is more. -/
theorem dev_resolves (h : Registers calls disk.registry) (htable : ∀ m ∈ table, Mounted m)
    (hpath : CStr pm path p) (hlen : p.length < MAX_PATH) (hnearest : nearest table p = some mnt)
    (hroot : mnt.root = some .devfsRoot) (stack : Mem) :
    ∃ s, p = mnt.name ++ s ∧ vfsResolve disk.nodes table stack pm path =
      some (found calls disk.registry (components SLASH s)) := by
  obtain ⟨s, rfl⟩ := (Vfs.nearest_some hnearest).2.1
  exact ⟨s, rfl, resolve_found h htable hroot hpath hnearest hlen stack⟩

/-! ## Listings -/

/-- `devfs_root_readdir` stores the name `c` into an array of 64 bytes. -/
def Lists (registry : List DevfsEntry) (index : Nat) (c : List Char8) : Prop :=
  ∀ out a, ∃ out', devfsRootReaddir registry index out a 64 = (0, out') ∧ CStr out' a c

/-- A listing shows it here for the first time. -/
def ListsFirst (registry : List DevfsEntry) (index : Nat) (c : List Char8) : Prop :=
  Lists registry index c ∧ ∀ j < index, ¬ Lists registry j c

theorem lists_iff {registry : List DevfsEntry} (h : Registers calls registry) (index : Nat)
    (c : List Char8) :
    Lists registry index c ↔ ∃ call, (devices calls)[index]? = some call ∧ call.kept = c := by
  have hholds := h.holds
  have hroom := registered_length h.registered
  have hread : ∀ out a, devfsRootReaddir registry index out a 64 =
      (registry[index]?.map fun entry => ((0 : Int), storeName out a entry.name 0 64)).getD
        (-1, out) := fun out a =>
    devfsReaddirLoop_eq hholds index out a 64
      (by rw [Nat.zero_add]; exact Nat.lt_of_le_of_lt hroom (by decide)) (Nat.zero_le _)
  cases hcall : (devices calls)[index]? with
  | none =>
    have hlen : (devices calls).length ≤ index := List.getElem?_eq_none_iff.mp hcall
    have hentry : registry[index]? = none := List.getElem?_eq_none (hholds.length_eq ▸ hlen)
    refine iff_of_false (fun hlists => ?_) (by simp)
    obtain ⟨out', heq, -⟩ := hlists (fun _ => 0) 0
    rw [hread, hentry] at heq
    cases heq
  | some call =>
    obtain ⟨hi, rfl⟩ := List.getElem?_eq_some_iff.mp hcall
    have hi' : index < registry.length := hholds.length_eq ▸ hi
    have hentry := (List.forall₂_iff_get.mp hholds).2 index hi hi'
    have hstored : ∀ out a, CStr (storeName out a registry[index].name 0 64) a
        (devices calls)[index].kept := fun out a => by
      have hkept : (devices calls)[index].kept.take (64 - 1) = (devices calls)[index].kept :=
        List.take_of_length_le (List.length_take_le _ _)
      exact hkept ▸ (storeName_stores hentry.name (by decide) (by decide)).stored
    constructor
    · intro hlists
      obtain ⟨out', heq, hc⟩ := hlists (fun _ => 0) 0
      rw [hread, List.getElem?_eq_getElem hi'] at heq
      obtain rfl := (Prod.mk.inj heq).2
      exact ⟨_, rfl, (hstored _ _).unique hc⟩
    · rintro ⟨_, hsome, rfl⟩
      cases hsome
      exact fun out a => ⟨_, by rw [hread, List.getElem?_eq_getElem hi']; rfl, hstored out a⟩

theorem listsFirst_iff {registry : List DevfsEntry} (h : Registers calls registry) (index : Nat)
    (c : List Char8) : ListsFirst registry index c ↔ deviceNamed calls c = some index := by
  rw [ListsFirst, deviceNamed, List.findIdx?_eq_some_iff_getElem]
  simp only [lists_iff h, decide_eq_true_eq]
  constructor
  · rintro ⟨⟨call, hcall, hname⟩, hbefore⟩
    obtain ⟨hi, rfl⟩ := List.getElem?_eq_some_iff.mp hcall
    refine ⟨hi, hname, fun j hj hname' => hbefore j hj ⟨_, List.getElem?_eq_getElem _, hname'⟩⟩
  · rintro ⟨hi, hname, hbefore⟩
    refine ⟨⟨_, List.getElem?_eq_getElem hi, hname⟩, ?_⟩
    rintro j hj ⟨call, hcall, hname'⟩
    obtain ⟨hj', rfl⟩ := List.getElem?_eq_some_iff.mp hcall
    exact hbefore j hj hname'

/-- **Listing and opening.**  Whatever was registered before, the path of the devfs and a
component lead to a device exactly when a listing shows the component, and then to the
device that is shown under it first. -/
theorem listed_opens (h : Registers calls disk.registry) (htable : ∀ m ∈ table, Mounted m)
    (hroot : mnt.root = some .devfsRoot) {c : List Char8} (hc : c ≠ []) (hslash : SLASH ∉ c)
    (hpath : CStr pm path (mnt.name ++ SLASH :: c))
    (hnearest : nearest table (mnt.name ++ SLASH :: c) = some mnt)
    (hlen : (mnt.name ++ SLASH :: c).length < MAX_PATH) (stack : Mem) :
    ∃ r, vfsResolve disk.nodes table stack pm path = some r ∧
      ((r = none ∧ ∀ index, ¬ Lists disk.registry index c) ∨
        ∃ index entry, ListsFirst disk.registry index c ∧ disk.registry[index]? = some entry ∧
          r = some (.device entry)) := by
  refine ⟨_, resolve_found h htable hroot hpath hnearest hlen stack, ?_⟩
  rw [components_sep, components_single hslash hc, found]
  cases hfirst : deviceNamed calls c with
  | none =>
    refine Or.inl ⟨rfl, fun index hlists => ?_⟩
    obtain ⟨call, hcall, hname⟩ := (lists_iff h index c).mp hlists
    have hno := List.findIdx?_eq_none_iff.mp hfirst call (List.mem_of_getElem? hcall)
    exact of_decide_eq_false hno hname
  | some index =>
    have hindex := (listsFirst_iff h index c).mpr hfirst
    obtain ⟨call, hcall, -⟩ := (lists_iff h index c).mp hindex.1
    have hi : index < disk.registry.length :=
      h.holds.length_eq ▸ (List.getElem?_eq_some_iff.mp hcall).1
    exact Or.inr ⟨index, _, hindex, List.getElem?_eq_getElem hi,
      by rw [Option.bind_some, List.getElem?_eq_getElem hi]; rfl⟩

end Paths

/-! ## Two devices -/

/-- `null` -/
def nullCall : Call := ⟨[0x6e, 0x75, 0x6c, 0x6c], 4⟩

/-- `tty` -/
def ttyCall : Call := ⟨[0x74, 0x74, 0x79], 4⟩

def twoRegistry : List DevfsEntry :=
  (devfsRegister (fun _ => 0) (devfsRegister (fun _ => 0) [] (memOf 0 nullCall.name) 4).2
    (memOf 0 ttyCall.name) 4).2

theorem twoRegistry_made : Registers [nullCall, ttyCall] twoRegistry :=
  have hnull := @Registers.register _ _ (fun _ => 0) _ nullCall .boot (memOf_cstr 0 (by decide))
  @Registers.register _ _ (fun _ => 0) _ ttyCall hnull (memOf_cstr 0 (by decide))

def twoDisk : Disk := { ttyDisk with registry := twoRegistry }

/-- The initrd at `/` and the devfs at `/dev`. -/
def kernelMounts : List (FsMount VnodeT) :=
  [⟨memOf 0 [SLASH, 0], some (.initrd ⟨VFS_DIRECTORY, 0, .initrdDirOps, none, fun _ => 0⟩)⟩,
    ⟨memOf 0 [SLASH, 0x64, 0x65, 0x76, 0], some .devfsRoot⟩]

theorem kernelMounts_mounted : ∀ m ∈ kernelMounts, Mounted m := by
  intro m hm
  simp only [kernelMounts, List.mem_cons, List.not_mem_nil, or_false] at hm
  rcases hm with rfl | rfl
  · exact ⟨memOf_terminated 0 (s := [SLASH]) (by decide), ⟨⟨[], rfl⟩, Or.inl rfl⟩, rfl⟩
  · exact ⟨memOf_terminated 0 (s := [SLASH, 0x64, 0x65, 0x76]) (by decide),
      ⟨⟨[0x64, 0x65, 0x76], rfl⟩, Or.inr (by decide)⟩, rfl⟩

/-- `/dev/tty` leads to the second device. -/
theorem tty_resolved : ∃ s, Vfs.ttyPath = [SLASH, 0x64, 0x65, 0x76] ++ s ∧
    vfsResolve twoDisk.nodes kernelMounts (fun _ => 0) (memOf 0 Vfs.ttyPath) 0 =
      some (found [nullCall, ttyCall] twoRegistry (components SLASH s)) :=
  @dev_resolves [nullCall, ttyCall] twoDisk kernelMounts kernelMounts[1] _ _ _ twoRegistry_made
    kernelMounts_mounted Vfs.ttyPath_cstr (by decide) rfl rfl (fun _ => 0)

/-- It is listed. -/
theorem tty_listed : ∃ r,
    vfsResolve twoDisk.nodes kernelMounts (fun _ => 0) (memOf 0 Vfs.ttyPath) 0 = some r ∧
      ((r = none ∧ ∀ index, ¬ Lists twoRegistry index ttyCall.name) ∨
        ∃ index entry, ListsFirst twoRegistry index ttyCall.name ∧
          twoRegistry[index]? = some entry ∧ r = some (.device entry)) :=
  @listed_opens [nullCall, ttyCall] twoDisk kernelMounts kernelMounts[1] _ _ twoRegistry_made
    kernelMounts_mounted rfl ttyCall.name (by decide) (by decide) Vfs.ttyPath_cstr rfl (by decide)
    (fun _ => 0)

end FrogKernel.Devices
