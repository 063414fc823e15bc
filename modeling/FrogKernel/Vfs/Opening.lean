import FrogKernel.Initrd.InitrdFs
import FrogKernel.Memory.KheapCalls
import FrogKernel.Vfs.FdTables

/-!
# What an open file costs (`vfs/vfs.c`, `initrd/initrdfs.c`, `devfs/devfs.c`)

`vfs_open` and `vfs_close` on the heap of the kernel.  Every `finddir` on the way makes a
vnode with `kmalloc`, and nothing frees one; `vfs_close` frees the `file_t`.

Main result: `open_balanced_iff`.
-/

namespace FrogKernel.Opening

open FrogKernel.Bytes FrogKernel.CStrings FrogKernel.Initrd FrogKernel.Kheap
open FrogKernel.Pmm (PAGE_SIZE)
open FrogKernel.Vfs (Ptr Drivers VfsState FsMount Nodes FileT MAX_FDS VFS_DIRECTORY findMount
  skipSlashes copyComponent enter covered callOpen openFile getFile allocFd fileAt setActive)

/-! ## The two file systems -/

/-- `devfs_entry_t`, as far as `finddir` and the resolution read it. -/
structure DevfsEntry where
  name : Mem
  flags : Nat
  active : Bool

/-- A `vnode_t` of one of the file systems. -/
inductive VnodeT where
  | initrd (node : Initrd.Vnode)
  | devfsRoot
  | device (entry : DevfsEntry)

/-- The archive and `registry`, and what fresh memory and stack hold. -/
structure Disk where
  initrd : InitrdT
  archive : Mem
  stack : Mem
  heap : Mem
  registry : List DevfsEntry

/-- `devfs_root_finddir` -/
def devfsRootFinddir (name : Mem) : List DevfsEntry → Option (Option VnodeT)
  | [] => some none
  | entry :: rest =>
    if entry.active then
      (strcmp entry.name 0 name 0 ROUNDS).bind fun c =>
        if c = 0 then some (some (.device entry)) else devfsRootFinddir name rest
    else devfsRootFinddir name rest

/-- The vnodes of the kernel.  Nothing writes `mounted_here`, and no device has a
`finddir`. -/
def Disk.nodes (disk : Disk) : Nodes VnodeT where
  flags
    | .initrd node => node.flags
    | .devfsRoot => VFS_DIRECTORY
    | .device entry => entry.flags
  mountedHere _ := none
  finddir
    | .initrd node =>
      ((initrdNodes disk.initrd disk.archive disk.stack disk.heap).finddir node).map
        fun finddir name => (finddir name).map (Option.map .initrd)
    | .devfsRoot => some fun name => devfsRootFinddir name disk.registry
    | .device _ => none

/-! ## Vnodes in the heap -/

def SIZEOF_VNODE : Nat := 40
def SIZEOF_VNODE_DATA : Nat := 256
def SIZEOF_FILE : Nat := 16

/-- The heap, and the vnodes in it. -/
structure World (π : Type) where
  heap : KHeap π
  vnode : Ptr → Option VnodeT

variable {π : Type} (newPage : π → Nat → Option π)

/-- `kmalloc` -/
def kmallocCall (h : KHeap π) (size : Nat) : Option (Ptr × KHeap π) :=
  kmalloc (heapPage newPage) ROUNDS h size

/-- The allocations of `initrd_vnode_create`, and of `devfs_vnode_from_entry`. -/
def createVnode (h : KHeap π) : VnodeT → Option (Ptr × KHeap π)
  | .initrd _ =>
    (kmallocCall newPage h SIZEOF_VNODE).bind fun (node, h) =>
      if node = 0 then some (0, h)
      else
        (kmallocCall newPage h SIZEOF_VNODE_DATA).map fun (priv, h) =>
          if priv = 0 then (0, kfree h node) else (node, h)
  | _ => kmallocCall newPage h SIZEOF_VNODE

/-- `node = node->ops->finddir(node, component)`, with the checks before it. -/
def enterNode (fs : Nodes VnodeT) (w : World π) (node : VnodeT) (component : Mem) :
    Option (Option (Ptr × VnodeT) × World π) :=
  (enter fs node component).bind fun found =>
    match found with
    | none => some (none, w)
    | some v =>
      (createVnode newPage w.heap v).map fun (p, heap) =>
        if p = 0 then (none, { w with heap })
        else (some (p, v), { heap, vnode := Function.update w.vnode p (some v) })

/-- The loop of `vfs_resolve`. -/
def resolveLoop (fs : Nodes VnodeT) (pm : Mem) :
    Nat → World π → Mem → Nat → Ptr × VnodeT → Option (Option (Ptr × VnodeT) × World π)
  | 0, _, _, _, _ => none
  | n + 1, w, component, rel, node =>
    if pm rel = 0 then some (some node, w)
    else
      (skipSlashes pm ROUNDS rel).bind fun rel =>
        if pm rel = 0 then some (some node, w)
        else
          (copyComponent pm ROUNDS component 0 rel).bind fun (component, i, rel) =>
            let component := write8 component i 0
            (enterNode newPage fs w node.2 component).bind fun (found, w) =>
              match found with
              | none => some (none, w)
              | some node => resolveLoop fs pm n w component rel node

def vfsResolve (fs : Nodes VnodeT) (mountTable : List (FsMount (Ptr × VnodeT))) (w : World π)
    (stack pm : Mem) (path : Nat) : Option (Option (Ptr × VnodeT) × World π) :=
  (findMount mountTable pm path).bind fun best =>
    match best with
    | none => some (none, w)
    | some mnt =>
      match mnt.root with
      | none => some (none, w)
      | some root =>
        (strlen mnt.path 0 ROUNDS).bind fun mlen =>
          (resolveLoop newPage fs pm ROUNDS w stack (path + mlen) root).map fun (r, w) =>
            (r.map fun node => (node.1, covered fs node.2), w)

/-! ## Files -/

/-- `kfree` -/
def kfreeCall (s : VfsState (World π)) (file : Ptr) : VfsState (World π) :=
  { s with world := { s.world with heap := kfree s.world.heap file } }

def vfsOpen (d : Drivers (World π)) (fs : Nodes VnodeT) (mountTable : List (FsMount (Ptr × VnodeT)))
    (s : VfsState (World π)) (stack pm : Mem) (path : Nat) (flags : Int) :
    Option (Int × VfsState (World π)) :=
  (vfsResolve newPage fs mountTable s.world stack pm path).bind fun (node, w) =>
    match node with
    | none => some (-1, { s with world := w })
    | some (node, _) =>
      let opened := callOpen d w node flags
      if opened.1 < 0 then some (-1, { s with world := opened.2 })
      else
        (kmallocCall newPage opened.2.heap SIZEOF_FILE).map fun (file, heap) =>
          let r := openFile { s with world := { opened.2 with heap } } node flags file
          if r.1 < 0 then (r.1, kfreeCall r.2 file) else r

def vfsClose (d : Drivers (World π)) (s : VfsState (World π)) (fd : Int) :
    Int × VfsState (World π) :=
  let file := getFile s fd
  let r := Vfs.vfsClose d s fd
  if file ≠ 0 ∧ (s.files file).refCount - 1 = 0 then (r.1, kfreeCall r.2 file) else r

/-- No driver has an `open` or a `close`. -/
def NoHooks (d : Drivers (World π)) : Prop :=
  ∀ w node ops, d.ops w node = some ops → ops.opOpen = none ∧ ops.opClose = none

/-! ## The first lookup -/

/-- What the first `finddir` finds; nothing when there is none. -/
def firstEntered (fs : Nodes VnodeT) (pm component : Mem) (rel : Nat) (node : VnodeT) :
    Option (Option VnodeT) :=
  if pm rel = 0 then some none
  else
    (skipSlashes pm ROUNDS rel).bind fun rel =>
      if pm rel = 0 then some none
      else
        (copyComponent pm ROUNDS component 0 rel).bind fun (component, i, _) =>
          enter fs node (write8 component i 0)

def firstFound (fs : Nodes VnodeT) (mountTable : List (FsMount (Ptr × VnodeT))) (stack pm : Mem)
    (path : Nat) : Option (Option VnodeT) :=
  (findMount mountTable pm path).bind fun best =>
    match best.bind FsMount.root with
    | none => some none
    | some root =>
      (strlen ((best.map FsMount.path).getD stack) 0 ROUNDS).bind fun mlen =>
        firstEntered fs pm stack (path + mlen) root.2

section Calls

variable {newPage} {fs : Nodes VnodeT} {mountTable : List (FsMount (Ptr × VnodeT))} {pm : Mem}
  {h h' : KHeap π} {live : List Alloc}

theorem kmallocCall_holds {size : Nat} {p : Ptr} (hh : HeapHolds h live)
    (hcall : kmallocCall newPage h size = some (p, h')) :
    HeapHolds h' (⟨p, size⟩ :: live) ∧ p ≠ 0 := by
  have hh' := hh.kmalloc hcall
  exact ⟨hh', Nat.ne_of_gt (hh'.ptr_pos (List.mem_cons_self ..))⟩

/-- An allocation that is freed again. -/
theorem kmallocCall_kfree {size : Nat} {p : Ptr} (hh : HeapHolds h live)
    (hcall : kmallocCall newPage h size = some (p, h')) : HeapHolds (kfree h' p) live := by
  have hfree := (kmallocCall_holds hh hcall).1.kfree (List.mem_cons_self ..)
  rwa [List.erase_cons_head] at hfree

/-- A vnode is made, whatever it is. -/
theorem createVnode_holds {v : VnodeT} {p : Ptr} (hh : HeapHolds h live)
    (hcall : createVnode newPage h v = some (p, h')) :
    p ≠ 0 ∧ ∃ news, news ≠ [] ∧ HeapHolds h' (news ++ live) := by
  have hone : ∀ {p h'}, kmallocCall newPage h SIZEOF_VNODE = some (p, h') →
      p ≠ 0 ∧ ∃ news, news ≠ [] ∧ HeapHolds h' (news ++ live) := by
    intro p h' hcall
    obtain ⟨hh', hp⟩ := kmallocCall_holds hh hcall
    exact ⟨hp, [⟨p, SIZEOF_VNODE⟩], by simp, hh'⟩
  cases v with
  | devfsRoot => exact hone hcall
  | device entry => exact hone hcall
  | initrd node =>
    obtain ⟨⟨q, h1⟩, hcall1, hrest⟩ := Option.bind_eq_some_iff.mp hcall
    obtain ⟨hh1, hq⟩ := kmallocCall_holds hh hcall1
    dsimp only at hrest
    rw [if_neg hq] at hrest
    obtain ⟨⟨priv, h2⟩, hcall2, hrest⟩ := Option.map_eq_some_iff.mp hrest
    obtain ⟨hh2, hpriv⟩ := kmallocCall_holds hh1 hcall2
    dsimp only at hrest
    rw [if_neg hpriv] at hrest
    obtain ⟨rfl, rfl⟩ := Prod.mk.inj hrest
    exact ⟨hq, [⟨priv, SIZEOF_VNODE_DATA⟩, ⟨q, SIZEOF_VNODE⟩], by simp, hh2⟩

/-- One `finddir`. -/
theorem enterNode_holds {w w' : World π} {node : VnodeT} {component : Mem}
    {r : Option (Ptr × VnodeT)} (hh : HeapHolds w.heap live)
    (hcall : enterNode newPage fs w node component = some (r, w')) :
    (enter fs node component = some none ∧ r = none ∧ w' = w) ∨
    ∃ v news, enter fs node component = some (some v) ∧ r.isSome ∧ news ≠ [] ∧
      HeapHolds w'.heap (news ++ live) := by
  obtain ⟨found, henter, hrest⟩ := Option.bind_eq_some_iff.mp hcall
  cases found with
  | none =>
    obtain ⟨rfl, rfl⟩ := Prod.mk.inj (Option.some.inj hrest)
    exact Or.inl ⟨henter, rfl, rfl⟩
  | some v =>
    obtain ⟨⟨p, heap⟩, hcreate, hrest⟩ := Option.map_eq_some_iff.mp hrest
    obtain ⟨hp, news, hne, hh'⟩ := createVnode_holds hh hcreate
    dsimp only at hrest
    rw [if_neg hp] at hrest
    obtain ⟨rfl, rfl⟩ := Prod.mk.inj hrest
    exact Or.inr ⟨v, news, henter, rfl, hne, hh'⟩

/-- The loop only adds to what is live. -/
theorem resolveLoop_grows {n : Nat} {w w' : World π} {component : Mem} {rel : Nat}
    {node : Ptr × VnodeT} {r : Option (Ptr × VnodeT)} (hh : HeapHolds w.heap live)
    (hcall : resolveLoop newPage fs pm n w component rel node = some (r, w')) :
    ∃ news, HeapHolds w'.heap (news ++ live) := by
  induction n generalizing w component rel node live with
  | zero => cases hcall
  | succ n ih =>
    rw [resolveLoop] at hcall
    split at hcall
    · cases hcall
      exact ⟨[], hh⟩
    obtain ⟨rel1, -, hcall1⟩ := Option.bind_eq_some_iff.mp hcall
    clear hcall
    split at hcall1
    · cases hcall1
      exact ⟨[], hh⟩
    obtain ⟨⟨component1, i, rel2⟩, -, hcall2⟩ := Option.bind_eq_some_iff.mp hcall1
    clear hcall1
    dsimp only at hcall2
    obtain ⟨⟨found, w1⟩, henter, hcall3⟩ := Option.bind_eq_some_iff.mp hcall2
    clear hcall2
    rcases enterNode_holds hh henter with ⟨-, rfl, rfl⟩ | ⟨v, news, -, hfound, -, hh1⟩
    · cases hcall3
      exact ⟨[], hh⟩
    · obtain ⟨node1, rfl⟩ := Option.isSome_iff_exists.mp hfound
      obtain ⟨news', hh'⟩ := ih hh1 hcall3
      exact ⟨news' ++ news, by rwa [List.append_assoc]⟩

/-- What it adds is nothing exactly when the first lookup finds nothing. -/
theorem resolveLoop_first {n : Nat} {w w' : World π} {component : Mem} {rel : Nat}
    {node : Ptr × VnodeT} {r : Option (Ptr × VnodeT)} (hh : HeapHolds w.heap live)
    (hcall : resolveLoop newPage fs pm n w component rel node = some (r, w')) :
    (firstEntered fs pm component rel node.2 = some none ∧ w' = w) ∨
    (∃ v, firstEntered fs pm component rel node.2 = some (some v)) ∧
      ∃ news, news ≠ [] ∧ HeapHolds w'.heap (news ++ live) := by
  obtain ⟨n, rfl⟩ : ∃ k, n = k + 1 := by
    cases n with
    | zero => cases hcall
    | succ k => exact ⟨k, rfl⟩
  rw [resolveLoop] at hcall
  rw [firstEntered]
  split at hcall
  case isTrue hnul =>
    cases hcall
    exact Or.inl ⟨if_pos hnul, rfl⟩
  case isFalse hnul =>
  rw [if_neg hnul]
  obtain ⟨rel1, hskip, hcall1⟩ := Option.bind_eq_some_iff.mp hcall
  clear hcall
  rw [hskip, Option.bind_some]
  split at hcall1
  case isTrue hend =>
    cases hcall1
    exact Or.inl ⟨if_pos hend, rfl⟩
  case isFalse hend =>
  rw [if_neg hend]
  obtain ⟨⟨component1, i, rel2⟩, hcopy, hcall2⟩ := Option.bind_eq_some_iff.mp hcall1
  clear hcall1
  dsimp only at hcall2
  rw [hcopy, Option.bind_some]
  dsimp only
  obtain ⟨⟨found, w1⟩, henter, hcall3⟩ := Option.bind_eq_some_iff.mp hcall2
  clear hcall2
  rcases enterNode_holds hh henter with ⟨hnone, rfl, rfl⟩ | ⟨v, news, hsome, hfound, hne, hh1⟩
  · cases hcall3
    exact Or.inl ⟨hnone, rfl⟩
  · obtain ⟨node1, rfl⟩ := Option.isSome_iff_exists.mp hfound
    obtain ⟨news', hh'⟩ := resolveLoop_grows hh1 hcall3
    exact Or.inr ⟨⟨v, hsome⟩, news' ++ news, by simp [hne], by rwa [List.append_assoc]⟩

/-- **The resolution** makes no vnode exactly when the first lookup finds nothing. -/
theorem vfsResolve_first {w w' : World π} {stack : Mem} {path : Nat}
    {r : Option (Ptr × VnodeT)} (hh : HeapHolds w.heap live)
    (hcall : vfsResolve newPage fs mountTable w stack pm path = some (r, w')) :
    (firstFound fs mountTable stack pm path = some none ∧ w' = w) ∨
    (∃ v, firstFound fs mountTable stack pm path = some (some v)) ∧
      ∃ news, news ≠ [] ∧ HeapHolds w'.heap (news ++ live) := by
  obtain ⟨best, hbest, hrest⟩ := Option.bind_eq_some_iff.mp hcall
  rw [firstFound, hbest, Option.bind_some]
  cases best with
  | none =>
    cases hrest
    exact Or.inl ⟨rfl, rfl⟩
  | some mnt =>
    dsimp only [Option.bind_some, Option.map_some, Option.getD_some] at hrest ⊢
    cases hroot : mnt.root with
    | none =>
      rw [hroot] at hrest
      cases hrest
      exact Or.inl ⟨rfl, rfl⟩
    | some root =>
      rw [hroot] at hrest
      dsimp only at hrest ⊢
      obtain ⟨mlen, hmlen, hmap⟩ := Option.bind_eq_some_iff.mp hrest
      obtain ⟨⟨found, w1⟩, hloop, hr⟩ := Option.map_eq_some_iff.mp hmap
      obtain ⟨-, rfl⟩ := Prod.mk.inj hr
      rw [hmlen, Option.bind_some]
      exact resolveLoop_first hh hloop

end Calls

/-! ## `vfs_open` and `vfs_close` -/

section Files

variable {newPage} {d : Drivers (World π)} {fs : Nodes VnodeT}
  {mountTable : List (FsMount (Ptr × VnodeT))} {pm stack : Mem} {path : Nat} {flags : Int}
  {s s' : VfsState (World π)} {live : List Alloc}

theorem openFile_world (s : VfsState (World π)) (node file : Ptr) (flags : Int) :
    (openFile s node flags file).2.world = s.world := by
  have hactive : ∀ (t : VfsState (World π)) i p, (setActive t i p).world = t.world := by
    intro t i p
    rw [setActive]
    split <;> rfl
  rw [openFile]
  split
  · rfl
  · rcases Vfs.allocFd_spec { s with
        live := Function.update s.live file true
        files := Function.update s.files file ⟨node, 0, flags, 1⟩ } file with
      hfull | ⟨k, -, -, -, heq⟩
    · simp only [hfull]
      rfl
    · have hk : ¬ (k : Int) < 0 := by omega
      simp only [heq, if_neg hk]
      exact hactive ..

/-- `alloc_fd` fails on a full table only. -/
theorem allocFdLoop_full {file : Ptr} {i n : Nat}
    (hfull : (Vfs.allocFdLoop s file i n).1 = -1) :
    ∀ j, i ≤ j → j < i + n → Vfs.activeFdTable s j ≠ 0 := by
  induction n generalizing i with
  | zero => exact fun j h1 h2 => by omega
  | succ n ih =>
    rw [Vfs.allocFdLoop] at hfull
    split at hfull
    · exact absurd hfull (by omega)
    case isFalse hi =>
    intro j h1 h2
    rcases Nat.eq_or_lt_of_le h1 with rfl | hlt
    · exact hi
    · exact ih hfull j hlt (by omega)

/-- The table of the caller has no free entry. -/
def TableFull (s : VfsState (World π)) : Prop :=
  ∀ k : Nat, k < MAX_FDS → fileAt s s.currProcess k ≠ 0

theorem activeFdTable_fileAt (s : VfsState (World π)) {k : Nat} (hk : k < MAX_FDS) :
    Vfs.activeFdTable s k = fileAt s s.currProcess k := by
  rw [fileAt, if_neg (by omega)]
  rfl

/-- A `file_t` got a descriptor, or the table was full. -/
theorem openFile_cases (s : VfsState (World π)) (node : Ptr) {file : Ptr} (flags : Int)
    (hne : file ≠ 0) :
    (TableFull s ∧ (openFile s node flags file).1 = -1 ∧
      (openFile s node flags file).2.fds = s.fds) ∨
    ∃ k : Nat, k < MAX_FDS ∧ fileAt s s.currProcess k = 0 ∧ (openFile s node flags file).1 = k ∧
      (openFile s node flags file).2.currProcess = s.currProcess ∧
      fileAt (openFile s node flags file).2 s.currProcess k = file ∧
      (openFile s node flags file).2.files file = ⟨node, 0, flags, 1⟩ := by
  rw [openFile, if_neg hne]
  generalize hs1 : ({ s with
    live := Function.update s.live file true
    files := Function.update s.files file ⟨node, 0, flags, 1⟩ } : VfsState (World π)) = s1
  have hfile : s1.files file = ⟨node, 0, flags, 1⟩ := by
    rw [← hs1]
    exact Function.update_self ..
  have hat : ∀ c fd, fileAt s1 c fd = fileAt s c fd := fun c fd => by rw [← hs1]; rfl
  have hcurr : s1.currProcess = s.currProcess := by rw [← hs1]
  dsimp only
  rcases Vfs.allocFd_spec s1 file with hfull | ⟨k, hk, hfree, -, heq⟩
  · have hneg : (-1 : Int) < 0 := by decide
    have hnone := allocFdLoop_full (show (Vfs.allocFdLoop s1 file 0 MAX_FDS).1 = -1 from
      congrArg Prod.fst hfull)
    rw [hfull, if_pos hneg]
    refine Or.inl ⟨fun k hk => ?_, rfl, by rw [← hs1]; rfl⟩
    rw [← hat, ← hcurr, ← activeFdTable_fileAt s1 hk]
    exact hnone k (Nat.zero_le _) (by omega)
  · have hpos : ¬ (k : Int) < 0 := by omega
    rw [heq, if_neg hpos]
    refine Or.inr ⟨k, hk, ?_, rfl, ?_, ?_, ?_⟩
    · rw [← hat, ← hcurr]
      exact hfree
    · dsimp only
      rw [setActive]
      split
      · exact hcurr
      · exact hcurr
    · rw [Vfs.fileAt_setActive s1 hk, if_pos ⟨hcurr.symm, rfl⟩]
    · rw [(Vfs.setActive_files s1 k file).1]
      exact hfile

theorem callOpen_none (hd : NoHooks d) (w : World π) (node : Ptr) (flags : Int) :
    callOpen d w node flags = (0, w) := by
  rw [callOpen]
  cases hops : d.ops w node with
  | none => rfl
  | some ops => rw [Option.bind_some, (hd w node ops hops).1]

/-- How `vfs_open` ends after a resolution that left `w`: there is no node, or no descriptor
for the `file_t`, or descriptor `k` leads to it. -/
inductive OpenEnd (newPage : π → Nat → Option π) (s : VfsState (World π)) (w : World π) :
    Option (Ptr × VnodeT) → Int → VfsState (World π) → Prop
  | nothing : OpenEnd newPage s w none (-1) { s with world := w }
  | full {node : Ptr × VnodeT} {file : Ptr} {heap : KHeap π} {s' : VfsState (World π)} :
      kmallocCall newPage w.heap SIZEOF_FILE = some (file, heap) → TableFull s →
      s'.world.heap = kfree heap file → s'.fds = s.fds → OpenEnd newPage s w (some node) (-1) s'
  | opened {node : Ptr × VnodeT} {file : Ptr} {heap : KHeap π} {s' : VfsState (World π)} {k : Nat} :
      kmallocCall newPage w.heap SIZEOF_FILE = some (file, heap) → k < MAX_FDS →
      fileAt s s.currProcess k = 0 → s'.world.heap = heap → s'.currProcess = s.currProcess →
      fileAt s' s.currProcess k = file → (s'.files file).refCount = 1 →
      OpenEnd newPage s w (some node) k s'

/-- `vfs_open` from `kmalloc(sizeof(file_t))` on. -/
theorem openFile_end (s : VfsState (World π)) {w : World π} (node : Ptr × VnodeT) (flags : Int)
    {file : Ptr} {heap : KHeap π}
    (hcall : kmallocCall newPage w.heap SIZEOF_FILE = some (file, heap)) (hne : file ≠ 0) :
    let r := openFile { s with world := { w with heap } } node.1 flags file
    OpenEnd newPage s w (some node) r.1 (if r.1 < 0 then kfreeCall r.2 file else r.2) := by
  generalize hs1 : ({ s with world := { w with heap } } : VfsState (World π)) = s1
  have hat : ∀ c fd, fileAt s1 c fd = fileAt s c fd := fun c fd => by rw [← hs1]; rfl
  have hcurr : s1.currProcess = s.currProcess := by rw [← hs1]
  have hworld := openFile_world s1 node.1 file flags
  have hcases := openFile_cases s1 node.1 flags hne
  generalize openFile s1 node.1 flags file = r at hworld hcases
  rcases hcases with ⟨hfull, hfd, hfds⟩ | ⟨k, hk, hfree, hfd, hcurr', hat', hfile⟩
  · have hneg : r.1 < 0 := by omega
    dsimp only
    rw [if_pos hneg, hfd]
    refine .full hcall (fun k hk => ?_) ?_ ?_
    · rw [← hat, ← hcurr]
      exact hfull k hk
    · dsimp only [kfreeCall]
      rw [hworld, ← hs1]
    · exact hfds.trans (by rw [← hs1])
  · have hpos : ¬ r.1 < 0 := by omega
    dsimp only
    rw [if_neg hpos, hfd]
    refine .opened hcall hk ?_ ?_ (hcurr'.trans hcurr) (hcurr ▸ hat') (by rw [hfile])
    · rw [← hat, ← hcurr]
      exact hfree
    · rw [hworld, ← hs1]

theorem vfsOpen_cases (hd : NoHooks d) (hh : HeapHolds s.world.heap live) {fd : Int}
    (hopen : vfsOpen newPage d fs mountTable s stack pm path flags = some (fd, s')) :
    ∃ r w news, vfsResolve newPage fs mountTable s.world stack pm path = some (r, w) ∧
      ((firstFound fs mountTable stack pm path = some none ∧ news = [] ∧ w = s.world) ∨
        (∃ v, firstFound fs mountTable stack pm path = some (some v)) ∧ news ≠ []) ∧
      HeapHolds w.heap (news ++ live) ∧ OpenEnd newPage s w r fd s' := by
  obtain ⟨⟨r, w⟩, hresolve, hrest⟩ := Option.bind_eq_some_iff.mp hopen
  obtain ⟨news, hfirst, hholds⟩ : ∃ news,
      ((firstFound fs mountTable stack pm path = some none ∧ news = [] ∧ w = s.world) ∨
        (∃ v, firstFound fs mountTable stack pm path = some (some v)) ∧ news ≠ []) ∧
      HeapHolds w.heap (news ++ live) := by
    rcases vfsResolve_first hh hresolve with ⟨hnone, rfl⟩ | ⟨hsome, news, hne, hh'⟩
    · exact ⟨[], Or.inl ⟨hnone, rfl, rfl⟩, hh⟩
    · exact ⟨news, Or.inr ⟨hsome, hne⟩, hh'⟩
  refine ⟨r, w, news, hresolve, hfirst, hholds, ?_⟩
  cases r with
  | none =>
    cases hrest
    exact .nothing
  | some node =>
    dsimp only at hrest
    rw [callOpen_none hd, if_neg (show ¬ (0 : Int) < 0 by decide)] at hrest
    obtain ⟨⟨file, heap⟩, hcall, hfd⟩ := Option.map_eq_some_iff.mp hrest
    have hend := openFile_end s node flags hcall (kmallocCall_holds hholds hcall).2
    dsimp only at hend hfd
    generalize openFile { s with world := { w with heap } } node.1 flags file = t at hend hfd
    split at hfd
    case isTrue hneg =>
      rw [if_pos hneg] at hend
      cases hfd
      exact hend
    case isFalse hpos =>
      rw [if_neg hpos] at hend
      subst hfd
      exact hend

theorem callClose_none (hd : NoHooks d) (w : World π) (node : Ptr) : Vfs.callClose d w node = w := by
  rw [Vfs.callClose]
  cases hops : d.ops w node with
  | none => rfl
  | some ops => rw [Option.bind_some, (hd w node ops hops).2]

/-- `vfs_close` frees a `file_t` with one reference. -/
theorem vfsClose_heap (hd : NoHooks d) {fd : Int} (hne : getFile s fd ≠ 0)
    (hcount : (s.files (getFile s fd)).refCount = 1) :
    (vfsClose d s fd).2.world.heap = kfree s.world.heap (getFile s fd) := by
  have hlast : (s.files (getFile s fd)).refCount - 1 = 0 := by omega
  have hworld : (Vfs.vfsClose d s fd).2.world = s.world := by
    rw [Vfs.vfsClose, if_neg hne]
    dsimp only [Vfs.dropRef]
    rw [if_pos hlast]
    exact callClose_none hd _ _
  rw [vfsClose, if_pos ⟨hne, hlast⟩]
  dsimp only [kfreeCall]
  rw [hworld]

/-- The heap after the call, or after `vfs_close` of its descriptor. -/
def heapAfter (d : Drivers (World π)) (s' : VfsState (World π)) (fd : Int) : KHeap π :=
  if fd = -1 then s'.world.heap else (vfsClose d s' fd).2.world.heap

/-- What is live then: what was, and the vnodes. -/
theorem heapAfter_holds (hd : NoHooks d) (hh : HeapHolds s.world.heap live) {fd : Int}
    (hopen : vfsOpen newPage d fs mountTable s stack pm path flags = some (fd, s')) :
    ∃ news, (news = [] ↔ firstFound fs mountTable stack pm path = some none) ∧
      HeapHolds (heapAfter d s' fd) (news ++ live) := by
  obtain ⟨r, w, news, -, hfirst, hholds, hcases⟩ := vfsOpen_cases hd hh hopen
  refine ⟨news, ?_, ?_⟩
  · rcases hfirst with ⟨hnone, hnil, -⟩ | ⟨⟨v, hsome⟩, hne⟩
    · exact iff_of_true hnil hnone
    · refine iff_of_false hne fun hnone => ?_
      rw [hnone] at hsome
      cases hsome
  cases hcases with
  | nothing => exact hholds
  | full hcall hfull hheap hfds =>
    rw [heapAfter, if_pos rfl, hheap]
    exact kmallocCall_kfree hholds hcall
  | @opened node file heap _ k hcall hk hfree hheap hcurr hat hcount =>
    have hfile : getFile s' k = file := by rw [Vfs.getFile_eq, hcurr, hat]
    have hne := (kmallocCall_holds hholds hcall).2
    rw [heapAfter, if_neg (by omega), vfsClose_heap hd (hfile ▸ hne) (hfile ▸ hcount), hheap, hfile]
    exact kmallocCall_kfree hholds hcall

/-- More is live than before when something was added. -/
theorem liveBlocks_append {h h' : KHeap π} {news : List Alloc} (hh : HeapHolds h live)
    (hh' : HeapHolds h' (news ++ live)) : liveBlocks h' = liveBlocks h ↔ news = [] := by
  rw [hh.liveBlocks_eq, hh'.liveBlocks_eq]
  constructor
  · intro heq
    cases news with
    | nil => rfl
    | cons a news =>
      have hmem : a ∈ live := by
        have hset : a ∈ ({a | a ∈ live} : Set Alloc) := by
          rw [← heq]
          exact List.mem_cons_self ..
        exact hset
      exact absurd (List.mem_append_right news hmem) hh'.fresh
  · rintro rfl
    rfl

/-- A small request is served while there are pages. -/
theorem kmallocCall_returns {h : KHeap π} {size : Nat} {pages : π} (hh : HeapHolds h live)
    (hsize : size ≤ PAGE_SIZE - HEADER) (hroom : h.kheapEnd + PAGE_SIZE ≤ LARGE_ALLOC_BASE)
    (hpage : newPage h.pages h.kheapEnd = some pages) :
    ∃ p h', kmallocCall newPage h size = some (p, h') ∧
      h'.kheapEnd ≤ h.kheapEnd + PAGE_SIZE := by
  obtain ⟨spans, hinv, -⟩ := hh.blocks
  have hlt : h.kheapEnd + PAGE_SIZE < 2 ^ 32 := Nat.lt_of_le_of_lt hroom (by decide)
  by_cases hfits : ∃ b, Fits h size b
  · obtain ⟨p, h', hcall, hend, -⟩ :=
      kmalloc_fits (heapPage newPage) hinv (by omega) hfits (2 ^ 32 - 1)
    exact ⟨p, h', hcall, by omega⟩
  · have hpage' : heapPage newPage h.pages h.kheapEnd = some pages := by
      rw [heapPage, if_pos hroom, hpage]
    obtain ⟨p, h', hcall, hend, -⟩ := kmalloc_grows hinv hlt hsize hfits hpage' (2 ^ 32 - 2)
    exact ⟨p, h', hcall, by omega⟩

/-- What is found is opened, or there is no descriptor left. -/
theorem vfsOpen_returns (hd : NoHooks d) {node : Ptr × VnodeT} {w : World π} {file : Ptr}
    {heap : KHeap π}
    (hresolve : vfsResolve newPage fs mountTable s.world stack pm path = some (some node, w))
    (hcall : kmallocCall newPage w.heap SIZEOF_FILE = some (file, heap)) :
    ∃ fd s', vfsOpen newPage d fs mountTable s stack pm path flags = some (fd, s') := by
  rw [vfsOpen, hresolve, Option.bind_some]
  dsimp only
  rw [callOpen_none hd, if_neg (show ¬ (0 : Int) < 0 by decide), hcall]
  exact ⟨_, _, rfl⟩

/-- **The cost of an open file.**  The live blocks are as before, after a failed `vfs_open`
and after `vfs_close`, exactly when the first lookup behind the mount found no vnode. -/
theorem open_balanced_iff (disk : Disk) (hd : NoHooks d) (hh : HeapHolds s.world.heap live)
    {fd : Int}
    (hopen : vfsOpen newPage d disk.nodes mountTable s stack pm path flags = some (fd, s')) :
    liveBlocks (heapAfter d s' fd) = liveBlocks s.world.heap ↔
      firstFound disk.nodes mountTable stack pm path = some none := by
  obtain ⟨news, hiff, hholds⟩ := heapAfter_holds hd hh hopen
  rw [liveBlocks_append hh hholds, hiff]

end Files

/-! ## A devfs with a terminal -/

def devMounts : List (FsMount (Ptr × VnodeT)) :=
  [⟨memOf 0 [SLASH, 0x64, 0x65, 0x76, 0], some (0xd0000014, .devfsRoot)⟩]

def ttyEntry : DevfsEntry := ⟨memOf 0 [0x74, 0x74, 0x79, 0], 4, true⟩

def ttyDisk : Disk := ⟨⟨0, 0, 0⟩, fun _ => 0, fun _ => 0, fun _ => 0, [ttyEntry]⟩

def noDrivers : Drivers (World Unit) := ⟨fun w _ => (none, w), fun _ _ => 0, fun _ _ => none⟩

/-- No file is open, and the kernel calls. -/
def closedFiles (h : KHeap Unit) : VfsState (World Unit) :=
  ⟨fun _ => 0, fun _ _ => 0, 0, fun _ => ⟨0, 0, 0, 0⟩, fun _ => false, ⟨h, fun _ => none⟩⟩

theorem noDrivers_noHooks : NoHooks noDrivers := fun w node ops hops => by cases hops

def devPath : Mem := memOf 0 [SLASH, 0x64, 0x65, 0x76, 0]

def ttyPath : Mem := memOf 0 [SLASH, 0x64, 0x65, 0x76, SLASH, 0x74, 0x74, 0x79, 0]

theorem kheapInit_holds {mem : Mem} {pages : π} {h : KHeap π}
    (hinit : kheapInit newPage mem pages = some h) : HeapHolds h [] := by
  refine ⟨?_, _, kheapInit_inv hinit, List.Perm.refl _⟩
  rw [kheapInit_end hinit]
  decide

/-- A heap with pages to come serves small requests. -/
theorem endless_serves {h : KHeap Unit} {live : List Alloc} {size : Nat} (hh : HeapHolds h live)
    (hsize : size ≤ PAGE_SIZE - HEADER) (hroom : h.kheapEnd + PAGE_SIZE ≤ LARGE_ALLOC_BASE) :
    ∃ p h', kmallocCall endlessPages h size = some (p, h') ∧ p ≠ 0 ∧
      HeapHolds h' (⟨p, size⟩ :: live) ∧ h'.kheapEnd ≤ h.kheapEnd + PAGE_SIZE := by
  have hpage : endlessPages h.pages h.kheapEnd = some () := rfl
  obtain ⟨p, h', hcall, hend⟩ := kmallocCall_returns hh hsize hroom hpage
  obtain ⟨hh', hp⟩ := kmallocCall_holds hh hcall
  exact ⟨p, h', hcall, hp, hh', hend⟩

/-- The root of the devfs, opened and closed. -/
theorem dev_balanced : ∃ h s' fd, kheapInit endlessPages (fun _ => 0) () = some h ∧
    vfsOpen endlessPages noDrivers ttyDisk.nodes devMounts (closedFiles h) (fun _ => 0) devPath 0 0 =
      some (fd, s') ∧
    liveBlocks (heapAfter noDrivers s' fd) = liveBlocks h := by
  obtain ⟨h, hinit⟩ : ∃ h, kheapInit endlessPages (fun _ => 0) () = some h := by
    rw [kheapInit, mapPages_endless]
    exact ⟨_, rfl⟩
  have hh := kheapInit_holds endlessPages hinit
  have hroom : h.kheapEnd + PAGE_SIZE ≤ LARGE_ALLOC_BASE := by
    rw [kheapInit_end hinit]
    decide
  have hresolve : vfsResolve endlessPages ttyDisk.nodes devMounts (closedFiles h).world
      (fun _ => 0) devPath 0 = some (some (0xd0000014, .devfsRoot), (closedFiles h).world) := rfl
  obtain ⟨file, heap, hcall, -⟩ := endless_serves hh
    (show SIZEOF_FILE ≤ PAGE_SIZE - HEADER by decide) hroom
  obtain ⟨fd, s', hopen⟩ := vfsOpen_returns (s := closedFiles h) noDrivers_noHooks hresolve hcall
  exact ⟨h, s', fd, hinit, hopen,
    (open_balanced_iff ttyDisk noDrivers_noHooks (s := closedFiles h) hh hopen).mpr rfl⟩

theorem tty_resolves {w : World Unit} {p : Ptr} {heap : KHeap Unit}
    (hcall : kmallocCall endlessPages w.heap SIZEOF_VNODE = some (p, heap)) (hp : p ≠ 0) :
    vfsResolve endlessPages ttyDisk.nodes devMounts w (fun _ => 0) ttyPath 0 =
      some (some (p, .device ttyEntry),
        ⟨heap, Function.update w.vnode p (some (.device ttyEntry))⟩) := by
  have hfind : findMount devMounts ttyPath 0 = some devMounts.head? := rfl
  have hlen : strlen (memOf 0 [SLASH, 0x64, 0x65, 0x76, 0]) 0 ROUNDS = some 4 := rfl
  have hskip : skipSlashes ttyPath ROUNDS 4 = some 5 := rfl
  obtain ⟨component, hcopy, henter⟩ : ∃ component,
      copyComponent ttyPath ROUNDS (fun _ => 0) 0 5 = some (component, 3, 8) ∧
      enter ttyDisk.nodes .devfsRoot (write8 component 3 0) = some (some (.device ttyEntry)) :=
    ⟨_, rfl, rfl⟩
  have hnode : enterNode endlessPages ttyDisk.nodes w .devfsRoot (write8 component 3 0) =
      some (some (p, .device ttyEntry),
        ⟨heap, Function.update w.vnode p (some (.device ttyEntry))⟩) := by
    rw [enterNode, henter, Option.bind_some]
    dsimp only [createVnode]
    rw [hcall, Option.map_some, if_neg hp]
  have hloop : resolveLoop endlessPages ttyDisk.nodes ttyPath ROUNDS w (fun _ => 0) (0 + 4)
      (0xd0000014, .devfsRoot) = some (some (p, .device ttyEntry),
        ⟨heap, Function.update w.vnode p (some (.device ttyEntry))⟩) := by
    rw [show ROUNDS = (ROUNDS - 1) + 1 from rfl, resolveLoop, if_neg (by decide), hskip,
      Option.bind_some, if_neg (by decide), hcopy, Option.bind_some]
    dsimp only
    rw [hnode, Option.bind_some]
    rfl
  rw [vfsResolve, hfind, Option.bind_some]
  dsimp only [devMounts, List.head?]
  rw [hlen, Option.bind_some, hloop]
  have hcovered : covered ttyDisk.nodes (.device ttyEntry) = .device ttyEntry := by
    rw [covered]
    split <;> rfl
  rw [Option.map_some, Option.map_some, hcovered]

/-- The terminal costs a vnode. -/
theorem tty_leaks : ∃ h s' fd, kheapInit endlessPages (fun _ => 0) () = some h ∧
    vfsOpen endlessPages noDrivers ttyDisk.nodes devMounts (closedFiles h) (fun _ => 0) ttyPath 0 0 =
      some (fd, s') ∧
    liveBlocks (heapAfter noDrivers s' fd) ≠ liveBlocks h := by
  obtain ⟨h, hinit⟩ : ∃ h, kheapInit endlessPages (fun _ => 0) () = some h := by
    rw [kheapInit, mapPages_endless]
    exact ⟨_, rfl⟩
  have hh := kheapInit_holds endlessPages hinit
  have hend := kheapInit_end hinit
  obtain ⟨p, heap, hcall, hp, hh', hend'⟩ := endless_serves hh
    (show SIZEOF_VNODE ≤ PAGE_SIZE - HEADER by decide) (by rw [hend]; decide)
  have hroom : heap.kheapEnd + PAGE_SIZE ≤ LARGE_ALLOC_BASE := by
    rw [hend] at hend'
    exact (Nat.add_le_add_right hend' _).trans (by decide)
  obtain ⟨file, heap', hcall', -⟩ := endless_serves hh'
    (show SIZEOF_FILE ≤ PAGE_SIZE - HEADER by decide) hroom
  obtain ⟨fd, s', hopen⟩ := vfsOpen_returns (s := closedFiles h) noDrivers_noHooks
    (tty_resolves hcall hp) hcall'
  obtain ⟨news, hiff, hholds⟩ := heapAfter_holds (s := closedFiles h) noDrivers_noHooks hh hopen
  refine ⟨h, s', fd, hinit, hopen, fun heq => ?_⟩
  have hnone := hiff.mp ((liveBlocks_append hh hholds).mp heq)
  cases hnone

end FrogKernel.Opening
