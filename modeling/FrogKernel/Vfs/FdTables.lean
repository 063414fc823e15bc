import FrogKernel.Vfs.Vfs

/-!
# Descriptor tables as independent finite maps

`SpecStep` is what the calls owe their callers: every caller has a finite map
from descriptors to a vnode and an offset, and a call changes at most one
binding, of its own caller.  `vfs_refines_maps` shows that the code follows it
on every run in which no process closes a descriptor it has open;
`vfsClose_keeps_binding` is what happens when one does: `vfs_close` clears the
slot of `kernel_fd_table`, whoever calls it.
-/

namespace FrogKernel.Vfs

open FrogKernel.Runs

/-! ## The specification -/

/-- For each caller (0 is the kernel) the bound descriptors. -/
abbrev Maps := Ptr → Int → Option (Ptr × Nat)

def rebind (M : Maps) (c : Ptr) (fd : Int) (x : Option (Ptr × Nat)) : Maps :=
  Function.update M c (Function.update (M c) fd x)

theorem rebind_apply (M : Maps) (c : Ptr) (fd : Int) (x : Option (Ptr × Nat)) (c' : Ptr)
    (fd' : Int) : rebind M c fd x c' fd' = if c' = c ∧ fd' = fd then x else M c' fd' := by
  unfold rebind
  by_cases hc : c' = c
  · subst hc
    by_cases hfd : fd' = fd <;> simp [hfd]
  · simp [hc]

/-- A call with its caller and result, or one of the things that happen
between calls. -/
inductive VfsEvent where
  | contextSwitch (next : Ptr)
  | driverActivity
  | vfsOpen (caller : Ptr) (node : Option Ptr) (ret : Int)
  | vfsClose (caller : Ptr) (fd ret : Int)
  | vfsRead (caller : Ptr) (fd ret : Int)
  | vfsWrite (caller : Ptr) (fd ret : Int)
  | vfsStat (caller : Ptr) (fd ret : Int)
  | vfsReaddir (caller : Ptr) (fd ret : Int)
  | vfsIoctl (caller : Ptr) (fd ret : Int)

/-- A transfer of `n` bytes moves the offset by `n`; an error moves nothing. -/
def advance (off : Nat) (n : Int) : Nat := if n > 0 then (off + n.toNat) % 2 ^ 32 else off

/-- The descriptor maps before and after a read or write. -/
inductive SpecTransfer (M : Maps) (c : Ptr) (fd ret : Int) : Maps → Prop
  | unbound : M c fd = none → ret = -1 → SpecTransfer M c fd ret M
  | bound {node : Ptr} {off : Nat} : M c fd = some (node, off) →
      SpecTransfer M c fd ret (rebind M c fd (some (node, advance off ret)))

/-- What the calls owe their callers. -/
inductive SpecStep : Maps → VfsEvent → Maps → Prop
  | contextSwitch {M : Maps} {next : Ptr} : SpecStep M (.contextSwitch next) M
  | driverActivity {M : Maps} : SpecStep M .driverActivity M
  | opened {M : Maps} {c node : Ptr} {fd : Int} : 0 ≤ fd → fd < MAX_FDS → M c fd = none →
      (∀ j, 0 ≤ j → j < fd → M c j ≠ none) →
      SpecStep M (.vfsOpen c (some node) fd) (rebind M c fd (some (node, 0)))
  | openFailed {M : Maps} {c : Ptr} {node : Option Ptr} : SpecStep M (.vfsOpen c node (-1)) M
  | closed {M : Maps} {c : Ptr} {fd : Int} : M c fd ≠ none →
      SpecStep M (.vfsClose c fd 0) (rebind M c fd none)
  | closeFailed {M : Maps} {c : Ptr} {fd : Int} : M c fd = none →
      SpecStep M (.vfsClose c fd (-1)) M
  | read {M M' : Maps} {c : Ptr} {fd ret : Int} : SpecTransfer M c fd ret M' →
      SpecStep M (.vfsRead c fd ret) M'
  | write {M M' : Maps} {c : Ptr} {fd ret : Int} : SpecTransfer M c fd ret M' →
      SpecStep M (.vfsWrite c fd ret) M'
  | stat {M : Maps} {c : Ptr} {fd ret : Int} : (M c fd = none → ret = -1) →
      SpecStep M (.vfsStat c fd ret) M
  | readdir {M : Maps} {c : Ptr} {fd ret : Int} : (M c fd = none → ret = -1) →
      SpecStep M (.vfsReaddir c fd ret) M
  | ioctl {M : Maps} {c : Ptr} {fd ret : Int} : (M c fd = none → ret = -1) →
      SpecStep M (.vfsIoctl c fd ret) M

/-! ## Steps of the code -/

variable {W : Type}

/-- The steps of the code.  Every call is made by `curr_process`; the pointer
`kmalloc` gives `vfs_open` is no live allocation; between calls the drivers may
do what they like to their own state. -/
inductive VfsStep (d : Drivers W) : VfsState W → VfsEvent → VfsState W → Prop
  | contextSwitch {s : VfsState W} {next : Ptr} :
      VfsStep d s (.contextSwitch next) { s with currProcess := next }
  | driverActivity {s : VfsState W} {w : W} : VfsStep d s .driverActivity { s with world := w }
  | vfsOpen {s s' : VfsState W} {ret : Int} (path : List (BitVec 8)) (flags : Int) (file : Ptr) :
      s.live file = false → vfsOpen d s path flags file = (ret, s') →
      VfsStep d s (.vfsOpen s.currProcess (d.vfsResolve s.world path).1 ret) s'
  | vfsClose {s s' : VfsState W} {fd ret : Int} : vfsClose d s fd = (ret, s') →
      VfsStep d s (.vfsClose s.currProcess fd ret) s'
  | vfsRead {s s' : VfsState W} {fd ret : Int} {buf len : Nat} :
      vfsRead d s fd buf len = (ret, s') → VfsStep d s (.vfsRead s.currProcess fd ret) s'
  | vfsWrite {s s' : VfsState W} {fd ret : Int} {buf len : Nat} :
      vfsWrite d s fd buf len = (ret, s') → VfsStep d s (.vfsWrite s.currProcess fd ret) s'
  | vfsStat {s s' : VfsState W} {fd ret : Int} {st : Nat} :
      vfsStat d s fd st = (ret, s') → VfsStep d s (.vfsStat s.currProcess fd ret) s'
  | vfsReaddir {s s' : VfsState W} {fd ret : Int} {index nameOut nameMax : Nat} :
      vfsReaddir d s fd index nameOut nameMax = (ret, s') →
      VfsStep d s (.vfsReaddir s.currProcess fd ret) s'
  | vfsIoctl {s s' : VfsState W} {fd ret request : Int} {arg : Nat} :
      vfsIoctl d s fd request arg = (ret, s') → VfsStep d s (.vfsIoctl s.currProcess fd ret) s'

/-! ## From tables to maps -/

/-- The `file_t` a caller has at `fd`. -/
def fileAt (s : VfsState W) (c : Ptr) (fd : Int) : Ptr :=
  if fd < 0 ∨ fd ≥ MAX_FDS then 0 else tableOf s c fd.toNat

theorem getFile_eq (s : VfsState W) (fd : Int) : getFile s fd = fileAt s s.currProcess fd := by
  simp only [getFile, fileAt, activeFdTable]

/-- The map a table stands for. -/
def absMap (s : VfsState W) : Maps := fun c fd =>
  if fileAt s c fd = 0 then none
  else some ((s.files (fileAt s c fd)).vnode, (s.files (fileAt s c fd)).offset)

theorem absMap_none {s : VfsState W} {c : Ptr} {fd : Int} :
    absMap s c fd = none ↔ fileAt s c fd = 0 := by
  unfold absMap
  split <;> simp [*]

theorem absMap_some {s : VfsState W} {c : Ptr} {fd : Int} (h : fileAt s c fd ≠ 0) :
    absMap s c fd =
      some ((s.files (fileAt s c fd)).vnode, (s.files (fileAt s c fd)).offset) :=
  if_neg h

/-- Every entry is an allocated `file_t` with one reference, and no two
entries of any tables are the same. -/
structure Owned (s : VfsState W) : Prop where
  live : ∀ c fd, fileAt s c fd ≠ 0 → s.live (fileAt s c fd) = true
  refs : ∀ c fd, fileAt s c fd ≠ 0 → (s.files (fileAt s c fd)).refCount = 1
  inj : ∀ c fd c' fd', fileAt s c fd ≠ 0 → fileAt s c fd = fileAt s c' fd' → c = c' ∧ fd = fd'

/-- What `kmalloc` returns is in no table. -/
theorem Owned.ne_fresh {s : VfsState W} (h : Owned s) {file : Ptr} (hfresh : s.live file = false)
    (c : Ptr) (fd : Int) (h0 : fileAt s c fd ≠ 0) : fileAt s c fd ≠ file := by
  intro he
  have hlive := h.live c fd h0
  rw [he, hfresh] at hlive
  exact Bool.false_ne_true hlive

theorem tableOf_setActive (s : VfsState W) (i : Nat) (p c : Ptr) :
    tableOf (setActive s i p) c =
      if c = s.currProcess then Function.update (tableOf s c) i p else tableOf s c := by
  unfold tableOf setActive
  by_cases hs : s.currProcess = 0
  · by_cases hc : c = 0 <;> simp [hs, hc]
  · by_cases hc : c = s.currProcess
    · subst hc; simp [hs]
    · by_cases h0 : c = 0
      · subst h0; simp [hs, Ne.symm hs]
      · simp [hs, hc, h0]

theorem setActive_files (s : VfsState W) (i : Nat) (p : Ptr) :
    (setActive s i p).files = s.files ∧ (setActive s i p).live = s.live := by
  unfold setActive
  split <;> exact ⟨rfl, rfl⟩

theorem fileAt_setActive (s : VfsState W) {i : Nat} (hi : i < MAX_FDS) (p c : Ptr) (fd : Int) :
    fileAt (setActive s i p) c fd =
      if c = s.currProcess ∧ fd = i then p else fileAt s c fd := by
  unfold fileAt
  rw [tableOf_setActive]
  by_cases hr : fd < 0 ∨ fd ≥ MAX_FDS
  · have hne : ¬ fd = i := by omega
    simp [hr, hne]
  · by_cases hc : c = s.currProcess
    · by_cases hfd : fd = i
      · have hlt : ¬ ((i : Int) < 0 ∨ MAX_FDS ≤ i) := by omega
        subst hfd; simp [hc, hlt]
      · have hne : fd.toNat ≠ i := by omega
        simp [hc, hfd, Function.update_of_ne hne]
    · simp [hc]

/-- `fileAt` reads nothing but the tables. -/
theorem fileAt_congr {s s' : VfsState W} (hk : s'.kernelFdTable = s.kernelFdTable)
    (hf : s'.fds = s.fds) (c : Ptr) (fd : Int) : fileAt s' c fd = fileAt s c fd := by
  unfold fileAt tableOf
  rw [hk, hf]

/-! ## `alloc_fd` -/

/-- The scan finds the lowest empty slot, if there is one. -/
theorem allocFdLoop_spec (s : VfsState W) (file : Ptr) :
    ∀ n i, allocFdLoop s file i n = (-1, s) ∨
      ∃ k : Nat, i ≤ k ∧ k < i + n ∧ activeFdTable s k = 0 ∧
        (∀ j, i ≤ j → j < k → activeFdTable s j ≠ 0) ∧
        allocFdLoop s file i n = ((k : Int), setActive s k file)
  | 0, i => Or.inl rfl
  | n + 1, i => by
    unfold allocFdLoop
    by_cases h : activeFdTable s i = 0
    · exact Or.inr ⟨i, Nat.le_refl i, by omega, h, fun j h1 h2 => absurd h1 (by omega),
        by rw [if_pos h]⟩
    · rw [if_neg h]
      rcases allocFdLoop_spec s file n (i + 1) with hfull | ⟨k, h1, h2, hk, hlow, heq⟩
      · exact Or.inl hfull
      · refine Or.inr ⟨k, by omega, by omega, hk, fun j hj hjk => ?_, heq⟩
        by_cases e : j = i
        · rw [e]; exact h
        · exact hlow j (by omega) hjk

theorem allocFd_spec (s : VfsState W) (file : Ptr) :
    allocFd s file = (-1, s) ∨
      ∃ k : Nat, k < MAX_FDS ∧ fileAt s s.currProcess k = 0 ∧
        (∀ j : Int, 0 ≤ j → j < k → fileAt s s.currProcess j ≠ 0) ∧
        allocFd s file = ((k : Int), setActive s k file) := by
  rcases allocFdLoop_spec s file MAX_FDS 0 with hfull | ⟨k, _, hk, hfree, hlow, heq⟩
  · exact Or.inl hfull
  · have hk' : k < MAX_FDS := by omega
    refine Or.inr ⟨k, hk', ?_, fun j h0 hj => ?_, heq⟩
    · have hr : ¬ ((k : Int) < 0 ∨ (k : Int) ≥ MAX_FDS) := by omega
      rw [fileAt, if_neg hr]
      simpa [activeFdTable] using hfree
    · have hr : ¬ (j < 0 ∨ j ≥ MAX_FDS) := by omega
      rw [fileAt, if_neg hr]
      exact hlow j.toNat (by omega) (by omega)

/-! ## One call at a time -/

/-- A call that leaves the tables and the `file_t`s in them alone. -/
theorem owned_of_same {s t : VfsState W} (h : Owned s) (hk : t.kernelFdTable = s.kernelFdTable)
    (hf : t.fds = s.fds)
    (hfiles : ∀ c fd, fileAt s c fd ≠ 0 → t.files (fileAt s c fd) = s.files (fileAt s c fd))
    (hlive : ∀ c fd, fileAt s c fd ≠ 0 → t.live (fileAt s c fd) = s.live (fileAt s c fd)) :
    Owned t ∧ absMap t = absMap s := by
  have hfa := fileAt_congr hk hf
  refine ⟨⟨fun c fd hne => ?_, fun c fd hne => ?_, fun c fd c' fd' hne he => ?_⟩, ?_⟩
  · rw [hfa] at hne ⊢
    rw [hlive c fd hne]; exact h.live c fd hne
  · rw [hfa] at hne ⊢
    rw [hfiles c fd hne]; exact h.refs c fd hne
  · rw [hfa] at hne he
    rw [hfa] at he
    exact h.inj c fd c' fd' hne he
  · funext c fd
    by_cases h0 : fileAt s c fd = 0
    · rw [absMap_none.mpr h0, absMap_none.mpr ((hfa c fd).trans h0)]
    · rw [absMap_some h0, absMap_some (by rwa [hfa]), hfa, hfiles c fd h0]

/-- A fresh `file_t` put into an empty slot of the caller's table. -/
theorem owned_install {s : VfsState W} (h : Owned s) (node : Ptr) (flags : Int) {file : Ptr}
    {k : Nat} (hfresh : s.live file = false) (hne : file ≠ 0) (hk : k < MAX_FDS) :
    let t : VfsState W := { s with
      live := Function.update s.live file true
      files := Function.update s.files file ⟨node, 0, flags, 1⟩ }
    Owned (setActive t k file) ∧
      absMap (setActive t k file) = rebind (absMap s) s.currProcess k (some (node, 0)) := by
  intro t
  have hat : ∀ c fd, fileAt (setActive t k file) c fd =
      if c = s.currProcess ∧ fd = k then file else fileAt s c fd :=
    fun c fd => fileAt_setActive t hk file c fd
  have hold : ∀ c fd, fileAt s c fd ≠ 0 → fileAt s c fd ≠ file := h.ne_fresh hfresh
  have hsame := setActive_files t k file
  refine ⟨⟨fun c fd hn => ?_, fun c fd hn => ?_, fun c fd c' fd' hn he => ?_⟩, ?_⟩
  · rw [hat] at hn ⊢
    rw [hsame.2]
    split
    · simp [t]
    · rename_i hcase
      rw [if_neg hcase] at hn
      simp only [t, Function.update_of_ne (hold c fd hn)]
      exact h.live c fd hn
  · rw [hat] at hn ⊢
    rw [hsame.1]
    split
    · simp [t]
    · rename_i hcase
      rw [if_neg hcase] at hn
      simp only [t, Function.update_of_ne (hold c fd hn)]
      exact h.refs c fd hn
  · rw [hat] at hn he
    rw [hat] at he
    split at he
    · rename_i h1
      split at he
      · rename_i h2
        exact ⟨h1.1.trans h2.1.symm, h1.2.trans h2.2.symm⟩
      · exact absurd he.symm (hold c' fd' (he ▸ hne))
    · rename_i h1
      rw [if_neg h1] at hn
      split at he
      · exact absurd he (hold c fd hn)
      · exact h.inj c fd c' fd' hn he
  · funext c fd
    rw [rebind_apply]
    simp only [absMap, hat, hsame.1]
    by_cases hcase : c = s.currProcess ∧ fd = k
    · simp [hcase, hne, t]
    · simp only [if_neg hcase]
      by_cases h0 : fileAt s c fd = 0
      · simp [h0]
      · simp [h0, t, Function.update_of_ne (hold c fd h0)]

/-- An open that fails after the descriptor tables were read. -/
theorem openFailed_refines {s t : VfsState W} (h : Owned s)
    (hk : t.kernelFdTable = s.kernelFdTable) (hf : t.fds = s.fds)
    (hfi : ∀ c fd, fileAt s c fd ≠ 0 → t.files (fileAt s c fd) = s.files (fileAt s c fd))
    (hl : ∀ c fd, fileAt s c fd ≠ 0 → t.live (fileAt s c fd) = s.live (fileAt s c fd))
    (node : Option Ptr) :
    Owned t ∧ SpecStep (absMap s) (.vfsOpen s.currProcess node (-1)) (absMap t) := by
  obtain ⟨ho, ha⟩ := owned_of_same h hk hf hfi hl
  exact ⟨ho, ha ▸ SpecStep.openFailed⟩

theorem openFile_refines {s s' : VfsState W} (h : Owned s) {node file : Ptr} {flags ret : Int}
    (hfresh : s.live file = false) (hopen : openFile s node flags file = (ret, s')) :
    Owned s' ∧ SpecStep (absMap s) (.vfsOpen s.currProcess (some node) ret) (absMap s') := by
  have hold : ∀ c fd, fileAt s c fd ≠ 0 → fileAt s c fd ≠ file := h.ne_fresh hfresh
  unfold openFile at hopen
  split at hopen
  · obtain ⟨rfl, rfl⟩ := Prod.mk.inj hopen
    refine openFailed_refines h ?_ ?_ ?_ ?_ _ <;> intros <;> rfl
  rename_i hne
  rcases allocFd_spec { s with
      live := Function.update s.live file true
      files := Function.update s.files file ⟨node, 0, flags, 1⟩ } file with
    hfull | ⟨k, hk, hfree, hlow, heq⟩
  · -- no free descriptor: the new `file_t` is given back
    simp only [hfull, Int.reduceNeg, Int.neg_lt_zero_iff, Int.one_pos, ↓reduceIte] at hopen
    obtain ⟨rfl, rfl⟩ := Prod.mk.inj hopen
    refine openFailed_refines h ?_ ?_ (fun c fd h0 => ?_) (fun c fd h0 => ?_) _
    · rfl
    · rfl
    · simp [kfree, Function.update_of_ne (hold c fd h0)]
    · simp [kfree, Function.update_of_ne (hold c fd h0)]
  · have hk0 : ¬ (k : Int) < 0 := by omega
    simp only [heq, if_neg hk0] at hopen
    obtain ⟨rfl, rfl⟩ := Prod.mk.inj hopen
    obtain ⟨ho, ha⟩ := owned_install h node flags hfresh hne hk
    refine ⟨ho, ha ▸ SpecStep.opened (by omega) (by omega) ?_ ?_⟩
    · exact absMap_none.mpr hfree
    · exact fun j h0 hj hn => hlow j h0 hj ((absMap_none (s := s)).mp hn)

theorem vfsOpen_refines (d : Drivers W) {s s' : VfsState W} (h : Owned s)
    {path : List (BitVec 8)} {flags ret : Int} {file : Ptr} (hfresh : s.live file = false)
    (hopen : vfsOpen d s path flags file = (ret, s')) :
    Owned s' ∧
      SpecStep (absMap s) (.vfsOpen s.currProcess (d.vfsResolve s.world path).1 ret)
        (absMap s') := by
  unfold vfsOpen at hopen
  cases hnode : (d.vfsResolve s.world path).1 with
  | none =>
    simp only [hnode] at hopen
    obtain ⟨rfl, rfl⟩ := Prod.mk.inj hopen
    refine openFailed_refines h ?_ ?_ ?_ ?_ _ <;> intros <;> rfl
  | some node =>
    simp only [hnode] at hopen
    split at hopen
    · obtain ⟨rfl, rfl⟩ := Prod.mk.inj hopen
      refine openFailed_refines h ?_ ?_ ?_ ?_ _ <;> intros <;> rfl
    · obtain ⟨ho, ha⟩ := owned_of_same h (t := { s with
          world := (callOpen d (d.vfsResolve s.world path).2 node flags).2 })
        rfl rfl (fun _ _ _ => rfl) (fun _ _ _ => rfl)
      exact ha ▸ openFile_refines ho hfresh hopen

/-- The last reference: every `file_t` in a table has exactly one. -/
theorem dropRef_spec (d : Drivers W) {s : VfsState W} (h : Owned s) {c : Ptr} {fd : Int}
    (h0 : fileAt s c fd ≠ 0) :
    (dropRef d s (fileAt s c fd)).kernelFdTable = s.kernelFdTable ∧
      (dropRef d s (fileAt s c fd)).fds = s.fds ∧
      (∀ c' fd', fileAt s c' fd' ≠ 0 → ¬ (c' = c ∧ fd' = fd) →
        (dropRef d s (fileAt s c fd)).files (fileAt s c' fd') = s.files (fileAt s c' fd') ∧
        (dropRef d s (fileAt s c fd)).live (fileAt s c' fd') = s.live (fileAt s c' fd')) := by
  have hone : (s.files (fileAt s c fd)).refCount - 1 = 0 := by rw [h.refs c fd h0]; rfl
  unfold dropRef kfree
  simp only [hone, ↓reduceIte]
  refine ⟨trivial, trivial, fun c' fd' h0' hne => ?_⟩
  have hp : fileAt s c' fd' ≠ fileAt s c fd := fun e => hne (h.inj c' fd' c fd h0' e)
  simp [Function.update_of_ne hp]

/-- **Close.**  A kernel close, or one of an unbound descriptor. -/
theorem vfsClose_refines (d : Drivers W) {s s' : VfsState W} (h : Owned s) {fd ret : Int}
    (hguard : s.currProcess = 0 ∨ getFile s fd = 0) (hclose : vfsClose d s fd = (ret, s')) :
    Owned s' ∧ SpecStep (absMap s) (.vfsClose s.currProcess fd ret) (absMap s') := by
  simp only [vfsClose, getFile_eq] at hguard hclose
  by_cases h0 : fileAt s s.currProcess fd = 0
  · rw [if_pos h0] at hclose
    obtain ⟨rfl, rfl⟩ := Prod.mk.inj hclose
    exact ⟨h, SpecStep.closeFailed (absMap_none.mpr h0)⟩
  rw [if_neg h0] at hclose
  have hc : s.currProcess = 0 := hguard.resolve_right h0
  obtain ⟨hk, hf, hrest⟩ := dropRef_spec d h h0
  generalize dropRef d s (fileAt s s.currProcess fd) = t at hclose hk hf hrest
  obtain ⟨rfl, rfl⟩ := Prod.mk.inj hclose
  have hrange : ¬ (fd < 0 ∨ fd ≥ MAX_FDS) := fun hr => h0 (if_pos hr)
  -- the slot of `kernel_fd_table` is the caller's own one
  have hat : ∀ c fd', fileAt { t with kernelFdTable := Function.update t.kernelFdTable fd.toNat 0 }
      c fd' = if c = s.currProcess ∧ fd' = fd then 0 else fileAt s c fd' := by
    intro c fd'
    unfold fileAt tableOf
    by_cases hr : fd' < 0 ∨ fd' ≥ MAX_FDS
    · simp [hr]
    · by_cases hz : c = 0
      · subst hz
        by_cases hfd : fd' = fd
        · subst hfd; simp [hc]
        · have hne : fd'.toNat ≠ fd.toNat := by omega
          simp [hfd, hk, Function.update_of_ne hne]
      · simp [hz, hc, hf]
  refine ⟨⟨fun c fd' hn => ?_, fun c fd' hn => ?_, fun c fd' c' fd'' hn he => ?_⟩, ?_⟩
  · rw [hat] at hn ⊢
    split at hn
    · exact absurd rfl hn
    · rename_i hcase
      rw [if_neg hcase, (hrest c fd' hn hcase).2]
      exact h.live c fd' hn
  · rw [hat] at hn ⊢
    split at hn
    · exact absurd rfl hn
    · rename_i hcase
      rw [if_neg hcase, (hrest c fd' hn hcase).1]
      exact h.refs c fd' hn
  · rw [hat] at hn he
    rw [hat] at he
    split at hn
    · exact absurd rfl hn
    · rename_i hcase
      rw [if_neg hcase] at he
      split at he
      · exact absurd he hn
      · exact h.inj c fd' c' fd'' hn he
  · have hmap : absMap { t with kernelFdTable := Function.update t.kernelFdTable fd.toNat 0 } =
        rebind (absMap s) s.currProcess fd none := by
      funext c fd'
      rw [rebind_apply]
      by_cases hcase : c = s.currProcess ∧ fd' = fd
      · rw [if_pos hcase, absMap_none, hat, if_pos hcase]
      · rw [if_neg hcase]
        by_cases hz : fileAt s c fd' = 0
        · rw [absMap_none.mpr hz, absMap_none, hat, if_neg hcase, hz]
        · rw [absMap_some hz, absMap_some (by rwa [hat, if_neg hcase]), hat, if_neg hcase,
            (hrest c fd' hz hcase).1]
    rw [hmap]
    exact SpecStep.closed (fun hn => h0 (absMap_none.mp hn))

/-- The offset of one bound descriptor is changed. -/
theorem owned_seek {s : VfsState W} (h : Owned s) {c : Ptr} {fd : Int} (h0 : fileAt s c fd ≠ 0)
    (off : Nat) (w : W) :
    let t : VfsState W := { s with
      world := w
      files := Function.update s.files (fileAt s c fd)
        { s.files (fileAt s c fd) with offset := off } }
    Owned t ∧ absMap t = rebind (absMap s) c fd (some ((s.files (fileAt s c fd)).vnode, off)) := by
  intro t
  have hat : ∀ c' fd', fileAt t c' fd' = fileAt s c' fd' := fileAt_congr rfl rfl
  refine ⟨⟨fun c' fd' hn => ?_, fun c' fd' hn => ?_, fun c' fd' c'' fd'' hn he => ?_⟩, ?_⟩
  · rw [hat] at hn ⊢
    exact h.live c' fd' hn
  · rw [hat] at hn ⊢
    by_cases hp : fileAt s c' fd' = fileAt s c fd
    · simpa [t, hp] using h.refs c fd h0
    · simpa [t, Function.update_of_ne hp] using h.refs c' fd' hn
  · rw [hat] at hn he
    rw [hat] at he
    exact h.inj c' fd' c'' fd'' hn he
  · funext c' fd'
    rw [rebind_apply]
    by_cases hcase : c' = c ∧ fd' = fd
    · obtain ⟨rfl, rfl⟩ := hcase
      rw [if_pos ⟨rfl, rfl⟩, absMap_some (by rwa [hat]), hat]
      simp [t]
    · rw [if_neg hcase]
      by_cases hz : fileAt s c' fd' = 0
      · rw [absMap_none.mpr hz, absMap_none, hat, hz]
      · have hp : fileAt s c' fd' ≠ fileAt s c fd := fun e => hcase (h.inj c' fd' c fd hz e)
        rw [absMap_some hz, absMap_some (by rwa [hat]), hat]
        simp [t, Function.update_of_ne hp]

/-- Rebinding a descriptor to what it is bound to. -/
theorem rebind_self {M : Maps} {c : Ptr} {fd : Int} {x : Option (Ptr × Nat)} (h : M c fd = x) :
    rebind M c fd x = M := by
  funext c' fd'
  rw [rebind_apply]
  split
  · rename_i hcase; rw [hcase.1, hcase.2, h]
  · rfl

/-- A result that moves nothing. -/
theorem advance_of_not_pos {off : Nat} {n : Int} (h : ¬ n > 0) : advance off n = off := if_neg h

/-- **Transfer.**  A read or write moves the offset of the caller's own file. -/
theorem vfsTransfer_refines
    (sel : VnodeOps W → Option (W → Ptr → Nat → Nat → Nat → Int × W)) (d : Drivers W)
    {s s' : VfsState W} (h : Owned s) {fd ret : Int} {buf len : Nat}
    (ht : vfsTransfer sel d s fd buf len = (ret, s')) :
    Owned s' ∧ SpecTransfer (absMap s) s.currProcess fd ret (absMap s') := by
  simp only [vfsTransfer, getFile_eq] at ht
  by_cases h0 : fileAt s s.currProcess fd = 0
  · rw [if_pos h0] at ht
    obtain ⟨rfl, rfl⟩ := Prod.mk.inj ht
    exact ⟨h, SpecTransfer.unbound (absMap_none.mpr h0) rfl⟩
  rw [if_neg h0] at ht
  -- without bytes moved the binding stays as it is
  have hstay : ∀ {t : VfsState W} {n : Int}, Owned t → absMap t = absMap s → ¬ n > 0 →
      Owned t ∧ SpecTransfer (absMap s) s.currProcess fd n (absMap t) := by
    intro t n ho ha hn
    have hb : SpecTransfer (absMap s) s.currProcess fd n _ := .bound (absMap_some h0)
    rw [advance_of_not_pos hn, rebind_self (absMap_some h0)] at hb
    exact ⟨ho, ha ▸ hb⟩
  split at ht
  · obtain ⟨rfl, rfl⟩ := Prod.mk.inj ht
    exact hstay h rfl (by decide)
  rename_i op _
  generalize op s.world _ buf len _ = r at ht
  obtain ⟨n, w⟩ := r
  dsimp only at ht
  split at ht
  · rename_i hn
    obtain ⟨rfl, rfl⟩ := Prod.mk.inj ht
    have hs := owned_seek h h0 (((s.files (fileAt s s.currProcess fd)).offset + n.toNat) % 2 ^ 32) w
    refine ⟨hs.1, ?_⟩
    have hb : SpecTransfer (absMap s) s.currProcess fd n _ := .bound (absMap_some h0)
    rw [advance, if_pos hn] at hb
    exact hs.2 ▸ hb
  · rename_i hn
    obtain ⟨rfl, rfl⟩ := Prod.mk.inj ht
    obtain ⟨ho, ha⟩ := owned_of_same h (t := { s with world := w }) rfl rfl
      (fun _ _ _ => rfl) (fun _ _ _ => rfl)
    exact hstay ho ha hn

/-- **Queries** change no table and fail on an unbound descriptor. -/
theorem vfsQuery_refines (pick : W → Ptr → Option (W → Ptr → Int × W)) {s s' : VfsState W}
    (h : Owned s) {fd ret : Int} (hq : vfsQuery pick s fd = (ret, s')) :
    Owned s' ∧ absMap s' = absMap s ∧ (absMap s s.currProcess fd = none → ret = -1) := by
  simp only [vfsQuery, getFile_eq] at hq
  by_cases h0 : fileAt s s.currProcess fd = 0
  · rw [if_pos h0] at hq
    obtain ⟨rfl, rfl⟩ := Prod.mk.inj hq
    exact ⟨h, rfl, fun _ => rfl⟩
  rw [if_neg h0] at hq
  have hb : absMap s s.currProcess fd ≠ none := fun hn => h0 (absMap_none.mp hn)
  split at hq
  · obtain ⟨rfl, rfl⟩ := Prod.mk.inj hq
    exact ⟨h, rfl, fun _ => rfl⟩
  · rename_i op _
    obtain ⟨rfl, rfl⟩ := Prod.mk.inj hq
    obtain ⟨ho, ha⟩ := owned_of_same h (t := { s with
        world := (op s.world (s.files (fileAt s s.currProcess fd)).vnode).2 }) rfl rfl
      (fun _ _ _ => rfl) (fun _ _ _ => rfl)
    exact ⟨ho, ha, fun hn => absurd hn hb⟩

/-! ## Runs -/

/-- No process closes a descriptor that is bound in its own table. -/
def KernelCloses (s : VfsState W) : VfsEvent → Prop
  | .vfsClose _ fd _ => s.currProcess = 0 ∨ getFile s fd = 0
  | _ => True

/-- One step of the code is the step of the specification. -/
theorem vfsStep_refines (d : Drivers W) {s s' : VfsState W} {e : VfsEvent} (h : Owned s)
    (hg : KernelCloses s e) (hs : VfsStep d s e s') :
    Owned s' ∧ SpecStep (absMap s) e (absMap s') := by
  cases hs with
  | @contextSwitch next =>
    obtain ⟨ho, ha⟩ := owned_of_same h (t := { s with currProcess := next }) rfl rfl
      (fun _ _ _ => rfl) (fun _ _ _ => rfl)
    exact ⟨ho, ha ▸ SpecStep.contextSwitch⟩
  | @driverActivity w =>
    obtain ⟨ho, ha⟩ := owned_of_same h (t := { s with world := w }) rfl rfl
      (fun _ _ _ => rfl) (fun _ _ _ => rfl)
    exact ⟨ho, ha ▸ SpecStep.driverActivity⟩
  | vfsOpen _ _ _ hfresh ho => exact vfsOpen_refines d h hfresh ho
  | vfsClose hc => exact vfsClose_refines d h hg hc
  | vfsRead hr =>
    obtain ⟨ho, hspec⟩ := vfsTransfer_refines _ d h hr
    exact ⟨ho, .read hspec⟩
  | vfsWrite hw =>
    obtain ⟨ho, hspec⟩ := vfsTransfer_refines _ d h hw
    exact ⟨ho, .write hspec⟩
  | vfsStat hq =>
    obtain ⟨ho, ha, hret⟩ := vfsQuery_refines _ h hq
    exact ⟨ho, ha.symm ▸ .stat hret⟩
  | vfsReaddir hq =>
    obtain ⟨ho, ha, hret⟩ := vfsQuery_refines _ h hq
    exact ⟨ho, ha.symm ▸ .readdir hret⟩
  | vfsIoctl hq =>
    obtain ⟨ho, ha, hret⟩ := vfsQuery_refines _ h hq
    exact ⟨ho, ha.symm ▸ .ioctl hret⟩

/-- At boot every table is empty. -/
structure Booted (s : VfsState W) : Prop where
  kernel : ∀ i, s.kernelFdTable i = 0
  process : ∀ c i, s.fds c i = 0

theorem booted_fileAt {s : VfsState W} (h : Booted s) (c : Ptr) (fd : Int) : fileAt s c fd = 0 := by
  unfold fileAt tableOf
  split
  · rfl
  · split
    · exact h.process c fd.toNat
    · exact h.kernel fd.toNat

theorem booted_owned {s : VfsState W} (h : Booted s) : Owned s ∧ absMap s = fun _ _ => none := by
  have h0 := booted_fileAt h
  refine ⟨⟨fun c fd hn => absurd (h0 c fd) hn, fun c fd hn => absurd (h0 c fd) hn,
    fun c fd _ _ hn _ => absurd (h0 c fd) hn⟩, ?_⟩
  funext c fd
  exact absMap_none.mpr (h0 c fd)

/-- **The tables refine independent finite maps** in every run from boot in
which only the kernel closes descriptors that are bound. -/
theorem vfs_refines_maps (d : Drivers W) {s₀ s : VfsState W} {es : List VfsEvent}
    (hboot : Booted s₀) (hrun : Run (Guarded KernelCloses (VfsStep d)) s₀ es s) :
    Run SpecStep (fun _ _ => none) es (absMap s) := by
  obtain ⟨ho, ha⟩ := booted_owned hboot
  obtain ⟨M, hM, -, rfl⟩ := hrun.simulates (Q := SpecStep) (fun s M => Owned s ∧ M = absMap s)
    (by
      rintro s M e t ⟨hs, rfl⟩ ⟨hg, hstep⟩
      obtain ⟨ht, hspec⟩ := vfsStep_refines d hs hg hstep
      exact ⟨absMap t, hspec, ht, rfl⟩)
    ⟨ho, rfl⟩
  exact ha ▸ hM

/-- Every path leads to vnode 1, which has no operations. -/
def oneNode : Drivers Unit := ⟨fun w _ => (some 1, w), fun _ _ => 0, fun _ _ => none⟩

/-- Boot, with process `p` running (the kernel when `p` is 0). -/
def bootWith (p : Ptr) : VfsState Unit :=
  ⟨fun _ => 0, fun _ _ => 0, p, fun _ => ⟨0, 0, 0, 0⟩, fun _ => false, ()⟩

/-- The kernel opens a file, closes it and gets the same descriptor again. -/
theorem kernelReopen_refines :
    ∃ s : VfsState Unit, Run SpecStep (fun _ _ => none)
      [.vfsOpen 0 (some 1) 0, .vfsClose 0 0 0, .vfsOpen 0 (some 1) 0] (absMap s) := by
  refine ⟨_, vfs_refines_maps oneNode (⟨fun _ => rfl, fun _ _ => rfl⟩ : Booted (bootWith 0))
    (.step ⟨?_, .vfsOpen [] 0 100 rfl rfl⟩
    (.step ⟨?_, .vfsClose rfl⟩
    (.step ⟨?_, .vfsOpen [] 0 100 rfl rfl⟩ (.refl _))))⟩
  · exact trivial
  · exact Or.inl rfl
  · exact trivial

/-- A process does the same and gets descriptor 1: descriptor 0 is still bound,
which no run of the specification allows. -/
theorem vfsClose_keeps_binding :
    ∃ s, Run (VfsStep oneNode) (bootWith 7)
        [.vfsOpen 7 (some 1) 0, .vfsClose 7 0 0, .vfsOpen 7 (some 1) 1] s ∧
      ¬ ∃ M, Run SpecStep (fun _ _ => none)
        [.vfsOpen 7 (some 1) 0, .vfsClose 7 0 0, .vfsOpen 7 (some 1) 1] M := by
  refine ⟨_, .step (.vfsOpen [] 0 100 rfl rfl)
    (.step (.vfsClose rfl)
    (.step (.vfsOpen [] 0 104 rfl rfl) (.refl _))), ?_⟩
  rintro ⟨M, hrun⟩
  cases hrun with
  | step h1 hrun => cases hrun with
    | step h2 hrun => cases hrun with
      | step h3 _ =>
        cases h2 with
        | closed _ => cases h3 with
          | opened _ _ _ hlow => exact hlow 0 (by decide) (by decide) (by simp [rebind_apply])

end FrogKernel.Vfs
