import FrogKernel.Lib.CStrings
import FrogKernel.Lib.Paths
import FrogKernel.Vfs.Vfs

/-!
# Path resolution (`vfs/vfs.c`)

`vfs_resolve` picks the mount with the longest matching path and goes from its
root from component to component.  What lies behind the vnodes is given by
`Nodes`: their flags, what is mounted on them and their `finddir`.

`Follows` relates vnodes to names for what they stand for; `resolve_walk` turns it
into a statement about whole paths.
-/

namespace FrogKernel.Vfs

open FrogKernel.Bytes FrogKernel.CStrings FrogKernel.Paths

def VFS_FILE : Nat := 0x01
def VFS_MOUNTPT : Nat := 0x40

/-- The fields of a `vnode_t` that `vfs_resolve` reads: `flags`, `mounted_here` and
`ops->finddir` (none when `ops` or `finddir` is `NULL`).  A call of `finddir` gets
the array with the component and returns a vnode or `NULL`, if it returns. -/
structure Nodes (V : Type) where
  flags : V → Nat
  mountedHere : V → Option V
  finddir : V → Option (Mem → Option (Option V))

/-- `fs_mount_t` -/
structure FsMount (V : Type) where
  path : Mem
  root : Option V

variable {V : Type}

/-- The loop of `find_mount` over the rest of the table. -/
def findMountLoop (pm : Mem) (path : Nat) (best : Option (FsMount V)) (bestLen : Nat) :
    List (FsMount V) → Option (Option (FsMount V))
  | [] => some best
  | mnt :: rest =>
    (strlen mnt.path 0 ROUNDS).bind fun mlen =>
      if strncmp mnt.path 0 pm path mlen = 0 ∧ mlen > bestLen then
        findMountLoop pm path (some mnt) mlen rest
      else findMountLoop pm path best bestLen rest

def findMount (mountTable : List (FsMount V)) (pm : Mem) (path : Nat) :
    Option (Option (FsMount V)) :=
  findMountLoop pm path none 0 mountTable

/-- `while (*rel == '/') rel++` -/
def skipSlashes (pm : Mem) : Nat → Nat → Option Nat
  | 0, _ => none
  | n + 1, rel => if pm rel = SLASH then skipSlashes pm n (rel + 1) else some rel

/-- `while (*rel && *rel != '/') component[i++] = *rel++` -/
def copyComponent (pm : Mem) : Nat → Mem → Nat → Nat → Option (Mem × Nat × Nat)
  | 0, _, _, _ => none
  | n + 1, component, i, rel =>
    if pm rel ≠ 0 ∧ pm rel ≠ SLASH then
      copyComponent pm n (write8 component i (pm rel).toNat) (i + 1) (rel + 1)
    else some (component, i, rel)

/-- The rest of the loop body of `vfs_resolve`, which looks the component up. -/
def enter (fs : Nodes V) (node : V) (component : Mem) : Option (Option V) :=
  if fs.flags node &&& (VFS_DIRECTORY ||| VFS_MOUNTPT) = 0 then some none
  else
    let node := (fs.mountedHere node).getD node
    match fs.finddir node with
    | none => some none
    | some finddir => finddir component

/-- The loop of `vfs_resolve`; `component` is what the array holds. -/
def resolveLoop (fs : Nodes V) (pm : Mem) : Nat → Mem → Nat → V → Option (Option V)
  | 0, _, _, _ => none
  | n + 1, component, rel, node =>
    if pm rel = 0 then some (some node)
    else
      (skipSlashes pm ROUNDS rel).bind fun rel =>
        if pm rel = 0 then some (some node)
        else
          (copyComponent pm ROUNDS component 0 rel).bind fun (component, i, rel) =>
            let component := write8 component i 0
            (enter fs node component).bind fun found =>
              match found with
              | none => some none
              | some node => resolveLoop fs pm n component rel node

/-- `if (node->flags & VFS_MOUNTPT && node->mounted_here) node = node->mounted_here` -/
def covered (fs : Nodes V) (node : V) : V :=
  if fs.flags node &&& VFS_MOUNTPT ≠ 0 then (fs.mountedHere node).getD node else node

/-- `vfs_resolve`; `stack` is what the array `component` holds before. -/
def vfsResolve (fs : Nodes V) (mountTable : List (FsMount V)) (stack pm : Mem) (path : Nat) :
    Option (Option V) :=
  (findMount mountTable pm path).bind fun best =>
    match best with
    | none => some none
    | some mnt =>
      match mnt.root with
      | none => some none
      | some root =>
        (strlen mnt.path 0 ROUNDS).bind fun mlen =>
          (resolveLoop fs pm ROUNDS stack (path + mlen) root).map fun r => r.map (covered fs)

/-! ## The two inner loops -/

theorem skipSlashes_cstr {pm : Mem} {s : List Char8} {n rel : Nat} (h : CStr pm rel s)
    (hn : s.length < n) :
    ∃ rel', skipSlashes pm n rel = some rel' ∧ CStr pm rel' (s.dropWhile (· = SLASH)) := by
  induction s generalizing n rel with
  | nil =>
    obtain ⟨k, rfl⟩ : ∃ k, n = k + 1 := ⟨n - 1, by simp at hn; omega⟩
    have h0 : pm rel = 0 := h
    exact ⟨rel, by rw [skipSlashes, h0, if_neg (by decide)], h⟩
  | cons c s ih =>
    obtain ⟨k, rfl⟩ : ∃ k, n = k + 1 := ⟨n - 1, by simp at hn; omega⟩
    rw [skipSlashes, h.1, List.dropWhile_cons]
    simp only [decide_eq_true_eq]
    split
    · exact ih h.2.2 (by simpa using hn)
    · exact ⟨rel, rfl, h⟩

/-- What is left is empty or begins with a component. -/
theorem skipSlashes_rest {pm : Mem} {s : List Char8} {rel : Nat} (h : CStr pm rel s)
    (hlen : s.length < ROUNDS) :
    ∃ rel' s', skipSlashes pm ROUNDS rel = some rel' ∧ CStr pm rel' s' ∧ s'.length ≤ s.length ∧
      components SLASH s = components SLASH s' ∧ ∀ c t, s' = c :: t → c ≠ SLASH := by
  obtain ⟨rel', hskip, h'⟩ := skipSlashes_cstr h hlen
  refine ⟨rel', _, hskip, h', (List.dropWhile_sublist _).length_le,
    (components_dropWhile ..).symm, fun c t hc => ?_⟩
  have hnot := List.head?_dropWhile_not (· = SLASH) s
  rw [hc] at hnot
  simpa using hnot

theorem dropWhile_lt {c : Char8} (hne : c ≠ SLASH) (s : List Char8) :
    ((c :: s).dropWhile (· ≠ SLASH)).length < (c :: s).length := by
  rw [List.dropWhile_cons, if_pos (by simpa using hne)]
  exact Nat.lt_succ_of_le (List.dropWhile_sublist _).length_le

theorem copyComponent_cstr {pm component : Mem} {s pre : List Char8} {n rel : Nat}
    (h : CStr pm rel s) (hpre : Holds component 0 pre) (hn : s.length < n) :
    ∃ component' rel', copyComponent pm n component pre.length rel =
        some (component', (pre ++ s.takeWhile (· ≠ SLASH)).length, rel') ∧
      Holds component' 0 (pre ++ s.takeWhile (· ≠ SLASH)) ∧
      CStr pm rel' (s.dropWhile (· ≠ SLASH)) := by
  induction s generalizing component pre n rel with
  | nil =>
    obtain ⟨k, rfl⟩ : ∃ k, n = k + 1 := ⟨n - 1, by simp at hn; omega⟩
    have h0 : pm rel = 0 := h
    refine ⟨component, rel, ?_, by simpa using hpre, h⟩
    rw [copyComponent, h0, if_neg (fun hc => hc.1 rfl)]
    simp
  | cons c s ih =>
    obtain ⟨k, rfl⟩ : ∃ k, n = k + 1 := ⟨n - 1, by simp at hn; omega⟩
    rw [copyComponent, h.1, List.takeWhile_cons, List.dropWhile_cons]
    simp only [decide_eq_true_eq]
    by_cases hc : c = SLASH
    · rw [if_neg (fun hand => hand.2 hc), if_neg (not_not.mpr hc), if_neg (not_not.mpr hc)]
      exact ⟨component, rel, by simp, by simpa using hpre, h⟩
    · rw [if_pos ⟨h.2.1, hc⟩, if_pos hc, if_pos hc]
      have hwrite := holds_write8 hpre c
      rw [Nat.zero_add] at hwrite
      obtain ⟨component', rel', hcopy, hhold, hrest⟩ := ih h.2.2 hwrite (by simpa using hn)
      rw [List.append_assoc, List.singleton_append] at hcopy hhold
      rw [List.length_append, List.length_singleton] at hcopy
      exact ⟨component', rel', hcopy, hhold, hrest⟩

/-! ## Walks -/

/-- Vnodes stand for objects of type `β`, and looking a component up in a vnode
does what `step` says about its object. -/
def Follows {β : Type} (fs : Nodes V) (R : V → β → Prop)
    (step : β → List Char8 → Option β) : Prop :=
  ∀ node b, R node b → ∀ component c, CStr component 0 c → c ≠ [] → SLASH ∉ c →
    c.length < ROUNDS → ∃ found, enter fs node component = some found ∧ Option.Rel R found (step b c)

section Walk

variable {β : Type} {fs : Nodes V} {R : V → β → Prop} {step : β → List Char8 → Option β}

/-- The loop follows the components of the string. -/
theorem resolveLoop_walk (hfollows : Follows fs R step) {pm component : Mem} {s : List Char8}
    {n rel : Nat} {node : V} {b : β} (hnode : R node b) (h : CStr pm rel s) (hn : s.length < n)
    (hlen : s.length < ROUNDS) :
    ∃ r, resolveLoop fs pm n component rel node = some r ∧
      Option.Rel R r ((components SLASH s).foldlM step b) := by
  induction n generalizing s component rel node b with
  | zero => omega
  | succ n ih =>
    rw [resolveLoop]
    split
    case isTrue h0 =>
      obtain rfl : s = [] := CStr.unique h h0
      exact ⟨some node, rfl, .some hnode⟩
    case isFalse h0 =>
      obtain ⟨rel1, s1, hskip, h1, hle1, hcomponents, hhead⟩ := skipSlashes_rest h hlen
      rw [hskip, Option.bind_some, hcomponents]
      cases s1 with
      | nil =>
        have h1' : pm rel1 = 0 := h1
        exact ⟨some node, if_pos h1', .some hnode⟩
      | cons c s' =>
        have hne := hhead c s' rfl
        have hfirst : pm rel1 ≠ 0 := by
          rw [h1.1]
          exact h1.2.1
        rw [if_neg hfirst, components_takeWhile hne]
        have hempty : Holds component 0 [] := trivial
        obtain ⟨comp, rel2, hcopy, hhold, h2⟩ :=
          copyComponent_cstr h1 hempty (Nat.lt_of_le_of_lt hle1 hlen)
        rw [List.length_nil, List.nil_append] at hcopy
        rw [List.nil_append] at hhold
        rw [hcopy, Option.bind_some]
        have hsub := (List.takeWhile_prefix (l := c :: s') (· ≠ SLASH)).subset
        have hcstr := cstr_write8 hhold fun x hx => h1.ne_zero x (hsub hx)
        rw [Nat.zero_add] at hcstr
        have hpos : (c :: s').takeWhile (· ≠ SLASH) ≠ [] := by simp [hne]
        have hle2 := dropWhile_lt hne s'
        have hle3 := (List.takeWhile_prefix (l := c :: s') (· ≠ SLASH)).length_le
        obtain ⟨found, hfound, hrel⟩ :=
          hfollows node b hnode _ _ hcstr hpos (sep_notMem_takeWhile _) (by omega)
        dsimp only
        rw [hfound, Option.bind_some, List.foldlM_cons]
        generalize step b ((c :: s').takeWhile (· ≠ SLASH)) = next at hrel ⊢
        cases hrel with
        | none => exact ⟨none, rfl, .none⟩
        | some hnode' => exact ih hnode' h2 (by omega) (by omega)

/-- A file system mounted at `/` and nowhere else. -/
theorem vfsResolve_walk (hfollows : Follows fs R step) (stack : Mem) {mp pm : Mem}
    {s : List Char8} {path : Nat} {root : V} {b : β} (hmp : CStr mp 0 [SLASH]) (hroot : R root b)
    (h : CStr pm path (SLASH :: s)) (hlen : s.length < ROUNDS) :
    ∃ r, vfsResolve fs [⟨mp, some root⟩] stack pm path = some (r.map (covered fs)) ∧
      Option.Rel R r ((components SLASH s).foldlM step b) := by
  have hmlen : strlen mp 0 ROUNDS = some 1 := strlen_cstr hmp (by decide)
  have hcmp : strncmp mp 0 pm path 1 = 0 := by
    rw [strncmp, hmp.1, h.1, if_neg fun hc => hc.1 rfl, Int.sub_self]
  have hmount : findMount [⟨mp, some root⟩] pm path = some (some ⟨mp, some root⟩) := by
    rw [findMount, findMountLoop, hmlen, Option.bind_some, if_pos ⟨hcmp, by decide⟩, findMountLoop]
  obtain ⟨r, hr, hrel⟩ := resolveLoop_walk hfollows hroot h.2.2 hlen hlen
  refine ⟨r, ?_, hrel⟩
  rw [vfsResolve, hmount, Option.bind_some]
  dsimp only
  rw [hmlen, Option.bind_some, hr, Option.map_some]

end Walk

/-! ## Mounts -/

/-- The mount found is in the table, and its path starts the path. -/
theorem findMountLoop_some {pm : Mem} {path : Nat} {mnt : FsMount V} {table : List (FsMount V)} :
    ∀ {best : Option (FsMount V)} {bestLen : Nat},
      findMountLoop pm path best bestLen table = some (some mnt) → best = some mnt ∨
        mnt ∈ table ∧ ∃ mlen, strlen mnt.path 0 ROUNDS = some mlen ∧
          strncmp mnt.path 0 pm path mlen = 0 := by
  induction table with
  | nil =>
    intro best bestLen h
    exact .inl (Option.some.inj h)
  | cons m rest ih =>
    intro best bestLen h
    rw [findMountLoop] at h
    obtain ⟨mlen, hlen, h⟩ := Option.bind_eq_some_iff.mp h
    split at h
    case isTrue hcmp =>
      rcases ih h with heq | ⟨hmem, hmatch⟩
      · obtain rfl := Option.some.inj heq
        exact .inr ⟨List.mem_cons_self, mlen, hlen, hcmp.1⟩
      · exact .inr ⟨List.mem_cons_of_mem _ hmem, hmatch⟩
    case isFalse =>
      exact (ih h).imp_right fun ⟨hmem, hmatch⟩ => ⟨List.mem_cons_of_mem _ hmem, hmatch⟩

/-- A vnode that `vfs_resolve` returns is reached from the root of a mount. -/
theorem vfsResolve_some {fs : Nodes V} {table : List (FsMount V)} {stack pm : Mem} {path : Nat}
    {p : List Char8} {node : V} (hpath : CStr pm path p)
    (h : vfsResolve fs table stack pm path = some (some node)) :
    ∃ mnt ∈ table, ∃ root s rel node', mnt.root = some root ∧ CStr pm rel s ∧
      s.length ≤ p.length ∧ resolveLoop fs pm ROUNDS stack rel root = some (some node') ∧
      node = covered fs node' := by
  rw [vfsResolve] at h
  obtain ⟨best, hbest, h⟩ := Option.bind_eq_some_iff.mp h
  cases best with
  | none => cases h
  | some mnt =>
    dsimp only at h
    obtain ⟨hmem, mlen, hlen, hcmp⟩ := (findMountLoop_some hbest).resolve_left (by simp)
    cases hroot : mnt.root with
    | none =>
      rw [hroot] at h
      cases h
    | some root =>
      rw [hroot, hlen] at h
      dsimp only [Option.bind_some] at h
      obtain ⟨r, hr, h⟩ := Option.map_eq_some_iff.mp h
      obtain ⟨node', rfl, rfl⟩ := Option.map_eq_some_iff.mp h
      obtain ⟨t, ht, rfl⟩ := strlen_some hlen
      obtain ⟨s, rfl⟩ := (strncmp_cstr hpath ht).mp ((strncmp_comm _ _ _ _ _).mp hcmp)
      exact ⟨mnt, hmem, root, s, _, node', hroot, hpath.suffix, by simp, hr, rfl⟩

end FrogKernel.Vfs
