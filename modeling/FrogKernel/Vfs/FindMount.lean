import FrogKernel.Vfs.Resolve

/-!
# Choosing a mount (`vfs/vfs.c`)

`find_mount` takes the mount whose path is the longest that the path starts with,
character by character.  `findMount_boundary_iff` says when that is the mount whose
path ends at a component, `resolve_slashes_iff` when paths that differ in their slashes
only are resolved alike.
-/

namespace FrogKernel.Vfs

open FrogKernel.Bytes FrogKernel.CStrings FrogKernel.Paths

def MAX_PATH : Nat := 256

variable {V : Type}

/-- The string in `mnt->path`. -/
def FsMount.name (mnt : FsMount V) : List Char8 := fieldChars mnt.path 0 MAX_PATH

/-- An absolute path without a slash at its end, other than `/` itself. -/
structure MountPath (q : List Char8) : Prop where
  absolute : ∃ r, q = SLASH :: r
  noTrailing : q = [SLASH] ∨ q.getLast? ≠ some SLASH

/-- The entries that `vfs_mount` makes: a terminated path, and a root. -/
structure Mounted (mnt : FsMount V) : Prop where
  cstr : CStr mnt.path 0 mnt.name
  path : MountPath mnt.name
  root : mnt.root.isSome = true

/-- The path of `mnt` is the longest in the table that `p` starts with. -/
def LongestPrefix (table : List (FsMount V)) (p : List Char8) (mnt : FsMount V) : Prop :=
  mnt.name <+: p ∧ ∀ m ∈ table, m.name <+: p → m.name.length ≤ mnt.name.length

instance (table : List (FsMount V)) (p : List Char8) : DecidablePred (LongestPrefix table p) :=
  fun _ => inferInstanceAs (Decidable (_ ∧ _))

/-- The first such mount. -/
def nearest (table : List (FsMount V)) (p : List Char8) : Option (FsMount V) :=
  table.find? fun mnt => LongestPrefix table p mnt

/-! ## `find_mount` -/

section FindMount

variable {table : List (FsMount V)} {pm : Mem} {p : List Char8} {path : Nat}

theorem strlen_name {mnt : FsMount V} (h : CStr mnt.path 0 mnt.name) :
    strlen mnt.path 0 ROUNDS = some mnt.name.length :=
  strlen_cstr h (Nat.lt_of_le_of_lt (fieldChars_length_le _ _ _) (by decide))

theorem strncmp_name {mnt : FsMount V} (h : CStr mnt.path 0 mnt.name) (hpath : CStr pm path p) :
    strncmp mnt.path 0 pm path mnt.name.length = 0 ↔ mnt.name <+: p :=
  (strncmp_comm _ _ _ _ _).trans (strncmp_cstr hpath h)

/-- `mnt` is the first of the longest mounts that `p` starts with, with `xs` before it and
`ys` after it. -/
structure FirstLongest (p : List Char8) (xs : List (FsMount V)) (mnt : FsMount V)
    (ys : List (FsMount V)) : Prop where
  starts : mnt.name <+: p
  nonempty : 0 < mnt.name.length
  before : ∀ m ∈ xs, m.name <+: p → m.name.length < mnt.name.length
  after : ∀ m ∈ ys, m.name <+: p → m.name.length ≤ mnt.name.length

theorem FirstLongest.longest {xs ys : List (FsMount V)} {mnt : FsMount V}
    (h : FirstLongest p xs mnt ys) : LongestPrefix (xs ++ mnt :: ys) p mnt := by
  refine ⟨h.starts, fun m hm hm' => ?_⟩
  rcases List.mem_append.mp hm with hm | hm
  · exact Nat.le_of_lt (h.before m hm hm')
  · rcases List.mem_cons.mp hm with rfl | hm
    · exact Nat.le_refl _
    · exact h.after m hm hm'

/-- The loop keeps the mount it has, or takes the first of the longest ones. -/
theorem findMountLoop_cases (hpath : CStr pm path p) (htable : ∀ m ∈ table, CStr m.path 0 m.name)
    (best : Option (FsMount V)) (bestLen : Nat) :
    (findMountLoop pm path best bestLen table = some best ∧
      ∀ m ∈ table, m.name <+: p → m.name.length ≤ bestLen) ∨
    ∃ xs mnt ys, table = xs ++ mnt :: ys ∧ findMountLoop pm path best bestLen table = some (some mnt) ∧
      bestLen < mnt.name.length ∧ FirstLongest p xs mnt ys := by
  induction table generalizing best bestLen with
  | nil => exact Or.inl ⟨rfl, by simp⟩
  | cons mnt rest ih =>
    obtain ⟨hmnt, hrest⟩ := List.forall_mem_cons.mp htable
    rw [findMountLoop, strlen_name hmnt, Option.bind_some]
    simp only [strncmp_name hmnt hpath]
    by_cases htake : mnt.name <+: p ∧ mnt.name.length > bestLen
    · rw [if_pos htake]
      obtain ⟨hstarts, hlonger⟩ := htake
      rcases ih hrest (some mnt) mnt.name.length with
        ⟨hloop, hall⟩ | ⟨xs, mnt', ys, rfl, hloop, hlonger', h⟩
      · exact Or.inr ⟨[], mnt, rest, rfl, hloop, hlonger, hstarts, by omega, by simp, hall⟩
      · refine Or.inr ⟨mnt :: xs, mnt', ys, rfl, hloop, by omega, h.starts, h.nonempty, ?_, h.after⟩
        exact List.forall_mem_cons.mpr ⟨fun _ => hlonger', h.before⟩
    · rw [if_neg htake]
      have hshort : mnt.name <+: p → mnt.name.length ≤ bestLen := fun hstarts =>
        Nat.le_of_not_lt fun hlt => htake ⟨hstarts, hlt⟩
      rcases ih hrest best bestLen with
        ⟨hloop, hall⟩ | ⟨xs, mnt', ys, rfl, hloop, hlonger', h⟩
      · exact Or.inl ⟨hloop, List.forall_mem_cons.mpr ⟨hshort, hall⟩⟩
      · refine Or.inr ⟨mnt :: xs, mnt', ys, rfl, hloop, hlonger', h.starts, h.nonempty, ?_, h.after⟩
        exact List.forall_mem_cons.mpr ⟨fun hstarts => by have := hshort hstarts; omega, h.before⟩

/-- **`find_mount`** finds the nearest mount, if the path starts with one at all. -/
theorem findMount_cases (hpath : CStr pm path p) (htable : ∀ m ∈ table, Mounted m) :
    findMount table pm path = some (nearest table p) ∧
      ((nearest table p = none ∧ ∀ m ∈ table, ¬ m.name <+: p) ∨
        ∃ mnt ∈ table, nearest table p = some mnt ∧ LongestPrefix table p mnt) := by
  rcases findMountLoop_cases hpath (fun m hm => (htable m hm).cstr) none 0 with
    ⟨hloop, hall⟩ | ⟨xs, mnt, ys, rfl, hloop, -, h⟩
  · have hno : ∀ m ∈ table, ¬ m.name <+: p := by
      intro m hm hstarts
      obtain ⟨r, hr⟩ := (htable m hm).path.absolute
      have hlen := hall m hm hstarts
      rw [hr] at hlen
      exact absurd hlen (Nat.not_succ_le_zero _)
    have hnone : nearest table p = none :=
      List.find?_eq_none.mpr fun m hm => by simpa using fun hlongest => hno m hm hlongest.1
    exact ⟨by rw [findMount, hloop, hnone], Or.inl ⟨hnone, hno⟩⟩
  · have hsome : nearest (xs ++ mnt :: ys) p = some mnt := by
      rw [nearest, List.find?_eq_some_iff_append]
      refine ⟨decide_eq_true h.longest, xs, ys, rfl, fun m hm => ?_⟩
      simp only [Bool.not_eq_eq_eq_not, Bool.not_true, decide_eq_false_iff_not]
      intro hm'
      have hshort := h.before m hm hm'.1
      have hlong := hm'.2 mnt (by simp) h.starts
      omega
    exact ⟨by rw [findMount, hloop, hsome], Or.inr ⟨mnt, by simp, hsome, h.longest⟩⟩

/-- Which mount it is does not depend on how the table is cut. -/
theorem FirstLongest.unique {xs xs' ys ys' : List (FsMount V)} {mnt mnt' : FsMount V}
    (h : FirstLongest p xs mnt ys) (h' : FirstLongest p xs' mnt' ys')
    (heq : xs ++ mnt :: ys = xs' ++ mnt' :: ys') : xs.length = xs'.length := by
  have hlongest := h.longest
  have hlongest' := h'.longest
  rw [heq] at hlongest
  have hle := hlongest.2 mnt' (by simp) h'.starts
  have hle' := hlongest'.2 mnt (by rw [← heq]; simp) h.starts
  rcases List.append_eq_append_iff.mp heq with ⟨as, rfl, has⟩ | ⟨as, rfl, has⟩
  · rcases as with _ | ⟨m, as⟩
    · simp
    · obtain ⟨rfl, -⟩ := List.cons.inj has
      have hlt := h'.before mnt (by simp) h.starts
      omega
  · rcases as with _ | ⟨m, as⟩
    · simp
    · obtain ⟨rfl, -⟩ := List.cons.inj has
      have hlt := h.before mnt' (by simp) h'.starts
      omega

theorem FirstLongest.findMount {xs ys : List (FsMount V)} {mnt : FsMount V}
    (h : FirstLongest p xs mnt ys) (hpath : CStr pm path p)
    (htable : ∀ m ∈ xs ++ mnt :: ys, CStr m.path 0 m.name) :
    findMount (xs ++ mnt :: ys) pm path = some (some mnt) := by
  rcases findMountLoop_cases hpath htable none 0 with
    ⟨-, hall⟩ | ⟨xs', mnt', ys', heq, hloop, -, h'⟩
  · have hle := hall mnt (by simp) h.starts
    have hlt := h.nonempty
    omega
  · obtain ⟨-, htail⟩ := List.append_inj heq (h.unique h' heq)
    obtain ⟨rfl, -⟩ := List.cons.inj htail
    exact hloop

/-- Another mount may go. -/
theorem FirstLongest.eraseIdx {xs ys : List (FsMount V)} {mnt : FsMount V}
    (h : FirstLongest p xs mnt ys) {idx : Nat} (hne : xs.length ≠ idx) :
    ∃ xs' ys', (xs ++ mnt :: ys).eraseIdx idx = xs' ++ mnt :: ys' ∧ FirstLongest p xs' mnt ys' := by
  rcases Nat.lt_or_gt_of_ne hne with hlt | hgt
  · obtain ⟨k, hk⟩ : ∃ k, idx - xs.length = k + 1 := ⟨idx - xs.length - 1, by omega⟩
    refine ⟨xs, ys.eraseIdx k, ?_, h.starts, h.nonempty, h.before, fun m hm => ?_⟩
    · rw [List.eraseIdx_append_of_length_le (Nat.le_of_lt hlt), hk, List.eraseIdx_cons_succ]
    · exact h.after m (List.mem_of_mem_eraseIdx hm)
  · refine ⟨xs.eraseIdx idx, ys, ?_, h.starts, h.nonempty, fun m hm => ?_, h.after⟩
    · exact List.eraseIdx_append_of_lt_length hgt _
    · exact h.before m (List.mem_of_mem_eraseIdx hm)

theorem nearest_some {mnt : FsMount V} (h : nearest table p = some mnt) :
    mnt ∈ table ∧ LongestPrefix table p mnt := by
  rw [nearest] at h
  have hlongest := List.find?_some h
  exact ⟨List.mem_of_find?_eq_some h, of_decide_eq_true hlongest⟩

theorem nearest_none (h : nearest table p = none) (m : FsMount V) (hm : m ∈ table) :
    ¬ LongestPrefix table p m := by
  simpa using List.find?_eq_none.mp h m hm

end FindMount

/-! ## Components -/

/-- `q` ends at a component of `p`. -/
def AtComponent (q p : List Char8) : Prop := q <+: p ∧ (q = [SLASH] ∨ q = p ∨ (q ++ [SLASH]) <+: p)

instance (q p : List Char8) : Decidable (AtComponent q p) := inferInstanceAs (Decidable (_ ∧ _))

/-- The mount is the longest of those that end at a component. -/
def PicksMount (table : List (FsMount V)) (p : List Char8) : Option (FsMount V) → Prop
  | some mnt => mnt ∈ table ∧ AtComponent mnt.name p ∧
      ∀ m ∈ table, AtComponent m.name p → m.name.length ≤ mnt.name.length
  | none => ∀ m ∈ table, ¬ AtComponent m.name p

section Components

variable {table : List (FsMount V)} {pm pm' : Mem} {p q : List Char8} {path path' : Nat}

/-- **Mounts and components.**  `find_mount` picks the mount whose path is the longest
that ends at a component exactly when no mount path that ends inside a component is
longer than that. -/
theorem findMount_boundary_iff (hpath : CStr pm path p) (htable : ∀ m ∈ table, Mounted m) :
    (∃ best, findMount table pm path = some best ∧ PicksMount table p best) ↔
      ∀ m ∈ table, m.name <+: p →
        ∃ m' ∈ table, AtComponent m'.name p ∧ m.name.length ≤ m'.name.length := by
  obtain ⟨hfind, ⟨hnone, hno⟩ | ⟨mnt, hmem, hsome, hstarts, hmax⟩⟩ := findMount_cases hpath htable
  · refine iff_of_true ⟨none, by rw [hfind, hnone], fun m hm hat => hno m hm hat.1⟩ ?_
    exact fun m hm hm' => absurd hm' (hno m hm)
  · rw [hsome] at hfind
    constructor
    · rintro ⟨best, hbest, hpick⟩
      obtain rfl := Option.some.inj (hfind.symm.trans hbest)
      exact fun m hm hm' => ⟨mnt, hmem, hpick.2.1, hmax m hm hm'⟩
    · intro hall
      obtain ⟨m', hm', hat, hle⟩ := hall mnt hmem hstarts
      -- prefixes of one length are the same
      have heq : m'.name = mnt.name :=
        (List.prefix_of_prefix_length_le hat.1 hstarts (hmax m' hm' hat.1)).eq_of_length
          (Nat.le_antisymm (hmax m' hm' hat.1) hle)
      exact ⟨some mnt, hfind, hmem, heq ▸ hat, fun m hm hm' => hmax m hm hm'.1⟩

end Components

/-! ## Slashes -/

/-- What is found behind vnodes: names lead from objects to objects, and what is mounted
on a vnode is the same for all vnodes of an object. -/
structure Contents {β : Type} (fs : Nodes V) (R : V → β → Prop)
    (step : β → List Char8 → Option β) : Prop where
  follows : Follows fs R step
  covers : ∀ v w b, R v b → R w b → ∃ b', R (covered fs v) b' ∧ R (covered fs w) b'

/-- The mounts are the same and so are the objects, or nothing is found in both cases. -/
def ResolvedAlike {β : Type} (fs : Nodes V) (R : V → β → Prop) (table : List (FsMount V))
    (stack pm : Mem) (path : Nat) (stack' pm' : Mem) (path' : Nat) : Prop :=
  ∃ r r', vfsResolve fs table stack pm path = some r ∧ vfsResolve fs table stack' pm' path' = some r' ∧
    (findMount table pm path = findMount table pm' path' ∧
        Option.Rel (fun v w => ∃ b, R v b ∧ R w b) r r' ∨ r = none ∧ r' = none)

section Slashes

variable {β : Type} {fs : Nodes V} {R : V → β → Prop} {step : β → List Char8 → Option β}
  {table : List (FsMount V)} {pm pm' : Mem} {p q : List Char8} {path path' : Nat}

theorem vfsResolve_none (hpath : CStr pm path p) (htable : ∀ m ∈ table, Mounted m)
    (hnone : nearest table p = none) (stack : Mem) : vfsResolve fs table stack pm path = some none := by
  rw [vfsResolve, (findMount_cases hpath htable).1, hnone, Option.bind_some]

/-- Below a mount the components of the rest are followed from its root. -/
theorem vfsResolve_nearest (hfollows : Follows fs R step) (hpath : CStr pm path p)
    (hlen : p.length < ROUNDS) (htable : ∀ m ∈ table, Mounted m) {mnt : FsMount V} {root : V} {b : β}
    (hmnt : nearest table p = some mnt) (hroot : mnt.root = some root) (hb : R root b) (stack : Mem) :
    ∃ s r, p = mnt.name ++ s ∧ vfsResolve fs table stack pm path = some (r.map (covered fs)) ∧
      Option.Rel R r ((components SLASH s).foldlM step b) := by
  obtain ⟨hmem, hstarts, -⟩ := nearest_some hmnt
  obtain ⟨s, rfl⟩ := hstarts
  rw [List.length_append] at hlen
  obtain ⟨r, hr, hrel⟩ : ∃ r, resolveLoop fs pm ROUNDS stack (path + mnt.name.length) root = some r ∧
      Option.Rel R r ((components SLASH s).foldlM step b) :=
    resolveLoop_walk hfollows hb hpath.suffix (by omega) (by omega)
  refine ⟨s, r, rfl, ?_, hrel⟩
  rw [vfsResolve, (findMount_cases hpath htable).1, hmnt, Option.bind_some]
  dsimp only
  rw [hroot]
  dsimp only
  rw [strlen_name (htable mnt hmem).cstr, Option.bind_some, hr, Option.map_some]

theorem resolvedAlike (hcontents : Contents fs R step) (hp : CStr pm path p) (hq : CStr pm' path' q)
    (hplen : p.length < ROUNDS) (hqlen : q.length < ROUNDS) (htable : ∀ m ∈ table, Mounted m)
    (hroots : ∀ m ∈ table, ∀ root, m.root = some root → ∃ b, R root b)
    (hcomponents : components SLASH p = components SLASH q)
    (hsame : nearest table p = nearest table q) (stack stack' : Mem) :
    ResolvedAlike fs R table stack pm path stack' pm' path' := by
  have hmounts : findMount table pm path = findMount table pm' path' := by
    rw [(findMount_cases hp htable).1, (findMount_cases hq htable).1, hsame]
  cases hmnt : nearest table p with
  | none =>
    refine ⟨none, none, vfsResolve_none hp htable hmnt stack,
      vfsResolve_none hq htable (hsame ▸ hmnt) stack', Or.inr ⟨rfl, rfl⟩⟩
  | some mnt =>
    have hmem := (nearest_some hmnt).1
    obtain ⟨root, hroot⟩ := Option.isSome_iff_exists.mp (htable mnt hmem).root
    obtain ⟨b, hb⟩ := hroots mnt hmem root hroot
    obtain ⟨s, r, rfl, hr, hrel⟩ :=
      vfsResolve_nearest hcontents.follows hp hplen htable hmnt hroot hb stack
    obtain ⟨s', r', rfl, hr', hrel'⟩ :=
      vfsResolve_nearest hcontents.follows hq hqlen htable (hsame ▸ hmnt) hroot hb stack'
    -- the same components are left behind the mount
    rw [components_cancel hcomponents] at hrel
    refine ⟨_, _, hr, hr', Or.inl ⟨hmounts, ?_⟩⟩
    generalize (components SLASH s').foldlM step b = found at hrel hrel'
    cases hrel with
    | none =>
      cases hrel'
      exact .none
    | some hv =>
      cases hrel' with
      | some hw => exact .some (hcontents.covers _ _ _ hv hw)

theorem LongestPrefix.of_name {m mnt : FsMount V} (h : LongestPrefix table p mnt)
    (hm : LongestPrefix table p m) (hmem : m ∈ table) (hmnt : mnt ∈ table) : m.name = mnt.name :=
  (List.prefix_of_prefix_length_le hm.1 h.1 (h.2 m hmem hm.1)).eq_of_length
    (Nat.le_antisymm (h.2 m hmem hm.1) (hm.2 mnt hmnt h.1))

theorem nearest_eq_iff : nearest table p = nearest table q ↔
    ∀ m ∈ table, LongestPrefix table p m ↔ LongestPrefix table q m := by
  constructor
  · have hone : ∀ {p q}, nearest table p = nearest table q → ∀ m ∈ table,
        LongestPrefix table p m → LongestPrefix table q m := by
      intro p q heq m hm hlongest
      cases hmnt : nearest table p with
      | none => exact absurd hlongest (nearest_none hmnt m hm)
      | some mnt =>
        obtain ⟨hmem, hp⟩ := nearest_some hmnt
        obtain ⟨-, hq⟩ := nearest_some (heq ▸ hmnt)
        have hname := hp.of_name hlongest hm hmem
        exact ⟨hname ▸ hq.1, fun m' hm' hstarts => hname ▸ hq.2 m' hm' hstarts⟩
    exact fun heq m hm => ⟨hone heq m hm, hone heq.symm m hm⟩
  · intro hiff
    refine List.find?_congr fun m hm => ?_
    rw [decide_eq_decide]
    exact hiff m hm

/-- A file system in which every name leads back to the vnode. -/
def constantNodes (V : Type) : Nodes V where
  flags _ := VFS_DIRECTORY
  mountedHere _ := none
  finddir node := some fun _ => some (some node)

theorem constantNodes_contents : Contents (constantNodes V) Eq fun node _ => some node := by
  refine ⟨?_, ?_⟩
  · rintro node _ rfl component c - - - -
    have hdir : ¬ VFS_DIRECTORY &&& (VFS_DIRECTORY ||| VFS_MOUNTPT) = 0 := by decide
    exact ⟨some node, (if_neg hdir).trans rfl, .some rfl⟩
  · rintro v w _ rfl rfl
    exact ⟨_, rfl, rfl⟩

theorem foldlM_some (node : V) (cs : List (List Char8)) :
    cs.foldlM (fun node _ => some node) node = some node := by
  induction cs with
  | nil => rfl
  | cons c cs ih => exact ih

theorem constantNodes_found (hpath : CStr pm path p) (hlen : p.length < ROUNDS)
    (htable : ∀ m ∈ table, Mounted m) {m : FsMount V} (hm : m ∈ table)
    (hlongest : LongestPrefix table p m) (stack : Mem) :
    ∃ v, vfsResolve (constantNodes V) table stack pm path = some (some v) := by
  cases hmnt : nearest table p with
  | none => exact absurd hlongest (nearest_none hmnt m hm)
  | some mnt =>
    obtain ⟨root, hroot⟩ := Option.isSome_iff_exists.mp (htable mnt (nearest_some hmnt).1).root
    obtain ⟨s, r, -, hr, hrel⟩ := vfsResolve_nearest constantNodes_contents.follows hpath hlen htable
      hmnt hroot rfl stack
    rw [foldlM_some] at hrel
    cases hrel with
    | some heq => exact ⟨_, hr⟩

end Slashes

/-- The constant file system tells two mounts apart. -/
theorem ResolvedAlike.longest {table : List (FsMount V)} {stack stack' pm pm' : Mem}
    {p q : List Char8} {path path' : Nat}
    (h : ResolvedAlike (constantNodes V) Eq table stack pm path stack' pm' path')
    (hp : CStr pm path p) (hq : CStr pm' path' q) (hplen : p.length < ROUNDS)
    (hqlen : q.length < ROUNDS) (htable : ∀ m ∈ table, Mounted m) :
    ∀ m ∈ table, LongestPrefix table p m ↔ LongestPrefix table q m := by
  obtain ⟨r, r', hr, hr', ⟨hmounts, -⟩ | ⟨rfl, rfl⟩⟩ := h
  · rw [(findMount_cases hp htable).1, (findMount_cases hq htable).1, Option.some.injEq] at hmounts
    exact nearest_eq_iff.mp hmounts
  · refine fun m hm => iff_of_false (fun hlongest => ?_) fun hlongest => ?_
    · obtain ⟨v, hv⟩ := constantNodes_found hp hplen htable hm hlongest stack
      rw [hr] at hv
      cases hv
    · obtain ⟨v, hv⟩ := constantNodes_found hq hqlen htable hm hlongest stack'
      rw [hr'] at hv
      cases hv

/-- **Slashes.**  Absolute paths with the same components are resolved alike, whatever is
in the file systems, exactly when the same mount paths are the longest that they start
with as strings. -/
theorem resolve_slashes_iff {table : List (FsMount V)} {pm pm' : Mem} {p q : List Char8}
    {path path' : Nat} (hp : CStr pm path (SLASH :: p)) (hq : CStr pm' path' (SLASH :: q))
    (hplen : (SLASH :: p).length < ROUNDS) (hqlen : (SLASH :: q).length < ROUNDS)
    (htable : ∀ m ∈ table, Mounted m) (hcomponents : components SLASH p = components SLASH q)
    (stack stack' : Mem) :
    (∀ (β : Type) (fs : Nodes V) (R : V → β → Prop) (step : β → List Char8 → Option β),
        Contents fs R step → (∀ m ∈ table, ∀ root, m.root = some root → ∃ b, R root b) →
        ResolvedAlike fs R table stack pm path stack' pm' path') ↔
      ∀ m ∈ table, LongestPrefix table (SLASH :: p) m ↔ LongestPrefix table (SLASH :: q) m := by
  constructor
  · intro hall
    exact (hall V (constantNodes V) Eq _ constantNodes_contents fun _ _ root _ => ⟨root, rfl⟩).longest
      hp hq hplen hqlen htable
  · intro hiff β fs R step hcontents hroots
    refine resolvedAlike hcontents hp hq hplen hqlen htable hroots ?_ (nearest_eq_iff.mpr hiff) _ _
    rw [components_sep, components_sep, hcomponents]

/-- A file system at `/` and one at `/dev`. -/
def devTable : List (FsMount Nat) :=
  [⟨memOf 0 [SLASH, 0], some 1⟩, ⟨memOf 0 [SLASH, 0x64, 0x65, 0x76, 0], some 2⟩]

theorem devTable_mounted : ∀ m ∈ devTable, Mounted m := by
  intro m hm
  simp only [devTable, List.mem_cons, List.not_mem_nil, or_false] at hm
  rcases hm with rfl | rfl
  · exact ⟨memOf_terminated 0 (s := [SLASH]) (by decide), ⟨⟨[], rfl⟩, Or.inl rfl⟩, rfl⟩
  · exact ⟨memOf_terminated 0 (s := [SLASH, 0x64, 0x65, 0x76]) (by decide),
      ⟨⟨[0x64, 0x65, 0x76], rfl⟩, Or.inr (by decide)⟩, rfl⟩

/-- `/dev/tty` -/
def ttyPath : List Char8 := [SLASH, 0x64, 0x65, 0x76, SLASH, 0x74, 0x74, 0x79]

theorem ttyPath_cstr : CStr (memOf 0 ttyPath) 0 ttyPath :=
  memOf_cstr 0 (by decide)

theorem ttyPath_mount : ∃ best, findMount devTable (memOf 0 ttyPath) 0 = some best ∧
    PicksMount devTable ttyPath best :=
  (findMount_boundary_iff ttyPath_cstr devTable_mounted).mpr (by decide)

/-- `/devices` is looked up in the file system at `/dev`. -/
theorem devices_mount : ¬ ∃ best,
    findMount devTable (memOf 0 [SLASH, 0x64, 0x65, 0x76, 0x69, 0x63, 0x65, 0x73, 0]) 0 = some best ∧
      PicksMount devTable [SLASH, 0x64, 0x65, 0x76, 0x69, 0x63, 0x65, 0x73] best := by
  rintro ⟨best, hbest, hpick⟩
  have hpath : CStr (memOf 0 [SLASH, 0x64, 0x65, 0x76, 0x69, 0x63, 0x65, 0x73, 0]) 0
      [SLASH, 0x64, 0x65, 0x76, 0x69, 0x63, 0x65, 0x73] :=
    memOf_terminated 0 (s := [SLASH, 0x64, 0x65, 0x76, 0x69, 0x63, 0x65, 0x73]) (by decide)
  obtain ⟨hfind, -⟩ := findMount_cases hpath devTable_mounted
  rw [hbest] at hfind
  obtain rfl := Option.some.inj hfind
  have hdev : nearest devTable [SLASH, 0x64, 0x65, 0x76, 0x69, 0x63, 0x65, 0x73] =
    some ⟨memOf 0 [SLASH, 0x64, 0x65, 0x76, 0], some 2⟩ := rfl
  rw [hdev] at hpick
  exact absurd hpick.2.1 (by decide)

/-- `/dev//tty/` -/
def slashedPath : List Char8 := [SLASH, 0x64, 0x65, 0x76, SLASH, SLASH, 0x74, 0x74, 0x79, SLASH]

theorem slashedPath_cstr : CStr (memOf 0 slashedPath) 0 slashedPath :=
  memOf_cstr 0 (by decide)

theorem slashedPath_resolved : ResolvedAlike (constantNodes Nat) Eq devTable (fun _ => 0)
    (memOf 0 ttyPath) 0 (fun _ => 0) (memOf 0 slashedPath) 0 :=
  (resolve_slashes_iff ttyPath_cstr slashedPath_cstr (by decide) (by decide) devTable_mounted
    (by decide) (fun _ => 0) (fun _ => 0)).mpr (by decide) Nat (constantNodes Nat) Eq _
    constantNodes_contents fun _ _ root _ => ⟨root, rfl⟩

/-- `//dev/tty` -/
def leadingPath : List Char8 := SLASH :: ttyPath

theorem leadingPath_cstr : CStr (memOf 0 leadingPath) 0 leadingPath :=
  memOf_cstr 0 (by decide)

/-- `/dev/tty` is resolved in the file system at `/dev` and `//dev/tty` in the one at `/`. -/
theorem leadingPath_resolved :
    components SLASH ttyPath = components SLASH leadingPath ∧
      ¬ ∀ (β : Type) (fs : Nodes Nat) (R : Nat → β → Prop) (step : β → List Char8 → Option β),
        Contents fs R step → (∀ m ∈ devTable, ∀ root, m.root = some root → ∃ b, R root b) →
        ResolvedAlike fs R devTable (fun _ => 0) (memOf 0 ttyPath) 0 (fun _ => 0)
          (memOf 0 leadingPath) 0 := by
  refine ⟨by decide, fun hall => ?_⟩
  have halike := hall Nat (constantNodes Nat) Eq _ constantNodes_contents fun _ _ root _ => ⟨root, rfl⟩
  have hlongest := halike.longest ttyPath_cstr leadingPath_cstr (by decide) (by decide) devTable_mounted
  exact absurd hlongest (by decide)

end FrogKernel.Vfs
