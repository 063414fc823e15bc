import FrogKernel.Initrd.InitrdFs

/-!
# Listing a directory of the initrd (`initrd/initrdfs.c`)

`initrd_dir_readdir` goes over the archive as `finddir` does, but where `finddir`
joins the directory and a name and compares, it takes the directory off each path
and looks at the rest.

`listing_agrees`: the names that `readdir` returns are those that `finddir` finds,
each at one index.
-/

namespace FrogKernel.Initrd

open FrogKernel.Bytes FrogKernel.CStrings FrogKernel.Paths FrogKernel.Vfs
open FrogKernel.Kheap (add32 sub32)

section Model

variable (initrd : InitrdT) (m stack : Mem)

/-- `rest`: where in `fullpath` the part below the directory starts. -/
def restOf (node : Vnode) (dirLen : Nat) (fullpath : Mem) : Option Nat :=
  if dirLen = 0 then some 0
  else if strncmp fullpath 0 node.path 0 dirLen = 0 ∧ fullpath dirLen = SLASH then
    some (dirLen + 1)
  else none

/-- `rest`, if `strnlen(rest, 256) > 0 && strchr(rest, '/') == NULL`. -/
def listed (fullpath : Mem) : Option Nat → Option (Option Nat)
  | none => some none
  | some rest =>
    if strnlen fullpath rest 256 = 0 then some none
    else (strchr fullpath rest SLASH ROUNDS).map fun slash =>
      if slash = none then some rest else none

/-- The loop of `initrd_dir_readdir`; `name_out` is the address `a` of `out`. -/
def readdirLoop (node : Vnode) (dirLen index : Nat) (out : Mem) (a nameMax : Nat) :
    Nat → Nat → Nat → Option (Int × Mem)
  | 0, _, _ => none
  | n + 1, ptr, found =>
    if ¬ add32 ptr 512 ≤ add32 initrd.addr initrd.size then some (-1, out)
    else if m (ptr + NAME) = 0 then some (-1, out)
    else if memcmp m (ptr + MAGIC) ustar ≠ 0 then some (-1, out)
    else
      let fullpath := headerPath m ptr stack
      let filesize := oct2int m (ptr + SIZE) 12
      let next := add32 (add32 ptr 512) (roundUp512 filesize)
      (listed fullpath (restOf node dirLen fullpath)).bind fun rest =>
        match rest with
        | none => readdirLoop node dirLen index out a nameMax n next found
        | some rest =>
          if found = index then
            let out := strncpy out a fullpath rest (sub32 nameMax 1)
            some (0, write8 out (a + sub32 nameMax 1) 0)
          else readdirLoop node dirLen index out a nameMax n next (add32 found 1)

def initrdDirReaddir (node : Vnode) (index : Nat) (out : Mem) (a nameMax : Nat) :
    Option (Int × Mem) :=
  let dirLen := strnlen node.path 0 255
  readdirLoop initrd m stack node dirLen index out a nameMax ROUNDS initrd.addr 0

end Model

/-! ## Names in a directory -/

/-- The path of the name `c` in the directory `d`. -/
def joined (d c : List Char8) : List Char8 := if d = [] then c else d ++ SLASH :: c

/-- The name that a path has in the directory `d`. -/
def nameIn (d p : List Char8) : Option (List Char8) :=
  let rest := if d = [] then p else p.drop (d.length + 1)
  if p = joined d rest ∧ rest ≠ [] ∧ SLASH ∉ rest then some rest else none

theorem nameIn_some {d p c : List Char8} :
    nameIn d p = some c ↔ p = joined d c ∧ c ≠ [] ∧ SLASH ∉ c := by
  have hrest : p = joined d c → (if d = [] then p else p.drop (d.length + 1)) = c := by
    rintro rfl
    unfold joined
    split
    · rfl
    · rw [← List.drop_drop, List.drop_left]
      rfl
  unfold nameIn
  dsimp only
  generalize (if d = [] then p else p.drop (d.length + 1)) = rest at hrest ⊢
  constructor
  · intro h
    split at h
    case isFalse => cases h
    case isTrue hname =>
      cases h
      exact hname
  · rintro ⟨hp, hc⟩
    rw [hrest hp, if_pos ⟨hp, hc⟩]

/-- The names of the entries in the directory `d`, in the order of the archive. -/
def listing (es : List Found) (d : List Char8) : List (List Char8) :=
  es.filterMap fun e => nameIn d e.path

theorem mem_listing {es : List Found} {d c : List Char8} :
    c ∈ listing es d ↔ (∃ e ∈ es, e.path = joined d c) ∧ c ≠ [] ∧ SLASH ∉ c := by
  simp only [listing, List.mem_filterMap, nameIn_some]
  constructor
  · rintro ⟨e, he, hpath, hc⟩
    exact ⟨⟨e, he, hpath⟩, hc⟩
  · rintro ⟨⟨e, he, hpath⟩, hc⟩
    exact ⟨e, he, hpath, hc⟩

/-- Distinct paths have distinct names. -/
theorem listing_nodup {es : List Found} (h : (es.map Found.path).Nodup) (d : List Char8) :
    (listing es d).Nodup := by
  have hmap : listing es d = (es.map Found.path).filterMap (nameIn d) := by
    rw [List.filterMap_map]
    rfl
  rw [hmap]
  refine h.filterMap fun p p' c hp hp' => ?_
  exact (nameIn_some.mp hp).1.trans (nameIn_some.mp hp').1.symm

/-! ## One entry -/

/-- What is listed of an entry is its name in the directory. -/
theorem listed_restOf {node : Vnode} {fullpath : Mem} {d p : List Char8}
    (hd : Holds node.path 0 d) (hd0 : ∀ c ∈ d, c ≠ 0) (hp : CStr fullpath 0 p)
    (hlen : p.length < ROUNDS) :
    ∃ r, listed fullpath (restOf node d.length fullpath) = some r ∧
      match nameIn d p with
      | none => r = none
      | some c => ∃ rest, r = some rest ∧ CStr fullpath rest c := by
  -- where the rest starts, it is tested as the name is
  have hrest : ∀ rest c, CStr fullpath rest c → c.length < ROUNDS →
      listed fullpath (some rest) = some (if c ≠ [] ∧ SLASH ∉ c then some rest else none) := by
    intro rest c hc hclen
    obtain ⟨slash, hslash, hnone⟩ := strchr_cstr hc (c := SLASH) (by decide) hclen
    rw [listed]
    cases c with
    | nil =>
      have h0 : fullpath rest = 0 := hc
      rw [strnlen, if_pos h0, if_pos rfl, if_neg fun h => h.1 rfl]
    | cons x c =>
      have hx : fullpath rest ≠ 0 := by
        rw [hc.1]
        exact hc.2.1
      rw [strnlen, if_neg hx, if_neg (Nat.succ_ne_zero _), hslash, Option.map_some]
      simp only [hnone, ne_eq, reduceCtorEq, not_false_eq_true, true_and]
  rw [restOf]
  by_cases hnil : d = []
  · subst hnil
    rw [List.length_nil, if_pos rfl, hrest 0 p hp hlen]
    refine ⟨_, rfl, ?_⟩
    rw [nameIn, if_pos rfl, joined, if_pos rfl]
    by_cases hc : p ≠ [] ∧ SLASH ∉ p
    · rw [if_pos ⟨rfl, hc⟩, if_pos hc]
      exact ⟨0, rfl, hp⟩
    · rw [if_neg fun h => hc h.2, if_neg hc]
  · have hcmp := strncmp_holds hp hd hd0
    rw [if_neg (fun h => hnil (List.length_eq_zero_iff.mp h))]
    by_cases hbelow : ∃ c, p = d ++ SLASH :: c
    · obtain ⟨c, rfl⟩ := hbelow
      have hslash : CStr fullpath d.length (SLASH :: c) := by simpa using hp.suffix
      have hclen : c.length < ROUNDS := by
        simp only [List.length_append, List.length_cons] at hlen
        omega
      rw [if_pos ⟨hcmp.mpr (List.prefix_append _ _), hslash.1⟩, hrest _ c hslash.2.2 hclen]
      refine ⟨_, rfl, ?_⟩
      by_cases hc : c ≠ [] ∧ SLASH ∉ c
      · have hname : nameIn d (d ++ SLASH :: c) = some c :=
          nameIn_some.mpr ⟨by rw [joined, if_neg hnil], hc⟩
        rw [hname, if_pos hc]
        exact ⟨_, rfl, hslash.2.2⟩
      · have hname : nameIn d (d ++ SLASH :: c) = none := by
          rw [Option.eq_none_iff_forall_ne_some]
          intro c' hc'
          obtain ⟨hpath, hc'⟩ := nameIn_some.mp hc'
          rw [joined, if_neg hnil] at hpath
          obtain rfl : c = c' := by simpa using hpath
          exact hc hc'
        rw [hname, if_neg hc]
    · have hno : ¬ (d <+: p ∧ fullpath d.length = SLASH) := by
        rintro ⟨⟨t, rfl⟩, hchar⟩
        have ht : CStr fullpath d.length t := by simpa using hp.suffix
        cases t with
        | nil =>
          have h0 : fullpath d.length = 0 := ht
          rw [h0] at hchar
          exact absurd hchar (by decide)
        | cons x t => exact hbelow ⟨t, by rw [← ht.1, hchar]⟩
      rw [if_neg fun h => hno ⟨hcmp.mp h.1, h.2⟩]
      refine ⟨none, rfl, ?_⟩
      have hname : nameIn d p = none := by
        rw [Option.eq_none_iff_forall_ne_some]
        intro c hc
        obtain ⟨hpath, -⟩ := nameIn_some.mp hc
        rw [joined, if_neg hnil] at hpath
        exact hbelow ⟨c, hpath⟩
      rw [hname]

/-! ## The scan -/

/-- What `readdir` returns for a name, or for the end of the directory. -/
inductive Returned (out : Mem) (a : Nat) : Option (List Char8) → Int × Mem → Prop
  | ended : Returned out a none (-1, out)
  | name {c : List Char8} {out' : Mem} : CStr out' a c → Returned out a (some c) (0, out')

theorem listing_cons (e : Found) (es : List Found) (d : List Char8) :
    listing (e :: es) d = (nameIn d e.path).toList ++ listing es d := by
  rw [listing, List.filterMap_cons]
  cases nameIn d e.path <;> rfl

/-- The loop from `ptr` on, with `k` names found before. -/
theorem readdirLoop_scan {initrd : InitrdT} {m stack out : Mem} {ptr a n k index : Nat}
    {es : List Found} {node : Vnode} {d : List Char8}
    (hlast : initrd.addr + initrd.size + 512 < 2 ^ 32)
    (hscan : Scan m (initrd.addr + initrd.size) ptr es) (hptr : ptr ≤ initrd.addr + initrd.size)
    (hd : CStr node.path 0 d) (hshort : ∀ e ∈ es, e.path.length ≤ 255) (hn : es.length < n)
    (hk : k ≤ index) (hfound : k + es.length < 2 ^ 32) :
    ∃ r, readdirLoop initrd m stack node d.length index out a 256 n ptr k = some r ∧
      Returned out a (listing es d)[index - k]? r := by
  have hend : add32 initrd.addr initrd.size = initrd.addr + initrd.size :=
    Nat.mod_eq_of_lt (by omega)
  induction hscan generalizing n k with
  | @stop ptr hstop =>
    obtain ⟨n, rfl⟩ : ∃ k, n = k + 1 := ⟨n - 1, by simp at hn; omega⟩
    refine ⟨(-1, out), ?_, .ended⟩
    rw [readdirLoop, hend]
    split
    · rfl
    split
    · rfl
    split
    · rfl
    case isFalse h1 h2 h3 =>
      exact absurd ((stops_iff (by omega)).mp hstop) (not_or.mpr ⟨h1, not_or.mpr ⟨h2, h3⟩⟩)
  | @entry ptr es hgo hinside _ ih =>
    obtain ⟨n, rfl⟩ : ∃ k, n = k + 1 := ⟨n - 1, by simp at hn; omega⟩
    simp only [stops_iff (show ptr + 512 < 2 ^ 32 by omega), not_or] at hgo
    obtain ⟨hroom, hname, hmagic⟩ := hgo
    obtain ⟨hadd, hnext⟩ := next_header hlast hinside
    have hlen : (pathOf m ptr).length ≤ 255 := hshort (found m ptr) List.mem_cons_self
    have hrest := fun e he => hshort e (List.mem_cons_of_mem (found m ptr) he)
    simp only [List.length_cons] at hn hfound
    obtain ⟨r, hlisted, hr⟩ := listed_restOf (holds_append.mp hd.holds).1 hd.ne_zero
      (headerPath_cstr m ptr stack)
      (Nat.lt_of_le_of_lt hlen (by decide))
    rw [readdirLoop, hend, if_neg hroom, if_neg hname, if_neg hmagic]
    dsimp only
    rw [hlisted, Option.bind_some, hadd, hnext, listing_cons]
    have hpath : (found m ptr).path = pathOf m ptr := rfl
    rw [hpath]
    cases hnameIn : nameIn d (pathOf m ptr) with
    | none =>
      rw [hnameIn] at hr
      obtain rfl := hr
      exact ih hinside hrest (by omega) hk (by omega)
    | some c =>
      rw [hnameIn] at hr
      obtain ⟨rest, rfl, hc⟩ := hr
      dsimp only
      split
      case isTrue hindex =>
        obtain rfl := hindex
        have hclen : c.length ≤ 255 := by
          obtain ⟨hjoin, -⟩ := nameIn_some.mp hnameIn
          rw [hjoin, joined] at hlen
          split at hlen
          · exact hlen
          · simp only [List.length_append, List.length_cons] at hlen
            omega
        have hcopy := strncpy_cstr out (headerPath m ptr stack) 255 a rest
        rw [fieldChars_cstr hc hclen] at hcopy
        rw [Nat.sub_self]
        exact ⟨_, rfl, .name hcopy⟩
      case isFalse hindex =>
        have hsucc : add32 k 1 = k + 1 := Nat.mod_eq_of_lt (by omega)
        have hskip : index - k = index - (k + 1) + 1 := by omega
        rw [hsucc, hskip, Option.toList_some, List.singleton_append, List.getElem?_cons_succ]
        exact ih hinside hrest (by omega) (by omega) (by omega)

/-- **`initrd_dir_readdir`** returns the name at the index in the listing. -/
theorem initrdDirReaddir_eq {initrd : InitrdT} {m : Mem} {es : List Found}
    (h : Readable initrd m es) (stack out : Mem) (a index : Nat) {node : Vnode} {d : List Char8}
    (hnode : Stands es node d) :
    ∃ r, initrdDirReaddir initrd m stack node index out a 256 = some r ∧
      Returned out a (listing es d)[index]? r := by
  have hlen := h.scan.length_le (Nat.le_add_right _ _)
  have hbelow := h.below
  rw [initrdDirReaddir, strnlen_eq, fieldChars_cstr hnode.path hnode.short]
  exact readdirLoop_scan hbelow h.scan (Nat.le_add_right _ _) hnode.path h.short
    (by rw [ROUNDS]; omega) (Nat.zero_le _) (by omega)

/-! ## Listing and lookup -/

section Agreement

variable (initrd : InitrdT) (m stack heap : Mem)

/-- `vfs_resolve` returns the vnode, with the initrd mounted anywhere. -/
def Reachable (node : Vnode) : Prop :=
  ∃ root table component pm path p, initrdGetRoot initrd m stack heap = some root ∧
    (∀ mnt ∈ table, mnt.root = none ∨ mnt.root = some root) ∧ CStr pm path p ∧
    p.length < ROUNDS ∧
    vfsResolve (initrdNodes initrd m stack heap) table component pm path = some (some node)

/-- `finddir` finds the name. -/
def Finds (node : Vnode) (name : List Char8) : Prop :=
  ∃ nm child, CStr nm 0 name ∧ initrdDirFinddir initrd m stack heap node nm = some (some child)

/-- `readdir` returns the name at the index. -/
def NameAt (node : Vnode) (index : Nat) (name : List Char8) : Prop :=
  ∀ out a, ∃ out', initrdDirReaddir initrd m stack node index out a 256 = some (0, out') ∧
    CStr out' a name

/-- `readdir` returns -1 at the index. -/
def EndAt (node : Vnode) (index : Nat) : Prop :=
  ∀ out a, initrdDirReaddir initrd m stack node index out a 256 = some (-1, out)

/-- The names that `finddir` finds in the directory with path `d`. -/
def Findable (node : Vnode) (d : List Char8) : Set (List Char8) :=
  {name | name ≠ [] ∧ SLASH ∉ name ∧ (joined d name).length ≤ 255 ∧
    Finds initrd m stack heap node name}

/-- Listing and lookup agree on the directory with path `d`. -/
structure ListingAgrees (node : Vnode) (d : List Char8) : Prop where
  total : ∀ index, EndAt initrd m stack node index ∨ ∃ name, NameAt initrd m stack node index name
  sound : ∀ index name, NameAt initrd m stack node index name → name ≠ [] ∧ SLASH ∉ name ∧
    ∀ nm, CStr nm 0 name →
      ∃ child, initrdDirFinddir initrd m stack heap node nm = some (some child) ∧
        CStr child.path 0 (joined d name)
  complete : ∀ name ∈ Findable initrd m stack heap node d,
    ∃! index, NameAt initrd m stack node index name
  end_iff : ∀ index : Nat, EndAt initrd m stack node index ↔
    (Findable initrd m stack heap node d).encard ≤ index

end Agreement

section Proof

variable {initrd : InitrdT} {m : Mem} {es : List Found}

theorem childOf_eq {d c : List Char8} (hd : d ≠ [SLASH]) (hlen : (joined d c).length ≤ 255) :
    childOf d c = joined d c := by
  have hcut := List.take_of_length_le hlen
  rw [joined] at hcut ⊢
  rw [childOf]
  by_cases hnil : d = []
  · rw [if_pos hnil] at hcut
    rw [if_pos (Or.inl hnil), if_pos hnil, hcut]
  · rw [if_neg hnil] at hcut
    rw [if_neg (not_or.mpr ⟨hnil, hd⟩), if_neg hnil, hcut]

/-- No vnode below the root has the path `/`, which `finddir` takes for the root. -/
theorem childOf_ne {d c : List Char8} (hsep : SLASH ∉ c) (hd : d ≠ [SLASH]) :
    childOf d c ≠ [SLASH] := by
  intro h
  rw [childOf] at h
  by_cases hnil : d = []
  · rw [if_pos (Or.inl hnil)] at h
    refine hsep (List.mem_of_mem_take (i := 255) ?_)
    rw [h]
    exact List.mem_singleton_self SLASH
  · rw [if_neg (not_or.mpr ⟨hnil, hd⟩)] at h
    have hlen := congrArg List.length h
    have hpos := List.length_pos_of_ne_nil hnil
    simp only [List.length_take, List.length_append, List.length_cons, List.length_nil] at hlen
    omega

theorem follows_below (h : Readable initrd m es) (stack heap : Mem) :
    Follows (initrdNodes initrd m stack heap) (fun node d => Stands es node d ∧ d ≠ [SLASH])
      (dirStep es) := by
  rintro node d ⟨hnode, hd⟩ component c hcomp hc hsep hlen
  obtain ⟨found, hfound, hrel⟩ := follows h stack heap node d hnode component c hcomp hc hsep hlen
  refine ⟨found, hfound, ?_⟩
  rw [dirStep] at hrel ⊢
  split at hrel
  case isTrue hstep =>
    rw [if_pos hstep]
    cases hrel with
    | some hnode' => exact .some ⟨hnode', childOf_ne hsep hd⟩
  case isFalse hstep =>
    rw [if_neg hstep]
    cases hrel
    exact .none

theorem reachable_stands (h : Readable initrd m es) {stack heap : Mem} {node : Vnode}
    (hreach : Reachable initrd m stack heap node) : ∃ d, Stands es node d ∧ d ≠ [SLASH] := by
  obtain ⟨root, table, component, pm, path, p, hroot, htable, hpath, hlen, hresolve⟩ := hreach
  obtain ⟨root', hroot', hstands⟩ := initrdGetRoot_stands initrd m stack heap es
  obtain rfl := Option.some.inj (hroot.symm.trans hroot')
  obtain ⟨mnt, hmem, start, s, rel, node', hstart, hs, hle, hloop, rfl⟩ :=
    vfsResolve_some hpath hresolve
  have heq : start = root := by
    rcases htable mnt hmem with hnone | hsome
    · rw [hnone] at hstart
      cases hstart
    · exact Option.some.inj (hstart.symm.trans hsome)
  subst heq
  obtain ⟨r, hr, hrel⟩ := resolveLoop_walk (follows_below h stack heap)
    (b := []) ⟨hstands, by simp⟩ hs (Nat.lt_of_le_of_lt hle hlen) (Nat.lt_of_le_of_lt hle hlen)
  obtain rfl := Option.some.inj (hr.symm.trans hloop)
  generalize (components SLASH s).foldlM (dirStep es) [] = r' at hrel
  cases hrel with
  | @some _ d hnode =>
    have hmounted : (initrdNodes initrd m stack heap).mountedHere node' = none := hnode.1.mounted
    rw [covered, hmounted, Option.getD_none, ite_self]
    exact ⟨d, hnode⟩

variable {node : Vnode} {d : List Char8}

theorem finddir_joined (h : Readable initrd m es) (stack heap : Mem) (hnode : Stands es node d)
    (hd : d ≠ [SLASH]) {name : List Char8} {nm : Mem} (hnm : CStr nm 0 name)
    (hlen : (joined d name).length ≤ 255) :
    ∃ found, initrdDirFinddir initrd m stack heap node nm = some found ∧
      Option.Rel (Stands es) found
        (if ∃ e ∈ es, e.path = joined d name then some (joined d name) else none) := by
  have hname : name.length < ROUNDS := by
    have hle : name.length ≤ (joined d name).length := by
      rw [joined]
      split
      · exact Nat.le_refl _
      · simp only [List.length_append, List.length_cons]
        omega
    exact Nat.lt_of_le_of_lt (Nat.le_trans hle hlen) (by decide)
  have hrel := initrdDirFinddir_rel h stack heap hnode hnm hname
  rwa [childOf_eq hd hlen] at hrel

/-- The names found are those of the listing. -/
theorem findable_eq (h : Readable initrd m es) (stack heap : Mem) (hnode : Stands es node d)
    (hd : d ≠ [SLASH]) : Findable initrd m stack heap node d = {name | name ∈ listing es d} := by
  ext name
  rw [Set.mem_ofPred_eq, mem_listing]
  constructor
  · rintro ⟨hne, hsep, hlen, nm, child, hnm, hfind⟩
    obtain ⟨found, hfound, hrel⟩ := finddir_joined h stack heap hnode hd hnm hlen
    obtain rfl := Option.some.inj (hfind.symm.trans hfound)
    refine ⟨?_, hne, hsep⟩
    split at hrel
    case isTrue hmem => exact hmem
    case isFalse => cases hrel
  · rintro ⟨⟨e, he, hpath⟩, hne, hsep⟩
    have hlen : (joined d name).length ≤ 255 := hpath ▸ h.short e he
    have hchars : ∀ c ∈ name, c ≠ 0 := by
      intro c hc
      have hmem : c ∈ e.path := by
        rw [hpath, joined]
        split
        · exact hc
        · simp [hc]
      rw [(h.scan.mem e he).1] at hmem
      exact (headerPath_cstr m e.hdr stack).ne_zero c hmem
    have hnm : CStr (memOf 0 (name ++ [0])) 0 name := memOf_terminated 0 hchars
    obtain ⟨found, hfound, hrel⟩ := finddir_joined h stack heap hnode hd hnm hlen
    rw [if_pos ⟨e, he, hpath⟩] at hrel
    cases hrel with
    | some hchild => exact ⟨hne, hsep, hlen, _, _, hnm, hfound⟩

theorem nameAt_iff (h : Readable initrd m es) (stack : Mem) (hnode : Stands es node d)
    {index : Nat} {name : List Char8} :
    NameAt initrd m stack node index name ↔ (listing es d)[index]? = some name := by
  constructor
  · intro hname
    obtain ⟨out', hread, hout⟩ := hname (fun _ => 0) 0
    obtain ⟨r, hr, hret⟩ := initrdDirReaddir_eq h stack (fun _ => 0) 0 index hnode
    obtain rfl := Option.some.inj (hr.symm.trans hread)
    generalize (listing es d)[index]? = entry at hret ⊢
    cases hret with
    | name hc => rw [hc.unique hout]
  · intro hentry out a
    obtain ⟨r, hr, hret⟩ := initrdDirReaddir_eq h stack out a index hnode
    rw [hentry] at hret
    cases hret with
    | name hc => exact ⟨_, hr, hc⟩

theorem endAt_iff (h : Readable initrd m es) (stack : Mem) (hnode : Stands es node d)
    {index : Nat} : EndAt initrd m stack node index ↔ (listing es d).length ≤ index := by
  rw [← List.getElem?_eq_none_iff]
  constructor
  · intro hend
    obtain ⟨r, hr, hret⟩ := initrdDirReaddir_eq h stack (fun _ => 0) 0 index hnode
    obtain rfl := Option.some.inj (hr.symm.trans (hend (fun _ => 0) 0))
    generalize (listing es d)[index]? = entry at hret ⊢
    cases hret with
    | ended => rfl
  · intro hentry out a
    obtain ⟨r, hr, hret⟩ := initrdDirReaddir_eq h stack out a index hnode
    rw [hentry] at hret
    cases hret with
    | ended => exact hr

/-- **Listing and lookup agree** on every vnode that a path leads to, whatever the
stack and the heap hold before a call. -/
theorem listing_agrees (h : Readable initrd m es) {stack heap : Mem}
    (hreach : Reachable initrd m stack heap node) (stack' heap' : Mem) :
    ∃ d, CStr node.path 0 d ∧ ListingAgrees initrd m stack' heap' node d := by
  obtain ⟨d, hnode, hd⟩ := reachable_stands h hreach
  have hfindable := findable_eq h stack' heap' hnode hd
  refine ⟨d, hnode.path, fun index => ?_, fun index name hname => ?_, fun name hname => ?_,
    fun index => ?_⟩
  · rw [endAt_iff h stack' hnode]
    by_cases hindex : index < (listing es d).length
    · refine Or.inr ⟨(listing es d)[index], (nameAt_iff h stack' hnode).mpr ?_⟩
      exact List.getElem?_eq_getElem hindex
    · exact Or.inl (Nat.not_lt.mp hindex)
  · have hmem := List.mem_of_getElem? ((nameAt_iff h stack' hnode).mp hname)
    obtain ⟨⟨e, he, hpath⟩, hne, hsep⟩ := mem_listing.mp hmem
    refine ⟨hne, hsep, fun nm hnm => ?_⟩
    obtain ⟨found, hfound, hrel⟩ :=
      finddir_joined h stack' heap' hnode hd hnm (hpath ▸ h.short e he)
    rw [if_pos ⟨e, he, hpath⟩] at hrel
    cases hrel with
    | some hchild => exact ⟨_, hfound, hchild.path⟩
  · rw [hfindable] at hname
    obtain ⟨index, hindex⟩ := List.mem_iff_getElem?.mp hname
    refine ⟨index, (nameAt_iff h stack' hnode).mpr hindex, fun j hj => ?_⟩
    have hsame := (nameAt_iff h stack' hnode).mp hj
    have hlt := (List.getElem?_eq_some_iff.mp hsame).1
    exact (List.getElem?_inj hlt (listing_nodup h.distinct d)).mp (hsame.trans hindex.symm)
  · have hset : Findable initrd m stack' heap' node d = ((listing es d).toFinset : Set _) := by
      rw [hfindable, List.coe_toFinset]
    rw [endAt_iff h stack' hnode, hset, Set.encard_coe_eq_coe_finsetCard,
      List.toFinset_card_of_nodup (listing_nodup h.distinct d), Nat.cast_le]

/-- The root of the archive with `d` and `d/f`. -/
theorem treeEntries_listing : ∃ node d,
    Reachable (initrdOf (archive treeEntries 2)) (memOf 0x1000 (archive treeEntries 2))
      (fun _ => 0) (fun _ => 0) node ∧ CStr node.path 0 d ∧
    ListingAgrees (initrdOf (archive treeEntries 2)) (memOf 0x1000 (archive treeEntries 2))
      (fun _ => 0) (fun _ => 0) node d := by
  obtain ⟨fs, hfs⟩ := treeEntries_wellFormed
  obtain ⟨root, hroot, hstands⟩ := initrdGetRoot_stands (initrdOf (archive treeEntries 2))
    (memOf 0x1000 (archive treeEntries 2)) (fun _ => 0) (fun _ => 0) fs
  have hslash : CStr (memOf 0 [SLASH, 0]) 0 [SLASH] :=
    memOf_terminated 0 (s := [SLASH]) (by decide)
  obtain ⟨r, hresolve, hrel⟩ := vfsResolve_walk (follows hfs.readable (fun _ => 0) fun _ => 0)
    (fun _ => 0) hslash hstands hslash (by decide)
  rw [components_nil, List.foldlM_nil] at hrel
  cases hrel with
  | some hnode =>
    have hreach : Reachable _ _ _ _ _ :=
      ⟨root, _, _, _, _, _, hroot, by simp, hslash, by decide, hresolve⟩
    obtain ⟨d, hd, hagrees⟩ := listing_agrees hfs.readable hreach (fun _ => 0) fun _ => 0
    exact ⟨_, d, hreach, hd, hagrees⟩

end Proof

end FrogKernel.Initrd
