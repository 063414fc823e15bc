import Mathlib.Data.List.Nodup
import FrogKernel.Initrd.Archive
import FrogKernel.Misc.Printf
import FrogKernel.Vfs.Resolve

/-!
# The initrd as a file system (`initrd/initrdfs.c`)

A vnode of the initrd holds the path of its entry.  `finddir` joins the path of
the directory and the component with `ksnprintf`, scans the archive for the
result and makes a vnode; a read looks the path of the vnode up again.

`kmalloc` makes room when it has none, so the two allocations of a vnode
succeed.  `stack` and `heap` are what arrays on the stack and fresh memory hold
before they are written.

Main result: `resolve_agrees`.
-/

namespace FrogKernel.Initrd

open FrogKernel.Bytes FrogKernel.CStrings FrogKernel.Paths FrogKernel.Printf FrogKernel.Vfs
open FrogKernel.Kheap (add32 sub32)

/-- The operations that `node->ops` points to. -/
inductive InitrdOps where
  | initrdFileOps
  | initrdDirOps
  deriving DecidableEq

/-- `vnode_t` with its `private_data`, the array `path`.  The other fields are
zero. -/
structure Vnode where
  flags : Nat
  size : Nat
  ops : InitrdOps
  mountedHere : Option Vnode
  path : Mem

section Model

variable (initrd : InitrdT) (m stack heap : Mem)

def initrdVnodeCreate (pm : Mem) (path : Nat) (typeflag : Char8) : Option Vnode :=
  let priv := write8 (strncpy heap 0 pm path 255) 255 0
  if typeflag = DIRTYPE then some ⟨VFS_DIRECTORY, 0, .initrdDirOps, none, priv⟩
  else
    (initrdLookup initrd m stack pm path).map fun f =>
      ⟨VFS_FILE, if f.data ≠ 0 then f.size else 0, .initrdFileOps, none, priv⟩

/-- `initrd_vnode_create("", '5')` -/
def initrdGetRoot : Option Vnode := initrdVnodeCreate initrd m stack heap (fun _ => 0) 0 DIRTYPE

/-- The array `child_path` of `initrd_dir_finddir`. -/
def childPath (node : Vnode) (name : Mem) : Option Mem :=
  let dlen := strnlen node.path 0 255
  let fmt := if dlen = 0 ∨ (dlen = 1 ∧ node.path 0 = SLASH) then [.str name 0]
    else [.str node.path 0, .text SLASH, .str name 0]
  (ksnprintf stack 256 fmt).map Prod.fst

/-- The loop of `initrd_dir_finddir`, with `child_path` at 0 of `cm`. -/
def finddirLoop (cm : Mem) : Nat → Nat → Option (Option Vnode)
  | 0, _ => none
  | n + 1, ptr =>
    if ¬ add32 ptr 512 ≤ add32 initrd.addr initrd.size then some none
    else if m (ptr + NAME) = 0 then some none
    else if memcmp m (ptr + MAGIC) ustar ≠ 0 then some none
    else
      let fullpath := headerPath m ptr stack
      (strcmp fullpath 0 cm 0 ROUNDS).bind fun c =>
        if c = 0 then
          (initrdVnodeCreate initrd m stack heap fullpath 0 (m (ptr + TYPEFLAG))).map some
        else
          let filesize := oct2int m (ptr + SIZE) 12
          finddirLoop cm n (add32 (add32 ptr 512) (roundUp512 filesize))

def initrdDirFinddir (node : Vnode) (name : Mem) : Option (Option Vnode) :=
  (childPath stack node name).bind fun cm => finddirLoop initrd m stack heap cm ROUNDS initrd.addr

/-- `initrd_file_read` into `buf` at `b`; the result is an `ssize_t`. -/
def initrdFileRead (node : Vnode) (buf : Mem) (b len offset : Nat) : Option (Int × Mem) :=
  (initrdLookup initrd m stack node.path 0).map fun f =>
    if f.data = 0 then (-1, buf)
    else if offset ≥ f.size then (0, buf)
    else
      let available := f.size - offset
      let toRead := if len < available then len else available
      ((BitVec.ofNat 32 toRead).toInt, copy buf b m (f.data + offset) toRead)

/-- The vnodes as `vfs_resolve` sees them. -/
def initrdNodes : Nodes Vnode where
  flags := Vnode.flags
  mountedHere := Vnode.mountedHere
  finddir node :=
    match node.ops with
    | .initrdFileOps => none
    | .initrdDirOps => some (initrdDirFinddir initrd m stack heap node)

end Model

/-- An archive whose scan stays inside it, with distinct paths that fit the
arrays of the kernel; what lies above an entry is a directory of the archive. -/
structure WellFormed (initrd : InitrdT) (m : Mem) (es : List Found) : Prop where
  scan : Scan m (initrd.addr + initrd.size) initrd.addr es
  below : initrd.addr + initrd.size + 512 < 2 ^ 32
  distinct : (es.map Found.path).Nodup
  short : ∀ e ∈ es, e.path.length ≤ 255
  parents : ∀ e ∈ es, Clean SLASH e.path → ∀ d rest, e.path = d ++ SLASH :: rest →
    ∃ parent ∈ es, parent.path = d ∧ parent.file.typeflag = DIRTYPE

/-- The part of it that a scan needs. -/
structure Readable (initrd : InitrdT) (m : Mem) (es : List Found) : Prop where
  scan : Scan m (initrd.addr + initrd.size) initrd.addr es
  below : initrd.addr + initrd.size + 512 < 2 ^ 32
  distinct : (es.map Found.path).Nodup
  short : ∀ e ∈ es, e.path.length ≤ 255

/-- A resolved path agrees with the entry that a lookup returns. -/
structure Agrees (initrd : InitrdT) (m stack : Mem) (f : InitrdFile) (r : Option Vnode) : Prop where
  found : r.isSome ↔ f.data ≠ 0
  directory : ∀ node, r = some node → (node.flags &&& VFS_DIRECTORY ≠ 0 ↔ f.typeflag = DIRTYPE)
  read : ∀ node, r = some node → node.flags &&& VFS_FILE ≠ 0 → ∀ buf b len, ∃ buf',
    initrdFileRead initrd m stack node buf b len 0 =
      some ((BitVec.ofNat 32 (min len f.size)).toInt, buf') ∧
    ∀ x, buf' x = if b ≤ x ∧ x < b + min len f.size then m (f.data + (x - b)) else buf x

/-! ## Entries of a scan -/

theorem trimSlash_ne_nil {s : List Char8} (h : s ≠ []) : trimSlash s ≠ [] := by
  unfold trimSlash
  split
  case isTrue hlen =>
    intro hnil
    have hpos := congrArg List.length hnil
    rw [List.length_dropLast, List.length_nil] at hpos
    omega
  case isFalse => exact h

theorem pathOf_ne_nil {m : Mem} {hdr : Nat} (h : m (hdr + NAME) ≠ 0) : pathOf m hdr ≠ [] := by
  refine trimSlash_ne_nil ?_
  unfold rawPath
  split
  · exact fun hnil => by simp at hnil
  · rw [fieldChars, if_neg h]
    exact List.cons_ne_nil _ _

/-- What a scan lists is what the headers say. -/
theorem Scan.mem {m : Mem} {last ptr : Nat} {es : List Found} (h : Scan m last ptr es) :
    ∀ e ∈ es, e = found m e.hdr ∧ e.path ≠ [] := by
  induction h with
  | stop => simp
  | @entry ptr es hgo _ _ ih =>
    rintro e (_ | ⟨_, he⟩)
    · refine ⟨rfl, pathOf_ne_nil fun hname => hgo ?_⟩
      exact Or.inr (Or.inl hname)
    · exact ih e he

theorem lookupIn_mem {es : List Found} (h : (es.map Found.path).Nodup) {e : Found} (he : e ∈ es) :
    lookupIn es e.path = e.file := by
  rcases lookupIn_cases es e.path with ⟨-, hnone⟩ | ⟨f, hf, hpath, hlookup⟩
  · exact absurd rfl (hnone e he)
  · obtain rfl := List.inj_on_of_nodup_map h hf he hpath
    exact hlookup

theorem lookupIn_other {es : List Found} {path : List Char8} (h : ∀ e ∈ es, e.path ≠ path) :
    lookupIn es path = notFound := by
  rw [lookupIn, List.find?_eq_none.mpr (by simpa using h)]
  rfl

/-! ## One component -/

/-- The paths of directories; the root has the empty path. -/
def IsDir (es : List Found) (d : List Char8) : Prop :=
  d = [] ∨ ∃ e ∈ es, e.path = d ∧ e.file.typeflag = DIRTYPE

/-- The path looked for in the directory `d`, cut to the array. -/
def childOf (d c : List Char8) : List Char8 :=
  (if d = [] ∨ d = [SLASH] then c else d ++ SLASH :: c).take 255

instance (es : List Found) (d : List Char8) : Decidable (IsDir es d) :=
  inferInstanceAs (Decidable (_ ∨ _))

def dirStep (es : List Found) (d c : List Char8) : Option (List Char8) :=
  if IsDir es d ∧ ∃ e ∈ es, e.path = childOf d c then some (childOf d c) else none

/-- `node` is a vnode for the path `d`. -/
structure Stands (es : List Found) (node : Vnode) (d : List Char8) : Prop where
  path : CStr node.path 0 d
  short : d.length ≤ 255
  mounted : node.mountedHere = none
  kind : if IsDir es d then node.flags = VFS_DIRECTORY ∧ node.ops = .initrdDirOps
    else node.flags = VFS_FILE ∧ node.ops = .initrdFileOps

section Component

variable {initrd : InitrdT} {m : Mem} {es : List Found}

theorem WellFormed.readable (h : WellFormed initrd m es) : Readable initrd m es :=
  ⟨h.scan, h.below, h.distinct, h.short⟩

theorem Readable.lookup (h : Readable initrd m es) (stack : Mem) {pm : Mem} {p : Nat}
    {path : List Char8} (hpath : CStr pm p path) :
    initrdLookup initrd m stack pm p = some (lookupIn es path) :=
  initrdLookup_eq stack h.below h.scan hpath

theorem Readable.isDir_iff (h : Readable initrd m es) {e : Found} (he : e ∈ es) :
    IsDir es e.path ↔ e.file.typeflag = DIRTYPE := by
  constructor
  · rintro (hnil | ⟨e', he', hpath, htype⟩)
    · exact absurd hnil (h.scan.mem e he).2
    · rwa [← List.inj_on_of_nodup_map h.distinct he' he hpath]
  · exact fun htype => Or.inr ⟨e, he, rfl, htype⟩

/-- The vnode made for an entry. -/
theorem initrdVnodeCreate_stands (h : Readable initrd m es) (stack heap : Mem) {pm : Mem}
    {p : Nat} {e : Found} (he : e ∈ es) (hpath : CStr pm p e.path) :
    ∃ node, initrdVnodeCreate initrd m stack heap pm p e.file.typeflag = some node ∧
      Stands es node e.path := by
  have hshort := h.short e he
  have hpriv := strncpy_cstr heap pm 255 0 p
  rw [fieldChars_cstr hpath hshort] at hpriv
  have hkind := h.isDir_iff he
  by_cases htype : e.file.typeflag = DIRTYPE
  · refine ⟨_, if_pos htype, hpriv, hshort, rfl, ?_⟩
    rw [if_pos (hkind.mpr htype)]
    exact ⟨rfl, rfl⟩
  · rw [initrdVnodeCreate, if_neg htype, h.lookup stack hpath, Option.map_some]
    refine ⟨_, rfl, hpriv, hshort, rfl, ?_⟩
    rw [if_neg fun hd => htype (hkind.mp hd)]
    exact ⟨rfl, rfl⟩

/-- `finddir` scans as a lookup of `child_path` does. -/
theorem finddirLoop_eq (initrd : InitrdT) (m stack heap cm : Mem) (n ptr : Nat) :
    finddirLoop initrd m stack heap cm n ptr =
      (lookupLoop m stack (add32 initrd.addr initrd.size) cm 0 n ptr).bind fun f =>
        if f = notFound then some none
        else (initrdVnodeCreate initrd m stack heap (headerPath m f.name stack) 0
          f.typeflag).map some := by
  induction n generalizing ptr with
  | zero => rfl
  | succ n ih =>
    rw [finddirLoop, lookupLoop]
    by_cases hroom : add32 ptr 512 ≤ add32 initrd.addr initrd.size
    · rw [if_neg (not_not.mpr hroom), if_neg (not_not.mpr hroom)]
      by_cases hname : m (ptr + NAME) = 0
      · rw [if_pos hname, if_pos hname]
        rfl
      · rw [if_neg hname, if_neg hname]
        by_cases hmagic : memcmp m (ptr + MAGIC) ustar = 0
        · rw [if_neg (not_not.mpr hmagic), if_neg (not_not.mpr hmagic)]
          dsimp only
          cases strcmp (headerPath m ptr stack) 0 cm 0 ROUNDS with
          | none => rfl
          | some c =>
            simp only [Option.bind_some]
            by_cases hc : c = 0
            · rw [if_pos hc, if_pos hc, Option.bind_some, if_neg]
              · rfl
              · intro hnull
                obtain rfl : ptr = 0 := congrArg InitrdFile.name hnull
                have hdata : add32 0 512 = 0 := congrArg InitrdFile.data hnull
                exact absurd hdata (by decide)
            · rw [if_neg hc, if_neg hc, ih]
        · rw [if_pos hmagic, if_pos hmagic]
          rfl
    · rw [if_pos hroom, if_pos hroom]
      rfl

theorem childPath_cstr (stack : Mem) {node : Vnode} {name : Mem} {d c : List Char8}
    (hd : CStr node.path 0 d) (hshort : d.length ≤ 255) (hname : CStr name 0 c)
    (hc : c.length < ROUNDS) :
    ∃ cm, childPath stack node name = some cm ∧ CStr cm 0 (childOf d c) := by
  have hroot : (d.length = 0 ∨ (d.length = 1 ∧ node.path 0 = SLASH)) ↔ d = [] ∨ d = [SLASH] := by
    cases d with
    | nil => simp
    | cons x d =>
      cases d with
      | nil => simp [hd.1]
      | cons y d => simp
  have hdlen : d.length < ROUNDS := Nat.lt_of_le_of_lt hshort (by decide)
  rw [childPath, strnlen_eq, fieldChars_cstr hd hshort]
  by_cases hcond : d = [] ∨ d = [SLASH]
  · have hprints : List.Forall₂ Prints [.str name 0] [c] := .cons ⟨hname, hc⟩ .nil
    obtain ⟨cm, n, hprint, hstr⟩ := ksnprintf_cstr stack 256 (by decide) (by decide)
      hprints (by simpa using hname.ne_zero)
    rw [if_pos (hroot.mpr hcond), hprint]
    refine ⟨cm, rfl, ?_⟩
    rw [childOf, if_pos hcond]
    simpa using hstr
  · have hprints : List.Forall₂ Prints [.str node.path 0, .text SLASH, .str name 0]
        [d, [SLASH], c] := .cons ⟨hd, hdlen⟩ (.cons rfl (.cons ⟨hname, hc⟩ .nil))
    have hne : ∀ x ∈ [d, [SLASH], c].flatten, x ≠ 0 := by
      simp only [List.flatten_cons, List.flatten_nil, List.mem_append, List.mem_singleton,
        List.not_mem_nil, or_false]
      rintro x (hx | rfl | hx)
      · exact hd.ne_zero x hx
      · decide
      · exact hname.ne_zero x hx
    obtain ⟨cm, n, hprint, hstr⟩ := ksnprintf_cstr stack 256 (by decide) (by decide)
      hprints hne
    rw [if_neg (fun h => hcond (hroot.mp h)), hprint]
    refine ⟨cm, rfl, ?_⟩
    rw [childOf, if_neg hcond]
    simpa using hstr

theorem initrdDirFinddir_rel (h : Readable initrd m es) (stack heap : Mem) {node : Vnode}
    {name : Mem} {d c : List Char8} (hnode : Stands es node d) (hname : CStr name 0 c)
    (hc : c.length < ROUNDS) :
    ∃ found, initrdDirFinddir initrd m stack heap node name = some found ∧
      Option.Rel (Stands es) found
        (if ∃ e ∈ es, e.path = childOf d c then some (childOf d c) else none) := by
  obtain ⟨cm, hcm, hstr⟩ := childPath_cstr stack hnode.path hnode.short hname hc
  have hlookup := h.lookup stack hstr
  rw [initrdLookup] at hlookup
  rw [initrdDirFinddir, hcm, Option.bind_some, finddirLoop_eq, hlookup, Option.bind_some]
  rcases lookupIn_cases es (childOf d c) with ⟨hnone, hother⟩ | ⟨e, he, hpath, hfile⟩
  · have hno : ¬ ∃ e ∈ es, e.path = childOf d c := by
      rintro ⟨e, he, hpath⟩
      exact hother e he hpath
    rw [hnone, if_pos rfl, if_neg hno]
    exact ⟨none, rfl, .none⟩
  · have hfound := (h.scan.mem e he).1
    have hne : e.file ≠ notFound := by
      rw [hfound]
      intro hnull
      have hdata : e.hdr + 512 = 0 := congrArg InitrdFile.data hnull
      omega
    have hheader : CStr (headerPath m e.file.name stack) 0 e.path := by
      rw [hfound]
      exact headerPath_cstr m e.hdr stack
    obtain ⟨node', hcreate, hstands⟩ := initrdVnodeCreate_stands h stack heap he hheader
    rw [hfile, if_neg hne, if_pos ⟨e, he, hpath⟩, hcreate, ← hpath]
    exact ⟨some node', rfl, .some hstands⟩

/-- The vnodes of the initrd follow the paths. -/
theorem follows (h : Readable initrd m es) (stack heap : Mem) :
    Follows (initrdNodes initrd m stack heap) (Stands es) (dirStep es) := by
  intro node d hnode component c hcomp _ _ hlen
  have hkind := hnode.kind
  rw [enter, dirStep]
  by_cases hdir : IsDir es d
  · rw [if_pos hdir] at hkind
    obtain ⟨found, hfind, hrel⟩ := initrdDirFinddir_rel h stack heap hnode hcomp hlen
    refine ⟨found, ?_, by simpa only [hdir, true_and] using hrel⟩
    have hflags : (initrdNodes initrd m stack heap).flags node = VFS_DIRECTORY := hkind.1
    have hmounted : (initrdNodes initrd m stack heap).mountedHere node = none := hnode.mounted
    rw [hflags, if_neg (by decide), hmounted]
    simp only [Option.getD_none, initrdNodes, hkind.2]
    exact hfind
  · rw [if_neg hdir] at hkind
    have hflags : (initrdNodes initrd m stack heap).flags node = VFS_FILE := hkind.1
    refine ⟨none, by rw [hflags]; rfl, ?_⟩
    rw [if_neg fun hand => hdir hand.1]
    exact .none

/-! ## Whole paths -/

/-- Walking from `d` over the rest of a clean path finds the entry of the path. -/
theorem dirStep_walk (h : WellFormed initrd m es) {p r d : List Char8} (hr : Clean SLASH r)
    (hp : Clean SLASH p) (hlen : p.length ≤ 255) (hd : d ≠ [SLASH])
    (hpath : p = if d = [] then r else d ++ SLASH :: r) :
    (components SLASH r).foldlM (dirStep es) d =
      if ∃ e ∈ es, e.path = p then some p else none := by
  -- the directory above an entry
  have habove : (∃ e ∈ es, e.path = p) → IsDir es d := by
    rintro ⟨e, he, rfl⟩
    by_cases hnil : d = []
    · exact Or.inl hnil
    · rw [if_neg hnil] at hpath
      exact Or.inr (h.parents e he hp d r hpath)
  induction hr using Clean.induct generalizing d with
  | single c _ hc hsep =>
    have hchild : childOf d c = p := by
      rw [childOf, hpath]
      by_cases hnil : d = []
      · rw [if_pos hnil] at hpath
        rw [if_pos (Or.inl hnil), if_pos hnil, List.take_of_length_le (hpath ▸ hlen)]
      · rw [if_neg hnil] at hpath
        rw [if_neg (not_or.mpr ⟨hnil, hd⟩), if_neg hnil, List.take_of_length_le (hpath ▸ hlen)]
    rw [components_single hsep hc]
    simp only [List.foldlM_cons, List.foldlM_nil, bind_pure, dirStep, hchild]
    by_cases hfound : ∃ e ∈ es, e.path = p
    · rw [if_pos ⟨habove hfound, hfound⟩, if_pos hfound]
    · rw [if_neg (fun hand => hfound hand.2), if_neg hfound]
  | more c r _ _ hc hsep ih =>
    have hsplit : p = childOf d c ++ SLASH :: r := by
      have hcut : ∀ q : List Char8, p = q ++ SLASH :: r → q.take 255 = q := by
        intro q hq
        refine List.take_of_length_le ?_
        rw [hq, List.length_append] at hlen
        omega
      rw [childOf]
      by_cases hnil : d = []
      · rw [if_pos hnil] at hpath
        rw [if_pos (Or.inl hnil), hcut c hpath]
        exact hpath
      · rw [if_neg hnil] at hpath
        have hassoc : p = (d ++ SLASH :: c) ++ SLASH :: r := by rw [hpath]; simp
        rw [if_neg (not_or.mpr ⟨hnil, hd⟩), hcut _ hassoc]
        exact hassoc
    have hne : childOf d c ≠ [] := by
      intro hnil
      rw [hnil, List.nil_append] at hsplit
      exact hp.no_leading (by rw [hsplit]; rfl)
    have hslash : childOf d c ≠ [SLASH] := by
      intro hone
      rw [hone] at hsplit
      exact hp.no_leading (by rw [hsplit]; rfl)
    have hrest := ih hslash (by rw [if_neg hne]; exact hsplit)
    have hparent : (∃ e ∈ es, e.path = p) → IsDir es (childOf d c) ∧
        ∃ e ∈ es, e.path = childOf d c := by
      rintro ⟨e, he, rfl⟩
      obtain ⟨parent, hmem, hpar, htype⟩ := h.parents e he hp _ _ hsplit
      exact ⟨Or.inr ⟨parent, hmem, hpar, htype⟩, parent, hmem, hpar⟩
    rw [components_append hsep hc, List.foldlM_cons, dirStep]
    by_cases hstep : IsDir es d ∧ ∃ e ∈ es, e.path = childOf d c
    · rw [if_pos hstep]
      exact hrest fun hfound => (hparent hfound).1
    · rw [if_neg hstep, if_neg fun hfound => hstep ⟨habove hfound, (hparent hfound).2⟩]
      rfl

theorem initrdGetRoot_stands (initrd : InitrdT) (m stack heap : Mem) (es : List Found) :
    ∃ root, initrdGetRoot initrd m stack heap = some root ∧ Stands es root [] := by
  have hempty : CStr (fun _ => 0) 0 [] := rfl
  have hpriv := strncpy_cstr heap (fun _ => 0) 255 0 0
  rw [fieldChars_cstr hempty (Nat.zero_le _)] at hpriv
  rw [initrdGetRoot, initrdVnodeCreate, if_pos rfl]
  refine ⟨_, rfl, hpriv, Nat.zero_le _, rfl, ?_⟩
  rw [if_pos (show IsDir es [] from Or.inl rfl)]
  exact ⟨rfl, rfl⟩

/-- A read of a file vnode. -/
theorem initrdFileRead_eq (h : Readable initrd m es) (stack : Mem) {node : Vnode} {e : Found}
    (he : e ∈ es) (hnode : Stands es node e.path) (buf : Mem) (b len offset : Nat) :
    initrdFileRead initrd m stack node buf b len offset =
      some ((BitVec.ofNat 32 (min len (e.file.size - offset))).toInt,
        copy buf b m (e.file.data + offset) (min len (e.file.size - offset))) := by
  have hdata : e.file.data ≠ 0 := by
    rw [(h.scan.mem e he).1]
    exact Nat.succ_ne_zero _
  rw [initrdFileRead, h.lookup stack hnode.path, lookupIn_mem h.distinct he, Option.map_some,
    if_neg hdata]
  by_cases hsize : offset ≥ e.file.size
  · have hnone : copy buf b m (e.file.data + offset) 0 = buf := by
      funext x
      rw [copy_apply, if_neg (by omega)]
    rw [if_pos hsize, Nat.sub_eq_zero_of_le hsize, Nat.min_zero, hnone]
    rfl
  · rw [if_neg hsize]
    have hmin : (if len < e.file.size - offset then len else e.file.size - offset) =
        min len (e.file.size - offset) := by
      split <;> omega
    dsimp only
    rw [hmin]

/-- **Resolving a path.**  It gives what a lookup finds: a directory for an entry
of type `5`, and otherwise a file with the data of the entry. -/
theorem resolve_agrees (h : WellFormed initrd m es) (stack heap : Mem) {mp pm lm : Mem}
    {p : List Char8} {path lp : Nat} (hp : Clean SLASH p) (hlen : p.length ≤ 255)
    (hmp : CStr mp 0 [SLASH]) (hpath : CStr pm path (SLASH :: p)) (hlp : CStr lm lp p) :
    ∃ root f r, initrdGetRoot initrd m stack heap = some root ∧
      initrdLookup initrd m stack lm lp = some f ∧
      vfsResolve (initrdNodes initrd m stack heap) [⟨mp, some root⟩] stack pm path = some r ∧
      Agrees initrd m stack f r := by
  obtain ⟨root, hroot, hstands⟩ := initrdGetRoot_stands initrd m stack heap es
  obtain ⟨r, hresolve, hrel⟩ := vfsResolve_walk (follows h.readable stack heap) stack hmp hstands hpath
    (Nat.lt_of_le_of_lt hlen (by decide))
  rw [dirStep_walk h hp hp hlen (List.cons_ne_nil _ _).symm rfl] at hrel
  refine ⟨root, _, _, hroot, h.readable.lookup stack hlp, hresolve, ?_⟩
  by_cases hfound : ∃ e ∈ es, e.path = p
  · rw [if_pos hfound] at hrel
    obtain ⟨e, he, rfl⟩ := hfound
    rw [lookupIn_mem h.distinct he]
    cases hrel with
    | @some node _ hnode =>
      have hcovered : covered (initrdNodes initrd m stack heap) node = node := by
        have hmounted : (initrdNodes initrd m stack heap).mountedHere node = none := hnode.mounted
        rw [covered, hmounted, Option.getD_none, ite_self]
      have hdata : e.file.data ≠ 0 := by
        rw [(h.scan.mem e he).1]
        exact Nat.succ_ne_zero _
      have hkind := hnode.kind
      rw [Option.map_some, hcovered]
      refine ⟨iff_of_true rfl hdata, ?_, ?_⟩
      · rintro _ ⟨⟩
        rw [← h.readable.isDir_iff he]
        split at hkind
        case isTrue hdir => exact iff_of_true (by rw [hkind.1]; decide) hdir
        case isFalse hdir => exact iff_of_false (by rw [hkind.1]; decide) hdir
      · rintro _ ⟨⟩ _ buf b len
        exact ⟨_, initrdFileRead_eq h.readable stack he hnode buf b len 0,
          fun x => copy_apply _ _ _ _ _ _⟩
  · rw [if_neg hfound] at hrel
    cases hrel
    rw [lookupIn_other fun e he hpath => hfound ⟨e, he, hpath⟩]
    exact ⟨by simp [notFound], nofun, nofun⟩

end Component

/-! ## An encoded archive -/

theorem describes_paths {m : Mem} {fs : List Found} {es : List UstarEntry}
    (h : List.Forall₂ (Describes m) fs es) (hread : ∀ e ∈ es, e.Readable) :
    fs.map Found.path = es.map UstarEntry.path := by
  induction h with
  | nil => rfl
  | @cons f e fs es hdesc _ ih =>
    have hpath : e.readPath = e.path := if_pos (hread e List.mem_cons_self)
    rw [List.map_cons, List.map_cons, hdesc.path, hpath,
      ih fun e' he' => hread e' (List.mem_cons_of_mem e he')]

/-- Readable archives with their directories are well formed. -/
theorem archive_wellFormed {initrd : InitrdT} {m : Mem} {es : List UstarEntry} {zeroBlocks : Nat}
    (hes : ∀ e ∈ es, e.Encodable) (hnodup : (es.map UstarEntry.path).Nodup)
    (hread : ∀ e ∈ es, e.Readable) (hshort : ∀ e ∈ es, e.path.length ≤ 255)
    (hparents : ∀ e ∈ es, ∀ d rest, e.path = d ++ SLASH :: rest →
      ∃ parent ∈ es, parent.path = d ∧ parent.typeflag = DIRTYPE)
    (hmem : Holds m initrd.addr (archive es zeroBlocks))
    (hsize : initrd.size = (archive es zeroBlocks).length)
    (hspace : initrd.addr + initrd.size + 512 < 2 ^ 32) : ∃ fs, WellFormed initrd m fs := by
  obtain ⟨fs, hscan, hall⟩ := scan_archive hes hmem (congrArg (initrd.addr + ·) hsize)
  have hpaths := describes_paths hall hread
  have hpath : ∀ f e, Describes m f e → e ∈ es → f.path = e.path :=
    fun f e hdesc he => hdesc.path.trans (if_pos (hread e he))
  refine ⟨fs, hscan, hspace, hpaths ▸ hnodup, ?_, ?_⟩
  · intro f hf
    obtain ⟨e, he, hdesc⟩ := forall₂_left hall hf
    rw [hpath f e hdesc he]
    exact hshort e he
  · intro f hf _ d rest hsplit
    obtain ⟨e, he, hdesc⟩ := forall₂_left hall hf
    obtain ⟨parent, hpar, hd, htype⟩ := hparents e he d rest (hpath f e hdesc he ▸ hsplit)
    obtain ⟨f', hf', hdesc'⟩ := forall₂_right hall hpar
    exact ⟨f', hf', (hpath f' parent hdesc' hpar).trans hd, hdesc'.returns.2.2.2.trans htype⟩

/-- The directory `d` and the file `d/f`. -/
def treeEntries : List UstarEntry :=
  [{ file [0x64] [] with typeflag := DIRTYPE }, file [0x64, SLASH, 0x66] [1, 2, 3]]

theorem treeEntries_wellFormed :
    ∃ fs, WellFormed (initrdOf (archive treeEntries 2)) (memOf 0x1000 (archive treeEntries 2)) fs := by
  have hes : ∀ e ∈ treeEntries, e.Encodable := by
    intro e he
    simp only [treeEntries, List.mem_cons, List.not_mem_nil, or_false] at he
    rcases he with rfl | rfl <;> constructor <;> decide
  refine archive_wellFormed hes (by decide) (by decide) (by decide) ?_ (holds_memOf _ _) rfl
    (by decide +kernel)
  intro e he d rest hsplit
  simp only [treeEntries, List.mem_cons, List.not_mem_nil, or_false] at he
  rcases he with rfl | rfl
  · have hmem : SLASH ∈ d ++ SLASH :: rest := by simp
    rw [← hsplit] at hmem
    exact absurd hmem (by decide)
  · refine ⟨_, List.mem_cons_self, ?_, rfl⟩
    have hbytes : [0x64, SLASH, 0x66] = d ++ SLASH :: rest := hsplit
    rcases d with _ | ⟨x, _ | ⟨y, d⟩⟩
    · cases hbytes
    · exact congrArg (List.take 1) hbytes
    · have hmem : SLASH ∈ d ++ SLASH :: rest := by simp
      have htail : [0x66] = d ++ SLASH :: rest := congrArg (List.drop 2) hbytes
      rw [← htail] at hmem
      exact absurd hmem (by decide)

theorem treeEntries_agree : ∃ root f r,
    initrdGetRoot (initrdOf (archive treeEntries 2)) (memOf 0x1000 (archive treeEntries 2))
      (fun _ => 0) (fun _ => 0) = some root ∧
    initrdLookup (initrdOf (archive treeEntries 2)) (memOf 0x1000 (archive treeEntries 2))
      (fun _ => 0) (memOf 0 [0x64, SLASH, 0x66, 0]) 0 = some f ∧
    vfsResolve (initrdNodes (initrdOf (archive treeEntries 2))
        (memOf 0x1000 (archive treeEntries 2)) (fun _ => 0) (fun _ => 0))
      [⟨memOf 0 [SLASH, 0], some root⟩] (fun _ => 0) (memOf 0 [SLASH, 0x64, SLASH, 0x66, 0]) 0 =
        some r ∧
    Agrees (initrdOf (archive treeEntries 2)) (memOf 0x1000 (archive treeEntries 2)) (fun _ => 0)
      f r := by
  obtain ⟨fs, hfs⟩ := treeEntries_wellFormed
  have hpath : CStr (memOf 0 [SLASH, 0x64, SLASH, 0x66, 0]) 0 [SLASH, 0x64, SLASH, 0x66] :=
    memOf_terminated 0 (s := [SLASH, 0x64, SLASH, 0x66]) (by decide)
  have hname : CStr (memOf 0 [0x64, SLASH, 0x66, 0]) 0 [0x64, SLASH, 0x66] :=
    memOf_terminated 0 (s := [0x64, SLASH, 0x66]) (by decide)
  exact resolve_agrees hfs (fun _ => 0) (fun _ => 0) (by decide) (by decide)
    (memOf_terminated 0 (s := [SLASH]) (by decide)) hpath hname

end FrogKernel.Initrd
