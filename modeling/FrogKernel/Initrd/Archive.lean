import Mathlib.Data.List.Forall2
import Mathlib.Data.List.Nodup
import Mathlib.Tactic.Ring
import FrogKernel.Initrd.Initrd

/-!
# Encoding and looking up

`archive es n` is the ustar archive of the entries `es` with `n` zero blocks at
its end.  `initrd_lookup` finds every entry again, with one exception: without a
prefix it copies the name with `strncpy(fullpath, hdr->name, 255)`, and a name
of 100 bytes has no NUL, so that the bytes of the mode field become part of the
path.

Main result: `decodes_iff`.
-/

namespace FrogKernel.Initrd

open FrogKernel.Bytes FrogKernel.CStrings
open FrogKernel.Kheap (add32 sub32)

/-- An entry before it is encoded.  A path longer than the name field is cut at a
slash into a prefix and the rest. -/
structure UstarEntry where
  pre : List Char8
  base : List Char8
  typeflag : Char8
  content : List Char8
  mode : Nat
  ids : List Char8
  times : List Char8
  link : List Char8
  owner : List Char8
  deriving DecidableEq

def UstarEntry.path (e : UstarEntry) : List Char8 :=
  if e.pre = [] then e.base else e.pre ++ SLASH :: e.base

/-- The name field: directories end with a slash. -/
def UstarEntry.name (e : UstarEntry) : List Char8 :=
  e.base ++ if e.typeflag = DIRTYPE then [SLASH] else []

/-- The entries that have a ustar form. -/
structure UstarEntry.Encodable (e : UstarEntry) : Prop where
  pre_le : e.pre.length ≤ 154
  name_pos : 1 ≤ e.name.length
  name_le : e.name.length ≤ 100
  chars : ∀ c ∈ e.pre ++ e.base, c ≠ 0
  path_ne : e.path ≠ []
  file_slash : e.typeflag ≠ DIRTYPE → e.base.getLast? ≠ some SLASH
  size_lt : e.content.length < 2 ^ 32

/-- `k` octal digits, the highest first. -/
def octal : Nat → Nat → List Char8
  | 0, _ => []
  | k + 1, v => BitVec.ofNat 8 (0x30 + v / 8 ^ k % 8) :: octal k v

/-- A field of `n` bytes, filled up with NULs. -/
def field (n : Nat) (s : List Char8) : List Char8 := (s ++ List.replicate n 0).take n

def header (e : UstarEntry) : List Char8 :=
  field 100 e.name ++ (octal 7 e.mode ++ [0]) ++ field 16 e.ids ++
    (octal 11 e.content.length ++ [0]) ++ field 20 e.times ++ [e.typeflag] ++ field 100 e.link ++
    (ustar ++ [0]) ++ field 82 e.owner ++ field 155 e.pre ++ field 12 []

-- a proof that some bytes lie in memory need not evaluate them
attribute [irreducible] header

/-- The bytes up to the next block. -/
def padding (e : UstarEntry) : List Char8 :=
  List.replicate ((e.content.length + 511) / 512 * 512 - e.content.length) 0

def record (e : UstarEntry) : List Char8 := header e ++ e.content ++ padding e

def archive (es : List UstarEntry) (zeroBlocks : Nat) : List Char8 :=
  es.flatMap record ++ List.replicate (512 * zeroBlocks) 0

/-- The name field is terminated, or there is a prefix. -/
def UstarEntry.Readable (e : UstarEntry) : Prop := e.pre ≠ [] ∨ e.name.length < 100

instance (e : UstarEntry) : Decidable e.Readable := inferInstanceAs (Decidable (_ ∨ _))

/-- A lookup returns the entry: its content, size and type. -/
def Returns (m : Mem) (e : UstarEntry) (r : InitrdFile) : Prop :=
  r.data ≠ 0 ∧ Holds m r.data e.content ∧ r.size = e.content.length ∧ r.typeflag = e.typeflag

/-- Decoding undoes encoding. -/
structure Decodes (initrd : InitrdT) (m stack : Mem) (es : List UstarEntry) : Prop where
  entry : ∀ e ∈ es, ∀ pm p, CStr pm p e.path →
    ∃ r, initrdLookup initrd m stack pm p = some r ∧ Returns m e r
  other : ∀ path, path ∉ es.map UstarEntry.path → ∀ pm p, CStr pm p path →
    ∃ r, initrdLookup initrd m stack pm p = some r ∧ r.data = 0

/-! ## Fields -/

theorem octal_length (k v : Nat) : (octal k v).length = k := by
  induction k with
  | zero => rfl
  | succ k ih => rw [octal, List.length_cons, ih]

theorem field_length (n : Nat) (s : List Char8) : (field n s).length = n := by
  simp [field]

theorem digit_toNat (d : Nat) : (BitVec.ofNat 8 (0x30 + d % 8)).toNat = 0x30 + d % 8 := by
  rw [BitVec.toNat_ofNat, Nat.mod_eq_of_lt (by omega)]

theorem octal_digits {k v : Nat} : ∀ c ∈ octal k v, 0x30 ≤ c.toNat ∧ c.toNat ≤ 0x37 := by
  induction k with
  | zero => simp [octal]
  | succ k ih =>
    rintro c (_ | ⟨_, hc⟩)
    · rw [digit_toNat]
      omega
    · exact ih c hc

theorem octal_ne_zero {k v : Nat} : ∀ c ∈ octal k v, c ≠ 0 := by
  rintro c hc rfl
  have hdigit := (octal_digits 0 hc).1
  simp at hdigit

/-- `oct2int` reads back what `octal` wrote. -/
theorem oct2intLoop_octal {m : Mem} {k a v : Nat} (val : Nat) (h : Holds m a (octal k v ++ [0]))
    (hlt : val * 8 ^ k + v % 8 ^ k < 2 ^ 32) :
    oct2intLoop m a val (k + 1) = val * 8 ^ k + v % 8 ^ k := by
  induction k generalizing a val with
  | zero =>
    have h0 : m a = 0 := h.1
    rw [oct2intLoop, h0, if_pos (Or.inl (by decide))]
    simp
    omega
  | succ k ih =>
    obtain ⟨hd, htail⟩ := h
    have hdigit : (m a).toNat = 0x30 + v / 8 ^ k % 8 := by rw [hd, digit_toNat]
    have hmod : v % 8 ^ (k + 1) = v / 8 ^ k % 8 * 8 ^ k + v % 8 ^ k := by
      rw [Nat.pow_succ, Nat.mod_mul, Nat.mul_comm, Nat.add_comm]
    have hsplit : val * 8 ^ (k + 1) + v % 8 ^ (k + 1) =
        (val * 8 + v / 8 ^ k % 8) * 8 ^ k + v % 8 ^ k := by
      rw [hmod, Nat.pow_succ]
      ring
    rw [hsplit] at hlt ⊢
    have hscale := Nat.le_mul_of_pos_right (val * 8 + v / 8 ^ k % 8)
      (show 0 < 8 ^ k from Nat.pow_pos (by decide))
    have hval : val * 8 + v / 8 ^ k % 8 < 2 ^ 32 :=
      Nat.lt_of_le_of_lt (Nat.le_add_right_of_le hscale) hlt
    have hnext : (val <<< 3) % 2 ^ 32 ||| ((m a).toNat - 0x30) = val * 8 + v / 8 ^ k % 8 := by
      rw [hdigit, Nat.add_sub_cancel_left, Nat.shiftLeft_eq, Nat.mod_eq_of_lt (by omega),
        Nat.mul_comm val]
      exact (Nat.two_pow_add_eq_or_of_lt (i := 3) (Nat.mod_lt _ (by decide)) val).symm
    rw [oct2intLoop, if_neg (by omega), hnext, ih _ htail hlt]

theorem field_eq {n : Nat} {s : List Char8} (h : s.length ≤ n) :
    field n s = s ++ List.replicate (n - s.length) 0 := by
  rw [field, List.take_append, List.take_of_length_le h, List.take_replicate,
    Nat.min_eq_left (Nat.sub_le _ _)]

/-- A terminated field. -/
theorem field_cstr {m : Mem} {a n : Nat} {s : List Char8} (h : Holds m a (field n s))
    (hlt : s.length < n) (hne : ∀ c ∈ s, c ≠ 0) : CStr m a s := by
  obtain ⟨k, hk⟩ : ∃ k, n - s.length = k + 1 := ⟨n - s.length - 1, by omega⟩
  rw [field_eq hlt.le, hk, List.replicate_succ, holds_append] at h
  exact cstr_iff.mpr ⟨holds_append.mpr ⟨h.1, h.2.1, trivial⟩, hne⟩

/-- The characters of a field, terminated or full. -/
theorem field_chars {m : Mem} {a n : Nat} {s : List Char8} (h : Holds m a (field n s))
    (hle : s.length ≤ n) (hne : ∀ c ∈ s, c ≠ 0) : fieldChars m a n = s := by
  rcases Nat.lt_or_eq_of_le hle with hlt | rfl
  · exact fieldChars_cstr (field_cstr h hlt hne) hle
  · rw [field_eq (Nat.le_refl _), holds_append] at h
    exact fieldChars_full h.1 hne

/-- A field is empty when its first byte is NUL. -/
theorem field_first {m : Mem} {a n : Nat} {s : List Char8} (h : Holds m a (field n s)) (hn : 0 < n)
    (hne : ∀ c ∈ s, c ≠ 0) : m a ≠ 0 ↔ s ≠ [] := by
  obtain ⟨k, rfl⟩ : ∃ k, n = k + 1 := ⟨n - 1, by omega⟩
  cases s with
  | nil =>
    have h0 : m a = 0 := h.1
    exact iff_of_false (not_not.mpr h0) (not_not.mpr rfl)
  | cons c s =>
    have hc : m a = c := h.1
    exact iff_of_true (by rw [hc]; exact hne c (by simp)) (List.cons_ne_nil c s)

/-! ## Headers -/

theorem header_length (e : UstarEntry) : (header e).length = 512 := by
  simp [header, field_length, octal_length, ustar]

theorem record_length (e : UstarEntry) :
    (record e).length = 512 + (e.content.length + 511) / 512 * 512 := by
  have hpad : e.content.length ≤ (e.content.length + 511) / 512 * 512 := by omega
  simp only [record, padding, List.length_append, header_length, List.length_replicate]
  omega

/-- The fields of a header that the kernel reads. -/
structure HoldsHeader (m : Mem) (a : Nat) (e : UstarEntry) : Prop where
  name : Holds m (a + NAME) (field 100 e.name)
  mode : Holds m (a + NAME + 100) (octal 7 e.mode ++ [0])
  size : Holds m (a + SIZE) (octal 11 e.content.length ++ [0])
  typeflag : m (a + TYPEFLAG) = e.typeflag
  magic : Holds m (a + MAGIC) ustar
  pre : Holds m (a + PREFIX) (field 155 e.pre)

theorem holdsHeader {m : Mem} {a : Nat} {e : UstarEntry} (h : Holds m a (header e)) :
    HoldsHeader m a e := by
  simp only [header, holds_append, List.length_append, field_length, octal_length,
    List.length_singleton, Nat.add_assoc] at h
  obtain ⟨⟨⟨⟨⟨⟨⟨⟨⟨⟨hname, hmode, hnul⟩, -⟩, hsize, hnul'⟩, -⟩, htype⟩, -⟩, hmagic, -⟩, -⟩, hpre⟩,
    -⟩ := h
  exact ⟨hname, holds_append.mpr ⟨hmode, by rw [octal_length]; exact hnul⟩,
    holds_append.mpr ⟨hsize, by rw [octal_length]; exact hnul'⟩, htype.1, hmagic, hpre⟩

section Header

variable {m : Mem} {a : Nat} {e : UstarEntry}

theorem UstarEntry.Encodable.name_chars (he : e.Encodable) : ∀ c ∈ e.name, c ≠ 0 := by
  intro c hc
  rcases List.mem_append.mp hc with hc | hc
  · exact he.chars c (by simp [hc])
  · split at hc
    · rw [List.mem_singleton.mp hc]
      decide
    · cases hc

theorem UstarEntry.Encodable.pre_chars (he : e.Encodable) : ∀ c ∈ e.pre, c ≠ 0 :=
  fun c hc => he.chars c (by simp [hc])

theorem HoldsHeader.oct2int (h : HoldsHeader m a e) (he : e.Encodable) :
    oct2int m (a + SIZE) 12 = e.content.length := by
  have hsize := he.size_lt
  have hmod : e.content.length % 8 ^ 11 = e.content.length := Nat.mod_eq_of_lt (by omega)
  have hread := oct2intLoop_octal 0 h.size (by omega)
  rw [Initrd.oct2int, hread, hmod]
  omega

/-- The path that a lookup compares with. -/
def UstarEntry.readPath (e : UstarEntry) : List Char8 :=
  if e.Readable then e.path else e.name ++ octal 7 e.mode

theorem trim_name (he : e.Encodable) :
    trimSlash (if e.pre = [] then e.name else e.pre ++ SLASH :: e.name) = e.path := by
  have hraw : (if e.pre = [] then e.name else e.pre ++ SLASH :: e.name) =
      e.path ++ if e.typeflag = DIRTYPE then [SLASH] else [] := by
    unfold UstarEntry.path UstarEntry.name
    split <;> simp
  have hpath := List.length_pos_of_ne_nil he.path_ne
  rw [hraw, trimSlash]
  by_cases hdir : e.typeflag = DIRTYPE
  · simp only [hdir, ↓reduceIte, List.length_append, List.length_singleton,
      List.getLast?_concat, List.dropLast_concat, and_true]
    rw [if_pos (by omega)]
  · have hname := he.name_pos
    have hbase : e.base ≠ [] := by
      rintro hbase
      simp [UstarEntry.name, hbase, hdir] at hname
    have hlast : e.path.getLast? = e.base.getLast? := by
      unfold UstarEntry.path
      split
      · rfl
      · rw [List.getLast?_append_cons, List.getLast?_cons_of_ne_nil hbase]
    simp only [hdir, ↓reduceIte, List.append_nil, hlast, he.file_slash hdir, and_false]

theorem HoldsHeader.rawPath_pre (h : HoldsHeader m a e) (he : e.Encodable) (hp : e.pre ≠ []) :
    rawPath m a = e.pre ++ SLASH :: e.name := by
  have hle := he.pre_le
  rw [rawPath, if_pos ((field_first h.pre (by decide) he.pre_chars).mpr hp),
    field_chars h.name he.name_le he.name_chars, field_chars h.pre (by omega) he.pre_chars]

theorem HoldsHeader.rawPath_name (h : HoldsHeader m a e) (he : e.Encodable) (hp : e.pre = []) :
    rawPath m a = fieldChars m (a + NAME) 255 :=
  if_neg fun hne => (field_first h.pre (by decide) he.pre_chars).mp hne hp

/-- A name that fills its field runs on into the mode. -/
theorem HoldsHeader.fieldChars_full (h : HoldsHeader m a e) (he : e.Encodable)
    (hfull : e.name.length = 100) : fieldChars m (a + NAME) 255 = e.name ++ octal 7 e.mode := by
  have hname := h.name
  rw [field_eq he.name_le, holds_append] at hname
  have hmode : CStr m (a + NAME + 100) (octal 7 e.mode) := cstr_iff.mpr ⟨h.mode, octal_ne_zero⟩
  have hlong := fieldChars_append (n := 155) hname.1 he.name_chars
  rwa [hfull, fieldChars_cstr hmode (by rw [octal_length]; decide)] at hlong

theorem octal_getLast (s : List Char8) (k v : Nat) :
    (s ++ octal (k + 1) v).getLast? ≠ some SLASH := by
  rw [octal, List.getLast?_append_of_ne_nil _ (List.cons_ne_nil _ _)]
  intro hlast
  have hdigit := (octal_digits (k := k + 1) _ (List.mem_of_getLast? hlast)).1
  exact absurd hdigit (by decide)

theorem HoldsHeader.pathOf (h : HoldsHeader m a e) (he : e.Encodable) :
    pathOf m a = e.readPath := by
  have htrim := trim_name he
  rw [Initrd.pathOf, UstarEntry.readPath]
  by_cases hp : e.pre = []
  · rw [if_pos hp] at htrim
    rw [h.rawPath_name he hp]
    by_cases hlen : e.name.length < 100
    · have hfield := field_cstr h.name hlen he.name_chars
      rw [if_pos (show e.Readable from Or.inr hlen), fieldChars_cstr hfield (by omega), htrim]
    · have hle := he.name_le
      have hbad : ¬ e.Readable := fun hr => hr.elim (fun hne => hne hp) hlen
      rw [if_neg hbad, h.fieldChars_full he (by omega), trimSlash,
        if_neg fun hc => octal_getLast _ _ _ hc.2]
  · rw [if_neg hp] at htrim
    rw [if_pos (show e.Readable from Or.inl hp), h.rawPath_pre he hp, htrim]

end Header

/-! ## The archive -/

/-- `f` is the entry `e` as a lookup finds it. -/
structure Describes (m : Mem) (f : Found) (e : UstarEntry) : Prop where
  path : f.path = e.readPath
  returns : Returns m e f.file

theorem describes {m : Mem} {a : Nat} {e : UstarEntry} (h : Holds m a (record e))
    (he : e.Encodable) : Describes m (found m a) e := by
  rw [record, holds_append, holds_append, header_length] at h
  obtain ⟨⟨hheader, hcontent⟩, -⟩ := h
  have hh := holdsHeader hheader
  refine ⟨hh.pathOf he, ?_, hcontent, hh.oct2int he, hh.typeflag⟩
  show a + 512 ≠ 0
  omega

/-- The walk over an encoded archive. -/
theorem scan_archive {m : Mem} {last zeroBlocks : Nat} {es : List UstarEntry} {a : Nat}
    (hes : ∀ e ∈ es, e.Encodable) (h : Holds m a (archive es zeroBlocks))
    (hlast : last = a + (archive es zeroBlocks).length) :
    ∃ fs, Scan m last a fs ∧ List.Forall₂ (Describes m) fs es := by
  induction es generalizing a with
  | nil =>
    refine ⟨[], .stop ?_, .nil⟩
    cases zeroBlocks with
    | zero =>
      left
      simp only [archive, List.flatMap_nil, List.nil_append, Nat.mul_zero, List.length_replicate]
        at hlast
      omega
    | succ n =>
      right; left
      have hmul : 512 * (n + 1) = (512 * n + 511) + 1 := by omega
      rw [archive, hmul, List.replicate_succ] at h
      exact h.1
  | cons e es ih =>
    have hassoc : archive (e :: es) zeroBlocks = record e ++ archive es zeroBlocks := by
      simp [archive]
    have he := hes e (by simp)
    rw [hassoc, holds_append] at h
    rw [hassoc, List.length_append] at hlast
    obtain ⟨fs, hscan, hall⟩ := ih (fun x hx => hes x (List.mem_cons_of_mem e hx)) h.2 (by omega)
    have hrec := h.1
    rw [record, holds_append, holds_append] at hrec
    have hh := holdsHeader hrec.1.1
    have hlen := record_length e
    have hsize := hh.oct2int he
    have hgo : ¬ Stops m last a := by
      rintro (hend | hname | hmagic)
      · omega
      · refine (field_first hh.name (by decide) he.name_chars).mpr ?_ hname
        exact List.ne_nil_of_length_pos he.name_pos
      · exact hmagic hh.magic
    refine ⟨found m a :: fs, .entry hgo ?_ ?_, .cons (describes h.1 he) hall⟩
    · rw [hsize]
      omega
    · rw [hsize, Nat.add_assoc, ← hlen]
      exact hscan

section

variable {m : Mem} {fs : List Found} {es : List UstarEntry}

theorem forall₂_left (h : List.Forall₂ (Describes m) fs es) {f : Found} (hf : f ∈ fs) :
    ∃ e ∈ es, Describes m f e := by
  induction h with
  | nil => cases hf
  | cons hd _ ih =>
    rcases List.mem_cons.mp hf with rfl | hf
    · exact ⟨_, by simp, hd⟩
    · obtain ⟨e, he, hdesc⟩ := ih hf
      exact ⟨e, by simp [he], hdesc⟩

theorem forall₂_right (h : List.Forall₂ (Describes m) fs es) {e : UstarEntry} (he : e ∈ es) :
    ∃ f ∈ fs, Describes m f e := by
  induction h with
  | nil => cases he
  | cons hd _ ih =>
    rcases List.mem_cons.mp he with rfl | he
    · exact ⟨_, by simp, hd⟩
    · obtain ⟨f, hf, hdesc⟩ := ih he
      exact ⟨f, by simp [hf], hdesc⟩

/-- When every entry is readable a lookup returns it, and nothing else is found. -/
theorem lookupIn_readable (hall : List.Forall₂ (Describes m) fs es)
    (hnodup : (es.map UstarEntry.path).Nodup) (hread : ∀ e ∈ es, e.Readable) :
    (∀ e ∈ es, Returns m e (lookupIn fs e.path)) ∧
      ∀ path, path ∉ es.map UstarEntry.path → lookupIn fs path = notFound := by
  have hpath : ∀ e ∈ es, e.readPath = e.path := fun e he => if_pos (hread e he)
  constructor
  · intro e he
    rcases lookupIn_cases fs e.path with ⟨-, hnone⟩ | ⟨f, hf, hfpath, hlookup⟩
    · obtain ⟨f, hf, hdesc⟩ := forall₂_right hall he
      exact absurd (hdesc.path.trans (hpath e he)) (hnone f hf)
    · obtain ⟨e', he', hdesc⟩ := forall₂_left hall hf
      have hsame : e'.path = e.path := by rw [← hpath e' he', ← hdesc.path, hfpath]
      obtain rfl := List.inj_on_of_nodup_map hnodup he' he hsame
      rw [hlookup]
      exact hdesc.returns
  · intro path hnew
    rcases lookupIn_cases fs path with ⟨hnone, -⟩ | ⟨f, hf, hfpath, -⟩
    · exact hnone
    · obtain ⟨e, he, hdesc⟩ := forall₂_left hall hf
      refine absurd (List.mem_map.mpr ⟨e, he, ?_⟩) hnew
      rw [← hpath e he, ← hdesc.path, hfpath]

/-- An entry that is not readable is not found. -/
theorem lookupIn_unreadable (hall : List.Forall₂ (Describes m) fs es)
    (hnodup : (es.map UstarEntry.path).Nodup) (hes : ∀ e ∈ es, e.Encodable) {e : UstarEntry}
    (he : e ∈ es) (hread : ¬ e.Readable) : lookupIn fs e.path = notFound := by
  rcases lookupIn_cases fs e.path with ⟨hnone, -⟩ | ⟨f, hf, hfpath, -⟩
  · exact hnone
  · obtain ⟨e', he', hdesc⟩ := forall₂_left hall hf
    have hpath : e'.readPath = e.path := by rw [← hdesc.path, hfpath]
    obtain ⟨hpre, hlen⟩ : e.pre = [] ∧ ¬ e.name.length < 100 := by
      simpa [UstarEntry.Readable, not_or] using hread
    unfold UstarEntry.readPath at hpath
    split at hpath
    case isTrue hread' =>
      obtain rfl := List.inj_on_of_nodup_map hnodup he' he hpath
      exact absurd hread' hread
    case isFalse hread' =>
      -- the path read for `e'` is longer than any path without a prefix
      have hlen' : ¬ e'.name.length < 100 := fun hlt => hread' (Or.inr hlt)
      have hle := (hes e he).name_le
      have hbase : e.path.length ≤ e.name.length := by simp [UstarEntry.path, UstarEntry.name, hpre]
      have htotal := congrArg List.length hpath
      rw [List.length_append, octal_length] at htotal
      omega

end

/-- Lookups in an encoded archive, by the entries a scan finds in it. -/
theorem lookup_archive {initrd : InitrdT} {m : Mem} (stack : Mem) {es : List UstarEntry}
    {zeroBlocks : Nat} (hes : ∀ e ∈ es, e.Encodable)
    (hmem : Holds m initrd.addr (archive es zeroBlocks))
    (hsize : initrd.size = (archive es zeroBlocks).length)
    (hspace : initrd.addr + initrd.size + 512 < 2 ^ 32) :
    ∃ fs, List.Forall₂ (Describes m) fs es ∧ ∀ pm p path, CStr pm p path →
      initrdLookup initrd m stack pm p = some (lookupIn fs path) := by
  obtain ⟨fs, hscan, hall⟩ := scan_archive hes hmem (congrArg (initrd.addr + ·) hsize)
  exact ⟨fs, hall, fun pm p path hpath => initrdLookup_eq stack hspace hscan hpath⟩

theorem UstarEntry.Encodable.path_chars {e : UstarEntry} (he : e.Encodable) :
    ∀ c ∈ e.path, c ≠ 0 := by
  intro c hc
  unfold UstarEntry.path at hc
  split at hc
  · exact he.chars c (by simp [hc])
  · rcases List.mem_append.mp hc with hc | hc
    · exact he.chars c (by simp [hc])
    · rcases List.mem_cons.mp hc with rfl | hc
      · decide
      · exact he.chars c (by simp [hc])

/-- The path of an entry as a string of its own. -/
theorem UstarEntry.Encodable.path_cstr {e : UstarEntry} (he : e.Encodable) :
    CStr (memOf 0 (e.path ++ [0])) 0 e.path :=
  memOf_terminated 0 he.path_chars

/-- **Round trip.**  Lookups in the encoded archive return exactly its entries,
and nothing for other paths, exactly when no name without a prefix fills its
field. -/
theorem decodes_iff {initrd : InitrdT} {m : Mem} (stack : Mem) {es : List UstarEntry}
    {zeroBlocks : Nat} (hes : ∀ e ∈ es, e.Encodable) (hnodup : (es.map UstarEntry.path).Nodup)
    (hmem : Holds m initrd.addr (archive es zeroBlocks))
    (hsize : initrd.size = (archive es zeroBlocks).length)
    (hspace : initrd.addr + initrd.size + 512 < 2 ^ 32) :
    Decodes initrd m stack es ↔ ∀ e ∈ es, e.Readable := by
  obtain ⟨fs, hall, hlookup⟩ := lookup_archive stack hes hmem hsize hspace
  constructor
  · intro hdec e he
    by_contra hread
    have hstr := (hes e he).path_cstr
    obtain ⟨r, hr, hdata, -⟩ := hdec.entry e he _ 0 hstr
    rw [hlookup _ _ _ hstr, lookupIn_unreadable hall hnodup hes he hread] at hr
    exact hdata (by rw [← Option.some.inj hr]; rfl)
  · intro hread
    obtain ⟨hfound, hother⟩ := lookupIn_readable hall hnodup hread
    constructor
    · intro e he pm p hpath
      exact ⟨_, hlookup pm p _ hpath, hfound e he⟩
    · intro path hnew pm p hpath
      refine ⟨_, hlookup pm p _ hpath, ?_⟩
      rw [hother path hnew]
      rfl

/-! ## Two archives -/

/-- A file with the given name and content. -/
def file (base content : List Char8) : UstarEntry :=
  ⟨[], base, 0x30, content, 0o644, [], [], [], []⟩

/-- The initrd of the bytes `bs` at 0x1000. -/
def initrdOf (bs : List Char8) : InitrdT := ⟨0x1000, 0x1000, bs.length⟩

/-- `a` and `etc/init`, the second with a prefix. -/
def smallEntries : List UstarEntry :=
  [file [0x61] [1, 2, 3],
    { file [0x69, 0x6e, 0x69, 0x74] [4, 5] with pre := [0x65, 0x74, 0x63] }]

theorem smallEntries_encodable : ∀ e ∈ smallEntries, e.Encodable := by
  intro e he
  simp only [smallEntries, List.mem_cons, List.not_mem_nil, or_false] at he
  rcases he with rfl | rfl <;> constructor <;> decide

theorem smallEntries_decodes :
    Decodes (initrdOf (archive smallEntries 2)) (memOf 0x1000 (archive smallEntries 2))
      (fun _ => 0) smallEntries :=
  (decodes_iff (fun _ => 0) smallEntries_encodable (by decide) (holds_memOf _ _) rfl
    (by decide +kernel)).mpr (by decide)

/-- A file whose path fills the name field. -/
def longEntries : List UstarEntry := [file (List.replicate 100 0x61) [1, 2, 3]]

theorem longEntries_encodable : ∀ e ∈ longEntries, e.Encodable := by
  intro e he
  obtain rfl := List.mem_singleton.mp he
  constructor <;> decide

/-- **Counterexample.**  The file is in the archive and a lookup of its path finds
nothing. -/
theorem longEntries_lost :
    (∀ e ∈ longEntries, e.Encodable) ∧ (longEntries.map UstarEntry.path).Nodup ∧
      Holds (memOf 0x1000 (archive longEntries 2)) 0x1000 (archive longEntries 2) ∧
      ¬ Decodes (initrdOf (archive longEntries 2)) (memOf 0x1000 (archive longEntries 2))
        (fun _ => 0) longEntries := by
  refine ⟨longEntries_encodable, by decide, holds_memOf _ _, fun hdec => ?_⟩
  have hmem : Holds (memOf 0x1000 (archive longEntries 2))
      (initrdOf (archive longEntries 2)).addr (archive longEntries 2) := holds_memOf _ _
  obtain ⟨fs, hall, hlookup⟩ := lookup_archive (fun _ => 0) longEntries_encodable hmem rfl
    (by decide +kernel)
  have he : file (List.replicate 100 0x61) [1, 2, 3] ∈ longEntries := List.mem_singleton_self _
  have hstr := (longEntries_encodable _ he).path_cstr
  obtain ⟨r, hr, hdata, -⟩ := hdec.entry _ he _ 0 hstr
  rw [hlookup _ _ _ hstr, lookupIn_unreadable hall (by decide) longEntries_encodable he
    (by decide)] at hr
  exact hdata (by rw [← Option.some.inj hr]; rfl)

end FrogKernel.Initrd
