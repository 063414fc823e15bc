import FrogKernel.Lib.CStrings
import FrogKernel.Memory.Kheap

/-!
# The initrd (`initrd/initrd.c`, `initrd/initrd.h`)

The initrd is a ustar archive in memory: for each entry a header block of 512
bytes, then the data, filled up to a multiple of 512.  `initrd_lookup` goes from
header to header and compares the path each one holds.

`Scan` describes the archive as the list of its entries.  `initrdLookup_eq`
shows that a lookup returns the first of them with the path.
-/

namespace FrogKernel.Initrd

open FrogKernel.Bytes FrogKernel.CStrings
open FrogKernel.Kheap (add32 sub32)

/-- `"ustar"` -/
def ustar : List Char8 := [0x75, 0x73, 0x74, 0x61, 0x72]

/-! Offsets of the fields of `ustar_header_t`. -/

def NAME : Nat := 0
def SIZE : Nat := 124
def TYPEFLAG : Nat := 156
def MAGIC : Nat := 257
def PREFIX : Nat := 345

/-- The typeflag of directories. -/
def DIRTYPE : Char8 := 0x35

/-- `initrd_t` -/
structure InitrdT where
  addr : Nat
  physAddr : Nat
  size : Nat

/-- `initrd_file_t` -/
structure InitrdFile where
  name : Nat
  data : Nat
  size : Nat
  typeflag : Char8
  deriving DecidableEq

/-- `{ NULL, NULL, 0, 0 }` -/
def notFound : InitrdFile := ⟨0, 0, 0, 0⟩

/-- The loop of `oct2int`.  A byte from 0x80 on ends it as a signed `char` below
`'0'` or as an unsigned one above `'7'`. -/
def oct2intLoop (m : Mem) (str val : Nat) : Nat → Nat
  | 0 => val
  | n + 1 =>
    if (m str).toNat < 0x30 ∨ (m str).toNat > 0x37 then val
    else oct2intLoop m (str + 1) ((val <<< 3) % 2 ^ 32 ||| ((m str).toNat - 0x30)) n

def oct2int (m : Mem) (str len : Nat) : Nat := oct2intLoop m str 0 len

/-- `if (n > 1 && fullpath[n - 1] == '/') fullpath[n - 1] = '\0'` -/
def cutSlash (fullpath : Mem) (n : Nat) : Mem :=
  if n > 1 ∧ fullpath (n - 1) = SLASH then write8 fullpath (n - 1) 0 else fullpath

/-- The path of a header, written into the array `fullpath`: the part that
`initrd_lookup`, `initrd_dir_finddir` and `initrd_dir_readdir` share. -/
def headerPath (m : Mem) (hdr : Nat) (fullpath : Mem) : Mem :=
  if m (hdr + PREFIX) ≠ 0 then
    let plen := strnlen m (hdr + PREFIX) 155
    let nlen := strnlen m (hdr + NAME) 100
    let fullpath := copy fullpath 0 m (hdr + PREFIX) plen
    let fullpath := write8 fullpath plen SLASH.toNat
    let fullpath := copy fullpath (plen + 1) m (hdr + NAME) nlen
    let fullpath := write8 fullpath (plen + 1 + nlen) 0
    cutSlash fullpath (plen + 1 + nlen)
  else
    let fullpath := strncpy fullpath 0 m (hdr + NAME) 255
    let fullpath := write8 fullpath 255 0
    cutSlash fullpath (strnlen fullpath 0 255)

/-- `(filesize + 511) & ~511` -/
def roundUp512 (filesize : Nat) : Nat := add32 filesize 511 / 512 * 512

/-- The loop of `initrd_lookup`.  `stack` is what `fullpath` holds before; `p` is
the path looked for, in the memory `pm`. -/
def lookupLoop (m stack : Mem) (last : Nat) (pm : Mem) (p : Nat) : Nat → Nat → Option InitrdFile
  | 0, _ => none
  | n + 1, ptr =>
    if ¬ add32 ptr 512 ≤ last then some notFound
    else if m (ptr + NAME) = 0 then some notFound
    else if memcmp m (ptr + MAGIC) ustar ≠ 0 then some notFound
    else
      let fullpath := headerPath m ptr stack
      let filesize := oct2int m (ptr + SIZE) 12
      let data := add32 ptr 512
      (strcmp fullpath 0 pm p ROUNDS).bind fun c =>
        if c = 0 then some ⟨ptr + NAME, data, filesize, m (ptr + TYPEFLAG)⟩
        else lookupLoop m stack last pm p n (add32 data (roundUp512 filesize))

def initrdLookup (initrd : InitrdT) (m stack pm : Mem) (p : Nat) : Option InitrdFile :=
  lookupLoop m stack (add32 initrd.addr initrd.size) pm p ROUNDS initrd.addr

/-! ## Paths of headers -/

def trimSlash (s : List Char8) : List Char8 :=
  if 1 < s.length ∧ s.getLast? = some SLASH then s.dropLast else s

/-- The path before a trailing slash is cut. -/
def rawPath (m : Mem) (hdr : Nat) : List Char8 :=
  if m (hdr + PREFIX) ≠ 0 then
    fieldChars m (hdr + PREFIX) 155 ++ SLASH :: fieldChars m (hdr + NAME) 100
  else fieldChars m (hdr + NAME) 255

def pathOf (m : Mem) (hdr : Nat) : List Char8 := trimSlash (rawPath m hdr)

theorem rawPath_length (m : Mem) (hdr : Nat) : (rawPath m hdr).length ≤ 256 := by
  have hpre := fieldChars_length_le m 155 (hdr + PREFIX)
  have hname := fieldChars_length_le m 100 (hdr + NAME)
  have hlong := fieldChars_length_le m 255 (hdr + NAME)
  unfold rawPath
  split
  · simp only [List.length_append, List.length_cons]
    omega
  · omega

theorem trimSlash_length (s : List Char8) : (trimSlash s).length ≤ s.length := by
  unfold trimSlash
  split
  · simp
  · exact Nat.le_refl _

theorem rawPath_ne_zero (m : Mem) (hdr : Nat) : ∀ c ∈ rawPath m hdr, c ≠ 0 := by
  unfold rawPath
  split
  · intro c hc
    rcases List.mem_append.mp hc with hc | hc
    · exact fieldChars_ne_zero _ _ _ c hc
    · rcases List.mem_cons.mp hc with rfl | hc
      · decide
      · exact fieldChars_ne_zero _ _ _ c hc
  · exact fieldChars_ne_zero _ _ _

theorem cutSlash_cstr {b : Mem} {s : List Char8} (h : CStr b 0 s) :
    CStr (cutSlash b s.length) 0 (trimSlash s) := by
  rcases List.eq_nil_or_concat' s with rfl | ⟨s, c, rfl⟩
  · exact h
  · have hhold := h.holds
    rw [List.append_assoc, holds_append] at hhold
    obtain ⟨hs, hc⟩ := hhold
    have hlast : b ((s ++ [c]).length - 1) = c := by
      have hlen : (s ++ [c]).length - 1 = 0 + s.length := by simp
      rw [hlen]
      exact hc.1
    rw [cutSlash, trimSlash, hlast, List.getLast?_concat, List.dropLast_concat]
    simp only [Option.some.injEq]
    split
    case isTrue hcut =>
      refine cstr_iff.mpr ⟨?_, fun x hx => h.ne_zero x (by simp [hx])⟩
      have hlen : (s ++ [c]).length - 1 = 0 + s.length := by simp
      rw [hlen]
      exact holds_write8 hs 0
    case isFalse => exact h

/-- **Header paths.**  Whatever the array held before, it holds the path of the
header afterwards. -/
theorem headerPath_cstr (m : Mem) (hdr : Nat) (stack : Mem) :
    CStr (headerPath m hdr stack) 0 (pathOf m hdr) := by
  have hne := rawPath_ne_zero m hdr
  unfold headerPath pathOf
  unfold rawPath at hne ⊢
  split
  case isTrue hpre =>
    rw [if_pos hpre] at hne
    dsimp only
    rw [strnlen_eq, strnlen_eq]
    have hp := fieldChars_holds m 155 (hdr + PREFIX)
    have hn := fieldChars_holds m 100 (hdr + NAME)
    generalize fieldChars m (hdr + PREFIX) 155 = P at hp hne ⊢
    generalize fieldChars m (hdr + NAME) 100 = N at hn hne ⊢
    have h1 := holds_write8 (copy_holds stack hp (d := 0)) SLASH
    have h2 := copy_holds (write8 (copy stack 0 m (hdr + PREFIX) P.length) (0 + P.length)
      SLASH.toNat) hn (d := P.length + 1)
    have hlen : P.length + 1 + N.length = (P ++ SLASH :: N).length := by simp; omega
    have h3 : Holds (copy (write8 (copy stack 0 m (hdr + PREFIX) P.length) (0 + P.length)
        SLASH.toNat) (P.length + 1) m (hdr + NAME) N.length) 0 (P ++ SLASH :: N) := by
      have hassoc : P ++ SLASH :: N = (P ++ [SLASH]) ++ N := by simp
      rw [hassoc]
      refine holds_append.mpr ⟨holds_congr h1 fun x _ hx => ?_, ?_⟩
      · simp only [List.length_append, List.length_singleton] at hx
        rw [copy_apply, if_neg (by omega)]
      · simpa using h2
    have h4 := holds_write8 h3 0
    rw [Nat.zero_add] at h4
    rw [Nat.zero_add] at h4
    rw [hlen]
    exact cutSlash_cstr (cstr_iff.mpr ⟨h4, hne⟩)
  case isFalse hpre =>
    rw [if_neg hpre] at hne
    dsimp only
    have hstr := strncpy_cstr stack m 255 0 (hdr + NAME)
    rw [strnlen_eq, fieldChars_cstr hstr (fieldChars_length_le m 255 (hdr + NAME))]
    exact cutSlash_cstr hstr

/-! ## The archive as a list -/

/-- An entry as the headers describe it. -/
structure Found where
  hdr : Nat
  path : List Char8
  file : InitrdFile

/-- What the header at `hdr` says. -/
def found (m : Mem) (hdr : Nat) : Found :=
  ⟨hdr, pathOf m hdr, hdr + NAME, hdr + 512, oct2int m (hdr + SIZE) 12, m (hdr + TYPEFLAG)⟩

/-- A header that ends the walk. -/
def Stops (m : Mem) (last ptr : Nat) : Prop :=
  last < ptr + 512 ∨ m (ptr + NAME) = 0 ∨ ¬ Holds m (ptr + MAGIC) ustar

/-- It is what the loops check. -/
theorem stops_iff {m : Mem} {last ptr : Nat} (hptr : ptr + 512 < 2 ^ 32) :
    Stops m last ptr ↔ ¬ add32 ptr 512 ≤ last ∨ m (ptr + NAME) = 0 ∨
      memcmp m (ptr + MAGIC) ustar ≠ 0 := by
  rw [Stops, add32, Nat.mod_eq_of_lt hptr, Nat.not_le, ne_eq, memcmp_eq_zero]

/-- The header behind an entry inside the archive. -/
theorem next_header {last ptr size : Nat} (hlast : last + 512 < 2 ^ 32)
    (hinside : ptr + 512 + (size + 511) / 512 * 512 ≤ last) :
    add32 ptr 512 = ptr + 512 ∧
      add32 (ptr + 512) (roundUp512 size) = ptr + 512 + (size + 511) / 512 * 512 := by
  have hround : roundUp512 size = (size + 511) / 512 * 512 := by
    rw [roundUp512, add32, Nat.mod_eq_of_lt (by omega)]
  rw [hround]
  exact ⟨Nat.mod_eq_of_lt (by omega), Nat.mod_eq_of_lt (by omega)⟩

/-- From `ptr` on the archive has the entries `es`, all inside it. -/
inductive Scan (m : Mem) (last : Nat) : Nat → List Found → Prop
  | stop {ptr : Nat} : Stops m last ptr → Scan m last ptr []
  | entry {ptr : Nat} {es : List Found} : ¬ Stops m last ptr →
      ptr + 512 + (oct2int m (ptr + SIZE) 12 + 511) / 512 * 512 ≤ last →
      Scan m last (ptr + 512 + (oct2int m (ptr + SIZE) 12 + 511) / 512 * 512) es →
      Scan m last ptr (found m ptr :: es)

/-- The result of a lookup in a list of entries. -/
def lookupIn (es : List Found) (path : List Char8) : InitrdFile :=
  ((es.find? (fun e => e.path = path)).map Found.file).getD notFound

theorem lookupIn_cases (fs : List Found) (path : List Char8) :
    lookupIn fs path = notFound ∧ (∀ f ∈ fs, f.path ≠ path) ∨
      ∃ f ∈ fs, f.path = path ∧ lookupIn fs path = f.file := by
  rw [lookupIn]
  cases hfind : fs.find? (fun e => e.path = path) with
  | none => exact Or.inl ⟨rfl, by simpa using hfind⟩
  | some f =>
    have hpath : f.path = path := by simpa using List.find?_some hfind
    exact Or.inr ⟨f, List.mem_of_find?_eq_some hfind, hpath, rfl⟩

theorem lookupLoop_scan {m stack pm : Mem} {last ptr p n : Nat} {es : List Found}
    {path : List Char8} (hlast : last + 512 < 2 ^ 32) (hscan : Scan m last ptr es)
    (hptr : ptr ≤ last) (hpath : CStr pm p path) (hn : es.length < n) :
    lookupLoop m stack last pm p n ptr = some (lookupIn es path) := by
  induction hscan generalizing n with
  | @stop ptr hstop =>
    obtain ⟨k, rfl⟩ : ∃ k, n = k + 1 := ⟨n - 1, by simp at hn; omega⟩
    rw [lookupLoop]
    split
    · rfl
    split
    · rfl
    split
    · rfl
    case isFalse h1 h2 h3 =>
      exact absurd ((stops_iff (by omega)).mp hstop) (not_or.mpr ⟨h1, not_or.mpr ⟨h2, h3⟩⟩)
  | @entry ptr es hgo hinside _ ih =>
    obtain ⟨k, rfl⟩ : ∃ k, n = k + 1 := ⟨n - 1, by simp at hn; omega⟩
    simp only [stops_iff (show ptr + 512 < 2 ^ 32 by omega), not_or] at hgo
    obtain ⟨hroom, hname, hmagic⟩ := hgo
    obtain ⟨hadd, hnext⟩ := next_header hlast hinside
    have hraw := rawPath_length m ptr
    have htrim := trimSlash_length (rawPath m ptr)
    obtain ⟨c, hcmp, hiff⟩ := strcmp_cstr (headerPath_cstr m ptr stack) hpath
      (show (pathOf m ptr).length < ROUNDS by rw [pathOf, ROUNDS]; omega)
    rw [lookupLoop, if_neg hroom, if_neg hname, if_neg hmagic]
    simp only [hadd, hcmp, Option.bind_some]
    split
    case isTrue h0 =>
      have hsame : (found m ptr).path = path := hiff.mp h0
      rw [lookupIn, List.find?_cons_of_pos (by simpa using hsame)]
      rfl
    case isFalse h0 =>
      have hother : ¬ (found m ptr).path = path := fun h => h0 (hiff.mpr h)
      rw [hnext, ih hinside (by simpa using hn), lookupIn, lookupIn,
        List.find?_cons_of_neg (by simpa using hother)]

/-- Each entry takes a block, so their number is bounded. -/
theorem Scan.length_le {m : Mem} {last ptr : Nat} {es : List Found} (h : Scan m last ptr es)
    (hptr : ptr ≤ last) : ptr + 512 * es.length ≤ last := by
  induction h with
  | stop => simpa using hptr
  | @entry ptr es _ hinside _ ih =>
    have htail := ih hinside
    simp only [List.length_cons]
    omega

/-- **`initrd_lookup`** returns the first entry with the path. -/
theorem initrdLookup_eq {initrd : InitrdT} {m pm : Mem} (stack : Mem) {p : Nat} {es : List Found}
    {path : List Char8} (hlast : initrd.addr + initrd.size + 512 < 2 ^ 32)
    (hscan : Scan m (initrd.addr + initrd.size) initrd.addr es) (hpath : CStr pm p path) :
    initrdLookup initrd m stack pm p = some (lookupIn es path) := by
  have hlen := hscan.length_le (Nat.le_add_right _ _)
  rw [initrdLookup, add32, Nat.mod_eq_of_lt (by omega)]
  exact lookupLoop_scan hlast hscan (Nat.le_add_right _ _) hpath (by rw [ROUNDS]; omega)

end FrogKernel.Initrd
