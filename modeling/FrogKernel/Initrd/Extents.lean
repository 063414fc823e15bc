import FrogKernel.Lib.Traces
import FrogKernel.Initrd.Scanning

/-!
# The data of a file (`initrd/initrd.c`, `initrd/initrdfs.c`)

The scans check that a header lies in the archive.  The data behind it is as long as
the size field says, and only the header that a scan passes over has its size looked
at again: the room for the next header is checked.

`initrdFileReadTraced` is `initrd_file_read` with the range that its `memcpy` reads.
`data_inside_iff`: the data lies in the archive exactly when the size field of the first
header with the path is right.
-/

namespace FrogKernel.Initrd

open FrogKernel.Bytes FrogKernel.CStrings FrogKernel.Loops FrogKernel.Traces FrogKernel.Vfs
open FrogKernel.Kheap (add32 sub32)

section Model

variable (initrd : InitrdT) (m stack : Mem)

/-- `initrd_file_read`, with the start and the length of what is copied.  A lookup
that goes on for ever is an error. -/
def initrdFileReadTraced (node : Vnode) (buf : Mem) (b len offset : Nat) :
    Traced Unit (Nat × Nat) (Int × Mem) :=
  match initrdLookup initrd m stack node.path 0 with
  | none => silent (.error ())
  | some f =>
    if f.data = 0 then silent (.ok (-1, buf))
    else if offset ≥ f.size then silent (.ok (0, buf))
    else
      let available := f.size - offset
      let toRead := if len < available then len else available
      emit [(f.data + offset, toRead)]
        (.ok ((BitVec.ofNat 32 toRead).toInt, copy buf b m (f.data + offset) toRead))

/-- It comes to the same. -/
theorem initrdFileReadTraced_result (node : Vnode) (buf : Mem) (b len offset : Nat) :
    (initrdFileReadTraced initrd m stack node buf b len offset).result =
      (initrdFileRead initrd m stack node buf b len offset).elim (.error ()) .ok := by
  unfold initrdFileReadTraced initrdFileRead
  generalize initrdLookup initrd m stack node.path 0 = found
  cases found with
  | none => rfl
  | some f =>
    simp only [Option.map_some, Option.elim_some]
    split
    · rfl
    split
    · rfl
    · rfl

/-- A range of addresses lies in the archive. -/
def InArchive (start len : Nat) : Prop :=
  initrd.addr ≤ start ∧ start + len ≤ initrd.addr + initrd.size

/-- A lookup of the path returns data in the archive, and reads of its vnodes copy
from there. -/
structure DataInside (path : List Char8) : Prop where
  lookup : ∀ pm p f, CStr pm p path → initrdLookup initrd m stack pm p = some f →
    f ≠ notFound → InArchive initrd f.data f.size
  read : ∀ node buf b len offset, CStr node.path 0 path →
    ∀ w ∈ (initrdFileReadTraced initrd m stack node buf b len offset).trace,
      InArchive initrd w.1 w.2

/-- The headers up to the first one with the path. -/
inductive Meets (path : List Char8) : Nat → Prop
  | first : Meets path initrd.addr
  | next {ptr : Nat} : Meets path ptr → ¬ Ends initrd m ptr → pathOf m ptr ≠ path →
      Meets path (nextHeader m ptr)

/-- The first header with the path. -/
structure Leads (path : List Char8) (hdr : Nat) : Prop where
  meets : Meets initrd m path hdr
  inside : ¬ Ends initrd m hdr
  path_eq : pathOf m hdr = path

/-- The size field is right: the archive has so many bytes behind the header. -/
def SizeFits (hdr : Nat) : Prop :=
  initrd.addr ≤ add32 hdr 512 ∧
    oct2int m (hdr + SIZE) 12 ≤ initrd.addr + initrd.size - add32 hdr 512

end Model

section Proof

variable {initrd : InitrdT} {m stack pm : Mem} {p : Nat} {path : List Char8}

theorem nextHeader_lt (m : Mem) (ptr : Nat) : nextHeader m ptr < 2 ^ 32 := Nat.mod_lt _ (by decide)

theorem Meets.lt {hdr : Nat} (h : Meets initrd m path hdr) (haddr : initrd.addr < 2 ^ 32) :
    hdr < 2 ^ 32 := by
  cases h with
  | first => exact haddr
  | next => exact nextHeader_lt m _

theorem cstr_iff_eq {s t : List Char8} (hs : CStr pm p s) : CStr pm p t ↔ t = s :=
  ⟨fun h => h.unique hs, fun h => h ▸ hs⟩

/-- The rounds of a lookup are those headers. -/
theorem reaches_iff_meets (stack : Mem) (hpath : CStr pm p path) {hdr : Nat} :
    Reaches (lookupRound initrd m stack pm p) (initrd.addr, ()) (hdr, ()) ↔
      Meets initrd m path hdr := by
  constructor
  · suffices hall : ∀ t, Reaches (lookupRound initrd m stack pm p) (initrd.addr, ()) t →
        Meets initrd m path t.1 from hall (hdr, ())
    intro t hreach
    induction hreach with
    | refl => exact .first
    | @tail t u _ hstay ih =>
      obtain ⟨hgo, hnext, hvisit⟩ := scanRound_stays.mp hstay
      rw [hnext]
      refine .next ih hgo fun hsame => ?_
      rw [lookupVisit_found ((cstr_iff_eq hpath).mpr hsame)] at hvisit
      cases hvisit
  · intro h
    induction h with
    | first => exact .refl
    | @next ptr _ hgo hother ih =>
      refine ih.tail (scanRound_stays.mpr ⟨hgo, rfl, lookupVisit_other fun h => hother ?_⟩)
      exact (cstr_iff_eq hpath).mp h

/-- **What a lookup finds.** -/
theorem initrdLookup_leads (hpath : CStr pm p path) {f : InitrdFile}
    (h : initrdLookup initrd m stack pm p = some f) (hf : f ≠ notFound) :
    ∃ hdr, Leads initrd m path hdr ∧
      f = ⟨hdr + NAME, add32 hdr 512, oct2int m (hdr + SIZE) 12, m (hdr + TYPEFLAG)⟩ := by
  rw [initrdLookup, lookupLoop_eq] at h
  obtain ⟨⟨hdr, _⟩, hreach, hleave⟩ := loop_eq_some.mp ⟨_, h⟩
  by_cases hends : Ends initrd m hdr
  · rw [lookupRound, scanRound_ends initrd m hends] at hleave
    cases hleave
    exact absurd rfl hf
  · rw [lookupRound, scanRound_visits initrd m hends] at hleave
    by_cases hfound : CStr pm p (pathOf m hdr)
    · rw [lookupVisit_found hfound] at hleave
      cases hleave
      exact ⟨hdr, ⟨(reaches_iff_meets stack hpath).mp hreach, hends, hfound.unique hpath⟩, rfl⟩
    · rw [lookupVisit_other hfound] at hleave
      cases hleave

theorem ne_notFound (hdr size : Nat) (typeflag : Char8) :
    (⟨hdr + NAME, add32 hdr 512, size, typeflag⟩ : InitrdFile) ≠ notFound := by
  intro h
  obtain rfl : hdr = 0 := congrArg InitrdFile.name h
  have hdata : add32 0 512 = 0 := congrArg InitrdFile.data h
  exact absurd hdata (by decide)

/-- The first header with the path is found. -/
theorem Leads.lookup (stack : Mem) {hdr : Nat} (h : Leads initrd m path hdr)
    (haddr : initrd.addr < 2 ^ 32) (hpath : CStr pm p path) : initrdLookup initrd m stack pm p =
      some ⟨hdr + NAME, add32 hdr 512, oct2int m (hdr + SIZE) 12, m (hdr + TYPEFLAG)⟩ := by
  have hreach := (reaches_iff_meets stack hpath).mpr h.meets
  have hleave : lookupRound initrd m stack pm p (hdr, ()) = some (.leave
      ⟨hdr + NAME, add32 hdr 512, oct2int m (hdr + SIZE) 12, m (hdr + TYPEFLAG)⟩) := by
    rw [lookupRound, scanRound_visits initrd m h.inside,
      lookupVisit_found (h.path_eq ▸ hpath)]
    rfl
  obtain ⟨n, hn⟩ := loop_eq_some.mpr ⟨_, hreach, hleave⟩
  -- `ptr` has 32 bits, so the loop leaves within that many rounds
  rw [initrdLookup, lookupLoop_eq]
  have hkey : Function.Injective (Prod.fst : Nat × Unit → Nat) := fun t u hfst => Prod.ext hfst rfl
  refine loop_below hkey (fun t ht => ?_) hn
  · exact ((reaches_iff_meets stack hpath).mp ht).lt haddr

/-- What a read copies lies in the data of the file. -/
theorem mem_read_trace {node : Vnode} {buf : Mem} {b len offset : Nat} {w : Nat × Nat}
    (h : w ∈ (initrdFileReadTraced initrd m stack node buf b len offset).trace) :
    ∃ f, initrdLookup initrd m stack node.path 0 = some f ∧ f ≠ notFound ∧
      f.data ≤ w.1 ∧ w.1 + w.2 ≤ f.data + f.size := by
  unfold initrdFileReadTraced at h
  generalize initrdLookup initrd m stack node.path 0 = found at h ⊢
  cases found with
  | none => cases h
  | some f =>
    dsimp only at h
    split at h
    · cases h
    split at h
    · cases h
    case isFalse hdata hoffset =>
      rw [trace_emit, List.mem_singleton] at h
      subst h
      refine ⟨f, rfl, fun hnone => hdata (congrArg InitrdFile.data hnone), ?_, ?_⟩
      · exact Nat.le_add_right _ _
      · dsimp only
        split <;> omega

/-- **The data of a file.** -/
theorem data_inside_iff (initrd : InitrdT) (m stack : Mem) (path : List Char8)
    (hspace : initrd.addr + initrd.size < 2 ^ 32) :
    DataInside initrd m stack path ↔ ∀ hdr, Leads initrd m path hdr → SizeFits initrd m hdr := by
  constructor
  · intro h hdr hleads
    have hchars : ∀ c ∈ path, c ≠ 0 := by
      rw [← hleads.path_eq]
      exact (headerPath_cstr m hdr stack).ne_zero
    have hstring : CStr (memOf 0 (path ++ [0])) 0 path :=
      memOf_terminated 0 hchars
    have hfound := hleads.lookup stack (by omega) hstring
    obtain ⟨hlow, hhigh⟩ := h.lookup _ _ _ hstring hfound (ne_notFound _ _ _)
    exact ⟨hlow, by dsimp only at hhigh; omega⟩
  · intro h
    have hinside : ∀ pm p f, CStr pm p path → initrdLookup initrd m stack pm p = some f →
        f ≠ notFound → InArchive initrd f.data f.size := by
      intro pm p f hpath hlookup hf
      obtain ⟨hdr, hleads, rfl⟩ := initrdLookup_leads hpath hlookup hf
      obtain ⟨hlow, hhigh⟩ := h hdr hleads
      have hroom : add32 hdr 512 ≤ add32 initrd.addr initrd.size := by
        by_contra hroom
        exact hleads.inside (Or.inl hroom)
      rw [add32, add32, Nat.mod_eq_of_lt hspace] at hroom
      exact ⟨hlow, by dsimp only; rw [add32] at hhigh ⊢; omega⟩
    refine ⟨hinside, ?_⟩
    intro node buf b len offset hpath w hw
    obtain ⟨f, hlookup, hf, hstart, hend⟩ := mem_read_trace hw
    obtain ⟨hlow, hhigh⟩ := hinside _ _ f hpath hlookup hf
    exact ⟨by omega, by omega⟩

end Proof

/-- A vnode of the path `a`. -/
def nodeA : Vnode := ⟨VFS_FILE, 1, .initrdFileOps, none, memOf 0 [0x61]⟩

/-- The archive ends behind the header, and the size field says one byte. -/
theorem truncated_archive :
    oneHeader.addr + oneHeader.size < 2 ^ 32 ∧
      (initrdFileReadTraced oneHeader (memOf 0x1000 (sizedHeader 1)) (fun _ => 0) nodeA
          (fun _ => 0) 0 1 0).trace = [(0x1200, 1)] ∧
      ¬ DataInside oneHeader (memOf 0x1000 (sizedHeader 1)) (fun _ => 0) [0x61] := by
  have htrace : (initrdFileReadTraced oneHeader (memOf 0x1000 (sizedHeader 1)) (fun _ => 0) nodeA
      (fun _ => 0) 0 1 0).trace = [(0x1200, 1)] := by
    decide +kernel
  refine ⟨by decide, htrace, fun h => ?_⟩
  obtain ⟨-, hhigh⟩ := h.read nodeA (fun _ => 0) 0 1 0 ⟨rfl, by decide, rfl⟩ (0x1200, 1)
    (by rw [htrace]; exact List.mem_singleton_self _)
  exact absurd hhigh (by decide)

/-- The same archive with an empty file. -/
theorem empty_file_inside :
    DataInside oneHeader (memOf 0x1000 (sizedHeader 0)) (fun _ => 0) [0x61] ↔
      ∀ hdr, Leads oneHeader (memOf 0x1000 (sizedHeader 0)) [0x61] hdr →
        SizeFits oneHeader (memOf 0x1000 (sizedHeader 0)) hdr :=
  data_inside_iff oneHeader _ _ _ (by decide)

end FrogKernel.Initrd
