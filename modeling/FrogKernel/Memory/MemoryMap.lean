import Mathlib.Order.Interval.Finset.Nat
import FrogKernel.Memory.BootFrames

/-!
# The memory map in memory (`memory/mmap.c`)

`mmap_init` looks for the memory map among the tags of the boot loader and steps
a pointer through its entries.  Here it does so on bytes; `mmapLoop_entries` takes
it back to the list of entries.

Main result: `memoryMap_exact`.
-/

namespace FrogKernel.PmmInit

open FrogKernel.Bytes FrogKernel.PageTables FrogKernel.Paging
open FrogKernel.Kheap (add32)

def MB2_TAG_TYPE_END : Nat := 0
def MB2_TAG_TYPE_MMAP : Nat := 6

/-- `sizeof(mb2_tag_mmap_t)` -/
def sizeofTagMmap : Nat := 16

/-! ## `mmap_init` on bytes -/

/-- `(mb2_tag_t *)(((uint32_t)tag + tag->size + 7) & ~7)` -/
def nextTag (m : Mem) (tag : Nat) : Nat := add32 (add32 tag (read32 m (tag + 4))) 7 &&& 0xfffffff8

/-- The loop over the tags; the result is `NULL` at the end tag. -/
def findMmapTag (m : Mem) : Nat → Nat → Option (Option Nat)
  | 0, _ => none
  | n + 1, tag =>
    if read32 m tag = MB2_TAG_TYPE_END then some none
    else if read32 m tag = MB2_TAG_TYPE_MMAP then some (some tag)
    else findMmapTag m n (nextTag m tag)

/-- `*(mb2_mmap_entry_t *)a` -/
def readMmapEntry (m : Mem) (a : Nat) : MmapEntry where
  baseAddr := readN m a 8
  length := readN m (a + 8) 8
  type := read32 m (a + 16)
  base_lt := readN_lt m 8 a
  length_lt := readN_lt m 8 (a + 8)

/-- The loop over the entries of the tag at `tag`. -/
def mmapLoop (m : Mem) (tag : Nat) : Nat → Nat → Mmap → Option Mmap
  | 0, _, _ => none
  | n + 1, entryPtr, map =>
    if entryPtr < add32 tag (read32 m (tag + 4)) then
      mmapLoop m tag n (add32 entryPtr (read32 m (tag + 8))) (mmapEntry map (readMmapEntry m entryPtr))
    else some map

/-- The variables of `mmap.c` before the loops. -/
def emptyMap (k : KernelImage) : Mmap where
  kstart := k.virtStart
  kend := k.virtEnd
  ksize := k.virtEnd - k.virtStart
  kpstart := k.physStart
  kpend := k.physEnd
  usableRegions := []
  totalMemory := 0
  total_lt := Nat.two_pow_pos 32

/-- `mmap_init(mb2_info)`, with at most `n` rounds for each loop; a call without a
memory map ends in `panic`. -/
def mmapInitAt (k : KernelImage) (m : Mem) (info n : Nat) : Option Mmap :=
  (findMmapTag m n (add32 info 8)).bind fun found =>
    found.bind fun tag => mmapLoop m tag n (add32 tag sizeofTagMmap) (emptyMap k)

/-! ## A memory map in memory -/

/-- The walk over the tags gets from one tag to another, past tags of other types. -/
inductive TagWalk (m : Mem) : Nat → Nat → Prop
  | here (tag : Nat) : TagWalk m tag tag
  | next {tag last : Nat} : read32 m tag ≠ MB2_TAG_TYPE_END → read32 m tag ≠ MB2_TAG_TYPE_MMAP →
      TagWalk m (nextTag m tag) last → TagWalk m tag last

/-- The tag at `tag` is a memory map with these entries, one every `entrySize` bytes. -/
structure LaidOut (m : Mem) (tag entrySize : Nat) (es : List MmapEntry) : Prop where
  type : read32 m tag = MB2_TAG_TYPE_MMAP
  size : read32 m (tag + 4) = sizeofTagMmap + es.length * entrySize
  step : read32 m (tag + 8) = entrySize
  below : tag + (sizeofTagMmap + es.length * entrySize) < 2 ^ 32
  entries : ∀ i (hi : i < es.length),
    readMmapEntry m (tag + sizeofTagMmap + i * entrySize) = es[i]

theorem findMmapTag_walk {m : Mem} {start tag : Nat} (h : TagWalk m start tag)
    (htype : read32 m tag = MB2_TAG_TYPE_MMAP) :
    ∃ rounds, ∀ n ≥ rounds, findMmapTag m n start = some (some tag) := by
  induction h with
  | here tag =>
    refine ⟨1, fun n hn => ?_⟩
    obtain ⟨n, rfl⟩ : ∃ j, n = j + 1 := ⟨n - 1, by omega⟩
    rw [findMmapTag, if_neg (by rw [htype]; decide), if_pos htype]
  | next hend hmap _ ih =>
    obtain ⟨rounds, ih⟩ := ih htype
    refine ⟨rounds + 1, fun n hn => ?_⟩
    obtain ⟨n, rfl⟩ : ∃ j, n = j + 1 := ⟨n - 1, by omega⟩
    rw [findMmapTag, if_neg hend, if_neg hmap]
    exact ih n (by omega)

/-- The pointer goes through the entries that are left, and stops behind the last one. -/
theorem mmapLoop_entries {m : Mem} {tag entrySize : Nat} {es : List MmapEntry}
    (h : LaidOut m tag entrySize es) (hsize : 0 < entrySize) {n i : Nat} (hi : i ≤ es.length)
    (hn : es.length - i < n) (map : Mmap) :
    mmapLoop m tag n (tag + sizeofTagMmap + i * entrySize) map =
      some ((es.drop i).foldl mmapEntry map) := by
  induction n generalizing i map with
  | zero => omega
  | succ n ih =>
    have hbelow := h.below
    have hend : add32 tag (read32 m (tag + 4)) = tag + sizeofTagMmap + es.length * entrySize := by
      rw [h.size, add32, Nat.mod_eq_of_lt hbelow, Nat.add_assoc]
    have hmono : i * entrySize ≤ es.length * entrySize := Nat.mul_le_mul_right _ hi
    rw [mmapLoop, hend, h.step]
    rcases Nat.lt_or_eq_of_le hi with hlt | rfl
    · have hstep : (i + 1) * entrySize ≤ es.length * entrySize := Nat.mul_le_mul_right _ hlt
      have hnext : add32 (tag + sizeofTagMmap + i * entrySize) entrySize =
          tag + sizeofTagMmap + (i + 1) * entrySize := by
        rw [Nat.add_mul, Nat.one_mul] at hstep ⊢
        rw [add32, Nat.mod_eq_of_lt (by omega), Nat.add_assoc]
      rw [Nat.add_mul, Nat.one_mul] at hstep
      rw [if_pos (by omega), hnext, ih hlt (by omega), h.entries i hlt, List.drop_eq_getElem_cons hlt,
        List.foldl_cons]
    · rw [if_neg (by omega), List.drop_length, List.foldl_nil]

/-- With enough rounds `mmap_init` returns what the list of entries says. -/
theorem mmapInitAt_entries {k : KernelImage} {m : Mem} {info tag entrySize : Nat}
    {es : List MmapEntry} (hwalk : TagWalk m (add32 info 8) tag) (h : LaidOut m tag entrySize es)
    (hsize : 0 < entrySize) :
    ∃ rounds, ∀ n ≥ rounds, mmapInitAt k m info n = some (es.foldl mmapEntry (emptyMap k)) := by
  obtain ⟨rounds, hfind⟩ := findMmapTag_walk hwalk h.type
  refine ⟨max rounds (es.length + 1), fun n hn => ?_⟩
  have hfirst : add32 tag sizeofTagMmap = tag + sizeofTagMmap + 0 * entrySize := by
    have hbelow := h.below
    rw [add32, Nat.mod_eq_of_lt (by omega), Nat.zero_mul, Nat.add_zero]
  have hloop := mmapLoop_entries (n := n) h hsize (Nat.zero_le _) (by omega) (emptyMap k)
  rw [List.drop_zero] at hloop
  rw [mmapInitAt, hfind n (by omega), Option.bind_some, Option.bind_some, hfirst, hloop]

/-- It is `mmapInit` on the tags. -/
theorem mmapInit_entries {k : KernelImage} {tags : List Tag} {es : List MmapEntry}
    (h : mmapTag tags = some es) : mmapInit k tags = some (es.foldl mmapEntry (emptyMap k)) := by
  rw [mmapInit, h]
  rfl

/-! ## Bytes below 4 GiB -/

/-- An address of the entry. -/
def MmapEntry.Has (e : MmapEntry) (a : Nat) : Prop := e.baseAddr ≤ a ∧ a < e.baseAddr + e.length

instance (e : MmapEntry) (a : Nat) : Decidable (e.Has a) := inferInstanceAs (Decidable (_ ∧ _))

/-- The addresses of the entry below 4 GiB. -/
def MmapEntry.low (e : MmapEntry) : Finset Nat := (Finset.range (2 ^ 32)).filter e.Has

/-- Those of all entries. -/
def lowAddrs (es : List MmapEntry) : Finset Nat :=
  (Finset.range (2 ^ 32)).filter fun a => ∃ e ∈ es, e.Has a

theorem MmapEntry.card_low (e : MmapEntry) :
    e.low.card = min (e.baseAddr + e.length) (2 ^ 32) - min e.baseAddr (2 ^ 32) := by
  have hlow : e.low = Finset.Ico (min e.baseAddr (2 ^ 32)) (min (e.baseAddr + e.length) (2 ^ 32)) := by
    ext a
    simp only [MmapEntry.low, Finset.mem_filter, Finset.mem_range, MmapEntry.Has, Finset.mem_Ico]
    omega
  rw [hlow, Nat.card_Ico]

/-- Entries that share no address. -/
def EntriesApart (es : List MmapEntry) : Prop := es.Pairwise fun e f => ∀ a, ¬ (e.Has a ∧ f.Has a)

theorem card_lowAddrs {es : List MmapEntry} (h : EntriesApart es) :
    (lowAddrs es).card = (es.map fun e => e.low.card).sum := by
  induction es with
  | nil => simp [lowAddrs]
  | cons e es ih =>
    obtain ⟨hfirst, hrest⟩ := List.pairwise_cons.mp h
    have hsplit : lowAddrs (e :: es) = e.low ∪ lowAddrs es := by
      simp only [lowAddrs, MmapEntry.low, List.exists_mem_cons_iff, Finset.filter_or]
    have hapart : Disjoint e.low (lowAddrs es) := by
      rw [Finset.disjoint_left]
      simp only [lowAddrs, MmapEntry.low, Finset.mem_filter]
      rintro a ⟨-, he⟩ ⟨-, f, hf, hfa⟩
      exact hfirst f hf a ⟨he, hfa⟩
    rw [hsplit, Finset.card_union_of_disjoint hapart, ih hrest, List.map_cons, List.sum_cons]

/-- The entries leave an address below 4 GiB out. -/
def LeavesRoom (es : List MmapEntry) : Prop := ∃ a < 2 ^ 32, ∀ e ∈ es, ¬ e.Has a

theorem lowAddrs_lt {es : List MmapEntry} (h : LeavesRoom es) : (lowAddrs es).card < 2 ^ 32 := by
  obtain ⟨a, ha, hfree⟩ := h
  have hsub : lowAddrs es ⊂ Finset.range (2 ^ 32) := by
    refine Finset.filter_ssubset.mpr ⟨a, Finset.mem_range.mpr ha, ?_⟩
    rintro ⟨e, he, hhas⟩
    exact hfree e he hhas
  have hcard := Finset.card_lt_card hsub
  rwa [Finset.card_range] at hcard

/-- The clipped length is right unless the entry covers everything. -/
theorem clipped_eq {e : MmapEntry} (hlow : e.baseAddr < 2 ^ 32)
    (htop : e.baseAddr + e.length ≤ 2 ^ 64 - 1) (hroom : ∃ a < 2 ^ 32, ¬ e.Has a) :
    clipped e = e.low.card := by
  obtain ⟨a, ha, hout⟩ := hroom
  rw [MmapEntry.Has] at hout
  rw [MmapEntry.card_low, clipped, Nat.mod_eq_of_lt (by omega)]
  split <;> omega

theorem card_low_high {e : MmapEntry} (h : ¬ e.baseAddr < 2 ^ 32) : e.low.card = 0 := by
  rw [MmapEntry.card_low]
  omega

theorem sum_clipped {es : List MmapEntry} (htop : ∀ e ∈ es, e.baseAddr + e.length ≤ 2 ^ 64 - 1)
    (hroom : LeavesRoom es) :
    ((es.filter isLow).map clipped).sum = (es.map fun e => e.low.card).sum := by
  obtain ⟨a, ha, hout⟩ := hroom
  induction es with
  | nil => simp
  | cons e es ih =>
    rw [List.forall_mem_cons] at htop hout
    rw [List.map_cons, List.sum_cons, ← ih htop.2 hout.2]
    by_cases hlow : e.baseAddr < 2 ^ 32
    · rw [List.filter_cons_of_pos (by simpa [isLow] using hlow), List.map_cons, List.sum_cons,
        clipped_eq hlow htop.1 ⟨a, ha, hout.1⟩]
    · rw [List.filter_cons_of_neg (by simpa [isLow] using hlow), card_low_high hlow, Nat.zero_add]

/-! ## Two entries -/

/-- A memory map of two entries, 32 bytes each, behind a tag of type 1. -/
def mapBytes : List (BitVec 8) :=
  List.replicate 8 0 ++
    [1, 0, 0, 0, 12, 0, 0, 0, 0x66, 0x72, 0x6f, 0, 0, 0, 0, 0] ++
    [6, 0, 0, 0, 80, 0, 0, 0, 32, 0, 0, 0, 0, 0, 0, 0] ++
    [0, 0, 0, 0, 0, 0, 0, 0, 0, 0xfc, 9, 0, 0, 0, 0, 0, 1, 0, 0, 0] ++ List.replicate 12 0 ++
    [0, 0, 0x10, 0, 0, 0, 0, 0, 0, 0, 0xf0, 0xff, 1, 0, 0, 0, 1, 0, 0, 0] ++ List.replicate 12 0

def mapMemory : Mem := fun a => mapBytes.getD a 0

theorem lowBase_lt : 0 < 2 ^ 64 := by decide

theorem lowLength_lt : 0x9fc00 < 2 ^ 64 := by decide

theorem highBase_lt : 0x100000 < 2 ^ 64 := by decide

theorem highLength_lt : 0x1fff00000 < 2 ^ 64 := by decide

def mapEntries : List MmapEntry :=
  [⟨0, 0x9fc00, 1, lowBase_lt, lowLength_lt⟩, ⟨0x100000, 0x1fff00000, 1, highBase_lt, highLength_lt⟩]

theorem mapMemory_laidOut : LaidOut mapMemory 24 32 mapEntries where
  type := rfl
  size := rfl
  step := rfl
  below := by decide
  entries i hi := by
    have hi' : i < 2 := hi
    obtain rfl | rfl : i = 0 ∨ i = 1 := by omega
    · rfl
    · rfl

theorem mapEntries_apart : EntriesApart mapEntries := by
  rw [EntriesApart, mapEntries, List.pairwise_pair]
  rintro a ⟨he, hf⟩
  simp only [MmapEntry.Has] at he hf
  omega

theorem mapEntries_low : mapEntries.map (fun e => e.low.card) = [0x9fc00, 0xfff00000] := by
  simp only [mapEntries, List.map_cons, List.map_nil, MmapEntry.card_low]
  rfl

/-! ## The memory map -/

/-- **The memory map.**  Entries that are apart, do not reach 2^64 and leave an
address below 4 GiB out are recorded as they are, however far apart they are laid
out: the first 32 usable ones with what they have below 4 GiB, and the bytes of all
of them. -/
theorem memoryMap_exact {k : KernelImage} {m : Mem} {info tag entrySize : Nat}
    {es : List MmapEntry} (hwalk : TagWalk m (add32 info 8) tag) (h : LaidOut m tag entrySize es)
    (hsize : 24 ≤ entrySize) (hapart : EntriesApart es)
    (htop : ∀ e ∈ es, e.baseAddr + e.length ≤ 2 ^ 64 - 1) (hroom : LeavesRoom es) :
    ∃ r rounds, (∀ n ≥ rounds, mmapInitAt k m info n = some r) ∧
      r.usableRegions = ((es.filter isUsable).take MAX_MEM_REGIONS).map
        (fun e => ⟨e.baseAddr, e.low.card⟩) ∧
      r.totalMemory = (lowAddrs es).card := by
  obtain ⟨rounds, hrounds⟩ := mmapInitAt_entries (k := k) hwalk h (by omega)
  refine ⟨_, rounds, hrounds, ?_, ?_⟩
  · rw [foldl_mmapEntry_regions]
    refine List.map_congr_left fun e he => ?_
    have hmem := List.mem_filter.mp (List.mem_of_mem_take he)
    have husable : e.type = 1 ∧ e.baseAddr < 2 ^ 32 := of_decide_eq_true hmem.2
    obtain ⟨a, ha, hout⟩ := hroom
    rw [clipped_eq husable.2 (htop e hmem.1) ⟨a, ha, hout e hmem.1⟩]
  · have hzero : (emptyMap k).totalMemory = 0 := rfl
    rw [foldl_mmapEntry_total, sum_clipped htop hroom, ← card_lowAddrs hapart, hzero, Nat.zero_add,
      Nat.mod_eq_of_lt (lowAddrs_lt hroom)]

theorem mapMemory_exact : ∃ r rounds,
    (∀ n ≥ rounds, mmapInitAt ramdiskBoot.kernel mapMemory 0 n = some r) ∧
    r.usableRegions = [⟨0, 0x9fc00⟩, ⟨0x100000, 0xfff00000⟩] ∧ r.totalMemory = 0xfff9fc00 := by
  have hwalk : TagWalk mapMemory (add32 0 8) 24 := .next (by decide) (by decide) (.here 24)
  obtain ⟨r, rounds, hr, hregions, htotal⟩ := memoryMap_exact (k := ramdiskBoot.kernel) hwalk
    mapMemory_laidOut (by decide) mapEntries_apart (by simp [mapEntries])
    ⟨0x9fc00, by decide, by simp [mapEntries, MmapEntry.Has]⟩
  have hlow := mapEntries_low
  rw [card_lowAddrs mapEntries_apart, hlow] at htotal
  simp only [mapEntries, List.map_cons, List.map_nil, List.cons.injEq, and_true] at hlow
  refine ⟨r, rounds, hr, ?_, htotal⟩
  rw [hregions]
  simp [mapEntries, isUsable, MAX_MEM_REGIONS, hlow.1, hlow.2]

end FrogKernel.PmmInit
