import FrogKernel.Memory.MemoryMap

/-!
# The tags of the boot loader (`memory/mmap.c`, `initrd/initrd.c`, `framebuffer/framebuffer.c`)

`mmap_init`, `initrd_init` and `fb_parse_tag` each step a pointer from tag to tag
until they find the type they look for or the end tag.

Main result: `tagWalks_select`, on a well-formed block they find the first tag of
their type.
-/

namespace FrogKernel.PmmInit

open FrogKernel.Bytes
open FrogKernel.Kheap (add32 sub32)

def MB2_TAG_TYPE_MODULE : Nat := 3
def MB2_TAG_TYPE_FRAMEBUFFER : Nat := 8

/-- How a walk ends. -/
inductive Ended (α : Type) where
  | panic
  | found (a : α)
  deriving DecidableEq

/-! ## The walks -/

/-- The loop for the tags of one type, with at most `n` rounds: the tags that it
visits, and the one that it finds. -/
def findTag (m : Mem) (type : Nat) : Nat → Nat → Option (List Nat × Option Nat)
  | 0, _ => none
  | n + 1, tag =>
    if read32 m tag = MB2_TAG_TYPE_END then some ([tag], none)
    else if read32 m tag = type then some ([tag], some tag)
    else (findTag m type n (nextTag m tag)).map fun r => (tag :: r.1, r.2)

/-- A walk from the first tag on, and what is read from the tag it finds. -/
def walkTags {α : Type} (m : Mem) (type : Nat) (read : Nat → α) (info n : Nat) :
    Option (List Nat × Ended α) :=
  (findTag m type n (add32 info 8)).map fun r => (r.1, r.2.elim .panic fun tag => .found (read tag))

/-- `mmap_init` up to its loop over the entries; the result is `mmap_tag`. -/
def mmapInitTag (m : Mem) (info n : Nat) : Option (List Nat × Ended Nat) :=
  walkTags m MB2_TAG_TYPE_MMAP id info n

/-- `initrd_init`; the result is `initrd`. -/
def initrdInitAt (m : Mem) (info n : Nat) : Option (List Nat × Ended Initrd.InitrdT) :=
  walkTags m MB2_TAG_TYPE_MODULE (fun tag =>
    ⟨0, read32 m (tag + 8), sub32 (read32 m (tag + 12)) (read32 m (tag + 8))⟩) info n

/-- `fb_parse_tag`; the result is `fb_tag`. -/
def fbParseTagAt (m : Mem) (info n : Nat) : Option (List Nat × Ended Nat) :=
  walkTags m MB2_TAG_TYPE_FRAMEBUFFER id info n

/-! ## Blocks -/

structure BlockTag where
  start : Nat
  type : Nat
  size : Nat

/-- The tag is at its place in memory. -/
structure BlockTag.At (m : Mem) (t : BlockTag) : Prop where
  type : read32 m t.start = t.type
  size : read32 m (t.start + 4) = t.size
  size_ge : 8 ≤ t.size

/-- The tags from `a` on, each at the next boundary of 8 bytes; the last one, and
no other, has type 0 and ends at `stop`. -/
inductive TagsFrom (m : Mem) (stop : Nat) : Nat → List BlockTag → Prop
  | last {t : BlockTag} : t.At m → t.type = MB2_TAG_TYPE_END → t.start + t.size = stop →
      TagsFrom m stop t.start [t]
  | next {t : BlockTag} {tags : List BlockTag} : t.At m → t.type ≠ MB2_TAG_TYPE_END →
      TagsFrom m stop ((t.start + t.size + 7) / 8 * 8) tags → TagsFrom m stop t.start (t :: tags)

/-- The block at `info`, which ends at `stop`. -/
structure InfoBlock (m : Mem) (info stop : Nat) (tags : List BlockTag) : Prop where
  aligned : info % 8 = 0
  stop_le : stop ≤ 2 ^ 32
  tags : TagsFrom m stop (info + 8) tags

/-- A walk for a type: it ends, at tags of the block only, and finds the first tag
of the type, or panics when there is none. -/
def Selects {α : Type} (info stop : Nat) (tags : List BlockTag) (type : Nat) (read : Nat → α)
    (r : Option (List Nat × Ended α)) : Prop :=
  ∃ visited out, r = some (visited, out) ∧
    (∀ a ∈ visited, ∃ t ∈ tags, t.start = a ∧ info + 8 ≤ a ∧ a + 8 ≤ stop ∧ a % 8 = 0) ∧
    (∀ t, tags.find? (fun t => t.type = type) = some t → out = .found (read t.start)) ∧
    (out = .panic ↔ ∀ t ∈ tags, t.type ≠ type)

variable {m : Mem} {stop : Nat}

/-- Tags lie before the end of the block. -/
theorem TagsFrom.bounds {a : Nat} {tags : List BlockTag} (h : TagsFrom m stop a tags)
    (halign : a % 8 = 0) : a + 8 ≤ stop ∧
      ∀ t ∈ tags, a ≤ t.start ∧ t.start + t.size ≤ stop ∧ 8 ≤ t.size ∧ t.start % 8 = 0 := by
  induction h with
  | @last t hat _ hstop =>
    have hsize := hat.size_ge
    refine ⟨by omega, fun u hu => ?_⟩
    obtain rfl := List.mem_singleton.mp hu
    omega
  | @next t tags hat _ _ ih =>
    have hsize := hat.size_ge
    obtain ⟨hroom, htags⟩ := ih (by omega)
    refine ⟨by omega, fun u hu => ?_⟩
    rcases List.mem_cons.mp hu with rfl | hu
    · omega
    · have hbound := htags u hu
      omega

/-- The rounding in 32 bits. -/
theorem nextTag_eq {t : BlockTag} (hat : t.At m)
    (hroom : (t.start + t.size + 7) / 8 * 8 + 8 ≤ 2 ^ 32) :
    nextTag m t.start = (t.start + t.size + 7) / 8 * 8 := by
  have hround : ∀ x < 2 ^ 32, x &&& 0xfffffff8 = x / 8 * 8 :=
    fun x hx => Paging.and_high (k := 3) (by decide) hx
  rw [nextTag, hat.size, add32, add32, Nat.mod_eq_of_lt (by omega), Nat.mod_eq_of_lt (by omega),
    hround _ (by omega)]

/-- The walk over a list of tags. -/
theorem findTag_tags {type a n : Nat} {tags : List BlockTag} (h : TagsFrom m stop a tags)
    (halign : a % 8 = 0) (hstop : stop ≤ 2 ^ 32) (hn : tags.length ≤ n)
    (htype : type ≠ MB2_TAG_TYPE_END) :
    ∃ visited, findTag m type n a =
        some (visited, (tags.find? fun t => t.type = type).map BlockTag.start) ∧
      ∀ b ∈ visited, ∃ t ∈ tags, t.start = b := by
  induction h generalizing n with
  | @last t hat hend _ =>
    obtain ⟨n, rfl⟩ := Nat.exists_eq_add_of_le' hn
    refine ⟨[t.start], ?_, fun b hb => ⟨t, List.mem_singleton_self t, (List.mem_singleton.mp hb).symm⟩⟩
    rw [List.length_singleton, findTag, if_pos (hat.type.trans hend),
      List.find?_cons_of_neg (by simpa [hend] using htype.symm)]
    rfl
  | @next t tags hat hne htags ih =>
    obtain ⟨n, rfl⟩ := Nat.exists_eq_add_of_le' hn
    have hnext : (t.start + t.size + 7) / 8 * 8 % 8 = 0 := Nat.mul_mod_left _ _
    have hroom := (htags.bounds hnext).1
    rw [List.length_cons, ← Nat.add_assoc, findTag, if_neg (by rwa [hat.type]), hat.type]
    by_cases hsel : t.type = type
    · refine ⟨[t.start], ?_, fun b hb =>
        ⟨t, List.mem_cons_self, (List.mem_singleton.mp hb).symm⟩⟩
      rw [if_pos hsel, List.find?_cons_of_pos (by simpa using hsel)]
      rfl
    · obtain ⟨visited, hwalk, hvisited⟩ := ih (n := n + tags.length) hnext (Nat.le_add_left _ _)
      refine ⟨t.start :: visited, ?_, ?_⟩
      · rw [if_neg hsel, nextTag_eq hat (by omega), hwalk,
          List.find?_cons_of_neg (by simpa using hsel)]
        rfl
      · intro b hb
        rcases List.mem_cons.mp hb with rfl | hb
        · exact ⟨t, List.mem_cons_self, rfl⟩
        · obtain ⟨u, hu, hstart⟩ := hvisited b hb
          exact ⟨u, List.mem_cons_of_mem t hu, hstart⟩

/-- What every one of the walks does. -/
theorem walkTags_selects {α : Type} {info : Nat} {tags : List BlockTag}
    (h : InfoBlock m info stop tags) {n : Nat} (hn : tags.length ≤ n) {type : Nat}
    (htype : type ≠ MB2_TAG_TYPE_END) (read : Nat → α) :
    Selects info stop tags type read (walkTags m type read info n) := by
  have halign : (info + 8) % 8 = 0 := by
    have hinfo := h.aligned
    omega
  have hstop := h.stop_le
  obtain ⟨hroom, hbounds⟩ := h.tags.bounds halign
  obtain ⟨visited, hwalk, hvisited⟩ := findTag_tags h.tags halign hstop hn htype
  have hfirst : add32 info 8 = info + 8 := Nat.mod_eq_of_lt (by omega)
  refine ⟨visited, _, by rw [walkTags, hfirst, hwalk]; rfl, ?_, ?_, ?_⟩
  · intro a ha
    obtain ⟨t, ht, rfl⟩ := hvisited a ha
    obtain ⟨hlo, hhi, hsize, h8⟩ := hbounds t ht
    exact ⟨t, ht, rfl, hlo, by omega, h8⟩
  · intro t ht
    rw [ht]
    rfl
  · have hnone : (tags.find? fun t => t.type = type) = none ↔ ∀ t ∈ tags, t.type ≠ type := by
      simp
    rw [← hnone]
    cases tags.find? fun t => t.type = type with
    | none => exact iff_of_true rfl rfl
    | some t =>
      refine iff_of_false (fun hpanic => ?_) (Option.some_ne_none t)
      cases hpanic

/-- The walk of `mmap_init` is this one. -/
theorem findMmapTag_eq (n tag : Nat) :
    findMmapTag m n tag = (findTag m MB2_TAG_TYPE_MMAP n tag).map Prod.snd := by
  induction n generalizing tag with
  | zero => rfl
  | succ n ih =>
    rw [findMmapTag, findTag]
    by_cases hend : read32 m tag = MB2_TAG_TYPE_END
    · rw [if_pos hend, if_pos hend]
      rfl
    · rw [if_neg hend, if_neg hend]
      by_cases htype : read32 m tag = MB2_TAG_TYPE_MMAP
      · rw [if_pos htype, if_pos htype]
        rfl
      · rw [if_neg htype, if_neg htype, ih, Option.map_map]
        rfl

/-- **The walks.**  On a well-formed block of any tags each walk ends after at most
as many rounds as there are tags, stays at tags of the block, and finds the first
tag of its type; it panics exactly when there is none. -/
theorem tagWalks_select {info : Nat} {tags : List BlockTag} (h : InfoBlock m info stop tags) {n : Nat}
    (hn : tags.length ≤ n) :
    Selects info stop tags MB2_TAG_TYPE_MMAP id (mmapInitTag m info n) ∧
      Selects info stop tags MB2_TAG_TYPE_MODULE
        (fun tag => ⟨0, read32 m (tag + 8), sub32 (read32 m (tag + 12)) (read32 m (tag + 8))⟩)
        (initrdInitAt m info n) ∧
      Selects info stop tags MB2_TAG_TYPE_FRAMEBUFFER id (fbParseTagAt m info n) :=
  ⟨walkTags_selects h hn (by decide) _, walkTags_selects h hn (by decide) _,
    walkTags_selects h hn (by decide) _⟩

/-- A command line, a module, a memory map without entries and the end tag. -/
def blockBytes : List (BitVec 8) :=
  List.replicate 8 0 ++
    [1, 0, 0, 0, 12, 0, 0, 0, 0x66, 0x72, 0x6f, 0, 0, 0, 0, 0] ++
    [3, 0, 0, 0, 17, 0, 0, 0, 0, 0, 0x20, 0, 0, 4, 0x20, 0, 0, 0, 0, 0, 0, 0, 0, 0] ++
    [6, 0, 0, 0, 16, 0, 0, 0, 24, 0, 0, 0, 0, 0, 0, 0] ++
    [0, 0, 0, 0, 8, 0, 0, 0]

def blockMemory : Mem := fun a => blockBytes.getD a 0

def blockTags : List BlockTag := [⟨8, 1, 12⟩, ⟨24, 3, 17⟩, ⟨48, 6, 16⟩, ⟨64, 0, 8⟩]

theorem blockMemory_block : InfoBlock blockMemory 0 72 blockTags where
  aligned := rfl
  stop_le := by decide
  tags :=
    .next (t := ⟨8, 1, 12⟩) ⟨rfl, rfl, by decide⟩ (by decide) <|
    .next (t := ⟨24, 3, 17⟩) ⟨rfl, rfl, by decide⟩ (by decide) <|
    .next (t := ⟨48, 6, 16⟩) ⟨rfl, rfl, by decide⟩ (by decide) <|
    .last (t := ⟨64, 0, 8⟩) ⟨rfl, rfl, by decide⟩ rfl rfl

/-- The module and the memory map are found; there is no framebuffer. -/
theorem blockMemory_selects :
    (mmapInitTag blockMemory 0 4).map Prod.snd = some (.found 48) ∧
      (initrdInitAt blockMemory 0 4).map Prod.snd = some (.found ⟨0, 0x200000, 0x400⟩) ∧
      (fbParseTagAt blockMemory 0 4).map Prod.snd = some .panic := by
  obtain ⟨⟨_, _, hmmap, -, hfound, -⟩, ⟨_, _, hmodule, -, hfound', -⟩, ⟨_, _, hfb, -, -, hpanic⟩⟩ :=
    tagWalks_select blockMemory_block (n := 4) (by decide)
  rw [hmmap, hmodule, hfb, hfound _ rfl, hfound' _ rfl, hpanic.mpr (by decide)]
  exact ⟨rfl, rfl, rfl⟩

end FrogKernel.PmmInit
