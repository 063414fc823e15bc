import FrogKernel.Lib.Numerals

/-!
# The symbol table of the kernel (`tools/gen_symtable.py`, `ksym/ksym.c`)

The build lists the symbols of the linked kernel with `nm`, a script keeps those of
the text section, and `ksym_lookup` searches them for an address.

Main result: `lookup_listed`, the lookup in the table made from a listing in the
order of the addresses finds the last text symbol that is not behind the address.
-/

namespace FrogKernel.Ksym

open FrogKernel.CStrings FrogKernel.Numerals

abbrev Word := BitVec 32

/-! ## `ksym_lookup` -/

/-- `ksym_entry_t` -/
structure KsymEntry where
  addr : Word
  name : List Char8
  deriving DecidableEq

/-- The loop of `ksym_lookup` from entry `i` on; `best` is an index. -/
def ksymLookupLoop (eip : Word) : List KsymEntry → Nat → Option Nat → Option Nat
  | [], _, best => best
  | e :: es, i, best => if e.addr > eip then best else ksymLookupLoop eip es (i + 1) (some i)

/-- The name, `*offset_out` and `*size_out`. -/
structure Symbol where
  name : List Char8
  offset : Word
  size : Word
  deriving DecidableEq

/-- `ksym_lookup`; without a symbol it returns `"??"` and writes nothing. -/
def ksymLookup (entries : List KsymEntry) (eip : Word) : Option Symbol := do
  let idx ← ksymLookupLoop eip entries 0 none
  let best ← entries[idx]?
  let size := match entries[idx + 1]? with
    | some next => next.addr - best.addr
    | none => 0
  return { name := best.name, offset := eip - best.addr, size }

/-! ## `gen_symtable.py` -/

/-- The characters that `split` drops. -/
def isSpace (c : Char8) : Bool := c = ch ' ' || 9 ≤ c.toNat && c.toNat ≤ 13

/-- `line.split()` -/
def split (line : List Char8) : List (List Char8) := (line.splitOnP isSpace).filter (· ≠ [])

/-- `int(addr, 16)` for the digits that `nm` prints; `none` is a `ValueError`. -/
def int16 (ds : List Char8) : Option Nat :=
  if ds ≠ [] ∧ ds.all digitChars.contains then some (numeralValue 16 ds) else none

/-- An entry of the generated array. -/
def entry (addr : Nat) (name : List Char8) : KsymEntry := ⟨BitVec.ofNat 32 addr, name⟩

/-- The entries that the script makes of the lines of `nm`. -/
def genSymtable : List (List Char8) → Option (List KsymEntry)
  | [] => some []
  | line :: lines =>
    match split line with
    | [addr, kind, name] =>
      if kind = [ch 'T'] ∨ kind = [ch 't'] then do
        let addr ← int16 addr
        let syms ← genSymtable lines
        return entry addr name :: syms
      else genSymtable lines
    | _ => genSymtable lines

/-! ## The listing -/

/-- A symbol of the kernel as `nm` knows it.  An undefined one has no address. -/
inductive Listed where
  | defined (addr : Word) (kind : Char8) (name : List Char8)
  | undefined (kind : Char8) (name : List Char8)

/-- `%08x` -/
def hex8 (v : Word) : List Char8 :=
  List.replicate (8 - (numeral 16 v.toNat).length) (ch '0') ++ numeral 16 v.toNat

/-- A line of `nm`. -/
def Listed.line : Listed → List Char8
  | .defined addr kind name => hex8 addr ++ ch ' ' :: ([kind] ++ ch ' ' :: name)
  | .undefined kind name => List.replicate 8 (ch ' ') ++ ch ' ' :: ([kind] ++ ch ' ' :: name)

/-- A name that can stand in a line. -/
def IsWord (s : List Char8) : Prop := s ≠ [] ∧ ∀ c ∈ s, isSpace c = false

def Listed.WellFormed : Listed → Prop
  | .defined _ kind name => isSpace kind = false ∧ IsWord name
  | .undefined kind name => isSpace kind = false ∧ IsWord name

/-- The entry of a symbol of the text section. -/
def Listed.entry? : Listed → Option KsymEntry
  | .defined addr kind name => if kind = ch 'T' ∨ kind = ch 't' then some ⟨addr, name⟩ else none
  | .undefined .. => none

/-! ## The table is the text symbols -/

theorem split_word {s : List Char8} (hs : IsWord s) : split s = [s] := by
  rw [split, List.splitOnP_eq_singleton hs.2, List.filter_cons_of_pos (by simpa using hs.1),
    List.filter_nil]

theorem split_cons {s : List Char8} (hs : IsWord s) (rest : List Char8) :
    split (s ++ ch ' ' :: rest) = s :: split rest := by
  rw [split, List.splitOnP_append_cons_of_forall_mem hs.2 (ch ' ') (by decide),
    List.filter_cons_of_pos (by simpa using hs.1)]
  rfl

theorem split_space (rest : List Char8) : split (ch ' ' :: rest) = split rest := by
  have hnone : ∀ x ∈ ([] : List Char8), isSpace x = false := fun _ hx => absurd hx List.not_mem_nil
  have h := List.splitOnP_append_cons_of_forall_mem hnone (ch ' ') (by decide) rest
  rw [List.nil_append] at h
  rw [split, h, List.filter_cons_of_neg (by simp)]
  rfl

theorem split_spaces (n : Nat) (rest : List Char8) :
    split (List.replicate n (ch ' ') ++ rest) = split rest := by
  induction n with
  | zero => rfl
  | succ n ih => rw [List.replicate_succ, List.cons_append, split_space, ih]

theorem mem_digitChars : ∀ d < 16, digitChar d ∈ digitChars := by decide

theorem digit_isSpace : ∀ d ∈ digitChars, isSpace d = false := by decide

/-- The digits of an address. -/
theorem mem_hex8 {v : Word} {d : Char8} (h : d ∈ hex8 v) : d ∈ digitChars := by
  rcases List.mem_append.mp h with h | h
  · rw [List.eq_of_mem_replicate h]
    decide
  · obtain ⟨n, hn, rfl⟩ := mem_numeral (by decide) h
    exact mem_digitChars n hn

theorem hex8_isWord (v : Word) : IsWord (hex8 v) := by
  refine ⟨?_, fun d hd => digit_isSpace d (mem_hex8 hd)⟩
  intro hnil
  exact numeral_ne_nil 16 v.toNat (List.append_eq_nil_iff.mp hnil).2

/-- An address comes back from its digits. -/
theorem int16_hex8 (v : Word) : int16 (hex8 v) = some v.toNat := by
  have hdigits : (hex8 v).all digitChars.contains = true :=
    List.all_eq_true.mpr fun _ hd => List.contains_iff_mem.mpr (mem_hex8 hd)
  rw [int16, if_pos ⟨(hex8_isWord v).1, hdigits⟩, hex8, numeralValue_zeros,
    numeralValue_numeral (by decide) (by decide)]

theorem single_isWord {kind : Char8} (h : isSpace kind = false) : IsWord [kind] := by
  refine ⟨List.cons_ne_nil _ _, fun c hc => ?_⟩
  rwa [List.mem_singleton.mp hc]

theorem split_line {s : Listed} (h : s.WellFormed) : split s.line =
    match s with
    | .defined addr kind name => [hex8 addr, [kind], name]
    | .undefined kind name => [[kind], name] := by
  cases s with
  | defined addr kind name =>
    rw [Listed.line, split_cons (hex8_isWord addr), split_cons (single_isWord h.1), split_word h.2]
  | undefined kind name =>
    rw [Listed.line, split_spaces, split_space, split_cons (single_isWord h.1), split_word h.2]

theorem genSymtable_lines {syms : List Listed} (h : ∀ s ∈ syms, s.WellFormed) :
    genSymtable (syms.map Listed.line) = some (syms.filterMap Listed.entry?) := by
  induction syms with
  | nil => rfl
  | cons s syms ih =>
    rw [List.forall_mem_cons] at h
    rw [List.map_cons, genSymtable, split_line h.1, ih h.2]
    cases s with
    | undefined kind name => rfl
    | defined addr kind name =>
      dsimp only
      by_cases hkind : kind = ch 'T' ∨ kind = ch 't'
      · have hentry : Listed.entry? (.defined addr kind name) = some ⟨addr, name⟩ := if_pos hkind
        rw [if_pos (by simpa using hkind), int16_hex8, List.filterMap_cons_some hentry]
        simp [entry]
      · have hentry : Listed.entry? (.defined addr kind name) = none := if_neg hkind
        rw [if_neg (by simpa using hkind), List.filterMap_cons_none hentry]

/-! ## The search -/

/-- The loop stops behind the entries that are not above the address. -/
theorem lookupLoop_append {eip : Word} {below : List KsymEntry} (hbelow : ∀ e ∈ below, e.addr ≤ eip)
    (above : List KsymEntry) (i : Nat) (best : Option Nat) :
    ksymLookupLoop eip (below ++ above) i best = ksymLookupLoop eip above (i + below.length)
      (if below = [] then best else some (i + below.length - 1)) := by
  induction below generalizing i best with
  | nil => rfl
  | cons e below ih =>
    rw [List.forall_mem_cons] at hbelow
    rw [List.cons_append, ksymLookupLoop, if_neg (BitVec.not_lt.mpr hbelow.1), ih hbelow.2,
      if_neg (List.cons_ne_nil _ _), List.length_cons]
    congr 1
    · omega
    · split
      case isTrue hnil => simp [hnil]
      case isFalse => congr 1; omega

theorem lookupLoop_above {eip : Word} {above : List KsymEntry}
    (h : ∀ e, above.head? = some e → e.addr > eip) (i : Nat) (best : Option Nat) :
    ksymLookupLoop eip above i best = best := by
  cases above with
  | nil => rfl
  | cons e above => rw [ksymLookupLoop, if_pos (h e rfl)]

/-- An entry before those that are above the address. -/
theorem lookup_cut {eip : Word} {below above : List KsymEntry} {e : KsymEntry}
    (hbelow : ∀ e ∈ below, e.addr ≤ eip) (he : e.addr ≤ eip)
    (habove : ∀ e, above.head? = some e → e.addr > eip) :
    ksymLookup (below ++ e :: above) eip = some
      { name := e.name
        offset := eip - e.addr
        size := (above.head?.map fun next => next.addr - e.addr).getD 0 } := by
  have hall : ∀ x ∈ below ++ [e], x.addr ≤ eip := by
    intro x hx
    rcases List.mem_append.mp hx with hx | hx
    · exact hbelow x hx
    · rwa [List.mem_singleton.mp hx]
  have hsplit : below ++ e :: above = (below ++ [e]) ++ above := by simp
  have hloop : ksymLookupLoop eip (below ++ e :: above) 0 none = some below.length := by
    rw [hsplit, lookupLoop_append hall, lookupLoop_above habove, if_neg (by simp)]
    simp
  have hhere : (below ++ e :: above)[below.length]? = some e := by simp
  have hnext : (below ++ e :: above)[below.length + 1]? = above.head? := by
    simp [List.getElem?_append_right, List.head?_eq_getElem?]
  simp only [ksymLookup, hloop, hhere, hnext, Option.bind_eq_bind, Option.bind_some]
  cases above.head? <;> rfl

theorem lookup_none {eip : Word} {above : List KsymEntry}
    (h : ∀ e, above.head? = some e → e.addr > eip) : ksymLookup above eip = none := by
  rw [ksymLookup, lookupLoop_above h]
  rfl

/-- A table in the order of the addresses, cut at an address. -/
theorem sorted_cut {entries : List KsymEntry}
    (hsorted : entries.Pairwise fun e e' => e.addr ≤ e'.addr) (eip : Word) :
    ∃ below above, entries = below ++ above ∧ (∀ e ∈ below, e.addr ≤ eip) ∧
      ∀ e ∈ above, e.addr > eip := by
  induction entries with
  | nil => exact ⟨[], [], rfl, by simp, by simp⟩
  | cons e entries ih =>
    rw [List.pairwise_cons] at hsorted
    by_cases he : e.addr ≤ eip
    · obtain ⟨below, above, rfl, hbelow, habove⟩ := ih hsorted.2
      refine ⟨e :: below, above, rfl, ?_, habove⟩
      rw [List.forall_mem_cons]
      exact ⟨he, hbelow⟩
    · refine ⟨[], e :: entries, rfl, by simp, ?_⟩
      rw [List.forall_mem_cons]
      have hgt : eip < e.addr := BitVec.not_le.mp he
      exact ⟨hgt, fun e' he' => Nat.lt_of_lt_of_le hgt (hsorted.1 e' he')⟩

/-! ## The symbol of an address -/

/-- `r` is what the table should tell about an address in the kernel with these
symbols: the last text symbol at or before it, and how far the next one is. -/
def Locates (syms : List Listed) (eip : Word) : Option Symbol → Prop
  | none => ∀ s ∈ syms, ∀ e, s.entry? = some e → eip < e.addr
  | some r => ∃ before s after e, syms = before ++ s :: after ∧ s.entry? = some e ∧
      e.addr ≤ eip ∧ (∀ t ∈ after, ∀ e', t.entry? = some e' → eip < e'.addr) ∧ r.name = e.name ∧
      e.addr + r.offset = eip ∧
      match (after.filterMap Listed.entry?).head? with
      | some next => e.addr + r.size = next.addr ∧ r.offset < r.size
      | none => r.size = 0

/-- **Symbols.**  The script does not fail on the lines of `nm`, and in the table that it
makes `ksym_lookup` finds the last text symbol at or before an address. -/
theorem lookup_listed {syms : List Listed} (hlines : ∀ s ∈ syms, s.WellFormed)
    (hsorted : (syms.filterMap Listed.entry?).Pairwise fun e e' => e.addr ≤ e'.addr) (eip : Word) :
    ∃ entries, genSymtable (syms.map Listed.line) = some entries ∧
      Locates syms eip (ksymLookup entries eip) := by
  refine ⟨_, genSymtable_lines hlines, ?_⟩
  obtain ⟨below, above, hcut, hbelow, habove⟩ := sorted_cut hsorted eip
  have hhead : ∀ e, above.head? = some e → e.addr > eip :=
    fun e he => habove e (List.mem_of_mem_head? he)
  rcases List.eq_nil_or_concat below with rfl | ⟨below, e, rfl⟩
  · rw [List.nil_append] at hcut
    rw [hcut, lookup_none hhead]
    intro s hs e he
    exact habove e (hcut ▸ List.mem_filterMap.mpr ⟨s, hs, he⟩)
  · rw [List.concat_eq_append] at hcut hbelow
    have he : e.addr ≤ eip := hbelow e (by simp)
    rw [List.append_assoc, List.singleton_append] at hcut
    rw [hcut, lookup_cut (fun x hx => hbelow x (List.mem_append_left _ hx)) he hhead]
    -- the entry is one of a symbol, and what is above comes from the symbols behind it
    obtain ⟨before, rest, rfl, -, hrest⟩ := List.filterMap_eq_append_iff.mp hcut
    obtain ⟨skipped, s, after, rfl, -, hentry, hafter⟩ := List.filterMap_eq_cons_iff.mp hrest
    refine ⟨before ++ skipped, s, after, e, by simp, hentry, he, fun t ht e' he' => ?_, rfl, ?_, ?_⟩
    · exact habove e' (hafter ▸ List.mem_filterMap.mpr ⟨t, ht, he'⟩)
    · rw [BitVec.add_comm, BitVec.sub_add_cancel]
    · rw [hafter]
      cases hnext : above.head? with
      | none => rfl
      | some next =>
        have hlt : eip < next.addr := hhead next hnext
        refine ⟨by rw [Option.map_some, Option.getD_some, BitVec.add_comm, BitVec.sub_add_cancel], ?_⟩
        rw [Option.map_some, Option.getD_some]
        rw [BitVec.lt_def] at hlt ⊢
        rw [BitVec.le_def] at he
        rw [BitVec.toNat_sub_of_le (BitVec.le_def.mpr he),
          BitVec.toNat_sub_of_le (BitVec.le_def.mpr (by omega))]
        omega

/-- Two functions with a constant between them. -/
def smallKernel : List Listed :=
  [.undefined (ch 'w') [ch 'w'], .defined 0xc0100000 (ch 'T') [ch 'f'],
    .defined 0xc0100008 (ch 'r') [ch 'x'], .defined 0xc0100020 (ch 't') [ch 'g']]

theorem smallKernel_located : ∃ entries, genSymtable (smallKernel.map Listed.line) = some entries ∧
    Locates smallKernel 0xc0100010 (ksymLookup entries 0xc0100010) := by
  refine lookup_listed (fun s hs => ?_) (by decide) 0xc0100010
  rcases (by simpa [smallKernel] using hs : s = _ ∨ s = _ ∨ s = _ ∨ s = _) with rfl | rfl | rfl | rfl
  all_goals exact ⟨by decide, by decide, by decide⟩

end FrogKernel.Ksym
