import FrogKernel.Lib.Loops
import FrogKernel.Initrd.Listing

/-!
# The scans of the archive (`initrd/initrd.c`, `initrd/initrdfs.c`)

`initrd_lookup`, `initrd_dir_finddir` and `initrd_dir_readdir` go over the
headers in the same way: they end at the same headers, and go on where the size
field of a header sends them.  `scanRound` is a round of the three, and `visit` is
what each does with a header.  The archive may hold any bytes.

Main result: `scans_advance_iff`.  A size field may send the scan back.
-/

namespace FrogKernel.Initrd

open FrogKernel.Bytes FrogKernel.CStrings FrogKernel.Loops FrogKernel.Vfs
open FrogKernel.Kheap (add32 sub32)

section Model

variable {σ ρ : Type} (initrd : InitrdT) (m stack heap : Mem)

/-- The tests at the top of the loops that end them. -/
def Ends (ptr : Nat) : Prop :=
  ¬ add32 ptr 512 ≤ add32 initrd.addr initrd.size ∨ m (ptr + NAME) = 0 ∨
    memcmp m (ptr + MAGIC) ustar ≠ 0

instance (ptr : Nat) : Decidable (Ends initrd m ptr) := inferInstanceAs (Decidable (_ ∨ _ ∨ _))

/-- Where the size field of a header sends the scan. -/
def nextHeader (ptr : Nat) : Nat :=
  add32 (add32 ptr 512) (roundUp512 (oct2int m (ptr + SIZE) 12))

/-- A round: the state is `ptr` and what the loop counts. -/
def scanRound (missing : ρ) (visit : Nat → σ → Option (Round σ ρ)) :
    Nat × σ → Option (Round (Nat × σ) ρ)
  | (ptr, s) =>
    if Ends initrd m ptr then some (.leave missing)
    else (visit ptr s).map fun
      | .stay s' => .stay (nextHeader m ptr, s')
      | .leave r => .leave r

def lookupVisit (pm : Mem) (p ptr : Nat) (_ : Unit) : Option (Round Unit InitrdFile) :=
  (strcmp (headerPath m ptr stack) 0 pm p ROUNDS).map fun c =>
    if c = 0 then
      .leave ⟨ptr + NAME, add32 ptr 512, oct2int m (ptr + SIZE) 12, m (ptr + TYPEFLAG)⟩
    else .stay ()

def finddirVisit (cm : Mem) (ptr : Nat) (_ : Unit) : Option (Round Unit (Option Vnode)) :=
  let fullpath := headerPath m ptr stack
  (strcmp fullpath 0 cm 0 ROUNDS).bind fun c =>
    if c = 0 then
      (initrdVnodeCreate initrd m stack heap fullpath 0 (m (ptr + TYPEFLAG))).map fun node =>
        .leave (some node)
    else some (.stay ())

def readdirVisit (node : Vnode) (dirLen index : Nat) (out : Mem) (a nameMax ptr found : Nat) :
    Option (Round Nat (Int × Mem)) :=
  let fullpath := headerPath m ptr stack
  (listed fullpath (restOf node dirLen fullpath)).map fun rest =>
    match rest with
    | none => .stay found
    | some rest =>
      if found = index then
        let out := strncpy out a fullpath rest (sub32 nameMax 1)
        .leave (0, write8 out (a + sub32 nameMax 1) 0)
      else .stay (add32 found 1)

/-- The round of `initrd_lookup`. -/
def lookupRound (pm : Mem) (p : Nat) := scanRound initrd m notFound (lookupVisit m stack pm p)

/-- The round of `initrd_dir_finddir`. -/
def finddirRound (cm : Mem) := scanRound initrd m none (finddirVisit initrd m stack heap cm)

/-- The round of `initrd_dir_readdir`. -/
def readdirRound (node : Vnode) (index : Nat) (out : Mem) (a nameMax : Nat) :=
  scanRound initrd m (-1, out)
    (readdirVisit m stack node (strnlen node.path 0 255) index out a nameMax)

end Model

/-! ## The loops are these rounds -/

section Equations

variable {σ ρ : Type} (initrd : InitrdT) (m stack heap : Mem)

theorem scanRound_ends {missing : ρ} {visit : Nat → σ → Option (Round σ ρ)} {ptr : Nat} {s : σ}
    (h : Ends initrd m ptr) : scanRound initrd m missing visit (ptr, s) = some (.leave missing) := by
  rw [scanRound, if_pos h]

theorem scanRound_visits {missing : ρ} {visit : Nat → σ → Option (Round σ ρ)} {ptr : Nat} {s : σ}
    (h : ¬ Ends initrd m ptr) : scanRound initrd m missing visit (ptr, s) =
      (visit ptr s).map fun
        | .stay s' => .stay (nextHeader m ptr, s')
        | .leave r => .leave r := by
  rw [scanRound, if_neg h]

/-- The scans with the tests one by one. -/
theorem loop_scanRound (missing : ρ) (visit : Nat → σ → Option (Round σ ρ)) (n ptr : Nat) (s : σ) :
    loop (scanRound initrd m missing visit) (n + 1) (ptr, s) =
      if ¬ add32 ptr 512 ≤ add32 initrd.addr initrd.size then some missing
      else if m (ptr + NAME) = 0 then some missing
      else if memcmp m (ptr + MAGIC) ustar ≠ 0 then some missing
      else (visit ptr s).bind fun
        | .stay s' => loop (scanRound initrd m missing visit) n (nextHeader m ptr, s')
        | .leave r => some r := by
  by_cases hends : Ends initrd m ptr
  · rw [loop_leave (scanRound_ends initrd m hends)]
    rcases hends with hroom | hname | hmagic
    · rw [if_pos hroom]
    · rw [if_pos hname, ite_self]
    · rw [if_pos hmagic, ite_self, ite_self]
  · rw [loop, scanRound_visits initrd m hends]
    simp only [Ends, not_or] at hends
    rw [if_neg hends.1, if_neg hends.2.1, if_neg hends.2.2]
    cases visit ptr s with
    | none => rfl
    | some round => cases round <;> rfl

theorem lookupLoop_eq (pm : Mem) (p n ptr : Nat) :
    lookupLoop m stack (add32 initrd.addr initrd.size) pm p n ptr =
      loop (lookupRound initrd m stack pm p) n (ptr, ()) := by
  induction n generalizing ptr with
  | zero => rfl
  | succ n ih =>
    rw [lookupLoop, lookupRound, loop_scanRound, ← lookupRound]
    refine if_congr Iff.rfl rfl (if_congr Iff.rfl rfl (if_congr Iff.rfl rfl ?_))
    dsimp only [lookupVisit]
    generalize strcmp (headerPath m ptr stack) 0 pm p ROUNDS = c
    cases c with
    | none => rfl
    | some c =>
      simp only [Option.bind_some, Option.map_some, ih]
      split <;> rfl

theorem finddirLoop_eq_loop (cm : Mem) (n ptr : Nat) :
    finddirLoop initrd m stack heap cm n ptr =
      loop (finddirRound initrd m stack heap cm) n (ptr, ()) := by
  induction n generalizing ptr with
  | zero => rfl
  | succ n ih =>
    rw [finddirLoop, finddirRound, loop_scanRound, ← finddirRound]
    refine if_congr Iff.rfl rfl (if_congr Iff.rfl rfl (if_congr Iff.rfl rfl ?_))
    dsimp only [finddirVisit]
    generalize strcmp (headerPath m ptr stack) 0 cm 0 ROUNDS = c
    cases c with
    | none => rfl
    | some c =>
      simp only [Option.bind_some, ih]
      generalize initrdVnodeCreate initrd m stack heap (headerPath m ptr stack) 0
        (m (ptr + TYPEFLAG)) = node
      split
      · cases node <;> rfl
      · rfl

theorem readdirLoop_eq (node : Vnode) (index : Nat) (out : Mem) (a nameMax n ptr k : Nat) :
    readdirLoop initrd m stack node (strnlen node.path 0 255) index out a nameMax n ptr k =
      loop (readdirRound initrd m stack node index out a nameMax) n (ptr, k) := by
  induction n generalizing ptr k with
  | zero => rfl
  | succ n ih =>
    rw [readdirLoop, readdirRound, loop_scanRound, ← readdirRound]
    refine if_congr Iff.rfl rfl (if_congr Iff.rfl rfl (if_congr Iff.rfl rfl ?_))
    dsimp only [readdirVisit]
    generalize listed (headerPath m ptr stack)
      (restOf node (strnlen node.path 0 255) (headerPath m ptr stack)) = rest
    cases rest with
    | none => rfl
    | some rest =>
      cases rest with
      | none =>
        simp only [Option.bind_some, Option.map_some, ih]
        rfl
      | some rest =>
        simp only [Option.bind_some, Option.map_some, ih]
        split <;> rfl

end Equations

/-! ## The walk over the headers -/

section Walk

variable (initrd : InitrdT) (m : Mem)

/-- Where the blocks of the entry end, counted without a bound. -/
def entryEnd (ptr : Nat) : Nat := ptr + 512 + roundUp512 (oct2int m (ptr + SIZE) 12)

/-- The headers that follow each other from the first one on. -/
inductive Heads : Nat → Prop
  | first : Heads initrd.addr
  | next {ptr : Nat} : Heads ptr → ¬ Ends initrd m ptr → entryEnd m ptr < 2 ^ 32 →
      Heads (entryEnd m ptr)

/-- No entry of the walk ends at 2^32 or behind. -/
def EndsBelow : Prop := ∀ ptr, Heads initrd m ptr → ¬ Ends initrd m ptr → entryEnd m ptr < 2 ^ 32

end Walk

section Advance

variable {σ ρ : Type} {initrd : InitrdT} {m : Mem}

theorem roundUp512_le (size : Nat) : roundUp512 size + 512 ≤ 2 ^ 32 := by
  have hlt : add32 size 511 < 2 ^ 32 := Nat.mod_lt _ (by decide)
  rw [roundUp512]
  omega

theorem nextHeader_mod (m : Mem) (ptr : Nat) : nextHeader m ptr = entryEnd m ptr % 2 ^ 32 := by
  rw [nextHeader, entryEnd, add32, add32, Nat.mod_add_mod]

theorem nextHeader_eq {ptr : Nat} (h : entryEnd m ptr < 2 ^ 32) :
    nextHeader m ptr = entryEnd m ptr := by
  rw [nextHeader_mod, Nat.mod_eq_of_lt h]

/-- An entry that ends behind 2^32 sends the scan back, or leaves it where it is. -/
theorem nextHeader_le {ptr : Nat} (hptr : ptr < 2 ^ 32) (h : 2 ^ 32 ≤ entryEnd m ptr) :
    nextHeader m ptr ≤ ptr := by
  have hround := roundUp512_le (oct2int m (ptr + SIZE) 12)
  rw [nextHeader_mod]
  rw [entryEnd] at h ⊢
  omega

theorem Heads.lt {ptr : Nat} (h : Heads initrd m ptr) (haddr : initrd.addr < 2 ^ 32) :
    ptr < 2 ^ 32 := by
  induction h with
  | first => exact haddr
  | next _ _ hend _ => exact hend

variable {missing : ρ} {visit : Nat → σ → Option (Round σ ρ)}

/-- A round that stays goes on to the next header. -/
theorem scanRound_stays {t u : Nat × σ} :
    Stays (scanRound initrd m missing visit) t u ↔
      ¬ Ends initrd m t.1 ∧ u.1 = nextHeader m t.1 ∧ visit t.1 t.2 = some (.stay u.2) := by
  obtain ⟨ptr, s⟩ := t
  obtain ⟨ptr', s'⟩ := u
  rw [Stays]
  by_cases hends : Ends initrd m ptr
  · rw [scanRound_ends initrd m hends]
    exact iff_of_false nofun fun h => h.1 hends
  · rw [scanRound_visits initrd m hends]
    cases hvisit : visit ptr s with
    | none => exact iff_of_false nofun fun h => nomatch h.2.2
    | some round =>
      cases round with
      | leave r => exact iff_of_false nofun fun h => nomatch h.2.2
      | stay t =>
        simp only [Option.map_some, Option.some.injEq, Round.stay.injEq, Prod.mk.injEq, hends,
          not_false_eq_true, true_and]
        exact and_congr_left fun _ => eq_comm

/-- While no entry ends behind 2^32, the scan follows the headers. -/
theorem EndsBelow.heads (h : EndsBelow initrd m) {s : σ} {t : Nat × σ}
    (hreach : Reaches (scanRound initrd m missing visit) (initrd.addr, s) t) :
    Heads initrd m t.1 := by
  induction hreach with
  | refl => exact .first
  | @tail t u _ hstay ih =>
    obtain ⟨hgo, hnext, -⟩ := scanRound_stays.mp hstay
    rw [hnext, nextHeader_eq (h t.1 ih hgo)]
    exact .next ih hgo (h t.1 ih hgo)

theorem EndsBelow.climbs (h : EndsBelow initrd m) (s : σ) :
    Climbs (scanRound initrd m missing visit) Prod.fst (initrd.addr, s) := by
  intro t u hreach hstay
  have hhead := h.heads hreach
  obtain ⟨hgo, hnext, -⟩ := scanRound_stays.mp hstay
  rw [hnext, nextHeader_eq (h t.1 hhead hgo), entryEnd]
  omega

theorem EndsBelow.ends (h : EndsBelow initrd m) (haddr : initrd.addr < 2 ^ 32)
    (hvisit : ∀ ptr s, visit ptr s ≠ none) (s : σ) :
    ∃ r, loop (scanRound initrd m missing visit) ROUNDS (initrd.addr, s) = some r := by
  refine (h.climbs s).ends (fun t ht => (h.heads ht).lt haddr) ?_ (Nat.le_add_left _ _)
  intro t _
  by_cases hends : Ends initrd m t.1
  · rw [scanRound_ends initrd m hends]
    exact nofun
  · rw [scanRound_visits initrd m hends]
    exact fun hnone => hvisit _ _ (Option.map_eq_none_iff.mp hnone)

/-- A scan that looks at each header comes to all of them. -/
theorem Heads.reached (hstay : ∀ ptr s, ¬ Ends initrd m ptr → ∃ s', visit ptr s = some (.stay s'))
    {ptr : Nat} (h : Heads initrd m ptr) (s : σ) :
    ∃ s', Reaches (scanRound initrd m missing visit) (initrd.addr, s) (ptr, s') := by
  induction h with
  | first => exact ⟨s, .refl⟩
  | @next ptr _ hgo hend ih =>
    obtain ⟨t, hreach⟩ := ih
    obtain ⟨s', hs'⟩ := hstay ptr t hgo
    exact ⟨s', hreach.tail (scanRound_stays.mpr ⟨hgo, (nextHeader_eq hend).symm, hs'⟩)⟩

/-- If such a scan goes up, no entry ends behind 2^32. -/
theorem endsBelow_of_climbs (haddr : initrd.addr < 2 ^ 32)
    (hstay : ∀ ptr s, ¬ Ends initrd m ptr → ∃ s', visit ptr s = some (.stay s')) {s : σ}
    (h : Climbs (scanRound initrd m missing visit) Prod.fst (initrd.addr, s)) :
    EndsBelow initrd m := by
  intro ptr hhead hgo
  obtain ⟨t, hreach⟩ := hhead.reached hstay s
  obtain ⟨s', hs'⟩ := hstay ptr t hgo
  have hup := h _ (nextHeader m ptr, s') hreach (scanRound_stays.mpr ⟨hgo, rfl, hs'⟩)
  by_contra hend
  have hback := nextHeader_le (hhead.lt haddr) (Nat.not_lt.mp hend)
  exact absurd hup (Nat.not_lt.mpr hback)

end Advance

/-! ## What the three do with a header -/

section Visits

variable {initrd : InitrdT} {m : Mem}

theorem pathOf_length (m : Mem) (hdr : Nat) : (pathOf m hdr).length ≤ 256 :=
  Nat.le_trans (trimSlash_length _) (rawPath_length m hdr)

theorem pathOf_lt (m : Mem) (hdr : Nat) : (pathOf m hdr).length < ROUNDS :=
  Nat.lt_of_le_of_lt (pathOf_length m hdr) (by decide)

theorem not_ends_name {ptr : Nat} (h : ¬ Ends initrd m ptr) : m (ptr + NAME) ≠ 0 :=
  fun hname => h (Or.inr (Or.inl hname))

theorem lookupVisit_found {stack pm : Mem} {p ptr : Nat} (h : CStr pm p (pathOf m ptr)) :
    lookupVisit m stack pm p ptr () = some (.leave
      ⟨ptr + NAME, add32 ptr 512, oct2int m (ptr + SIZE) 12, m (ptr + TYPEFLAG)⟩) := by
  obtain ⟨c, hc, hiff⟩ := strcmp_string pm p (headerPath_cstr m ptr stack) (pathOf_lt m ptr)
  rw [lookupVisit, hc, Option.map_some, if_pos (hiff.mpr h)]

theorem lookupVisit_other {stack pm : Mem} {p ptr : Nat} (h : ¬ CStr pm p (pathOf m ptr)) :
    lookupVisit m stack pm p ptr () = some (.stay ()) := by
  obtain ⟨c, hc, hiff⟩ := strcmp_string pm p (headerPath_cstr m ptr stack) (pathOf_lt m ptr)
  rw [lookupVisit, hc, Option.map_some, if_neg fun h0 => h (hiff.mp h0)]

theorem lookupVisit_ne_none (stack pm : Mem) (p ptr : Nat) (u : Unit) :
    lookupVisit m stack pm p ptr u ≠ none := by
  by_cases h : CStr pm p (pathOf m ptr)
  · rw [lookupVisit_found h]
    exact nofun
  · rw [lookupVisit_other h]
    exact nofun

theorem finddirVisit_other {stack heap cm : Mem} {ptr : Nat} (h : ¬ CStr cm 0 (pathOf m ptr)) :
    finddirVisit initrd m stack heap cm ptr () = some (.stay ()) := by
  obtain ⟨c, hc, hiff⟩ := strcmp_string cm 0 (headerPath_cstr m ptr stack) (pathOf_lt m ptr)
  rw [finddirVisit, hc, Option.bind_some, if_neg fun h0 => h (hiff.mp h0)]

theorem initrdVnodeCreate_ne_none
    (hlookup : ∀ (stack pm : Mem) p, ∃ f, initrdLookup initrd m stack pm p = some f)
    (stack heap pm : Mem) (p : Nat) (typeflag : Char8) :
    initrdVnodeCreate initrd m stack heap pm p typeflag ≠ none := by
  rw [initrdVnodeCreate]
  split
  · exact Option.some_ne_none _
  · obtain ⟨f, hf⟩ := hlookup stack pm p
    rw [hf]
    exact Option.some_ne_none _

theorem finddirVisit_ne_none
    (hlookup : ∀ (stack pm : Mem) p, ∃ f, initrdLookup initrd m stack pm p = some f)
    (stack heap cm : Mem) (ptr : Nat) (u : Unit) :
    finddirVisit initrd m stack heap cm ptr u ≠ none := by
  obtain ⟨c, hc, -⟩ := strcmp_string cm 0 (headerPath_cstr m ptr stack) (pathOf_lt m ptr)
  rw [finddirVisit, hc, Option.bind_some]
  split
  · have hcreate := initrdVnodeCreate_ne_none hlookup stack heap (headerPath m ptr stack) 0
      (m (ptr + TYPEFLAG))
    exact fun hnone => hcreate (Option.map_eq_none_iff.mp hnone)
  · exact nofun

/-- What `readdir` sees of a header, in any directory. -/
theorem listed_header (stack : Mem) (node : Vnode) (ptr : Nat) :
    ∃ r, listed (headerPath m ptr stack)
        (restOf node (strnlen node.path 0 255) (headerPath m ptr stack)) = some r ∧
      match nameIn (fieldChars node.path 0 255) (pathOf m ptr) with
      | none => r = none
      | some c => ∃ rest, r = some rest ∧ CStr (headerPath m ptr stack) rest c := by
  rw [strnlen_eq]
  exact listed_restOf (fieldChars_holds _ _ _) (fieldChars_ne_zero _ _ _)
    (headerPath_cstr m ptr stack) (pathOf_lt m ptr)

theorem readdirVisit_ne_none (stack : Mem) (node : Vnode) (index : Nat) (out : Mem)
    (a nameMax ptr k : Nat) :
    readdirVisit m stack node (strnlen node.path 0 255) index out a nameMax ptr k ≠ none := by
  obtain ⟨r, hr, -⟩ := listed_header (m := m) stack node ptr
  rw [readdirVisit, hr]
  exact nofun

theorem readdirVisit_other {stack : Mem} {node : Vnode} {index : Nat} {out : Mem}
    {a nameMax ptr k : Nat} (h : nameIn (fieldChars node.path 0 255) (pathOf m ptr) = none) :
    readdirVisit m stack node (strnlen node.path 0 255) index out a nameMax ptr k =
      some (.stay k) := by
  obtain ⟨r, hr, hname⟩ := listed_header (m := m) stack node ptr
  rw [h] at hname
  obtain rfl := hname
  rw [readdirVisit, hr]
  rfl

/-- A directory whose path leaves no room for a name. -/
def longDir : Vnode := ⟨VFS_DIRECTORY, 0, .initrdDirOps, none, memOf 0 (List.replicate 255 0x61)⟩

theorem nameIn_longDir (ptr : Nat) :
    nameIn (fieldChars longDir.path 0 255) (pathOf m ptr) = none := by
  have hchars : fieldChars longDir.path 0 255 = List.replicate 255 0x61 := by
    have hfull := fieldChars_full (holds_memOf 0 (List.replicate 255 (0x61 : Char8)))
      fun c hc => by rw [List.eq_of_mem_replicate hc]; decide
    rwa [List.length_replicate] at hfull
  rw [hchars, Option.eq_none_iff_forall_ne_some]
  intro c hc
  obtain ⟨hpath, hne, -⟩ := nameIn_some.mp hc
  have hlen := pathOf_length m ptr
  have hpos := List.length_pos_of_ne_nil hne
  rw [hpath, joined, if_neg (by decide), List.length_append, List.length_cons,
    List.length_replicate] at hlen
  omega

end Visits

/-! ## Termination -/

section Termination

variable (initrd : InitrdT) (m stack heap : Mem)

/-- In `initrd_lookup`, whatever the path, `ptr` goes up in each round that stays in
the loop, and the loop ends. -/
def LookupAdvances : Prop :=
  ∀ pm p, Climbs (lookupRound initrd m stack pm p) Prod.fst (initrd.addr, ()) ∧
    ∃ f, initrdLookup initrd m stack pm p = some f

/-- The same for the loop of `initrd_dir_finddir` and any `child_path`. -/
def FinddirAdvances : Prop :=
  ∀ cm, Climbs (finddirRound initrd m stack heap cm) Prod.fst (initrd.addr, ()) ∧
    ∃ r, finddirLoop initrd m stack heap cm ROUNDS initrd.addr = some r

/-- The same for `initrd_dir_readdir` and any directory and index. -/
def ReaddirAdvances : Prop :=
  ∀ node index out a nameMax,
    Climbs (readdirRound initrd m stack node index out a nameMax) Prod.fst (initrd.addr, 0) ∧
    ∃ r, initrdDirReaddir initrd m stack node index out a nameMax = some r

variable {initrd m}

theorem EndsBelow.lookup (h : EndsBelow initrd m) (haddr : initrd.addr < 2 ^ 32) (stack pm : Mem)
    (p : Nat) : ∃ f, initrdLookup initrd m stack pm p = some f := by
  rw [initrdLookup, lookupLoop_eq]
  exact h.ends haddr (lookupVisit_ne_none stack pm p) ()

/-- The empty path is never found. -/
theorem empty_not_found {ptr : Nat} (h : ¬ Ends initrd m ptr) :
    ¬ CStr (fun _ => 0) 0 (pathOf m ptr) := by
  have hempty : CStr (fun _ => 0) 0 [] := rfl
  exact fun hpath => pathOf_ne_nil (not_ends_name h) (hpath.unique hempty)

theorem lookupAdvances_iff (haddr : initrd.addr < 2 ^ 32) :
    LookupAdvances initrd m stack ↔ EndsBelow initrd m := by
  constructor
  · intro h
    obtain ⟨hclimbs, -⟩ := h (fun _ => 0) 0
    exact endsBelow_of_climbs haddr
      (fun ptr _ hgo => ⟨(), lookupVisit_other (empty_not_found hgo)⟩) hclimbs
  · intro h pm p
    exact ⟨h.climbs (), h.lookup haddr stack pm p⟩

theorem finddirAdvances_iff (haddr : initrd.addr < 2 ^ 32) :
    FinddirAdvances initrd m stack heap ↔ EndsBelow initrd m := by
  constructor
  · intro h
    obtain ⟨hclimbs, -⟩ := h (fun _ => 0)
    exact endsBelow_of_climbs haddr
      (fun ptr _ hgo => ⟨(), finddirVisit_other (empty_not_found hgo)⟩) hclimbs
  · intro h cm
    refine ⟨h.climbs (), ?_⟩
    rw [finddirLoop_eq_loop]
    exact h.ends haddr (finddirVisit_ne_none (h.lookup haddr) stack heap cm) ()

theorem readdirAdvances_iff (haddr : initrd.addr < 2 ^ 32) :
    ReaddirAdvances initrd m stack ↔ EndsBelow initrd m := by
  constructor
  · intro h
    obtain ⟨hclimbs, -⟩ := h longDir 0 stack 0 0
    exact endsBelow_of_climbs haddr
      (fun ptr k _ => ⟨k, readdirVisit_other (nameIn_longDir ptr)⟩) hclimbs
  · intro h node index out a nameMax
    refine ⟨h.climbs 0, ?_⟩
    rw [initrdDirReaddir, readdirLoop_eq]
    exact h.ends haddr (readdirVisit_ne_none stack node index out a nameMax) 0

/-- **The scans end.**  Each of the three goes up and ends exactly for the archives
whose entries all end below 2^32. -/
theorem scans_advance_iff (initrd : InitrdT) (m stack heap : Mem)
    (hspace : initrd.addr + initrd.size < 2 ^ 32) :
    (LookupAdvances initrd m stack ↔ EndsBelow initrd m) ∧
      (FinddirAdvances initrd m stack heap ↔ EndsBelow initrd m) ∧
      (ReaddirAdvances initrd m stack ↔ EndsBelow initrd m) := by
  have haddr : initrd.addr < 2 ^ 32 := by omega
  exact ⟨lookupAdvances_iff stack haddr, finddirAdvances_iff stack heap haddr,
    readdirAdvances_iff stack haddr⟩

/-- A header with the name `a` and the size. -/
def sizedHeader (size : Nat) : List Char8 :=
  field 124 [0x61] ++ field 12 (octal 11 size) ++ field 121 [] ++ ustar

/-- An archive of one header, at 0x1000. -/
def oneHeader : InitrdT := ⟨0x1000, 0x1000, 512⟩

/-- The size 2^32 - 512 sends the scan to the same header again. -/
theorem stalled_scan :
    oneHeader.addr + oneHeader.size < 2 ^ 32 ∧
      ¬ LookupAdvances oneHeader (memOf 0x1000 (sizedHeader 0xfffffe00)) (fun _ => 0) ∧
      ¬ FinddirAdvances oneHeader (memOf 0x1000 (sizedHeader 0xfffffe00)) (fun _ => 0)
          (fun _ => 0) ∧
      ¬ ReaddirAdvances oneHeader (memOf 0x1000 (sizedHeader 0xfffffe00)) (fun _ => 0) ∧
      initrdLookup oneHeader (memOf 0x1000 (sizedHeader 0xfffffe00)) (fun _ => 0) (fun _ => 0) 0 =
        none := by
  have hgo : ¬ Ends oneHeader (memOf 0x1000 (sizedHeader 0xfffffe00)) 0x1000 := by
    decide +kernel
  have haddr : oneHeader.addr < 2 ^ 32 := by decide
  have hbehind : ¬ EndsBelow oneHeader (memOf 0x1000 (sizedHeader 0xfffffe00)) := by
    intro h
    have hend := h 0x1000 .first hgo
    exact absurd hend (by decide +kernel)
  refine ⟨by decide, fun h => hbehind ((lookupAdvances_iff _ haddr).mp h),
    fun h => hbehind ((finddirAdvances_iff _ _ haddr).mp h),
    fun h => hbehind ((readdirAdvances_iff _ haddr).mp h), ?_⟩
  have hnext : nextHeader (memOf 0x1000 (sizedHeader 0xfffffe00)) 0x1000 = 0x1000 := by
    decide +kernel
  rw [initrdLookup, lookupLoop_eq]
  refine loop_cycle (t := (0x1000, ())) (scanRound_stays.mpr ⟨hgo, hnext.symm, ?_⟩) .refl
  exact lookupVisit_other (empty_not_found hgo)

/-- An archive of one empty file. -/
theorem one_header_advances :
    (LookupAdvances oneHeader (memOf 0x1000 (sizedHeader 0)) (fun _ => 0) ↔
        EndsBelow oneHeader (memOf 0x1000 (sizedHeader 0))) ∧
      (FinddirAdvances oneHeader (memOf 0x1000 (sizedHeader 0)) (fun _ => 0) (fun _ => 0) ↔
        EndsBelow oneHeader (memOf 0x1000 (sizedHeader 0))) ∧
      (ReaddirAdvances oneHeader (memOf 0x1000 (sizedHeader 0)) (fun _ => 0) ↔
        EndsBelow oneHeader (memOf 0x1000 (sizedHeader 0))) :=
  scans_advance_iff oneHeader _ _ _ (by decide)

end Termination

end FrogKernel.Initrd
