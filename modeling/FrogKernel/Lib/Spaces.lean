import FrogKernel.Lib.PageTables

/-!
# Address spaces

The lower `n` entries of a page directory and what hangs on them: tables, and the
pages the tables map.  `role` says what each frame is to the address space, so
that no frame is two things at once; `Space` says that the entries agree with it.

`view m dir virt` is the byte seen at an address.  `Space.same`, `Space.mapped` and
`Space.tabled` are the rules for writes elsewhere, for mapping a page and
for a new table; they say what the view is afterwards.
-/

namespace FrogKernel.Spaces

open FrogKernel.Bytes FrogKernel.PageTables

/-- What a frame is to an address space: its directory, the table of a directory
entry, or the page with a number. -/
inductive Role where
  | dir
  | table (i : Nat)
  | page (v : Nat)
  deriving DecidableEq

/-- The user bit of an entry. -/
def userBit (e : Nat) : Bool := e / 4 % 2 == 1

/-- User code can reach the page: present and user bits at both levels. -/
def UserMapped (m : Mem) (dir virt : Nat) : Prop :=
  present (dirEntry m dir virt) = true ∧ userBit (dirEntry m dir virt) = true ∧
    present (lookup m dir virt) = true ∧ userBit (lookup m dir virt) = true

instance (m : Mem) (dir virt : Nat) : Decidable (UserMapped m dir virt) :=
  inferInstanceAs (Decidable (_ ∧ _ ∧ _ ∧ _))

/-- The byte at an address, if it is mapped. -/
def view (m : Mem) (dir virt : Nat) : Option (BitVec 8) := (translate m dir virt).map m

/-- The byte at an address, if user code can reach it. -/
def userView (m : Mem) (dir virt : Nat) : Option (BitVec 8) :=
  if UserMapped m dir virt then view m dir virt else none

structure Space (n : Nat) (role : Nat → Option Role) (m : Mem) (dir : Nat) : Prop where
  small : n ≤ 1024
  aligned : dir % 4096 = 0
  directory : role dir = some .dir
  table : ∀ i < n, present (entryAt m dir i) = true →
    userBit (entryAt m dir i) = true ∧ role (frameOf (entryAt m dir i)) = some (.table i)
  page : ∀ virt < 2 ^ 32, dirIndex virt < n → present (lookup m dir virt) = true →
    userBit (lookup m dir virt) = true ∧
      role (frameOf (lookup m dir virt)) = some (.page (virt / 4096))

variable {n : Nat} {role role' : Nat → Option Role} {m m' : Mem} {dir : Nat}

theorem present_dirEntry {virt : Nat} (h : present (lookup m dir virt) = true) :
    present (dirEntry m dir virt) = true := by
  rw [lookup] at h
  split at h
  case isTrue hp => exact hp
  case isFalse => cases h

theorem present_view {virt : Nat} :
    (view m dir virt).isSome = true ↔ present (lookup m dir virt) = true := by
  rw [view, PageTables.translate]
  split
  case isTrue hp => simp [hp]
  case isFalse hp => simp [hp]

theorem view_some {virt : Nat} (h : present (lookup m dir virt) = true) :
    view m dir virt = some (m (frameOf (lookup m dir virt) + virt % 4096)) := by
  rw [view, PageTables.translate, if_pos h, Option.map_some]

/-- Nothing is seen where there is no entry. -/
theorem view_none {virt : Nat} (h : lookup m dir virt = 0) : view m dir virt = none := by
  rw [← Option.not_isSome_iff_eq_none, present_view, h, present_zero]
  exact Bool.false_ne_true

theorem view_congr {virt : Nat} (hlookup : lookup m' dir virt = lookup m dir virt)
    (hbyte : present (lookup m dir virt) = true → m' (frameOf (lookup m dir virt) + virt % 4096) =
      m (frameOf (lookup m dir virt) + virt % 4096)) : view m' dir virt = view m dir virt := by
  rw [view, view, PageTables.translate, PageTables.translate, hlookup]
  split
  case isTrue hp => rw [Option.map_some, Option.map_some, hbyte hp]
  case isFalse => rfl

theorem Space.present_table (h : Space n role m dir) {virt : Nat} (hi : dirIndex virt < n)
    (hp : present (dirEntry m dir virt) = true) : userBit (dirEntry m dir virt) = true ∧
      role (frameOf (dirEntry m dir virt)) = some (.table (dirIndex virt)) :=
  h.table _ hi hp

/-- In the space of its role map a page that is mapped is there for user code. -/
theorem Space.userMapped (h : Space n role m dir) {virt : Nat} (hvirt : virt < 2 ^ 32)
    (hi : dirIndex virt < n) : UserMapped m dir virt ↔ (view m dir virt).isSome = true := by
  rw [present_view]
  constructor
  · exact fun hu => hu.2.2.1
  · intro hp
    have hdir := present_dirEntry hp
    exact ⟨hdir, (h.present_table hi hdir).1, hp, (h.page virt hvirt hi hp).1⟩

theorem Space.userView (h : Space n role m dir) {virt : Nat} (hvirt : virt < 2 ^ 32)
    (hi : dirIndex virt < n) : userView m dir virt = view m dir virt := by
  have hmapped := h.userMapped hvirt hi
  rw [Spaces.userView]
  split
  case isTrue => rfl
  case isFalse hnot =>
    rw [hmapped] at hnot
    exact (Option.not_isSome_iff_eq_none.mp hnot).symm

theorem frameOf_add {f o : Nat} (hf : f % 4096 = 0) (ho : o < 4096) : frameOf (f + o) = f := by
  simp only [frameOf]
  omega

theorem dirIndex_congr {virt virt' : Nat} (h : virt / 4096 = virt' / 4096) :
    dirIndex virt = dirIndex virt' := by
  simp only [dirIndex]
  omega

theorem tabIndex_congr {virt virt' : Nat} (h : virt / 4096 = virt' / 4096) :
    tabIndex virt = tabIndex virt' := by
  simp only [tabIndex]
  omega

theorem same_page {virt virt' : Nat} (hvirt : virt < 2 ^ 32) (hvirt' : virt' < 2 ^ 32)
    (hd : dirIndex virt = dirIndex virt') (ht : tabIndex virt = tabIndex virt') :
    virt / 4096 = virt' / 4096 := by
  simp only [dirIndex, tabIndex] at hd ht
  omega

/-! ## Writes elsewhere -/

/-- An entry of an aligned table depends on the bytes of its frame. -/
theorem entryAt_congr {t i : Nat} (ht : t % 4096 = 0) (hi : i < 1024)
    (h : ∀ x, frameOf x = t → m' x = m x) : entryAt m' t i = entryAt m t i := by
  refine readN_congr fun x h1 h2 => h x ?_
  simp only [frameOf]
  omega

/-- A space whose directory and tables keep their bytes. -/
theorem Space.same (h : Space n role m dir)
    (hsame : ∀ x, (role (frameOf x) = some .dir ∨ ∃ i, role (frameOf x) = some (.table i)) →
      m' x = m x) :
    Space n role m' dir ∧
      ∀ virt, dirIndex virt < n → lookup m' dir virt = lookup m dir virt := by
  have hdir : ∀ i < 1024, entryAt m' dir i = entryAt m dir i := fun i hi =>
    entryAt_congr h.aligned hi fun x hx => hsame x (Or.inl (by rw [hx]; exact h.directory))
  have hlookup : ∀ virt, dirIndex virt < n → lookup m' dir virt = lookup m dir virt := by
    intro virt hi
    have hentry : dirEntry m' dir virt = dirEntry m dir virt := hdir _ (dirIndex_lt virt)
    rw [lookup, lookup, hentry]
    split
    case isTrue hp =>
      refine entryAt_congr (frameOf_aligned _) (tabIndex_lt virt) fun x hx => hsame x (Or.inr ?_)
      rw [hx]
      exact ⟨_, (h.present_table hi hp).2⟩
    case isFalse => rfl
  refine ⟨⟨h.small, h.aligned, h.directory, fun i hi hp => ?_, fun virt hvirt hi hp => ?_⟩, hlookup⟩
  · rw [hdir i (Nat.lt_of_lt_of_le hi h.small)] at hp ⊢
    exact h.table i hi hp
  · rw [hlookup virt hi] at hp ⊢
    exact h.page virt hvirt hi hp

/-! ## New frames -/

/-- A frame that is nothing yet gets a role. -/
theorem Space.assign (h : Space n role m dir) {f : Nat} (hf : role f = none) (r : Role) :
    Space n (Function.update role f (some r)) m dir := by
  have hkeep : ∀ {f' r'}, role f' = some r' → Function.update role f (some r) f' = some r' := by
    intro f' r' hr
    rw [Function.update_of_ne, hr]
    rintro rfl
    rw [hf] at hr
    cases hr
  exact ⟨h.small, h.aligned, hkeep h.directory,
    fun i hi hp => ⟨(h.table i hi hp).1, hkeep (h.table i hi hp).2⟩,
    fun virt hvirt hi hp => ⟨(h.page virt hvirt hi hp).1, hkeep (h.page virt hvirt hi hp).2⟩⟩

section Map

variable {virt e : Nat}

/-- **Mapping a page** in a table that is there. -/
theorem Space.mapped (h : Space n role m dir) (hvirt : virt < 2 ^ 32) (hi : dirIndex virt < n)
    (htable : present (dirEntry m dir virt) = true) (he : e < 2 ^ 32)
    (huser : userBit e = true) (hrole : role (frameOf e) = some (.page (virt / 4096))) :
    Space n role (setEntry m dir virt e) dir ∧ ∀ virt' < 2 ^ 32, dirIndex virt' < n →
      lookup (setEntry m dir virt e) dir virt' =
        if virt' / 4096 = virt / 4096 then e else lookup m dir virt' := by
  have htableRole := (h.present_table hi htable).2
  have hne : dir ≠ frameOf (dirEntry m dir virt) := by
    intro heq
    have hboth := h.directory
    rw [heq] at hboth
    exact absurd (hboth.symm.trans htableRole) (by simp)
  have hlookup : ∀ virt' < 2 ^ 32, dirIndex virt' < n →
      lookup (setEntry m dir virt e) dir virt' =
        if virt' / 4096 = virt / 4096 then e else lookup m dir virt' := by
    intro virt' hvirt' hi'
    rw [lookup_setEntry h.aligned hne he]
    by_cases hsame : virt' / 4096 = virt / 4096
    · have hentry : dirEntry m dir virt' = dirEntry m dir virt := by
        rw [dirEntry, dirIndex_congr hsame, dirEntry]
      rw [if_pos hsame, if_pos ⟨hentry ▸ htable, by rw [hentry], tabIndex_congr hsame⟩]
    · rw [if_neg hsame, if_neg]
      rintro ⟨hp', hframe, htab⟩
      have hrole' := (h.present_table hi' hp').2
      rw [hframe] at hrole'
      have hdir : dirIndex virt = dirIndex virt' := by simpa using htableRole.symm.trans hrole'
      exact hsame (same_page hvirt' hvirt hdir.symm htab)
  have hdir := setEntry_sameDir (e := e) h.aligned hne
  refine ⟨⟨h.small, h.aligned, h.directory, fun i hlt hpi => ?_, fun virt' hvirt' hi' hp' => ?_⟩,
    hlookup⟩
  · rw [hdir i (Nat.lt_of_lt_of_le hlt h.small)] at hpi ⊢
    exact h.table i hlt hpi
  · rw [hlookup virt' hvirt' hi'] at hp' ⊢
    split at hp'
    case isTrue hsame => rw [if_pos hsame, hsame]; exact ⟨huser, hrole⟩
    case isFalse hother => rw [if_neg hother]; exact h.page virt' hvirt' hi' hp'

/-- **A new table** for an entry that has none, in a frame that is nothing yet. -/
theorem Space.tabled (h : Space n role m dir) {i frame : Nat} (hi : i < n)
    (hnone : present (entryAt m dir i) = false) (hframe : frame % 4096 = 0) (he : e < 2 ^ 32)
    (heframe : frameOf e = frame) (huser : userBit e = true) (hfresh : role frame = none) :
    Space n (Function.update role frame (some (.table i))) (newTable m dir i frame e) dir ∧
      ∀ virt' < 2 ^ 32, dirIndex virt' < n →
        lookup (newTable m dir i frame e) dir virt' = lookup m dir virt' := by
  have hlt := Nat.lt_of_lt_of_le hi h.small
  have hne : ∀ {f r}, role f = some r → f ≠ frame := by
    rintro f r hr rfl
    rw [hfresh] at hr
    cases hr
  have hdir : ∀ j < 1024, entryAt (newTable m dir i frame e) dir j =
      if j = i then e else entryAt m dir j := by
    intro j hj
    rw [entryAt_newTable h.aligned hframe hlt he h.aligned hj (hne h.directory)]
    simp
  have hlookup : ∀ virt' < 2 ^ 32, dirIndex virt' < n →
      lookup (newTable m dir i frame e) dir virt' = lookup m dir virt' := by
    intro virt' _ hi'
    have htables : present (dirEntry m dir virt') = true →
        frameOf (dirEntry m dir virt') ≠ frame ∧ frameOf (dirEntry m dir virt') ≠ dir := by
      intro hp
      have hrole := (h.present_table hi' hp).2
      refine ⟨hne hrole, fun heq => ?_⟩
      rw [heq, h.directory] at hrole
      simp at hrole
    rw [lookup_newTable h.aligned hframe hlt he heframe h.aligned (hne h.directory) htables]
    split
    case isTrue hsame =>
      rw [lookup, dirEntry, hsame.2, hnone]
      rfl
    case isFalse => rfl
  have hassign := h.assign hfresh (.table i)
  refine ⟨⟨h.small, h.aligned, hassign.directory, fun j hj hp => ?_, fun virt' hvirt' hi' hp => ?_⟩,
    hlookup⟩
  · rw [hdir j (Nat.lt_of_lt_of_le hj h.small)] at hp ⊢
    split at hp
    case isTrue hsame =>
      rw [if_pos hsame, heframe, hsame]
      exact ⟨huser, Function.update_self ..⟩
    case isFalse hother =>
      rw [if_neg hother]
      exact hassign.table j hj hp
  · rw [hlookup virt' hvirt' hi'] at hp ⊢
    exact hassign.page virt' hvirt' hi' hp

end Map

end FrogKernel.Spaces
