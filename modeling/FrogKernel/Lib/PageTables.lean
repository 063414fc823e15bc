import FrogKernel.Lib.Bytes

/-!
# Two-level page tables

Page directories and page tables are frames of 1024 words in a byte memory.  An
entry holds the address of a frame in its upper 20 bits and flags in the lower
12; it is present when its lowest bit is set.

`lookup m dir virt` is the table entry of an address, `0` when it has no table.
`lookup_setEntry` and `lookup_newTable` say how the two writes of a map
operation change it, for every directory at once.  A directory whose last entry
points at itself shows all its tables in the last 4 MiB: `translate_window`.
-/

namespace FrogKernel.PageTables

open FrogKernel.Bytes

def dirIndex (virt : Nat) : Nat := virt / 2 ^ 22 % 1024

def tabIndex (virt : Nat) : Nat := virt / 2 ^ 12 % 1024

def present (e : Nat) : Bool := e % 2 == 1

/-- The frame an entry points at. -/
def frameOf (e : Nat) : Nat := e / 4096 * 4096

/-- Word `i` of the directory or table at `table`. -/
def entryAt (m : Mem) (table i : Nat) : Nat := read32 m (table + 4 * i)

def writeEntry (m : Mem) (table i e : Nat) : Mem := write32 m (table + 4 * i) e

/-- The directory entry of `virt`. -/
def dirEntry (m : Mem) (dir virt : Nat) : Nat := entryAt m dir (dirIndex virt)

/-- The table entry of `virt`. -/
def lookup (m : Mem) (dir virt : Nat) : Nat :=
  if present (dirEntry m dir virt) then entryAt m (frameOf (dirEntry m dir virt)) (tabIndex virt)
  else 0

/-- The physical address of `virt`, or a page fault. -/
def translate (m : Mem) (dir virt : Nat) : Option Nat :=
  if present (lookup m dir virt) then some (frameOf (lookup m dir virt) + virt % 4096) else none

/-- `virt` has a present table entry. -/
def Mapped (m : Mem) (dir virt : Nat) : Prop := present (lookup m dir virt) = true

instance (m : Mem) (dir virt : Nat) : Decidable (Mapped m dir virt) :=
  inferInstanceAs (Decidable (_ = true))

/-! ## Entries -/

theorem dirIndex_lt (virt : Nat) : dirIndex virt < 1024 := Nat.mod_lt _ (by decide)

theorem tabIndex_lt (virt : Nat) : tabIndex virt < 1024 := Nat.mod_lt _ (by decide)

@[simp] theorem present_zero : present 0 = false := rfl

@[simp] theorem frameOf_aligned (e : Nat) : frameOf e % 4096 = 0 := Nat.mul_mod_left _ _

theorem entryAt_lt (m : Mem) (table i : Nat) : entryAt m table i < 2 ^ 32 := readN_lt m 4 _

section Entries

variable {m : Mem} {t t' i i' e : Nat}

theorem entryAt_writeEntry_self (he : e < 2 ^ 32) : entryAt (writeEntry m t i e) t i = e :=
  readN_writeN_self m he

/-- Entries of aligned tables overlap only when they are the same. -/
theorem entryAt_writeEntry_ne (ht : t % 4096 = 0) (ht' : t' % 4096 = 0) (hi : i < 1024)
    (hi' : i' < 1024) (hne : t' ≠ t ∨ i' ≠ i) :
    entryAt (writeEntry m t i e) t' i' = entryAt m t' i' := by
  refine readN_writeN_apart m e ?_
  omega

theorem entryAt_writeEntry (ht : t % 4096 = 0) (ht' : t' % 4096 = 0) (hi : i < 1024)
    (hi' : i' < 1024) (he : e < 2 ^ 32) : entryAt (writeEntry m t i e) t' i' =
      if t' = t ∧ i' = i then e else entryAt m t' i' := by
  split
  case isTrue h =>
    obtain ⟨rfl, rfl⟩ := h
    exact entryAt_writeEntry_self he
  case isFalse h => exact entryAt_writeEntry_ne ht ht' hi hi' (by tauto)

/-- A cleared frame as a table. -/
theorem entryAt_clear (ht : t % 4096 = 0) (ht' : t' % 4096 = 0) (hi' : i' < 1024) :
    entryAt (fill m t 0 4096) t' i' = if t' = t then 0 else entryAt m t' i' := by
  split
  case isTrue h =>
    subst h
    exact readN_fill_zero m (by omega) (by omega)
  case isFalse h =>
    refine readN_congr fun x h1 h2 => ?_
    rw [fill_apply, if_neg (by omega)]

end Entries

/-! ## Translation through the last entry -/

/-- The last entry of the directory points at the directory. -/
structure Recursive (m : Mem) (dir : Nat) : Prop where
  present : present (entryAt m dir 1023) = true
  frame : frameOf (entryAt m dir 1023) = dir

theorem Recursive.aligned {m : Mem} {dir : Nat} (h : Recursive m dir) : dir % 4096 = 0 := by
  rw [← h.frame]
  exact frameOf_aligned _

/-- Byte `o` of the table of entry `i` is seen at `0xffc00000 + 4096 * i + o`. -/
theorem translate_window {m : Mem} {dir i o : Nat} (h : Recursive m dir) (hi : i < 1024)
    (ho : o < 4096) : translate m dir (0xffc00000 + i * 4096 + o) =
      if present (entryAt m dir i) then some (frameOf (entryAt m dir i) + o) else none := by
  have hdir : dirIndex (0xffc00000 + i * 4096 + o) = 1023 := by simp only [dirIndex]; omega
  have htab : tabIndex (0xffc00000 + i * 4096 + o) = i := by simp only [tabIndex]; omega
  have hoff : (0xffc00000 + i * 4096 + o) % 4096 = o := by omega
  have hlookup : lookup m dir (0xffc00000 + i * 4096 + o) = entryAt m dir i := by
    rw [lookup, dirEntry, hdir, if_pos h.present, h.frame, htab]
  rw [translate, hlookup, hoff]

/-- The directory itself is the last of these tables. -/
theorem translate_directory {m : Mem} {dir o : Nat} (h : Recursive m dir) (ho : o < 4096) :
    translate m dir (0xfffff000 + o) = some (dir + o) := by
  have hwindow := translate_window h (show 1023 < 1024 by decide) ho
  rw [if_pos h.present, h.frame] at hwindow
  exact hwindow

/-- A directory keeps its recursive entry when another entry is written. -/
theorem Recursive.writeEntry {m : Mem} {dir i e : Nat} (h : Recursive m dir) (hi : i ≠ 1023)
    (hlt : i < 1024) : Recursive (writeEntry m dir i e) dir := by
  have hsame : entryAt (PageTables.writeEntry m dir i e) dir 1023 = entryAt m dir 1023 :=
    entryAt_writeEntry_ne h.aligned h.aligned hlt (by decide) (Or.inr hi.symm)
  exact ⟨hsame ▸ h.present, hsame ▸ h.frame⟩

theorem Recursive.clear {m : Mem} {dir frame : Nat} (h : Recursive m dir)
    (hframe : frame % 4096 = 0) (hne : dir ≠ frame) : Recursive (fill m frame 0 4096) dir := by
  have hsame : entryAt (fill m frame 0 4096) dir 1023 = entryAt m dir 1023 :=
    (entryAt_clear hframe h.aligned (by decide)).trans (if_neg hne)
  exact ⟨by rw [hsame, h.present], by rw [hsame, h.frame]⟩

/-! ## Writing entries -/

/-- Write the table entry of `virt`. -/
def setEntry (m : Mem) (dir virt e : Nat) : Mem :=
  writeEntry m (frameOf (dirEntry m dir virt)) (tabIndex virt) e

/-- Give entry `i` of `dir` a new, empty table in `frame`. -/
def newTable (m : Mem) (dir i frame e : Nat) : Mem := fill (writeEntry m dir i e) frame 0 4096

/-- `m` and `m'` have the same directory at `dir`. -/
def SameDir (m m' : Mem) (dir : Nat) : Prop := ∀ i < 1024, entryAt m' dir i = entryAt m dir i

theorem SameDir.dirEntry {m m' : Mem} {dir : Nat} (h : SameDir m m' dir) (virt : Nat) :
    dirEntry m' dir virt = dirEntry m dir virt :=
  h _ (dirIndex_lt virt)

theorem setEntry_sameDir {m : Mem} {dir virt e dir' : Nat} (hdir : dir' % 4096 = 0)
    (hne : dir' ≠ frameOf (dirEntry m dir virt)) : SameDir m (setEntry m dir virt e) dir' :=
  fun _ hi => entryAt_writeEntry_ne (frameOf_aligned _) hdir (tabIndex_lt virt) hi (Or.inl hne)

/-- Writing the entry of `virt` in `dir` changes exactly the addresses whose
table and index are the same. -/
theorem lookup_setEntry {m : Mem} {dir virt e dir' virt' : Nat} (hdir : dir' % 4096 = 0)
    (hne : dir' ≠ frameOf (dirEntry m dir virt)) (he : e < 2 ^ 32) :
    lookup (setEntry m dir virt e) dir' virt' =
      if present (dirEntry m dir' virt') = true ∧
          frameOf (dirEntry m dir' virt') = frameOf (dirEntry m dir virt) ∧
          tabIndex virt' = tabIndex virt then e
      else lookup m dir' virt' := by
  rw [lookup, (setEntry_sameDir hdir hne).dirEntry]
  split
  case isTrue hp =>
    rw [setEntry, entryAt_writeEntry (frameOf_aligned _) (frameOf_aligned _) (tabIndex_lt virt)
      (tabIndex_lt virt') he]
    simp only [lookup, hp, true_and, ↓reduceIte]
  case isFalse hp => simp [lookup, hp]

theorem entryAt_newTable {m : Mem} {dir i frame e dir' i' : Nat} (hdir : dir % 4096 = 0)
    (hframe : frame % 4096 = 0) (hi : i < 1024) (he : e < 2 ^ 32) (hdir' : dir' % 4096 = 0)
    (hi' : i' < 1024) (hne : dir' ≠ frame) : entryAt (newTable m dir i frame e) dir' i' =
      if dir' = dir ∧ i' = i then e else entryAt m dir' i' := by
  rw [newTable, entryAt_clear hframe hdir' hi', if_neg hne,
    entryAt_writeEntry hdir hdir' hi hi' he]

/-- A new table in a frame that is no directory and no table takes the
addresses of its entry out, and changes no others. -/
theorem lookup_newTable {m : Mem} {dir i frame e dir' virt' : Nat} (hdir : dir % 4096 = 0)
    (hframe : frame % 4096 = 0) (hi : i < 1024) (he : e < 2 ^ 32) (heframe : frameOf e = frame)
    (hdir' : dir' % 4096 = 0) (hne : dir' ≠ frame)
    (htable : present (dirEntry m dir' virt') = true →
      frameOf (dirEntry m dir' virt') ≠ frame ∧ frameOf (dirEntry m dir' virt') ≠ dir) :
    lookup (newTable m dir i frame e) dir' virt' =
      if dir' = dir ∧ dirIndex virt' = i then 0 else lookup m dir' virt' := by
  have hentry : dirEntry (newTable m dir i frame e) dir' virt' = _ :=
    entryAt_newTable hdir hframe hi he hdir' (dirIndex_lt virt') hne
  rw [lookup, hentry]
  split
  case isTrue hsame =>
    rw [heframe, newTable, entryAt_clear hframe hframe (tabIndex_lt virt'), if_pos rfl, ite_self]
  case isFalse hother =>
    change (if present (dirEntry m dir' virt') then
      entryAt (newTable m dir i frame e) (frameOf (dirEntry m dir' virt')) (tabIndex virt')
      else 0) = lookup m dir' virt'
    split
    case isTrue hp =>
      obtain ⟨hne1, hne2⟩ := htable hp
      rw [entryAt_newTable hdir hframe hi he (frameOf_aligned _) (tabIndex_lt virt') hne1,
        if_neg (fun hc => hne2 hc.1), lookup, if_pos hp]
    case isFalse hp => rw [lookup, if_neg hp]

end FrogKernel.PageTables
