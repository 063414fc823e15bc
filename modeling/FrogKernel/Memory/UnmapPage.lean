import FrogKernel.Memory.Paging

/-!
# Unmapping (`memory/paging.c`)

`unmap_page` takes one entry out of a table, and gives the table back when it was
the last one.  `unmapPage_present` says what is left in
either case.

Main result: `unmap_undoes_iff`.
-/

namespace FrogKernel.Paging

open FrogKernel.Bytes FrogKernel.PageTables FrogKernel.Pmm

/-- The loop of `unmap_page` over the table: is it empty from entry `i` on, with `n`
entries left? -/
def emptyLoop (s : Machine) (ptVirt : Nat) : Nat → Nat → Option Bool
  | _, 0 => some true
  | i, n + 1 =>
    (load32 s (ptVirt + 4 * i)).bind fun pte =>
      if pte &&& PAGE_PRESENT ≠ 0 then some false else emptyLoop s ptVirt (i + 1) n

/-- What follows when the table is empty. -/
def dropTable (s : Machine) (pdIndex : Nat) : Option Machine :=
  (load32 s (PAGE_DIR_VIRT + 4 * pdIndex)).bind fun pde =>
    (store32 s (PAGE_DIR_VIRT + 4 * pdIndex) 0).bind fun s =>
      (pmmFreeFrame s.pmm (pde &&& 0xfffff000)).map fun pmm => { s with pmm }

def unmapPage (s : Machine) (virt : Nat) : Option Machine :=
  let pdIndex := virt >>> 22
  let ptIndex := (virt >>> 12) &&& 0x3ff
  let ptVirt := RECURSIVE_BASE + pdIndex * 0x1000
  (load32 s (PAGE_DIR_VIRT + 4 * pdIndex)).bind fun pde =>
    if pde &&& PAGE_PRESENT = 0 then some s
    else
      (load32 s (ptVirt + 4 * ptIndex)).bind fun pte =>
        if pte &&& PAGE_PRESENT = 0 then some s
        else
          (store32 s (ptVirt + 4 * ptIndex) 0).bind fun s =>
            (emptyLoop s ptVirt 0 1024).bind fun empty =>
              if empty then dropTable s pdIndex else some s

/-! ## The scan -/

/-- No entry of the table is present. -/
def TableEmpty (m : Mem) (t : Nat) : Prop := ∀ j < 1024, present (entryAt m t j) = false

theorem load32_table {s : Machine} (h : Recursive s.phys s.cr3) {i j : Nat} (hi : i < 1024)
    (hj : j < 1024) (hp : present (entryAt s.phys s.cr3 i) = true) :
    load32 s (RECURSIVE_BASE + i * 0x1000 + 4 * j) =
      some (entryAt s.phys (frameOf (entryAt s.phys s.cr3 i)) j) := by
  rw [load32, RECURSIVE_BASE, translate_window h hi (by omega), if_pos hp]
  rfl

theorem emptyLoop_some {s : Machine} (h : Recursive s.phys s.cr3) {i : Nat} (hi : i < 1024)
    (hp : present (entryAt s.phys s.cr3 i) = true) {j n : Nat} (hn : j + n ≤ 1024) :
    ∃ b, emptyLoop s (RECURSIVE_BASE + i * 0x1000) j n = some b ∧ (b = true ↔ ∀ k, j ≤ k →
      k < j + n → present (entryAt s.phys (frameOf (entryAt s.phys s.cr3 i)) k) = false) := by
  induction n generalizing j with
  | zero => exact ⟨true, rfl, iff_of_true rfl fun k h1 h2 => absurd h1 (by omega)⟩
  | succ n ih =>
    rw [emptyLoop, load32_table h hi (by omega) hp, Option.bind_some]
    simp only [ne_eq, and_present]
    split
    case isTrue hpte =>
      refine ⟨false, rfl, iff_of_false Bool.false_ne_true fun hall => hpte ?_⟩
      exact hall j (Nat.le_refl _) (by omega)
    case isFalse hpte =>
      obtain ⟨b, hb, hiff⟩ := ih (j := j + 1) (by omega)
      refine ⟨b, hb, hiff.trans ⟨fun hall k h1 h2 => ?_, fun hall k h1 h2 => hall k (by omega) (by omega)⟩⟩
      rcases Nat.eq_or_lt_of_le h1 with rfl | hlt
      · exact not_not.mp hpte
      · exact hall k hlt (by omega)

theorem scan_table {s : Machine} (h : Recursive s.phys s.cr3) {i : Nat} (hi : i < 1024)
    (hp : present (entryAt s.phys s.cr3 i) = true) :
    ∃ b, emptyLoop s (RECURSIVE_BASE + i * 0x1000) 0 1024 = some b ∧
      (b = true ↔ TableEmpty s.phys (frameOf (entryAt s.phys s.cr3 i))) := by
  obtain ⟨b, hb, hiff⟩ := emptyLoop_some h hi hp (j := 0) (n := 1024) (Nat.le_refl _)
  refine ⟨b, hb, hiff.trans ⟨fun hall k hk => hall k (Nat.zero_le _) (by omega),
    fun hall k _ hk => hall k (by omega)⟩⟩

/-! ## One entry that is present -/

/-- An entry of the table of `virt` that is neither the one of `virt` in the directory
nor the recursive one can be written without losing the way to the table. -/
theorem setEntry_window {m : Mem} {dir : Nat} (h : Recursive m dir) {virt : Nat} (e : Nat)
    (hkeep : frameOf (dirEntry m dir virt) = dir →
      tabIndex virt ≠ dirIndex virt ∧ tabIndex virt ≠ 1023) :
    Recursive (setEntry m dir virt e) dir ∧
      dirEntry (setEntry m dir virt e) dir virt = dirEntry m dir virt := by
  have hentry : ∀ i < 1024, (frameOf (dirEntry m dir virt) = dir → i ≠ tabIndex virt) →
      entryAt (setEntry m dir virt e) dir i = entryAt m dir i := by
    intro i hi hne
    refine entryAt_writeEntry_ne (frameOf_aligned _) h.aligned (tabIndex_lt virt) hi ?_
    by_cases ht : frameOf (dirEntry m dir virt) = dir
    · exact Or.inr (hne ht)
    · exact Or.inl fun heq => ht heq.symm
  have hself := hentry 1023 (by decide) fun ht => (hkeep ht).2.symm
  exact ⟨⟨hself ▸ h.present, hself ▸ h.frame⟩,
    hentry _ (dirIndex_lt virt) fun ht => (hkeep ht).1.symm⟩

theorem dropTable_eq {s : Machine} (h : Recursive s.phys s.cr3) {i : Nat} (hi : i < 1024) :
    dropTable s i = (pmmFreeFrame s.pmm (frameOf (entryAt s.phys s.cr3 i))).map fun pmm =>
      { s with phys := writeEntry s.phys s.cr3 i 0, pmm } := by
  rw [dropTable, load32_dir h hi, Option.bind_some, store32_dir h hi, Option.bind_some,
    and_mask (entryAt_lt ..)]

/-- **`unmap_page`** of a page that is mapped: its entry goes, and its table with it
when it was the last one. -/
theorem unmapPage_present {s : Machine} (h : Recursive s.phys s.cr3) {virt : Nat}
    (hvirt : virt < 2 ^ 32) (hp : present (dirEntry s.phys s.cr3 virt) = true)
    (hpte : present (entryAt s.phys (frameOf (dirEntry s.phys s.cr3 virt)) (tabIndex virt)) = true)
    (hkeep : frameOf (dirEntry s.phys s.cr3 virt) = s.cr3 →
      tabIndex virt ≠ dirIndex virt ∧ tabIndex virt ≠ 1023) {m : Mem}
    (hm : m = setEntry s.phys s.cr3 virt 0) :
    (TableEmpty m (frameOf (dirEntry s.phys s.cr3 virt)) → unmapPage s virt =
      (pmmFreeFrame s.pmm (frameOf (dirEntry s.phys s.cr3 virt))).map fun pmm =>
        { s with phys := writeEntry m s.cr3 (dirIndex virt) 0, pmm }) ∧
    (¬ TableEmpty m (frameOf (dirEntry s.phys s.cr3 virt)) →
      unmapPage s virt = some { s with phys := m }) := by
  have hi := dirIndex_lt virt
  have hj := tabIndex_lt virt
  obtain ⟨hrec, hdir⟩ := setEntry_window h 0 hkeep
  rw [← hm] at hrec hdir
  have hentry : entryAt m s.cr3 (dirIndex virt) = dirEntry s.phys s.cr3 virt := hdir
  obtain ⟨empty, hscan, hempty⟩ := scan_table (s := { s with phys := m }) hrec hi
    (by rw [hentry]; exact hp)
  have hdrop := dropTable_eq (s := { s with phys := m }) hrec hi
  dsimp only at hempty hdrop
  rw [hentry] at hempty hdrop
  have hunmap : unmapPage s virt =
      if empty then dropTable { s with phys := m } (dirIndex virt) else some { s with phys := m } := by
    simp only [unmapPage, shift_dirIndex hvirt, shift_tabIndex, load32_dir h hi, Option.bind_some,
      load32_table h hi hj hp, and_present, store32_table h hi hj hp]
    rw [dirEntry] at hp hpte
    rw [if_neg (by rw [hp]; exact Bool.true_eq_false.mp), if_neg (by rw [hpte]; exact
      Bool.true_eq_false.mp)]
    rw [hm, setEntry, dirEntry] at hscan ⊢
    rw [hscan, Option.bind_some]
  rw [hunmap]
  cases empty with
  | true => exact ⟨fun _ => hdrop, fun hnot => absurd (hempty.mp rfl) hnot⟩
  | false => exact ⟨fun hall => absurd (hempty.mpr hall) Bool.false_ne_true, fun _ => rfl⟩

/-! ## Entries that are not present -/

/-- Translation does not look at an entry that is not present. -/
theorem translate_absent {m : Mem} {t j e dir : Nat} (ht : t % 4096 = 0) (hj : j < 1024)
    (hdir : dir % 4096 = 0) (hold : present (entryAt m t j) = false) (he : e < 2 ^ 32)
    (hnew : present e = false) (virt : Nat) :
    translate (writeEntry m t j e) dir virt = translate m dir virt := by
  have hentry : ∀ {t' i}, t' % 4096 = 0 → i < 1024 →
      present (entryAt (writeEntry m t j e) t' i) = present (entryAt m t' i) ∧
        (present (entryAt m t' i) = true →
          entryAt (writeEntry m t j e) t' i = entryAt m t' i) := by
    intro t' i ht' hi
    rw [entryAt_writeEntry ht ht' hj hi he]
    split
    case isTrue hsame =>
      rw [hsame.1, hsame.2, hold, hnew]
      exact ⟨rfl, fun hp => absurd hp Bool.false_ne_true⟩
    case isFalse => exact ⟨rfl, fun _ => rfl⟩
  have hd := hentry hdir (dirIndex_lt virt)
  rw [PageTables.translate, PageTables.translate, lookup, lookup, dirEntry, dirEntry, hd.1]
  by_cases hp : present (entryAt m dir (dirIndex virt)) = true
  · rw [hd.2 hp, if_pos hp, if_pos hp]
    have ht' := hentry (frameOf_aligned (entryAt m dir (dirIndex virt))) (tabIndex_lt virt)
    rw [ht'.1]
    split
    case isTrue hp' => rw [ht'.2 hp']
    case isFalse => rfl
  · rw [if_neg hp, if_neg hp]

/-! ## Map and unmap -/

/-- Mapping `virt` and unmapping it leaves no trace. -/
def Undoes (s : Machine) (phys virt flags : Nat) : Prop :=
  ∃ s1 s2, mapPage s phys virt flags = some s1 ∧ unmapPage s1 virt = some s2 ∧
    (∀ v < 2 ^ 32, translate s2.phys s2.cr3 v = translate s.phys s.cr3 v) ∧
    (present (dirEntry s.phys s.cr3 virt) = false →
      present (dirEntry s2.phys s2.cr3 virt) = false ∧
        ∀ frame pmm, pmmAllocFrame s.pmm = some (frame, pmm) → Free s2.pmm (addrToPage frame))

section Undo

variable {s : Machine} {phys virt flags : Nat}

theorem mapPage_present (phys flags : Nat) (h : Recursive s.phys s.cr3) (hvirt : virt < 2 ^ 32)
    (hp : present (dirEntry s.phys s.cr3 virt) = true) : mapPage s phys virt flags =
      some { s with phys := setEntry s.phys s.cr3 virt (pageEntry phys flags) } := by
  have hi := dirIndex_lt virt
  rw [dirEntry] at hp
  simp only [mapPage, shift_dirIndex hvirt, shift_tabIndex, load32_dir h hi, Option.bind_some,
    and_present, hp, Bool.true_eq_false, ↓reduceIte]
  exact store32_table h hi (tabIndex_lt virt) hp

/-- An entry that is not mapped is neither the one of `virt` in the directory nor the
recursive one. -/
theorem unmapped_apart (h : Recursive s.phys s.cr3)
    (hp : present (dirEntry s.phys s.cr3 virt) = true)
    (hnot : ¬ Mapped s.phys s.cr3 virt) : frameOf (dirEntry s.phys s.cr3 virt) = s.cr3 →
      tabIndex virt ≠ dirIndex virt ∧ tabIndex virt ≠ 1023 := by
  intro ht
  rw [Mapped, lookup, if_pos hp, ht] at hnot
  constructor
  · intro heq
    rw [heq] at hnot
    exact hnot hp
  · intro heq
    rw [heq] at hnot
    exact hnot h.present

/-- In a table with another page the entry comes and goes. -/
theorem undoes_present (h : Recursive s.phys s.cr3) (hphys : phys < 2 ^ 32) (hvirt : virt < 2 ^ 32)
    (hp : present (dirEntry s.phys s.cr3 virt) = true) (hnot : ¬ Mapped s.phys s.cr3 virt)
    (hother : ¬ TableEmpty s.phys (frameOf (dirEntry s.phys s.cr3 virt))) :
    Undoes s phys virt flags := by
  have hkeep := unmapped_apart h hp hnot
  have hentry := pageEntry_entry flags hphys
  obtain ⟨hrec, hdir⟩ := setEntry_window h (pageEntry phys flags) hkeep
  have hold : present (entryAt s.phys (frameOf (dirEntry s.phys s.cr3 virt)) (tabIndex virt)) =
      false := by
    rw [Mapped, lookup, if_pos hp] at hnot
    simpa using hnot
  have hmap := mapPage_present phys flags h hvirt hp
  generalize hm1 : setEntry s.phys s.cr3 virt (pageEntry phys flags) = m1 at hmap hrec hdir
  have hback : setEntry m1 s.cr3 virt 0 = setEntry s.phys s.cr3 virt 0 := by
    rw [setEntry, hdir, ← hm1, setEntry, setEntry, writeEntry, writeEntry, write32, write32,
      writeN_writeN]
    rfl
  have hpte : present (entryAt m1 (frameOf (dirEntry s.phys s.cr3 virt)) (tabIndex virt)) = true := by
    rw [← hm1, setEntry, entryAt_writeEntry_self hentry.lt]
    exact hentry.present
  have hunmap := (unmapPage_present (s := { s with phys := m1 }) hrec hvirt (by rw [hdir]; exact hp)
    (by rw [hdir]; exact hpte) (by rw [hdir]; exact hkeep) hback.symm).2
  dsimp only at hunmap
  rw [hdir] at hunmap
  have hal := frameOf_aligned (dirEntry s.phys s.cr3 virt)
  refine ⟨_, _, hmap, hunmap fun hempty => hother fun j hj => ?_, fun v _ => ?_,
    fun habsent => absurd hp (by rw [habsent]; decide)⟩
  · by_cases hjt : j = tabIndex virt
    · rw [hjt]
      exact hold
    · have hkept := hempty j hj
      rwa [setEntry, entryAt_writeEntry_ne hal hal (tabIndex_lt virt) hj (Or.inr hjt)] at hkept
  · exact translate_absent hal (tabIndex_lt virt) h.aligned hold (by decide) rfl v

/-- The window shows the table of a directory entry while the entry is there. -/
theorem translate_table {m : Mem} {dir i : Nat} (h : Recursive m dir) (hi : i < 1024) :
    (translate m dir (0xffc00000 + i * 4096)).isSome = present (entryAt m dir i) := by
  have hwindow := translate_window h hi (o := 0) (by decide)
  rw [Nat.add_zero] at hwindow
  rw [hwindow]
  cases present (entryAt m dir i) <;> rfl

/-- The last page of a table takes the table along: the window no longer shows it. -/
theorem not_undoes_empty (h : Recursive s.phys s.cr3) (hphys : phys < 2 ^ 32)
    (hvirt : virt < 2 ^ 32) (hdir : dirIndex virt < 1020)
    (hp : present (dirEntry s.phys s.cr3 virt) = true)
    (hempty : TableEmpty s.phys (frameOf (dirEntry s.phys s.cr3 virt))) :
    ¬ Undoes s phys virt flags := by
  rintro ⟨s1, s2, hmap, hunmap, htrans, -⟩
  have hi := dirIndex_lt virt
  have hne : frameOf (dirEntry s.phys s.cr3 virt) ≠ s.cr3 := by
    intro ht
    have habsent := hempty 1023 (by decide)
    rw [ht, h.present] at habsent
    cases habsent
  have hentry := pageEntry_entry flags hphys
  obtain ⟨hrec, hdir1⟩ := setEntry_window h (pageEntry phys flags) fun ht => absurd ht hne
  rw [mapPage_present phys flags h hvirt hp, Option.some.injEq] at hmap
  have hal := frameOf_aligned (dirEntry s.phys s.cr3 virt)
  generalize hm1 : setEntry s.phys s.cr3 virt (pageEntry phys flags) = m1 at hmap hrec hdir1
  have hself : entryAt m1 (frameOf (dirEntry s.phys s.cr3 virt)) (tabIndex virt) = pageEntry phys flags := by
    rw [← hm1, setEntry, entryAt_writeEntry_self hentry.lt]
  subst s1
  have hgone : TableEmpty (setEntry m1 s.cr3 virt 0) (frameOf (dirEntry s.phys s.cr3 virt)) := by
    intro j hj
    rw [setEntry, hdir1, entryAt_writeEntry hal hal (tabIndex_lt virt) hj (by decide)]
    split
    case isTrue => rfl
    case isFalse hj' =>
      rw [← hm1, setEntry, entryAt_writeEntry_ne hal hal (tabIndex_lt virt) hj (by tauto)]
      exact hempty j hj
  have hdrop := (unmapPage_present (s := { s with phys := m1 }) hrec hvirt
    (by rw [hdir1]; exact hp) (by rw [hdir1, hself]; exact hentry.present)
    (by rw [hdir1]; exact fun ht => absurd ht hne) rfl).1
  dsimp only at hdrop
  rw [hdir1] at hdrop
  rw [hdrop hgone, Option.map_eq_some_iff] at hunmap
  obtain ⟨pmm, -, rfl⟩ := hunmap
  have hrec2 := (setEntry_window hrec 0 (by rw [hdir1]; exact fun ht => absurd ht hne)).1
  have hseen := congrArg Option.isSome (htrans (0xffc00000 + dirIndex virt * 4096) (by omega))
  dsimp only at hseen
  rw [translate_table (hrec2.writeEntry (by omega) hi) hi, translate_table h hi,
    entryAt_writeEntry_self (by decide), ← dirEntry, hp] at hseen
  cases hseen

/-- A directory that is handed out as a table loses its recursive entry, and the store
into the table faults. -/
theorem mapPage_own (h : Recursive s.phys s.cr3) (hvirt : virt < 2 ^ 32) (hdir : dirIndex virt < 1020)
    (hp : present (dirEntry s.phys s.cr3 virt) = false) {pmm : PmmState}
    (halloc : pmmAllocFrame s.pmm = some (s.cr3, pmm)) : mapPage s phys virt flags = none := by
  have hi := dirIndex_lt virt
  have hentry := tableEntry_entry flags h.aligned (handed_lt (pmmAllocFrame_handed halloc))
  have hrec := h.writeEntry (e := s.cr3 ||| pdFlags flags) (show dirIndex virt ≠ 1023 by omega) hi
  have hself : entryAt (writeEntry s.phys s.cr3 (dirIndex virt) (s.cr3 ||| pdFlags flags)) s.cr3
      (dirIndex virt) = s.cr3 ||| pdFlags flags := entryAt_writeEntry_self hentry.lt
  rw [dirEntry] at hp
  have hset := memset_table (s := ⟨writeEntry s.phys s.cr3 (dirIndex virt) (s.cr3 ||| pdFlags flags),
    pmm, s.cr3⟩) hrec hi (by rw [hself]; exact hentry.present)
  rw [hself, hentry.frameOf] at hset
  simp only [mapPage, shift_dirIndex hvirt, shift_tabIndex, load32_dir h hi, Option.bind_some,
    and_present, hp, ↓reduceIte, halloc, store32_dir (s := { s with pmm }) h hi, hset]
  rw [store32, PageTables.translate, lookup, dirEntry, entryAt_clear h.aligned h.aligned (dirIndex_lt _),
    if_pos rfl]
  rfl

/-- The frame of a new table is in use, so `unmap_page` cannot give it back: it does
not return. -/
theorem unmapPage_newTable (h : Recursive s.phys s.cr3) (hphys : phys < 2 ^ 32)
    (hvirt : virt < 2 ^ 32) (hdir : dirIndex virt < 1020)
    (hp : present (dirEntry s.phys s.cr3 virt) = false) {s1 : Machine}
    (hmap : mapPage s phys virt flags = some s1) : unmapPage s1 virt = none := by
  have hi := dirIndex_lt virt
  by_cases hown : ∃ pmm, pmmAllocFrame s.pmm = some (s.cr3, pmm)
  · obtain ⟨pmm, halloc⟩ := hown
    rw [mapPage_own h hvirt hdir hp halloc] at hmap
    cases hmap
  rw [mapPage_mapAt phys flags h (by omega) hvirt
    (fun frame pmm halloc heq => hown ⟨pmm, heq ▸ halloc⟩), mapAt, if_neg (by simp [hp])] at hmap
  cases halloc : pmmAllocFrame s.pmm with
  | none =>
    rw [halloc] at hmap
    cases hmap
  | some r =>
    obtain ⟨frame, pmm⟩ := r
    have hh := pmmAllocFrame_handed halloc
    have hne : s.cr3 ≠ frame := fun heq => hown ⟨pmm, heq ▸ halloc⟩
    have htable := tableEntry_entry flags hh.aligned (handed_lt hh)
    have hentry := pageEntry_entry flags hphys
    obtain ⟨-, hrec, hself⟩ := store32_newTable (s := { s with pmm }) h (show dirIndex virt < 1023 by omega)
      htable hne
    rw [halloc, Option.map_some, Option.map_some, Option.some.injEq] at hmap
    dsimp only at hmap hrec hself
    have hzero : ∀ j < 1024, entryAt (newTable s.phys s.cr3 (dirIndex virt) frame
        (frame ||| pdFlags flags)) frame j = 0 := fun j hj => by
      rw [newTable, entryAt_clear htable.aligned htable.aligned hj, if_pos rfl]
    generalize newTable s.phys s.cr3 (dirIndex virt) frame (frame ||| pdFlags flags) = m
      at hmap hrec hself hzero
    have hframe : frameOf (dirEntry m s.cr3 virt) = frame := by rw [dirEntry, hself, htable.frameOf]
    obtain ⟨hrec1, hdir1⟩ := setEntry_window hrec (pageEntry phys flags)
      (fun ht => absurd (ht.symm.trans hframe) hne)
    have hpte : entryAt (setEntry m s.cr3 virt (pageEntry phys flags)) frame (tabIndex virt) =
        pageEntry phys flags := by
      rw [setEntry, hframe, entryAt_writeEntry_self hentry.lt]
    have hothers : ∀ j < 1024, j ≠ tabIndex virt →
        entryAt (setEntry m s.cr3 virt (pageEntry phys flags)) frame j = 0 := fun j hj hjt => by
      rw [setEntry, hframe, entryAt_writeEntry_ne htable.aligned htable.aligned (tabIndex_lt virt) hj
        (Or.inr hjt), hzero j hj]
    generalize setEntry m s.cr3 virt (pageEntry phys flags) = m1 at hmap hrec1 hdir1 hpte hothers
    subst s1
    rw [dirEntry, dirEntry, hself] at hdir1
    have hdrop := (unmapPage_present (s := ⟨m1, pmm, s.cr3⟩) hrec1 hvirt
      (by rw [dirEntry, hdir1]; exact htable.present)
      (by rw [dirEntry, hdir1, htable.frameOf, hpte]; exact hentry.present)
      (by rw [dirEntry, hdir1, htable.frameOf]; exact fun ht => absurd ht.symm hne) rfl).1
    dsimp only at hdrop
    rw [dirEntry, hdir1, htable.frameOf, pmmFreeFrame_used hh.used, Option.map_none] at hdrop
    refine hdrop fun j hj => ?_
    rw [setEntry, dirEntry, hdir1, htable.frameOf,
      entryAt_writeEntry htable.aligned htable.aligned (tabIndex_lt virt) hj (by decide)]
    split
    case isTrue => rfl
    case isFalse hjt => rw [hothers j hj (by tauto)]; rfl

/-- **Mapping and unmapping.**  The page comes and goes without a trace when its table
was there and holds another page; otherwise the table is to be freed, which does not
return for a frame in use. -/
theorem unmap_undoes_iff (h : Recursive s.phys s.cr3) (hphys : phys < 2 ^ 32)
    (hvirt : virt < 2 ^ 32) (hdir : dirIndex virt < 1020) (hnot : ¬ Mapped s.phys s.cr3 virt) :
    Undoes s phys virt flags ↔ present (dirEntry s.phys s.cr3 virt) = true ∧
      ∃ j < 1024, present (entryAt s.phys (frameOf (dirEntry s.phys s.cr3 virt)) j) = true := by
  have hother : (∃ j < 1024, present (entryAt s.phys (frameOf (dirEntry s.phys s.cr3 virt)) j) = true) ↔
      ¬ TableEmpty s.phys (frameOf (dirEntry s.phys s.cr3 virt)) := by
    simp only [TableEmpty, not_forall, Bool.not_eq_false, exists_prop]
  rw [hother]
  constructor
  · intro hundo
    by_cases hp : present (dirEntry s.phys s.cr3 virt) = true
    · exact ⟨hp, fun hempty => not_undoes_empty h hphys hvirt hdir hp hempty hundo⟩
    · obtain ⟨s1, s2, hmap, hunmap, -⟩ := hundo
      rw [unmapPage_newTable h hphys hvirt hdir (by simpa using hp) hmap] at hunmap
      cases hunmap
  · rintro ⟨hp, hne⟩
    exact undoes_present h hphys hvirt hp hnot hne

end Undo

/-- Eight frames.  The directory is in frame 1 and its only table in frame 2, with one
page in it; frame 3 is in use. -/
def smallMachine : Machine where
  phys := writeEntry (writeEntry (writeEntry (fun _ => 0) 0x1000 0 (0x2000 + 3)) 0x1000 1023
    (0x1000 + 3)) 0x2000 0 3
  pmm := ⟨8, fun _ => 0b1111, by decide⟩
  cr3 := 0x1000

theorem smallMachine_recursive : Recursive smallMachine.phys smallMachine.cr3 :=
  ⟨by decide +kernel, by decide +kernel⟩

theorem secondPage_undone : Undoes smallMachine 0x3000 0x1000 (PAGE_PRESENT ||| PAGE_RW) :=
  (unmap_undoes_iff smallMachine_recursive (by decide) (by decide) (by decide) (by decide +kernel)).mpr
    ⟨by decide +kernel, 0, by decide, by decide +kernel⟩

/-- The only page of a new table can be mapped, and its unmapping does not return. -/
theorem newTable_stays : Recursive smallMachine.phys smallMachine.cr3 ∧
    ¬ Mapped smallMachine.phys smallMachine.cr3 0x400000 ∧
    (∃ s, mapPage smallMachine 0x3000 0x400000 (PAGE_PRESENT ||| PAGE_RW) = some s ∧
      unmapPage s 0x400000 = none) ∧
    ¬ Undoes smallMachine 0x3000 0x400000 (PAGE_PRESENT ||| PAGE_RW) := by
  have hunmap : ∀ {s}, mapPage smallMachine 0x3000 0x400000 (PAGE_PRESENT ||| PAGE_RW) = some s →
      unmapPage s 0x400000 = none := unmapPage_newTable smallMachine_recursive (by decide)
    (by decide) (by decide) (by decide +kernel)
  have hmap : ∃ s, mapPage smallMachine 0x3000 0x400000 (PAGE_PRESENT ||| PAGE_RW) = some s := by
    have halloc : pmmAllocFrame smallMachine.pmm = some (0x4000, { smallMachine.pmm with
      pmmBitmap := bitSet smallMachine.pmm.pmmBitmap 4 }) := rfl
    rw [mapPage_mapAt _ _ smallMachine_recursive (by decide) (by decide), mapAt,
      if_neg (by decide +kernel), halloc]
    · exact ⟨_, rfl⟩
    · intro frame pmm heq
      rw [halloc] at heq
      cases heq
      decide
  obtain ⟨s, hs⟩ := hmap
  refine ⟨smallMachine_recursive, by decide +kernel, ⟨s, hs, hunmap hs⟩, ?_⟩
  rintro ⟨s1, s2, hs1, hs2, -⟩
  rw [hunmap hs1] at hs2
  cases hs2

end FrogKernel.Paging
