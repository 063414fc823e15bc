import FrogKernel.Memory.KernelAreas
import FrogKernel.Memory.UnmapPage
import FrogKernel.Userspace.AddressSpace

/-!
# Mapping a page and the other translations (`memory/paging.c`, `userspace/uprocess.c`)

`map_page` and `foreign_map_page` both come down to `mapAt`.  A table is shared by all
directory entries that point at it, so a page can be mapped without a trace
elsewhere when its table hangs on one entry only (`OwnTable`).

Main result: `maps_exactly`.
-/

namespace FrogKernel.Translations

open FrogKernel.Bytes FrogKernel.PageTables FrogKernel.Pmm FrogKernel.Paging FrogKernel.Spaces
  FrogKernel.ForeignMap FrogKernel.AddressSpace

/-- `f` is neither the directory nor a table of it. -/
structure NoTable (m : Mem) (dir f : Nat) : Prop where
  apart : f ≠ dir
  table : ∀ j < 1024, present (entryAt m dir j) = true → frameOf (entryAt m dir j) ≠ f

/-- The table of `virt`, if it has one, hangs on its own entry only, and the directory
is no table. -/
structure OwnTable (m : Mem) (dir virt : Nat) : Prop where
  own : present (dirEntry m dir virt) = true → ∀ j < 1020, j ≠ dirIndex virt →
    present (entryAt m dir j) = true → frameOf (entryAt m dir j) ≠ frameOf (dirEntry m dir virt)
  directory : ∀ j < 1020, present (entryAt m dir j) = true → frameOf (entryAt m dir j) ≠ dir

/-- The page of `virt` goes to `phys`, and the other pages below the slots where they
went before. -/
structure Maps (m m' : Mem) (dir phys virt flags : Nat) : Prop where
  target : ∀ v < 2 ^ 32, v / 4096 = virt / 4096 →
    translate m' dir v = some (frameOf phys + v % 4096)
  flags : lookup m' dir virt % 4096 = flags &&& 0xfff ||| PAGE_PRESENT
  others : ∀ v < 2 ^ 32, dirIndex v < 1020 → v / 4096 ≠ virt / 4096 →
    translate m' dir v = translate m dir v

theorem translate_congr {m m' : Mem} {dir virt : Nat} (h : lookup m' dir virt = lookup m dir virt) :
    translate m' dir virt = translate m dir virt := by
  rw [PageTables.translate, PageTables.translate, h]

/-! ## One edit -/

section Edit

variable {m m' : Mem} {pmm pmm' : PmmState} {dir phys virt flags : Nat}

/-- What is looked up after an entry is written in a table of its own. -/
theorem setEntry_own (hdir : dir % 4096 = 0) (hvirt : virt < 2 ^ 32) (hi : dirIndex virt < 1020)
    (hp : present (dirEntry m dir virt) = true) (hown : OwnTable m dir virt) {e : Nat}
    (he : e < 2 ^ 32) {v : Nat} (hv : v < 2 ^ 32) (hvi : dirIndex v < 1020) :
    lookup (setEntry m dir virt e) dir v = if v / 4096 = virt / 4096 then e else lookup m dir v := by
  rw [lookup_setEntry hdir (hown.directory _ hi hp).symm he]
  by_cases hsame : v / 4096 = virt / 4096
  · have hentry : dirEntry m dir v = dirEntry m dir virt := by
      rw [dirEntry, dirIndex_congr hsame, dirEntry]
    rw [if_pos hsame, if_pos ⟨hentry ▸ hp, by rw [hentry], tabIndex_congr hsame⟩]
  · rw [if_neg hsame, if_neg]
    rintro ⟨hpv, hframe, htab⟩
    by_cases hj : dirIndex v = dirIndex virt
    · exact hsame (same_page hv hvirt hj htab)
    · exact hown.own hp _ hvi hj hpv hframe

/-- A new table in a frame that is no table belongs to its entry. -/
theorem newTable_own (hdir : dir % 4096 = 0) (hi : dirIndex virt < 1020)
    (hown : OwnTable m dir virt) {frame e eflags : Nat} (he : Entry e frame eflags)
    (hfresh : NoTable m dir frame) : dirEntry (newTable m dir (dirIndex virt) frame e) dir virt = e ∧
      OwnTable (newTable m dir (dirIndex virt) frame e) dir virt := by
  have hlt : dirIndex virt < 1024 := by omega
  have hentry : ∀ j < 1024, entryAt (newTable m dir (dirIndex virt) frame e) dir j =
      if j = dirIndex virt then e else entryAt m dir j := by
    intro j hj
    rw [entryAt_newTable hdir he.aligned hlt he.lt hdir hj hfresh.apart.symm]
    simp
  have hself : dirEntry (newTable m dir (dirIndex virt) frame e) dir virt = e := by
    rw [dirEntry, hentry _ hlt, if_pos rfl]
  refine ⟨hself, fun _ j hj hne hp => ?_, fun j hj hp => ?_⟩
  · rw [hentry j (by omega), if_neg hne] at hp ⊢
    rw [hself, he.frameOf]
    exact hfresh.table j (by omega) hp
  · rw [hentry j (by omega)] at hp ⊢
    split at hp
    case isTrue hsame =>
      rw [if_pos hsame, he.frameOf]
      exact hfresh.apart
    case isFalse hne =>
      rw [if_neg hne]
      exact hown.directory j hj hp

/-- The other pages of an entry without a table stay unmapped when it gets one. -/
theorem newTable_lookup (hdir : dir % 4096 = 0) (hi : dirIndex virt < 1020)
    (hp : present (dirEntry m dir virt) = false) (hown : OwnTable m dir virt) {frame e eflags : Nat}
    (he : Entry e frame eflags) (hfresh : NoTable m dir frame) {v : Nat} (hvi : dirIndex v < 1020) :
    lookup (newTable m dir (dirIndex virt) frame e) dir v = lookup m dir v := by
  rw [lookup_newTable hdir he.aligned (by omega) he.lt he.frameOf hdir hfresh.apart.symm fun hpv =>
    ⟨hfresh.table _ (dirIndex_lt v) hpv, hown.directory _ hvi hpv⟩]
  split
  case isTrue hsame =>
    have hentry : dirEntry m dir v = dirEntry m dir virt := by rw [dirEntry, hsame.2, dirEntry]
    rw [lookup, hentry, hp]
    rfl
  case isFalse => rfl

/-- **One edit** writes the entry of its page and no other. -/
theorem mapAt_lookup (hdir : dir % 4096 = 0) (hphys : phys < 2 ^ 32) (hvirt : virt < 2 ^ 32)
    (hi : dirIndex virt < 1020) (hown : OwnTable m dir virt)
    (hfresh : ∀ frame pmm1, pmmAllocFrame pmm = some (frame, pmm1) → NoTable m dir frame)
    (h : mapAt m pmm dir virt (pageEntry phys flags) (pdFlags flags) = some (m', pmm')) :
    (present (dirEntry m dir virt) = true ∧ dirEntry m' dir virt = dirEntry m dir virt ∨
      ∃ frame, Entry (dirEntry m' dir virt) frame (pdFlags flags)) ∧
    ∀ v < 2 ^ 32, dirIndex v < 1020 → lookup m' dir v =
      if v / 4096 = virt / 4096 then pageEntry phys flags else lookup m dir v := by
  have hlt := (pageEntry_entry flags hphys).lt
  rcases mapAt_cases h with ⟨hp, rfl, -⟩ | ⟨hp, frame, halloc, rfl⟩
  · have hsame := setEntry_sameDir (e := pageEntry phys flags) hdir (hown.directory _ hi hp).symm
    exact ⟨Or.inl ⟨hp, hsame.dirEntry virt⟩,
      fun v hv hvi => setEntry_own hdir hvirt hi hp hown hlt hv hvi⟩
  · have hh := pmmAllocFrame_handed halloc
    have he := tableEntry_entry flags hh.aligned (handed_lt hh)
    have hnew := hfresh frame pmm' halloc
    obtain ⟨hself, hown'⟩ := newTable_own hdir hi hown he hnew
    have hp' : present (dirEntry (newTable m dir (dirIndex virt) frame (frame ||| pdFlags flags))
        dir virt) = true := by
      rw [hself]
      exact he.present
    have hsame := setEntry_sameDir (e := pageEntry phys flags) hdir (hown'.directory _ hi hp').symm
    refine ⟨Or.inr ⟨frame, ?_⟩, fun v hv hvi => ?_⟩
    · rw [hsame.dirEntry, hself]
      exact he
    · rw [setEntry_own hdir hvirt hi hp' hown' hlt hv hvi, newTable_lookup hdir hi hp hown he hnew hvi]

/-- Another directory that has no part in the edit. -/
theorem mapAt_elsewhere {dir' entry : Nat} (hdir : dir % 4096 = 0) (hdir' : dir' % 4096 = 0)
    (hentry : entry < 2 ^ 32) (hapart : NoTable m dir' dir)
    (htable : present (dirEntry m dir virt) = true → NoTable m dir' (frameOf (dirEntry m dir virt)))
    (hfresh : ∀ frame pmm1, pmmAllocFrame pmm = some (frame, pmm1) →
      NoTable m dir' frame ∧ frame ≠ dir)
    (h : mapAt m pmm dir virt entry (pdFlags flags) = some (m', pmm')) :
    SameDir m m' dir' ∧ ∀ v, lookup m' dir' v = lookup m dir' v := by
  rcases mapAt_cases h with ⟨hp, rfl, -⟩ | ⟨hp, frame, halloc, rfl⟩
  · have hno := htable hp
    refine ⟨setEntry_sameDir hdir' hno.apart.symm, fun v => ?_⟩
    rw [lookup_setEntry hdir' hno.apart.symm hentry, if_neg]
    exact fun hc => hno.table _ (dirIndex_lt v) hc.1 hc.2.1
  · have hh := pmmAllocFrame_handed halloc
    have he := tableEntry_entry flags hh.aligned (handed_lt hh)
    obtain ⟨hnew, hne⟩ := hfresh frame pmm' halloc
    have hi := dirIndex_lt virt
    have hsame : SameDir m (newTable m dir (dirIndex virt) frame (frame ||| pdFlags flags)) dir' := by
      intro j hj
      rw [entryAt_newTable hdir he.aligned hi he.lt hdir' hj hnew.apart.symm,
        if_neg fun hc => hapart.apart hc.1.symm]
    have hself : dirEntry (newTable m dir (dirIndex virt) frame (frame ||| pdFlags flags)) dir virt =
        frame ||| pdFlags flags := by
      rw [dirEntry, entryAt_newTable hdir he.aligned hi he.lt hdir hi hne.symm, if_pos ⟨rfl, rfl⟩]
    have hlookup : ∀ v, lookup (newTable m dir (dirIndex virt) frame (frame ||| pdFlags flags)) dir' v =
        lookup m dir' v := fun v => by
      rw [lookup_newTable hdir he.aligned hi he.lt he.frameOf hdir' hnew.apart.symm fun hpv =>
        ⟨hnew.table _ (dirIndex_lt v) hpv, hapart.table _ (dirIndex_lt v) hpv⟩,
        if_neg fun hc => hapart.apart hc.1.symm]
    generalize newTable m dir (dirIndex virt) frame (frame ||| pdFlags flags) = m1 at *
    have hframe : frameOf (dirEntry m1 dir virt) = frame := by rw [hself, he.frameOf]
    have hdirs := setEntry_sameDir (e := entry) hdir' (hframe ▸ hnew.apart.symm)
    refine ⟨fun j hj => (hdirs j hj).trans (hsame j hj), fun v => ?_⟩
    rw [lookup_setEntry hdir' (hframe ▸ hnew.apart.symm) hentry, if_neg, hlookup]
    rintro ⟨hpv, heq, -⟩
    rw [hsame.dirEntry] at hpv heq
    exact hnew.table _ (dirIndex_lt v) hpv (heq.trans hframe)

end Edit

/-! ## The two operations -/

/-- What is owed to the caller of a map operation: `r` is how it came back. -/
structure Outcome (s : Machine) (dir phys virt flags : Nat) (r : Option Machine) : Prop where
  returns : r = none ↔ present (dirEntry s.phys dir virt) = false ∧ pmmAllocFrame s.pmm = none
  maps : ∀ s', r = some s' → Maps s.phys s'.phys dir phys virt flags
  frame : ∀ s', r = some s' → if present (dirEntry s.phys dir virt) = true then s'.pmm = s.pmm
    else ∃ frame, Handed s.pmm frame s'.pmm
  user : ∀ s', r = some s' → flags &&& PAGE_USER ≠ 0 → dirIndex virt < 768 →
    (∀ i < 768, present (entryAt s.phys dir i) = true → userBit (entryAt s.phys dir i) = true) →
    UserMapped s'.phys dir virt

/-- The state in which `map_page` is called. -/
structure MapReady (s : Machine) (virt : Nat) : Prop where
  recursive : Recursive s.phys s.cr3
  own : OwnTable s.phys s.cr3 virt
  fresh : ∀ frame pmm, pmmAllocFrame s.pmm = some (frame, pmm) → NoTable s.phys s.cr3 frame

/-- The state in which `foreign_map_page` is called: the target directory is a frame of
its own, and the slots are empty. -/
structure ForeignReady (s : Machine) (pd virt : Nat) : Prop where
  recursive : Recursive s.phys s.cr3
  slots : ∀ i, IsSlot i → entryAt s.phys s.cr3 i = 0
  aligned : pd % 4096 = 0
  lt : pd < 2 ^ 32
  apart : NoTable s.phys s.cr3 pd
  own : OwnTable s.phys pd virt
  table : present (dirEntry s.phys pd virt) = true →
    NoTable s.phys s.cr3 (frameOf (dirEntry s.phys pd virt))
  fresh : ∀ frame pmm, pmmAllocFrame s.pmm = some (frame, pmm) →
    NoTable s.phys s.cr3 frame ∧ NoTable s.phys pd frame

theorem user_and (flags : Nat) : flags &&& PAGE_USER ≠ 0 ↔ userBit flags = true := by
  have hbit : flags &&& PAGE_USER = if userBit flags then 4 else 0 := by
    have htest := Nat.and_two_pow flags 2
    rw [Nat.testBit_eq_decide_div_mod_eq] at htest
    rw [PAGE_USER, userBit, beq_eq_decide]
    change flags &&& 2 ^ 2 = _
    rw [htest]
    cases decide (flags / 2 ^ 2 % 2 = 1) <;> rfl
  rw [hbit]
  cases userBit flags <;> simp

section Operations

variable {s : Machine} {phys virt flags : Nat}

theorem Maps.of_lookup {m m' : Mem} {dir : Nat} (hphys : phys < 2 ^ 32) (hvirt : virt < 2 ^ 32)
    (hi : dirIndex virt < 1020) (h : ∀ v < 2 ^ 32, dirIndex v < 1020 → lookup m' dir v =
      if v / 4096 = virt / 4096 then pageEntry phys flags else lookup m dir v) :
    Maps m m' dir phys virt flags := by
  have hentry := pageEntry_entry flags hphys
  refine ⟨fun v hv hsame => ?_, ?_, fun v hv hvi hne => translate_congr ?_⟩
  · rw [PageTables.translate, h v hv (dirIndex_congr hsame ▸ hi), if_pos hsame,
      if_pos hentry.present, hentry.frameOf]
  · rw [h virt hvirt hi, if_pos rfl, hentry.flags_eq]
    exact congrArg (· ||| 1) (Nat.and_two_pow_sub_one_eq_mod flags 12).symm
  · rw [h v hv hvi, if_neg hne]

/-- The user bits after an edit with `PAGE_USER`. -/
theorem userMapped_of_lookup {m m' : Mem} {dir : Nat} (hphys : phys < 2 ^ 32)
    (huser : flags &&& PAGE_USER ≠ 0)
    (hbit : present (dirEntry m dir virt) = true → userBit (dirEntry m dir virt) = true)
    (hdir : present (dirEntry m dir virt) = true ∧ dirEntry m' dir virt = dirEntry m dir virt ∨
      ∃ frame, Entry (dirEntry m' dir virt) frame (pdFlags flags))
    (hlookup : lookup m' dir virt = pageEntry phys flags) : UserMapped m' dir virt := by
  have hentry := pageEntry_entry flags hphys
  have hflag : ((flags % 4096 ||| 1) / 4 % 2 == 1) = true := by
    have hbitOf := (user_and flags).mp huser
    have hor : (flags % 4096 ||| 1) / 4 = flags % 4096 / 4 := by
      have hdiv := Nat.or_div_two_pow (a := flags % 4096) (b := 1) (n := 2)
      simpa using hdiv
    simp only [userBit, beq_iff_eq] at hbitOf ⊢
    omega
  have hpage : present (lookup m' dir virt) = true ∧ userBit (lookup m' dir virt) = true := by
    rw [hlookup, userBit_entry hentry, hflag]
    exact ⟨hentry.present, rfl⟩
  rcases hdir with ⟨hp, hsame⟩ | ⟨frame, he⟩
  · exact ⟨hsame ▸ hp, hsame ▸ hbit hp, hpage⟩
  · refine ⟨he.present, ?_, hpage⟩
    rw [userBit_entry he, pdFlags, if_pos huser]
    rfl

/-- An edit and its outcome: what the operation leaves behind is seen as `m'`. -/
theorem Outcome.of_mapAt {dir : Nat} {r : Option Machine} (hdir : dir % 4096 = 0)
    (hphys : phys < 2 ^ 32) (hvirt : virt < 2 ^ 32) (hi : dirIndex virt < 1020)
    (hown : OwnTable s.phys dir virt)
    (hfresh : ∀ frame pmm, pmmAllocFrame s.pmm = some (frame, pmm) → NoTable s.phys dir frame)
    (hnone : mapAt s.phys s.pmm dir virt (pageEntry phys flags) (pdFlags flags) = none → r = none)
    (hsome : ∀ m pmm, mapAt s.phys s.pmm dir virt (pageEntry phys flags) (pdFlags flags) =
      some (m, pmm) → ∃ s', r = some s' ∧ s'.pmm = pmm ∧ SameDir m s'.phys dir ∧
        ∀ v, lookup s'.phys dir v = lookup m dir v) :
    Outcome s dir phys virt flags r := by
  cases hat : mapAt s.phys s.pmm dir virt (pageEntry phys flags) (pdFlags flags) with
  | none =>
    obtain rfl := hnone hat
    exact ⟨iff_of_true rfl (mapAt_none.mp hat), nofun, nofun, nofun⟩
  | some r' =>
    obtain ⟨m, pmm⟩ := r'
    obtain ⟨s1, rfl, hpmm, hsame, hseen⟩ := hsome m pmm hat
    obtain ⟨hentry, hlookup⟩ := mapAt_lookup hdir hphys hvirt hi hown hfresh hat
    have hmaps : ∀ v < 2 ^ 32, dirIndex v < 1020 → lookup s1.phys dir v =
        if v / 4096 = virt / 4096 then pageEntry phys flags else lookup s.phys dir v :=
      fun v hv hvi => (hseen v).trans (hlookup v hv hvi)
    refine ⟨⟨nofun, fun hno => ?_⟩, ?_, ?_, ?_⟩
    · rw [mapAt_none.mpr hno] at hat
      cases hat
    · rintro s' ⟨rfl⟩
      exact .of_lookup hphys hvirt hi hmaps
    · rintro s' ⟨rfl⟩
      rw [hpmm]
      rcases mapAt_cases hat with ⟨hp, -, rfl⟩ | ⟨hp, frame, halloc, -⟩
      · rw [if_pos hp]
      · rw [if_neg (by simp [hp])]
        exact ⟨frame, pmmAllocFrame_handed halloc⟩
    · rintro s' ⟨rfl⟩ huser hlow hbits
      rw [← hsame.dirEntry] at hentry
      exact userMapped_of_lookup hphys huser (hbits _ hlow) hentry
        ((hmaps virt hvirt hi).trans (if_pos rfl))

theorem mapPage_outcome (hphys : phys < 2 ^ 32) (hvirt : virt < 2 ^ 32) (hi : dirIndex virt < 1020)
    (h : MapReady s virt) : Outcome s s.cr3 phys virt flags (mapPage s phys virt flags) := by
  have hmap := mapPage_mapAt phys flags h.recursive (by omega) hvirt
    fun frame pmm halloc heq => (h.fresh frame pmm halloc).apart heq.symm
  refine .of_mapAt h.recursive.aligned hphys hvirt hi h.own h.fresh (fun hnone => ?_)
    fun m pmm hsome => ⟨{ s with phys := m, pmm }, ?_, rfl, fun _ _ => rfl, fun _ => rfl⟩
  · rw [hmap, hnone, Option.map_none]
  · rw [hmap, hsome, Option.map_some]

/-- Memories with the same entries everywhere show the same tables. -/
theorem lookup_entries {m m' : Mem} (h : ∀ t i, t % 4096 = 0 → i < 1024 →
    entryAt m' t i = entryAt m t i) {dir : Nat} (hdir : dir % 4096 = 0) (v : Nat) :
    lookup m' dir v = lookup m dir v := by
  have hentry : dirEntry m' dir v = dirEntry m dir v := h dir _ hdir (dirIndex_lt v)
  rw [lookup, lookup, hentry, h _ _ (frameOf_aligned _) (tabIndex_lt v)]

/-- What `foreign_map_page` leaves in the current address space. -/
structure Restored (s s' : Machine) : Prop where
  cr3 : s'.cr3 = s.cr3
  current : ∀ v < 2 ^ 32, translate s'.phys s'.cr3 v = translate s.phys s.cr3 v
  slots : ∀ i, IsSlot i → entryAt s'.phys s'.cr3 i = 0

theorem foreignMapPage_outcome {pd : Nat} (hphys : phys < 2 ^ 32) (hvirt : virt < 2 ^ 32)
    (hi : dirIndex virt < 1020) (h : ForeignReady s pd virt) :
    Outcome s pd phys virt flags (foreignMapPage s pd phys virt flags).toOption ∧
      ∀ s', foreignMapPage s pd phys virt flags = .ok s' → Restored s s' := by
  have hal := h.recursive.aligned
  obtain ⟨hnone, hsome⟩ := foreignMapPage_edited phys flags h.recursive h.aligned h.lt h.apart.apart
    (fun frame pmm halloc => ⟨(h.fresh frame pmm halloc).1.apart, (h.fresh frame pmm halloc).2.apart⟩)
    hvirt fun hp => (h.table hp).apart
  have hall : ∀ m pmm, mapAt s.phys s.pmm pd virt (pageEntry phys flags) (pdFlags flags) =
      some (m, pmm) → ∃ s', foreignMapPage s pd phys virt flags = .ok s' ∧ s'.pmm = pmm ∧
        (∀ t i, t % 4096 = 0 → i < 1024 → entryAt s'.phys t i = entryAt m t i) ∧ Restored s s' := by
    intro m pmm hat
    obtain ⟨s', hcall, hedit, hempty⟩ := hsome m pmm hat
    obtain ⟨hsame, hseen⟩ := mapAt_elsewhere h.aligned hal (pageEntry_entry flags hphys).lt
      h.apart h.table (fun frame pmm halloc =>
        ⟨(h.fresh frame pmm halloc).1, (h.fresh frame pmm halloc).2.apart⟩) hat
    have hslots : ∀ i, IsSlot i → entryAt s'.phys s.cr3 i = 0 := by
      intro i hslot
      have hcases : i = TEMP_PD_SLOT ∨ i = TEMP_FRAME_SLOT ∨ i = TEMP_PT_SLOT := by
        simp only [IsSlot, TEMP_PD_SLOT, TEMP_FRAME_SLOT, TEMP_PT_SLOT, RECURSIVE_SLOT] at *
        omega
      rcases hcases with rfl | rfl | rfl
      · exact hempty.pd
      · exact hempty.frame.trans (h.slots _ frame_slot)
      · exact hempty.pt
    have hentries : ∀ t i, t % 4096 = 0 → i < 1024 → entryAt s'.phys t i = entryAt m t i := by
      intro t i ht hilt
      by_cases hslot : t = s.cr3 ∧ IsSlot i
      · obtain ⟨rfl, hslot⟩ := hslot
        rw [hslots i hslot, hsame i hilt, h.slots i hslot]
      · exact hedit.off.entry hal ht hilt fun heq hs => hslot ⟨heq, hs⟩
    refine ⟨s', hcall, hedit.pmm, hentries, hedit.cr3, fun v _ => ?_, fun i hslot => ?_⟩
    · rw [hedit.cr3]
      exact translate_congr ((lookup_entries hentries hal v).trans (hseen v))
    · rw [hedit.cr3]
      exact hslots i hslot
  constructor
  · refine .of_mapAt h.aligned hphys hvirt hi h.own (fun frame pmm halloc =>
      (h.fresh frame pmm halloc).2) (fun hat => ?_) fun m pmm hat => ?_
    · rw [hnone hat]
      rfl
    · obtain ⟨s', hcall, hpmm, hentries, -⟩ := hall m pmm hat
      refine ⟨s', ?_, hpmm, fun j hj => hentries pd j h.aligned hj,
        fun v => lookup_entries hentries h.aligned v⟩
      rw [hcall]
      rfl
  · intro s' hcall
    cases hat : mapAt s.phys s.pmm pd virt (pageEntry phys flags) (pdFlags flags) with
    | none =>
      rw [hnone hat] at hcall
      cases hcall
    | some r =>
      obtain ⟨s1, hcall1, -, -, hrest⟩ := hall r.1 r.2 hat
      rw [hcall1] at hcall
      cases hcall
      exact hrest

/-- **Mapping a page.**  Both operations map their page and no other, take a frame when
the table is missing, and the foreign one leaves the current address space as it was. -/
theorem maps_exactly (hphys : phys < 2 ^ 32) (hvirt : virt < 2 ^ 32) (hi : dirIndex virt < 1020) :
    (MapReady s virt → Outcome s s.cr3 phys virt flags (mapPage s phys virt flags)) ∧
    ∀ pd, ForeignReady s pd virt →
      Outcome s pd phys virt flags (foreignMapPage s pd phys virt flags).toOption ∧
      ∀ s', foreignMapPage s pd phys virt flags = .ok s' → Restored s s' :=
  ⟨mapPage_outcome hphys hvirt hi, fun _ h => foreignMapPage_outcome hphys hvirt hi h⟩

end Operations

/-! ## Two machines -/

theorem smallMachine_alloc {frame : Nat} {pmm : PmmState}
    (h : pmmAllocFrame smallMachine.pmm = some (frame, pmm)) : frame = 0x4000 := by
  have halloc : pmmAllocFrame smallMachine.pmm = some (0x4000, { smallMachine.pmm with
    pmmBitmap := bitSet smallMachine.pmm.pmmBitmap 4 }) := rfl
  rw [halloc] at h
  exact (Prod.mk.inj (Option.some.inj h)).1.symm

theorem smallMachine_entry {t j : Nat} (ht : t % 4096 = 0) (hj : j < 1024) :
    entryAt smallMachine.phys t j = if t = 0x2000 ∧ j = 0 then 3
      else if t = 0x1000 ∧ j = 1023 then 0x1003 else if t = 0x1000 ∧ j = 0 then 0x2003 else 0 := by
  rw [smallMachine, entryAt_writeEntry (by decide) ht (by decide) hj (by decide),
    entryAt_writeEntry (by decide) ht (by decide) hj (by decide),
    entryAt_writeEntry (by decide) ht (by decide) hj (by decide)]
  rfl

theorem smallMachine_table {j : Nat} (hj : j < 1024)
    (hp : present (entryAt smallMachine.phys 0x1000 j) = true) :
    j = 0 ∧ frameOf (entryAt smallMachine.phys 0x1000 j) = 0x2000 ∨
      j = 1023 ∧ frameOf (entryAt smallMachine.phys 0x1000 j) = 0x1000 := by
  rw [smallMachine_entry (by decide) hj] at hp ⊢
  by_cases h0 : j = 0
  · subst h0
    exact Or.inl ⟨rfl, rfl⟩
  · by_cases h1 : j = 1023
    · subst h1
      exact Or.inr ⟨rfl, rfl⟩
    · simp [h0, h1] at hp

/-- Frame 3 is zero. -/
theorem smallMachine_empty {j : Nat} (hj : j < 1024) : entryAt smallMachine.phys 0x3000 j = 0 := by
  simp [smallMachine_entry, hj]

theorem smallMachine_noTable {f : Nat} (h1 : f ≠ 0x1000) (h2 : f ≠ 0x2000) :
    NoTable smallMachine.phys 0x1000 f := by
  refine ⟨h1, fun j hj hp => ?_⟩
  rcases smallMachine_table hj hp with ⟨-, heq⟩ | ⟨-, heq⟩ <;> rw [heq]
  · exact h2.symm
  · exact h1.symm

theorem smallMachine_ready : MapReady smallMachine 0x1000 := by
  refine ⟨smallMachine_recursive, ⟨fun _ j hj hne hp => ?_, fun j hj hp => ?_⟩,
    fun frame pmm halloc => ?_⟩
  · rcases smallMachine_table (show j < 1024 by omega) hp with ⟨rfl, -⟩ | ⟨rfl, -⟩
    · exact absurd rfl hne
    · omega
  · rcases smallMachine_table (show j < 1024 by omega) hp with ⟨-, heq⟩ | ⟨rfl, -⟩
    · exact heq ▸ by decide
    · omega
  · exact smallMachine_alloc halloc ▸ smallMachine_noTable (by decide) (by decide)

theorem smallMachine_foreignReady : ForeignReady smallMachine 0x3000 0x1000 where
  recursive := smallMachine_recursive
  slots i hi := by
    have h1 : i ≠ 0 := fun heq => absurd hi.1 (by rw [heq]; decide)
    have h2 : i ≠ 1023 := hi.ne
    rw [show smallMachine.cr3 = 0x1000 from rfl, smallMachine_entry (by decide) hi.lt]
    simp [h1, h2]
  aligned := by decide
  lt := by decide
  apart := smallMachine_noTable (by decide) (by decide)
  own := by
    have hnone : ∀ j < 1020, present (entryAt smallMachine.phys 0x3000 j) ≠ true := fun j hj => by
      simp [smallMachine_empty (show j < 1024 by omega)]
    exact ⟨fun hp => absurd hp (hnone 0 (by decide)), fun j hj hp => absurd hp (hnone j hj)⟩
  table hp := by
    rw [dirEntry, smallMachine_empty (dirIndex_lt _)] at hp
    cases hp
  fresh frame pmm halloc := by
    rw [smallMachine_alloc halloc]
    refine ⟨smallMachine_noTable (by decide) (by decide), by decide, fun j hj hp => ?_⟩
    rw [smallMachine_empty hj] at hp
    cases hp

/-- Frame 3 is an empty directory, and the page goes into it as well. -/
theorem secondPage_maps :
    (∃ s, mapPage smallMachine 0x5000 0x1000 (PAGE_RW ||| PAGE_USER) = some s ∧
      translate s.phys 0x1000 0x1004 = some 0x5004) ∧
    ∃ s, foreignMapPage smallMachine 0x3000 0x5000 0x1000 (PAGE_RW ||| PAGE_USER) = .ok s ∧
      UserMapped s.phys 0x3000 0x1000 ∧ Restored smallMachine s := by
  have hphys : 0x5000 < 2 ^ 32 := by decide
  have hvirt : 0x1000 < 2 ^ 32 := by decide
  obtain ⟨hown, hforeign⟩ :=
    @maps_exactly smallMachine 0x5000 0x1000 (PAGE_RW ||| PAGE_USER) hphys hvirt (by decide)
  have hmap := hown smallMachine_ready
  obtain ⟨hmap', hrest⟩ := hforeign 0x3000 smallMachine_foreignReady
  constructor
  · obtain ⟨s, hs⟩ := Option.ne_none_iff_exists'.mp fun hnone =>
      absurd (hmap.returns.mp hnone).2 (by decide)
    exact ⟨s, hs, (hmap.maps s hs).target 0x1004 (by decide) (by decide)⟩
  · obtain ⟨s, hs⟩ := Option.ne_none_iff_exists'.mp fun hnone =>
      absurd (hmap'.returns.mp hnone).2 (by decide)
    have hcall : foreignMapPage smallMachine 0x3000 0x5000 0x1000 (PAGE_RW ||| PAGE_USER) = .ok s := by
      cases hr : foreignMapPage smallMachine 0x3000 0x5000 0x1000 (PAGE_RW ||| PAGE_USER) with
      | error e => rw [hr] at hs; cases hs
      | ok s' => rw [hr] at hs; rw [Option.some.inj hs]
    refine ⟨s, hcall, hmap'.user s hs (by decide) (by decide) fun i hi hp => ?_, hrest s hcall⟩
    rw [smallMachine_empty (show i < 1024 by omega)] at hp
    cases hp

/-- The table at boot hangs on two entries: a page of the kernel half takes one of the
identity mapping along. -/
theorem sharedTable_maps : Recursive KernelAreas.bootMachine.phys KernelAreas.bootMachine.cr3 ∧
    (∀ frame pmm, pmmAllocFrame KernelAreas.bootMachine.pmm = some (frame, pmm) →
      NoTable KernelAreas.bootMachine.phys KernelAreas.bootMachine.cr3 frame) ∧
    ∃ s, mapPage KernelAreas.bootMachine 0x800000 0xc0001000 (PAGE_PRESENT ||| PAGE_RW) = some s ∧
      translate KernelAreas.bootMachine.phys KernelAreas.bootMachine.cr3 0x1000 = some 0x1000 ∧
      translate s.phys s.cr3 0x1000 = some 0x800000 := by
  refine ⟨KernelAreas.bootMachine_tables.recursive, fun frame pmm halloc => ?_, _,
    mapPage_present _ _ KernelAreas.bootMachine_tables.recursive (by decide) (by decide +kernel),
    by decide +kernel, by decide +kernel⟩
  have hh := (pmmAllocFrame_handed halloc).free
  refine ⟨?_, fun j hj hp heq => ?_⟩
  · rintro rfl
    exact absurd hh (by decide)
  · exact KernelAreas.bootMachine_tables.used j hj hp (heq ▸ hh)

end FrogKernel.Translations
