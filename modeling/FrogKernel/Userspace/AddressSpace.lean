import FrogKernel.Userspace.ForeignMap

/-!
# An address space being built

The lower 768 directory entries of a new directory are the user half.
`Building s₀ role s pd` says what holds between `uprocess_create_pagedir`, called in
`s₀`, and the end of `uprocess_load`: the frames with a role were free in `s₀`, the
others still have their bytes, and the upper half of `pd` is that of `s₀`.

Each operation is one lemma: it runs out of frames or goes through, and then the
invariant holds again.
-/

namespace FrogKernel.AddressSpace

open FrogKernel.Bytes FrogKernel.PageTables FrogKernel.Pmm FrogKernel.Paging FrogKernel.Spaces
  FrogKernel.ForeignMap

/-- The kernel can reach foreign frames: the loaded directory is in use and shows
itself, and the slot for tables is empty. -/
structure Ready (s : Machine) : Prop where
  recursive : Recursive s.phys s.cr3
  used : ¬ Free s.pmm (addrToPage s.cr3)
  closed : present (entryAt s.phys s.cr3 TEMP_PT_SLOT) = false

/-- Entry `i` of the upper half of a directory made in `s₀`. -/
def upperEntry (s₀ : Machine) (pd i : Nat) : Nat :=
  if i = RECURSIVE_SLOT then pd ||| PAGE_PRESENT ||| PAGE_RW
  else if i = TEMP_PD_SLOT then 0
  else entryAt s₀.phys s₀.cr3 i

structure Building (s₀ : Machine) (role : Nat → Option Role) (s : Machine) (pd : Nat) : Prop where
  ready : Ready s
  cr3 : s.cr3 = s₀.cr3
  loaded : role s.cr3 = none
  space : Space 768 role s.phys pd
  frame : ∀ f, role f ≠ none → f % 4096 = 0 ∧ f < 2 ^ 32
  taken : ∀ f, role f ≠ none → Free s₀.pmm (addrToPage f) ∧ ¬ Free s.pmm (addrToPage f)
  fewer : ∀ i, Free s.pmm i → Free s₀.pmm i
  elsewhere : ∀ x, role (frameOf x) = none → ¬ SlotByte s₀.cr3 x → s.phys x = s₀.phys x
  upper : ∀ i < 1024, 768 ≤ i → entryAt s.phys pd i = upperEntry s₀ pd i

/-! ## Enough frames -/

/-- `s'` has at most `n` frames less than `s`. -/
def Uses (n : Nat) (s s' : Machine) : Prop := ∀ m, Spare (m + n) s.pmm → Spare m s'.pmm

theorem Uses.refl (s : Machine) : Uses 0 s s := fun _ h => h

theorem Uses.same {s s' : Machine} (h : s'.pmm = s.pmm) : Uses 0 s s' := fun m hm => by
  rw [h]
  exact hm

theorem Uses.mono {s s' : Machine} {m n : Nat} (h : Uses m s s') (hle : m ≤ n) : Uses n s s' :=
  fun k hk => h k (hk.mono (by omega))

theorem Uses.trans {s s' s'' : Machine} {m n : Nat} (h : Uses m s s') (h' : Uses n s' s'') :
    Uses (m + n) s s'' := fun k hk => h' k (h (k + n) (hk.mono (by omega)))

theorem Uses.of_alloc {s s' : Machine} {f : Nat} (h : pmmAllocFrame s.pmm = some (f, s'.pmm)) :
    Uses 1 s s' := fun _ hm => hm.alloc h

/-- `x` is a byte of a page of the address space. -/
def PageByte (role : Nat → Option Role) (x : Nat) : Prop := ∃ v, role (frameOf x) = some (.page v)

/-- `role'` has the roles of `role`. -/
def MoreRoles (role role' : Nat → Option Role) : Prop := ∀ f r, role f = some r → role' f = some r

theorem MoreRoles.unused {role role' : Nat → Option Role} (h : MoreRoles role role') {f : Nat}
    (hf : role' f = none) : role f = none := by
  cases hr : role f with
  | none => rfl
  | some r => rw [h f r hr] at hf; cases hf

theorem MoreRoles.update {role : Nat → Option Role} {f : Nat} (hf : role f = none) (r : Role) :
    MoreRoles role (Function.update role f (some r)) := by
  intro f' r' hr
  rw [Function.update_of_ne, hr]
  rintro rfl
  rw [hf] at hr
  cases hr

theorem PageByte.mono {role role' : Nat → Option Role} (h : MoreRoles role role') {x : Nat}
    (hx : PageByte role x) : PageByte role' x := by
  obtain ⟨v, hv⟩ := hx
  exact ⟨v, h _ _ hv⟩

section Building

variable {s₀ s : Machine} {role role' : Nat → Option Role} {pd : Nat}

theorem Building.pd_frame (h : Building s₀ role s pd) :
    pd % 4096 = 0 ∧ pd < 2 ^ 32 ∧ pd ≠ s.cr3 ∧ ¬ Free s.pmm (addrToPage pd) := by
  have hdir : role pd ≠ none := by
    rw [h.space.directory]
    simp
  refine ⟨h.space.aligned, (h.frame pd hdir).2, ?_, (h.taken pd hdir).2⟩
  rintro rfl
  exact hdir h.loaded

/-- A frame with a role is not the loaded directory. -/
theorem Building.apart (h : Building s₀ role s pd) {f : Nat} (hf : role f ≠ none) :
    f % 4096 = 0 ∧ f < 2 ^ 32 ∧ f ≠ s.cr3 := by
  obtain ⟨hal, hlt⟩ := h.frame f hf
  refine ⟨hal, hlt, ?_⟩
  rintro rfl
  exact hf h.loaded

/-- The frames in use, with one that was just handed out. -/
theorem Building.handed (h : Building s₀ role s pd) {f : Nat} {pmm : PmmState}
    (hh : Handed s.pmm f pmm) {r : Role} {f' : Nat}
    (hf' : Function.update role f (some r) f' ≠ none) :
    (f' % 4096 = 0 ∧ f' < 2 ^ 32) ∧ Free s₀.pmm (addrToPage f') ∧ ¬ Free pmm (addrToPage f') := by
  by_cases heq : f' = f
  · subst heq
    exact ⟨⟨hh.aligned, handed_lt hh⟩, h.fewer _ hh.free, hh.used⟩
  · rw [Function.update_of_ne heq] at hf'
    obtain ⟨htaken, hused⟩ := h.taken f' hf'
    exact ⟨h.frame f' hf', htaken, fun hfree => hused (hh.fewer _ hfree)⟩

/-- An operation that wrote `m`, a memory in which the address space is as it
should be with the roles of `role'`. -/
theorem Building.edited (h : Building s₀ role s pd) (hmore : MoreRoles role role') {m : Mem}
    {pmm : PmmState} {s' : Machine} (he : Edited s m pmm s') (hspace : Space 768 role' m pd)
    (hloaded : role' s.cr3 = none) (helse : ∀ x, role' (frameOf x) = none → m x = s.phys x)
    (hupper : ∀ i < 1024, 768 ≤ i → entryAt m pd i = entryAt s.phys pd i)
    (hframe : ∀ f, role' f ≠ none → f % 4096 = 0 ∧ f < 2 ^ 32)
    (htaken : ∀ f, role' f ≠ none → Free s₀.pmm (addrToPage f) ∧ ¬ Free pmm (addrToPage f))
    (hfewer : ∀ i, Free pmm i → Free s.pmm i) :
    Building s₀ role' s' pd ∧
      (∀ virt, dirIndex virt < 768 → lookup s'.phys pd virt = lookup m pd virt) ∧
      ∀ x, role' (frameOf x) ≠ none → s'.phys x = m x := by
  have hal := h.ready.recursive.aligned
  have hself : ∀ i < 1024, entryAt m s.cr3 i = entryAt s.phys s.cr3 i := fun i hi =>
    entryAt_congr hal hi fun x hx => helse x (by rw [hx]; exact hloaded)
  have hrec : Recursive m s.cr3 :=
    ⟨(hself 1023 (by decide)).symm ▸ h.ready.recursive.present,
      (hself 1023 (by decide)).symm ▸ h.ready.recursive.frame⟩
  have hbytes : ∀ x, role' (frameOf x) ≠ none → s'.phys x = m x := by
    intro x hx
    refine he.off x fun hslot => hx ?_
    have hxframe : frameOf x = s.cr3 := by
      simp only [SlotByte, TEMP_PD_SLOT, RECURSIVE_SLOT] at hslot
      simp only [frameOf]
      omega
    rw [hxframe]
    exact hloaded
  have hrole : ∀ x, (role' (frameOf x) = some .dir ∨ ∃ i, role' (frameOf x) = some (.table i)) →
      s'.phys x = m x := fun x hx => hbytes x (by rcases hx with hx | ⟨i, hx⟩ <;> simp [hx])
  obtain ⟨hspace', hlookup⟩ := hspace.same hrole
  have hpd := hspace.aligned
  refine ⟨⟨⟨he.recursive hrec, ?_, ?_⟩, he.cr3.trans h.cr3, he.cr3 ▸ hloaded, hspace', hframe, ?_, ?_,
    ?_, ?_⟩, hlookup, hbytes⟩
  · rw [he.pmm, he.cr3]
    exact fun hfree => h.ready.used (hfewer _ hfree)
  · rw [he.cr3]
    exact he.closed h.ready.closed
  · rw [he.pmm]
    exact htaken
  · rw [he.pmm]
    exact fun i hi => h.fewer i (hfewer i hi)
  · intro x hx hslot
    rw [he.off x (by rw [h.cr3]; exact hslot), helse x hx]
    exact h.elsewhere x (hmore.unused hx) hslot
  · intro i hi hlow
    have hdir : role' pd = some .dir := hspace.directory
    rw [entryAt_congr hpd hi fun x hx => hbytes x (by rw [hx, hdir]; simp), hupper i hi hlow]
    exact h.upper i hi hlow

/-! ## Frames -/

theorem Building.alloc (h : Building s₀ role s pd) (r : Role) :
    (allocFrame s = .error .noFrame ∧ ¬ Spare 1 s.pmm) ∨ ∃ f s', allocFrame s = .ok (f, s') ∧
      Uses 1 s s' ∧ role f = none ∧ s'.phys = s.phys ∧
      Building s₀ (Function.update role f (some r)) s' pd := by
  rw [allocFrame]
  cases halloc : pmmAllocFrame s.pmm with
  | none => exact Or.inl ⟨rfl, fun hspare => hspare.ne_none halloc⟩
  | some p =>
    obtain ⟨f, pmm⟩ := p
    have hh := pmmAllocFrame_handed halloc
    have hnone : role f = none := by
      by_contra hrole
      exact (h.taken f hrole).2 hh.free
    have hready : Ready { s with pmm } :=
      ⟨h.ready.recursive, fun hf => h.ready.used (hh.fewer _ hf), h.ready.closed⟩
    have hne : s.cr3 ≠ f := fun heq => h.ready.used (heq ▸ hh.free)
    refine Or.inr ⟨f, { s with pmm }, rfl, .of_alloc halloc, hnone, rfl, hready, h.cr3, ?_,
      h.space.assign hnone r, fun f' hf' => (h.handed hh hf').1, fun f' hf' => (h.handed hh hf').2,
      fun i hi => h.fewer i (hh.fewer i hi), fun x hx => ?_, h.upper⟩
    · rw [Function.update_of_ne hne]
      exact h.loaded
    · exact h.elsewhere x ((MoreRoles.update hnone r).unused hx)

/-- Writing a page: the tables stay. -/
theorem Building.write (h : Building s₀ role s pd) {f v : Nat} (hf : role f = some (.page v))
    {m : Mem} {s' : Machine} (he : Edited s m s.pmm s') (hm : ∀ x, frameOf x ≠ f → m x = s.phys x) :
    Building s₀ role s' pd ∧
      (∀ virt, dirIndex virt < 768 → lookup s'.phys pd virt = lookup s.phys pd virt) ∧
      ∀ x, role (frameOf x) ≠ none → s'.phys x = m x := by
  have hne : ∀ x, role (frameOf x) ≠ some (.page v) → m x = s.phys x :=
    fun x hx => hm x fun heq => hx (by rw [heq, hf])
  have hrole : ∀ x, (role (frameOf x) = some .dir ∨ ∃ i, role (frameOf x) = some (.table i)) →
      m x = s.phys x := fun x hx => hne x (by rcases hx with hx | ⟨i, hx⟩ <;> simp [hx])
  obtain ⟨hspace, hlookup⟩ := h.space.same hrole
  obtain ⟨hb, hl, hx⟩ := h.edited (fun _ _ hr => hr) he hspace h.loaded
    (fun x hx => hne x (by simp [hx])) (fun i hi _ => entryAt_congr h.space.aligned hi fun x hx =>
      hne x (by rw [hx, h.space.directory]; simp)) h.frame h.taken fun _ hi => hi
  exact ⟨hb, fun virt hi => (hl virt hi).trans (hlookup virt hi), hx⟩

/-- `zero_phys` of a whole page. -/
theorem Building.zero (h : Building s₀ role s pd) {f v : Nat} (hf : role f = some (.page v)) :
    ∃ s', zeroPhys s f 0 PAGE_SIZE = .ok s' ∧ s'.pmm = s.pmm ∧ Building s₀ role s' pd ∧
      (∀ virt, dirIndex virt < 768 → lookup s'.phys pd virt = lookup s.phys pd virt) ∧
      ∀ x, role (frameOf x) ≠ none → s'.phys x = if frameOf x = f then 0 else s.phys x := by
  obtain ⟨hal, hlt, hne⟩ := h.apart (show role f ≠ none by simp [hf])
  obtain ⟨s', hcall, he⟩ := zeroPhys_edited h.ready.recursive hal hlt hne
  have hfill : ∀ x, fill s.phys f 0 4096 x = if frameOf x = f then 0 else s.phys x := by
    intro x
    have hiff : (f ≤ x ∧ x < f + 4096) ↔ frameOf x = f := by
      simp only [frameOf]
      omega
    rw [fill_apply]
    simp only [hiff]
    rfl
  obtain ⟨hb, hl, hx⟩ := h.write hf he fun x hxf => by rw [hfill, if_neg hxf]
  exact ⟨s', hcall, he.pmm, hb, hl, fun x hrole => (hx x hrole).trans (hfill x)⟩

/-- `copy_to_phys` goes through exactly when its bytes can be read and fit. -/
theorem Building.copy (h : Building s₀ role s pd) {f v : Nat} (hf : role f = some (.page v))
    (src : Nat → Option (BitVec 8)) (o start n : Nat) (ho : o ≤ 4096) (hstart : start < 2 ^ 32) :
    (Readable src start n ∧ o + n ≤ 4096 →
      ∃ s', copyToPhys src s f o start n = .ok s' ∧ s'.pmm = s.pmm ∧ Building s₀ role s' pd ∧
        (∀ virt, dirIndex virt < 768 → lookup s'.phys pd virt = lookup s.phys pd virt) ∧
        ∀ x, role (frameOf x) ≠ none → s'.phys x =
          if f + o ≤ x ∧ x < f + o + n then bytesAt src start (x - (f + o)) else s.phys x) ∧
    (¬ (Readable src start n ∧ o + n ≤ 4096) →
      copyToPhys src s f o start n = .error .fault) := by
  obtain ⟨hal, hlt, hne⟩ := h.apart (show role f ≠ none by simp [hf])
  have hcall := copyToPhys_edited (n := n) src h.ready.recursive h.ready.closed hal hlt hne ho hstart
  constructor
  · intro hfits
    rw [if_pos hfits] at hcall
    obtain ⟨s', hcall, he⟩ := hcall
    obtain ⟨hb, hl, hx⟩ := h.write hf he fun x hxf => by
      rw [copy_apply, if_neg]
      simp only [frameOf] at hxf
      omega
    refine ⟨s', hcall, he.pmm, hb, hl, fun x hrole => ?_⟩
    rw [hx x hrole, copy_apply, Nat.zero_add]
  · intro hfits
    rwa [if_neg hfits] at hcall

/-! ## Entries -/

/-- The flags of the pages of a process. -/
def UserFlags (flags : Nat) : Prop :=
  flags = PAGE_USER ∨ flags = PAGE_USER ||| PAGE_RW ∨ flags = PAGE_PRESENT ||| PAGE_RW ||| PAGE_USER

theorem userBit_entry {e frame flags : Nat} (h : Entry e frame flags) :
    userBit e = (flags / 4 % 2 == 1) := by
  have heq := h.eq
  have hal := h.aligned
  have hdiv : e / 4 % 2 = flags / 4 % 2 := by omega
  rw [userBit, hdiv]

theorem pageEntry_user {phys flags : Nat} (hphys : phys < 2 ^ 32) (hflags : UserFlags flags) :
    userBit (pageEntry phys flags) = true := by
  rw [userBit_entry (pageEntry_entry flags hphys)]
  rcases hflags with rfl | rfl | rfl <;> decide

theorem tableEntry_user {frame flags : Nat} (haligned : frame % 4096 = 0) (hlt : frame < 2 ^ 32)
    (hflags : UserFlags flags) : userBit (frame ||| pdFlags flags) = true := by
  rw [userBit_entry (tableEntry_entry flags haligned hlt)]
  rcases hflags with rfl | rfl | rfl <;> decide

theorem writeEntry_frame (m : Mem) {t j e x : Nat} (ht : t % 4096 = 0) (hj : j < 1024)
    (hx : frameOf x ≠ t) : writeEntry m t j e x = m x := by
  refine writeN_outside m ?_
  simp only [frameOf] at hx
  omega

theorem newTable_frame (m : Mem) {t j frame e x : Nat} (ht : t % 4096 = 0) (hj : j < 1024)
    (hframe : frame % 4096 = 0) (hx : frameOf x ≠ t) (hx' : frameOf x ≠ frame) :
    newTable m t j frame e x = m x := by
  rw [newTable, fill_apply, if_neg, writeEntry_frame m ht hj hx]
  simp only [frameOf] at hx'
  omega

variable {phys virt flags : Nat}

/-- The entry of a page, in a table that is there. -/
theorem Building.setEntry (h : Building s₀ role s pd) {m : Mem} {pmm : PmmState} {s' : Machine}
    (hmore : MoreRoles role role')
    (he : Edited s (PageTables.setEntry m pd virt (pageEntry phys flags)) pmm s')
    (hspace : Space 768 role' m pd) (hvirt : virt < 2 ^ 32) (hdir : dirIndex virt < 768)
    (htable : present (dirEntry m pd virt) = true)
    (hphys : role' phys = some (.page (virt / 4096))) (hflags : UserFlags flags)
    (hlookup : ∀ virt' < 2 ^ 32, dirIndex virt' < 768 → lookup m pd virt' = lookup s.phys pd virt')
    (hloaded : role' s.cr3 = none) (helse : ∀ x, role' (frameOf x) = none → m x = s.phys x)
    (hpage : ∀ x, PageByte role x → m x = s.phys x)
    (hupper : ∀ i < 1024, 768 ≤ i → entryAt m pd i = entryAt s.phys pd i)
    (hframe : ∀ f, role' f ≠ none → f % 4096 = 0 ∧ f < 2 ^ 32)
    (htaken : ∀ f, role' f ≠ none → Free s₀.pmm (addrToPage f) ∧ ¬ Free pmm (addrToPage f))
    (hfewer : ∀ i, Free pmm i → Free s.pmm i) :
    Building s₀ role' s' pd ∧
      (∀ virt' < 2 ^ 32, dirIndex virt' < 768 → lookup s'.phys pd virt' =
        if virt' / 4096 = virt / 4096 then pageEntry phys flags else lookup s.phys pd virt') ∧
      ∀ x, PageByte role x → s'.phys x = s.phys x := by
  obtain ⟨hal, hlt⟩ := hframe phys (by simp [hphys])
  have hentry := pageEntry_entry flags hlt
  have hphysframe : frameOf phys = phys := by
    simp only [frameOf]
    omega
  obtain ⟨hmapped, hall⟩ := hspace.mapped hvirt hdir htable hentry.lt
    (pageEntry_user hlt hflags) (by rw [hentry.frameOf, hphysframe]; exact hphys)
  have htab := (hspace.present_table hdir htable).2
  have hbyte : ∀ x, frameOf x ≠ frameOf (dirEntry m pd virt) →
      PageTables.setEntry m pd virt (pageEntry phys flags) x = m x :=
    fun x hx => writeEntry_frame m (frameOf_aligned _) (tabIndex_lt virt) hx
  have hne : pd ≠ frameOf (dirEntry m pd virt) := by
    intro heq
    rw [← heq, hspace.directory] at htab
    simp at htab
  obtain ⟨hb, hl, hx⟩ := h.edited hmore he hmapped hloaded
    (fun x hx => by rw [hbyte x (fun heq => by rw [heq, htab] at hx; cases hx), helse x hx])
    (fun i hi hlow => (setEntry_sameDir hspace.aligned hne i hi).trans (hupper i hi hlow))
    hframe htaken hfewer
  refine ⟨hb, fun virt' hvirt' hdir' => ?_, fun x hpx => ?_⟩
  · rw [hl virt' hdir', hall virt' hvirt' hdir']
    split
    · rfl
    · exact hlookup virt' hvirt' hdir'
  · obtain ⟨v, hv⟩ := hpx
    have hv' := hmore _ _ hv
    rw [hx x (by simp [hv']), hbyte x (fun heq => by rw [← heq, hv'] at htab; simp at htab)]
    exact hpage x ⟨v, hv⟩

theorem lowDir (hvirt : virt < 0xc0000000) : virt < 2 ^ 32 ∧ dirIndex virt < 768 := by
  simp only [dirIndex]
  omega

/-- The call is one edit of the tables of the new directory. -/
theorem Building.one_edit (phys flags : Nat) (h : Building s₀ role s pd) (hvirt : virt < 0xc0000000) :
    (mapAt s.phys s.pmm pd virt (pageEntry phys flags) (pdFlags flags) = none →
      foreignMapPage s pd phys virt flags = .error .noFrame) ∧
    ∀ m pmm, mapAt s.phys s.pmm pd virt (pageEntry phys flags) (pdFlags flags) =
      some (m, pmm) → ∃ s', foreignMapPage s pd phys virt flags = .ok s' ∧ Edited s m pmm s' := by
  obtain ⟨hpd, hpdlt, hpdne, hpdused⟩ := h.pd_frame
  obtain ⟨hvirt32, hdir⟩ := lowDir hvirt
  have htable : present (dirEntry s.phys pd virt) = true →
      frameOf (dirEntry s.phys pd virt) ≠ s.cr3 := by
    intro hp heq
    have hrole := (h.space.present_table hdir hp).2
    rw [heq, h.loaded] at hrole
    cases hrole
  obtain ⟨hnone, hsome⟩ := foreignMapPage_edited phys flags h.ready.recursive hpd hpdlt hpdne
    (fun frame pmm halloc => ⟨fun heq => h.ready.used (heq ▸ (pmmAllocFrame_handed halloc).free),
      fun heq => hpdused (heq ▸ (pmmAllocFrame_handed halloc).free)⟩) hvirt32 htable
  refine ⟨hnone, fun m pmm hat => ?_⟩
  obtain ⟨s', hcall, he, -⟩ := hsome m pmm hat
  exact ⟨s', hcall, he⟩

/-- **`foreign_map_page`** for a page of the user half. -/
theorem Building.map (h : Building s₀ role s pd) (hphys : role phys = some (.page (virt / 4096)))
    (hvirt : virt < 0xc0000000) (hflags : UserFlags flags) :
    (foreignMapPage s pd phys virt flags = .error .noFrame ∧ ¬ Spare 1 s.pmm) ∨ ∃ s' role',
      foreignMapPage s pd phys virt flags = .ok s' ∧ Uses 1 s s' ∧ MoreRoles role role' ∧
      Building s₀ role' s' pd ∧
      (∀ virt' < 2 ^ 32, dirIndex virt' < 768 → lookup s'.phys pd virt' =
        if virt' / 4096 = virt / 4096 then pageEntry phys flags else lookup s.phys pd virt') ∧
      ∀ x, PageByte role x → s'.phys x = s.phys x := by
  obtain ⟨hpd, hpdlt, hpdne, hpdused⟩ := h.pd_frame
  obtain ⟨hvirt32, hdir⟩ := lowDir hvirt
  obtain ⟨hnone, hsome⟩ := h.one_edit phys flags hvirt
  cases hat : mapAt s.phys s.pmm pd virt (pageEntry phys flags) (pdFlags flags) with
  | none =>
    refine Or.inl ⟨hnone hat, fun hspare => ?_⟩
    rw [mapAt] at hat
    split at hat
    · cases hat
    · exact hspare.ne_none (Option.map_eq_none_iff.mp hat)
  | some r =>
    obtain ⟨m, pmm⟩ := r
    obtain ⟨s', hcall, he⟩ := hsome m pmm hat
    refine Or.inr ⟨s', ?_⟩
    rw [mapAt] at hat
    split at hat
    case isTrue hp =>
      obtain ⟨rfl, rfl⟩ := Prod.mk.inj (Option.some.inj hat)
      exact ⟨role, hcall, (Uses.same he.pmm).mono (Nat.zero_le 1), fun _ _ hr => hr,
        h.setEntry (fun _ _ hr => hr) he h.space hvirt32 hdir hp hphys hflags (fun _ _ _ => rfl)
          h.loaded (fun _ _ => rfl) (fun _ _ => rfl) (fun _ _ _ => rfl) h.frame h.taken
          fun _ hi => hi⟩
    case isFalse hp =>
      obtain ⟨⟨frame, pmm1⟩, halloc, heq⟩ := Option.map_eq_some_iff.mp hat
      obtain ⟨rfl, rfl⟩ := Prod.mk.inj heq
      have hh := pmmAllocFrame_handed halloc
      have hal := hh.aligned
      simp only [PAGE_SIZE] at hal
      have hrole : role frame = none := by
        by_contra hrole
        exact (h.taken frame hrole).2 hh.free
      have hmore := MoreRoles.update hrole (.table (dirIndex virt))
      have hentry := tableEntry_entry flags hal (handed_lt hh)
      obtain ⟨hspace, hlookup⟩ := h.space.tabled hdir (by simpa [dirEntry] using hp) hal hentry.lt
        hentry.frameOf (tableEntry_user hal (handed_lt hh) hflags) hrole
      have hbyte : ∀ x, frameOf x ≠ pd → frameOf x ≠ frame →
          newTable s.phys pd (dirIndex virt) frame (frame ||| pdFlags flags) x = s.phys x :=
        fun x hx hx' => newTable_frame s.phys hpd (dirIndex_lt virt) hal hx hx'
      have hnepd : pd ≠ frame := fun heq => hpdused (heq ▸ hh.free)
      have hnecr3 : s.cr3 ≠ frame := fun heq => h.ready.used (heq ▸ hh.free)
      refine ⟨_, hcall, .of_alloc (by rw [halloc, he.pmm]), hmore, h.setEntry hmore he hspace
        hvirt32 hdir ?_ (hmore _ _ hphys) hflags hlookup ?_ (fun x hx => hbyte x ?_ ?_)
        (fun x hx => hbyte x ?_ ?_) (fun i hi hlow => ?_) (fun f' hf' => (h.handed hh hf').1)
        (fun f' hf' => (h.handed hh hf').2) hh.fewer⟩
      · rw [dirEntry, entryAt_newTable hpd hal (dirIndex_lt virt) hentry.lt hpd (dirIndex_lt virt)
          hnepd, if_pos ⟨rfl, rfl⟩]
        exact hentry.present
      · rw [Function.update_of_ne hnecr3]
        exact h.loaded
      · rintro heq
        rw [heq, hspace.directory] at hx
        cases hx
      · rintro heq
        rw [heq, Function.update_self] at hx
        cases hx
      · obtain ⟨v, hv⟩ := hx
        rintro heq
        rw [heq, h.space.directory] at hv
        simp at hv
      · obtain ⟨v, hv⟩ := hx
        rintro heq
        rw [heq, hrole] at hv
        cases hv
      · rw [entryAt_newTable hpd hal (dirIndex_lt virt) hentry.lt hpd hi hnepd, if_neg (by omega)]

/-- What is seen in a page with the frame `p`. -/
theorem view_pageEntry {m : Mem} {dir virt p flags : Nat} (hlt : p < 2 ^ 32) (hal : p % 4096 = 0)
    (hl : lookup m dir virt = pageEntry p flags) :
    view m dir virt = some (m (p + virt % 4096)) := by
  have hentry := pageEntry_entry flags hlt
  have hframe : frameOf p = p := by
    simp only [frameOf]
    omega
  rw [view_some (by rw [hl]; exact hentry.present), hl, hentry.frameOf, hframe]

/-- What is seen after a page got the frame `phys`, with the bytes `c`. -/
theorem Building.view_placed (h : Building s₀ role s pd) {s' : Machine}
    (hlookup : ∀ virt' < 2 ^ 32, dirIndex virt' < 768 → lookup s'.phys pd virt' =
      if virt' / 4096 = virt / 4096 then pageEntry phys flags else lookup s.phys pd virt')
    (hphys : phys < 2 ^ 32) (haligned : phys % 4096 = 0)
    (hbytes : ∀ x, PageByte role x → s'.phys x = s.phys x) {c : Mem}
    (hc : ∀ o < 4096, s'.phys (phys + o) = c o) :
    ∀ virt' < 2 ^ 32, dirIndex virt' < 768 → view s'.phys pd virt' =
      if virt' / 4096 = virt / 4096 then some (c (virt' % 4096)) else view s.phys pd virt' := by
  intro virt' hvirt' hdir
  have hl := hlookup virt' hvirt' hdir
  split
  case isTrue hsame =>
    rw [if_pos hsame] at hl
    rw [view_pageEntry hphys haligned hl, hc _ (Nat.mod_lt _ (by decide))]
  case isFalse hother =>
    rw [if_neg hother] at hl
    refine view_congr hl fun hp => hbytes _ ⟨virt' / 4096, ?_⟩
    rw [frameOf_add (frameOf_aligned _) (Nat.mod_lt _ (by decide))]
    exact (h.space.page virt' hvirt' hdir hp).2

/-! ## What is left as it was -/

/-- The write bit of an entry. -/
def writeBit (e : Nat) : Bool := e / 2 % 2 == 1

theorem writeBit_entry {e frame flags : Nat} (h : Entry e frame flags) :
    writeBit e = (flags / 2 % 2 == 1) := by
  have heq := h.eq
  have hal := h.aligned
  have hdiv : e / 2 % 2 = flags / 2 % 2 := by omega
  rw [writeBit, hdiv]

/-- The page can be written: the write bits at both levels. -/
def Writable (m : Mem) (dir virt : Nat) : Prop :=
  writeBit (dirEntry m dir virt) = true ∧ writeBit (lookup m dir virt) = true

/-- The tables of the user half leave it to their entries what can be written. -/
def TablesWritable (m : Mem) (dir : Nat) : Prop :=
  ∀ i < 768, present (entryAt m dir i) = true → writeBit (entryAt m dir i) = true

/-- No more than `pages` were mapped between `s` and `s'`. -/
structure Grown (s s' : Machine) (pd : Nat) (pages : List Nat) : Prop where
  fewer : ∀ i, Free s'.pmm i → Free s.pmm i
  dirs : ∀ i < 1024, (∀ page ∈ pages, dirIndex page ≠ i) →
    entryAt s'.phys pd i = entryAt s.phys pd i
  others : ∀ virt < 2 ^ 32, dirIndex virt < 768 → frameOf virt ∉ pages →
    lookup s'.phys pd virt = lookup s.phys pd virt
  tables : TablesWritable s.phys pd → TablesWritable s'.phys pd

theorem Grown.refl (s : Machine) (pd : Nat) : Grown s s pd [] :=
  ⟨fun _ h => h, fun _ _ _ => rfl, fun _ _ _ _ => rfl, fun h => h⟩

theorem Grown.append {s s' s'' : Machine} {pd : Nat} {pages pages' : List Nat}
    (h : Grown s s' pd pages) (h' : Grown s' s'' pd pages') : Grown s s'' pd (pages ++ pages') := by
  refine ⟨fun i hi => h.fewer i (h'.fewer i hi), fun i hi hne => ?_, fun virt hv hi hnot => ?_,
    fun ht => h'.tables (h.tables ht)⟩
  · rw [h'.dirs i hi fun page hp => hne page (List.mem_append_right _ hp),
      h.dirs i hi fun page hp => hne page (List.mem_append_left _ hp)]
  · rw [List.mem_append, not_or] at hnot
    rw [h'.others virt hv hi hnot.2, h.others virt hv hi hnot.1]

/-- Neither the directory nor the tables were written. -/
theorem Grown.same {s' : Machine} (hdir : SameDir s.phys s'.phys pd)
    (hlookup : ∀ virt, dirIndex virt < 768 → lookup s'.phys pd virt = lookup s.phys pd virt)
    (hfewer : ∀ i, Free s'.pmm i → Free s.pmm i) : Grown s s' pd [] :=
  ⟨hfewer, fun i hi _ => hdir i hi, fun virt _ hi _ => hlookup virt hi,
    fun ht i hi hp => by
      rw [hdir i (by omega)] at hp ⊢
      exact ht i hi hp⟩

theorem allocFrame_ok {s s' : Machine} {f : Nat} (h : allocFrame s = .ok (f, s')) :
    Handed s.pmm f s'.pmm := by
  rw [allocFrame] at h
  cases halloc : pmmAllocFrame s.pmm with
  | none =>
    rw [halloc] at h
    cases h
  | some r =>
    rw [halloc] at h
    cases h
    exact pmmAllocFrame_handed halloc

theorem allocFrame_grown {s' : Machine} {f : Nat} (h : allocFrame s = .ok (f, s'))
    (hphys : s'.phys = s.phys) : Grown s s' pd [] :=
  .same (fun _ _ => by rw [hphys]) (fun _ _ => by rw [hphys]) (allocFrame_ok h).fewer

/-- A write to a page of the address space. -/
theorem Building.write_grown (h : Building s₀ role s pd) {s' : Machine} {f v : Nat}
    (hf : role f = some (.page v)) (hpmm : s'.pmm = s.pmm)
    (hlookup : ∀ virt, dirIndex virt < 768 → lookup s'.phys pd virt = lookup s.phys pd virt)
    (hbytes : ∀ x, role (frameOf x) ≠ none → frameOf x ≠ f → s'.phys x = s.phys x) :
    Grown s s' pd [] := by
  have hdir := h.space.directory
  have hne : pd ≠ f := by
    rintro rfl
    rw [hdir] at hf
    simp at hf
  refine .same (fun i hi => entryAt_congr h.space.aligned hi fun x hx => ?_) hlookup fun i hi => ?_
  · exact hbytes x (by rw [hx, hdir]; simp) (hx ▸ hne)
  · rwa [← hpmm]

/-- The directory entries after a page was mapped: only the one of the page can be new. -/
theorem Building.map_entries (h : Building s₀ role s pd) (hvirt : virt < 0xc0000000) {s' : Machine}
    (hcall : foreignMapPage s pd phys virt flags = .ok s') :
    (∀ i, Free s'.pmm i → Free s.pmm i) ∧ ∀ i < 1024, entryAt s'.phys pd i = entryAt s.phys pd i ∨
      i = dirIndex virt ∧ ∃ frame, Entry (entryAt s'.phys pd i) frame (pdFlags flags) := by
  obtain ⟨hpd, -, hpdne, hpdused⟩ := h.pd_frame
  obtain ⟨-, hdir⟩ := lowDir hvirt
  have hal := h.ready.recursive.aligned
  obtain ⟨hnone, hsome⟩ := h.one_edit phys flags hvirt
  cases hat : mapAt s.phys s.pmm pd virt (pageEntry phys flags) (pdFlags flags) with
  | none =>
    rw [hnone hat] at hcall
    cases hcall
  | some r =>
    obtain ⟨m, pmm⟩ := r
    obtain ⟨s1, hcall1, he⟩ := hsome m pmm hat
    rw [hcall] at hcall1
    cases hcall1
    have hkeep : ∀ i < 1024, entryAt s'.phys pd i = entryAt m pd i := fun i hi =>
      he.off.entry hal hpd hi fun heq => absurd heq hpdne
    rw [he.pmm]
    rcases mapAt_cases hat with ⟨hp, rfl, rfl⟩ | ⟨hp, frame, halloc, rfl⟩
    · have hne : pd ≠ frameOf (dirEntry s.phys pd virt) := by
        intro heq
        have hrole := (h.space.present_table hdir hp).2
        rw [← heq, h.space.directory] at hrole
        simp at hrole
      exact ⟨fun _ hi => hi, fun i hi => Or.inl ((hkeep i hi).trans (setEntry_sameDir hpd hne i hi))⟩
    · have hh := pmmAllocFrame_handed halloc
      have hentry := tableEntry_entry flags hh.aligned (handed_lt hh)
      have hnepd : pd ≠ frame := fun heq => hpdused (heq ▸ hh.free)
      refine ⟨hh.fewer, fun i hi => ?_⟩
      have hnew : ∀ j < 1024, entryAt (newTable s.phys pd (dirIndex virt) frame
          (frame ||| pdFlags flags)) pd j =
          if pd = pd ∧ j = dirIndex virt then frame ||| pdFlags flags else entryAt s.phys pd j :=
        fun j hj => entryAt_newTable hpd hh.aligned (dirIndex_lt virt) hentry.lt hpd hj hnepd
      have hself := hnew _ (dirIndex_lt virt)
      rw [if_pos ⟨rfl, rfl⟩] at hself
      rw [hkeep i hi, setEntry_sameDir hpd (by rw [dirEntry, hself, hentry.frameOf]; exact hnepd) i hi,
        hnew i hi]
      by_cases hi' : i = dirIndex virt
      · rw [if_pos ⟨rfl, hi'⟩]
        exact Or.inr ⟨hi', frame, hentry⟩
      · rw [if_neg fun hc => hi' hc.2]
        exact Or.inl rfl

/-- A page that is mapped: one directory entry, and one of its table. -/
theorem Building.map_grown (h : Building s₀ role s pd) (hvirt : virt < 0xc0000000) {s' : Machine}
    (hcall : foreignMapPage s pd phys virt flags = .ok s')
    (hlookup : ∀ virt' < 2 ^ 32, dirIndex virt' < 768 → lookup s'.phys pd virt' =
      if virt' / 4096 = virt / 4096 then pageEntry phys flags else lookup s.phys pd virt') :
    Grown s s' pd [frameOf virt] := by
  obtain ⟨hvirt32, hdir⟩ := lowDir hvirt
  have hdirs : dirIndex (frameOf virt) = dirIndex virt := by
    simp only [frameOf, dirIndex]
    omega
  obtain ⟨hfewer, hentries⟩ := h.map_entries hvirt hcall
  refine ⟨hfewer, fun i hi hne => ?_, fun virt' hv hi hnot => ?_, fun ht i hi hp => ?_⟩
  · rcases hentries i hi with hsame | ⟨heq, -⟩
    · exact hsame
    · exact absurd (hdirs.trans heq.symm) (hne _ (List.mem_singleton_self _))
  · rw [hlookup virt' hv hi, if_neg]
    intro hsame
    refine hnot (List.mem_singleton.mpr ?_)
    rw [frameOf, hsame, frameOf]
  · rcases hentries i (by omega) with hsame | ⟨-, frame, he⟩
    · rw [hsame] at hp ⊢
      exact ht i hi hp
    · have heq := he.eq
      have hal := he.aligned
      simp only [writeBit, beq_iff_eq]
      rcases pdFlags_cases flags with hflags | hflags <;> omega

end Building

/-! ## The start -/

/-- The roles of a new directory. -/
def dirRole (pd : Nat) : Nat → Option Role := Function.update (fun _ => none) pd (some .dir)

/-- **`uprocess_create_pagedir`** gives an address space without pages. -/
theorem Ready.create {s : Machine} (h : Ready s) :
    (uprocessCreatePagedir s = .error .noFrame ∧ ¬ Spare 1 s.pmm) ∨
    ∃ pd s', uprocessCreatePagedir s = .ok (pd, s') ∧ Uses 1 s s' ∧ Building s (dirRole pd) s' pd ∧
      ∀ virt, dirIndex virt < 768 → lookup s'.phys pd virt = 0 := by
  obtain ⟨hnone, hsome⟩ := uprocessCreatePagedir_newDir h.recursive h.used
  cases halloc : pmmAllocFrame s.pmm with
  | none => exact Or.inl ⟨hnone halloc, fun hspare => hspare.ne_none halloc⟩
  | some r =>
    obtain ⟨pd, pmm⟩ := r
    obtain ⟨s', hcall, hnew, rfl⟩ := hsome pd pmm halloc
    have hh := pmmAllocFrame_handed halloc
    have hal := hh.aligned
    simp only [PAGE_SIZE] at hal
    have hne : s.cr3 ≠ pd := fun heq => h.used (heq ▸ hh.free)
    have hlow : ∀ i < 768, entryAt s'.phys pd i = 0 := by
      intro i hi
      rw [hnew.entries i (by omega), if_neg (by simp only [RECURSIVE_SLOT]; omega),
        if_pos (Or.inl hi)]
    have hlookup : ∀ virt, dirIndex virt < 768 → lookup s'.phys pd virt = 0 := by
      intro virt hi
      rw [lookup, dirEntry, hlow _ hi]
      rfl
    have hrole : ∀ f, dirRole pd f ≠ none → f = pd := by
      intro f hf
      by_contra hfne
      rw [dirRole, Function.update_of_ne hfne] at hf
      exact hf rfl
    refine Or.inr ⟨pd, s', hcall, .of_alloc halloc, ⟨⟨hnew.recursive, ?_, ?_⟩, hnew.cr3, ?_, ⟨by decide, hal,
      Function.update_self .., ?_, ?_⟩, ?_, ?_, ?_, ?_, ?_⟩, hlookup⟩
    · rw [hnew.cr3]
      exact fun hf => h.used ((hh.others _ fun heq => hh.used (heq ▸ hf)).mp hf)
    · rw [hnew.cr3]
      exact hnew.closed h.closed
    · rw [hnew.cr3, dirRole, Function.update_of_ne hne]
    · intro i hi hp
      rw [hlow i hi] at hp
      cases hp
    · intro virt _ hi hp
      rw [hlookup virt hi] at hp
      cases hp
    · intro f hf
      obtain rfl := hrole f hf
      exact ⟨hal, handed_lt hh⟩
    · intro f hf
      obtain rfl := hrole f hf
      exact ⟨hh.free, hh.used⟩
    · exact fun i hi => (hh.others i fun heq => hh.used (heq ▸ hi)).mp hi
    · intro x hx hslot
      refine hnew.elsewhere x (fun heq => ?_) hslot
      rw [heq, dirRole, Function.update_self] at hx
      cases hx
    · intro i hi hlow
      rw [hnew.entries i hi, upperEntry]
      simp only [show ¬ i < 768 by omega, false_or]

theorem Ready.newDir {s s' : Machine} {pd : Nat} (h : Ready s)
    (hcreate : uprocessCreatePagedir s = .ok (pd, s')) : NewDir s pd s' := by
  obtain ⟨hnone, hsome⟩ := uprocessCreatePagedir_newDir h.recursive h.used
  cases halloc : pmmAllocFrame s.pmm with
  | none =>
    rw [hnone halloc] at hcreate
    cases hcreate
  | some r =>
    obtain ⟨s1, hcall, hnew, -⟩ := hsome r.1 r.2 halloc
    rw [hcreate] at hcall
    cases hcall
    exact hnew

/-- A new directory has no tables in the user half. -/
theorem newDir_writable {s s' : Machine} {pd : Nat} (h : NewDir s pd s') :
    TablesWritable s'.phys pd := by
  intro i hi hp
  rw [h.entries i (by omega), if_neg (by simp only [RECURSIVE_SLOT]; omega), if_pos (Or.inl hi)] at hp
  cases hp

/-- A directory that was created, and has nothing in its user half. -/
theorem Ready.created {s s' : Machine} {pd : Nat} (h : Ready s)
    (hcreate : uprocessCreatePagedir s = .ok (pd, s')) :
    Building s (dirRole pd) s' pd ∧ ∀ virt, dirIndex virt < 768 → lookup s'.phys pd virt = 0 := by
  rcases h.create with ⟨herr, -⟩ | ⟨pd', s1, hcreate', -, hb, hempty⟩
  · rw [hcreate] at herr
    cases herr
  · rw [hcreate] at hcreate'
    cases hcreate'
    exact ⟨hb, hempty⟩

theorem Ready.building {s s' : Machine} {pd : Nat} (h : Ready s)
    (hcreate : uprocessCreatePagedir s = .ok (pd, s')) : Building s (dirRole pd) s' pd :=
  (h.created hcreate).1

end FrogKernel.AddressSpace
