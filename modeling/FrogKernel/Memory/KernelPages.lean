import FrogKernel.Memory.BootPaging
import FrogKernel.Userspace.Translations

/-!
# The pages that `kmain` maps (`memory/paging.c`, `memory/kheap.c`)

Above the first 4 MiB of the kernel and below the slots for other directories every
directory entry has a table of its own.  So a page that is mapped there changes where its
own addresses lead and nothing else, and no byte of a frame that is in use for data.

`OwnPages.map` and `OwnPages.newPage` say it of one page; `Edits` puts pages together.
-/

namespace FrogKernel.KernelPages

open FrogKernel.Bytes FrogKernel.PageTables FrogKernel.Paging FrogKernel.Pmm
open FrogKernel.KernelAreas (KernelMem newKernelPage kallocPage kallocLoop kallocPages)
open FrogKernel.Kheap (add32 mapPages LARGE_ALLOC_BASE)
open FrogKernel.Translations (NoTable OwnTable mapAt_lookup)

/-- Above the kernel and below the slots. -/
def KernelVirt (virt : Nat) : Prop := 0xc0400000 ≤ virt ∧ virt < 0xff000000

/-- The directory is no table, the frames of both are in use, and the entries above that of the
kernel have tables of their own. -/
structure OwnPages (s : Machine) : Prop where
  recursive : Recursive s.phys s.cr3
  directory : ∀ j < 1023, present (entryAt s.phys s.cr3 j) = true →
    frameOf (entryAt s.phys s.cr3 j) ≠ s.cr3
  used : ∀ j < 1024, present (entryAt s.phys s.cr3 j) = true →
    ¬ Free s.pmm (addrToPage (frameOf (entryAt s.phys s.cr3 j)))
  own : ∀ i j, 769 ≤ i → i < 1020 → j < 1020 → i ≠ j → present (entryAt s.phys s.cr3 i) = true →
    present (entryAt s.phys s.cr3 j) = true →
    frameOf (entryAt s.phys s.cr3 j) ≠ frameOf (entryAt s.phys s.cr3 i)

/-- A frame that `pmm_alloc_frame` cannot return and that holds no table. -/
structure DataFrame (s : Machine) (f : Nat) : Prop where
  taken : addrToPage f < s.pmm.totalPages → ¬ Free s.pmm (addrToPage f)
  noTable : NoTable s.phys s.cr3 f

section Frames

variable {s s' : Machine} {virt f : Nat}

theorem KernelVirt.lt (h : KernelVirt virt) : virt < 2 ^ 32 := Nat.lt_trans h.2 (by decide)

theorem KernelVirt.dirIndex (h : KernelVirt virt) :
    769 ≤ dirIndex virt ∧ dirIndex virt < 1020 := by
  obtain ⟨hlo, hhi⟩ := h
  simp only [PageTables.dirIndex]
  omega

theorem OwnPages.cr3_used (h : OwnPages s) : ¬ Free s.pmm (addrToPage s.cr3) := by
  have hused := h.used 1023 (by decide) h.recursive.present
  rwa [h.recursive.frame] at hused

theorem OwnPages.ownTable (h : OwnPages s) (hv : KernelVirt virt) : OwnTable s.phys s.cr3 virt where
  own hp j hj hne hpj := h.own _ j hv.dirIndex.1 hv.dirIndex.2 hj hne.symm hp hpj
  directory j hj := h.directory j (by omega)

/-- What the allocator returns is no data and no table. -/
theorem DataFrame.ne_handed (h : DataFrame s f) {frame : Nat} {pmm : PmmState}
    (hh : Handed s.pmm frame pmm) : f ≠ frame := by
  rintro rfl
  refine h.taken ?_ hh.free
  have hbelow := hh.below
  rw [addrToPage]
  exact Nat.div_lt_of_lt_mul (by rwa [Nat.mul_comm])

theorem OwnPages.noTable (h : OwnPages s) {frame : Nat} {pmm : PmmState}
    (hh : Handed s.pmm frame pmm) : NoTable s.phys s.cr3 frame where
  apart heq := h.cr3_used (heq ▸ hh.free)
  table j hj hp heq := h.used j hj hp (heq ▸ hh.free)

/-- With fewer free frames. -/
theorem OwnPages.fewer {pmm : PmmState} (h : OwnPages s) (hfewer : ∀ i, Free pmm i → Free s.pmm i) :
    OwnPages { s with pmm } :=
  ⟨h.recursive, h.directory, fun j hj hp hf => h.used j hj hp (hfewer _ hf), h.own⟩

theorem DataFrame.handed (h : DataFrame s f) {frame : Nat} {pmm : PmmState}
    (hh : Handed s.pmm frame pmm) : DataFrame { s with pmm } f :=
  ⟨fun hlt hf => h.taken (hh.total ▸ hlt) (hh.fewer _ hf), h.noTable⟩

/-- The frame that was handed out. -/
theorem OwnPages.dataFrame (h : OwnPages s) {frame : Nat} {pmm : PmmState}
    (hh : Handed s.pmm frame pmm) : DataFrame { s with pmm } frame :=
  ⟨fun _ => hh.used, h.noTable hh⟩

end Frames

/-! ## Mapping pages -/

/-- What mapping the `n` pages from `base` on leaves: their addresses have these entries, the others
below the slots the entries that they had, and data is where it was. -/
structure Edits (s s' : Machine) (base n : Nat) (entry : Nat → Nat) : Prop where
  own : OwnPages s'
  cr3 : s'.cr3 = s.cr3
  fewer : ∀ i, Free s'.pmm i → Free s.pmm i
  total : s'.pmm.totalPages = s.pmm.totalPages
  lookups : ∀ v < 2 ^ 32, dirIndex v < 1020 → lookup s'.phys s'.cr3 v =
    if base ≤ v ∧ v < base + n * 4096 then entry ((v - base) / 4096) else lookup s.phys s.cr3 v
  kept : ∀ f, f % 4096 = 0 → DataFrame s f → DataFrame s' f ∧
    ∀ a, frameOf a = f → s'.phys a = s.phys a

section Edit

variable {s s' : Machine} {virt e : Nat}

theorem frameOf_apart {t x i : Nat} (ht : t % 4096 = 0) (hi : i < 1024) (hne : frameOf x ≠ t) :
    x < t + 4 * i ∨ t + 4 * i + 4 ≤ x := by
  simp only [frameOf] at hne
  omega

/-- An entry in a table leaves the data alone. -/
theorem setEntry_data (h : OwnPages s) (hv : KernelVirt virt)
    (hp : present (dirEntry s.phys s.cr3 virt) = true) :
    OwnPages { s with phys := setEntry s.phys s.cr3 virt e } ∧ ∀ f, f % 4096 = 0 → DataFrame s f →
      DataFrame { s with phys := setEntry s.phys s.cr3 virt e } f ∧
      ∀ a, frameOf a = f → setEntry s.phys s.cr3 virt e a = s.phys a := by
  have hi := hv.dirIndex
  have hsame : SameDir s.phys (setEntry s.phys s.cr3 virt e) s.cr3 :=
    setEntry_sameDir h.recursive.aligned (h.directory _ (by omega) hp).symm
  refine ⟨⟨⟨?_, ?_⟩, fun j hj => ?_, fun j hj => ?_, fun i j hlo hi hj => ?_⟩, fun f hf hdata =>
    ⟨⟨hdata.taken, hdata.noTable.apart, fun j hj => ?_⟩, fun a ha => ?_⟩⟩
  · rw [hsame 1023 (by decide)]
    exact h.recursive.present
  · rw [hsame 1023 (by decide)]
    exact h.recursive.frame
  · rw [hsame j (by omega)]
    exact h.directory j hj
  · rw [hsame j hj]
    exact h.used j hj
  · rw [hsame i (by omega), hsame j (by omega)]
    exact h.own i j hlo hi hj
  · rw [hsame j hj]
    exact hdata.noTable.table j hj
  · have htable := hdata.noTable.table _ (dirIndex_lt virt) hp
    rw [setEntry, PageTables.writeEntry, write32]
    refine writeN_outside _ (frameOf_apart (frameOf_aligned _) (tabIndex_lt virt) ?_)
    rw [ha]
    exact htable.symm

/-- So does a new table, which is in a frame of its own. -/
theorem newTable_data (h : OwnPages s) (hv : KernelVirt virt) (flags : Nat) {frame : Nat}
    {pmm : PmmState} (hh : Handed s.pmm frame pmm) :
    OwnPages { s with
      phys := newTable s.phys s.cr3 (dirIndex virt) frame (frame ||| pdFlags flags), pmm } ∧
    present (dirEntry (newTable s.phys s.cr3 (dirIndex virt) frame (frame ||| pdFlags flags)) s.cr3
      virt) = true ∧
    ∀ f, f % 4096 = 0 → DataFrame s f →
      DataFrame { s with
        phys := newTable s.phys s.cr3 (dirIndex virt) frame (frame ||| pdFlags flags), pmm } f ∧
      ∀ a, frameOf a = f →
        newTable s.phys s.cr3 (dirIndex virt) frame (frame ||| pdFlags flags) a = s.phys a := by
  have hi := hv.dirIndex
  have hal := h.recursive.aligned
  have hframe := hh.aligned
  rw [PAGE_SIZE] at hframe
  have he := tableEntry_entry flags hframe (handed_lt hh)
  have hno := h.noTable hh
  have hentry : ∀ j < 1024, entryAt
      (newTable s.phys s.cr3 (dirIndex virt) frame (frame ||| pdFlags flags)) s.cr3 j =
      if j = dirIndex virt then frame ||| pdFlags flags else entryAt s.phys s.cr3 j := by
    intro j hj
    rw [entryAt_newTable hal hframe (by omega) he.lt hal hj hno.apart.symm]
    simp
  -- an entry is the new one or an old one
  have hold : ∀ j < 1024, j ≠ dirIndex virt → entryAt
      (newTable s.phys s.cr3 (dirIndex virt) frame (frame ||| pdFlags flags)) s.cr3 j =
      entryAt s.phys s.cr3 j := fun j hj hne => by rw [hentry j hj, if_neg hne]
  have hnew : entryAt (newTable s.phys s.cr3 (dirIndex virt) frame (frame ||| pdFlags flags)) s.cr3
      (dirIndex virt) = frame ||| pdFlags flags := by rw [hentry _ (by omega), if_pos rfl]
  refine ⟨⟨⟨?_, ?_⟩, fun j hj => ?_, fun j hj => ?_, fun i j hlo hi' hj hne => ?_⟩, ?_,
    fun f hf hdata => ⟨⟨?_, ?_, fun j hj => ?_⟩, fun a ha => ?_⟩⟩
  · rw [hold 1023 (by decide) (by omega)]
    exact h.recursive.present
  · rw [hold 1023 (by decide) (by omega)]
    exact h.recursive.frame
  · by_cases hj' : j = dirIndex virt
    · subst hj'
      rw [hnew, he.frameOf]
      exact fun _ => hno.apart
    · rw [hold j (by omega) hj']
      exact h.directory j hj
  · by_cases hj' : j = dirIndex virt
    · subst hj'
      rw [hnew, he.frameOf]
      exact fun _ => hh.used
    · rw [hold j hj hj']
      exact fun hpj hf => h.used j hj hpj (hh.fewer _ hf)
  · by_cases hi' : i = dirIndex virt
    · subst hi'
      rw [hnew, hold j (by omega) (Ne.symm hne), he.frameOf]
      exact fun _ hpj => hno.table j (by omega) hpj
    · rw [hold i (by omega) hi']
      by_cases hj' : j = dirIndex virt
      · subst hj'
        rw [hnew, he.frameOf]
        exact fun hpi _ => (hno.table i (by omega) hpi).symm
      · rw [hold j (by omega) hj']
        exact h.own i j hlo (by omega) hj hne
  · rw [dirEntry, hnew]
    exact he.present
  · exact (hdata.handed hh).taken
  · exact hdata.noTable.apart
  · by_cases hj' : j = dirIndex virt
    · subst hj'
      rw [hnew, he.frameOf]
      exact fun _ => (hdata.ne_handed hh).symm
    · rw [hold j hj hj']
      exact hdata.noTable.table j hj
  · have hne := hdata.ne_handed hh
    subst ha
    rw [newTable, fill_apply, if_neg, PageTables.writeEntry, write32]
    · exact writeN_outside _ (frameOf_apart hal (by omega) hdata.noTable.apart)
    · simp only [frameOf] at hne
      omega

/-- **`map_page`** above the kernel. -/
theorem OwnPages.map (h : OwnPages s) (hv : KernelVirt virt) (haligned : virt % 4096 = 0)
    {phys flags : Nat} (hphys : phys < 2 ^ 32) (hmap : mapPage s phys virt flags = some s') :
    Edits s s' virt 1 fun _ => pageEntry phys flags := by
  have hi := hv.dirIndex
  rw [mapPage_eq phys flags h.recursive (by omega) hv.lt h.cr3_used] at hmap
  obtain ⟨⟨m, pmm⟩, hat, rfl⟩ := Option.map_eq_some_iff.mp hmap
  obtain ⟨-, hlookup⟩ := mapAt_lookup h.recursive.aligned hphys hv.lt hi.2 (h.ownTable hv)
    (fun frame pmm halloc => h.noTable (pmmAllocFrame_handed halloc)) hat
  have hpage : ∀ v, virt ≤ v ∧ v < virt + 1 * 4096 ↔ v / 4096 = virt / 4096 := fun v => by omega
  rcases mapAt_cases hat with ⟨hp, rfl, rfl⟩ | ⟨-, frame, halloc, rfl⟩
  · obtain ⟨hown, hdata⟩ := setEntry_data (e := pageEntry phys flags) h hv hp
    refine ⟨hown, rfl, fun _ => id, rfl, fun v hlt hvi => ?_, hdata⟩
    rw [hlookup v hlt hvi]
    simp only [hpage]
  · have hh := pmmAllocFrame_handed halloc
    obtain ⟨hown, hp, hdata⟩ := newTable_data h hv flags hh
    obtain ⟨hown', hdata'⟩ := setEntry_data (e := pageEntry phys flags) hown hv hp
    refine ⟨hown', rfl, hh.fewer, hh.total, fun v hlt hvi => ?_, fun f hf hf' => ?_⟩
    · rw [hlookup v hlt hvi]
      simp only [hpage]
    · obtain ⟨h1, hbytes⟩ := hdata f hf hf'
      obtain ⟨h2, hbytes'⟩ := hdata' f hf h1
      exact ⟨h2, fun a ha => (hbytes' a ha).trans (hbytes a ha)⟩

/-- One frame is enough for a table. -/
theorem OwnPages.map_some {k : Nat} (h : OwnPages s) (phys flags : Nat) (hv : KernelVirt virt)
    (hspare : Spare (k + 1) s.pmm) : ∃ s', mapPage s phys virt flags = some s' ∧ Spare k s'.pmm := by
  have hi := hv.dirIndex
  rw [mapPage_eq phys flags h.recursive (by omega) hv.lt h.cr3_used, mapAt]
  by_cases hp : present (dirEntry s.phys s.cr3 virt) = true
  · rw [if_pos hp]
    exact ⟨_, rfl, hspare.mono (Nat.le_succ k)⟩
  · rw [if_neg hp]
    cases halloc : pmmAllocFrame s.pmm with
    | none => exact absurd halloc (hspare.mono (Nat.le_add_left 1 k)).ne_none
    | some r => exact ⟨_, rfl, hspare.alloc halloc⟩

end Edit

section Pages

variable {s s' s'' : Machine} {base n m : Nat} {entry entry' : Nat → Nat}

theorem OwnPages.edits (h : OwnPages s) (base : Nat) (entry : Nat → Nat) : Edits s s base 0 entry where
  own := h
  cr3 := rfl
  fewer _ := id
  total := rfl
  lookups v _ _ := by rw [if_neg (by omega)]
  kept f _ hf := ⟨hf, fun _ _ => rfl⟩

/-- Pages, and the pages behind them. -/
theorem Edits.append (h : Edits s s' base n entry) (h' : Edits s' s'' (base + n * 4096) m entry') :
    Edits s s'' base (n + m) fun i => if i < n then entry i else entry' (i - n) where
  own := h'.own
  cr3 := h'.cr3.trans h.cr3
  fewer i hi := h.fewer i (h'.fewer i hi)
  total := h'.total.trans h.total
  lookups v hlt hv := by
    rw [h'.lookups v hlt hv, h.lookups v hlt hv, Nat.add_mul, ← Nat.add_assoc]
    by_cases h1 : base ≤ v ∧ v < base + n * 4096
    · have hout : ¬ (base + n * 4096 ≤ v ∧ v < base + n * 4096 + m * 4096) := by omega
      have hin : base ≤ v ∧ v < base + n * 4096 + m * 4096 := by omega
      have hindex : (v - base) / 4096 < n := by omega
      rw [if_neg hout, if_pos h1, if_pos hin, if_pos hindex]
    · rw [if_neg h1]
      by_cases h2 : base + n * 4096 ≤ v ∧ v < base + n * 4096 + m * 4096
      · have hin : base ≤ v ∧ v < base + n * 4096 + m * 4096 := by omega
        have hindex : ¬ (v - base) / 4096 < n := by omega
        have hrest : (v - base) / 4096 - n = (v - (base + n * 4096)) / 4096 := by omega
        rw [if_pos h2, if_pos hin, if_neg hindex, hrest]
      · have hout : ¬ (base ≤ v ∧ v < base + n * 4096 + m * 4096) := by omega
        rw [if_neg h2, if_neg hout]
  kept f hf hdata := by
    obtain ⟨h1, hbytes⟩ := h.kept f hf hdata
    obtain ⟨h2, hbytes'⟩ := h'.kept f hf h1
    exact ⟨h2, fun a ha => (hbytes' a ha).trans (hbytes a ha)⟩

theorem Edits.congr (h : Edits s s' base n entry) (heq : ∀ i < n, entry i = entry' i) :
    Edits s s' base n entry' := by
  refine ⟨h.own, h.cr3, h.fewer, h.total, fun v hlt hv => ?_, h.kept⟩
  rw [h.lookups v hlt hv]
  by_cases hin : base ≤ v ∧ v < base + n * 4096
  · rw [if_pos hin, if_pos hin, heq _ (by omega)]
  · rw [if_neg hin, if_neg hin]

/-- Where the other addresses lead. -/
theorem Edits.others (h : Edits s s' base n entry) {v : Nat} (hlt : v < 2 ^ 32)
    (hv : dirIndex v < 1020) (hout : ¬ (base ≤ v ∧ v < base + n * 4096)) :
    translate s'.phys s'.cr3 v = translate s.phys s.cr3 v := by
  rw [PageTables.translate, PageTables.translate, h.lookups v hlt hv, if_neg hout]

/-- Where the pages themselves lead. -/
theorem Edits.target (h : Edits s s' base n entry) (hbase : base % 4096 = 0) {x frame flags : Nat}
    (hx : x < n * 4096) (hlt : base + x < 2 ^ 32) (hv : dirIndex (base + x) < 1020)
    (he : Entry (entry (x / 4096)) frame flags) :
    translate s'.phys s'.cr3 (base + x) = some (frame + x % 4096) := by
  have hoff : base + x - base = x := Nat.add_sub_cancel_left base x
  have hmod : (base + x) % 4096 = x % 4096 := by omega
  have hin : base ≤ base + x ∧ base + x < base + n * 4096 := by omega
  rw [PageTables.translate, h.lookups _ hlt hv, if_pos hin, hoff, if_pos he.present, he.frameOf, hmod]

/-- The frames behind pages that `pmm_alloc_frame` gave. -/
structure NewFrames (s s' : Machine) (n : Nat) (frame : Nat → Nat) : Prop where
  aligned : ∀ i < n, frame i % 4096 = 0
  lt : ∀ i < n, frame i < 2 ^ 32
  free : ∀ i < n, Free s.pmm (addrToPage (frame i)) ∧ addrToPage (frame i) < s.pmm.totalPages
  data : ∀ i < n, DataFrame s' (frame i)
  distinct : ∀ i < n, ∀ j < n, frame i = frame j → i = j

theorem NewFrames.ne_data (h : NewFrames s s' n entry) {i f : Nat} (hi : i < n)
    (hf : DataFrame s f) : entry i ≠ f := by
  rintro rfl
  obtain ⟨hfree, hlt⟩ := h.free i hi
  exact hf.taken hlt hfree

/-- **A page of its own.** -/
theorem OwnPages.newPage {virt : Nat} (h : OwnPages s) (hv : KernelVirt virt)
    (haligned : virt % 4096 = 0) (hpage : newKernelPage s virt = some s') :
    ∃ f, Edits s s' virt 1 (fun _ => pageEntry f (PAGE_PRESENT ||| PAGE_RW)) ∧
      NewFrames s s' 1 fun _ => f := by
  obtain ⟨⟨f, pmm⟩, halloc, hmap⟩ := Option.bind_eq_some_iff.mp hpage
  have hh := pmmAllocFrame_handed halloc
  have hframe := hh.aligned
  rw [PAGE_SIZE] at hframe
  have hedits := (h.fewer hh.fewer).map hv haligned (handed_lt hh) hmap
  have hbelow : addrToPage f < s.pmm.totalPages := by
    rw [addrToPage]
    exact Nat.div_lt_of_lt_mul (by rw [Nat.mul_comm]; exact hh.below)
  refine ⟨f, ⟨hedits.own, hedits.cr3, fun i hi => hh.fewer i (hedits.fewer i hi),
    hedits.total.trans hh.total, hedits.lookups, fun g hg hdata => ?_⟩,
    ⟨fun _ _ => hframe, fun _ _ => handed_lt hh, fun _ _ => ⟨hh.free, hbelow⟩, fun _ _ => ?_,
      fun i hi j hj _ => by omega⟩⟩
  · exact hedits.kept g hg (hdata.handed hh)
  · exact (hedits.kept f hframe (h.dataFrame hh)).1

/-- Pages one after the other, as `kheap_init` and `kalloc_pages` map them. -/
theorem OwnPages.pages (h : OwnPages s) (hlo : 0xc0400000 ≤ base) (hhi : base + n * 4096 ≤ 0xff000000)
    (haligned : base % 4096 = 0) (hpages : mapPages newKernelPage s base n = some s') :
    ∃ frame, Edits s s' base n (fun i => pageEntry (frame i) (PAGE_PRESENT ||| PAGE_RW)) ∧
      NewFrames s s' n frame := by
  induction n generalizing s base with
  | zero =>
    obtain rfl := Option.some.inj hpages
    exact ⟨fun _ => 0, h.edits base _, by simp, by simp, by simp, by simp, by simp⟩
  | succ n ih =>
    obtain ⟨s₁, hpage, hrest⟩ := Option.bind_eq_some_iff.mp hpages
    obtain ⟨f, hedit, hframe⟩ := h.newPage ⟨hlo, by omega⟩ haligned hpage
    rw [PAGE_SIZE] at hrest
    obtain ⟨frame, hedits, hframes⟩ := ih hedit.own (by omega) (by omega) (by omega) hrest
    have hf := hframe.data 0 Nat.one_pos
    have hal := hframe.aligned 0 Nat.one_pos
    have hne : ∀ i < n, frame i ≠ f := fun i hi => hframes.ne_data hi hf
    refine ⟨fun i => if i = 0 then f else frame (i - 1), ?_, ?_⟩
    · have happend := hedit.append (m := n) (by rw [Nat.one_mul]; exact hedits)
      rw [Nat.add_comm] at happend
      refine happend.congr fun i _ => ?_
      dsimp only
      by_cases hi : i = 0
      · have hlt : i < 1 := by omega
        rw [if_pos hlt, if_pos hi]
      · have hge : ¬ i < 1 := by omega
        rw [if_neg hge, if_neg hi]
    · have hcases : ∀ p : Nat → Prop, p f → (∀ i < n, p (frame i)) →
          ∀ i < n + 1, p (if i = 0 then f else frame (i - 1)) := by
        intro p h0 hp i hi
        split
        · exact h0
        · exact hp _ (by omega)
      refine ⟨hcases (· % 4096 = 0) hal hframes.aligned,
        hcases (· < 2 ^ 32) (hframe.lt 0 Nat.one_pos) hframes.lt,
        hcases (fun g => Free s.pmm (addrToPage g) ∧ addrToPage g < s.pmm.totalPages)
          (hframe.free 0 Nat.one_pos) fun i hi => ?_,
        hcases (DataFrame s') (hedits.kept f hal hf).1 hframes.data, fun i hi j hj heq => ?_⟩
      · obtain ⟨hfree, hlt⟩ := hframes.free i hi
        exact ⟨hedit.fewer _ hfree, hedit.total ▸ hlt⟩
      · by_cases hi0 : i = 0 <;> by_cases hj0 : j = 0
        · rw [hi0, hj0]
        · rw [if_pos hi0, if_neg hj0] at heq
          exact absurd heq.symm (hne _ (by omega))
        · rw [if_neg hi0, if_pos hj0] at heq
          exact absurd heq (hne _ (by omega))
        · rw [if_neg hi0, if_neg hj0] at heq
          have := hframes.distinct _ (by omega) _ (by omega) heq
          omega

/-- Two frames are enough for each page. -/
theorem OwnPages.pages_some {k : Nat} (h : OwnPages s) (hlo : 0xc0400000 ≤ base)
    (hhi : base + n * 4096 ≤ 0xff000000) (haligned : base % 4096 = 0)
    (hspare : Spare (k + 2 * n) s.pmm) :
    ∃ s', mapPages newKernelPage s base n = some s' ∧ Spare k s'.pmm := by
  induction n generalizing s base with
  | zero => exact ⟨s, rfl, hspare⟩
  | succ n ih =>
    have hv : KernelVirt base := ⟨hlo, by omega⟩
    have hi := hv.dirIndex
    have hreach : KernelAreas.Reaches s (dirIndex base) :=
      ⟨h.recursive, h.cr3_used, h.directory _ (by omega)⟩
    obtain ⟨s₁, hpage, -, hspare₁⟩ :=
      hreach.page (n := k + 2 * n) (by omega) hv.lt (hspare.mono (by omega))
    obtain ⟨f, hedit, -⟩ := h.newPage hv haligned hpage
    have hlo' : 0xc0400000 ≤ base + 4096 := by omega
    obtain ⟨s₂, hrest, hspare₂⟩ := ih hedit.own hlo' (by omega) (by omega) hspare₁
    refine ⟨s₂, ?_, hspare₂⟩
    rw [mapPages, hpage, Option.bind_some, PAGE_SIZE]
    exact hrest

end Pages

/-! ## `kalloc_pages` -/

/-- There are frames and addresses for `n` pages. -/
structure Room (s : KernelMem) (n : Nat) : Prop where
  low : LARGE_ALLOC_BASE ≤ s.largeAllocBase
  high : s.largeAllocBase + n * 4096 ≤ 0xff000000
  aligned : s.largeAllocBase % 4096 = 0
  frames : Spare (2 * n) s.tables.pmm

/-- What `kalloc_pages` gives. -/
structure Given (s s' : KernelMem) (n : Nat) (frame : Nat → Nat) : Prop where
  edits : Edits s.tables s'.tables s.largeAllocBase n
    fun i => pageEntry (frame i) (PAGE_PRESENT ||| PAGE_RW)
  frames : NewFrames s.tables s'.tables n frame

/-- Where byte `x` of pages in these frames is. -/
def place (frame : Nat → Nat) (x : Nat) : Nat := frame (x / 4096) + x % 4096

section Kalloc

variable {s s' : KernelMem} {n : Nat} {frame : Nat → Nat}

theorem kallocLoop_eq (n : Nat) (hroom : s.largeAllocBase + n * 4096 < 2 ^ 32) :
    kallocLoop n s = (mapPages newKernelPage s.tables s.largeAllocBase n).map fun pages =>
      ⟨{ s.heap with pages }, s.largeAllocBase + n * 4096⟩ := by
  induction n generalizing s with
  | zero => rfl
  | succ n ih =>
    have hnext : add32 s.largeAllocBase PAGE_SIZE = s.largeAllocBase + 4096 :=
      Nat.mod_eq_of_lt (by simp only [PAGE_SIZE]; omega)
    rw [kallocLoop, kallocPage, mapPages, KernelMem.tables]
    cases newKernelPage s.heap.pages s.largeAllocBase with
    | none => rfl
    | some pages =>
      rw [Option.map_some, Option.bind_some, Option.bind_some, hnext, ih (by dsimp only; omega),
        PAGE_SIZE, KernelMem.tables]
      refine congrArg (Option.map · _) (funext fun pages => ?_)
      rw [Nat.add_assoc, Nat.add_comm 4096, ← Nat.add_one_mul]

theorem kallocPages_given (h : OwnPages s.tables) (hroom : Room s n) :
    ∃ s' frame, kallocPages s n = some (s.largeAllocBase, s') ∧ Given s s' n frame := by
  have hlow : 0xc0400000 ≤ s.largeAllocBase := Nat.le_trans (by decide) hroom.low
  obtain ⟨pages, hpages, -⟩ := h.pages_some (k := 0) hlow hroom.high hroom.aligned
    (by rw [Nat.zero_add]; exact hroom.frames)
  obtain ⟨frame, hedits, hframes⟩ := h.pages hlow hroom.high hroom.aligned hpages
  have hhigh := hroom.high
  refine ⟨⟨{ s.heap with pages }, s.largeAllocBase + n * 4096⟩, frame, ?_, hedits, hframes⟩
  rw [kallocPages, kallocLoop_eq _ (by omega), hpages]
  rfl

theorem Given.frameOf (hg : Given s s' n frame) {x : Nat} (hx : x < n * 4096) :
    frameOf (place frame x) = frame (x / 4096) := by
  have haligned := hg.frames.aligned (x / 4096) (by omega)
  rw [PageTables.frameOf, place]
  omega

theorem Given.translate (hg : Given s s' n frame) (hroom : Room s n) {x : Nat}
    (hx : x < n * 4096) :
    translate s'.tables.phys s'.tables.cr3 (s.largeAllocBase + x) = some (place frame x) := by
  have hi : x / 4096 < n := by omega
  have hlow := hroom.low
  have hhigh := hroom.high
  have haligned := hg.frames.aligned _ hi
  have hv : KernelVirt (s.largeAllocBase + x) := by
    simp only [KernelVirt, LARGE_ALLOC_BASE] at *
    omega
  have he := pageEntry_entry (PAGE_PRESENT ||| PAGE_RW) (hg.frames.lt _ hi)
  rw [hg.edits.target hroom.aligned hx hv.lt hv.dirIndex.2 he, place]
  refine congrArg some (congrArg (· + x % 4096) ?_)
  exact Nat.div_mul_cancel (Nat.dvd_of_mod_eq_zero haligned)

theorem Given.data (hg : Given s s' n frame) {x : Nat} (hx : x < n * 4096) :
    DataFrame s'.tables (PageTables.frameOf (place frame x)) := by
  rw [hg.frameOf hx]
  exact hg.frames.data (x / 4096) (by omega)

theorem Given.distinct (hg : Given s s' n frame) {x y : Nat} (hx : x < n * 4096)
    (hy : y < n * 4096) (heq : place frame x = place frame y) : x = y := by
  have hframe : frame (x / 4096) = frame (y / 4096) := by
    rw [← hg.frameOf hx, ← hg.frameOf hy, heq]
  have hpage := hg.frames.distinct (x / 4096) (by omega) (y / 4096) (by omega) hframe
  rw [place, place, hframe] at heq
  omega

end Kalloc

/-! ## Bytes at virtual addresses -/

def load8 (s : Machine) (virt : Nat) : Option (BitVec 8) :=
  (PageTables.translate s.phys s.cr3 virt).map s.phys

def store8 (s : Machine) (virt : Nat) (b : BitVec 8) : Option Machine :=
  (PageTables.translate s.phys s.cr3 virt).map fun a =>
    { s with phys := Function.update s.phys a b }

/-- `memcpy` -/
def memcpy (s : Machine) (d src : Nat) : Nat → Option Machine
  | 0 => some s
  | n + 1 => (load8 s src).bind fun b => (store8 s d b).bind fun s =>
      memcpy s (add32 d 1) (add32 src 1) n

/-- The bytes of data changed, and nothing else. -/
structure Stores (s s' : Machine) : Prop where
  cr3 : s'.cr3 = s.cr3
  pmm : s'.pmm = s.pmm
  entries : ∀ t i, t = s.cr3 ∨ (∃ j < 1024, present (entryAt s.phys s.cr3 j) = true ∧
    t = frameOf (entryAt s.phys s.cr3 j)) → i < 1024 → entryAt s'.phys t i = entryAt s.phys t i

section Bytes

variable {s s' s'' : Machine} {a f n d src : Nat}

theorem Stores.directory (h : Stores s s') {j : Nat} (hj : j < 1024) :
    entryAt s'.phys s'.cr3 j = entryAt s.phys s.cr3 j := by
  rw [h.cr3]
  exact h.entries _ j (Or.inl rfl) hj

theorem Stores.refl (s : Machine) : Stores s s := ⟨rfl, rfl, fun _ _ _ _ => rfl⟩

theorem Stores.trans (h : Stores s s') (h' : Stores s' s'') : Stores s s'' := by
  refine ⟨h'.cr3.trans h.cr3, h'.pmm.trans h.pmm, fun t i ht hi => ?_⟩
  refine (h'.entries t i ?_ hi).trans (h.entries t i ht hi)
  rcases ht with rfl | ⟨j, hj, hp, rfl⟩
  · exact Or.inl h.cr3.symm
  · have hentry := h.directory hj
    exact Or.inr ⟨j, hj, hentry ▸ hp, by rw [hentry]⟩

theorem Stores.lookup (h : Stores s s') (v : Nat) :
    lookup s'.phys s'.cr3 v = PageTables.lookup s.phys s.cr3 v := by
  have hdir : dirEntry s'.phys s'.cr3 v = dirEntry s.phys s.cr3 v := h.directory (dirIndex_lt v)
  rw [PageTables.lookup, PageTables.lookup, hdir]
  split
  case isTrue hp =>
    exact h.entries _ _ (Or.inr ⟨_, dirIndex_lt v, hp, rfl⟩) (tabIndex_lt v)
  case isFalse => rfl

theorem Stores.translate (h : Stores s s') (v : Nat) :
    PageTables.translate s'.phys s'.cr3 v = PageTables.translate s.phys s.cr3 v := by
  rw [PageTables.translate, PageTables.translate, h.lookup]

theorem Stores.own (h : Stores s s') (hs : OwnPages s) : OwnPages s' := by
  refine ⟨⟨?_, ?_⟩, fun j hj => ?_, fun j hj => ?_, fun i j hlo hi hj => ?_⟩
  · rw [h.directory (by decide)]
    exact hs.recursive.present
  · rw [h.directory (by decide), h.cr3]
    exact hs.recursive.frame
  · rw [h.directory (by omega), h.cr3]
    exact hs.directory j hj
  · rw [h.directory hj, h.pmm]
    exact hs.used j hj
  · rw [h.directory (by omega), h.directory (by omega)]
    exact hs.own i j hlo hi hj

theorem Stores.data (h : Stores s s') (hf : DataFrame s f) : DataFrame s' f := by
  refine ⟨by rw [h.pmm]; exact hf.taken, h.cr3 ▸ hf.noTable.apart, fun j hj => ?_⟩
  rw [h.directory hj]
  exact hf.noTable.table j hj

/-- A frame for data is written. -/
theorem stores_frame (h : OwnPages s) (hf : DataFrame s f) {m : Mem}
    (hsame : ∀ x, frameOf x ≠ f → m x = s.phys x) : Stores s { s with phys := m } := by
  refine ⟨rfl, rfl, fun t i ht hi => readN_congr fun x h1 h2 => hsame x ?_⟩
  have hal : t % 4096 = 0 := by
    rcases ht with rfl | ⟨j, -, -, rfl⟩
    · exact h.recursive.aligned
    · exact frameOf_aligned _
  have hne : f ≠ t := by
    rcases ht with rfl | ⟨j, hj, hp, rfl⟩
    · exact hf.noTable.apart
    · exact (hf.noTable.table j hj hp).symm
  have hx : frameOf x = t := by
    simp only [frameOf]
    omega
  rw [hx]
  exact hne.symm

theorem stores_byte (h : OwnPages s) (ha : DataFrame s (frameOf a)) (b : BitVec 8) :
    Stores s { s with phys := Function.update s.phys a b } := by
  refine stores_frame h ha fun x hx => Function.update_of_ne ?_ _ _
  rintro rfl
  exact hx rfl

theorem stores_word (h : OwnPages s) (ha : DataFrame s (frameOf a))
    (hin : ∀ j < 4, frameOf (a + j) = frameOf a) (v : Nat) :
    Stores s { s with phys := write32 s.phys a v } := by
  refine stores_frame h ha fun x hx => writeN_outside _ ?_
  by_contra hout
  have hj := hin (x - a) (by omega)
  rw [show a + (x - a) = x by omega] at hj
  exact hx hj

/-- What was copied. -/
structure Copied (s s' : Machine) (n : Nat) (dst src : Nat → Nat) : Prop where
  stores : Stores s s'
  bytes : ∀ i < n, s'.phys (dst i) = s.phys (src i)
  others : ∀ x, (∀ i < n, x ≠ dst i) → s'.phys x = s.phys x

/-- One copy after another. -/
theorem Copied.append {m : Nat} {dst org : Nat → Nat} (h : Copied s s' m dst org)
    (h' : Copied s' s'' n (fun i => dst (m + i)) fun i => org (m + i))
    (hdistinct : ∀ i < m + n, ∀ j < m + n, dst i = dst j → i = j)
    (hapart : ∀ i < m + n, ∀ j < m + n, org i ≠ dst j) : Copied s s'' (m + n) dst org where
  stores := h.stores.trans h'.stores
  bytes i hi := by
    by_cases him : i < m
    · rw [h'.others _ fun j hj heq => ?_, h.bytes i him]
      exact absurd (hdistinct i hi (m + j) (by omega) heq) (by omega)
    · have hbytes := h'.bytes (i - m) (by omega)
      rw [show m + (i - m) = i by omega] at hbytes
      rw [hbytes, h.others]
      exact fun j hj => hapart i hi j (by omega)
  others x hx := by
    rw [h'.others x fun i hi => hx (m + i) (by omega), h.others x fun i hi => hx i (by omega)]

/-- A round of `memcpy` to a page that is mapped. -/
theorem memcpy_round {b : Nat} (hdst : PageTables.translate s.phys s.cr3 d = some b)
    (n : Nat) : memcpy s d src (n + 1) = (PageTables.translate s.phys s.cr3 src).bind fun a =>
      memcpy { s with phys := Function.update s.phys b (s.phys a) } (add32 d 1) (add32 src 1) n := by
  rw [memcpy, load8]
  cases PageTables.translate s.phys s.cr3 src with
  | none => rfl
  | some a => rw [Option.map_some, Option.bind_some, store8, hdst]; rfl

/-- It faults at a source that is not mapped, and nowhere else. -/
theorem memcpy_faults_iff (h : OwnPages s) (hd : d + n ≤ 2 ^ 32) (hsrc : src + n ≤ 2 ^ 32)
    {dst : Nat → Nat} (hdst : ∀ i < n, PageTables.translate s.phys s.cr3 (d + i) = some (dst i))
    (hdata : ∀ i < n, DataFrame s (frameOf (dst i))) :
    memcpy s d src n = none ↔ ∃ k < n, PageTables.translate s.phys s.cr3 (src + k) = none := by
  induction n generalizing s d src dst with
  | zero => exact iff_of_false (fun hnone => by cases hnone) (by simp)
  | succ n ih =>
    have h0 := hdst 0 (Nat.succ_pos n)
    rw [Nat.add_zero] at h0
    rw [memcpy_round h0]
    cases hf0 : PageTables.translate s.phys s.cr3 src with
    | none => exact iff_of_true rfl ⟨0, Nat.succ_pos n, hf0⟩
    | some a =>
      have hstore := stores_byte h (hdata 0 (Nat.succ_pos n)) (s.phys a)
      rw [Option.bind_some]
      rcases Nat.eq_zero_or_pos n with rfl | hn
      · refine iff_of_false (fun hnone => by cases hnone) ?_
        rintro ⟨k, hk, hnone⟩
        obtain rfl : k = 0 := by omega
        rw [Nat.add_zero, hf0] at hnone
        cases hnone
      have hd1 : add32 d 1 = d + 1 := Nat.mod_eq_of_lt (by omega)
      have hs1 : add32 src 1 = src + 1 := Nat.mod_eq_of_lt (by omega)
      rw [hd1, hs1, @ih _ (d + 1) (src + 1) (hstore.own h) (by omega) (by omega)
        (fun i => dst (i + 1)) (fun i hi => by
          rw [hstore.translate, Nat.add_assoc, Nat.add_comm 1 i]
          exact hdst (i + 1) (by omega)) fun i hi => hstore.data (hdata (i + 1) (by omega))]
      simp only [hstore.translate, Nat.add_assoc, Nat.add_comm 1]
      constructor
      · rintro ⟨k, hk, hnone⟩
        exact ⟨k + 1, by omega, hnone⟩
      · rintro ⟨k, hk, hnone⟩
        rcases k with _ | k
        · rw [Nat.add_zero, hf0] at hnone
          cases hnone
        · exact ⟨k, by omega, hnone⟩

end Bytes

/-! ## Words at virtual addresses -/

/-- `rep movsl` -/
def repMovsl (s : Machine) (src dst : Nat) : Nat → Option Machine
  | 0 => some s
  | n + 1 => (load32 s src).bind fun v => (store32 s dst v).bind fun s =>
      repMovsl s (add32 src 4) (add32 dst 4) n

/-- The bytes of a word are together, in one frame. -/
def InWords (n : Nat) (loc : Nat → Nat) : Prop :=
  ∀ i < n, ∀ j < 4, loc (4 * i + j) = loc (4 * i) + j ∧ frameOf (loc (4 * i + j)) = frameOf (loc (4 * i))

section Words

variable {s s' : Machine} {n d src : Nat} {dst org : Nat → Nat}

theorem InWords.tail (h : InWords (n + 1) dst) : InWords n fun i => dst (4 + i) := by
  intro i hi j hj
  have hword := h (i + 1) (by omega) j hj
  dsimp only
  rw [show 4 + (4 * i + j) = 4 * (i + 1) + j by omega, show 4 + 4 * i = 4 * (i + 1) by omega]
  exact hword

/-- A word. -/
theorem movsl_word (h : OwnPages s) (hdst : InWords 1 dst) (horg : InWords 1 org)
    (hdata : DataFrame s (frameOf (dst 0))) :
    Copied s { s with phys := write32 s.phys (dst 0) (read32 s.phys (org 0)) } 4 dst org := by
  have hd : ∀ j < 4, dst j = dst 0 + j ∧ frameOf (dst j) = frameOf (dst 0) := fun j hj => by
    have := hdst 0 Nat.one_pos j hj
    rwa [Nat.mul_zero, Nat.zero_add] at this
  have ho : ∀ j < 4, org j = org 0 + j := fun j hj => by
    have := (horg 0 Nat.one_pos j hj).1
    rwa [Nat.mul_zero, Nat.zero_add] at this
  refine ⟨stores_word h hdata (fun j hj => ?_) _, fun j hj => ?_, fun x hx => ?_⟩
  · rw [← (hd j hj).1]
    exact (hd j hj).2
  · dsimp only
    rw [(hd j hj).1, ho j hj, write32, read32, writeN_readN, if_pos (by omega)]
    exact congrArg s.phys (by omega)
  · refine writeN_outside _ ?_
    by_contra hin
    have hj : x - dst 0 < 4 := by omega
    have := (hd (x - dst 0) hj).1
    exact hx (x - dst 0) hj (by omega)

/-- Words that lie in pages. -/
theorem movsl_copies (h : OwnPages s) (hd : d + 4 * n ≤ 2 ^ 32) (hsrc : src + 4 * n ≤ 2 ^ 32)
    (hdst : ∀ i < 4 * n, PageTables.translate s.phys s.cr3 (d + i) = some (dst i))
    (hdwords : InWords n dst) (hdata : ∀ i < 4 * n, DataFrame s (frameOf (dst i)))
    (hdistinct : ∀ i < 4 * n, ∀ j < 4 * n, dst i = dst j → i = j)
    (hfrom : ∀ i < 4 * n, PageTables.translate s.phys s.cr3 (src + i) = some (org i))
    (howords : InWords n org) (hapart : ∀ i < 4 * n, ∀ j < 4 * n, org i ≠ dst j) :
    ∃ s', repMovsl s src d n = some s' ∧ Copied s s' (4 * n) dst org := by
  induction n generalizing s d src dst org with
  | zero => exact ⟨s, rfl, Stores.refl s, by simp, fun _ _ => rfl⟩
  | succ n ih =>
    have h0 := hdst 0 (by omega)
    have hf0 := hfrom 0 (by omega)
    rw [Nat.add_zero] at h0 hf0
    have hone := movsl_word h (fun i hi => hdwords i (by omega)) (fun i hi => howords i (by omega))
      (hdata 0 (by omega))
    rw [repMovsl, load32, hf0, Option.map_some, Option.bind_some, store32, h0, Option.map_some,
      Option.bind_some]
    rcases Nat.eq_zero_or_pos n with rfl | hn
    · exact ⟨_, rfl, hone⟩
    have hd1 : add32 d 4 = d + 4 := Nat.mod_eq_of_lt (by omega)
    have hs1 : add32 src 4 = src + 4 := Nat.mod_eq_of_lt (by omega)
    rw [hd1, hs1]
    obtain ⟨s', hs', hcopied⟩ := @ih _ (d + 4) (src + 4) (fun i => dst (4 + i))
      (fun i => org (4 + i)) (hone.stores.own h) (by omega) (by omega) (fun i hi => by
        rw [hone.stores.translate, Nat.add_assoc]
        exact hdst (4 + i) (by omega)) hdwords.tail
      (fun i hi => hone.stores.data (hdata (4 + i) (by omega)))
      (fun i hi j hj heq => by
        have := hdistinct (4 + i) (by omega) (4 + j) (by omega) heq
        omega)
      (fun i hi => by
        rw [hone.stores.translate, Nat.add_assoc]
        exact hfrom (4 + i) (by omega)) howords.tail
      (fun i hi j hj => hapart (4 + i) (by omega) (4 + j) (by omega))
    have hall := hone.append hcopied (fun i hi j hj => hdistinct i (by omega) j (by omega))
      fun i hi j hj => hapart i (by omega) j (by omega)
    rw [show 4 * (n + 1) = 4 + 4 * n by omega]
    exact ⟨s', hs', hall⟩

end Words

end FrogKernel.KernelPages
