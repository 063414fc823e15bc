import FrogKernel.Userspace.Segments

/-!
# The loops of the loader (`uprocess_load` in `userspace/uprocess.c`)

The loops as the source has them: the page counter is a `uint32_t` and the header
counter a `uint16_t`, both wrap around.  `uprocessLoadLoops_eq` shows that they end
and come to the same as `uprocess_load` over the lists of `Loader`.

Main results: `segment_exact`, for the pages of one segment, and
`load_below_stack`, for the directory entries that no header reaches.
-/

namespace FrogKernel.Loader

open FrogKernel.Bytes FrogKernel.PageTables FrogKernel.Pmm FrogKernel.Paging FrogKernel.Spaces
  FrogKernel.ForeignMap FrogKernel.AddressSpace
open FrogKernel.Kheap (add32 sub32)

/-! ## The loops -/

/-- `for (virt = virt_start; virt < virt_end; virt += PAGE_SIZE)`, for `n` rounds at most. -/
def pageLoop (k : Bytes32) (data : Nat) (p : Phdr) (pdPhys : Nat) :
    Nat → Machine → Nat → Option (Except Halt Machine)
  | 0, _, _ => none
  | n + 1, s, virt =>
    if virt < p.virtEnd then
      match loadPage k data p pdPhys s virt with
      | .error halt => some (.error halt)
      | .ok s => pageLoop k data p pdPhys n s (add32 virt PAGE_SIZE)
    else some (.ok s)

/-- The body of the loop over the headers; the page loop has `rounds` rounds at most. -/
def headerBody (k : Bytes32) (data : Nat) (e : Ehdr) (pdPhys rounds : Nat) (s : Machine × Nat)
    (i : Nat) : Option (Except Halt (Machine × Nat)) :=
  match readPhdr k (phdrAt data e i) with
  | .error halt => some (.error halt)
  | .ok none => some (.ok s)
  | .ok (some p) =>
    let highest := if p.virtEnd > s.2 then p.virtEnd else s.2
    (pageLoop k data p pdPhys rounds s.1 p.virtStart).map fun r => r.map fun s => (s, highest)

/-- `for (uint16_t i = 0; i < ehdr->e_phnum; i++)`, for `n` rounds at most. -/
def headerLoop (k : Bytes32) (data : Nat) (e : Ehdr) (pdPhys rounds : Nat) :
    Nat → Machine × Nat → Nat → Option (Except Halt (Machine × Nat))
  | 0, _, _ => none
  | n + 1, s, i =>
    if i < e.phnum then
      (headerBody k data e pdPhys rounds s i).bind fun r =>
        match r with
        | .error halt => some (.error halt)
        | .ok s => headerLoop k data e pdPhys rounds n s ((i + 1) % 2 ^ 16)
    else some (.ok s)

/-- `uprocess_load` with these loops. -/
def uprocessLoadLoops (rounds : Nat) (k : Bytes32) (s : Machine) (pdPhys data : Nat)
    (argv : List Nat) : Option (Except Halt (Loaded × Machine)) :=
  match readEhdr k data with
  | .error halt => some (.error halt)
  | .ok e => (headerLoop k data e pdPhys rounds rounds (s, 0) 0).map fun r => do
    let (s, highest) ← r
    let (initialUserEsp, s) ← loadStack k s pdPhys argv
    .ok (⟨e.entry, add32 highest (PAGE_SIZE - 1) &&& 0xfffff000, initialUserEsp⟩, s)

section Loops

variable {k : Bytes32} {data pd : Nat}

/-- As many rounds as there are pages, and the loop ends: the last page lies below
`USER_STACK_TOP`, so `virt` does not wrap around. -/
theorem pageLoop_range {p : Phdr} (hend : p.virtEnd ≤ USER_STACK_TOP) {n m virt : Nat} (hn : m < n)
    (hm : m = (p.virtEnd - virt + PAGE_SIZE - 1) / PAGE_SIZE) (s : Machine) :
    pageLoop k data p pd n s virt =
      some ((List.range' virt m PAGE_SIZE).foldlM (loadPage k data p pd) s) := by
  simp only [USER_STACK_TOP] at hend
  induction n generalizing m virt s with
  | zero => omega
  | succ n ih =>
    rw [pageLoop]
    cases m with
    | zero =>
      have hdone : ¬ virt < p.virtEnd := by
        simp only [PAGE_SIZE] at hm
        omega
      rw [if_neg hdone]
      rfl
    | succ m =>
      have hmore : virt < p.virtEnd := by
        simp only [PAGE_SIZE] at hm
        omega
      have hnext : add32 virt PAGE_SIZE = virt + PAGE_SIZE := by
        simp only [add32, PAGE_SIZE]
        omega
      have hm' : m = (p.virtEnd - (virt + PAGE_SIZE) + PAGE_SIZE - 1) / PAGE_SIZE := by
        simp only [PAGE_SIZE] at hm ⊢
        omega
      rw [if_pos hmore, hnext, List.range'_succ, List.foldlM_cons]
      cases loadPage k data p pd s virt with
      | error halt => rfl
      | ok s' => exact ih (by omega) hm' s'

theorem pageLoop_eq {p : Phdr} (h : p.Checked) {n : Nat} (hn : 2 ^ 20 ≤ n) (s : Machine) :
    pageLoop k data p pd n s p.virtStart = some (p.pages.foldlM (loadPage k data p pd) s) := by
  have hend := h.virtEnd
  refine pageLoop_range hend ?_ rfl s
  simp only [USER_STACK_TOP, PAGE_SIZE] at *
  omega

theorem headerBody_eq (e : Ehdr) {n : Nat} (hn : 2 ^ 20 ≤ n) (s : Machine × Nat) (i : Nat) :
    headerBody k data e pd n s i = some (loadHeader k data e pd s i) := by
  rw [headerBody, loadHeader]
  cases hread : readPhdr k (phdrAt data e i) with
  | error halt => rfl
  | ok o =>
    cases o with
    | none => rfl
    | some p =>
      dsimp only
      rw [pageLoop_eq (readPhdr_checked hread) hn, Option.map_some, ok_bind]
      dsimp only
      cases p.pages.foldlM (loadPage k data p pd) s.1 <;> rfl

/-- The counter does not wrap around before it reaches `e_phnum`. -/
theorem headerLoop_range (e : Ehdr) (hnum : e.phnum < 2 ^ 16) {rounds : Nat} (hrounds : 2 ^ 20 ≤ rounds)
    {n m i : Nat} (hn : m < n) (hm : i + m = e.phnum) (s : Machine × Nat) :
    headerLoop k data e pd rounds n s i =
      some ((List.range' i m).foldlM (loadHeader k data e pd) s) := by
  induction n generalizing m i s with
  | zero => omega
  | succ n ih =>
    rw [headerLoop]
    cases m with
    | zero =>
      rw [if_neg (by omega)]
      rfl
    | succ m =>
      rw [if_pos (by omega), headerBody_eq e hrounds, Option.bind_some, List.range'_succ,
        List.foldlM_cons]
      cases loadHeader k data e pd s i with
      | error halt => rfl
      | ok s' =>
        have hnext : (i + 1) % 2 ^ 16 = i + 1 := Nat.mod_eq_of_lt (by omega)
        dsimp only
        rw [hnext, ih (m := m) (by omega) (by omega)]
        rfl

/-- `e_phnum` is a 16-bit field. -/
theorem readEhdr_phnum {e : Ehdr} (h : readEhdr k data = .ok e) : e.phnum < 2 ^ 16 := by
  obtain ⟨magic, -, h⟩ := bind_ok h
  split at h
  · cases h
  obtain ⟨type, -, h⟩ := bind_ok h
  split at h
  · cases h
  obtain ⟨entry, -, h⟩ := bind_ok h
  obtain ⟨phoff, -, h⟩ := bind_ok h
  obtain ⟨phentsize, -, h⟩ := bind_ok h
  obtain ⟨phnum, hphnum, h⟩ := bind_ok h
  cases h
  rw [load] at hphnum
  split at hphnum
  · cases hphnum
    exact readN_lt _ 2 _
  · cases hphnum

/-- **The loops end**, whatever the headers say. -/
theorem uprocessLoadLoops_eq {n : Nat} (hn : 2 ^ 20 ≤ n) (s : Machine) (argv : List Nat) :
    uprocessLoadLoops n k s pd data argv = some (uprocessLoad k s pd data argv) := by
  rw [uprocessLoadLoops, uprocessLoad]
  cases hehdr : readEhdr k data with
  | error halt => rfl
  | ok e =>
    have hnum := readEhdr_phnum hehdr
    dsimp only
    rw [headerLoop_range e hnum hn (m := e.phnum) (by omega) (Nat.zero_add _), Option.map_some,
      ok_bind, loadSegments, List.range_eq_range']

end Loops

/-! ## One segment -/

theorem pageFlags_write (p : Phdr) {phys : Nat} (hphys : phys < 2 ^ 32) :
    writeBit (pageEntry phys p.pageFlags) = true ↔ p.flags &&& PF_W ≠ 0 := by
  rw [writeBit_entry (pageEntry_entry p.pageFlags hphys), Phdr.pageFlags]
  split
  case isTrue hw => exact iff_of_true (by decide) hw
  case isFalse hw => exact iff_of_false (by decide) hw

/-- What the page loop does for the segment `p`, from `s` to `s'`: its pages are mapped, each
to a frame of its own that was free, and have the bytes of the file and zeros around
them. -/
structure SegmentExact (k : Bytes32) (data : Nat) (p : Phdr) (s s' : Machine) (pd : Nat) : Prop where
  pages : ∀ page, page ∈ p.pages ↔
    page % 4096 = 0 ∧ frameOf p.vaddr ≤ page ∧ page < p.vaddr + p.memsz
  mapped : ∀ a < 2 ^ 32, frameOf a ∈ p.pages → UserMapped s'.phys pd a ∧
    (Writable s'.phys pd a ↔ p.flags &&& PF_W ≠ 0)
  fresh : ∀ a < 2 ^ 32, frameOf a ∈ p.pages →
    Free s.pmm (addrToPage (frameOf (lookup s'.phys pd a))) ∧
      ¬ Free s'.pmm (addrToPage (frameOf (lookup s'.phys pd a)))
  own : ∀ a < 2 ^ 32, ∀ b < 2 ^ 32, UserMapped s'.phys pd a → UserMapped s'.phys pd b →
    dirIndex a < 768 → dirIndex b < 768 →
    frameOf (lookup s'.phys pd a) = frameOf (lookup s'.phys pd b) → a / 4096 = b / 4096
  bytes : ∀ a < 2 ^ 32, frameOf a ∈ p.pages → userView s'.phys pd a =
    if p.vaddr ≤ a ∧ a < p.vaddr + p.filesz then k ((data + p.offset + (a - p.vaddr)) % 2 ^ 32)
    else some 0
  others : ∀ a < 2 ^ 32, dirIndex a < 768 → frameOf a ∉ p.pages →
    lookup s'.phys pd a = lookup s.phys pd a

/-- **One segment.**  After any headers before it, the page loop of a segment whose part of
the file can be read runs out of frames or maps exactly the segment. -/
theorem segment_exact {k : Bytes32} {data pd i highest n : Nat} {s₀ s₁ s : Machine} {e : Ehdr}
    {p : Phdr} (h : Ready s₀) (hcreate : uprocessCreatePagedir s₀ = .ok (pd, s₁))
    (hbefore : (List.range i).foldlM (loadHeader k data e pd) (s₁, 0) = .ok (s, highest))
    (hp : readPhdr k (phdrAt data e i) = .ok (some p)) (hsize : p.filesz ≤ p.memsz)
    (hend : p.vaddr + p.memsz < 2 ^ 32) (hfile : Readable k (data + p.offset) p.filesz)
    (hn : 2 ^ 20 ≤ n) :
    (pageLoop k data p pd n s p.virtStart = some (.error .noFrame) ∧
      ¬ Spare (2 * p.pages.length) s.pmm) ∨
    ∃ s', pageLoop k data p pd n s p.virtStart = some (.ok s') ∧ SegmentExact k data p s s' pd := by
  have hchecked := readPhdr_checked hp
  rw [pageLoop_eq hchecked hn]
  obtain ⟨role, hb, hgrown⟩ : ∃ role, Building s₀ role s pd ∧
      Grown s₁ s pd (((List.range i).filterMap (segmentAt k data e)).flatMap Phdr.pages) := by
    rcases loadHeaders_cases k data e (h.building hcreate) 0 (List.range i) with
      ⟨herr, -⟩ | ⟨-, halt, herr, -⟩ | ⟨-, s2, role, hok, -, hb, hgrown, -⟩
    · rw [hbefore] at herr
      cases herr
    · rw [hbefore] at herr
      cases herr
    · rw [hbefore] at hok
      cases hok
      exact ⟨role, hb, hgrown⟩
  have hloads := Phdr.loads_of_readable hsize hend hfile
  rcases loadPages_cases k data p hb (low_pages hchecked) with
    ⟨herr, hshort⟩ | ⟨hbad, -⟩ | ⟨-, s', role', hok, -, hb', ⟨hgrown', hplaced⟩, hview⟩
  · exact Or.inl ⟨by rw [herr], hshort⟩
  · exact absurd hloads hbad
  refine Or.inr ⟨s', by rw [hok], ?_⟩
  have hwritable := hgrown'.tables (hgrown.tables (newDir_writable (h.newDir hcreate)))
  have hvirtEnd : p.virtEnd = p.vaddr + p.memsz := Nat.mod_eq_of_lt hend
  have hfileEnd : p.fileEnd = p.vaddr + p.filesz := Nat.mod_eq_of_lt (by omega)
  have hlow : ∀ a, frameOf a ∈ p.pages → dirIndex a < 768 := by
    intro a ha
    obtain ⟨-, htop, -⟩ := low_pages hchecked _ ha
    simp only [USER_STACK_TOP, PAGE_SIZE, frameOf] at htop
    simp only [dirIndex]
    omega
  have hentry : ∀ a < 2 ^ 32, frameOf a ∈ p.pages → ∃ phys, Free s.pmm (addrToPage phys) ∧
      phys < 2 ^ 32 ∧ frameOf (lookup s'.phys pd a) = phys ∧
      lookup s'.phys pd a = pageEntry phys p.pageFlags := by
    intro a ha hmem
    obtain ⟨phys, hal, hlt, hfree, hl⟩ := hplaced a ha (hlow a hmem) hmem
    refine ⟨phys, hfree, hlt, ?_, hl⟩
    rw [hl, (pageEntry_entry _ hlt).frameOf, frameOf]
    omega
  have hpresent : ∀ a < 2 ^ 32, frameOf a ∈ p.pages → present (lookup s'.phys pd a) = true := by
    intro a ha hmem
    obtain ⟨phys, -, hlt, -, hl⟩ := hentry a ha hmem
    rw [hl]
    exact (pageEntry_entry _ hlt).present
  have hrole : ∀ a < 2 ^ 32, dirIndex a < 768 → present (lookup s'.phys pd a) = true →
      role' (frameOf (lookup s'.phys pd a)) = some (.page (a / 4096)) :=
    fun a ha hi hpa => (hb'.space.page a ha hi hpa).2
  refine ⟨fun page => ?_, fun a ha hmem => ?_, fun a ha hmem => ?_, fun a ha b hb ua ub ia ib heq => ?_,
    fun a ha hmem => ?_, hgrown'.others⟩
  · rw [mem_pages hchecked, hchecked.virtStart_eq, hvirtEnd]
  · obtain ⟨phys, -, hlt, -, hl⟩ := hentry a ha hmem
    have hpa := hpresent a ha hmem
    refine ⟨(hb'.space.userMapped ha (hlow a hmem)).mpr (present_view.mpr hpa), ?_⟩
    rw [Writable, hl, pageFlags_write p hlt]
    exact and_iff_right (hwritable _ (hlow a hmem) (present_dirEntry hpa))
  · obtain ⟨phys, hfree, -, hframe, -⟩ := hentry a ha hmem
    have hr := hrole a ha (hlow a hmem) (hpresent a ha hmem)
    exact ⟨hframe ▸ hfree, (hb'.taken _ (by rw [hr]; simp)).2⟩
  · have hra := hrole a ha ia ua.2.2.1
    rw [heq, hrole b hb ib ub.2.2.1] at hra
    simpa using hra.symm
  · rw [hb'.space.userView ha (hlow a hmem), hview a ha (hlow a hmem), if_pos hmem, Phdr.byte, hfileEnd]
    split
    case isTrue hin =>
      have hread := hfile (a - p.vaddr) (by omega)
      rw [Phdr.source]
      obtain ⟨b, hb⟩ := Option.isSome_iff_exists.mp hread
      rw [hb, Option.getD_some]
    case isFalse => rfl

/-- The code of the small file is in its page, and after it there are zeros. -/
theorem codeSegment_exact : ∃ pd s₁ s', uprocessCreatePagedir KernelAreas.bootMachine = .ok (pd, s₁) ∧
    pageLoop (fileMemory (twoSegments 0x10)) 0xd0000000 codeSegment pd (2 ^ 20) s₁
      codeSegment.virtStart = some (.ok s') ∧
    userView s'.phys pd 0x400000 = some 0xeb ∧ userView s'.phys pd 0x400002 = some 0 ∧
    ¬ Writable s'.phys pd 0x400000 := by
  have hheader := ownPages_headers.1
  have hbyte : fileMemory (twoSegments 0x10) 0xd0000074 = some 0xeb := rfl
  have hpage := fileMemory_page (twoSegments 0x10)
  generalize fileMemory (twoSegments 0x10) = k at hheader hbyte hpage ⊢
  rcases bootMachine_ready.create with ⟨-, hshort⟩ | ⟨pd, s₁, hcreate, huse, -⟩
  · exact absurd (KernelAreas.bootMachine_spare (by decide)) hshort
  have hfile : Readable k (0xd0000000 + codeSegment.offset) codeSegment.filesz := by
    intro j hj
    simp only [codeSegment] at hj ⊢
    exact hpage _ (by omega) (by omega)
  have hpages : codeSegment.pages = [0x400000] := by decide
  rcases segment_exact (i := 0) bootMachine_ready hcreate rfl hheader (by decide) (by decide) hfile
    (Nat.le_refl _) with ⟨-, hshort⟩ | ⟨s', hloop, hexact⟩
  · rw [hpages] at hshort
    exact absurd (huse _ (KernelAreas.bootMachine_spare (by decide))) hshort
  have hmem : ∀ a, frameOf a = 0x400000 → frameOf a ∈ codeSegment.pages := fun a ha => by
    rw [ha, hpages]
    exact List.mem_singleton_self _
  refine ⟨pd, s₁, s', hcreate, hloop, ?_, ?_, ?_⟩
  · rw [hexact.bytes _ (by decide) (hmem _ (by decide)), if_pos (by decide)]
    exact hbyte
  · rw [hexact.bytes _ (by decide) (hmem _ (by decide)), if_neg (by decide)]
  · rw [(hexact.mapped _ (by decide) (hmem _ (by decide))).2]
    decide

/-! ## Below the stack -/

/-- The pages that `uprocess_load` maps: those of the segments, and two for the stack. -/
def mappedPages (k : Bytes32) (data : Nat) (e : Ehdr) : List Nat :=
  (segments k data e).flatMap Phdr.pages ++ [STACK_PAGE - PAGE_SIZE, STACK_PAGE]

theorem mappedPages_low {k : Bytes32} {data page : Nat} {e : Ehdr} (h : page ∈ mappedPages k data e) :
    page + PAGE_SIZE ≤ USER_STACK_TOP := by
  rw [mappedPages, List.mem_append, List.mem_flatMap] at h
  rcases h with ⟨p, hp, hpage⟩ | hstack
  · exact (low_pages (segments_checked p hp) page hpage).2.1
  · simp only [List.mem_cons, List.not_mem_nil, or_false] at hstack
    rcases hstack with rfl | rfl <;> decide

theorem uprocessLoad_grown {k : Bytes32} {data pd : Nat} {argv : List Nat} {s₀ s s' : Machine}
    {role : Nat → Option Role} {l : Loaded} (h : Building s₀ role s pd)
    (hok : uprocessLoad k s pd data argv = .ok (l, s')) :
    ∃ e, readEhdr k data = .ok e ∧ Grown s s' pd (mappedPages k data e) := by
  rw [uprocessLoad] at hok
  obtain ⟨e, hehdr, hok⟩ := bind_ok hok
  obtain ⟨⟨s1, highest⟩, hsegs, hok⟩ := bind_ok hok
  obtain ⟨⟨esp, s2⟩, hstack, hok⟩ := bind_ok hok
  cases hok
  refine ⟨e, hehdr, ?_⟩
  rcases loadSegments_cases k data e h with
    ⟨herr, -⟩ | ⟨-, halt, herr, -⟩ | ⟨-, t, role1, hok1, -, hb1, hgrown1, -⟩
  · rw [hsegs] at herr
    cases herr
  · rw [hsegs] at herr
    cases herr
  rw [hsegs] at hok1
  obtain ⟨rfl, -⟩ := Prod.mk.inj (Except.ok.inj hok1)
  rcases loadStack_cases k argv hb1 with
    ⟨herr, -⟩ | ⟨halt, -, herr⟩ | ⟨buf, esp', t, role2, -, hok2, -, -, hgrown2, -⟩
  · rw [hstack] at herr
    cases herr
  · rw [hstack] at herr
    cases herr
  rw [hstack] at hok2
  obtain ⟨-, rfl⟩ := Prod.mk.inj (Except.ok.inj hok2)
  exact hgrown1.append hgrown2

/-- **Below the stack.**  For every file the loops end, and when the loader returns, it has
mapped pages below `USER_STACK_TOP` only and left the directory entries from there on as
they were made. -/
theorem load_below_stack {k : Bytes32} {data pd : Nat} {argv : List Nat} {s₀ s₁ : Machine}
    (h : Ready s₀) (hcreate : uprocessCreatePagedir s₀ = .ok (pd, s₁)) :
    (∀ n, 2 ^ 20 ≤ n →
      uprocessLoadLoops n k s₁ pd data argv = some (uprocessLoad k s₁ pd data argv)) ∧
    ∀ l s', uprocessLoad k s₁ pd data argv = .ok (l, s') →
      (∃ e, readEhdr k data = .ok e ∧ Grown s₁ s' pd (mappedPages k data e) ∧
        ∀ page ∈ mappedPages k data e, page + PAGE_SIZE ≤ USER_STACK_TOP) ∧
      ∀ i < 1024, 704 ≤ i → entryAt s'.phys pd i = entryAt s₁.phys pd i := by
  refine ⟨fun n hn => uprocessLoadLoops_eq hn s₁ argv, fun l s' hok => ?_⟩
  obtain ⟨e, hehdr, hgrown⟩ := uprocessLoad_grown (h.building hcreate) hok
  refine ⟨⟨e, hehdr, hgrown, fun page hpage => mappedPages_low hpage⟩, fun i hi hlow => ?_⟩
  refine hgrown.dirs i hi fun page hpage => ?_
  have htop := mappedPages_low hpage
  simp only [USER_STACK_TOP, PAGE_SIZE] at htop
  simp only [dirIndex]
  omega

theorem emptyFile_below : ∃ pd s₁ l s', uprocessCreatePagedir KernelAreas.bootMachine = .ok (pd, s₁) ∧
    uprocessLoad (fileMemory emptyFile) s₁ pd 0xd0000000 [0xd0000040] = .ok (l, s') ∧
    entryAt s'.phys pd 704 = entryAt s₁.phys pd 704 := by
  obtain ⟨pd, l, s', hok⟩ := emptyFile_made
  obtain ⟨⟨pd', s₁⟩, hcreate, hok⟩ := bind_ok hok
  obtain ⟨⟨l', s2⟩, hload, hok⟩ := bind_ok hok
  cases hok
  exact ⟨pd, s₁, l, s', hcreate, hload,
    ((load_below_stack bootMachine_ready hcreate).2 l s' hload).2 704 (by decide) (by decide)⟩

end FrogKernel.Loader
