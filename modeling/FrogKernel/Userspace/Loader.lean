import FrogKernel.Lib.CStrings
import FrogKernel.Userspace.AddressSpace

/-!
# The program loader (`uprocess_load` in `userspace/uprocess.c`)

The ELF file and the strings of `argv` are kernel memory, which the loader reads
and does not write; a byte that is not mapped is a page fault.  The loader's
writes go to the frames of the new address space.

`loadSegments_cases` says what a program sees after its segments are loaded:
`imageView`, the last segment that touches the page.
-/

namespace FrogKernel.Loader

open FrogKernel.Bytes FrogKernel.PageTables FrogKernel.Pmm FrogKernel.Paging FrogKernel.Spaces
  FrogKernel.CStrings FrogKernel.ForeignMap FrogKernel.AddressSpace
open FrogKernel.Kheap (add32 sub32 add32_lt)

def KERNEL_VIRT_BASE : Nat := 0xc0000000
def USER_STACK_TOP : Nat := 0xb0000000
def ELF_MAGIC : Nat := 0x464c457f
def ET_EXEC : Nat := 2
def PT_LOAD : Nat := 1
def PF_W : Nat := 2

/-- The virtual memory that code sees: no byte is a page fault. -/
abbrev Bytes32 := Nat → Option (BitVec 8)

/-- A little-endian number of `n` bytes. -/
def load (k : Bytes32) (a n : Nat) : Except Halt Nat :=
  if Readable k a n then .ok (readN (bytesAt k a) 0 n) else .error .fault

/-- The fields of an `Elf32_Ehdr` that the loader reads after its checks. -/
structure Ehdr where
  entry : Nat
  phoff : Nat
  phentsize : Nat
  phnum : Nat

/-- The fields of an `Elf32_Phdr` of type `PT_LOAD`. -/
structure Phdr where
  offset : Nat
  vaddr : Nat
  filesz : Nat
  memsz : Nat
  flags : Nat

def readEhdr (k : Bytes32) (data : Nat) : Except Halt Ehdr := do
  let magic ← load k data 4
  if magic ≠ ELF_MAGIC then .error (.panic "uprocess_load() -> not a valid ELF binary" [])
  else do
    let type ← load k (add32 data 16) 2
    if type ≠ ET_EXEC then .error (.panic "uprocess_load() -> not an executable ELF" [])
    else do
      let entry ← load k (add32 data 24) 4
      let phoff ← load k (add32 data 28) 4
      let phentsize ← load k (add32 data 42) 2
      let phnum ← load k (add32 data 44) 2
      .ok { entry, phoff, phentsize, phnum }

/-- The header at `phdr`, after the checks of the loader; none when it is `continue`d. -/
def readPhdr (k : Bytes32) (phdr : Nat) : Except Halt (Option Phdr) := do
  let type ← load k phdr 4
  if type ≠ PT_LOAD then .ok none
  else do
    let vaddr ← load k (add32 phdr 8) 4
    let memsz ← load k (add32 phdr 20) 4
    if vaddr ≥ KERNEL_VIRT_BASE then
      .error (.panic "uprocess_load() -> segment overlaps kernel at 0x%08x" [vaddr])
    else if add32 vaddr memsz > USER_STACK_TOP then
      .error (.panic "uprocess_load() -> segment overlaps stack" [])
    else do
      let flags ← load k (add32 phdr 24) 4
      let filesz ← load k (add32 phdr 16) 4
      let offset ← load k (add32 phdr 4) 4
      .ok (some { offset, vaddr, filesz, memsz, flags })

def Phdr.pageFlags (p : Phdr) : Nat := if p.flags &&& PF_W ≠ 0 then PAGE_USER ||| PAGE_RW else PAGE_USER

def Phdr.virtStart (p : Phdr) : Nat := p.vaddr &&& 0xfffff000

def Phdr.virtEnd (p : Phdr) : Nat := add32 p.vaddr p.memsz

/-- `for (virt = virt_start; virt < virt_end; virt += PAGE_SIZE)`: the loader checked
that `virt_end` is below `USER_STACK_TOP`, so `virt` does not wrap around. -/
def Phdr.pages (p : Phdr) : List Nat :=
  List.range' p.virtStart ((p.virtEnd - p.virtStart + PAGE_SIZE - 1) / PAGE_SIZE) PAGE_SIZE

/-- The body of this loop. -/
def loadPage (k : Bytes32) (data : Nat) (p : Phdr) (pdPhys : Nat) (s : Machine) (virt : Nat) :
    Except Halt Machine := do
  let (phys, s) ← allocFrame s
  let s ← foreignMapPage s pdPhys phys virt p.pageFlags
  let pageStart := virt
  let pageEnd := virt + PAGE_SIZE
  let fileStart := p.vaddr
  let fileEnd := add32 p.vaddr p.filesz
  if pageEnd ≤ fileStart ∨ pageStart ≥ fileEnd then zeroPhys s phys 0 PAGE_SIZE
  else do
    let copyStart := if pageStart < fileStart then fileStart else pageStart
    let copyEnd := if pageEnd > fileEnd then fileEnd else pageEnd
    let offsetInPage := copyStart - pageStart
    let offsetInFile := add32 p.offset (copyStart - fileStart)
    let copyLen := sub32 copyEnd copyStart
    let s ← zeroPhys s phys 0 PAGE_SIZE
    copyToPhys k s phys offsetInPage (add32 data offsetInFile) copyLen

/-- The address of program header `i`. -/
def phdrAt (data : Nat) (e : Ehdr) (i : Nat) : Nat := add32 (add32 data e.phoff) (i * e.phentsize)

/-- One round of the loop over the program headers; the number is `highest`. -/
def loadHeader (k : Bytes32) (data : Nat) (e : Ehdr) (pdPhys : Nat) (s : Machine × Nat) (i : Nat) :
    Except Halt (Machine × Nat) := do
  match ← readPhdr k (phdrAt data e i) with
  | none => .ok s
  | some p => do
    let highest := if p.virtEnd > s.2 then p.virtEnd else s.2
    let s ← p.pages.foldlM (loadPage k data p pdPhys) s.1
    .ok (s, highest)

def loadSegments (k : Bytes32) (data : Nat) (e : Ehdr) (pdPhys : Nat) (s : Machine) :
    Except Halt (Machine × Nat) :=
  (List.range e.phnum).foldlM (loadHeader k data e pdPhys) (s, 0)

/-! ## The initial stack -/

/-- The page below `USER_STACK_TOP`. -/
def STACK_PAGE : Nat := USER_STACK_TOP - PAGE_SIZE

/-- `page_buf` and `buf_offset`. -/
structure PageBuf where
  buf : Mem
  offset : Nat

/-- `strlen`: it ends at a NUL or at a byte that cannot be read. -/
def strlen (k : Bytes32) (a : Nat) : Nat → Except Halt Nat
  | 0 => .error .fault
  | n + 1 => do
    let c ← orFault (k a)
    if c = 0 then .ok 0
    else do
      let len ← strlen k (add32 a 1) n
      .ok (len + 1)

/-- One round of the loop over the strings. -/
def pushString (k : Bytes32) (b : PageBuf) (arg : Nat) : Except Halt (Nat × PageBuf) := do
  let len ← strlen k arg ROUNDS
  let offset := sub32 b.offset (len + 1)
  if offset + (len + 1) ≤ PAGE_SIZE then
    .ok (STACK_PAGE + offset, { buf := copy b.buf offset (bytesAt k arg) 0 (len + 1), offset })
  else .error .overrun

/-- The loop counts down: the last string comes first. -/
def pushStrings (k : Bytes32) (b : PageBuf) : List Nat → Except Halt (List Nat × PageBuf)
  | [] => .ok ([], b)
  | arg :: argv => do
    let (vaddrs, b) ← pushStrings k b argv
    let (vaddr, b) ← pushString k b arg
    .ok (vaddr :: vaddrs, b)

/-- `buf_offset -= 4; *(uint32_t *)(page_buf + buf_offset) = v` -/
def pushWord (b : PageBuf) (v : Nat) : Except Halt PageBuf :=
  let offset := sub32 b.offset 4
  if offset + 4 ≤ PAGE_SIZE then .ok { buf := write32 b.buf offset v, offset } else .error .overrun

def pushWords (b : PageBuf) : List Nat → Except Halt PageBuf
  | [] => .ok b
  | v :: vs => do
    let b ← pushWords b vs
    pushWord b v

/-- The stack page, and `initial_user_esp`. -/
def initialStack (k : Bytes32) (argv : List Nat) : Except Halt (Mem × Nat) := do
  let (strVaddrs, b) ← pushStrings k ⟨fun _ => 0, PAGE_SIZE⟩ argv
  let b ← pushWord { b with offset := b.offset &&& 0xfffffffc } 0
  let b ← pushWords b strVaddrs
  let argvVaddr := STACK_PAGE + b.offset
  let b ← pushWord b argvVaddr
  let b ← pushWord b argv.length
  .ok (b.buf, STACK_PAGE + b.offset)

/-- What `uprocess_load` gives back: its result and its two out parameters. -/
structure Loaded where
  entry : Nat
  heapStart : Nat
  stackStart : Nat

/-- The part of `uprocess_load` after the segments. -/
def loadStack (k : Bytes32) (s : Machine) (pdPhys : Nat) (argv : List Nat) :
    Except Halt (Nat × Machine) := do
  let (stackPhys0, s) ← allocFrame s
  let (stackPhys1, s) ← allocFrame s
  let s ← foreignMapPage s pdPhys stackPhys0 (USER_STACK_TOP - PAGE_SIZE * 2)
    (PAGE_PRESENT ||| PAGE_RW ||| PAGE_USER)
  let s ← foreignMapPage s pdPhys stackPhys1 (USER_STACK_TOP - PAGE_SIZE)
    (PAGE_PRESENT ||| PAGE_RW ||| PAGE_USER)
  let s ← zeroPhys s stackPhys0 0 PAGE_SIZE
  let s ← zeroPhys s stackPhys1 0 PAGE_SIZE
  let (pageBuf, initialUserEsp) ← initialStack k argv
  let s ← copyToPhys (fun a => some (pageBuf a)) s stackPhys1 0 0 PAGE_SIZE
  .ok (initialUserEsp, s)

def uprocessLoad (k : Bytes32) (s : Machine) (pdPhys data : Nat) (argv : List Nat) :
    Except Halt (Loaded × Machine) := do
  let e ← readEhdr k data
  let (s, highest) ← loadSegments k data e pdPhys s
  let (initialUserEsp, s) ← loadStack k s pdPhys argv
  .ok (⟨e.entry, add32 highest (PAGE_SIZE - 1) &&& 0xfffff000, initialUserEsp⟩, s)

/-! ## A page of a segment -/

/-- The end of the segment's bytes of the file. -/
def Phdr.fileEnd (p : Phdr) : Nat := add32 p.vaddr p.filesz

/-- The address of the byte of the file for `virt`. -/
def Phdr.source (p : Phdr) (data virt : Nat) : Nat := (data + p.offset + (virt - p.vaddr)) % 2 ^ 32

/-- The byte that the segment has at `virt`. -/
def Phdr.byte (k : Bytes32) (data : Nat) (p : Phdr) (virt : Nat) : BitVec 8 :=
  if p.vaddr ≤ virt ∧ virt < p.fileEnd then (k (p.source data virt)).getD 0 else 0

/-- The bytes of the file for the page `page` can be read, and do not end before they
start. -/
def Phdr.PageLoads (k : Bytes32) (data : Nat) (p : Phdr) (page : Nat) : Prop :=
  page < p.fileEnd → p.vaddr ≤ p.fileEnd ∧ ∀ virt, page ≤ virt → virt < page + PAGE_SIZE →
    p.vaddr ≤ virt → virt < p.fileEnd → (k (p.source data virt)).isSome = true

theorem pageFlags_user (p : Phdr) : UserFlags p.pageFlags := by
  rw [Phdr.pageFlags]
  split
  · exact Or.inr (Or.inl rfl)
  · exact Or.inl rfl

/-- The arithmetic of a copy: it is the part of the file's bytes that lies in the page,
and more than a page when the file ends before it starts. -/
theorem copyLen_eq {page vaddr fileEnd copyStart copyEnd : Nat}
    (hcs : copyStart = if page < vaddr then vaddr else page)
    (hce : copyEnd = if page + PAGE_SIZE > fileEnd then fileEnd else page + PAGE_SIZE)
    (hstart : vaddr < page + PAGE_SIZE) (hend : page < fileEnd) :
    page ≤ copyStart ∧ vaddr ≤ copyStart ∧ copyStart < page + PAGE_SIZE ∧
      (vaddr ≤ fileEnd → sub32 copyEnd copyStart = copyEnd - copyStart ∧
        copyStart ≤ copyEnd ∧ copyEnd ≤ page + PAGE_SIZE) ∧
      (fileEnd < vaddr → PAGE_SIZE < copyStart - page + sub32 copyEnd copyStart) := by
  split at hcs <;> split at hce
  all_goals
    simp only [PAGE_SIZE, sub32] at *
    omega

/-- Where the copy reads the byte for an address. -/
theorem Phdr.copy_source (p : Phdr) (data : Nat) {copyStart : Nat} (hstart : p.vaddr ≤ copyStart)
    (j : Nat) : (add32 data (add32 p.offset (copyStart - p.vaddr)) + j) % 2 ^ 32 =
      p.source data (copyStart + j) := by
  simp only [add32, Phdr.source]
  omega

/-- Which addresses of the page it fills. -/
theorem copy_inside {page vaddr fileEnd copyStart copyEnd virt : Nat}
    (hcs : copyStart = if page < vaddr then vaddr else page)
    (hce : copyEnd = if page + PAGE_SIZE > fileEnd then fileEnd else page + PAGE_SIZE)
    (h1 : page ≤ virt) (h2 : virt < page + PAGE_SIZE) :
    vaddr ≤ virt ∧ virt < fileEnd ↔ copyStart ≤ virt ∧ virt < copyEnd := by
  split at hcs <;> split at hce <;> omega

/-- A page with bytes of the file loads exactly when the copy can be made. -/
theorem Phdr.pageLoads_iff (k : Bytes32) (data : Nat) (p : Phdr) {page copyStart copyEnd : Nat}
    (hcs : copyStart = if page < p.vaddr then p.vaddr else page)
    (hce : copyEnd = if page + PAGE_SIZE > p.fileEnd then p.fileEnd else page + PAGE_SIZE)
    (hstart : p.vaddr < page + PAGE_SIZE) (hend : page < p.fileEnd) :
    p.PageLoads k data page ↔
      Readable k (add32 data (add32 p.offset (copyStart - p.vaddr))) (sub32 copyEnd copyStart) ∧
        copyStart - page + sub32 copyEnd copyStart ≤ 4096 := by
  obtain ⟨hcs1, hcs2, hcs3, hgood, hbad⟩ := copyLen_eq hcs hce hstart hend
  constructor
  · intro hl
    obtain ⟨hle, hall⟩ := hl hend
    obtain ⟨hlen, hce1, hce2⟩ := hgood hle
    simp only [PAGE_SIZE] at hce2
    refine ⟨fun j hj => ?_, by omega⟩
    rw [hlen] at hj
    have hlast : copyStart + j < page + PAGE_SIZE := by
      simp only [PAGE_SIZE]
      omega
    obtain ⟨hin1, hin2⟩ := (copy_inside hcs hce (by omega) hlast).mpr (by omega)
    rw [p.copy_source data hcs2]
    exact hall _ (by omega) hlast hin1 hin2
  · rintro ⟨hread, hfits⟩ _
    have hle : p.vaddr ≤ p.fileEnd := by
      by_contra hlt
      have hlong := hbad (by omega)
      simp only [PAGE_SIZE] at hlong
      omega
    obtain ⟨hlen, -, -⟩ := hgood hle
    refine ⟨hle, fun virt h1 h2 h3 h4 => ?_⟩
    obtain ⟨hin1, hin2⟩ := (copy_inside hcs hce h1 h2).mp ⟨h3, h4⟩
    have hj := hread (virt - copyStart) (by rw [hlen]; omega)
    rwa [p.copy_source data hcs2, Nat.add_sub_cancel' hin1] at hj

section Page

variable {s₀ s : Machine} {role : Nat → Option Role} {pd : Nat}

/-- The pages were mapped to frames that were free in `s`. -/
def PagesPlaced (s s' : Machine) (pd flags : Nat) (pages : List Nat) : Prop :=
  ∀ virt < 2 ^ 32, dirIndex virt < 768 → frameOf virt ∈ pages → ∃ phys, phys % 4096 = 0 ∧
    phys < 2 ^ 32 ∧ Free s.pmm (addrToPage phys) ∧ lookup s'.phys pd virt = pageEntry phys flags

theorem PagesPlaced.append {s s' s'' : Machine} {pd flags : Nat} {pages pages' : List Nat}
    (h : PagesPlaced s s' pd flags pages) (h' : PagesPlaced s' s'' pd flags pages')
    (hgrown : Grown s s' pd pages) (hgrown' : Grown s' s'' pd pages') :
    PagesPlaced s s'' pd flags (pages ++ pages') := by
  intro virt hvirt hi hmem
  by_cases hlast : frameOf virt ∈ pages'
  · obtain ⟨phys, hal, hlt, hfree, hl⟩ := h' virt hvirt hi hlast
    exact ⟨phys, hal, hlt, hgrown.fewer _ hfree, hl⟩
  · obtain ⟨phys, hal, hlt, hfree, hl⟩ := h virt hvirt hi
      ((List.mem_append.mp hmem).resolve_right hlast)
    exact ⟨phys, hal, hlt, hfree, (hgrown'.others virt hvirt hi hlast).trans hl⟩

theorem PagesPlaced.of_lookup {s s' : Machine} {pd flags phys page : Nat} (hal : phys % 4096 = 0)
    (hlt : phys < 2 ^ 32) (hfree : Free s.pmm (addrToPage phys))
    (hlookup : ∀ virt < 2 ^ 32, dirIndex virt < 768 → lookup s'.phys pd virt =
      if virt / 4096 = page / 4096 then pageEntry phys flags else lookup s.phys pd virt) :
    PagesPlaced s s' pd flags [page] := by
  intro virt hvirt hi hmem
  refine ⟨phys, hal, hlt, hfree, (hlookup virt hvirt hi).trans (if_pos ?_)⟩
  rw [← List.mem_singleton.mp hmem, frameOf]
  omega

/-- **A page** of a segment. -/
theorem loadPage_cases (k : Bytes32) (data : Nat) (p : Phdr) {page : Nat}
    (h : Building s₀ role s pd) (haligned : page % 4096 = 0) (hpage : page < KERNEL_VIRT_BASE)
    (hstart : p.vaddr < page + PAGE_SIZE) :
    (loadPage k data p pd s page = .error .noFrame ∧ ¬ Spare 2 s.pmm) ∨
    (¬ p.PageLoads k data page ∧ loadPage k data p pd s page = .error .fault) ∨
    (p.PageLoads k data page ∧ ∃ s' role', loadPage k data p pd s page = .ok s' ∧ Uses 2 s s' ∧
      Building s₀ role' s' pd ∧ (Grown s s' pd [page] ∧ PagesPlaced s s' pd p.pageFlags [page]) ∧
      ∀ virt < 2 ^ 32, dirIndex virt < 768 → view s'.phys pd virt =
        if virt / 4096 = page / 4096 then some (p.byte k data virt) else view s.phys pd virt) := by
  rcases h.alloc (.page (page / 4096)) with ⟨herr, hshort⟩ | ⟨phys, s1, hcall, huse1, hfresh, hphys1, hb1⟩
  · exact Or.inl ⟨by rw [loadPage, herr]; rfl, fun hs => hshort (hs.mono (by decide))⟩
  have hself : Function.update role phys (some (.page (page / 4096))) phys =
      some (.page (page / 4096)) := Function.update_self ..
  rcases hb1.map hself hpage (pageFlags_user p) with
    ⟨herr, hshort⟩ | ⟨s2, role2, hmap, huse2, hmore, hb2, hlookup2, hbytes2⟩
  · exact Or.inl ⟨by rw [loadPage, hcall, ok_bind]; dsimp only; rw [herr]; rfl,
      fun hs => hshort (huse1 1 hs)⟩
  have hrole := hmore _ _ (Function.update_self phys (some (.page (page / 4096))) role)
  have hmore' : MoreRoles role role2 := fun f r hr => hmore _ _ (MoreRoles.update hfresh _ f r hr)
  obtain ⟨hal, hlt⟩ := hb2.frame phys (by simp [hrole])
  obtain ⟨s3, hzero, hpmm3, hb3, hlookup3, hbytes3⟩ := hb2.zero hrole
  have huse3 : Uses 2 s s3 := (huse1.trans huse2).trans (Uses.same hpmm3)
  have hlook : ∀ virt < 2 ^ 32, dirIndex virt < 768 → lookup s3.phys pd virt =
      if virt / 4096 = page / 4096 then pageEntry phys p.pageFlags else lookup s.phys pd virt := by
    intro virt hvirt hdir
    rw [hlookup3 virt hdir, hlookup2 virt hvirt hdir, hphys1]
  have hgrown : Grown s s3 pd [page] := by
    have hone := hb1.map_grown hpage hmap hlookup2
    rw [show frameOf page = page by simp only [frameOf]; omega] at hone
    have hwrite := hb2.write_grown hrole hpmm3 hlookup3 fun x hx hne => by
      rw [hbytes3 x hx, if_neg hne]
    exact ((allocFrame_grown hcall hphys1).append hone).append hwrite
  have hfree := (allocFrame_ok hcall).free
  have hold : ∀ x, PageByte role x → s3.phys x = s.phys x := by
    rintro x ⟨v, hv⟩
    have hv2 := hmore' _ _ hv
    have hne : frameOf x ≠ phys := fun heq => by rw [heq, hfresh] at hv; cases hv
    rw [hbytes3 x (by simp [hv2]), if_neg hne,
      hbytes2 x ⟨v, MoreRoles.update hfresh _ _ _ hv⟩, hphys1]
  have hnew : ∀ o < 4096, s3.phys (phys + o) = 0 := by
    intro o ho
    rw [hbytes3 _ (by rw [frameOf_add hal ho]; simp [hrole]), if_pos (frameOf_add hal ho)]
  have hcalls : loadPage k data p pd s page =
      (if page + PAGE_SIZE ≤ p.vaddr ∨ page ≥ p.fileEnd then .ok s3
      else copyToPhys k s3 phys ((if page < p.vaddr then p.vaddr else page) - page)
        (add32 data (add32 p.offset ((if page < p.vaddr then p.vaddr else page) - p.vaddr)))
        (sub32 (if page + PAGE_SIZE > p.fileEnd then p.fileEnd else page + PAGE_SIZE)
          (if page < p.vaddr then p.vaddr else page))) := by
    rw [loadPage, hcall, ok_bind]
    dsimp only
    rw [hmap, ok_bind, hzero]
    rfl
  rw [hcalls]
  simp only [PAGE_SIZE] at hstart
  by_cases hbranch : page + PAGE_SIZE ≤ p.vaddr ∨ page ≥ p.fileEnd
  · have hend : p.fileEnd ≤ page := by
      simp only [PAGE_SIZE] at hbranch
      omega
    rw [if_pos hbranch]
    refine Or.inr (Or.inr ⟨fun hlt => absurd hlt (by omega), s3, role2, rfl, huse3, hb3,
      ⟨hgrown, .of_lookup hal hlt hfree hlook⟩, ?_⟩)
    have hview := h.view_placed hlook hlt hal hold (c := fun _ => 0) hnew
    intro virt hvirt hdir
    rw [hview virt hvirt hdir]
    split
    case isTrue hsame =>
      rw [Phdr.byte, if_neg]
      omega
    case isFalse => rfl
  · rw [if_neg hbranch]
    have hend : page < p.fileEnd := by omega
    generalize hcs : (if page < p.vaddr then p.vaddr else page) = copyStart
    generalize hce : (if page + PAGE_SIZE > p.fileEnd then p.fileEnd else page + PAGE_SIZE) = copyEnd
    obtain ⟨hcs1, hcs2, hcs3, hgood, -⟩ := copyLen_eq hcs.symm hce.symm hstart hend
    obtain ⟨hcopy, hfault⟩ := hb3.copy hrole k (copyStart - page)
      (add32 data (add32 p.offset (copyStart - p.vaddr))) (sub32 copyEnd copyStart)
      (by simp only [PAGE_SIZE] at hcs3; omega) (add32_lt _ _)
    have hloads := p.pageLoads_iff k data hcs.symm hce.symm hstart hend
    by_cases hok : p.PageLoads k data page
    · obtain ⟨hle, -⟩ := hok hend
      obtain ⟨hlen, hce1, hce2⟩ := hgood hle
      obtain ⟨s4, hcopy, hpmm4, hb4, hlookup4, hbytes4⟩ := hcopy (hloads.mp hok)
      rw [hcopy]
      have hlook4 : ∀ virt < 2 ^ 32, dirIndex virt < 768 → lookup s4.phys pd virt =
          if virt / 4096 = page / 4096 then pageEntry phys p.pageFlags else lookup s.phys pd virt :=
        fun virt hvirt hdir => (hlookup4 virt hdir).trans (hlook virt hvirt hdir)
      have hgrown4 := hgrown.append (hb3.write_grown hrole hpmm4 hlookup4 fun x hx hne => by
        rw [hbytes4 x hx, if_neg]
        simp only [frameOf] at hne
        simp only [PAGE_SIZE] at hce2
        omega)
      refine Or.inr (Or.inr ⟨hok, s4, role2, rfl, huse3.trans (Uses.same hpmm4), hb4,
        ⟨hgrown4, .of_lookup hal hlt hfree hlook4⟩, ?_⟩)
      have hold4 : ∀ x, PageByte role x → s4.phys x = s.phys x := by
        rintro x ⟨v, hv⟩
        have hv2 := hmore' _ _ hv
        have hne : frameOf x ≠ phys := fun heq => by rw [heq, hfresh] at hv; cases hv
        rw [hbytes4 x (by simp [hv2]), if_neg, hold x ⟨v, hv⟩]
        simp only [frameOf] at hne
        simp only [PAGE_SIZE] at hce2
        omega
      have hnew4 : ∀ o < 4096, s4.phys (phys + o) = p.byte k data (page + o) := by
        intro o ho
        have hin : p.vaddr ≤ page + o ∧ page + o < p.fileEnd ↔
            copyStart ≤ page + o ∧ page + o < copyEnd :=
          copy_inside hcs.symm hce.symm (Nat.le_add_right _ _) (Nat.add_lt_add_left ho page)
        rw [hbytes4 _ (by rw [frameOf_add hal ho]; simp [hrole]), hnew o ho, Phdr.byte]
        simp only [hin]
        by_cases hc : copyStart ≤ page + o ∧ page + o < copyEnd
        · have hj : phys + o - (phys + (copyStart - page)) = page + o - copyStart := by omega
          rw [if_pos hc, if_pos (by omega), bytesAt, p.copy_source data hcs2, hj,
            Nat.add_sub_cancel' hc.1]
        · rw [if_neg hc, if_neg (by omega)]
      have hview := h.view_placed hlook4 hlt hal hold4 (c := fun o => p.byte k data (page + o)) hnew4
      intro virt hvirt hdir
      rw [hview virt hvirt hdir]
      split
      case isTrue hsame =>
        have hvirt' : page + virt % 4096 = virt := by omega
        rw [hvirt']
      case isFalse => rfl
    · exact Or.inr (Or.inl ⟨hok, hfault fun hc => hok (hloads.mpr hc)⟩)

/-! ## A segment -/

/-- The loader maps the page of `virt` for the segment. -/
def Phdr.Covers (p : Phdr) (virt : Nat) : Prop := p.virtStart ≤ virt ∧ frameOf virt < p.virtEnd

instance (p : Phdr) (virt : Nat) : Decidable (p.Covers virt) := inferInstanceAs (Decidable (_ ∧ _))

/-- What the checks of the loader guarantee. -/
structure Phdr.Checked (p : Phdr) : Prop where
  vaddr : p.vaddr < KERNEL_VIRT_BASE
  virtEnd : p.virtEnd ≤ USER_STACK_TOP

theorem Phdr.Checked.virtStart_eq {p : Phdr} (h : p.Checked) : p.virtStart = frameOf p.vaddr :=
  and_mask (Nat.lt_trans h.vaddr (by decide))

theorem mem_pages {p : Phdr} (h : p.Checked) (page : Nat) :
    page ∈ p.pages ↔ page % 4096 = 0 ∧ p.virtStart ≤ page ∧ page < p.virtEnd := by
  have hal := frameOf_aligned p.vaddr
  rw [Phdr.pages, List.mem_range', h.virtStart_eq]
  simp only [PAGE_SIZE]
  constructor
  · rintro ⟨i, hi, rfl⟩
    omega
  · rintro ⟨h1, h2, h3⟩
    exact ⟨(page - frameOf p.vaddr) / 4096, by omega, by omega⟩

theorem mem_pages_frameOf {p : Phdr} (h : p.Checked) (virt : Nat) :
    frameOf virt ∈ p.pages ↔ p.Covers virt := by
  have hal := frameOf_aligned p.vaddr
  rw [mem_pages h, Phdr.Covers, h.virtStart_eq]
  simp only [frameOf] at *
  omega

/-- The pages lie below the stack, and each ends after the segment starts. -/
theorem low_pages {p : Phdr} (h : p.Checked) : ∀ page ∈ p.pages, page % 4096 = 0 ∧
    page + PAGE_SIZE ≤ USER_STACK_TOP ∧ p.vaddr < page + PAGE_SIZE := by
  intro page hpage
  obtain ⟨h1, h2, h3⟩ := (mem_pages h page).mp hpage
  have hend := h.virtEnd
  rw [h.virtStart_eq] at h2
  simp only [USER_STACK_TOP, PAGE_SIZE, frameOf] at *
  omega

/-- Every page of the segment can be loaded. -/
def Phdr.Loads (k : Bytes32) (data : Nat) (p : Phdr) : Prop := ∀ page ∈ p.pages, p.PageLoads k data page

theorem loadPages_cases (k : Bytes32) (data : Nat) (p : Phdr) (h : Building s₀ role s pd)
    {pages : List Nat} (hpages : ∀ page ∈ pages, page % 4096 = 0 ∧
      page + PAGE_SIZE ≤ USER_STACK_TOP ∧ p.vaddr < page + PAGE_SIZE) :
    (pages.foldlM (loadPage k data p pd) s = .error .noFrame ∧ ¬ Spare (2 * pages.length) s.pmm) ∨
    (¬ (∀ page ∈ pages, p.PageLoads k data page) ∧
      pages.foldlM (loadPage k data p pd) s = .error .fault) ∨
    ((∀ page ∈ pages, p.PageLoads k data page) ∧ ∃ s' role',
      pages.foldlM (loadPage k data p pd) s = .ok s' ∧ Uses (2 * pages.length) s s' ∧
      Building s₀ role' s' pd ∧ (Grown s s' pd pages ∧ PagesPlaced s s' pd p.pageFlags pages) ∧
      ∀ virt < 2 ^ 32, dirIndex virt < 768 → view s'.phys pd virt =
        if frameOf virt ∈ pages then some (p.byte k data virt) else view s.phys pd virt) := by
  induction pages generalizing s role with
  | nil => exact Or.inr (Or.inr ⟨by simp, s, role, rfl, .refl s, h,
      ⟨.refl s pd, fun _ _ _ hmem => by cases hmem⟩, fun _ _ _ => by simp⟩)
  | cons page pages ih =>
    obtain ⟨hal, htop, hstart⟩ := hpages page (List.mem_cons_self ..)
    have hlt : page < KERNEL_VIRT_BASE := by
      simp only [USER_STACK_TOP, KERNEL_VIRT_BASE, PAGE_SIZE] at *
      omega
    simp only [List.foldlM_cons, List.forall_mem_cons]
    have hlen : 2 * (page :: pages).length = 2 * pages.length + 2 := by
      rw [List.length_cons, Nat.mul_add]
    rcases loadPage_cases k data p h hal hlt hstart with
      ⟨herr, hshort⟩ | ⟨hbad, herr⟩ | ⟨hgood, s1, role1, hok, huse1, hb1, ⟨hgrown1, hplaced1⟩, hview1⟩
    · exact Or.inl ⟨by rw [herr]; rfl, fun hs => hshort (hs.mono (by omega))⟩
    · exact Or.inr (Or.inl ⟨fun hall => hbad hall.1, by rw [herr]; rfl⟩)
    · rw [hok, ok_bind]
      rcases ih hb1 fun q hq => hpages q (List.mem_cons_of_mem _ hq) with
        ⟨herr, hshort⟩ | ⟨hbad, herr⟩ | ⟨hrest, s', role', hok', huse', hb', ⟨hgrown', hplaced'⟩, hview'⟩
      · exact Or.inl ⟨herr, fun hs => hshort (huse1 _ (hs.mono (by omega)))⟩
      · exact Or.inr (Or.inl ⟨fun hall => hbad hall.2, herr⟩)
      · refine Or.inr (Or.inr ⟨⟨hgood, hrest⟩, s', role', hok', (huse1.trans huse').mono (by omega),
          hb', ⟨hgrown1.append hgrown', hplaced1.append hplaced' hgrown1 hgrown'⟩,
          fun virt hvirt hdir => ?_⟩)
        have hsame : virt / 4096 = page / 4096 ↔ frameOf virt = page := by
          simp only [frameOf]
          omega
        rw [hview' virt hvirt hdir, hview1 virt hvirt hdir]
        simp only [List.mem_cons, hsame]
        by_cases h1 : frameOf virt ∈ pages
        · rw [if_pos h1, if_pos (Or.inr h1)]
        · by_cases h2 : frameOf virt = page
          · rw [if_neg h1, if_pos h2, if_pos (Or.inl h2)]
          · rw [if_neg h1, if_neg h2, if_neg (by simp [h1, h2])]

/-! ## The program headers -/

theorem readPhdr_checked {k : Bytes32} {phdr : Nat} {p : Phdr}
    (h : readPhdr k phdr = .ok (some p)) : p.Checked := by
  obtain ⟨type, -, h⟩ := bind_ok h
  split at h
  · cases h
  obtain ⟨vaddr, -, h⟩ := bind_ok h
  obtain ⟨memsz, -, h⟩ := bind_ok h
  by_cases hvaddr : vaddr ≥ KERNEL_VIRT_BASE
  · rw [if_pos hvaddr] at h
    cases h
  rw [if_neg hvaddr] at h
  by_cases hend : add32 vaddr memsz > USER_STACK_TOP
  · rw [if_pos hend] at h
    cases h
  rw [if_neg hend] at h
  obtain ⟨flags, -, h⟩ := bind_ok h
  obtain ⟨filesz, -, h⟩ := bind_ok h
  obtain ⟨offset, -, h⟩ := bind_ok h
  cases h
  exact ⟨Nat.lt_of_not_le hvaddr, Nat.le_of_not_lt hend⟩

theorem load_error {k : Bytes32} {a n : Nat} {e : Halt} (h : load k a n = .error e) : e = .fault := by
  rw [load] at h
  split at h
  · cases h
  · cases h
    rfl

theorem readPhdr_error {k : Bytes32} {phdr : Nat} (h : readPhdr k phdr = .error .noFrame) : False := by
  have hload : ∀ {a n}, load k a n ≠ .error .noFrame := fun hl => by cases load_error hl
  rcases bind_error h with h | ⟨type, -, h⟩
  · exact hload h
  split at h
  · cases h
  rcases bind_error h with h | ⟨vaddr, -, h⟩
  · exact hload h
  rcases bind_error h with h | ⟨memsz, -, h⟩
  · exact hload h
  split at h
  · cases h
  split at h
  · cases h
  rcases bind_error h with h | ⟨flags, -, h⟩
  · exact hload h
  rcases bind_error h with h | ⟨filesz, -, h⟩
  · exact hload h
  rcases bind_error h with h | ⟨offset, -, h⟩
  · exact hload h
  cases h

/-- The segment of program header `i`, if it has one. -/
def segmentAt (k : Bytes32) (data : Nat) (e : Ehdr) (i : Nat) : Option Phdr :=
  match readPhdr k (phdrAt data e i) with
  | .ok (some p) => some p
  | _ => none

/-- The segments in the order of their headers. -/
def segments (k : Bytes32) (data : Nat) (e : Ehdr) : List Phdr :=
  (List.range e.phnum).filterMap (segmentAt k data e)

/-- The header passes the checks of the loader, and its segment can be loaded. -/
def HeaderLoads (k : Bytes32) (data : Nat) (e : Ehdr) (i : Nat) : Prop :=
  match readPhdr k (phdrAt data e i) with
  | .ok (some p) => p.Loads k data
  | .ok none => True
  | .error _ => False

/-- What is seen when one segment after the other is loaded over `under`. -/
def imageView (k : Bytes32) (data : Nat) (under : Bytes32) (segs : List Phdr) : Bytes32 :=
  segs.foldl (fun seen p virt => if p.Covers virt then some (p.byte k data virt) else seen virt) under

/-- The end of the last segment. -/
def highestEnd (highest : Nat) (segs : List Phdr) : Nat :=
  segs.foldl (fun highest p => if p.virtEnd > highest then p.virtEnd else highest) highest

/-- The frames that the segments take at most. -/
def segmentFrames (segs : List Phdr) : Nat := (segs.map fun p => 2 * p.pages.length).sum

theorem imageView_congr (k : Bytes32) (data : Nat) {under under' : Bytes32} (segs : List Phdr)
    {virt : Nat} (h : under' virt = under virt) :
    imageView k data under' segs virt = imageView k data under segs virt := by
  induction segs generalizing under under' with
  | nil => exact h
  | cons p segs ih =>
    refine ih ?_
    simp only [h]

theorem loadHeaders_cases (k : Bytes32) (data : Nat) (e : Ehdr) (h : Building s₀ role s pd)
    (highest : Nat) (is : List Nat) :
    (is.foldlM (loadHeader k data e pd) (s, highest) = .error .noFrame ∧
      ¬ Spare (segmentFrames (is.filterMap (segmentAt k data e))) s.pmm) ∨
    (¬ (∀ i ∈ is, HeaderLoads k data e i) ∧
      ∃ halt, is.foldlM (loadHeader k data e pd) (s, highest) = .error halt ∧ halt ≠ .noFrame) ∨
    ((∀ i ∈ is, HeaderLoads k data e i) ∧ ∃ s' role',
      is.foldlM (loadHeader k data e pd) (s, highest) =
        .ok (s', highestEnd highest (is.filterMap (segmentAt k data e))) ∧
      Uses (segmentFrames (is.filterMap (segmentAt k data e))) s s' ∧ Building s₀ role' s' pd ∧
      Grown s s' pd ((is.filterMap (segmentAt k data e)).flatMap Phdr.pages) ∧
      ∀ virt < 2 ^ 32, dirIndex virt < 768 → view s'.phys pd virt =
        imageView k data (view s.phys pd) (is.filterMap (segmentAt k data e)) virt) := by
  induction is generalizing s role highest with
  | nil => exact Or.inr (Or.inr ⟨by simp, s, role, rfl, .refl s, h, .refl s pd, fun _ _ _ => rfl⟩)
  | cons i is ih =>
    simp only [List.foldlM_cons, List.forall_mem_cons, List.filterMap_cons]
    cases hread : readPhdr k (phdrAt data e i) with
    | error halt =>
      have hhead : ¬ HeaderLoads k data e i := by
        rw [HeaderLoads, hread]
        exact id
      refine Or.inr (Or.inl ⟨fun hall => hhead hall.1, halt, ?_, ?_⟩)
      · rw [loadHeader, hread]
        rfl
      · rintro rfl
        exact readPhdr_error hread
    | ok o =>
      cases o with
      | none =>
        have hstep : loadHeader k data e pd (s, highest) i = .ok (s, highest) := by
          rw [loadHeader, hread]
          rfl
        have hhead : HeaderLoads k data e i := by
          rw [HeaderLoads, hread]
          trivial
        have hseg : segmentAt k data e i = none := by rw [segmentAt, hread]
        rw [hstep, ok_bind, hseg]
        simpa only [hhead, true_and] using ih h highest
      | some p =>
        have hc := readPhdr_checked hread
        have hstep : loadHeader k data e pd (s, highest) i =
            (p.pages.foldlM (loadPage k data p pd) s >>= fun s' =>
              .ok (s', if p.virtEnd > highest then p.virtEnd else highest)) := by
          rw [loadHeader, hread]
          rfl
        have hhead : HeaderLoads k data e i ↔ p.Loads k data := by rw [HeaderLoads, hread]
        have hseg : segmentAt k data e i = some p := by rw [segmentAt, hread]
        rw [hstep, hseg, hhead]
        dsimp only
        generalize hsegs : is.filterMap (segmentAt k data e) = segs at ih ⊢
        have hframes : segmentFrames (p :: segs) = 2 * p.pages.length + segmentFrames segs := by
          rw [segmentFrames, segmentFrames, List.map_cons, List.sum_cons]
        rcases loadPages_cases k data p h (low_pages hc) with
          ⟨herr, hshort⟩ | ⟨hbad, herr⟩ | ⟨hgood, s1, role1, hok, huse1, hb1, ⟨hgrown1, -⟩, hview1⟩
        · exact Or.inl ⟨by rw [herr]; rfl, fun hs => hshort (hs.mono (by omega))⟩
        · exact Or.inr (Or.inl ⟨fun hall => hbad hall.1, .fault, by rw [herr]; rfl, by simp⟩)
        · rw [hok, ok_bind, ok_bind]
          rcases ih hb1 (if p.virtEnd > highest then p.virtEnd else highest) with
            ⟨herr, hshort⟩ | ⟨hbad, halt, herr, hne⟩ | ⟨hrest, s', role', hok', huse', hb', hgrown', hview'⟩
          · exact Or.inl ⟨herr, fun hs => hshort (huse1 _ (hs.mono (by omega)))⟩
          · exact Or.inr (Or.inl ⟨fun hall => hbad hall.2, halt, herr, hne⟩)
          · refine Or.inr (Or.inr ⟨⟨hgood, hrest⟩, s', role', hok',
              (huse1.trans huse').mono (by omega), hb', hgrown1.append hgrown',
              fun virt hvirt hdir => ?_⟩)
            rw [hview' virt hvirt hdir]
            refine imageView_congr k data _ ?_
            rw [hview1 virt hvirt hdir]
            simp only [mem_pages_frameOf hc]

/-- **The segments.**  Unless the frames run out, they are loaded exactly when every
header and every page can be, and a program sees the last segment of each page. -/
theorem loadSegments_cases (k : Bytes32) (data : Nat) (e : Ehdr) (h : Building s₀ role s pd) :
    (loadSegments k data e pd s = .error .noFrame ∧
      ¬ Spare (segmentFrames (segments k data e)) s.pmm) ∨
    (¬ (∀ i < e.phnum, HeaderLoads k data e i) ∧
      ∃ halt, loadSegments k data e pd s = .error halt ∧ halt ≠ .noFrame) ∨
    ((∀ i < e.phnum, HeaderLoads k data e i) ∧ ∃ s' role',
      loadSegments k data e pd s = .ok (s', highestEnd 0 (segments k data e)) ∧
      Uses (segmentFrames (segments k data e)) s s' ∧ Building s₀ role' s' pd ∧
      Grown s s' pd ((segments k data e).flatMap Phdr.pages) ∧
      ∀ virt < 2 ^ 32, dirIndex virt < 768 → view s'.phys pd virt =
        imageView k data (view s.phys pd) (segments k data e) virt) := by
  have hcases := loadHeaders_cases k data e h 0 (List.range e.phnum)
  simp only [List.mem_range] at hcases
  exact hcases

end Page

end FrogKernel.Loader
