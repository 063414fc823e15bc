import FrogKernel.Lib.Traces
import FrogKernel.Userspace.NewProcess

/-!
# What the loader reads of the file (`uprocess_load` in `userspace/uprocess.c`)

The loader again, with the addresses of the file that it reads as its trace; it comes to
the same.  `reads_inside_iff` says when all of them lie in the file.
-/

namespace FrogKernel.Loader

open FrogKernel.Bytes FrogKernel.PageTables FrogKernel.Pmm FrogKernel.Paging FrogKernel.Spaces
  FrogKernel.CStrings FrogKernel.ForeignMap FrogKernel.AddressSpace FrogKernel.Traces
open FrogKernel.Kheap (add32 sub32 add32_lt)

/-! ## The loader with its reads -/

abbrev Reading (α : Type) := Traced Halt Nat α

def loadTraced (k : Bytes32) (a n : Nat) : Reading Nat :=
  emit ((List.range n).map fun j => (a + j) % 2 ^ 32) (load k a n)

def readEhdrTraced (k : Bytes32) (data : Nat) : Reading Ehdr := do
  let magic ← loadTraced k data 4
  if magic ≠ ELF_MAGIC then silent (.error (.panic "uprocess_load() -> not a valid ELF binary" []))
  else do
    let type ← loadTraced k (add32 data 16) 2
    if type ≠ ET_EXEC then
      silent (.error (.panic "uprocess_load() -> not an executable ELF" []))
    else do
      let entry ← loadTraced k (add32 data 24) 4
      let phoff ← loadTraced k (add32 data 28) 4
      let phentsize ← loadTraced k (add32 data 42) 2
      let phnum ← loadTraced k (add32 data 44) 2
      pure { entry, phoff, phentsize, phnum }

def readPhdrTraced (k : Bytes32) (phdr : Nat) : Reading (Option Phdr) := do
  let type ← loadTraced k phdr 4
  if type ≠ PT_LOAD then pure none
  else do
    let vaddr ← loadTraced k (add32 phdr 8) 4
    let memsz ← loadTraced k (add32 phdr 20) 4
    if vaddr ≥ KERNEL_VIRT_BASE then
      silent (.error (.panic "uprocess_load() -> segment overlaps kernel at 0x%08x" [vaddr]))
    else if add32 vaddr memsz > USER_STACK_TOP then
      silent (.error (.panic "uprocess_load() -> segment overlaps stack" []))
    else do
      -- the other two lie before it, and are not needed for a segment without pages
      let flags ← loadTraced k (add32 phdr 24) 4
      let filesz ← loadTraced k (add32 phdr 16) 4
      let offset ← loadTraced k (add32 phdr 4) 4
      pure (some { offset, vaddr, filesz, memsz, flags })

def memcpyTraced (src : Bytes32) (s : Machine) (dst start : Nat) : Nat → Reading Machine
  | 0 => pure s
  | n + 1 => do
    let b ← emit [start] (orFault (src start))
    let a ← silent (orFault (translate s.phys s.cr3 dst))
    memcpyTraced src { s with phys := write8 s.phys a b.toNat } (add32 dst 1) (add32 start 1) n

def copyToPhysTraced (src : Bytes32) (s : Machine) (phys offsetInPage start len : Nat) :
    Reading Machine := do
  let s ← silent (setSlot s TEMP_FRAME_SLOT (phys ||| PAGE_PRESENT ||| PAGE_RW))
  let s ← memcpyTraced src s (TEMP_FRAME_VIRT + offsetInPage) start len
  silent (setSlot s TEMP_FRAME_SLOT 0)

def loadPageTraced (k : Bytes32) (data : Nat) (p : Phdr) (pdPhys : Nat) (s : Machine) (virt : Nat) :
    Reading Machine := do
  let (phys, s) ← silent (allocFrame s)
  let s ← silent (foreignMapPage s pdPhys phys virt p.pageFlags)
  let pageStart := virt
  let pageEnd := virt + PAGE_SIZE
  let fileStart := p.vaddr
  let fileEnd := add32 p.vaddr p.filesz
  if pageEnd ≤ fileStart ∨ pageStart ≥ fileEnd then silent (zeroPhys s phys 0 PAGE_SIZE)
  else do
    let copyStart := if pageStart < fileStart then fileStart else pageStart
    let copyEnd := if pageEnd > fileEnd then fileEnd else pageEnd
    let offsetInPage := copyStart - pageStart
    let offsetInFile := add32 p.offset (copyStart - fileStart)
    let copyLen := sub32 copyEnd copyStart
    let s ← silent (zeroPhys s phys 0 PAGE_SIZE)
    copyToPhysTraced k s phys offsetInPage (add32 data offsetInFile) copyLen

def loadHeaderTraced (k : Bytes32) (data : Nat) (e : Ehdr) (pdPhys : Nat) (s : Machine × Nat)
    (i : Nat) : Reading (Machine × Nat) := do
  match ← readPhdrTraced k (phdrAt data e i) with
  | none => pure s
  | some p => do
    let highest := if p.virtEnd > s.2 then p.virtEnd else s.2
    let s ← p.pages.foldlM (loadPageTraced k data p pdPhys) s.1
    pure (s, highest)

def loadSegmentsTraced (k : Bytes32) (data : Nat) (e : Ehdr) (pdPhys : Nat) (s : Machine) :
    Reading (Machine × Nat) :=
  (List.range e.phnum).foldlM (loadHeaderTraced k data e pdPhys) (s, 0)

def uprocessLoadTraced (k : Bytes32) (s : Machine) (pdPhys data : Nat) (argv : List Nat) :
    Reading (Loaded × Machine) := do
  let e ← readEhdrTraced k data
  let (s, highest) ← loadSegmentsTraced k data e pdPhys s
  let (initialUserEsp, s) ← silent (loadStack k s pdPhys argv)
  pure (⟨e.entry, add32 highest (PAGE_SIZE - 1) &&& 0xfffff000, initialUserEsp⟩, s)

/-! ## It comes to the same -/

section Result

variable (k : Bytes32) (data pd : Nat)

@[simp] theorem loadTraced_result (a n : Nat) : (loadTraced k a n).result = load k a n := rfl

@[simp] theorem readEhdrTraced_result : (readEhdrTraced k data).result = readEhdr k data := by
  simp only [readEhdrTraced, readEhdr, result_bind, result_ite, result_silent, result_pure,
    loadTraced_result]

@[simp] theorem readPhdrTraced_result (phdr : Nat) :
    (readPhdrTraced k phdr).result = readPhdr k phdr := by
  simp only [readPhdrTraced, readPhdr, result_bind, result_ite, result_silent, result_pure,
    loadTraced_result]

@[simp] theorem memcpyTraced_result (s : Machine) (dst start n : Nat) :
    (memcpyTraced k s dst start n).result = memcpy k s dst start n := by
  induction n generalizing s dst start with
  | zero => rfl
  | succ n ih => simp only [memcpyTraced, memcpy, result_bind, result_emit, result_silent, ih]

@[simp] theorem copyToPhysTraced_result (s : Machine) (phys o start n : Nat) :
    (copyToPhysTraced k s phys o start n).result = copyToPhys k s phys o start n := by
  simp only [copyToPhysTraced, copyToPhys, result_bind, result_silent, memcpyTraced_result]

@[simp] theorem loadPageTraced_result (p : Phdr) (s : Machine) (virt : Nat) :
    (loadPageTraced k data p pd s virt).result = loadPage k data p pd s virt := by
  simp only [loadPageTraced, loadPage, result_bind, result_ite, result_silent,
    copyToPhysTraced_result]

@[simp] theorem loadHeaderTraced_result (e : Ehdr) (s : Machine × Nat) (i : Nat) :
    (loadHeaderTraced k data e pd s i).result = loadHeader k data e pd s i := by
  rw [loadHeaderTraced, loadHeader, result_bind, readPhdrTraced_result]
  refine congrArg _ (funext fun o => ?_)
  cases o with
  | none => rfl
  | some p =>
    simp only [result_bind, result_foldlM, result_pure, loadPageTraced_result]

theorem loadSegmentsTraced_result (e : Ehdr) (s : Machine) :
    (loadSegmentsTraced k data e pd s).result = loadSegments k data e pd s := by
  simp only [loadSegmentsTraced, loadSegments, result_foldlM, loadHeaderTraced_result]

/-- **The reads are those of `uprocess_load`.** -/
theorem uprocessLoadTraced_result (s : Machine) (argv : List Nat) :
    (uprocessLoadTraced k s pd data argv).result = uprocessLoad k s pd data argv := by
  simp only [uprocessLoadTraced, uprocessLoad, result_bind, result_silent, result_pure,
    readEhdrTraced_result, loadSegmentsTraced_result]

end Result

/-! ## Reads in the file -/

/-- The `size` bytes of the file, in kernel memory. -/
structure FileBuffer (k : Bytes32) (data size : Nat) : Prop where
  kernel : KERNEL_VIRT_BASE ≤ data
  lt : data < 2 ^ 32
  fits : data + size ≤ 2 ^ 32
  readable : Readable k data size

/-- Whatever is read has an index below `size`. -/
def ReadsInside (data size : Nat) {α : Type} (x : Reading α) : Prop :=
  ∀ a ∈ x.trace, sub32 a data < size

/-- The `n` bytes from index `o` on are in the file. -/
def InFile (size o n : Nat) : Prop := n = 0 ∨ o + n ≤ size

instance (size o n : Nat) : Decidable (InFile size o n) := inferInstanceAs (Decidable (_ ∨ _))

/-- The number of `n` bytes at index `o`. -/
def field (k : Bytes32) (data o n : Nat) : Nat := readN (bytesAt k (add32 data o)) 0 n

section Inside

variable {α β : Type} {k : Bytes32} {data size o n : Nat}

@[simp] theorem inside_silent (r : Except Halt α) : ReadsInside data size (silent r) :=
  List.forall_mem_nil _

@[simp] theorem inside_pure (a : α) : ReadsInside data size (pure a : Reading α) :=
  List.forall_mem_nil _

theorem inside_bind {x : Reading α} {f : α → Reading β} :
    ReadsInside data size (x >>= f) ↔
      ReadsInside data size x ∧ ∀ a, x.result = .ok a → ReadsInside data size (f a) :=
  forall_mem_bind

theorem inside_silent_ok {a : α} {f : α → Reading β} :
    ReadsInside data size (silent (.ok a) >>= f) ↔ ReadsInside data size (f a) := by
  rw [inside_bind]
  simp

theorem inside_silent_error {e : Halt} {f : α → Reading β} :
    ReadsInside data size (silent (.error e) >>= f) := by
  rw [inside_bind]
  simp

theorem inside_ite {p : Prop} [Decidable p] {x y : Reading α} :
    ReadsInside data size (if p then x else y) ↔
      if p then ReadsInside data size x else ReadsInside data size y := by
  split <;> rfl

theorem FileBuffer.size_le (h : FileBuffer k data size) : size ≤ 2 ^ 30 := by
  have hkernel := h.kernel
  have hfits := h.fits
  simp only [KERNEL_VIRT_BASE] at hkernel
  omega

theorem FileBuffer.add_zero (h : FileBuffer k data size) : add32 data 0 = data :=
  Nat.mod_eq_of_lt h.lt

theorem add32_add32 (a b c : Nat) : add32 (add32 a b) c = add32 a (b + c) := by
  simp only [add32]
  omega

/-- The index of an address of the file. -/
theorem index_eq (data o j : Nat) :
    sub32 ((add32 data o + j) % 2 ^ 32) data = (o + j) % 2 ^ 32 := by
  simp only [sub32, add32]
  omega

/-- The first index outside of the file is one of those. -/
theorem inFile_iff (ho : o < 2 ^ 32) (hsize : size ≤ 2 ^ 30) :
    (∀ j < n, (o + j) % 2 ^ 32 < size) ↔ InFile size o n := by
  rw [InFile]
  constructor
  · intro h
    by_contra hout
    have h0 := h 0 (by omega)
    have hend := h (size - o) (by omega)
    omega
  · intro h j hj
    omega

theorem FileBuffer.isSome (h : FileBuffer k data size) (ho : o < size) :
    (k (add32 data o)).isSome = true :=
  h.readable o ho

theorem FileBuffer.load_eq (h : FileBuffer k data size) (hin : o + n ≤ size) :
    load k (add32 data o) n = .ok (field k data o n) := by
  have hsize := h.size_le
  rw [load, if_pos, field]
  intro j hj
  have hread := h.readable (o + j) (by omega)
  rwa [← Nat.add_assoc, ← Nat.mod_add_mod] at hread

theorem inside_load (h : FileBuffer k data size) (ho : o < 2 ^ 32) :
    ReadsInside data size (loadTraced k (add32 data o) n) ↔ InFile size o n := by
  rw [← inFile_iff ho h.size_le, ReadsInside, loadTraced, trace_emit]
  simp only [List.forall_mem_map, List.mem_range, index_eq]

/-- A field that is read goes on when it lies in the file. -/
theorem inside_field (h : FileBuffer k data size) (ho : o < 2 ^ 32) (hn : 0 < n)
    {f : Nat → Reading α} :
    ReadsInside data size (loadTraced k (add32 data o) n >>= f) ↔
      o + n ≤ size ∧ ReadsInside data size (f (field k data o n)) := by
  rw [inside_bind, inside_load h ho, InFile]
  constructor
  · rintro ⟨hin, hf⟩
    have hle : o + n ≤ size := by omega
    exact ⟨hle, hf _ (h.load_eq hle)⟩
  · rintro ⟨hle, hf⟩
    refine ⟨Or.inr hle, fun a ha => ?_⟩
    rw [loadTraced_result, h.load_eq hle] at ha
    rwa [← Except.ok.inj ha]

/-- `C` is enough for all reads to be inside, and, given `S`, necessary. -/
structure ReadsWhen (data size : Nat) (S : Prop) (x : Reading α) (C : Prop) : Prop where
  inside : C → ReadsInside data size x
  only : S → ReadsInside data size x → C

section ReadsWhen

variable {S S' C C' : Prop} {x : Reading α} {f : α → Reading β}

theorem ReadsWhen.of_iff (h : ReadsInside data size x ↔ C) : ReadsWhen data size S x C :=
  ⟨h.mpr, fun _ => h.mp⟩

theorem ReadsWhen.mono (h : ReadsWhen data size S x C) (hS : S' → S) : ReadsWhen data size S' x C :=
  ⟨h.inside, fun hs => h.only (hS hs)⟩

theorem ReadsWhen.congr (h : ReadsWhen data size S x C) (hC : C ↔ C') : ReadsWhen data size S x C' :=
  ⟨fun hc => h.inside (hC.mpr hc), fun hs hr => hC.mp (h.only hs hr)⟩

/-- Two steps.  When the first fails, what the second needs has to follow. -/
theorem ReadsWhen.bind (hx : ReadsWhen data size S x C)
    (hok : ∀ a, x.result = .ok a → ReadsWhen data size S (f a) C')
    (herr : ∀ e, x.result = .error e → S → C → C') :
    ReadsWhen data size S (x >>= f) (C ∧ C') := by
  refine ⟨fun hC => inside_bind.mpr ⟨hx.inside hC.1, fun a ha => (hok a ha).inside hC.2⟩,
    fun hs hr => ?_⟩
  obtain ⟨hrx, hrf⟩ := inside_bind.mp hr
  have hC := hx.only hs hrx
  refine ⟨hC, ?_⟩
  cases hresult : x.result with
  | error e => exact herr e hresult hs hC
  | ok a => exact (hok a hresult).only hs (hrf a hresult)

end ReadsWhen

/-! ## The headers -/

/-- The end of what is read of the ELF header: that of `e_phnum`, when the checks pass. -/
def ehdrEnd (k : Bytes32) (data : Nat) : Nat :=
  if field k data 0 4 ≠ ELF_MAGIC then 4
  else if field k data 16 2 ≠ ET_EXEC then 18
  else 46

/-- The same for the program header at index `o`; the last field is `p_flags`. -/
def phdrEnd (k : Bytes32) (data o : Nat) : Nat :=
  if field k data o 4 ≠ PT_LOAD then 4
  else if field k data (o + 8) 4 ≥ KERNEL_VIRT_BASE ∨
      add32 (field k data (o + 8) 4) (field k data (o + 20) 4) > USER_STACK_TOP then 24
  else 28

theorem readEhdr_inside (h : FileBuffer k data size) :
    ReadsInside data size (readEhdrTraced k data) ↔ ehdrEnd k data ≤ size := by
  have hmagic : loadTraced k data 4 = loadTraced k (add32 data 0) 4 := by rw [h.add_zero]
  rw [readEhdrTraced, hmagic, ehdrEnd, inside_field h (by decide) (by decide), inside_ite]
  split
  · simp
  · rw [inside_field h (by decide) (by decide), inside_ite]
    split
    · simp
      omega
    · rw [inside_field h (by decide) (by decide), inside_field h (by decide) (by decide),
        inside_field h (by decide) (by decide), inside_field h (by decide) (by decide)]
      simp
      omega

theorem readPhdr_inside (h : FileBuffer k data size) (ho : o < 2 ^ 32) :
    ReadsInside data size (readPhdrTraced k (add32 data o)) ↔ o + phdrEnd k data o ≤ size := by
  have hsize := h.size_le
  rw [readPhdrTraced, phdrEnd, inside_field h ho (by decide), inside_ite]
  simp only [add32_add32]
  by_cases hin : o + 4 ≤ size
  · have hlt : ∀ d ≤ 24, o + d < 2 ^ 32 := fun d hd => by omega
    rw [and_iff_right hin]
    split
    · simp [hin]
    · rw [inside_field h (hlt 8 (by decide)) (by decide), inside_field h (hlt 20 (by decide)) (by decide),
        inside_ite]
      split
      case isTrue hkernel =>
        rw [if_pos (Or.inl hkernel)]
        simp
        omega
      case isFalse hkernel =>
        rw [inside_ite]
        split
        case isTrue hstack =>
          rw [if_pos (Or.inr hstack)]
          simp
          omega
        case isFalse hstack =>
          rw [if_neg (by omega), inside_field h (hlt 24 (by decide)) (by decide),
            inside_field h (hlt 16 (by decide)) (by decide),
            inside_field h (hlt 4 (by decide)) (by decide)]
          simp
          omega
  · constructor
    · exact fun hr => absurd hr.1 hin
    · intro hle
      refine absurd hle ?_
      split
      · exact hin
      · split <;> omega

end Inside

/-! ## A page of a segment -/

section Page

variable {k : Bytes32} {data size o off n : Nat} {s₀ s : Machine} {role : Nat → Option Role}
  {pd frame i : Nat}

/-- A copy into a window ends at the first byte behind it, which it has read by then. -/
theorem memcpy_inside (hf : FileBuffer k data size) (h : Window s i frame)
    (hclosed : present (entryAt s.phys s.cr3 (i + 1)) = false) (ho : o ≤ 4096) (hoff : off < 2 ^ 32) :
    ReadsInside data size
        (memcpyTraced k s (RECURSIVE_BASE + i * 0x1000 + o) (add32 data off) n) ↔
      InFile size off (min n (4097 - o)) := by
  have hsize := hf.size_le
  induction n generalizing s o off with
  | zero => simp [memcpyTraced, InFile]
  | succ n ih =>
    have hindex : sub32 (add32 data off) data = off := by
      have hzero := index_eq data off 0
      rwa [Nat.add_zero, Nat.mod_eq_of_lt (add32_lt data off), Nat.add_zero,
        Nat.mod_eq_of_lt hoff] at hzero
    have hread : ReadsInside data size
        (emit [add32 data off] (orFault (k (add32 data off))) : Reading (BitVec 8)) ↔ off < size := by
      rw [ReadsInside, trace_emit, List.forall_mem_singleton, hindex]
    rw [memcpyTraced, inside_bind, hread, InFile]
    by_cases hin : off < size
    · obtain ⟨b, hb⟩ := Option.isSome_iff_exists.mp (hf.isSome hin)
      rw [hb, orFault_some]
      simp only [result_emit, Except.ok.injEq, forall_eq', hin, true_and]
      by_cases hend : o = 4096
      · subst hend
        rw [h.behind hclosed, orFault_none]
        simp only [inside_silent_error, true_iff]
        omega
      · have hlt : o < 4096 := by omega
        have hclosed' := (h.entryAt_write8 hlt b.toNat h.next_lt).symm ▸ hclosed
        have hrest := ih (h.write8 hlt b.toNat) hclosed' (show o + 1 ≤ 4096 by omega)
          (show off + 1 < 2 ^ 32 by omega)
        rw [h.translate hlt, orFault_some, inside_silent_ok, h.next_addr hlt, add32_add32]
        refine hrest.trans ?_
        rw [InFile]
        omega
    · simp only [hin, false_and, false_iff]
      omega

theorem copyToPhys_inside (hf : FileBuffer k data size) (h : Building s₀ role s pd) {f v : Nat}
    (hrole : role f = some (.page v)) (ho : o ≤ 4096) (hoff : off < 2 ^ 32) :
    ReadsInside data size (copyToPhysTraced k s f o (add32 data off) n) ↔
      InFile size off (min n (4097 - o)) := by
  obtain ⟨hal, hlt, hne⟩ := h.apart (show role f ≠ none by simp [hrole])
  have hrec := h.ready.recursive
  have hw := setSlot_window hrec frame_slot hal hlt hne
  have hclosed := h.ready.closed
  rw [← entryAt_slot (e := f ||| PAGE_PRESENT ||| PAGE_RW) hrec.aligned pt_slot frame_slot
    (by decide)] at hclosed
  have hvirt : TEMP_FRAME_VIRT = RECURSIVE_BASE + TEMP_FRAME_SLOT * 0x1000 := rfl
  rw [copyToPhysTraced, setSlot_eq hrec frame_slot, inside_silent_ok, hvirt, inside_bind,
    memcpy_inside hf hw hclosed ho hoff]
  exact and_iff_left fun _ _ => inside_silent _

/-- What `loadPage` reads of the file for a page: so many bytes, -/
def Phdr.pageBytes (p : Phdr) (page : Nat) : Nat :=
  if page + PAGE_SIZE ≤ p.vaddr ∨ page ≥ p.fileEnd then 0
  else
    let copyStart := if page < p.vaddr then p.vaddr else page
    let copyEnd := if page + PAGE_SIZE > p.fileEnd then p.fileEnd else page + PAGE_SIZE
    min (sub32 copyEnd copyStart) (PAGE_SIZE + 1 - (copyStart - page))

/-- from this index on. -/
def Phdr.pageOffset (p : Phdr) (page : Nat) : Nat :=
  add32 p.offset ((if page < p.vaddr then p.vaddr else page) - p.vaddr)

/-- It is in the file. -/
def Phdr.PageInside (p : Phdr) (size page : Nat) : Prop :=
  InFile size (p.pageOffset page) (p.pageBytes page)

theorem loadPage_reads (hf : FileBuffer k data size) (p : Phdr) {page : Nat}
    (h : Building s₀ role s pd) (hpage : page < KERNEL_VIRT_BASE) (hstart : p.vaddr < page + PAGE_SIZE) :
    ReadsWhen data size (Spare 2 s.pmm) (loadPageTraced k data p pd s page)
      (p.PageInside size page) := by
  rcases h.alloc (.page (page / 4096)) with ⟨herr, hshort⟩ | ⟨phys, s1, hcall, huse1, -, -, hb1⟩
  · rw [loadPageTraced, herr]
    exact ⟨fun _ => inside_silent_error, fun hs => absurd (hs.mono (by decide)) hshort⟩
  have hself : Function.update role phys (some (.page (page / 4096))) phys =
      some (.page (page / 4096)) := Function.update_self ..
  rcases hb1.map hself hpage (pageFlags_user p) with
    ⟨herr, hshort⟩ | ⟨s2, role2, hmap, -, hmore, hb2, -, -⟩
  · refine ⟨fun _ => ?_, fun hs => absurd (huse1 1 hs) hshort⟩
    rw [loadPageTraced, hcall, inside_silent_ok]
    dsimp only
    rw [herr]
    exact inside_silent_error
  have hrole := hmore _ _ hself
  obtain ⟨s3, hzero, -, hb3, -, -⟩ := hb2.zero hrole
  have hiff : ReadsInside data size (loadPageTraced k data p pd s page) ↔ p.PageInside size page := by
    rw [loadPageTraced, hcall, inside_silent_ok]
    dsimp only
    rw [hmap, inside_silent_ok, Phdr.PageInside, Phdr.pageBytes]
    change ReadsInside data size (if page + PAGE_SIZE ≤ p.vaddr ∨ page ≥ p.fileEnd then _ else _) ↔ _
    split
    case isTrue => simp [InFile]
    case isFalse hpart =>
      rw [hzero, inside_silent_ok]
      have ho : (if page < p.vaddr then p.vaddr else page) - page ≤ 4096 := by
        simp only [PAGE_SIZE] at hstart
        split <;> omega
      exact copyToPhys_inside hf hb3 hrole ho (add32_lt ..)
  exact .of_iff hiff

end Page

/-! ## A segment -/

/-- The end of the last page. -/
def Phdr.pagesEnd (p : Phdr) : Nat := p.virtStart + PAGE_SIZE * p.pages.length

/-- How much of the file is read for a segment.  When `p_vaddr + p_filesz` wraps around, the
copy of the first page does not end before the page does. -/
def Phdr.bytesRead (p : Phdr) : Nat :=
  if p.vaddr ≤ p.fileEnd then min p.fileEnd p.pagesEnd - p.vaddr
  else if p.pages ≠ [] ∧ p.virtStart < p.fileEnd then PAGE_SIZE + 1 - p.vaddr % PAGE_SIZE
  else 0

section Segment

variable {k : Bytes32} {data size : Nat} {p : Phdr} {page : Nat}

theorem pageOffset_eq (p : Phdr) (page : Nat) :
    p.pageOffset page = (p.offset + (page - p.vaddr)) % 2 ^ 32 := by
  rw [Phdr.pageOffset, add32]
  split
  · rw [Nat.sub_self, Nat.sub_eq_zero_of_le (by omega)]
  · rfl

theorem pageBytes_eq {page : Nat} (hle : p.vaddr ≤ p.fileEnd) (hstart : p.vaddr < page + PAGE_SIZE) :
    p.pageBytes page = min p.fileEnd (page + PAGE_SIZE) - max p.vaddr page := by
  have hlt : p.fileEnd < 2 ^ 32 := add32_lt ..
  rw [Phdr.pageBytes]
  by_cases hnone : page + PAGE_SIZE ≤ p.vaddr ∨ page ≥ p.fileEnd
  · rw [if_pos hnone]
    omega
  · obtain ⟨-, -, -, hcopy, -⟩ := copyLen_eq rfl rfl hstart (Nat.lt_of_not_le (not_or.mp hnone).2)
    have hsize : PAGE_SIZE = 4096 := rfl
    rw [if_neg hnone]
    dsimp only
    rw [(hcopy hle).1]
    split <;> split <;> omega

theorem pageBytes_wrap (hlt : p.fileEnd < p.vaddr) (hvaddr : p.vaddr < 2 ^ 32)
    (haligned : page % 4096 = 0) (hstart : p.vaddr < page + PAGE_SIZE) :
    p.pageBytes page = if page < p.fileEnd then PAGE_SIZE + 1 - p.vaddr % PAGE_SIZE else 0 := by
  have hsize : PAGE_SIZE = 4096 := rfl
  rw [Phdr.pageBytes]
  by_cases hpart : page < p.fileEnd
  · rw [if_neg (by omega), if_pos hpart]
    dsimp only
    rw [if_pos (by omega), if_pos (by omega), sub32, hsize]
    omega
  · rw [if_pos (Or.inr (Nat.le_of_not_lt hpart)), if_neg hpart]

/-- The last page ends behind the last byte of the segment. -/
theorem mem_pages_end (hc : p.Checked) (haligned : page % 4096 = 0) (hstart : p.virtStart ≤ page) :
    page ∈ p.pages ↔ page + PAGE_SIZE ≤ p.pagesEnd := by
  have hal := frameOf_aligned p.vaddr
  rw [mem_pages hc, Phdr.pagesEnd, Phdr.pages, List.length_range']
  rw [hc.virtStart_eq] at *
  simp only [PAGE_SIZE]
  omega

/-- The pages of a segment are read from the file as one piece. -/
theorem pages_inside_iff (hc : p.Checked) (hoffset : p.offset < 2 ^ 32) (hsize : size ≤ 2 ^ 30) :
    (∀ page ∈ p.pages, p.PageInside size page) ↔ InFile size p.offset p.bytesRead := by
  have hPageSize : PAGE_SIZE = 4096 := rfl
  have hvaddr : p.vaddr < 0xc0000000 := hc.vaddr
  have hend : p.virtEnd ≤ 0xb0000000 := hc.virtEnd
  have hvirtStart : p.virtStart = p.vaddr / 4096 * 4096 := hc.virtStart_eq
  have hmem : ∀ page, page ∈ p.pages ↔
      page % 4096 = 0 ∧ p.virtStart ≤ page ∧ page + PAGE_SIZE ≤ p.pagesEnd := by
    intro page
    rw [← and_assoc]
    refine ⟨fun h => ?_, fun h => (mem_pages_end hc h.1.1 h.1.2).mpr h.2⟩
    obtain ⟨h1, h2, -⟩ := (mem_pages hc page).mp h
    exact ⟨⟨h1, h2⟩, (mem_pages_end hc h1 h2).mp h⟩
  have hpagesEnd : p.pagesEnd % 4096 = 0 := by
    rw [Phdr.pagesEnd, hvirtStart, hPageSize]
    omega
  have htop : ∀ page ∈ p.pages, page + PAGE_SIZE ≤ 0xb0000000 := fun page hpage =>
    (low_pages hc page hpage).2.1
  simp only [Phdr.PageInside, InFile, pageOffset_eq p]
  rw [Phdr.bytesRead]
  by_cases hle : p.vaddr ≤ p.fileEnd
  · rw [if_pos hle]
    constructor
    · intro h
      by_contra hout
      obtain ⟨hsome, hlong⟩ := not_or.mp hout
      -- the first page: the offset is in the file
      have hfirst := (hmem p.virtStart).mpr (by omega)
      have hbytes0 := pageBytes_eq hle (show p.vaddr < p.virtStart + PAGE_SIZE by omega)
      have hbefore : p.virtStart - p.vaddr = 0 := by omega
      have h0 := h _ hfirst
      rw [hbytes0, hbefore, Nat.add_zero, Nat.mod_eq_of_lt hoffset] at h0
      have hlow : p.offset ≤ size := by omega
      clear hfirst hbytes0 hbefore h0
      -- the page of the last byte
      generalize hlast : (min p.fileEnd p.pagesEnd - 1) / 4096 * 4096 = last
      have hmem1 := (hmem last).mpr (by omega)
      have hbytes1 := pageBytes_eq hle (show p.vaddr < last + PAGE_SIZE by omega)
      have htop1 := htop last hmem1
      have hnowrap : p.offset + (last - p.vaddr) < 2 ^ 32 := by omega
      have h1 := h last hmem1
      rw [hbytes1, Nat.mod_eq_of_lt hnowrap] at h1
      clear hmem1 hbytes1 htop1 hnowrap
      omega
    · intro h page hpage
      have hpage' := (hmem page).mp hpage
      have hbytes := pageBytes_eq hle (show p.vaddr < page + PAGE_SIZE by omega)
      omega
  · rw [if_neg hle]
    have hwrap : ∀ page ∈ p.pages, p.pageBytes page =
        if page < p.fileEnd then PAGE_SIZE + 1 - p.vaddr % PAGE_SIZE else 0 := fun page hpage =>
      pageBytes_wrap (by omega) (by omega) ((hmem page).mp hpage).1 (low_pages hc page hpage).2.2
    -- only the first page starts below the end
    have hone : ∀ page ∈ p.pages, page < p.fileEnd → page = p.virtStart := fun page hpage hlt => by
      have hpage' := (hmem page).mp hpage
      omega
    split
    case isTrue hfirst =>
      obtain ⟨hne, hlt⟩ := hfirst
      have hlast := List.length_pos_iff.mpr hne
      have hmem0 := (hmem p.virtStart).mpr ⟨by omega, Nat.le_refl _, by
        rw [Phdr.pagesEnd]
        exact Nat.add_le_add_left (Nat.le_mul_of_pos_right _ hlast) _⟩
      have hoffset0 : (p.offset + (p.virtStart - p.vaddr)) % 2 ^ 32 = p.offset := by omega
      constructor
      · intro h
        have h0 := h _ hmem0
        rwa [hwrap _ hmem0, if_pos hlt, hoffset0] at h0
      · intro h page hpage
        rw [hwrap page hpage]
        split
        · obtain rfl := hone page hpage ‹_›
          rwa [hoffset0]
        · exact Or.inl rfl
    case isFalse hfirst =>
      refine iff_of_true (fun page hpage => Or.inl ?_) (Or.inl rfl)
      rw [hwrap page hpage, if_neg]
      intro hlt
      obtain rfl := hone page hpage hlt
      exact hfirst ⟨List.ne_nil_of_mem hpage, hlt⟩

/-- The bytes of a page that are in the file can be read. -/
theorem Phdr.PageInside.loads (hf : FileBuffer k data size) (hle : p.vaddr ≤ p.fileEnd)
    (hstart : p.vaddr < page + PAGE_SIZE) (hin : p.PageInside size page) : p.PageLoads k data page := by
  have hsize := hf.size_le
  have hPageSize : PAGE_SIZE = 4096 := rfl
  have hbytes := pageBytes_eq hle hstart
  have hoffset := pageOffset_eq p page
  refine fun _ => ⟨hle, fun virt h1 h2 h3 h4 => ?_⟩
  rw [Phdr.PageInside, InFile] at hin
  have hread := hf.readable (p.pageOffset page + (virt - max p.vaddr page)) (by omega)
  have hindex : (data + (p.pageOffset page + (virt - max p.vaddr page))) % 2 ^ 32 =
      p.source data virt := by
    rw [Phdr.source]
    omega
  rwa [hindex] at hread

/-- After a page that is in the file and cannot be loaded, nothing is left of the file. -/
theorem Phdr.PageInside.later (hf : FileBuffer k data size) {page' : Nat} (hc : p.Checked)
    (hstart : p.vaddr < page + PAGE_SIZE) (hin : p.PageInside size page)
    (hbad : ¬ p.PageLoads k data page) (haligned : page % 4096 = 0)
    (haligned' : page' % 4096 = 0) (hlt : page < page') :
    p.PageInside size page' := by
  have hPageSize : PAGE_SIZE = 4096 := rfl
  have hvaddr : p.vaddr < 0xc0000000 := hc.vaddr
  have hwrap : p.fileEnd < p.vaddr := by
    by_contra hle
    exact hbad (hin.loads hf (Nat.le_of_not_lt hle) hstart)
  refine Or.inl ?_
  rw [pageBytes_wrap hwrap (by omega) haligned' (by omega), if_neg (by omega)]

end Segment

section Load

variable {k : Bytes32} {data size : Nat} {s₀ s : Machine} {role : Nat → Option Role} {pd : Nat}

theorem loadPages_reads (hf : FileBuffer k data size) {p : Phdr} (hc : p.Checked)
    (h : Building s₀ role s pd) {pages : List Nat}
    (hpages : ∀ page ∈ pages, page % 4096 = 0 ∧ page + PAGE_SIZE ≤ USER_STACK_TOP ∧
      p.vaddr < page + PAGE_SIZE) (hsorted : pages.Pairwise (· < ·)) :
    ReadsWhen data size (Spare (2 * pages.length) s.pmm)
      (pages.foldlM (loadPageTraced k data p pd) s) (∀ page ∈ pages, p.PageInside size page) := by
  induction pages generalizing s role with
  | nil => exact .of_iff (by simp [inside_pure])
  | cons page pages ih =>
    obtain ⟨⟨hal, htop, hstart⟩, hrest⟩ := List.forall_mem_cons.mp hpages
    obtain ⟨hlater, hsorted⟩ := List.pairwise_cons.mp hsorted
    have hlt : page < KERNEL_VIRT_BASE := by
      simp only [USER_STACK_TOP, KERNEL_VIRT_BASE, PAGE_SIZE] at *
      omega
    have hlen : 2 * (page :: pages).length = 2 * pages.length + 2 := by
      rw [List.length_cons, Nat.mul_add]
    have hpage := loadPage_reads hf p h hlt hstart
    rw [List.foldlM_cons, hlen]
    refine ((hpage.mono fun hs => hs.mono (by omega)).bind (fun s1 hs1 => ?_)
      fun halt herr hs hin => ?_).congr List.forall_mem_cons.symm
    · rw [loadPageTraced_result] at hs1
      rcases loadPage_cases k data p h hal hlt hstart with
        ⟨herr, -⟩ | ⟨-, herr⟩ | ⟨-, s', role', hok, huse, hb', -, -⟩
      · rw [herr] at hs1
        cases hs1
      · rw [herr] at hs1
        cases hs1
      · obtain rfl := Except.ok.inj (hok.symm.trans hs1)
        exact (ih hb' hrest hsorted).mono (huse _)
    · rw [loadPageTraced_result] at herr
      rcases loadPage_cases k data p h hal hlt hstart with
        ⟨-, hshort⟩ | ⟨hbad, -⟩ | ⟨-, s', role', hok, -⟩
      · exact absurd (hs.mono (by omega)) hshort
      · exact fun q hq => hin.later hf hc hstart hbad hal (hrest q hq).1 (hlater q hq)
      · rw [herr] at hok
        cases hok

/-! ## The program headers -/

/-- The index of program header `i`. -/
def phdrOffset (e : Ehdr) (i : Nat) : Nat := add32 e.phoff (i * e.phentsize)

theorem phdrAt_eq (e : Ehdr) (i : Nat) : phdrAt data e i = add32 data (phdrOffset e i) := by
  simp only [phdrAt, phdrOffset, add32]
  omega

/-- What is read of header `i`, and for its segment, is in the file. -/
structure HeaderInside (k : Bytes32) (data size : Nat) (e : Ehdr) (i : Nat) : Prop where
  header : phdrOffset e i + phdrEnd k data (phdrOffset e i) ≤ size
  segment : ∀ p, segmentAt k data e i = some p → InFile size p.offset p.bytesRead

/-- The same for every header that the loader gets to. -/
def HeadersInside (k : Bytes32) (data size : Nat) (e : Ehdr) : List Nat → Prop
  | [] => True
  | i :: is => HeaderInside k data size e i ∧ (HeaderLoads k data e i → HeadersInside k data size e is)

theorem load_lt {a n v : Nat} (h : load k a n = .ok v) : v < 256 ^ n := by
  rw [load] at h
  split at h
  · cases h
    exact readN_lt ..
  · cases h

theorem readPhdr_offset {phdr : Nat} {p : Phdr} (h : readPhdr k phdr = .ok (some p)) :
    p.offset < 2 ^ 32 := by
  obtain ⟨type, -, h⟩ := bind_ok h
  split at h
  · cases h
  obtain ⟨vaddr, -, h⟩ := bind_ok h
  obtain ⟨memsz, -, h⟩ := bind_ok h
  split at h
  · cases h
  split at h
  · cases h
  obtain ⟨flags, -, h⟩ := bind_ok h
  obtain ⟨filesz, -, h⟩ := bind_ok h
  obtain ⟨offset, hoffset, h⟩ := bind_ok h
  cases h
  exact load_lt hoffset

theorem pages_sorted (p : Phdr) : p.pages.Pairwise (· < ·) :=
  List.pairwise_lt_range' _ (by decide)

theorem segmentAt_some {e : Ehdr} {i : Nat} {p : Phdr} :
    segmentAt k data e i = some p ↔ readPhdr k (phdrAt data e i) = .ok (some p) := by
  rw [segmentAt]
  split
  · simp [*]
  · simp_all

theorem loadHeader_reads (hf : FileBuffer k data size) (e : Ehdr) (h : Building s₀ role s pd)
    (highest i : Nat) :
    ReadsWhen data size (Spare (segmentFrames ([i].filterMap (segmentAt k data e))) s.pmm)
      (loadHeaderTraced k data e pd (s, highest) i) (HeaderInside k data size e i) := by
  have hhead : ReadsInside data size (readPhdrTraced k (phdrAt data e i)) ↔
      phdrOffset e i + phdrEnd k data (phdrOffset e i) ≤ size := by
    rw [phdrAt_eq]
    exact readPhdr_inside hf (add32_lt ..)
  rw [loadHeaderTraced]
  have hiff : (phdrOffset e i + phdrEnd k data (phdrOffset e i) ≤ size ∧
      ∀ p, segmentAt k data e i = some p → InFile size p.offset p.bytesRead) ↔
      HeaderInside k data size e i := ⟨fun hC => ⟨hC.1, hC.2⟩, fun hC => ⟨hC.header, hC.segment⟩⟩
  refine ((ReadsWhen.of_iff hhead).bind (fun o ho => ?_) fun halt herr _ _ p hp => ?_).congr hiff
  · rw [readPhdrTraced_result] at ho
    cases o with
    | none =>
      refine .of_iff (iff_of_true (inside_pure _) fun p hp => ?_)
      rw [segmentAt_some, ho] at hp
      cases hp
    | some p =>
      have hseg := segmentAt_some.mpr ho
      have hc := readPhdr_checked ho
      have hframes : segmentFrames ([i].filterMap (segmentAt k data e)) = 2 * p.pages.length := by
        simp [segmentFrames, hseg]
      have hpages := loadPages_reads hf hc h (low_pages hc) (pages_sorted p)
      refine ⟨fun hC => inside_bind.mpr ⟨hpages.inside ?_, fun _ _ => inside_pure _⟩,
        fun hs hr q hq => ?_⟩
      · exact (pages_inside_iff hc (readPhdr_offset ho) hf.size_le).mpr (hC p hseg)
      · obtain rfl := Option.some.inj (hseg.symm.trans hq)
        exact (pages_inside_iff hc (readPhdr_offset ho) hf.size_le).mp
          (hpages.only (hframes ▸ hs) (inside_bind.mp hr).1)
  · rw [segmentAt_some] at hp
    rw [readPhdrTraced_result, hp] at herr
    cases herr

theorem loadHeaders_reads (hf : FileBuffer k data size) (e : Ehdr) (h : Building s₀ role s pd)
    (highest : Nat) (is : List Nat) :
    ReadsWhen data size (Spare (segmentFrames (is.filterMap (segmentAt k data e))) s.pmm)
      (is.foldlM (loadHeaderTraced k data e pd) (s, highest)) (HeadersInside k data size e is) := by
  induction is generalizing s role highest with
  | nil => exact .of_iff (iff_of_true (inside_pure _) trivial)
  | cons i is ih =>
    have hframes : segmentFrames ((i :: is).filterMap (segmentAt k data e)) =
        segmentFrames ([i].filterMap (segmentAt k data e)) +
          segmentFrames (is.filterMap (segmentAt k data e)) := by
      rw [← List.singleton_append, List.filterMap_append, segmentFrames, List.map_append,
        List.sum_append]
      rfl
    have hone := loadHeaders_cases k data e h highest [i]
    have hsingle : [i].foldlM (loadHeader k data e pd) (s, highest) =
        loadHeader k data e pd (s, highest) i := bind_pure _
    rw [hsingle] at hone
    simp only [List.forall_mem_singleton] at hone
    rw [List.foldlM_cons, hframes]
    refine ((loadHeader_reads hf e h highest i).mono fun hs => hs.mono (by omega)).bind
      (fun s1 hs1 => ?_) fun halt herr hs _ hloads => ?_
    · rw [loadHeaderTraced_result] at hs1
      rcases hone with ⟨herr, -⟩ | ⟨-, halt, herr, -⟩ | ⟨hloads, s', role', hok, huse, hb', -, -⟩
      · rw [herr] at hs1
        cases hs1
      · rw [herr] at hs1
        cases hs1
      · obtain rfl := Except.ok.inj (hok.symm.trans hs1)
        exact ((ih hb' _).mono fun hs => huse _ (hs.mono (by omega))).congr
          ⟨fun hC _ => hC, fun hC => hC hloads⟩
    · rw [loadHeaderTraced_result] at herr
      rcases hone with ⟨-, hshort⟩ | ⟨hbad, -⟩ | ⟨-, s', role', hok, -⟩
      · exact absurd (hs.mono (by omega)) hshort
      · exact absurd hloads hbad
      · rw [herr] at hok
        cases hok

/-- The headers that the loader gets to are those with only loadable ones before them. -/
theorem headersInside_range' {e : Ehdr} (a n : Nat) :
    HeadersInside k data size e (List.range' a n) ↔ ∀ i, a ≤ i → i < a + n →
      (∀ j, a ≤ j → j < i → HeaderLoads k data e j) → HeaderInside k data size e i := by
  induction n generalizing a with
  | zero =>
    refine iff_of_true trivial fun i h1 h2 => ?_
    omega
  | succ n ih =>
    rw [List.range'_succ, HeadersInside, ih]
    constructor
    · rintro ⟨hfirst, hrest⟩ i h1 h2 hbefore
      rcases Nat.eq_or_lt_of_le h1 with rfl | hlt
      · exact hfirst
      · exact hrest (hbefore a (Nat.le_refl a) hlt) i hlt (by omega)
          fun j hj => hbefore j (by omega)
    · intro h
      refine ⟨h a (Nat.le_refl a) (by omega) fun j h1 h2 => by omega, fun hloads i h1 h2 hbefore => ?_⟩
      refine h i (by omega) (by omega) fun j h3 h4 => ?_
      rcases Nat.eq_or_lt_of_le h3 with rfl | hlt
      · exact hloads
      · exact hbefore j hlt h4

/-- The file has its headers, and what they refer to, up to the first header that the loader
does not get past. -/
structure FileHolds (k : Bytes32) (data size : Nat) : Prop where
  ehdr : ehdrEnd k data ≤ size
  headers : ∀ e, readEhdr k data = .ok e → ∀ i < e.phnum,
    (∀ j < i, HeaderLoads k data e j) → HeaderInside k data size e i

theorem uprocessLoad_reads (hf : FileBuffer k data size) (h : Building s₀ role s pd)
    (argv : List Nat) :
    ReadsWhen data size
      (∀ e, readEhdr k data = .ok e → Spare (segmentFrames (segments k data e)) s.pmm)
      (uprocessLoadTraced k s pd data argv) (FileHolds k data size) := by
  rw [uprocessLoadTraced]
  refine ((ReadsWhen.of_iff (readEhdr_inside hf)).bind (fun e he => ?_)
    fun halt herr _ _ e he => ?_).congr ⟨fun hC => ⟨hC.1, hC.2⟩, fun hC => ⟨hC.ehdr, hC.headers⟩⟩
  · rw [readEhdrTraced_result] at he
    have hheaders := loadHeaders_reads hf e h 0 (List.range e.phnum)
    have hrange : HeadersInside k data size e (List.range e.phnum) ↔
        ∀ i < e.phnum, (∀ j < i, HeaderLoads k data e j) → HeaderInside k data size e i := by
      rw [List.range_eq_range', headersInside_range']
      simp
    refine ⟨fun hC => inside_bind.mpr ⟨hheaders.inside (hrange.mpr (hC e he)), fun _ _ => ?_⟩,
      fun hs hr e' he' => ?_⟩
    · exact inside_bind.mpr ⟨inside_silent _, fun _ _ => inside_pure _⟩
    · obtain rfl := Except.ok.inj (he.symm.trans he')
      exact hrange.mp (hheaders.only (hs e he) (inside_bind.mp hr).1)
  · rw [readEhdrTraced_result, he] at herr
    cases herr

end Load

/-! ## Two files -/

/-- A file of 84 bytes; its segment has 16 bytes of the file, which are behind its end. -/
def leakFile : List Char8 :=
  [0x7f, 0x45, 0x4c, 0x46] ++ List.replicate 12 0 ++ [2, 0, 3, 0, 1, 0, 0, 0, 0, 0, 0x40, 0] ++
    [52, 0, 0, 0] ++ List.replicate 8 0 ++ [52, 0, 32, 0, 1, 0] ++ List.replicate 6 0 ++
    [1, 0, 0, 0, 84, 0, 0, 0, 0, 0, 0x40, 0, 0, 0, 0, 0, 16, 0, 0, 0, 16, 0, 0, 0, 6, 0, 0, 0] ++
    List.replicate 4 0

def leakHeader : Ehdr := ⟨0x400000, 52, 32, 1⟩

def leakSegment : Phdr := ⟨84, 0x400000, 16, 16, 6⟩

theorem fileMemory_buffer (file : List Char8) {size : Nat} (h : size ≤ 4096) :
    FileBuffer (fileMemory file) 0xd0000000 size where
  kernel := by decide
  lt := by decide
  fits := by omega
  readable := fun j hj => by
    rw [Nat.mod_eq_of_lt (by omega), fileMemory, if_pos (by omega)]
    rfl

/-- **The reads of the file.**  They are all inside when the headers that the loader gets to,
and the bytes that it takes for their segments, are; with enough frames for the segments, only
then. -/
theorem reads_inside_iff {k : Bytes32} {data size pd : Nat} {s s1 : Machine} (argv : List Nat)
    (hf : FileBuffer k data size) (h : Ready s) (hcreate : uprocessCreatePagedir s = .ok (pd, s1)) :
    (FileHolds k data size → ReadsInside data size (uprocessLoadTraced k s1 pd data argv)) ∧
    ((∀ e, readEhdr k data = .ok e → Spare (segmentFrames (segments k data e)) s1.pmm) →
      (ReadsInside data size (uprocessLoadTraced k s1 pd data argv) ↔ FileHolds k data size)) := by
  have hreads := uprocessLoad_reads hf (h.building hcreate) argv
  exact ⟨hreads.inside, fun hs => ⟨hreads.only hs, hreads.inside⟩⟩

/-- The file without program headers, whose header has 46 bytes that matter. -/
theorem emptyFile_inside : ∃ pd s1, uprocessCreatePagedir KernelAreas.bootMachine = .ok (pd, s1) ∧
    ReadsInside 0xd0000000 67 (uprocessLoadTraced (fileMemory emptyFile) s1 pd 0xd0000000 []) := by
  have hend : ehdrEnd (fileMemory emptyFile) 0xd0000000 = 46 := rfl
  have hheader := emptyFile_header
  have hf := fileMemory_buffer emptyFile (show 67 ≤ 4096 by decide)
  generalize fileMemory emptyFile = k at hend hheader hf ⊢
  rcases bootMachine_ready.create with ⟨-, hshort⟩ | ⟨pd, s1, hcreate, -⟩
  · exact absurd (KernelAreas.bootMachine_spare (by decide)) hshort
  refine ⟨pd, s1, hcreate, (reads_inside_iff [] hf bootMachine_ready hcreate).1 ⟨?_, ?_⟩⟩
  · rw [hend]
    decide
  · intro e he i hi
    obtain rfl := Except.ok.inj (hheader.symm.trans he)
    exact absurd hi (Nat.not_lt_zero i)

/-- The kernel memory behind the file becomes the segment. -/
theorem leakFile_outside : ∃ pd s1, uprocessCreatePagedir KernelAreas.bootMachine = .ok (pd, s1) ∧
    FileBuffer (fileMemory leakFile) 0xd0000000 84 ∧
    ¬ ReadsInside 0xd0000000 84 (uprocessLoadTraced (fileMemory leakFile) s1 pd 0xd0000000 []) := by
  have hehdr : readEhdr (fileMemory leakFile) 0xd0000000 = .ok leakHeader := rfl
  have h0 : readPhdr (fileMemory leakFile) (phdrAt 0xd0000000 leakHeader 0) =
      .ok (some leakSegment) := rfl
  have hf := fileMemory_buffer leakFile (show 84 ≤ 4096 by decide)
  generalize fileMemory leakFile = k at hehdr h0 hf ⊢
  have hseg := segmentAt_some.mpr h0
  have hrange : List.range leakHeader.phnum = [0] := rfl
  have hsegs : segments k 0xd0000000 leakHeader = [leakSegment] := by
    rw [segments, hrange, List.filterMap_cons_some hseg, List.filterMap_nil]
  rcases bootMachine_ready.create with ⟨-, hshort⟩ | ⟨pd, s1, hcreate, huse, hb, -⟩
  · exact absurd (KernelAreas.bootMachine_spare (by decide)) hshort
  refine ⟨pd, s1, hcreate, hf, fun hr => ?_⟩
  have hholds := (uprocessLoad_reads hf hb []).only (fun e he => ?_) hr
  · have hheader := hholds.headers _ hehdr 0 (by decide) fun j hj => absurd hj (Nat.not_lt_zero j)
    exact absurd (hheader.segment _ hseg) (by decide)
  · obtain rfl := Except.ok.inj (hehdr.symm.trans he)
    refine huse _ (KernelAreas.bootMachine_spare ?_)
    rw [hsegs]
    decide

end FrogKernel.Loader
