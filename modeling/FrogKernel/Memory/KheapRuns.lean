import Mathlib
import FrogKernel.Lib.Runs
import FrogKernel.Memory.KheapSafety

/-!
# Runs of the heap

`kmalloc` calls itself in tail position, so a call is a sequence of
activations: each one either hands out a block or adds a page and goes on.  A
step of the heap is one activation, one `kfree` of a live pointer, or a write
of an owner into its allocation.  `kmalloc_run` shows that a whole call is a
sequence of such steps.

Main result: `live_allocations_safe`.
-/

namespace FrogKernel.Kheap

open FrogKernel.Bytes FrogKernel.DList FrogKernel.Pmm FrogKernel.Runs

variable {π : Type*}

/-- An allocation: the pointer returned for a request of `size` bytes. -/
structure Alloc where
  ptr : Nat
  size : Nat
  deriving DecidableEq

/-- `[p, p + size)` -/
def Alloc.range (a : Alloc) : Set Nat := Set.Ico a.ptr (a.ptr + a.size)

def Span.alloc (s : Span) : Alloc := ⟨s.hdr + HEADER, s.size⟩

inductive HeapEvent where
  | kmalloc (size ptr : Nat)
  | grow (size : Nat)
  | kfree (ptr : Nat)
  | write (ptr : Nat)
  deriving DecidableEq

/-- One step of the heap and of the list of live allocations. -/
inductive HeapStep (newPage : π → Nat → Option π) :
    KHeap π × List Alloc → HeapEvent → KHeap π × List Alloc → Prop
  | kmalloc {h h' : KHeap π} {live : List Alloc} {size curr ptr : Nat} :
      searchBlock h size = some curr → curr ≠ 0 → takeBlock h curr size = some (ptr, h') →
      HeapStep newPage (h, live) (.kmalloc size ptr) (h', ⟨ptr, size⟩ :: live)
  | grow {h h' : KHeap π} {live : List Alloc} {size : Nat} :
      searchBlock h size = some 0 → growHeap newPage h = some h' →
      HeapStep newPage (h, live) (.grow size) (h', live)
  | kfree {h : KHeap π} {live : List Alloc} {a : Alloc} :
      a ∈ live → HeapStep newPage (h, live) (.kfree a.ptr) (kfree h a.ptr, live.erase a)
  | write {h : KHeap π} {live : List Alloc} {a : Alloc} {mem : Mem} :
      a ∈ live → (∀ x, x ∉ a.range → mem x = h.mem x) →
      HeapStep newPage (h, live) (.write a.ptr) ({ h with mem := mem }, live)

/-- A call of `kmalloc` that returns is a run: pages are added until a block fits. -/
theorem kmalloc_run {newPage : π → Nat → Option π} {size ptr : Nat} {live : List Alloc}
    {h' : KHeap π} : ∀ {fuel : Nat} {h : KHeap π}, kmalloc newPage fuel h size = some (ptr, h') →
      ∃ n, Run (HeapStep newPage) (h, live) (List.replicate n (.grow size) ++ [.kmalloc size ptr])
        (h', ⟨ptr, size⟩ :: live)
  | 0, h, hk => by simp [kmalloc] at hk
  | fuel + 1, h, hk => by
    obtain ⟨curr, hsearch, hrest⟩ := Option.bind_eq_some_iff.mp hk
    split at hrest
    case isTrue hcurr => exact ⟨0, Run.single (.kmalloc hsearch hcurr hrest)⟩
    case isFalse hcurr =>
      obtain ⟨h1, hgrow, hcall⟩ := Option.bind_eq_some_iff.mp hrest
      obtain rfl : curr = 0 := not_not.mp hcurr
      obtain ⟨n, hrun⟩ := kmalloc_run hcall
      exact ⟨n + 1, .step (.grow hsearch hgrow) hrun⟩

/-! ## The invariant over runs -/

/-- The live allocations are exactly the used blocks. -/
def Owned (spans : List Span) (live : List Alloc) : Prop :=
  live.Perm ((used spans).map Span.alloc)

theorem used_append (xs ys : List Span) : used (xs ++ ys) = used xs ++ used ys :=
  List.filter_append xs ys

/-- The initial heap is one free block. -/
theorem kheapInit_inv {newPage : π → Nat → Option π} {mem : Mem} {pages : π} {h : KHeap π}
    (hinit : kheapInit newPage mem pages = some h) :
    HeapInv h [⟨KHEAP_VIRT_START, KHEAP_INITIAL_SIZE - HEADER, true⟩] := by
  obtain ⟨pages', -, rfl⟩ := Option.map_eq_some_iff.mp hinit
  have hS : Separate (· = KHEAP_VIRT_START) := fun x y hx hy => Or.inl (hx.trans hy.symm)
  have h0 : Shows mem (· = KHEAP_VIRT_START) (loadBlock mem) := fun _ _ => rfl
  have h1 := h0.setAddr hS rfl (v := KHEAP_VIRT_START + HEADER) (by decide)
  have h2 := h1.setSize hS rfl (v := KHEAP_INITIAL_SIZE - HEADER) (by decide)
  have h3 := h2.setFree hS rfl (v := 1) (by decide)
  have h4 := h3.setPrev hS rfl (v := 0) (by decide)
  have h5 := h4.setNext hS rfl (v := 0) (by decide) KHEAP_VIRT_START rfl
  simp only [Function.update_self] at h5
  refine ⟨⟨⟨?_, ?_, trivial⟩, ?_⟩, ⟨List.pairwise_singleton _ _, ?_⟩, by simp, rfl, rfl, rfl⟩
  · exact congrArg KHeapBlock.prev h5
  · exact congrArg KHeapBlock.next h5
  · intro s hs
    obtain rfl := List.mem_singleton.mp hs
    exact ⟨congrArg KHeapBlock.addr h5, congrArg KHeapBlock.size h5, congrArg KHeapBlock.free h5⟩
  · intro s hs
    obtain rfl := List.mem_singleton.mp hs
    exact ⟨Nat.le_refl KHEAP_VIRT_START, Nat.le_refl (KHEAP_VIRT_START + KHEAP_INITIAL_SIZE)⟩

/-- A write of an owner reaches no header. -/
theorem write_inv {h : KHeap π} {spans : List Span} {s : Span} {mem : Mem}
    (hinv : HeapInv h spans) (hs : s ∈ spans)
    (hmem : ∀ x, x ∉ s.alloc.range → mem x = h.mem x) :
    HeapInv { h with mem := mem } spans := by
  refine ⟨hinv.rep.congr fun x hx => ?_, hinv.layout, hinv.nonempty, hinv.start, hinv.head,
    hinv.freeHead⟩
  obtain ⟨t, ht, rfl⟩ := List.mem_map.mp hx
  have hout : ∀ y, t.hdr ≤ y → y < t.hdr + HEADER → mem y = h.mem y := by
    intro y h1 h2
    refine hmem y fun hy => ?_
    simp only [Alloc.range, Span.alloc, Set.mem_Ico] at hy
    rcases hinv.layout.order hs ht with rfl | hle | hle
    · omega
    · simp only [Span.stop] at hle; omega
    · simp only [Span.stop] at hle; omega
  simp only [HEADER] at hout
  simp only [loadBlock, read32, KHeapBlock.mk.injEq]
  refine ⟨?_, ?_, ?_, ?_, ?_⟩ <;> exact readN_congr fun y _ _ => hout y (by omega) (by omega)

/-- The bytes a step adds to the heap. -/
def HeapEvent.gain : HeapEvent → Nat
  | .grow _ => PAGE_SIZE
  | _ => 0

theorem HeapEvent.gain_le (e : HeapEvent) : e.gain ≤ PAGE_SIZE := by
  cases e <;> simp [HeapEvent.gain]

theorem HeapStep.of_grow {newPage : π → Nat → Option π} {h h' : KHeap π} {live live' : List Alloc}
    {size : Nat} (hstep : HeapStep newPage (h, live) (.grow size) (h', live')) :
    searchBlock h size = some 0 ∧ growHeap newPage h = some h' := by
  cases hstep with
  | grow hsearch hgrow => exact ⟨hsearch, hgrow⟩

/-- A step that adds no page moves no bound and maps nothing. -/
theorem heapStep_bounds {newPage : π → Nat → Option π} {h h' : KHeap π} {live live' : List Alloc}
    {e : HeapEvent} (hstep : HeapStep newPage (h, live) e (h', live')) (he : e.gain = 0) :
    SameBounds h h' := by
  cases hstep with
  | kmalloc _ _ htake => exact takeBlock_bounds htake
  | grow _ _ => simp [HeapEvent.gain, PAGE_SIZE] at he
  | kfree _ => exact kfree_bounds h _
  | write _ _ => exact ⟨rfl, rfl, rfl, rfl⟩

/-- The bytes of the block handed out that are neither in the allocation nor in
a block of their own. -/
def slack (spans : List Span) : HeapEvent → Nat
  | .kmalloc size _ =>
    match spans.find? (fun s => s.free && decide (size ≤ s.size)) with
    | some s => if size + HEADER + 1 ≤ s.size then 0 else s.size - size
    | none => 0
  | _ => 0

theorem takeSpans_total {s : Span} {size : Nat} (hsize : size ≤ s.size) :
    total (takeSpans s size) + (if size + HEADER + 1 ≤ s.size then 0 else s.size - size) =
      HEADER + s.size := by
  unfold takeSpans
  split <;> simp only [total_cons, total_nil] <;> omega

/-- **Step.**  Every step of the heap keeps the invariant. -/
theorem heapStep_inv {newPage : π → Nat → Option π} {h h' : KHeap π} {live live' : List Alloc}
    {e : HeapEvent} (hstep : HeapStep newPage (h, live) e (h', live'))
    (hend : h.kheapEnd + e.gain < 2 ^ 32) {spans : List Span} (hinv : HeapInv h spans)
    (howned : Owned spans live) : ∃ spans', HeapInv h' spans' ∧ Owned spans' live' ∧
      total spans' + slack spans e = total spans + e.gain := by
  have hend' : h.kheapEnd < 2 ^ 32 := Nat.lt_of_le_of_lt (Nat.le_add_right _ _) hend
  cases hstep with
  | @kmalloc _ _ _ size curr ptr hsearch hcurr htake =>
    rw [searchBlock_eq hinv (by omega)] at hsearch
    obtain rfl := Option.some.inj hsearch
    cases hfind : spans.find? (fun s => s.free && decide (size ≤ s.size)) with
    | none => rw [firstHdr, hfind] at hcurr; exact absurd rfl hcurr
    | some s =>
      obtain ⟨hfit, xs, ys, rfl, -⟩ := List.find?_eq_some_iff_append.mp hfind
      obtain ⟨hfree, hsize⟩ : s.free = true ∧ size ≤ s.size := by simpa using hfit
      rw [firstHdr, hfind] at htake
      obtain ⟨h1, htake', hinv'⟩ := takeBlock_inv hinv (by omega) hfree hsize
      obtain ⟨rfl, rfl⟩ : s.hdr + HEADER = ptr ∧ h1 = h' := by
        have heq := htake'.symm.trans htake
        simpa using heq
      refine ⟨_, hinv', ?_, ?_⟩
      rotate_left
      · have htotal := takeSpans_total hsize
        simp only [slack, hfind, HeapEvent.gain, total_append, total_cons]
        omega
      obtain ⟨rest, hrest, hused⟩ := takeSpans_cons s size
      have hold : used (xs ++ s :: ys) = used xs ++ used ys := by simp [used, hfree]
      have hnew : used (xs ++ (takeSpans s size ++ ys)) =
          used xs ++ ⟨s.hdr, size, false⟩ :: used ys := by
        rw [used_append, used_append, hrest]
        simp only [used, List.filter_cons] at hused ⊢
        simp [hused]
      rw [Owned, hold, List.map_append] at howned
      rw [Owned, hnew, List.map_append, List.map_cons]
      exact (howned.cons _).trans List.perm_middle.symm
  | grow hsearch hgrow =>
    have hinv' := growHeap_inv hinv hend hgrow
    refine ⟨_, hinv', ?_, by simp [slack, HeapEvent.gain, pageSpan, HEADER, PAGE_SIZE]⟩
    have hnew : used (spans ++ [pageSpan h.kheapEnd]) = used spans := by simp [used, pageSpan]
    rwa [Owned, hnew]
  | @kfree _ _ a hmem =>
    have hspan := howned.mem_iff.mp hmem
    obtain ⟨s, hs, rfl⟩ := List.mem_map.mp hspan
    obtain ⟨hs, hfree⟩ : s ∈ spans ∧ s.free = false := by simpa [used] using hs
    obtain ⟨xs, ys, rfl⟩ := List.append_of_mem hs
    obtain ⟨spans', hinv', hused, htotal⟩ := kfree_inv hinv (by omega) hfree
    refine ⟨spans', hinv', ?_, htotal⟩
    have hold : used (xs ++ s :: ys) = used xs ++ s :: used ys := by simp [used, hfree]
    rw [Owned, hold, List.map_append, List.map_cons] at howned
    rw [Owned, hused, List.map_append]
    have herase := (howned.trans List.perm_middle).erase s.alloc
    rwa [List.erase_cons_head] at herase
  | @write _ _ a mem hmem hsame =>
    have hspan := howned.mem_iff.mp hmem
    obtain ⟨s, hs, rfl⟩ := List.mem_map.mp hspan
    have hs : s ∈ spans := List.mem_of_mem_filter hs
    exact ⟨spans, write_inv hinv hs hsame, howned, rfl⟩

/-! ## What the invariant says -/

/-- The blocks reached from `head`. -/
inductive OnList (h : KHeap π) : Nat → Prop
  | head : h.head ≠ 0 → OnList h h.head
  | next {b : Nat} : OnList h b → (loadBlock h.mem b).next ≠ 0 → OnList h (loadBlock h.mem b).next

theorem onList_hdr {h : KHeap π} {spans : List Span} (hinv : HeapInv h spans) {b : Nat}
    (hb : OnList h b) : ∃ s ∈ spans, s.hdr = b := by
  induction hb with
  | head hne =>
    obtain ⟨s, spans', rfl⟩ := List.exists_cons_of_ne_nil hinv.nonempty
    exact ⟨s, by simp, hinv.head.symm⟩
  | next _ hne ih =>
    obtain ⟨s, hs, rfl⟩ := ih
    obtain ⟨xs, ys, rfl⟩ := List.append_of_mem hs
    rw [hinv.rep.next_mid] at hne ⊢
    rcases headD_hdr ys with ⟨hn, -⟩ | ⟨y, zs, rfl, hn⟩
    · exact absurd hn hne
    · exact ⟨y, by simp, hn.symm⟩

/-- What owners of allocations rely on. -/
structure Safe (h : KHeap π) (live : List Alloc) : Prop where
  inside : ∀ a ∈ live, h.kheapStart ≤ a.ptr ∧ a.ptr + a.size ≤ h.kheapEnd
  disjoint : live.Pairwise (fun a b => Disjoint a.range b.range)
  headers : ∀ a ∈ live, ∀ b, OnList h b → Disjoint a.range (Set.Ico b (b + HEADER))

theorem Ico_disjoint {a b c d : Nat} (h : b ≤ c ∨ d ≤ a) : Disjoint (Set.Ico a b) (Set.Ico c d) := by
  rw [Set.disjoint_left]
  intro x h1 h2
  simp only [Set.mem_Ico] at h1 h2
  omega

theorem HeapInv.safe {h : KHeap π} {spans : List Span} {live : List Alloc} (hinv : HeapInv h spans)
    (howned : Owned spans live) : Safe h live := by
  have hmem : ∀ a ∈ live, ∃ s ∈ spans, s.alloc = a := by
    intro a ha
    obtain ⟨s, hs, rfl⟩ := List.mem_map.mp (howned.mem_iff.mp ha)
    exact ⟨s, List.mem_of_mem_filter hs, rfl⟩
  refine ⟨?_, ?_, ?_⟩
  · intro a ha
    obtain ⟨s, hs, rfl⟩ := hmem a ha
    have hin := hinv.layout.inside s hs
    simp only [Span.stop] at hin
    simp only [Span.alloc]
    omega
  · have hsorted := hinv.layout.sorted.filter (fun s => !s.free)
    refine (howned.pairwise_iff fun h => h.symm).mpr (List.pairwise_map.mpr ?_)
    refine hsorted.imp fun {s t} hst => Ico_disjoint (Or.inl ?_)
    simp only [Span.stop, Span.alloc] at hst ⊢
    omega
  · intro a ha b hb
    obtain ⟨s, hs, rfl⟩ := hmem a ha
    obtain ⟨t, ht, rfl⟩ := onList_hdr hinv hb
    refine Ico_disjoint ?_
    simp only [Span.alloc]
    rcases hinv.layout.order hs ht with rfl | hle | hle
    · exact Or.inr (Nat.le_refl _)
    · exact Or.inl hle
    · simp only [Span.stop] at hle
      omega

/-- The states of the heap as long as `kheap_end` has not passed the area of
`kalloc_pages`. -/
theorem reachable_inv {newPage : π → Nat → Option π} {mem : Mem} {pages : π} {h₀ h : KHeap π}
    {es : List HeapEvent} {live : List Alloc} (hinit : kheapInit newPage mem pages = some h₀)
    (hrun : Run (Guarded (fun s _ => s.1.kheapEnd ≤ LARGE_ALLOC_BASE) (HeapStep newPage))
      (h₀, []) es (h, live)) : ∃ spans, HeapInv h spans ∧ Owned spans live := by
  have hstart : ∃ spans, HeapInv h₀ spans ∧ Owned spans [] :=
    ⟨_, kheapInit_inv hinit, List.Perm.refl []⟩
  refine hrun.invariant (I := fun s => ∃ spans, HeapInv s.1 spans ∧ Owned spans s.2) ?_ hstart
  rintro s e s' ⟨spans, hinv, howned⟩ ⟨hend, hstep⟩
  have hwrap : s.1.kheapEnd + e.gain < 2 ^ 32 := by
    have hgain := e.gain_le
    simp only [LARGE_ALLOC_BASE, PAGE_SIZE] at hend hgain
    omega
  obtain ⟨spans', hinv', howned', -⟩ := heapStep_inv hstep hwrap hinv howned
  exact ⟨spans', hinv', howned'⟩

/-- **Heap safety.**  As long as `kheap_end` has not passed the area of
`kalloc_pages`, live allocations stay inside the heap, apart from each other
and from every header on the list. -/
theorem live_allocations_safe {newPage : π → Nat → Option π} {mem : Mem} {pages : π}
    {h₀ h : KHeap π} {es : List HeapEvent} {live : List Alloc}
    (hinit : kheapInit newPage mem pages = some h₀)
    (hrun : Run (Guarded (fun s _ => s.1.kheapEnd ≤ LARGE_ALLOC_BASE) (HeapStep newPage))
      (h₀, []) es (h, live)) : Safe h live := by
  obtain ⟨spans, hinv, howned⟩ := reachable_inv hinit hrun
  exact hinv.safe howned

/-- Pages that never run out. -/
def endlessPages : Unit → Nat → Option Unit := fun _ _ => some ()

theorem mapPages_endless (n virt : Nat) : mapPages endlessPages () virt n = some () := by
  induction n generalizing virt with
  | zero => rfl
  | succ n ih => exact ih _

/-- `kmalloc(100)` on a new heap, as a call and as a run. -/
theorem oneAllocation_run : ∃ h₀ h : KHeap Unit,
    kheapInit endlessPages (fun _ => 0) () = some h₀ ∧
      kmalloc endlessPages 1 h₀ 100 = some (0xd0000014, h) ∧
      Run (Guarded (fun s _ => s.1.kheapEnd ≤ LARGE_ALLOC_BASE) (HeapStep endlessPages))
        (h₀, []) [.kmalloc 100 0xd0000014] (h, [⟨0xd0000014, 100⟩]) ∧
      h.kheapEnd = KHEAP_VIRT_START + KHEAP_INITIAL_SIZE := by
  obtain ⟨h₀, hinit, hend⟩ : ∃ h₀, kheapInit endlessPages (fun _ => 0) () = some h₀ ∧
      h₀.kheapEnd = KHEAP_VIRT_START + KHEAP_INITIAL_SIZE := by
    rw [kheapInit, mapPages_endless]
    exact ⟨_, rfl, rfl⟩
  have hinv : HeapInv h₀ ([] ++ [⟨KHEAP_VIRT_START, KHEAP_INITIAL_SIZE - HEADER, true⟩]) :=
    kheapInit_inv hinit
  have hsearch : searchBlock h₀ 100 = some KHEAP_VIRT_START := by
    rw [searchBlock_eq hinv (by rw [hend]; decide)]
    rfl
  obtain ⟨h, htake, -⟩ := takeBlock_inv hinv (by rw [hend]; decide) rfl
    (show 100 ≤ KHEAP_INITIAL_SIZE - HEADER by decide)
  have hstep : HeapStep endlessPages (h₀, []) (.kmalloc 100 0xd0000014) (h, [⟨0xd0000014, 100⟩]) :=
    .kmalloc hsearch (by decide) htake
  have hguard : h₀.kheapEnd ≤ LARGE_ALLOC_BASE := by rw [hend]; decide
  refine ⟨h₀, h, hinit, ?_, Run.single ⟨hguard, hstep⟩, (takeBlock_bounds htake).end_.trans hend⟩
  rw [kmalloc, hsearch]
  exact htake

/-- After `kmalloc(100)` on a new heap. -/
theorem oneAllocation_safe : ∃ h₀ h : KHeap Unit,
    kheapInit endlessPages (fun _ => 0) () = some h₀ ∧
      kmalloc endlessPages 1 h₀ 100 = some (0xd0000014, h) ∧ Safe h [⟨0xd0000014, 100⟩] := by
  obtain ⟨h₀, h, hinit, hcall, hrun, -⟩ := oneAllocation_run
  exact ⟨h₀, h, hinit, hcall, live_allocations_safe hinit hrun⟩

end FrogKernel.Kheap
