import FrogKernel.Lib.StringAccesses
import FrogKernel.Userspace.UserBuffer
import FrogKernel.Vfs.FindMount

/-!
# The array of `vfs_resolve` (`vfs/vfs.c`, `userspace/usyscall.c`)

`sys_open` and `sys_spawn` look at the first 256 bytes of a path and pass on longer ones
too; `vfs_resolve` copies each component into an array of 256 bytes without counting.
`vfsResolveTraced` is `vfs_resolve` with the indices that it writes.

Main result: `component_writes_iff`.
-/

namespace FrogKernel.Vfs

open FrogKernel.Bytes FrogKernel.CStrings FrogKernel.Paths FrogKernel.Traces
  FrogKernel.StringAccesses
open FrogKernel.Syscall (valPtr)

variable {V : Type}

/-! ## The writes of `vfs_resolve` -/

/-- A computation that ends, or does not end within its rounds, and the indices of
`component` that it writes. -/
abbrev Resolving (α : Type) := Traced Unit Nat α

def ended {α : Type} (r : Option α) : Except Unit α := r.elim (.error ()) .ok

def copyComponentTraced (pm : Mem) : Nat → Mem → Nat → Nat → Resolving (Mem × Nat × Nat)
  | 0, _, _, _ => silent (.error ())
  | n + 1, component, i, rel =>
    if pm rel ≠ 0 ∧ pm rel ≠ SLASH then do
      let component ← writeByte id component i (pm rel).toNat
      copyComponentTraced pm n component (i + 1) (rel + 1)
    else pure (component, i, rel)

def resolveLoopTraced (fs : Nodes V) (pm : Mem) : Nat → Mem → Nat → V → Resolving (Option V)
  | 0, _, _, _ => silent (.error ())
  | n + 1, component, rel, node =>
    if pm rel = 0 then pure (some node)
    else do
      let rel ← silent (ended (skipSlashes pm ROUNDS rel))
      if pm rel = 0 then pure (some node)
      else do
        let (component, i, rel) ← copyComponentTraced pm ROUNDS component 0 rel
        let component ← writeByte id component i 0
        let found ← silent (ended (enter fs node component))
        match found with
        | none => pure none
        | some node => resolveLoopTraced fs pm n component rel node

def vfsResolveTraced (fs : Nodes V) (mountTable : List (FsMount V)) (stack pm : Mem)
    (path : Nat) : Resolving (Option V) := do
  let best ← silent (ended (findMount mountTable pm path))
  match best with
  | none => pure none
  | some mnt =>
    match mnt.root with
    | none => pure none
    | some root => do
      let mlen ← silent (ended (strlen mnt.path 0 ROUNDS))
      let r ← resolveLoopTraced fs pm ROUNDS stack (path + mlen) root
      pure (r.map (covered fs))

/-! ### They come to the same -/

theorem copyComponentTraced_result (pm : Mem) (n : Nat) (component : Mem) (i rel : Nat) :
    (copyComponentTraced pm n component i rel).result =
      ended (copyComponent pm n component i rel) := by
  induction n generalizing component i rel with
  | zero => rfl
  | succ n ih =>
    rw [copyComponentTraced, copyComponent, result_ite, result_bind_ok (writeByte_result _ _ _), ih,
      result_pure]
    split <;> rfl

theorem result_bind_ended {α β : Type} {x : Resolving α} {r : Option α} {f : α → Resolving β}
    {g : α → Option β} (hx : x.result = ended r) (hf : ∀ a, (f a).result = ended (g a)) :
    (x >>= f).result = ended (r.bind g) := by
  rw [result_bind, hx]
  cases r with
  | none => rfl
  | some a => exact hf a

theorem resolveLoopTraced_result (fs : Nodes V) (pm : Mem) (n : Nat) (component : Mem) (rel : Nat)
    (node : V) : (resolveLoopTraced fs pm n component rel node).result =
      ended (resolveLoop fs pm n component rel node) := by
  induction n generalizing component rel node with
  | zero => rfl
  | succ n ih =>
    rw [resolveLoopTraced, resolveLoop]
    split
    · rfl
    refine result_bind_ended (result_silent _) fun rel => ?_
    split
    · rfl
    refine result_bind_ended (copyComponentTraced_result _ _ _ _ _) fun copied => ?_
    obtain ⟨component, i, rel⟩ := copied
    rw [result_bind_ok (writeByte_result component i 0)]
    refine result_bind_ended (result_silent _) fun found => ?_
    cases found with
    | none => rfl
    | some node => exact ih _ _ _

theorem vfsResolveTraced_result (fs : Nodes V) (mountTable : List (FsMount V)) (stack pm : Mem)
    (path : Nat) : (vfsResolveTraced fs mountTable stack pm path).result =
      ended (vfsResolve fs mountTable stack pm path) := by
  unfold vfsResolveTraced vfsResolve
  refine result_bind_ended (result_silent _) fun best => ?_
  cases best with
  | none => rfl
  | some mnt =>
    dsimp only
    cases mnt.root with
    | none => rfl
    | some root =>
      dsimp only
      refine result_bind_ended (result_silent _) fun mlen => ?_
      rw [Option.map_eq_bind]
      exact result_bind_ended (resolveLoopTraced_result _ _ _ _ _ _) fun r => rfl

/-! ## Components -/

/-- The array after a component has been copied to it. -/
def storeChars (component : Mem) (i : Nat) : List Char8 → Mem
  | [] => component
  | c :: s => storeChars (write8 component i c.toNat) (i + 1) s

/-- `component[i] = '\0'` behind it. -/
def storeComponent (component : Mem) (c : List Char8) : Mem :=
  write8 (storeChars component 0 c) c.length 0

/-- From `node` on, with these components ahead, the loop gets to `c`: all before it
are found. -/
inductive Visits (fs : Nodes V) : V → Mem → List (List Char8) → List Char8 → Prop where
  | here {node : V} {component : Mem} {c : List Char8} {cs : List (List Char8)} :
    Visits fs node component (c :: cs) c
  | later {node node' : V} {component : Mem} {c c' : List Char8} {cs : List (List Char8)} :
    enter fs node (storeComponent component c) = some (some node') →
    Visits fs node' (storeComponent component c) cs c' → Visits fs node component (c :: cs) c'

theorem visits_cons {fs : Nodes V} {node : V} {component : Mem} {c : List Char8}
    {cs : List (List Char8)} {P : List Char8 → Prop} :
    (∀ c', Visits fs node component (c :: cs) c' → P c') ↔
      P c ∧ ∀ node', enter fs node (storeComponent component c) = some (some node') →
        ∀ c', Visits fs node' (storeComponent component c) cs c' → P c' := by
  constructor
  · exact fun h => ⟨h c .here, fun node' hfound c' hlater => h c' (.later hfound hlater)⟩
  · rintro ⟨hhere, hlater⟩ c' (_ | ⟨hfound, hvisits⟩)
    · exact hhere
    · exact hlater _ hfound c' hvisits

theorem writeByte_bind {β : Type} (d : Mem) (i v : Nat) (f : Mem → Resolving β) :
    (writeByte id d i v >>= f) = ⟨(f (write8 d i v)).result, i :: (f (write8 d i v)).trace⟩ := rfl

/-- A component is copied to the elements from `i` on. -/
theorem copyComponent_writes {pm : Mem} {s : List Char8} {n rel : Nat} (h : CStr pm rel s)
    (hn : s.length < n) (component : Mem) (i : Nat) :
    copyComponentTraced pm n component i rel =
      ⟨.ok (storeChars component i (s.takeWhile (· ≠ SLASH)),
          i + (s.takeWhile (· ≠ SLASH)).length, rel + (s.takeWhile (· ≠ SLASH)).length),
        List.range' i (s.takeWhile (· ≠ SLASH)).length⟩ := by
  induction s generalizing n rel component i with
  | nil =>
    obtain ⟨k, rfl⟩ : ∃ k, n = k + 1 := ⟨n - 1, by simp at hn; omega⟩
    have h0 : pm rel = 0 := h
    rw [copyComponentTraced, h0, if_neg fun hc => hc.1 rfl]
    rfl
  | cons c s ih =>
    obtain ⟨k, rfl⟩ : ∃ k, n = k + 1 := ⟨n - 1, by simp at hn; omega⟩
    rw [copyComponentTraced, h.1, List.takeWhile_cons]
    by_cases hc : c = SLASH
    · rw [if_neg fun hand => hand.2 hc, if_neg (by simpa using hc)]
      rfl
    · rw [if_pos ⟨h.2.1, hc⟩, if_pos (by simpa using hc), writeByte_bind,
        ih h.2.2 (by simpa using hn), List.length_cons, List.range'_succ, storeChars,
        Nat.add_right_comm i, Nat.add_right_comm rel, Nat.add_assoc i, Nat.add_assoc rel]

/-- Where the loop is behind the component. -/
theorem CStr.dropComponent {pm : Mem} {s : List Char8} {rel : Nat} (h : CStr pm rel s) :
    CStr pm (rel + (s.takeWhile (· ≠ SLASH)).length) (s.dropWhile (· ≠ SLASH)) := by
  have hsplit : CStr pm rel (s.takeWhile (· ≠ SLASH) ++ s.dropWhile (· ≠ SLASH)) := by
    rwa [List.takeWhile_append_dropWhile]
  exact hsplit.suffix

/-- The component and its NUL. -/
theorem forall_range_lt (n : Nat) :
    (∀ i ∈ List.range' 0 n, i < MAX_PATH) ∧ n < MAX_PATH ↔ n < MAX_PATH := by
  refine and_iff_right_of_imp fun hn i hi => ?_
  have hi' := (List.mem_range'_1.mp hi).2
  omega

/-- The loop goes on behind a component that is found. -/
theorem forall_mem_enter {fs : Nodes V} {node : V} {component : Mem} {rest : V → Resolving (Option V)}
    {P : Nat → Prop} :
    (∀ i ∈ (silent (ended (enter fs node component)) >>= fun found =>
        match found with
        | none => pure none
        | some node => rest node : Resolving (Option V)).trace, P i) ↔
      ∀ node', enter fs node component = some (some node') → ∀ i ∈ (rest node').trace, P i := by
  rw [forall_mem_bind, trace_silent, and_iff_right (List.forall_mem_nil _)]
  cases enter fs node component with
  | none => exact iff_of_true nofun nofun
  | some found =>
    cases found with
    | none =>
      refine iff_of_true ?_ nofun
      rintro _ ⟨⟩
      exact List.forall_mem_nil _
    | some node' =>
      constructor
      · rintro hall _ ⟨⟩
        exact hall _ rfl
      · rintro hall _ ⟨⟩
        exact hall _ rfl

/-- **The loop** stays in the array exactly when every component it gets to fits. -/
theorem resolveLoop_writes {fs : Nodes V} {pm component : Mem} {s : List Char8} {n rel : Nat}
    {node : V} (h : CStr pm rel s) (hn : s.length < n) (hlen : s.length < ROUNDS) :
    (∀ i ∈ (resolveLoopTraced fs pm n component rel node).trace, i < MAX_PATH) ↔
      ∀ c, Visits fs node component (components SLASH s) c → c.length < MAX_PATH := by
  induction n generalizing s component rel node with
  | zero => omega
  | succ n ih =>
    have hnone : ∀ c, ¬ Visits fs node component [] c := nofun
    rw [resolveLoopTraced]
    split
    case isTrue h0 =>
      obtain rfl : s = [] := CStr.unique h h0
      exact iff_of_true (List.forall_mem_nil _) fun c hc => absurd hc (hnone c)
    case isFalse h0 =>
      obtain ⟨rel1, s1, hskip, h1, hle1, hcomponents, hhead⟩ := skipSlashes_rest h hlen
      have hskipped : (silent (ended (skipSlashes pm ROUNDS rel)) : Resolving Nat).result =
          .ok rel1 := by
        rw [hskip]
        rfl
      rw [forall_mem_bind_ok hskipped, trace_silent, and_iff_right (List.forall_mem_nil _),
        hcomponents]
      cases s1 with
      | nil =>
        have h1' : pm rel1 = 0 := h1
        rw [if_pos h1']
        exact iff_of_true (List.forall_mem_nil _) fun c hc => absurd hc (hnone c)
      | cons c s' =>
        have hne := hhead c s' rfl
        have hfirst : pm rel1 ≠ 0 := by
          rw [h1.1]
          exact h1.2.1
        have hrest := CStr.dropComponent h1
        have hle2 := dropWhile_lt hne s'
        rw [if_neg hfirst, components_takeWhile hne,
          copyComponent_writes h1 (Nat.lt_of_le_of_lt hle1 hlen)]
        generalize (c :: s').takeWhile (· ≠ SLASH) = w at hrest ⊢
        generalize (c :: s').dropWhile (· ≠ SLASH) = s2 at hrest hle2 ⊢
        rw [forall_mem_bind_ok rfl, visits_cons]
        dsimp only
        rw [forall_mem_bind_ok (writeByte_result _ _ _), forall_mem_writeByte, ← and_assoc, id,
          Nat.zero_add, forall_range_lt]
        refine and_congr_right fun _ => forall_mem_enter.trans ?_
        exact forall_congr' fun node' => imp_congr_right fun _ =>
          ih hrest (by omega) (by omega)

/-! ## Paths from user space -/

/-- Every component behind the mount path that the loop gets to is shorter than the
array; `stack` is what the array holds before. -/
def ComponentsFit (fs : Nodes V) (table : List (FsMount V)) (stack : Mem) (p : List Char8) :
    Prop :=
  ∀ mnt root s, nearest table p = some mnt → mnt.root = some root → p = mnt.name ++ s →
    ∀ c, Visits fs root stack (components SLASH s) c → c.length < MAX_PATH

theorem vfsResolve_writes {fs : Nodes V} {table : List (FsMount V)} {pm : Mem} {path : Nat}
    {p : List Char8} (hpath : CStr pm path p) (hlen : p.length < ROUNDS)
    (htable : ∀ m ∈ table, Mounted m) (stack : Mem) :
    (∀ i ∈ (vfsResolveTraced fs table stack pm path).trace, i < MAX_PATH) ↔
      ComponentsFit fs table stack p := by
  have hfind : (silent (ended (findMount table pm path)) : Resolving _).result =
      .ok (nearest table p) := by
    rw [(findMount_cases hpath htable).1]
    rfl
  unfold vfsResolveTraced ComponentsFit
  rw [forall_mem_bind_ok hfind, trace_silent, and_iff_right (List.forall_mem_nil _)]
  cases hmnt : nearest table p with
  | none => exact iff_of_true (List.forall_mem_nil _) nofun
  | some mnt =>
    dsimp only
    cases hroot : mnt.root with
    | none =>
      refine iff_of_true (List.forall_mem_nil _) ?_
      rintro _ _ _ ⟨⟩ hsome
      rw [hroot] at hsome
      cases hsome
    | some root =>
      obtain ⟨hmem, ⟨s, rfl⟩, -⟩ := nearest_some hmnt
      have hmlen : (silent (ended (strlen mnt.path 0 ROUNDS)) : Resolving Nat).result =
          .ok mnt.name.length := by
        rw [strlen_name (htable mnt hmem).cstr]
        rfl
      rw [List.length_append] at hlen
      have hloop : (∀ i ∈ (resolveLoopTraced fs pm ROUNDS stack (path + mnt.name.length)
          root).trace, i < MAX_PATH) ↔
            ∀ c, Visits fs root stack (components SLASH s) c → c.length < MAX_PATH :=
        resolveLoop_writes hpath.suffix (by omega) (by omega)
      dsimp only
      rw [forall_mem_bind_ok hmlen, trace_silent, and_iff_right (List.forall_mem_nil _),
        forall_mem_bind]
      refine (and_iff_left fun _ _ => List.forall_mem_nil _).trans (hloop.trans ?_)
      constructor
      · rintro hall _ _ s' ⟨⟩ hroot' heq
        rw [hroot] at hroot'
        cases hroot'
        rwa [← List.append_cancel_left heq]
      · exact fun hall => hall mnt root s rfl hroot rfl

/-- A string that `sys_open` and `sys_spawn` pass on to `vfs_open`. -/
structure UserPath (pm : Mem) where
  addr : Nat
  chars : List Char8
  cstr : CStr pm addr chars
  length_lt : chars.length < ROUNDS
  first : valPtr addr 1 = true
  checked : valPtr addr (strnlen pm addr MAX_PATH) = true

theorem Visits.mem {fs : Nodes V} {node : V} {component : Mem} {cs : List (List Char8)}
    {c : List Char8} (h : Visits fs node component cs c) : c ∈ cs := by
  induction h with
  | here => exact List.mem_cons_self
  | later _ _ ih => exact List.mem_cons_of_mem _ ih

/-- A path that ends within the bytes that are looked at has no long component. -/
theorem ComponentsFit.of_short {fs : Nodes V} {table : List (FsMount V)} {stack : Mem}
    {p : List Char8} (h : p.length < MAX_PATH) : ComponentsFit fs table stack p := by
  rintro mnt root s - - rfl c hc
  have hle := length_le_of_mem_components hc.mem
  rw [List.length_append] at h
  omega

/-- A string at 0x1000. -/
def pathAt (s : List Char8) (hne : ∀ c ∈ s, c ≠ 0) (hlen : s.length < ROUNDS) :
    UserPath (memOf 0x1000 (s ++ [0])) where
  addr := 0x1000
  chars := s
  cstr := memOf_terminated _ hne
  length_lt := hlen
  first := by decide
  checked := by
    have hle := strnlen_le (memOf 0x1000 (s ++ [0])) 0x1000 MAX_PATH
    have hmax : MAX_PATH = 256 := rfl
    have hsum : ¬ (0x1000 + strnlen (memOf 0x1000 (s ++ [0])) 0x1000 MAX_PATH) % 2 ^ 32 ≥
        Syscall.KERNEL_VIRT_BASE := by
      simp only [Syscall.KERNEL_VIRT_BASE]
      omega
    rw [valPtr, if_neg (by decide), if_neg hsum, if_neg (by decide)]

/-- `vfs_resolve` writes only `component[0]` to `component[MAX_PATH - 1]`. -/
def WritesInside (fs : Nodes V) (table : List (FsMount V)) (stack pm : Mem) (path : Nat) : Prop :=
  ∀ i ∈ (vfsResolveTraced fs table stack pm path).trace, i < MAX_PATH

/-- **The array.**  `vfs_resolve` stays in its array exactly when the components that it
gets to fit. -/
theorem component_writes_iff {fs : Nodes V} {table : List (FsMount V)} {pm : Mem}
    (path : UserPath pm) (htable : ∀ m ∈ table, Mounted m) (stack : Mem) :
    WritesInside fs table stack pm path.addr ↔ ComponentsFit fs table stack path.chars :=
  vfsResolve_writes path.cstr path.length_lt htable stack

theorem ttyPath_writes : WritesInside (constantNodes Nat) devTable (fun _ => 0)
    (memOf 0x1000 (ttyPath ++ [0])) 0x1000 :=
  (component_writes_iff (pathAt ttyPath (by decide) (by decide)) devTable_mounted _).mpr
    (ComponentsFit.of_short (by decide))

/-- `/` with a component of 256 characters behind it. -/
def longPath : List Char8 := SLASH :: List.replicate 256 0x61

theorem longPath_ne_zero : ∀ c ∈ longPath, c ≠ 0 := by
  intro c hc
  rcases List.mem_cons.mp hc with rfl | hc
  · decide
  · rw [List.eq_of_mem_replicate hc]
    decide

def longUserPath : UserPath (memOf 0x1000 (longPath ++ [0])) :=
  pathAt longPath longPath_ne_zero (by
    rw [longPath, List.length_cons, List.length_replicate]
    decide)

/-- Its NUL goes behind the array. -/
theorem longPath_overrun : ¬ WritesInside (constantNodes Nat) devTable (fun _ => 0)
    (memOf 0x1000 (longPath ++ [0])) longUserPath.addr := by
  rw [WritesInside, vfsResolve_writes longUserPath.cstr longUserPath.length_lt devTable_mounted]
  intro hfit
  have hnearest : nearest devTable longUserPath.chars = some ⟨memOf 0 [SLASH, 0], some 1⟩ := rfl
  have hcomponents : components SLASH (List.replicate 256 (0x61 : Char8)) =
      [List.replicate 256 0x61] :=
    components_single (fun h => absurd (List.eq_of_mem_replicate h) (by decide))
      (List.ne_nil_of_length_pos (by rw [List.length_replicate]; decide))
  have hshort := hfit _ 1 (List.replicate 256 0x61) hnearest rfl rfl (List.replicate 256 0x61)
    (by rw [hcomponents]; exact .here)
  rw [List.length_replicate] at hshort
  exact absurd hshort (by decide)

end FrogKernel.Vfs
