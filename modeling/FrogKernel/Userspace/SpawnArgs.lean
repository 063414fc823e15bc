import FrogKernel.Userspace.UserPointers

/-!
# The arguments of a new process (`sys_spawn` in `userspace/usyscall.c`)

`sys_spawn` copies the strings of `user_argv` into the rows of `kernel_strs`, and
`uprocess_load` copies them from there into a page.  `copyArgs_iff` says when every row
holds its string, `pageBuf_iff` when the strings of all rows fit into the page.
-/

namespace FrogKernel.Loader

open FrogKernel.Bytes FrogKernel.Paging FrogKernel.CStrings FrogKernel.ForeignMap
  FrogKernel.AddressSpace
open FrogKernel.Kheap (add32 sub32 add32_lt)
open FrogKernel.Syscall (valPtr)

/-- How a handler ends before its work is done: it returns -1, or the kernel stops. -/
inductive Early where
  | refused
  | halted (halt : Halt)
  deriving DecidableEq

/-- `strnlen`: a byte that cannot be read is a page fault. -/
def strnlen (u : Bytes32) (a : Nat) : Nat → Except Halt Nat
  | 0 => .ok 0
  | n + 1 => do
    let c ← orFault (u a)
    if c = 0 then .ok 0
    else do
      let len ← strnlen u (add32 a 1) n
      .ok (len + 1)

/-- `val_ptr(s, 1)`, and `val_ptr(s, len)` with `len = strnlen(s, MAX_PATH)`. -/
def checkString (u : Bytes32) (s : Nat) : Except Early Nat :=
  if !valPtr s 1 then .error .refused
  else do
    let len ← (strnlen u s MAX_PATH).mapError .halted
    if !valPtr s len then .error .refused else .ok len

/-- `kernel_strs`, whose rows follow each other; `kernel_argv`, which points into it; and
where each `memcpy` wrote, and how much. -/
structure KernelArgs where
  strs : Mem
  argv : List Nat
  copies : List (Nat × Nat)

/-- `user_argv[i]` -/
def userStr (u : Bytes32) (userArgv i : Nat) : Except Halt Nat := load u (add32 userArgv (4 * i)) 4

/-- One round of the loop over `user_argv`. -/
def copyArg (u : Bytes32) (userArgv : Nat) (args : KernelArgs) (i : Nat) : Except Early KernelArgs := do
  let s ← (userStr u userArgv i).mapError .halted
  let len ← checkString u s
  if Readable u s (len + 1) then
    .ok { strs := copy args.strs (MAX_PATH * i) (bytesAt u s) 0 (len + 1)
          argv := args.argv ++ [MAX_PATH * i]
          copies := args.copies ++ [(MAX_PATH * i, len + 1)] }
  else .error (.halted .fault)

/-- The loop; `stack` is what `kernel_strs` holds before. -/
def copyArgs (u : Bytes32) (userArgv argc : Nat) (stack : Mem) : Except Early KernelArgs :=
  (List.range argc).foldlM (copyArg u userArgv) ⟨stack, [], []⟩

/-! ## What was asked for -/

/-- The checks of `sys_spawn` on `argc`, on `user_argv` and on its strings. -/
structure AcceptedArgs (u : Bytes32) (userArgv argc : Nat) : Prop where
  count : argc ≤ MAX_ARGS
  array : valPtr userArgv (4 * argc) = true
  strings : ∀ i < argc, ∃ s len, userStr u userArgv i = .ok s ∧ checkString u s = .ok len

/-- The string at `s`, cut to what a row can hold. -/
def cutString (u : Bytes32) (s : Nat) : List Char8 := fieldChars (bytesAt u s) 0 (MAX_PATH - 1)

/-- Each pointer leads to a copy of its string, and each copy stayed in its row. -/
structure ArgsCopied (u : Bytes32) (userArgv argc : Nat) (args : KernelArgs) : Prop where
  pointers : ∀ i < argc, ∃ s a, userStr u userArgv i = .ok s ∧ args.argv[i]? = some a ∧
    CStr args.strs a (cutString u s)
  rows : ∀ i < argc, ∃ dst n, args.copies[i]? = some (dst, n) ∧ MAX_PATH * i ≤ dst ∧
    dst + n ≤ MAX_PATH * (i + 1)

/-- There is a NUL among the first `MAX_PATH` bytes of every string. -/
def ShortStrings (u : Bytes32) (userArgv argc : Nat) : Prop :=
  ∀ i < argc, ∀ s, userStr u userArgv i = .ok s → ∃ j < MAX_PATH, u ((s + j) % 2 ^ 32) = some 0

/-! ## One string -/

section Strings

variable {u : Bytes32} {a n len : Nat}

/-- `strnlen` finds the NUL, or as many other bytes as it may look at. -/
theorem strnlen_cases (ha : a < 2 ^ 32) (h : strnlen u a n = .ok len) :
    (∃ s, StrAt u a s ∧ s.length = len ∧ len < n) ∨
      len = n ∧ ∀ j < n, u ((a + j) % 2 ^ 32) ≠ some 0 := by
  induction n generalizing a len with
  | zero =>
    cases h
    exact Or.inr ⟨rfl, fun j hj => absurd hj (Nat.not_lt_zero j)⟩
  | succ n ih =>
    rw [strnlen] at h
    obtain ⟨c, hc, h⟩ := bind_ok h
    have hbyte : u a = some c := orFault_ok hc
    split at h
    case isTrue h0 =>
      cases h
      rw [h0] at hbyte
      exact Or.inl ⟨[], hbyte, rfl, Nat.succ_pos n⟩
    case isFalse h0 =>
      obtain ⟨m, hm, h⟩ := bind_ok h
      cases h
      rcases ih (add32_lt a 1) hm with ⟨s, hs, rfl, hlt⟩ | ⟨rfl, hall⟩
      · exact Or.inl ⟨c :: s, ⟨hbyte, h0, hs⟩, rfl, Nat.succ_lt_succ hlt⟩
      · refine Or.inr ⟨rfl, fun j hj => ?_⟩
        cases j with
        | zero =>
          have hzero : (a + 0) % 2 ^ 32 = a := Nat.mod_eq_of_lt ha
          rw [hzero, hbyte]
          simpa using h0
        | succ j =>
          rw [← add32_shift]
          exact hall j (by omega)

theorem userStr_lt {userArgv i s : Nat} (h : userStr u userArgv i = .ok s) : s < 2 ^ 32 := by
  rw [userStr, load] at h
  split at h
  · cases h
    exact readN_lt _ 4 _
  · cases h

theorem mapError_ok {α : Type} {x : Except Halt α} {r : α} (h : x.mapError Early.halted = .ok r) :
    x = .ok r := by
  cases x with
  | error e => cases h
  | ok b =>
    cases h
    rfl

theorem checkString_strnlen (h : checkString u a = .ok len) : strnlen u a MAX_PATH = .ok len := by
  rw [checkString] at h
  split at h
  · cases h
  obtain ⟨m, hm, h⟩ := bind_ok h
  split at h
  · cases h
  · cases h
    exact mapError_ok hm

/-- A string with a NUL in time is one that `StrAt` describes. -/
theorem checkString_short (ha : a < 2 ^ 32) (h : checkString u a = .ok len)
    (hnul : ∃ j < MAX_PATH, u ((a + j) % 2 ^ 32) = some 0) :
    ∃ s, StrAt u a s ∧ s.length = len ∧ len < MAX_PATH := by
  rcases strnlen_cases ha (checkString_strnlen h) with hs | ⟨-, hall⟩
  · exact hs
  · obtain ⟨j, hj, h0⟩ := hnul
    exact absurd h0 (hall j hj)

theorem StrAt.nul {s : List Char8} (h : StrAt u a s) (ha : a < 2 ^ 32) :
    u ((a + s.length) % 2 ^ 32) = some 0 := by
  have hlast := ((strAt_iff ha).mp h).2 s.length (by simp)
  simpa using hlast

theorem StrAt.readable {s : List Char8} (h : StrAt u a s) (ha : a < 2 ^ 32) :
    Readable u a (s.length + 1) := by
  intro j hj
  rw [((strAt_iff ha).mp h).2 j (by simpa using hj)]
  rfl

/-- What a row holds of a short string is the whole string. -/
theorem StrAt.cutString {s : List Char8} (h : StrAt u a s) (ha : a < 2 ^ 32)
    (hlen : s.length < MAX_PATH) : cutString u a = s :=
  fieldChars_cstr (cstr_iff.mpr ⟨h.holds ha, h.ne_zero ha⟩) (Nat.le_sub_one_of_lt hlen)

end Strings

/-! ## The loop -/

section Loop

variable {u : Bytes32} {userArgv argc : Nat}

theorem copyArg_ok {args args' : KernelArgs} {i : Nat} (h : copyArg u userArgv args i = .ok args') :
    ∃ s len, userStr u userArgv i = .ok s ∧ checkString u s = .ok len ∧
      args' = ⟨copy args.strs (MAX_PATH * i) (bytesAt u s) 0 (len + 1),
        args.argv ++ [MAX_PATH * i], args.copies ++ [(MAX_PATH * i, len + 1)]⟩ := by
  obtain ⟨s, hs, h⟩ := bind_ok h
  obtain ⟨len, hlen, h⟩ := bind_ok h
  split at h
  · cases h
    exact ⟨s, len, mapError_ok hs, hlen, rfl⟩
  · cases h

theorem copyArgs_succ (stack : Mem) (n : Nat) : copyArgs u userArgv (n + 1) stack =
    (copyArgs u userArgv n stack >>= fun args => copyArg u userArgv args n) := by
  rw [copyArgs, copyArgs, List.range_succ, List.foldlM_append]
  simp only [List.foldlM_cons, List.foldlM_nil, bind_pure]

/-- Where the loop wrote. -/
theorem copyArgs_copies {stack : Mem} {n : Nat} {args : KernelArgs}
    (h : copyArgs u userArgv n stack = .ok args) :
    args.copies.length = n ∧ ∀ i < n, ∃ s len, userStr u userArgv i = .ok s ∧
      checkString u s = .ok len ∧ args.copies[i]? = some (MAX_PATH * i, len + 1) := by
  induction n generalizing args with
  | zero =>
    cases h
    exact ⟨rfl, fun i hi => absurd hi (Nat.not_lt_zero i)⟩
  | succ n ih =>
    rw [copyArgs_succ] at h
    obtain ⟨args₀, hargs, h⟩ := bind_ok h
    obtain ⟨hlen, hall⟩ := ih hargs
    obtain ⟨s, len, hs, hcheck, rfl⟩ := copyArg_ok h
    refine ⟨by simp [hlen], fun i hi => ?_⟩
    by_cases hin : i < n
    · obtain ⟨t, m, ht, hcheck', hcopy⟩ := hall i hin
      exact ⟨t, m, ht, hcheck', by rw [List.getElem?_append_left (by omega), hcopy]⟩
    · obtain rfl : i = n := by omega
      refine ⟨s, len, hs, hcheck, ?_⟩
      rw [List.getElem?_append_right (by omega), hlen, Nat.sub_self]
      rfl

/-- The first `n` rows are filled. -/
structure Rows (u : Bytes32) (userArgv n : Nat) (args : KernelArgs) : Prop where
  argv : args.argv = (List.range n).map (MAX_PATH * ·)
  copies : args.copies.length = n
  row : ∀ i < n, ∃ a s, userStr u userArgv i = .ok a ∧ StrAt u a s ∧ s.length < MAX_PATH ∧
    CStr args.strs (MAX_PATH * i) s ∧ args.copies[i]? = some (MAX_PATH * i, s.length + 1)

/-- A copy into the next row leaves the rows before it. -/
theorem Rows.next {n a : Nat} {s : List Char8} {args : KernelArgs} (h : Rows u userArgv n args)
    (ha : userStr u userArgv n = .ok a) (hs : StrAt u a s) (hlen : s.length < MAX_PATH) :
    Rows u userArgv (n + 1) ⟨copy args.strs (MAX_PATH * n) (bytesAt u a) 0 (s.length + 1),
      args.argv ++ [MAX_PATH * n], args.copies ++ [(MAX_PATH * n, s.length + 1)]⟩ := by
  have hlt := userStr_lt ha
  refine ⟨?_, by simp [h.copies], fun i hi => ?_⟩
  · rw [List.range_succ, List.map_append, ← h.argv]
    rfl
  by_cases hin : i < n
  · obtain ⟨b, t, hb, ht, htlen, hrow, hcopy⟩ := h.row i hin
    have hbelow : MAX_PATH * i + MAX_PATH ≤ MAX_PATH * n := by
      rw [← Nat.mul_succ]
      exact Nat.mul_le_mul_left _ hin
    refine ⟨b, t, hb, ht, htlen, ?_, ?_⟩
    · obtain ⟨hholds, hne⟩ := cstr_iff.mp hrow
      refine cstr_iff.mpr ⟨holds_congr hholds fun x h1 h2 => ?_, hne⟩
      rw [List.length_append, List.length_singleton] at h2
      exact (copy_apply ..).trans (if_neg (by omega))
    · have hcopies := h.copies
      dsimp only
      rw [List.getElem?_append_left (by omega), hcopy]
  · obtain rfl : i = n := by omega
    refine ⟨a, s, ha, hs, hlen, ?_, ?_⟩
    · have hcopy := copy_holds args.strs (d := MAX_PATH * i) (hs.holds hlt)
      rw [List.length_append, List.length_singleton] at hcopy
      exact cstr_iff.mpr ⟨hcopy, hs.ne_zero hlt⟩
    · dsimp only
      rw [List.getElem?_append_right (by rw [h.copies]), h.copies, Nat.sub_self]
      rfl

/-- The loop goes through when the strings are short. -/
theorem copyArgs_rows (stack : Mem) (h : AcceptedArgs u userArgv argc)
    (hshort : ShortStrings u userArgv argc) {n : Nat} (hn : n ≤ argc) :
    ∃ args, copyArgs u userArgv n stack = .ok args ∧ Rows u userArgv n args := by
  induction n with
  | zero => exact ⟨_, rfl, rfl, rfl, fun i hi => absurd hi (Nat.not_lt_zero i)⟩
  | succ n ih =>
    obtain ⟨args, hargs, hrows⟩ := ih (by omega)
    obtain ⟨a, len, ha, hcheck⟩ := h.strings n hn
    obtain ⟨s, hs, rfl, hlen⟩ := checkString_short (userStr_lt ha) hcheck (hshort n hn a ha)
    refine ⟨_, ?_, hrows.next ha hs hlen⟩
    rw [copyArgs_succ, hargs, ok_bind, copyArg, ha]
    dsimp only [Except.mapError]
    rw [ok_bind, hcheck, ok_bind, if_pos (hs.readable (userStr_lt ha))]

theorem Rows.copied {args : KernelArgs} (h : Rows u userArgv argc args) :
    ArgsCopied u userArgv argc args := by
  refine ⟨fun i hi => ?_, fun i hi => ?_⟩
  · obtain ⟨a, s, ha, hs, hlen, hrow, -⟩ := h.row i hi
    refine ⟨a, MAX_PATH * i, ha, by simp [h.argv, hi], ?_⟩
    rw [hs.cutString (userStr_lt ha) hlen]
    exact hrow
  · obtain ⟨a, s, -, -, hlen, -, hcopy⟩ := h.row i hi
    exact ⟨_, _, hcopy, Nat.le_refl _, by rw [Nat.mul_succ]; omega⟩

/-- A copy that stays in its row is the copy of a short string. -/
theorem ArgsCopied.short {stack : Mem} {args : KernelArgs}
    (hargs : copyArgs u userArgv argc stack = .ok args) (h : ArgsCopied u userArgv argc args) :
    ShortStrings u userArgv argc := by
  intro i hi a ha
  obtain ⟨b, len, hb, hcheck, hcopy⟩ := (copyArgs_copies hargs).2 i hi
  obtain rfl := Except.ok.inj (ha.symm.trans hb)
  obtain ⟨dst, n, hcopy', hlow, hhigh⟩ := h.rows i hi
  obtain ⟨rfl, rfl⟩ : MAX_PATH * i = dst ∧ len + 1 = n := by simpa [hcopy] using hcopy'
  rw [Nat.mul_succ] at hhigh
  have hlt := userStr_lt ha
  rcases strnlen_cases hlt (checkString_strnlen hcheck) with ⟨s, hs, rfl, hlen⟩ | ⟨rfl, -⟩
  · exact ⟨s.length, hlen, hs.nul hlt⟩
  · omega

end Loop

/-- **The copies.**  For arguments that `sys_spawn` accepts, its loop fills every row with its
string, and nothing else, exactly when every string ends within `MAX_PATH` bytes. -/
theorem copyArgs_iff {u : Bytes32} {userArgv argc : Nat} (h : AcceptedArgs u userArgv argc)
    (stack : Mem) :
    (∃ args, copyArgs u userArgv argc stack = .ok args ∧ ArgsCopied u userArgv argc args) ↔
      ShortStrings u userArgv argc := by
  constructor
  · rintro ⟨args, hargs, hcopied⟩
    exact hcopied.short hargs
  · intro hshort
    obtain ⟨args, hargs, hrows⟩ := copyArgs_rows stack h hshort (Nat.le_refl _)
    exact ⟨args, hargs, hrows.copied⟩

/-- A page with one pointer at 0x1000, to the characters after it. -/
def argMemory (s : List Char8) : Bytes32 := fun a =>
  if a < 0x2000 then some (memOf 0x1000 ([0x04, 0x10, 0, 0] ++ s) a) else none

theorem argMemory_accepted {s : List Char8} {len : Nat} (hs : userStr (argMemory s) 0x1000 0 = .ok 0x1004)
    (hcheck : checkString (argMemory s) 0x1004 = .ok len) : AcceptedArgs (argMemory s) 0x1000 1 := by
  refine ⟨by decide, rfl, fun i hi => ?_⟩
  obtain rfl : i = 0 := Nat.lt_one_iff.mp hi
  exact ⟨_, _, hs, hcheck⟩

/-- The string `sh`. -/
theorem sh_copied : ∃ args,
    copyArgs (argMemory [0x73, 0x68]) 0x1000 1 (fun _ => 0) = .ok args ∧
      ArgsCopied (argMemory [0x73, 0x68]) 0x1000 1 args := by
  have hs : userStr (argMemory [0x73, 0x68]) 0x1000 0 = .ok 0x1004 := rfl
  have hcheck : checkString (argMemory [0x73, 0x68]) 0x1004 = .ok 2 := rfl
  refine (copyArgs_iff (argMemory_accepted hs hcheck) (fun _ => 0)).mpr fun i hi a ha => ?_
  obtain rfl : i = 0 := Nat.lt_one_iff.mp hi
  obtain rfl := Except.ok.inj (hs.symm.trans ha)
  exact ⟨2, by decide, rfl⟩

/-- 256 characters: the copy ends in the next row, and is not terminated there. -/
theorem longString_spills : AcceptedArgs (argMemory (List.replicate 256 0x61)) 0x1000 1 ∧
    ¬ ∃ args, copyArgs (argMemory (List.replicate 256 0x61)) 0x1000 1 (fun _ => 0) = .ok args ∧
      ArgsCopied (argMemory (List.replicate 256 0x61)) 0x1000 1 args := by
  have hs : userStr (argMemory (List.replicate 256 0x61)) 0x1000 0 = .ok 0x1004 := rfl
  have hcheck : checkString (argMemory (List.replicate 256 0x61)) 0x1004 = .ok 256 := by
    decide +kernel
  refine ⟨argMemory_accepted hs hcheck, ?_⟩
  rintro ⟨args, hargs, hcopied⟩
  obtain ⟨j, hj, hnul⟩ := hcopied.short hargs 0 (by decide) _ hs
  have hnone : ∀ j < 256, argMemory (List.replicate 256 0x61) ((0x1004 + j) % 2 ^ 32) ≠ some 0 := by
    decide +kernel
  exact hnone j hj hnul

/-! ## The page of the stack -/

section PageBuf

variable {k : Bytes32}

/-- Strings that end can only run over the page. -/
theorem pushStrings_error {b : PageBuf} {argv : List Nat} {strs : List (List Char8)} {halt : Halt}
    (hargs : Args k argv strs) (hlen : ∀ s ∈ strs, s.length < MAX_PATH)
    (h : pushStrings k b argv = .error halt) : halt = .overrun := by
  induction hargs with
  | nil => cases h
  | @cons arg s argv strs hs _ ih =>
    obtain ⟨hs0, hstrs⟩ := List.forall_mem_cons.mp hlen
    rcases bind_error h with h | ⟨⟨vaddrs, b1⟩, -, h⟩
    · exact ih hstrs h
    rcases bind_error h with h | ⟨⟨vaddr, b2⟩, -, h⟩
    · have hstrlen : strlen k arg ROUNDS = .ok s.length :=
        strlen_strAt hs.2 (Nat.lt_trans hs0 (by decide))
      rw [pushString, hstrlen, ok_bind] at h
      dsimp only at h
      split at h
      · cases h
      · cases h
        rfl
    · cases h

theorem pushWord_error {b : PageBuf} {v : Nat} {halt : Halt} (h : pushWord b v = .error halt) :
    halt = .overrun := by
  rw [pushWord] at h
  split at h
  · cases h
  · cases h
    rfl

theorem pushWords_error {b : PageBuf} {vs : List Nat} {halt : Halt}
    (h : pushWords b vs = .error halt) : halt = .overrun := by
  induction vs with
  | nil => cases h
  | cons v vs ih =>
    rcases bind_error h with h | ⟨b1, -, h⟩
    · exact ih h
    · exact pushWord_error h

theorem initialStack_error {argv : List Nat} {strs : List (List Char8)} {halt : Halt}
    (hargs : Args k argv strs) (hlen : ∀ s ∈ strs, s.length < MAX_PATH)
    (h : initialStack k argv = .error halt) : halt = .overrun := by
  rcases bind_error h with h | ⟨⟨vaddrs, b1⟩, -, h⟩
  · exact pushStrings_error hargs hlen h
  rcases bind_error h with h | ⟨b2, -, h⟩
  · exact pushWord_error h
  rcases bind_error h with h | ⟨b3, -, h⟩
  · exact pushWords_error h
  rcases bind_error h with h | ⟨b4, -, h⟩
  · exact pushWord_error h
  rcases bind_error h with h | ⟨b5, -, h⟩
  · exact pushWord_error h
  · cases h

/-- A pointer leads to one string only. -/
theorem StrAt.unique {s t : List Char8} {a : Nat} (hs : StrAt k a s) (ht : StrAt k a t) : s = t := by
  induction s generalizing a t with
  | nil =>
    cases t with
    | nil => rfl
    | cons d t =>
      have h0 : k a = some 0 := hs
      rw [ht.1, Option.some.injEq] at h0
      exact absurd h0 ht.2.1
  | cons c s ih =>
    cases t with
    | nil =>
      have h0 : k a = some 0 := ht
      rw [hs.1, Option.some.injEq] at h0
      exact absurd h0 hs.2.1
    | cons d t =>
      have hc := hs.1.symm.trans ht.1
      rw [Option.some.injEq] at hc
      rw [hc, ih hs.2.2 ht.2.2]

theorem Args.unique {argv : List Nat} {strs strs' : List (List Char8)} (h : Args k argv strs)
    (h' : Args k argv strs') : strs = strs' := by
  induction h generalizing strs' with
  | nil =>
    cases h'
    rfl
  | cons hs _ ih =>
    cases h' with
    | cons hs' hrest => rw [hs.2.unique hs'.2, ih hrest]

end PageBuf

/-- **The budget of `page_buf`.**  While the strings that `sys_spawn` admits, the padding, the
pointers and `argc` are laid down, `buf_offset` stays in the page exactly when all of them
fit into its 4096 bytes. -/
theorem pageBuf_iff {k : Bytes32} {argv : List Nat} {strs : List (List Char8)}
    (hargs : Args k argv strs) (hlen : ∀ s ∈ strs, s.length < MAX_PATH) :
    initialStack k argv ≠ .error .overrun ↔ Fits strs := by
  have hargv : ∀ a ∈ argv, a < 2 ^ 32 := by
    intro a ha
    obtain ⟨i, hi, rfl⟩ := List.getElem_of_mem ha
    exact (hargs.get hi (hargs.length_eq ▸ hi)).1
  constructor
  · intro hne
    cases hstack : initialStack k argv with
    | error halt => exact absurd (initialStack_error hargs hlen hstack ▸ hstack) hne
    | ok r =>
      obtain ⟨strs', hargs', hfits⟩ := (initialStack_ok_iff hargv).mp ⟨r, hstack⟩
      rwa [hargs.unique hargs']
  · intro hfits hover
    obtain ⟨r, hstack⟩ := (initialStack_ok_iff hargv).mpr ⟨strs, hargs, hfits⟩
    rw [hstack] at hover
    cases hover

/-- Rows of `MAX_PATH` bytes with 255 characters each. -/
def fullRows : Bytes32 := fun a => if a % MAX_PATH = MAX_PATH - 1 then some 0 else some 0x61

theorem fullRows_string {i : Nat} (hi : i < MAX_ARGS) :
    StrAt fullRows (MAX_PATH * i) (List.replicate (MAX_PATH - 1) 0x61) := by
  have hlt : MAX_PATH * i + MAX_PATH ≤ 2 ^ 32 := by
    simp only [MAX_PATH, MAX_ARGS] at *
    omega
  refine (strAt_iff (by simp only [MAX_PATH] at *; omega)).mpr ⟨by simp, fun j hj => ?_⟩
  simp only [List.length_append, List.length_replicate, List.length_singleton] at hj
  have hmod : (MAX_PATH * i + j) % 2 ^ 32 % MAX_PATH = j := by
    simp only [MAX_PATH] at *
    omega
  rw [fullRows, hmod, List.getElem_append]
  simp only [List.length_replicate, List.getElem_replicate, List.getElem_singleton]
  by_cases hlast : j = MAX_PATH - 1
  · rw [if_pos hlast, dif_neg (by omega)]
  · rw [if_neg hlast, dif_pos (by omega)]

/-- The first `n` rows. -/
theorem fullRows_args {n : Nat} (hn : n ≤ MAX_ARGS) :
    Args fullRows ((List.range n).map (MAX_PATH * ·))
      (List.replicate n (List.replicate (MAX_PATH - 1) 0x61)) := by
  refine List.forall₂_iff_get.mpr ⟨by simp, fun i hi hi' => ?_⟩
  simp only [List.length_map, List.length_range] at hi
  have hlt : MAX_PATH * i < 2 ^ 32 := by
    simp only [MAX_PATH, MAX_ARGS] at *
    omega
  simpa using ⟨hlt, fullRows_string (Nat.lt_of_lt_of_le hi hn)⟩

theorem fullRows_length (n : Nat) :
    ∀ s ∈ List.replicate n (List.replicate (MAX_PATH - 1) (0x61 : Char8)), s.length < MAX_PATH := by
  intro s hs
  rw [List.eq_of_mem_replicate hs, List.length_replicate]
  decide

/-- 15 strings of 255 characters fit. -/
theorem fifteenRows_fit :
    initialStack fullRows ((List.range 15).map (MAX_PATH * ·)) ≠ .error .overrun :=
  (pageBuf_iff (fullRows_args (by decide)) (fullRows_length 15)).mpr (by decide +kernel)

/-- 16 strings of 255 characters leave no room for a pointer. -/
theorem sixteenRows_overrun : 16 ≤ MAX_ARGS ∧
    Args fullRows ((List.range 16).map (MAX_PATH * ·))
      (List.replicate 16 (List.replicate (MAX_PATH - 1) 0x61)) ∧
    (∀ s ∈ List.replicate 16 (List.replicate (MAX_PATH - 1) (0x61 : Char8)), s.length < MAX_PATH) ∧
    initialStack fullRows ((List.range 16).map (MAX_PATH * ·)) = .error .overrun := by
  have hargs := fullRows_args (n := 16) (by decide)
  have hlen := fullRows_length 16
  refine ⟨by decide, hargs, hlen, ?_⟩
  cases hstack : initialStack fullRows ((List.range 16).map (MAX_PATH * ·)) with
  | error halt => rw [initialStack_error hargs hlen hstack]
  | ok r =>
    have hargv : ∀ a ∈ (List.range 16).map (MAX_PATH * ·), a < 2 ^ 32 := by decide
    obtain ⟨strs, hargs', hfits⟩ := (initialStack_ok_iff hargv).mp ⟨r, hstack⟩
    rw [← hargs.unique hargs'] at hfits
    exact absurd hfits (by decide +kernel)

end FrogKernel.Loader
