import FrogKernel.Lib.Bytes

/-!
# C strings in byte memories

`CStr m a s`: at address `a` lie the characters `s` and a terminating NUL.
`fieldChars m a n` are the characters of a field of `n` bytes that need not be
terminated.  The functions of `<string.h>` on memories are loops here as there;
each has one lemma that says what it does to the strings.

`Holds m a bs` says that the bytes `bs` lie at `a`.
-/

namespace FrogKernel.CStrings

open FrogKernel.Bytes

abbrev Char8 := BitVec 8

/-- A character constant. -/
def ch (c : Char) : Char8 := BitVec.ofNat 8 c.toNat

/-- `'/'` -/
def SLASH : Char8 := 0x2f

/-- No walk over the 32-bit address space takes more rounds and ends. -/
def ROUNDS : Nat := 2 ^ 32

def CStr (m : Mem) : Nat → List Char8 → Prop
  | a, [] => m a = 0
  | a, c :: s => m a = c ∧ c ≠ 0 ∧ CStr m (a + 1) s

def Holds (m : Mem) : Nat → List Char8 → Prop
  | _, [] => True
  | a, b :: bs => m a = b ∧ Holds m (a + 1) bs

/-- The characters before the first NUL of `n` bytes. -/
def fieldChars (m : Mem) (a : Nat) : Nat → List Char8
  | 0 => []
  | n + 1 => if m a = 0 then [] else m a :: fieldChars m (a + 1) n

/-- `while (str[len]) len++`; no result when no NUL comes within the given number
of bytes. -/
def strlen (m : Mem) (a : Nat) : Nat → Option Nat
  | 0 => none
  | n + 1 => if m a = 0 then some 0 else (strlen m (a + 1) n).map (· + 1)

/-- `while (len < maxlen && str[len] != '\0') len++` -/
def strnlen (m : Mem) (a : Nat) : Nat → Nat
  | 0 => 0
  | n + 1 => if m a = 0 then 0 else strnlen m (a + 1) n + 1

/-- `strncpy` into `d`, from another memory. -/
def strncpy (d : Mem) (a : Nat) (src : Mem) (s : Nat) : Nat → Mem
  | 0 => d
  | n + 1 =>
    if src s = 0 then fill d a 0 (n + 1)
    else strncpy (fun x => if x = a then src s else d x) (a + 1) src (s + 1) n

/-- `strcmp`; no result when neither a difference nor a NUL comes within the
given number of bytes. -/
def strcmp (m : Mem) (a : Nat) (m' : Mem) (b : Nat) : Nat → Option Int
  | 0 => none
  | n + 1 =>
    if m a ≠ 0 ∧ m a = m' b then strcmp m (a + 1) m' (b + 1) n
    else some ((m a).toNat - (m' b).toNat)

/-- `strncmp` -/
def strncmp (m : Mem) (a : Nat) (m' : Mem) (b : Nat) : Nat → Int
  | 0 => 0
  | n + 1 =>
    if n ≠ 0 ∧ m a ≠ 0 ∧ m a = m' b then strncmp m (a + 1) m' (b + 1) n
    else (m a).toNat - (m' b).toNat

/-- `strchr`; no result when neither the character nor a NUL comes within the
given number of bytes. -/
def strchr (m : Mem) (a : Nat) (c : Char8) : Nat → Option (Option Nat)
  | 0 => none
  | n + 1 =>
    if m a = c then some (some a) else if m a = 0 then some none else strchr m (a + 1) c n

/-- `memcmp(a, s, n)` with the `n` bytes `s`. -/
def memcmp (m : Mem) (a : Nat) : List Char8 → Int
  | [] => 0
  | c :: s => if m a ≠ c then (m a).toNat - c.toNat else memcmp m (a + 1) s

/-! ## Bytes in memory -/

theorem holds_append {m : Mem} {xs ys : List Char8} {a : Nat} :
    Holds m a (xs ++ ys) ↔ Holds m a xs ∧ Holds m (a + xs.length) ys := by
  induction xs generalizing a with
  | nil => simp [Holds]
  | cons x xs ih =>
    have hassoc : a + (xs.length + 1) = a + 1 + xs.length := by omega
    simp only [List.cons_append, Holds, ih, List.length_cons, hassoc, and_assoc]

theorem holds_take {m : Mem} {bs : List Char8} {a : Nat} (h : Holds m a bs) (n : Nat) :
    Holds m a (bs.take n) := by
  rw [← List.take_append_drop n bs] at h
  exact (holds_append.mp h).1

theorem holds_iff {m : Mem} {bs : List Char8} {a : Nat} :
    Holds m a bs ↔ ∀ i (h : i < bs.length), m (a + i) = bs[i] := by
  induction bs generalizing a with
  | nil => simp [Holds]
  | cons b bs ih =>
    rw [Holds, ih]
    constructor
    · rintro ⟨h0, htail⟩ i hi
      cases i with
      | zero => exact h0
      | succ i =>
        rw [← Nat.add_assoc, Nat.add_right_comm]
        exact htail i (by simpa using hi)
    · intro h
      refine ⟨h 0 (by simp), fun i hi => ?_⟩
      rw [Nat.add_right_comm]
      exact h (i + 1) (by simpa using hi)

theorem holds_congr {m m' : Mem} {bs : List Char8} {a : Nat} (h : Holds m a bs)
    (heq : ∀ x, a ≤ x → x < a + bs.length → m' x = m x) : Holds m' a bs := by
  rw [holds_iff] at h ⊢
  intro i hi
  rw [heq _ (by omega) (by omega), h i hi]

/-- A memory with the bytes `bs` at `a`. -/
def memOf (a : Nat) (bs : List Char8) : Mem := fun x => bs.getD (x - a) 0

theorem holds_memOf (a : Nat) (bs : List Char8) : Holds (memOf a bs) a bs := by
  rw [holds_iff]
  intro i hi
  rw [memOf, Nat.add_sub_cancel_left, List.getD_eq_getElem?_getD, List.getElem?_eq_getElem hi,
    Option.getD_some]

theorem write8_char (m : Mem) (a : Nat) (c : Char8) : write8 m a c.toNat a = c := by
  rw [write8_self, BitVec.ofNat_toNat, BitVec.setWidth_eq]

/-- The character after the bytes. -/
theorem holds_write8 {m : Mem} {s : List Char8} {a : Nat} (h : Holds m a s) (c : Char8) :
    Holds (write8 m (a + s.length) c.toNat) a (s ++ [c]) :=
  holds_append.mpr ⟨holds_congr h fun x h1 h2 => write8_ne _ _ (by omega), write8_char _ _ _, trivial⟩

/-- What `memcpy` copies. -/
theorem copy_holds (m : Mem) {src : Mem} {bs : List Char8} {d s : Nat} (h : Holds src s bs) :
    Holds (copy m d src s bs.length) d bs := by
  rw [holds_iff] at h ⊢
  intro i hi
  rw [copy_apply, if_pos (by omega), Nat.add_sub_cancel_left, h i hi]

theorem memcmp_eq_zero {m : Mem} {s : List Char8} {a : Nat} : memcmp m a s = 0 ↔ Holds m a s := by
  induction s generalizing a with
  | nil => simp [memcmp, Holds]
  | cons c s ih =>
    rw [memcmp, Holds]
    split
    case isTrue hne =>
      refine iff_of_false (fun h => hne ?_) (fun h => hne h.1)
      exact BitVec.eq_of_toNat_eq (by omega)
    case isFalse heq => rw [ih, not_not.mp heq]; simp

/-! ## Strings -/

theorem CStr.holds {m : Mem} {s : List Char8} {a : Nat} (h : CStr m a s) :
    Holds m a (s ++ [0]) := by
  induction s generalizing a with
  | nil => exact ⟨h, trivial⟩
  | cons c s ih => exact ⟨h.1, ih h.2.2⟩

theorem CStr.ne_zero {m : Mem} {s : List Char8} {a : Nat} (h : CStr m a s) : ∀ c ∈ s, c ≠ 0 := by
  induction s generalizing a with
  | nil => simp
  | cons c s ih =>
    rintro x (_ | ⟨_, hx⟩)
    · exact h.2.1
    · exact ih h.2.2 x hx

theorem cstr_iff {m : Mem} {s : List Char8} {a : Nat} :
    CStr m a s ↔ Holds m a (s ++ [0]) ∧ ∀ c ∈ s, c ≠ 0 := by
  refine ⟨fun h => ⟨h.holds, h.ne_zero⟩, ?_⟩
  induction s generalizing a with
  | nil => exact fun h => h.1.1
  | cons c s ih =>
    rintro ⟨⟨hc, hs⟩, hne⟩
    exact ⟨hc, hne c (by simp), ih ⟨hs, fun x hx => hne x (List.mem_cons_of_mem c hx)⟩⟩

theorem cstr_congr {m m' : Mem} {s : List Char8} {a : Nat} (h : CStr m a s)
    (heq : ∀ x, a ≤ x → m' x = m x) : CStr m' a s :=
  cstr_iff.mpr ⟨holds_congr h.holds fun x hx _ => heq x hx, h.ne_zero⟩

/-- Bytes with a NUL behind them, in a memory of their own. -/
theorem memOf_terminated {s : List Char8} (a : Nat) (hne : ∀ c ∈ s, c ≠ 0) :
    CStr (memOf a (s ++ [0])) a s :=
  cstr_iff.mpr ⟨holds_memOf a _, hne⟩

/-- Or without one: the memory is zero behind the bytes. -/
theorem memOf_cstr {s : List Char8} (a : Nat) (hne : ∀ c ∈ s, c ≠ 0) : CStr (memOf a s) a s := by
  have hsame : memOf a s = memOf a (s ++ [0]) := by
    funext x
    simp only [memOf, List.getD_eq_getElem?_getD, List.getElem?_append]
    split
    case isTrue => rfl
    case isFalse hx =>
      rw [List.getElem?_eq_none (Nat.le_of_not_lt hx), List.getElem?_singleton]
      split <;> rfl
  exact hsame ▸ memOf_terminated a hne

/-- A NUL after the bytes makes them a string. -/
theorem cstr_write8 {m : Mem} {s : List Char8} {a : Nat} (h : Holds m a s)
    (hne : ∀ c ∈ s, c ≠ 0) : CStr (write8 m (a + s.length) 0) a s :=
  cstr_iff.mpr ⟨holds_write8 h 0, hne⟩

/-- Two strings at one address are the same. -/
theorem CStr.unique {m : Mem} {s t : List Char8} {a : Nat} (hs : CStr m a s) (ht : CStr m a t) :
    s = t := by
  induction s generalizing a t with
  | nil =>
    cases t with
    | nil => rfl
    | cons d t => exact absurd (ht.1.symm.trans hs) ht.2.1
  | cons c s ih =>
    cases t with
    | nil => exact absurd (hs.1.symm.trans ht) hs.2.1
    | cons d t => rw [ih hs.2.2 ht.2.2, hs.1.symm.trans ht.1]

theorem strlen_cstr {m : Mem} {s : List Char8} {a n : Nat} (h : CStr m a s)
    (hn : s.length < n) : strlen m a n = some s.length := by
  induction s generalizing a n with
  | nil =>
    obtain ⟨k, rfl⟩ : ∃ k, n = k + 1 := ⟨n - 1, by simp at hn; omega⟩
    have h0 : m a = 0 := h
    rw [strlen, if_pos h0, List.length_nil]
  | cons c s ih =>
    obtain ⟨k, rfl⟩ : ∃ k, n = k + 1 := ⟨n - 1, by simp at hn; omega⟩
    rw [strlen, h.1, if_neg h.2.1, ih h.2.2 (by simpa using hn)]
    rfl

/-- What `strlen` counts is a string. -/
theorem strlen_some {m : Mem} {a n k : Nat} (h : strlen m a n = some k) :
    ∃ s, CStr m a s ∧ s.length = k := by
  induction n generalizing a k with
  | zero => cases h
  | succ n ih =>
    rw [strlen] at h
    split at h
    case isTrue h0 =>
      cases h
      exact ⟨[], h0, rfl⟩
    case isFalse h0 =>
      obtain ⟨k', hk', rfl⟩ := Option.map_eq_some_iff.mp h
      obtain ⟨s, hs, rfl⟩ := ih hk'
      exact ⟨m a :: s, ⟨rfl, h0, hs⟩, rfl⟩

/-- The end of a string is a string. -/
theorem CStr.suffix {m : Mem} {s t : List Char8} {a : Nat} (h : CStr m a (s ++ t)) :
    CStr m (a + s.length) t := by
  induction s generalizing a with
  | nil => exact h
  | cons c s ih =>
    rw [List.length_cons, Nat.add_comm s.length, ← Nat.add_assoc]
    exact ih h.2.2

theorem strnlen_eq (m : Mem) (n a : Nat) : strnlen m a n = (fieldChars m a n).length := by
  induction n generalizing a with
  | zero => rfl
  | succ n ih =>
    rw [strnlen, fieldChars]
    split
    · rfl
    · rw [ih, List.length_cons]

theorem fieldChars_ne_zero (m : Mem) (n a : Nat) : ∀ c ∈ fieldChars m a n, c ≠ 0 := by
  induction n generalizing a with
  | zero => simp [fieldChars]
  | succ n ih =>
    rw [fieldChars]
    split
    · simp
    · rintro c (_ | ⟨_, hc⟩)
      · assumption
      · exact ih _ c hc

/-- A NUL among the bytes ends a string. -/
theorem fieldChars_terminated {m : Mem} {n a r : Nat} (h0 : m (a + r) = 0) (hr : r < n) :
    CStr m a (fieldChars m a n) ∧ (fieldChars m a n).length ≤ r := by
  induction n generalizing a r with
  | zero => omega
  | succ n ih =>
    rw [fieldChars]
    by_cases ha : m a = 0
    · rw [if_pos ha]
      exact ⟨ha, Nat.zero_le r⟩
    · obtain ⟨r, rfl⟩ : ∃ j, r = j + 1 := ⟨r - 1, by
        rcases r with _ | r
        · exact absurd h0 ha
        · omega⟩
      rw [Nat.add_comm r, ← Nat.add_assoc] at h0
      obtain ⟨hstr, hlen⟩ := ih h0 (by omega)
      rw [if_neg ha]
      exact ⟨⟨rfl, ha, hstr⟩, Nat.succ_le_succ hlen⟩

theorem fieldChars_holds (m : Mem) (n a : Nat) : Holds m a (fieldChars m a n) := by
  induction n generalizing a with
  | zero => trivial
  | succ n ih =>
    rw [fieldChars]
    split
    · trivial
    · exact ⟨rfl, ih _⟩

theorem fieldChars_length_le (m : Mem) (n a : Nat) : (fieldChars m a n).length ≤ n := by
  induction n generalizing a with
  | zero => exact Nat.le_refl 0
  | succ n ih =>
    rw [fieldChars]
    split
    · exact Nat.zero_le _
    · simpa using ih (a + 1)

theorem strnlen_le (m : Mem) (a n : Nat) : strnlen m a n ≤ n := by
  rw [strnlen_eq]
  exact fieldChars_length_le m n a

/-- A smaller limit. -/
theorem strnlen_min (m : Mem) {k n : Nat} (a : Nat) (h : k ≤ n) :
    strnlen m a k = min k (strnlen m a n) := by
  induction k generalizing a n with
  | zero => rw [strnlen, Nat.zero_min]
  | succ k ih =>
    obtain ⟨n, rfl⟩ : ∃ j, n = j + 1 := ⟨n - 1, by omega⟩
    rw [strnlen, strnlen]
    split
    · rw [Nat.min_zero]
    · rw [ih (a + 1) (Nat.le_of_succ_le_succ h), Nat.add_min_add_right]

/-- A string shorter than the field. -/
theorem fieldChars_cstr {m : Mem} {s : List Char8} {n a : Nat} (h : CStr m a s)
    (hn : s.length ≤ n) : fieldChars m a n = s := by
  induction s generalizing a n with
  | nil =>
    cases n with
    | zero => rfl
    | succ n =>
      have h0 : m a = 0 := h
      rw [fieldChars, if_pos h0]
  | cons c s ih =>
    obtain ⟨k, rfl⟩ : ∃ k, n = k + 1 := ⟨n - 1, by simp at hn; omega⟩
    rw [fieldChars, if_neg (by rw [h.1]; exact h.2.1), ih h.2.2 (by simpa using hn), h.1]

/-- A string that fills its field and need not be terminated. -/
theorem fieldChars_full {m : Mem} {s : List Char8} {a : Nat} (h : Holds m a s)
    (hne : ∀ c ∈ s, c ≠ 0) : fieldChars m a s.length = s := by
  induction s generalizing a with
  | nil => rfl
  | cons c s ih =>
    rw [List.length_cons, fieldChars, if_neg (by rw [h.1]; exact hne c (by simp)),
      ih h.2 (fun x hx => hne x (List.mem_cons_of_mem c hx)), h.1]

theorem fieldChars_append {m : Mem} {s : List Char8} {n a : Nat} (h : Holds m a s)
    (hne : ∀ c ∈ s, c ≠ 0) :
    fieldChars m a (s.length + n) = s ++ fieldChars m (a + s.length) n := by
  induction s generalizing a with
  | nil => simp
  | cons c s ih =>
    have hlen : (c :: s).length + n = s.length + n + 1 := by simp; omega
    rw [hlen, fieldChars, if_neg (by rw [h.1]; exact hne c (by simp)),
      ih h.2 (fun x hx => hne x (List.mem_cons_of_mem c hx)), h.1]
    simp [Nat.add_assoc, Nat.add_comm 1]

/-- `strncpy` fills its `n` bytes: the characters, then NULs. -/
theorem strncpy_holds (d : Mem) (src : Mem) (n a s : Nat) :
    Holds (strncpy d a src s n) a
        (fieldChars src s n ++ List.replicate (n - (fieldChars src s n).length) 0) ∧
      ∀ x, x < a ∨ a + n ≤ x → strncpy d a src s n x = d x := by
  induction n generalizing d a s with
  | zero => simp [strncpy, fieldChars, Holds]
  | succ n ih =>
    rw [strncpy, fieldChars]
    split
    case isTrue h0 =>
      constructor
      · rw [holds_iff]
        intro i hi
        simp only [List.nil_append, List.length_replicate, List.length_nil] at hi
        rw [fill_apply, if_pos (by omega)]
        simp
      · intro x hx
        rw [fill_apply, if_neg (by omega)]
    case isFalse h0 =>
      obtain ⟨hhold, hout⟩ := ih (fun x => if x = a then src s else d x) (a + 1) (s + 1)
      constructor
      · rw [List.cons_append, List.length_cons, Nat.add_sub_add_right]
        refine ⟨?_, hhold⟩
        rw [hout a (by omega), if_pos rfl]
      · intro x hx
        rw [hout x (by omega), if_neg (by omega)]

/-- A string copied with `strncpy` and terminated behind the `n` bytes. -/
theorem strncpy_cstr (d src : Mem) (n a s : Nat) :
    CStr (write8 (strncpy d a src s n) (a + n) 0) a (fieldChars src s n) := by
  obtain ⟨hcopy, -⟩ := strncpy_holds d src n a s
  have hlen := fieldChars_length_le src n s
  refine cstr_iff.mpr ⟨?_, fieldChars_ne_zero src n s⟩
  generalize fieldChars src s n = t at hcopy hlen ⊢
  have hwrite := holds_write8 hcopy 0
  have htotal : (t ++ List.replicate (n - t.length) 0).length = n := by simp; omega
  rw [htotal, List.append_assoc, ← List.replicate_succ', List.replicate_succ, holds_append] at hwrite
  exact holds_append.mpr ⟨hwrite.1, hwrite.2.1, trivial⟩

/-- `strcmp` of a string and any memory: it ends, and is zero when the memory has
the string. -/
theorem strcmp_string {m : Mem} {s : List Char8} {a n : Nat} (m' : Mem) (b : Nat) (hs : CStr m a s)
    (hn : s.length < n) : ∃ d, strcmp m a m' b n = some d ∧ (d = 0 ↔ CStr m' b s) := by
  induction s generalizing a b n with
  | nil =>
    obtain ⟨k, rfl⟩ : ∃ k, n = k + 1 := ⟨n - 1, by simp at hn; omega⟩
    have h0 : m a = 0 := hs
    refine ⟨_, by rw [strcmp, if_neg (by simp [h0])], ?_⟩
    have hzero : (0 : Char8).toNat = 0 := rfl
    rw [h0, hzero]
    constructor
    · intro hd
      exact BitVec.eq_of_toNat_eq (by rw [hzero]; omega)
    · intro h0'
      have hb : m' b = 0 := h0'
      rw [hb, hzero]
      rfl
  | cons c s ih =>
    obtain ⟨k, rfl⟩ : ∃ k, n = k + 1 := ⟨n - 1, by simp at hn; omega⟩
    rw [strcmp, hs.1]
    split
    case isTrue heq =>
      obtain ⟨d, hd, hiff⟩ := ih hs.2.2 (b := b + 1) (by simpa using hn)
      exact ⟨d, hd, hiff.trans ⟨fun h => ⟨heq.2.symm, heq.1, h⟩, fun h => h.2.2⟩⟩
    case isFalse hne =>
      have hcb : c ≠ m' b := fun h => hne ⟨hs.2.1, h⟩
      have hnat : c.toNat ≠ (m' b).toNat := fun h => hcb (BitVec.eq_of_toNat_eq h)
      exact ⟨_, rfl, iff_of_false (by omega) fun h => hcb h.1.symm⟩

/-- **`strcmp`** of two strings is zero exactly when they are equal. -/
theorem strcmp_cstr {m m' : Mem} {s t : List Char8} {a b n : Nat} (hs : CStr m a s)
    (ht : CStr m' b t) (hn : s.length < n) :
    ∃ d, strcmp m a m' b n = some d ∧ (d = 0 ↔ s = t) := by
  obtain ⟨d, hd, hiff⟩ := strcmp_string m' b hs hn
  exact ⟨d, hd, hiff.trans ⟨fun h => h.unique ht, fun h => h ▸ ht⟩⟩

theorem strncmp_comm (m : Mem) (a : Nat) (m' : Mem) (b n : Nat) :
    strncmp m a m' b n = 0 ↔ strncmp m' b m a n = 0 := by
  induction n generalizing a b with
  | zero => rfl
  | succ n ih =>
    rw [strncmp, strncmp]
    by_cases heq : m a = m' b
    · rw [heq]
      split
      · exact ih (a + 1) (b + 1)
      · rfl
    · rw [if_neg fun h => heq h.2.2, if_neg fun h => heq h.2.2.symm]
      omega

/-- **`strncmp`** with the length of some characters: are they a prefix? -/
theorem strncmp_holds {m m' : Mem} {s t : List Char8} {a b : Nat} (hs : CStr m a s)
    (ht : Holds m' b t) (hne : ∀ c ∈ t, c ≠ 0) : strncmp m a m' b t.length = 0 ↔ t <+: s := by
  induction t generalizing s a b with
  | nil => simp [strncmp]
  | cons d t ih =>
    have hd : d.toNat ≠ 0 := fun h => hne d List.mem_cons_self (BitVec.eq_of_toNat_eq h)
    have htail := fun c hc => hne c (List.mem_cons_of_mem d hc)
    rw [List.length_cons, strncmp, ht.1]
    cases s with
    | nil =>
      have h0 : m a = 0 := hs
      have hzero : (0 : Char8).toNat = 0 := rfl
      rw [h0, if_neg fun h => h.2.1 rfl, hzero]
      refine iff_of_false (fun h => hd (by omega)) (by simp)
    | cons c s =>
      rw [hs.1, List.cons_prefix_cons]
      by_cases hcd : c = d
      · subst hcd
        cases t with
        | nil => simp
        | cons d' t =>
          rw [if_pos ⟨by simp, hs.2.1, rfl⟩, ih hs.2.2 ht.2 htail]
          simp
      · have hnat : c.toNat ≠ d.toNat := fun h => hcd (BitVec.eq_of_toNat_eq h)
        rw [if_neg fun h => hcd h.2.2]
        refine iff_of_false (fun h => hnat (by omega)) fun h => hcd h.1.symm

/-- `strncmp` with the length of a string. -/
theorem strncmp_cstr {m m' : Mem} {s t : List Char8} {a b : Nat} (hs : CStr m a s)
    (ht : CStr m' b t) : strncmp m a m' b t.length = 0 ↔ t <+: s :=
  strncmp_holds hs (holds_append.mp ht.holds).1 ht.ne_zero

/-- `strncmp` with more characters than one of the strings has. -/
theorem strncmp_whole {m m' : Mem} {s t : List Char8} {a b n : Nat} (hs : CStr m a s)
    (ht : CStr m' b t) (hn : t.length < n) : strncmp m a m' b n = 0 ↔ t = s := by
  induction t generalizing s a b n with
  | nil =>
    obtain ⟨k, rfl⟩ : ∃ k, n = k + 1 := ⟨n - 1, by simp at hn; omega⟩
    have h0 : m' b = 0 := ht
    have hzero : (0 : Char8).toNat = 0 := rfl
    cases s with
    | nil =>
      have h0' : m a = 0 := hs
      rw [strncmp, h0, h0', if_neg fun h => h.2.1 rfl]
      simp
    | cons c s =>
      have hc : c.toNat ≠ 0 := fun h => hs.2.1 (BitVec.eq_of_toNat_eq h)
      rw [strncmp, h0, hs.1, if_neg fun h => hs.2.1 h.2.2, hzero]
      exact iff_of_false (by omega) (by simp)
  | cons d t ih =>
    obtain ⟨k, rfl⟩ : ∃ k, n = k + 1 := ⟨n - 1, by simp at hn; omega⟩
    have hd : d.toNat ≠ 0 := fun h => ht.2.1 (BitVec.eq_of_toNat_eq h)
    cases s with
    | nil =>
      have h0 : m a = 0 := hs
      have hzero : (0 : Char8).toNat = 0 := rfl
      rw [strncmp, h0, ht.1, if_neg fun h => h.2.1 rfl, hzero]
      exact iff_of_false (by omega) (by simp)
    | cons c s =>
      rw [strncmp, hs.1, ht.1, List.cons.injEq]
      by_cases hcd : c = d
      · subst hcd
        rw [if_pos ⟨by simp at hn; omega, hs.2.1, rfl⟩, ih hs.2.2 ht.2.2 (by simpa using hn)]
        simp
      · have hnat : c.toNat ≠ d.toNat := fun h => hcd (BitVec.eq_of_toNat_eq h)
        rw [if_neg fun h => hcd h.2.2]
        exact iff_of_false (by omega) fun h => hcd h.1.symm

/-- **`strchr`** finds nothing when the character does not occur. -/
theorem strchr_cstr {m : Mem} {s : List Char8} {a n : Nat} {c : Char8} (h : CStr m a s)
    (hc : c ≠ 0) (hn : s.length < n) :
    ∃ r, strchr m a c n = some r ∧ (r = none ↔ c ∉ s) := by
  induction s generalizing a n with
  | nil =>
    obtain ⟨k, rfl⟩ : ∃ k, n = k + 1 := ⟨n - 1, by simp at hn; omega⟩
    have h0 : m a = 0 := h
    rw [strchr, h0, if_neg hc.symm, if_pos rfl]
    exact ⟨none, rfl, by simp⟩
  | cons d s ih =>
    obtain ⟨k, rfl⟩ : ∃ k, n = k + 1 := ⟨n - 1, by simp at hn; omega⟩
    rw [strchr, h.1]
    split
    case isTrue hd => exact ⟨some a, rfl, by simp [hd]⟩
    case isFalse hd =>
      obtain ⟨r, hr, hiff⟩ := ih h.2.2 (by simpa using hn)
      rw [if_neg h.2.1]
      exact ⟨r, hr, by simp [hiff, Ne.symm hd]⟩

end FrogKernel.CStrings
