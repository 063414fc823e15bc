import Mathlib.Algebra.Group.Nat.Defs
import Mathlib.Data.Set.Function
import Mathlib.Order.Interval.Set.Defs
import Mathlib.Tactic.Common

/-!
# Byte memories

A memory is a function from addresses to bytes.  Words are stored with the low
byte first.  `readN_writeN_self` and `readN_writeN_apart` are the two rules of
a stored number; `fill` and `copy` are the loops of `memset` and `memcpy`.
-/

namespace FrogKernel.Bytes

abbrev Mem := Nat → BitVec 8

/-- Store one byte. -/
def write8 (m : Mem) (a : Nat) (v : Nat) : Mem :=
  fun x => if x = a then BitVec.ofNat 8 v else m x

/-- Store the `k` low bytes of `v`, low byte first. -/
def writeN (m : Mem) (a : Nat) : Nat → Nat → Mem
  | 0, _ => m
  | k + 1, v => writeN (write8 m a v) (a + 1) k (v / 256)

/-- Read `k` bytes, low byte first. -/
def readN (m : Mem) (a : Nat) : Nat → Nat
  | 0 => 0
  | k + 1 => (m a).toNat + 256 * readN m (a + 1) k

abbrev read16 (m : Mem) (a : Nat) : Nat := readN m a 2
abbrev read32 (m : Mem) (a : Nat) : Nat := readN m a 4
abbrev write32 (m : Mem) (a v : Nat) : Mem := writeN m a 4 v

/-! ## Reading back -/

theorem write8_self (m : Mem) (a v : Nat) : write8 m a v a = BitVec.ofNat 8 v := if_pos rfl

theorem write8_ne (m : Mem) {a x : Nat} (v : Nat) (h : x ≠ a) : write8 m a v x = m x := if_neg h

theorem writeN_outside (m : Mem) {x : Nat} :
    ∀ {k a v : Nat}, x < a ∨ a + k ≤ x → writeN m a k v x = m x := by
  intro k
  induction k generalizing m with
  | zero => exact fun _ => rfl
  | succ k ih =>
    intro a v h
    rw [writeN, ih _ (by omega), write8_ne _ _ (by omega)]

theorem readN_congr {m m' : Mem} :
    ∀ {k a : Nat}, (∀ x, a ≤ x → x < a + k → m' x = m x) → readN m' a k = readN m a k
  | 0, _, _ => rfl
  | k + 1, a, h => by
    rw [readN, readN, h a (Nat.le_refl a) (by omega),
      readN_congr (fun x h1 h2 => h x (by omega) (by omega))]

theorem readN_lt (m : Mem) : ∀ k a : Nat, readN m a k < 256 ^ k
  | 0, _ => Nat.one_pos
  | k + 1, a => by
    have hbyte := (m a).isLt
    have htail := readN_lt m k (a + 1)
    rw [readN, Nat.pow_succ]
    omega

/-- A number read back from where it was stored. -/
theorem readN_writeN_self (m : Mem) :
    ∀ {k a v : Nat}, v < 256 ^ k → readN (writeN m a k v) a k = v := by
  intro k
  induction k generalizing m with
  | zero => intro a v h; simp [readN] at *; omega
  | succ k ih =>
    intro a v h
    have hbyte : writeN (write8 m a v) (a + 1) k (v / 256) a = BitVec.ofNat 8 v := by
      rw [writeN_outside _ (Or.inl (Nat.lt_succ_self a)), write8_self]
    have hv : v / 256 < 256 ^ k := by
      rw [Nat.pow_succ] at h
      omega
    rw [readN, writeN, hbyte, ih _ hv, BitVec.toNat_ofNat]
    omega

/-- A number read from where nothing was stored. -/
theorem readN_writeN_apart (m : Mem) {a k b j : Nat} (v : Nat) (h : b + j ≤ a ∨ a + k ≤ b) :
    readN (writeN m a k v) b j = readN m b j :=
  readN_congr (fun _ _ _ => writeN_outside m (by omega))

/-- What was there before does not matter. -/
theorem writeN_over {m m' : Mem} : ∀ {k a v : Nat}, (∀ x, x < a ∨ a + k ≤ x → m' x = m x) →
    writeN m' a k v = writeN m a k v
  | 0, a, _, h => funext fun x => h x (by omega)
  | k + 1, a, v, h => by
    refine writeN_over (k := k) fun x hx => ?_
    by_cases hxa : x = a
    · rw [hxa, write8_self, write8_self]
    · rw [write8_ne _ _ hxa, write8_ne _ _ hxa, h x (by omega)]

/-- The last of two writes counts. -/
theorem writeN_writeN (m : Mem) (k a v w : Nat) :
    writeN (writeN m a k v) a k w = writeN m a k w :=
  writeN_over fun _ hx => writeN_outside m hx

/-- A number read from one place and written to another is the bytes copied. -/
theorem writeN_readN (m : Mem) {k a b x : Nat} {src : Mem} :
    writeN m a k (readN src b k) x = if a ≤ x ∧ x < a + k then src (b + (x - a)) else m x := by
  induction k generalizing m a b with
  | zero =>
    rw [if_neg (by omega)]
    rfl
  | succ k ih =>
    have hbyte := (src b).isLt
    have htail : ((src b).toNat + 256 * readN src (b + 1) k) / 256 = readN src (b + 1) k := by omega
    rw [readN, writeN, htail, ih]
    by_cases hx : x = a
    · rw [if_neg (by omega), if_pos (by omega), hx, write8_self, Nat.sub_self, Nat.add_zero b]
      refine BitVec.eq_of_toNat_eq ?_
      rw [BitVec.toNat_ofNat]
      omega
    · rw [write8_ne _ _ hx]
      by_cases hin : a + 1 ≤ x ∧ x < a + 1 + k
      · rw [if_pos hin, if_pos (by omega)]
        exact congrArg src (by omega)
      · rw [if_neg hin, if_neg (by omega)]

/-- The bytes of a number do not depend on the place. -/
theorem writeN_same (m m' : Mem) {k a a' v x : Nat} (hv : v < 256 ^ k) :
    writeN m a k v x = if a ≤ x ∧ x < a + k then writeN m' a' k v (a' + (x - a)) else m x := by
  have h : writeN m a k (readN (writeN m' a' k v) a' k) x = _ := writeN_readN m
  rwa [readN_writeN_self m' hv] at h

/-! ## `memset` and `memcpy` -/

/-- `while (n--) *p++ = c` -/
def fill (m : Mem) (p : Nat) (c : Nat) : Nat → Mem
  | 0 => m
  | n + 1 => fill (write8 m p c) (p + 1) c n

/-- `while (n--) *d++ = *s++`, from the bytes `src` of another memory. -/
def copy (m : Mem) (d : Nat) (src : Mem) (s : Nat) : Nat → Mem
  | 0 => m
  | n + 1 => copy (fun x => if x = d then src s else m x) (d + 1) src (s + 1) n

theorem fill_apply (m : Mem) (p c n x : Nat) :
    fill m p c n x = if p ≤ x ∧ x < p + n then BitVec.ofNat 8 c else m x := by
  induction n generalizing m p with
  | zero => rw [fill, if_neg (by omega)]
  | succ n ih =>
    rw [fill, ih]
    by_cases hx : x = p
    · subst hx
      rw [if_neg (by omega), if_pos (by omega), write8_self]
    · rw [write8_ne _ _ hx]
      have hiff : (p + 1 ≤ x ∧ x < p + 1 + n) ↔ (p ≤ x ∧ x < p + (n + 1)) := by omega
      simp only [hiff]

theorem copy_apply (m : Mem) (d : Nat) (src : Mem) (s n x : Nat) :
    copy m d src s n x = if d ≤ x ∧ x < d + n then src (s + (x - d)) else m x := by
  induction n generalizing m d s with
  | zero => rw [copy, if_neg (by omega)]
  | succ n ih =>
    rw [copy, ih]
    by_cases hx : x = d
    · subst hx
      rw [if_neg (by omega), if_pos (by omega)]
      simp
    · have hiff : (d + 1 ≤ x ∧ x < d + 1 + n) ↔ (d ≤ x ∧ x < d + (n + 1)) := by omega
      simp only [hiff, hx, ↓reduceIte]
      split
      · congr 1; omega
      · rfl

theorem readN_fill_zero (m : Mem) {p n a k : Nat} (h1 : p ≤ a) (h2 : a + k ≤ p + n) :
    readN (fill m p 0 n) a k = 0 := by
  induction k generalizing a with
  | zero => rfl
  | succ k ih =>
    rw [readN, ih (by omega) (by omega), fill_apply, if_pos (by omega)]
    rfl

-- a call on a whole page must not be unfolded byte by byte
attribute [irreducible] fill copy

end FrogKernel.Bytes
