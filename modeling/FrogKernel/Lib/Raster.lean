import FrogKernel.Lib.Bytes

/-!
# Pixels in a byte memory

Rows of `pitch` bytes, with four bytes for each pixel and the memory from the first row
on.  `getPixel_putPixel` is the rule of one pixel, `getPixel_moveRows` that of rows moved
up, and `getPixel_storeWords` that of a memory filled with one color.
-/

namespace FrogKernel.Raster

open FrogKernel.Bytes

abbrev Color := BitVec 32

/-- The first byte of a pixel. -/
def offset (pitch x y : Nat) : Nat := y * pitch + x * 4

def putPixel (pitch : Nat) (m : Mem) (x y : Nat) (color : Color) : Mem :=
  write32 m (offset pitch x y) color.toNat

def getPixel (pitch : Nat) (m : Mem) (x y : Nat) : Color :=
  BitVec.ofNat 32 (read32 m (offset pitch x y))

/-! ## One pixel -/

theorem getPixel_putPixel_self (pitch : Nat) (m : Mem) (x y : Nat) (color : Color) :
    getPixel pitch (putPixel pitch m x y color) x y = color := by
  have hcolor : color.toNat < 256 ^ 4 := color.isLt
  rw [getPixel, putPixel, read32, write32, readN_writeN_self m hcolor, BitVec.ofNat_toNat,
    BitVec.setWidth_eq]

/-- Two pixels of the rows have no byte in common. -/
theorem offset_apart {pitch x y x' y' : Nat} (hx : x * 4 + 4 ≤ pitch) (hx' : x' * 4 + 4 ≤ pitch)
    (hne : ¬ (x = x' ∧ y = y')) :
    offset pitch x' y' + 4 ≤ offset pitch x y ∨ offset pitch x y + 4 ≤ offset pitch x' y' := by
  unfold offset
  rcases Nat.lt_trichotomy y y' with hlt | heq | hlt
  · have hrows : (y + 1) * pitch ≤ y' * pitch := Nat.mul_le_mul_right pitch hlt
    rw [Nat.succ_mul] at hrows
    omega
  · subst heq
    omega
  · have hrows : (y' + 1) * pitch ≤ y * pitch := Nat.mul_le_mul_right pitch hlt
    rw [Nat.succ_mul] at hrows
    omega

theorem getPixel_putPixel_ne {pitch x y x' y' : Nat} (m : Mem) (color : Color)
    (hx : x * 4 + 4 ≤ pitch) (hx' : x' * 4 + 4 ≤ pitch) (hne : ¬ (x = x' ∧ y = y')) :
    getPixel pitch (putPixel pitch m x y color) x' y' = getPixel pitch m x' y' := by
  rw [getPixel, getPixel, putPixel, read32, write32,
    readN_writeN_apart m _ (offset_apart hx hx' hne)]

/-- A pixel depends on its own four bytes. -/
theorem getPixel_congr {pitch pitch' x y x' y' : Nat} {m m' : Mem}
    (h : ∀ i < 4, m' (offset pitch' x' y' + i) = m (offset pitch x y + i)) :
    getPixel pitch' m' x' y' = getPixel pitch m x y := by
  have h0 := h 0 (by decide)
  have h1 := h 1 (by decide)
  have h2 := h 2 (by decide)
  have h3 := h 3 (by decide)
  simp only [getPixel, read32, readN, Nat.add_assoc, Nat.add_zero, Nat.reduceAdd] at *
  rw [h0, h1, h2, h3]

/-! ## Rows moved -/

/-- `while (n--) *d++ = *s++` -/
def moveForward (m : Mem) (d s : Nat) : Nat → Mem
  | 0 => m
  | n + 1 => moveForward (fun x => if x = d then m s else m x) (d + 1) (s + 1) n

/-- `while (n--) *--d = *--s`, from the ends of the `n` bytes on. -/
def moveBackward (m : Mem) (d s : Nat) : Nat → Mem
  | 0 => m
  | n + 1 => moveBackward (fun x => if x = d + n then m (s + n) else m x) d s n

def memmove (m : Mem) (d s n : Nat) : Mem :=
  if d < s then moveForward m d s n else moveBackward m d s n

theorem moveForward_apply {d s : Nat} (m : Mem) (h : d < s) (n x : Nat) :
    moveForward m d s n x = if d ≤ x ∧ x < d + n then m (s + (x - d)) else m x := by
  induction n generalizing m d s with
  | zero => rw [moveForward, if_neg (by omega)]
  | succ n ih =>
    rw [moveForward, ih _ (by omega)]
    by_cases hx : x = d
    · subst hx
      rw [if_neg (by omega), if_pos rfl, if_pos (by omega), Nat.sub_self, Nat.add_zero]
    · have hiff : (d + 1 ≤ x ∧ x < d + 1 + n) ↔ (d ≤ x ∧ x < d + (n + 1)) := by omega
      simp only [hiff, hx, if_false]
      split
      case isTrue hin =>
        rw [if_neg (by omega)]
        congr 1
        omega
      case isFalse => rfl

theorem moveBackward_apply {d s : Nat} (m : Mem) (h : s ≤ d) (n x : Nat) :
    moveBackward m d s n x = if d ≤ x ∧ x < d + n then m (s + (x - d)) else m x := by
  induction n generalizing m with
  | zero => rw [moveBackward, if_neg (by omega)]
  | succ n ih =>
    rw [moveBackward, ih]
    by_cases hx : x = d + n
    · subst hx
      rw [if_neg (by omega), if_pos rfl, if_pos (by omega), Nat.add_sub_cancel_left]
    · have hiff : (d ≤ x ∧ x < d + n) ↔ (d ≤ x ∧ x < d + (n + 1)) := by omega
      simp only [hiff, hx, if_false]
      split
      case isTrue hin => rw [if_neg (by omega)]
      case isFalse => rfl

/-- The bytes of `s` before the call, at `d`. -/
theorem memmove_apply (m : Mem) (d s n x : Nat) :
    memmove m d s n x = if d ≤ x ∧ x < d + n then m (s + (x - d)) else m x := by
  unfold memmove
  split
  case isTrue h => exact moveForward_apply m h n x
  case isFalse h => exact moveBackward_apply m (Nat.le_of_not_lt h) n x

/-- The first `height` rows without the first `k`, which are lost. -/
def moveRows (pitch height : Nat) (m : Mem) (k : Nat) : Mem :=
  memmove m 0 (pitch * k) (pitch * height - pitch * k)

theorem getPixel_moveRows {pitch height k x y : Nat} (m : Mem) (hx : x * 4 + 4 ≤ pitch)
    (hy : y + k < height) :
    getPixel pitch (moveRows pitch height m k) x y = getPixel pitch m x (y + k) := by
  refine getPixel_congr fun i hi => ?_
  have hrow : offset pitch x (y + k) = pitch * k + offset pitch x y := by
    unfold offset
    rw [Nat.add_mul, Nat.mul_comm k]
    omega
  have hend : pitch * k + offset pitch x y + 4 ≤ pitch * height := by
    have hrows : (y + k + 1) * pitch ≤ height * pitch := Nat.mul_le_mul_right pitch hy
    rw [← hrow, offset, Nat.mul_comm pitch height]
    rw [Nat.succ_mul] at hrows
    omega
  rw [moveRows, memmove_apply, if_pos (by omega), hrow]
  congr 1
  omega

/-! ## One color -/

/-- `rep stosl`: `n` words from `a` on. -/
def storeWords (m : Mem) (a v : Nat) : Nat → Mem
  | 0 => m
  | n + 1 => storeWords (write32 m a v) (a + 4) v n

theorem storeWords_outside (m : Mem) {a v n x : Nat} (h : x < a ∨ a + 4 * n ≤ x) :
    storeWords m a v n x = m x := by
  induction n generalizing m a with
  | zero => rfl
  | succ n ih => rw [storeWords, ih _ (by omega), write32, writeN_outside m (by omega)]

theorem read32_storeWords (m : Mem) {a v n k : Nat} (hv : v < 2 ^ 32) (hk : k < n) :
    read32 (storeWords m a v n) (a + 4 * k) = v := by
  induction n generalizing m a k with
  | zero => exact absurd hk (Nat.not_lt_zero k)
  | succ n ih =>
    rw [storeWords]
    cases k with
    | zero =>
      have hkeep : read32 (storeWords (write32 m a v) (a + 4) v n) a = read32 (write32 m a v) a :=
        readN_congr fun x _ hx => storeWords_outside _ (by omega)
      rw [Nat.mul_zero, show a + 0 = a from rfl, hkeep, read32, write32, readN_writeN_self m hv]
    | succ k =>
      have hnext : a + 4 * (k + 1) = a + 4 + 4 * k := by omega
      rw [hnext, ih _ (Nat.lt_of_succ_lt_succ hk)]

/-- Rows of whole words get the color everywhere. -/
theorem getPixel_storeWords {pitch height x y : Nat} (m : Mem) (color : Color)
    (hpitch : 4 ∣ pitch) (hx : x * 4 + 4 ≤ pitch) (hy : y < height) :
    getPixel pitch (storeWords m 0 color.toNat (height * (pitch / 4))) x y = color := by
  obtain ⟨words, rfl⟩ := hpitch
  rw [Nat.mul_div_cancel_left words (by decide)]
  have hword : offset (4 * words) x y = 0 + 4 * (y * words + x) := by
    unfold offset
    rw [← Nat.mul_left_comm, Nat.mul_add]
    omega
  have hlt : y * words + x < height * words := by
    have hrows : (y + 1) * words ≤ height * words := Nat.mul_le_mul_right words hy
    rw [Nat.succ_mul] at hrows
    omega
  rw [getPixel, hword, read32_storeWords m color.isLt hlt, BitVec.ofNat_toNat, BitVec.setWidth_eq]

end FrogKernel.Raster
