import FrogKernel.Framebuffer.Screen

/-!
# Overlapping copies (`misc/mem.c`, `framebuffer/console.c`)

`memmove` copies from the first byte on when the destination lies below the source, and
from the last byte on otherwise.  Its pointers are 32 bits wide, so a range up to the end
of the address space has its end at 0.

Main result: `memmove_moves`, the bytes arrive as they were, and nothing else changes.
-/

namespace FrogKernel.Memmove

open FrogKernel.Bytes FrogKernel.Console FrogKernel.Raster

/-- `while (n--) *d++ = *s++` -/
def copyUp (m : Mem) (d s : BitVec 32) : Nat → Mem
  | 0 => m
  | n + 1 => copyUp (fun x => if x = d.toNat then m s.toNat else m x) (d + 1) (s + 1) n

/-- `while (n--) *--d = *--s` -/
def copyDown (m : Mem) (d s : BitVec 32) : Nat → Mem
  | 0 => m
  | n + 1 =>
    copyDown (fun x => if x = (d - 1).toNat then m (s - 1).toNat else m x) (d - 1) (s - 1) n

/-- `memmove`: the memory after the call, and what it returns. -/
def memmove (m : Mem) (dst src n : BitVec 32) : Mem × BitVec 32 :=
  if dst < src then (copyUp m dst src n.toNat, dst)
  else (copyDown m (dst + n) (src + n) n.toNat, dst)

/-! ## The two loops -/

/-- A pointer inside of a range that does not wrap around. -/
theorem toNat_add_ofNat {p : BitVec 32} {k : Nat} (h : p.toNat + k < 2 ^ 32) :
    (p + BitVec.ofNat 32 k).toNat = p.toNat + k := by
  rw [BitVec.toNat_add, BitVec.toNat_ofNat, Nat.add_mod_mod, Nat.mod_eq_of_lt h]

theorem copyUp_eq (n : Nat) : ∀ (m : Mem) (d s : BitVec 32), d.toNat + n ≤ 2 ^ 32 →
    s.toNat + n ≤ 2 ^ 32 → copyUp m d s n = moveForward m d.toNat s.toNat n := by
  induction n with
  | zero => exact fun _ _ _ _ _ => rfl
  | succ n ih =>
    intro m d s hd hs
    rw [copyUp, moveForward]
    cases n with
    | zero => rfl
    | succ n =>
      have hd1 : (d + 1).toNat = d.toNat + 1 := toNat_add_ofNat (k := 1) (by omega)
      have hs1 : (s + 1).toNat = s.toNat + 1 := toNat_add_ofNat (k := 1) (by omega)
      rw [ih _ _ _ (by omega) (by omega), hd1, hs1]

/-- The pointers start behind the ranges. -/
theorem copyDown_eq {d s : BitVec 32} (n : Nat) : ∀ (m : Mem), d.toNat + n ≤ 2 ^ 32 →
    s.toNat + n ≤ 2 ^ 32 →
    copyDown m (d + BitVec.ofNat 32 n) (s + BitVec.ofNat 32 n) n =
      moveBackward m d.toNat s.toNat n := by
  induction n with
  | zero => exact fun _ _ _ => rfl
  | succ n ih =>
    intro m hd hs
    have hback : ∀ p : BitVec 32, p + BitVec.ofNat 32 (n + 1) - 1 = p + BitVec.ofNat 32 n := by
      intro p
      rw [BitVec.ofNat_add, ← BitVec.add_assoc]
      exact BitVec.add_sub_cancel _ _
    rw [copyDown, moveBackward, hback, hback, toNat_add_ofNat (by omega), toNat_add_ofNat (by omega),
      ih _ (by omega) (by omega)]

/-- The ranges may end where the address space ends. -/
theorem memmove_eq (m : Mem) {dst src n : BitVec 32} (hdst : dst.toNat + n.toNat ≤ 2 ^ 32)
    (hsrc : src.toNat + n.toNat ≤ 2 ^ 32) :
    (memmove m dst src n).1 = Raster.memmove m dst.toNat src.toNat n.toNat := by
  have hn : BitVec.ofNat 32 n.toNat = n := by simp
  unfold memmove Raster.memmove
  by_cases h : dst < src
  · rw [if_pos h, if_pos (BitVec.lt_def.mp h)]
    exact copyUp_eq n.toNat m dst src hdst hsrc
  · rw [if_neg h, if_neg (fun hlt => h (BitVec.lt_def.mpr hlt))]
    have hdown := copyDown_eq n.toNat m hdst hsrc
    rwa [hn] at hdown

/-- **`memmove`.** -/
theorem memmove_moves (m : Mem) {dst src n : BitVec 32} (hdst : dst.toNat + n.toNat ≤ 2 ^ 32)
    (hsrc : src.toNat + n.toNat ≤ 2 ^ 32) :
    (∀ i < n.toNat, (memmove m dst src n).1 (dst.toNat + i) = m (src.toNat + i)) ∧
      ∀ x, x < dst.toNat ∨ dst.toNat + n.toNat ≤ x → (memmove m dst src n).1 x = m x := by
  rw [memmove_eq m hdst hsrc]
  constructor
  · intro i hi
    rw [memmove_apply, if_pos (by omega), Nat.add_sub_cancel_left]
  · intro x hx
    rw [memmove_apply, if_neg (by omega)]

/-- Ten bytes moved up by one. -/
theorem upByOne_moves : (∀ i < 10, (memmove (BitVec.ofNat 8) 7 6 10).1 (7 + i) = BitVec.ofNat 8 (6 + i)) ∧
    ∀ x, x < 7 ∨ 17 ≤ x → (memmove (BitVec.ofNat 8) 7 6 10).1 x = BitVec.ofNat 8 x :=
  @memmove_moves (BitVec.ofNat 8) 7 6 10 (by decide) (by decide)

/-! ## Scrolling -/

/-- The `memmove` of `console_scroll`, with the back buffer at `addr`. -/
def scrollMove (fb : Framebuffer) (m : Mem) (addr : BitVec 32) : Mem :=
  let rowBytes := BitVec.ofNat 32 fb.pitch * 16
  let totalBytes := BitVec.ofNat 32 fb.pitch * BitVec.ofNat 32 fb.height
  (memmove m addr (addr + rowBytes) (totalBytes - rowBytes)).1

/-- It moves the rows of the back buffer up. -/
theorem scrollMove_rows (fb : Framebuffer) (m : Mem) {addr : BitVec 32}
    (haddr : addr.toNat + fb.pitch * fb.height < 2 ^ 32) (i : Nat) :
    scrollMove fb m addr (addr.toNat + i) =
      moveRows fb.pitch fb.height (fun x => m (addr.toNat + x)) 16 i := by
  have hrows : fb.pitch * 16 ≤ fb.pitch * fb.height := Nat.mul_le_mul_left _ fb.height_ge
  have hrow : BitVec.ofNat 32 fb.pitch * 16 = BitVec.ofNat 32 (fb.pitch * 16) :=
    (BitVec.ofNat_mul fb.pitch 16).symm
  have htotal : BitVec.ofNat 32 fb.pitch * BitVec.ofNat 32 fb.height =
      BitVec.ofNat 32 (fb.pitch * fb.height) := (BitVec.ofNat_mul fb.pitch fb.height).symm
  have hsrc : (addr + BitVec.ofNat 32 (fb.pitch * 16)).toNat = addr.toNat + fb.pitch * 16 :=
    toNat_add_ofNat (by omega)
  have hlen : (BitVec.ofNat 32 (fb.pitch * fb.height) - BitVec.ofNat 32 (fb.pitch * 16)).toNat =
      fb.pitch * fb.height - fb.pitch * 16 := by
    have hlt : ∀ k, k ≤ fb.pitch * fb.height → (BitVec.ofNat 32 k).toNat = k := fun k hk =>
      (BitVec.toNat_ofNat k 32).trans (Nat.mod_eq_of_lt (by omega))
    rw [BitVec.toNat_sub_of_le, hlt _ (Nat.le_refl _), hlt _ hrows]
    rw [BitVec.le_def, hlt _ (Nat.le_refl _), hlt _ hrows]
    exact hrows
  simp only [scrollMove, hrow, htotal]
  rw [memmove_eq m (by omega) (by omega), hsrc, hlen, moveRows, memmove_apply, memmove_apply]
  have hin : (addr.toNat ≤ addr.toNat + i ∧
      addr.toNat + i < addr.toNat + (fb.pitch * fb.height - fb.pitch * 16)) ↔
      (0 ≤ i ∧ i < 0 + (fb.pitch * fb.height - fb.pitch * 16)) := by omega
  simp only [hin]
  split
  · congr 1
    omega
  · rfl

end FrogKernel.Memmove
