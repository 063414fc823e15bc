import Mathlib.Algebra.Group.Int.Defs
import Mathlib.Algebra.Group.Nat.Defs
import Mathlib.Tactic.Common

/-!
# The console (`framebuffer/framebuffer.c`, `framebuffer/console.c`)

Every function returns the pixels it puts with `fb_put_pixel`, in order.

`pixels_inside_iff`: all pixels lie in the back buffer exactly when no
character is printed with the cursor in the last cell of the screen.  There
`console_putchar` moves to the row below the screen, draws the character, and
only then scrolls.
-/

namespace FrogKernel.Console

/-! ## `framebuffer.c` -/

/-- A framebuffer with 32 bits for each pixel. -/
structure Framebuffer where
  width : Nat
  height : Nat
  pitch : Nat
  width_ge : 16 ≤ width
  height_ge : 16 ≤ height
  pitch_ge : 4 * width ≤ pitch
  width_lt : width < 2 ^ 32
  height_lt : height < 2 ^ 32

/-- A call of `fb_put_pixel`. -/
structure Pixel where
  x : Nat
  y : Nat
  color : BitVec 32

/-- The byte `fb_put_pixel` writes first, from the start of the back buffer on. -/
def Pixel.offset (fb : Framebuffer) (px : Pixel) : Nat := px.y * fb.pitch + px.x * 4

/-- The pixel is on the screen, and its four bytes are in the back buffer. -/
def Pixel.Inside (fb : Framebuffer) (px : Pixel) : Prop :=
  px.x < fb.width ∧ px.y < fb.height ∧ px.offset fb + 4 ≤ fb.pitch * fb.height

def fbFillRect (x y w h : Nat) (color : BitVec 32) : List Pixel :=
  (List.range' y ((y + h) % 2 ^ 32 - y)).flatMap fun y =>
    (List.range' x ((x + w) % 2 ^ 32 - x)).map fun x => { x, y, color }

/-- `font` holds the rows of each glyph. -/
def fbDrawChar (font : BitVec 8 → Nat → BitVec 8) (x y : Nat) (c : BitVec 8)
    (fg bg : BitVec 32) : List Pixel :=
  (List.range 16).flatMap fun row => (List.range 8).map fun col =>
    { x := (x + col) % 2 ^ 32
      y := (y + row) % 2 ^ 32
      color := if font c row &&& (0x80#8 >>> col) ≠ 0 then fg else bg }

/-! ## `console.c` -/

structure ConsoleT where
  consoleCols : Nat
  consoleRows : Nat
  consoleBg : BitVec 32
  consoleFg : BitVec 32
  cursorX : Int
  cursorY : Int
  cursorVisible : Bool

/-- The conversion of an `int` to `uint32_t`. -/
def u32 (z : Int) : Nat := (z % 2 ^ 32).toNat

def consoleInit (fb : Framebuffer) : ConsoleT where
  consoleCols := fb.width / 8
  consoleRows := fb.height / 16
  consoleBg := 0xff233c67
  consoleFg := 0xffededed
  cursorX := 0
  cursorY := 0
  cursorVisible := false

/-- The pixels of `console_scroll`; its `memmove` stays in the back buffer. -/
def consoleScroll (fb : Framebuffer) (s : ConsoleT) : List Pixel :=
  fbFillRect 0 (fb.height - 16) fb.width 16 s.consoleBg

def consoleDrawCursor (s : ConsoleT) : List Pixel :=
  fbFillRect (u32 (s.cursorX * 8)) (u32 (s.cursorY * 16)) 8 16 s.consoleFg

def consoleClearCursor (s : ConsoleT) : List Pixel :=
  fbFillRect (u32 (s.cursorX * 8)) (u32 (s.cursorY * 16)) 8 16 s.consoleBg

def consoleToggleCursor (s : ConsoleT) : List Pixel × ConsoleT :=
  let s := { s with cursorVisible := !s.cursorVisible }
  (if s.cursorVisible then consoleDrawCursor s else consoleClearCursor s, s)

def newline : BitVec 8 := 10
def carriageReturn : BitVec 8 := 13
def backspace : BitVec 8 := 8
def space : BitVec 8 := 32

/-- `console_putchar` between its first and its last cursor. -/
def putcharBody (font : BitVec 8 → Nat → BitVec 8) (s : ConsoleT) (c : BitVec 8) :
    List Pixel × ConsoleT :=
  if c = newline then ([], { s with cursorX := 0, cursorY := s.cursorY + 1 })
  else if c = carriageReturn then ([], { s with cursorX := 0 })
  else if c = backspace then
    let s :=
      if s.cursorX > 0 then { s with cursorX := s.cursorX - 1 }
      else if s.cursorY > 0 then
        { s with cursorY := s.cursorY - 1, cursorX := (s.consoleCols - 1 : Nat) }
      else s
    (fbDrawChar font (u32 (s.cursorX * 8)) (u32 (s.cursorY * 16)) space s.consoleFg s.consoleBg, s)
  else
    let s :=
      if u32 s.cursorX ≥ s.consoleCols - 1 then { s with cursorX := 0, cursorY := s.cursorY + 1 }
      else s
    (fbDrawChar font (u32 (s.cursorX * 8)) (u32 (s.cursorY * 16)) c s.consoleFg s.consoleBg,
      { s with cursorX := s.cursorX + 1 })

/-- The scroll at the end of `console_putchar`. -/
def putcharScroll (fb : Framebuffer) (s : ConsoleT) : List Pixel × ConsoleT :=
  if u32 s.cursorY ≥ s.consoleRows then
    (consoleScroll fb s, { s with cursorY := (s.consoleRows - 1 : Nat) })
  else ([], s)

def consolePutchar (font : BitVec 8 → Nat → BitVec 8) (fb : Framebuffer) (s : ConsoleT)
    (c : BitVec 8) : List Pixel × ConsoleT :=
  let body := putcharBody font s c
  let scroll := putcharScroll fb body.2
  (consoleClearCursor s ++ body.1 ++ scroll.1 ++ consoleDrawCursor scroll.2,
    { scroll.2 with cursorVisible := true })

inductive Call where
  | putchar (c : BitVec 8)
  | toggleCursor

def call (font : BitVec 8 → Nat → BitVec 8) (fb : Framebuffer) (s : ConsoleT) :
    Call → List Pixel × ConsoleT
  | .putchar c => consolePutchar font fb s c
  | .toggleCursor => consoleToggleCursor s

/-- The console after a list of calls. -/
def after (font : BitVec 8 → Nat → BitVec 8) (fb : Framebuffer) (s : ConsoleT) (calls : List Call) :
    ConsoleT :=
  calls.foldl (fun s c => (call font fb s c).2) s

/-! ## Rectangles and glyphs -/

variable {font : BitVec 8 → Nat → BitVec 8} {fb : Framebuffer} {s : ConsoleT}

theorem Pixel.inside_of_lt {px : Pixel} (hx : px.x < fb.width) (hy : px.y < fb.height) :
    px.Inside fb := by
  refine ⟨hx, hy, ?_⟩
  have hpitch := fb.pitch_ge
  calc px.offset fb + 4 = px.y * fb.pitch + (px.x + 1) * 4 := by rw [Pixel.offset]; omega
    _ ≤ px.y * fb.pitch + fb.pitch := by omega
    _ = fb.pitch * (px.y + 1) := by rw [Nat.mul_succ, Nat.mul_comm]
    _ ≤ fb.pitch * fb.height := Nat.mul_le_mul_left _ hy

theorem fbFillRect_inside {x y w h : Nat} {color : BitVec 32} (hw : x + w ≤ fb.width)
    (hh : y + h ≤ fb.height) : ∀ px ∈ fbFillRect x y w h color, px.Inside fb := by
  intro px hpx
  have hwidth := fb.width_lt
  have hheight := fb.height_lt
  obtain ⟨py, hrow, hpx⟩ := List.mem_flatMap.mp hpx
  obtain ⟨px, hcol, rfl⟩ := List.mem_map.mp hpx
  rw [List.mem_range'_1, Nat.mod_eq_of_lt (by omega)] at hrow hcol
  apply Pixel.inside_of_lt
  · dsimp only
    omega
  · dsimp only
    omega

theorem fbDrawChar_inside {x y : Nat} {c : BitVec 8} {fg bg : BitVec 32} (hw : x + 8 ≤ fb.width)
    (hh : y + 16 ≤ fb.height) : ∀ px ∈ fbDrawChar font x y c fg bg, px.Inside fb := by
  intro px hpx
  have hwidth := fb.width_lt
  have hheight := fb.height_lt
  obtain ⟨row, hrow, hpx⟩ := List.mem_flatMap.mp hpx
  obtain ⟨col, hcol, rfl⟩ := List.mem_map.mp hpx
  rw [List.mem_range] at hrow hcol
  apply Pixel.inside_of_lt
  · dsimp only
    rw [Nat.mod_eq_of_lt (by omega)]
    omega
  · dsimp only
    rw [Nat.mod_eq_of_lt (by omega)]
    omega

/-- A glyph below the last full row sticks out. -/
theorem fbDrawChar_outside {x y : Nat} {c : BitVec 8} {fg bg : BitVec 32}
    (hy : fb.height < y + 16) (hlt : y + 16 ≤ 2 ^ 32) :
    ¬ ∀ px ∈ fbDrawChar font x y c fg bg, px.Inside fb := by
  intro hall
  have hmem : ({
      x := (x + 0) % 2 ^ 32
      y := (y + 15) % 2 ^ 32
      color := if font c 15 &&& (0x80#8 >>> 0) ≠ 0 then fg else bg } : Pixel) ∈
        fbDrawChar font x y c fg bg :=
    List.mem_flatMap.mpr ⟨15, by simp, List.mem_map.mpr ⟨0, by simp, rfl⟩⟩
  have hlast := (hall _ hmem).2.1
  dsimp only at hlast
  rw [Nat.mod_eq_of_lt (by omega)] at hlast
  omega

/-! ## The cursor -/

/-- The cursor is in a cell of the screen. -/
structure InScreen (fb : Framebuffer) (s : ConsoleT) : Prop where
  cols : s.consoleCols = fb.width / 8
  rows : s.consoleRows = fb.height / 16
  x_nonneg : 0 ≤ s.cursorX
  x_lt : s.cursorX < s.consoleCols
  y_nonneg : 0 ≤ s.cursorY
  y_lt : s.cursorY < s.consoleRows

/-- A character is printed in the last cell. -/
structure PrintsPastEnd (s : ConsoleT) (c : BitVec 8) : Prop where
  printed : c ≠ newline ∧ c ≠ carriageReturn ∧ c ≠ backspace
  lastCol : s.cursorX = (s.consoleCols - 1 : Nat)
  lastRow : s.cursorY = (s.consoleRows - 1 : Nat)

theorem u32_of_lt {z : Int} (h0 : 0 ≤ z) (h : z < 2 ^ 32) : (u32 z : Int) = z := by
  rw [u32, Int.emod_eq_of_lt h0 h, Int.toNat_of_nonneg h0]

theorem inScreen_init : InScreen fb (consoleInit fb) := by
  have hw := fb.width_ge
  have hh := fb.height_ge
  refine ⟨rfl, rfl, Int.le_refl 0, ?_, Int.le_refl 0, ?_⟩
  · simp only [consoleInit]
    omega
  · simp only [consoleInit]
    omega

/-- The cell of the cursor, in pixels. -/
theorem InScreen.cell (h : InScreen fb s) :
    u32 (s.cursorX * 8) + 8 ≤ fb.width ∧ u32 (s.cursorY * 16) + 16 ≤ fb.height := by
  obtain ⟨hc, hr, hx0, hx, hy0, hy⟩ := h
  have hw := fb.width_lt
  have hh := fb.height_lt
  have hxc := u32_of_lt (z := s.cursorX * 8) (by omega) (by omega)
  have hyc := u32_of_lt (z := s.cursorY * 16) (by omega) (by omega)
  omega

theorem InScreen.draw_inside (h : InScreen fb s) (c : BitVec 8) :
    ∀ px ∈ fbDrawChar font (u32 (s.cursorX * 8)) (u32 (s.cursorY * 16)) c s.consoleFg s.consoleBg,
      px.Inside fb :=
  fbDrawChar_inside h.cell.1 h.cell.2

theorem InScreen.drawCursor_inside (h : InScreen fb s) : ∀ px ∈ consoleDrawCursor s, px.Inside fb :=
  fbFillRect_inside h.cell.1 h.cell.2

theorem InScreen.clearCursor_inside (h : InScreen fb s) :
    ∀ px ∈ consoleClearCursor s, px.Inside fb :=
  fbFillRect_inside h.cell.1 h.cell.2

theorem consoleScroll_inside : ∀ px ∈ consoleScroll fb s, px.Inside fb := by
  have hh := fb.height_ge
  exact fbFillRect_inside (by omega) (by omega)

/-! ## `console_putchar` -/

/-- The cursor may be one row below the screen. -/
structure NearScreen (fb : Framebuffer) (s : ConsoleT) : Prop where
  cols : s.consoleCols = fb.width / 8
  rows : s.consoleRows = fb.height / 16
  x_nonneg : 0 ≤ s.cursorX
  x_lt : s.cursorX < s.consoleCols
  y_nonneg : 0 ≤ s.cursorY
  y_le : s.cursorY ≤ s.consoleRows

theorem putcharBody_near (h : InScreen fb s) (c : BitVec 8) :
    NearScreen fb (putcharBody font s c).2 := by
  obtain ⟨hc, hr, hx0, hx, hy0, hy⟩ := h
  have hw := fb.width_ge
  have hwlt := fb.width_lt
  have hux := u32_of_lt (z := s.cursorX) hx0 (by omega)
  unfold putcharBody
  split
  · exact ⟨hc, hr, Int.le_refl 0, by dsimp only; omega, by dsimp only; omega, by dsimp only; omega⟩
  split
  · exact ⟨hc, hr, Int.le_refl 0, by dsimp only; omega, hy0, by dsimp only; omega⟩
  split
  · dsimp only
    split
    · exact ⟨hc, hr, by dsimp only; omega, by dsimp only; omega, hy0, by dsimp only; omega⟩
    split
    · exact ⟨hc, hr, by dsimp only; omega, by dsimp only; omega, by dsimp only; omega,
        by dsimp only; omega⟩
    · exact ⟨hc, hr, hx0, hx, hy0, by omega⟩
  · dsimp only
    split
    · exact ⟨hc, hr, by dsimp only; omega, by dsimp only; omega, by dsimp only; omega,
        by dsimp only; omega⟩
    · exact ⟨hc, hr, by dsimp only; omega, by dsimp only; omega, hy0, by dsimp only; omega⟩

theorem putcharScroll_inScreen (h : NearScreen fb s) : InScreen fb (putcharScroll fb s).2 := by
  obtain ⟨hc, hr, hx0, hx, hy0, hy⟩ := h
  have hh := fb.height_ge
  have hhlt := fb.height_lt
  have huy := u32_of_lt (z := s.cursorY) hy0 (by omega)
  unfold putcharScroll
  split
  · exact ⟨hc, hr, hx0, hx, by dsimp only; omega, by dsimp only; omega⟩
  · exact ⟨hc, hr, hx0, hx, hy0, by dsimp only; omega⟩

/-- A step back stays on the screen. -/
theorem inScreen_back (h : InScreen fb s) :
    InScreen fb (if s.cursorX > 0 then { s with cursorX := s.cursorX - 1 }
      else if s.cursorY > 0 then
        { s with cursorY := s.cursorY - 1, cursorX := (s.consoleCols - 1 : Nat) }
      else s) := by
  obtain ⟨hc, hr, hx0, hx, hy0, hy⟩ := h
  split
  · exact ⟨hc, hr, by dsimp only; omega, by dsimp only; omega, hy0, hy⟩
  split
  · exact ⟨hc, hr, by dsimp only; omega, by dsimp only; omega, by dsimp only; omega,
      by dsimp only; omega⟩
  · exact ⟨hc, hr, hx0, hx, hy0, hy⟩

/-- What is drawn between the two cursors. -/
theorem putcharBody_inside_iff (h : InScreen fb s) (c : BitVec 8) :
    (∀ px ∈ (putcharBody font s c).1, px.Inside fb) ↔ ¬ PrintsPastEnd s c := by
  have hw := fb.width_ge
  have hwlt := fb.width_lt
  have hhlt := fb.height_lt
  obtain ⟨hcols, hrows, hx0, hx, hy0, hy⟩ := id h
  have hux := u32_of_lt (z := s.cursorX) hx0 (by omega)
  unfold putcharBody
  split
  case isTrue hc => exact iff_of_true (by simp) fun hp => hp.printed.1 hc
  split
  case isTrue hc => exact iff_of_true (by simp) fun hp => hp.printed.2.1 hc
  split
  case isTrue hc =>
    exact iff_of_true ((inScreen_back h).draw_inside space) fun hp => hp.printed.2.2 hc
  case isFalse hnl hcr hbs =>
    dsimp only
    split
    case isTrue hlast =>
      -- the line wraps
      by_cases hrow : s.cursorY = (s.consoleRows - 1 : Nat)
      · have huy := u32_of_lt (z := (s.cursorY + 1) * 16) (by omega) (by omega)
        have hbelow : fb.height < u32 ((s.cursorY + 1) * 16) + 16 := by omega
        have hlt : u32 ((s.cursorY + 1) * 16) + 16 ≤ 2 ^ 32 := by omega
        refine iff_of_false (fbDrawChar_outside hbelow hlt) (not_not.mpr ?_)
        exact ⟨⟨hnl, hcr, hbs⟩, by omega, hrow⟩
      · have hnext : InScreen fb { s with cursorX := 0, cursorY := s.cursorY + 1 } :=
          ⟨hcols, hrows, Int.le_refl 0, by dsimp only; omega, by dsimp only; omega,
            by dsimp only; omega⟩
        exact iff_of_true (hnext.draw_inside c) fun hp => hrow hp.lastRow
    case isFalse hlast =>
      refine iff_of_true (h.draw_inside c) fun hp => hlast ?_
      have hcol := hp.lastCol
      omega

theorem consolePutchar_inScreen (h : InScreen fb s) (c : BitVec 8) :
    InScreen fb (consolePutchar font fb s c).2 := by
  have hnear : NearScreen fb (putcharBody font s c).2 := putcharBody_near h c
  have hscroll := putcharScroll_inScreen hnear
  exact ⟨hscroll.cols, hscroll.rows, hscroll.x_nonneg, hscroll.x_lt, hscroll.y_nonneg, hscroll.y_lt⟩

theorem consolePutchar_inside_iff (h : InScreen fb s) (c : BitVec 8) :
    (∀ px ∈ (consolePutchar font fb s c).1, px.Inside fb) ↔ ¬ PrintsPastEnd s c := by
  have hbody : (∀ px ∈ (putcharBody font s c).1, px.Inside fb) ↔ ¬ PrintsPastEnd s c :=
    putcharBody_inside_iff h c
  rw [← hbody]
  have hnear : NearScreen fb (putcharBody font s c).2 := putcharBody_near h c
  have hscroll := putcharScroll_inScreen hnear
  constructor
  · intro hall px hpx
    exact hall px (by simp [consolePutchar, hpx])
  · intro hbody px hpx
    simp only [consolePutchar, List.mem_append] at hpx
    rcases hpx with ((hpx | hpx) | hpx) | hpx
    · exact h.clearCursor_inside px hpx
    · exact hbody px hpx
    · unfold putcharScroll at hpx
      split at hpx
      · exact consoleScroll_inside px hpx
      · cases hpx
    · exact hscroll.drawCursor_inside px hpx

theorem consoleToggleCursor_inside (h : InScreen fb s) :
    (∀ px ∈ (consoleToggleCursor s).1, px.Inside fb) ∧ InScreen fb (consoleToggleCursor s).2 := by
  have h' : InScreen fb { s with cursorVisible := !s.cursorVisible } :=
    ⟨h.cols, h.rows, h.x_nonneg, h.x_lt, h.y_nonneg, h.y_lt⟩
  refine ⟨?_, h'⟩
  unfold consoleToggleCursor
  dsimp only
  split
  · exact h'.drawCursor_inside
  · exact h'.clearCursor_inside

/-! ## Runs -/

theorem inScreen_after (h : InScreen fb s) (calls : List Call) : InScreen fb (after font fb s calls) := by
  induction calls generalizing s with
  | nil => exact h
  | cons c calls ih =>
    refine ih ?_
    cases c with
    | putchar c => exact consolePutchar_inScreen h c
    | toggleCursor => exact (consoleToggleCursor_inside h).2

/-- **The back buffer.**  In a run of the console all pixels of all calls are
inside exactly when no character is printed in the last cell of the screen. -/
theorem pixels_inside_iff (font : BitVec 8 → Nat → BitVec 8) (fb : Framebuffer) (calls : List Call) :
    (∀ past c rest, calls = past ++ c :: rest →
      ∀ px ∈ (call font fb (after font fb (consoleInit fb) past) c).1, px.Inside fb) ↔
    ∀ past c rest, calls = past ++ .putchar c :: rest →
      ¬ PrintsPastEnd (after font fb (consoleInit fb) past) c := by
  have hscreen : ∀ past, InScreen fb (after font fb (consoleInit fb) past) :=
    inScreen_after inScreen_init
  constructor
  · intro hall past c rest heq
    exact (consolePutchar_inside_iff (hscreen past) c).mp (hall past _ rest heq)
  · intro hnever past c rest heq
    cases c with
    | putchar c => exact (consolePutchar_inside_iff (hscreen past) c).mpr (hnever past c rest heq)
    | toggleCursor => exact (consoleToggleCursor_inside (hscreen past)).1

/-- A screen of two cells. -/
def smallScreen : Framebuffer where
  width := 16
  height := 16
  pitch := 64
  width_ge := by decide
  height_ge := by decide
  pitch_ge := by decide
  width_lt := by decide
  height_lt := by decide

/-- The second character is drawn below the screen. -/
theorem twoCharacters_outside : ¬ ∀ px ∈
    (call (fun _ _ => 0) smallScreen
      (after (fun _ _ => 0) smallScreen (consoleInit smallScreen) [.putchar 65]) (.putchar 66)).1,
      px.x < smallScreen.width ∧ px.y < smallScreen.height := by
  decide +kernel

end FrogKernel.Console
