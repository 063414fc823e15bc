import FrogKernel.Framebuffer.Console
import FrogKernel.Lib.Raster

/-!
# What the console shows (`framebuffer/framebuffer.c`, `framebuffer/console.c`)

The calls of the console with the back buffer that they draw into, which `fb_swap` copies
to the screen.  The buffer is the memory from `fb.addr` on; what is drawn below the screen
goes behind it.  A cell is 8 by 16 pixels, and `cellAt_fillCell`, `cellAt_charCell` and
`cellAt_scrolled` say what the three ways of drawing do to the cells.
-/

namespace FrogKernel.Console

open FrogKernel.Bytes FrogKernel.Raster

/-! ## The back buffer -/

def fbPutPixel (fb : Framebuffer) (m : Mem) (px : Pixel) : Mem :=
  putPixel fb.pitch m px.x px.y px.color

def draw (fb : Framebuffer) (m : Mem) (pixels : List Pixel) : Mem :=
  pixels.foldl (fbPutPixel fb) m

def fbClear (fb : Framebuffer) (m : Mem) (color : BitVec 32) : Mem :=
  storeWords m 0 color.toNat (fb.height * (fb.pitch / 4))

/-- The console and the memory from the start of the back buffer on. -/
structure ScreenT where
  console : ConsoleT
  buffer : Mem

/-- `console_init`, with anything in the buffer. -/
def screenInit (fb : Framebuffer) (m : Mem) : ScreenT where
  console := consoleInit fb
  buffer := fbClear fb m (consoleInit fb).consoleBg

/-- `console_scroll` -/
def scrolled (fb : Framebuffer) (s : ConsoleT) (m : Mem) : Mem :=
  draw fb (moveRows fb.pitch fb.height m 16) (consoleScroll fb s)

/-- The scroll at the end of `console_putchar`, on the buffer. -/
def scrollBuffer (fb : Framebuffer) (s : ConsoleT) (m : Mem) : Mem :=
  if u32 s.cursorY ≥ s.consoleRows then scrolled fb s m else m

def screenPutchar (font : BitVec 8 → Nat → BitVec 8) (fb : Framebuffer) (t : ScreenT)
    (c : BitVec 8) : ScreenT :=
  let m := draw fb t.buffer (consoleClearCursor t.console)
  let body := putcharBody font t.console c
  let m := draw fb m body.1
  let m := scrollBuffer fb body.2 m
  let s := (putcharScroll fb body.2).2
  let m := draw fb m (consoleDrawCursor s)
  { console := { s with cursorVisible := true }, buffer := m }

def screenToggleCursor (fb : Framebuffer) (t : ScreenT) : ScreenT where
  console := (consoleToggleCursor t.console).2
  buffer := draw fb t.buffer (consoleToggleCursor t.console).1

def screenCall (font : BitVec 8 → Nat → BitVec 8) (fb : Framebuffer) (t : ScreenT) :
    Call → ScreenT
  | .putchar c => screenPutchar font fb t c
  | .toggleCursor => screenToggleCursor fb t

/-- The screen after a list of calls. -/
def screenAfter (font : BitVec 8 → Nat → BitVec 8) (fb : Framebuffer) (t : ScreenT)
    (calls : List Call) : ScreenT :=
  calls.foldl (screenCall font fb) t

variable {font : BitVec 8 → Nat → BitVec 8} {fb : Framebuffer} {m : Mem}

theorem screenAfter_console (t : ScreenT) (calls : List Call) :
    (screenAfter font fb t calls).console = after font fb t.console calls := by
  induction calls generalizing t with
  | nil => rfl
  | cons c calls ih =>
    have hcall : (screenCall font fb t c).console = (call font fb t.console c).2 := by
      cases c <;> rfl
    rw [screenAfter, List.foldl_cons, ← screenAfter, ih, hcall, after, after, List.foldl_cons]

/-! ## Drawing -/

theorem Framebuffer.pixel_fits {x : Nat} (h : x < fb.width) : x * 4 + 4 ≤ fb.pitch := by
  have hpitch := fb.pitch_ge
  omega

theorem getPixel_draw_miss {pixels : List Pixel} {x y : Nat}
    (hin : ∀ px ∈ pixels, px.x < fb.width) (hx : x < fb.width)
    (hmiss : ∀ px ∈ pixels, ¬ (px.x = x ∧ px.y = y)) :
    getPixel fb.pitch (draw fb m pixels) x y = getPixel fb.pitch m x y := by
  induction pixels generalizing m with
  | nil => rfl
  | cons px pixels ih =>
    obtain ⟨hpx, hin⟩ := List.forall_mem_cons.mp hin
    obtain ⟨hne, hmiss⟩ := List.forall_mem_cons.mp hmiss
    rw [draw, List.foldl_cons, ← draw, ih hin hmiss, fbPutPixel,
      getPixel_putPixel_ne _ _ (fb.pixel_fits hpx) (fb.pixel_fits hx) hne]

/-- A place that is drawn in one color only. -/
theorem getPixel_draw_hit {pixels : List Pixel} {x y : Nat} {color : BitVec 32}
    (hin : ∀ px ∈ pixels, px.x < fb.width) (hx : x < fb.width)
    (hcolor : ∀ px ∈ pixels, px.x = x → px.y = y → px.color = color)
    (hhit : ∃ px ∈ pixels, px.x = x ∧ px.y = y) :
    getPixel fb.pitch (draw fb m pixels) x y = color := by
  induction pixels generalizing m with
  | nil => obtain ⟨px, hpx, -⟩ := hhit; cases hpx
  | cons px pixels ih =>
    obtain ⟨-, hin'⟩ := List.forall_mem_cons.mp hin
    obtain ⟨hc, hcolor'⟩ := List.forall_mem_cons.mp hcolor
    rw [draw, List.foldl_cons, ← draw]
    by_cases hlater : ∃ px ∈ pixels, px.x = x ∧ px.y = y
    · exact ih hin' hcolor' hlater
    · obtain ⟨rfl, rfl⟩ : px.x = x ∧ px.y = y := by
        obtain ⟨px', hmem, hat⟩ := hhit
        rcases List.mem_cons.mp hmem with rfl | hmem
        · exact hat
        · exact absurd ⟨px', hmem, hat⟩ hlater
      rw [getPixel_draw_miss hin' hx fun px' hmem hat => hlater ⟨px', hmem, hat⟩, fbPutPixel,
        getPixel_putPixel_self, hc rfl rfl]

theorem mem_fbFillRect {x y w h : Nat} {color : BitVec 32} {px : Pixel} (hw : x + w < 2 ^ 32)
    (hh : y + h < 2 ^ 32) : px ∈ fbFillRect x y w h color ↔
      (x ≤ px.x ∧ px.x < x + w) ∧ (y ≤ px.y ∧ px.y < y + h) ∧ px.color = color := by
  rw [fbFillRect, Nat.mod_eq_of_lt hw, Nat.mod_eq_of_lt hh]
  simp only [List.mem_flatMap, List.mem_map, List.mem_range'_1]
  constructor
  · rintro ⟨py, hy, px, hx, rfl⟩
    exact ⟨by dsimp only; omega, by dsimp only; omega, rfl⟩
  · rintro ⟨hx, hy, rfl⟩
    exact ⟨px.y, by omega, px.x, by omega, rfl⟩

theorem getPixel_fillRect {x y w h px py : Nat} (color : BitVec 32) (hw : x + w ≤ fb.width)
    (hh : y + h < 2 ^ 32) (hpx : px < fb.width) :
    getPixel fb.pitch (draw fb m (fbFillRect x y w h color)) px py =
      if (x ≤ px ∧ px < x + w) ∧ y ≤ py ∧ py < y + h then color
      else getPixel fb.pitch m px py := by
  have hw' : x + w < 2 ^ 32 := Nat.lt_of_le_of_lt hw fb.width_lt
  have hin : ∀ p ∈ fbFillRect x y w h color, p.x < fb.width := fun p hp => by
    have hp' := (mem_fbFillRect hw' hh).mp hp
    omega
  split
  case isTrue h =>
    exact getPixel_draw_hit hin hpx (fun p hp _ _ => ((mem_fbFillRect hw' hh).mp hp).2.2)
      ⟨⟨px, py, color⟩, (mem_fbFillRect hw' hh).mpr ⟨h.1, h.2, rfl⟩, rfl, rfl⟩
  case isFalse h =>
    refine getPixel_draw_miss hin hpx ?_
    rintro p hp ⟨rfl, rfl⟩
    have hp' := (mem_fbFillRect hw' hh).mp hp
    exact h ⟨hp'.1, hp'.2.1⟩

/-! ## Cells -/

/-- The pixels of a cell, by column and row. -/
abbrev Cell := Fin 8 → Fin 16 → BitVec 32

def cellAt (fb : Framebuffer) (m : Mem) (cx cy : Nat) : Cell :=
  fun col row => getPixel fb.pitch m (cx * 8 + col) (cy * 16 + row)

def plain (color : BitVec 32) : Cell := fun _ _ => color

def glyph (font : BitVec 8 → Nat → BitVec 8) (c : BitVec 8) (fg bg : BitVec 32) : Cell :=
  fun col row => if font c row &&& (0x80#8 >>> col.val) ≠ 0 then fg else bg

def fillCell (fb : Framebuffer) (m : Mem) (cx cy : Nat) (color : BitVec 32) : Mem :=
  draw fb m (fbFillRect (cx * 8) (cy * 16) 8 16 color)

def charCell (font : BitVec 8 → Nat → BitVec 8) (fb : Framebuffer) (m : Mem) (cx cy : Nat)
    (c : BitVec 8) (fg bg : BitVec 32) : Mem :=
  draw fb m (fbDrawChar font (cx * 8) (cy * 16) c fg bg)

theorem cellAt_fillCell {ax ay cx cy : Nat} (color : BitVec 32) (hax : ax * 8 + 8 ≤ fb.width)
    (hay : ay * 16 + 16 < 2 ^ 32) (hcx : cx * 8 + 8 ≤ fb.width) :
    cellAt fb (fillCell fb m ax ay color) cx cy =
      if cx = ax ∧ cy = ay then plain color else cellAt fb m cx cy := by
  funext col row
  have hcol := col.isLt
  have hrow := row.isLt
  rw [cellAt, fillCell, getPixel_fillRect color hax hay (by omega)]
  by_cases hat : cx = ax ∧ cy = ay
  · obtain ⟨rfl, rfl⟩ := hat
    rw [if_pos (by omega), if_pos ⟨rfl, rfl⟩, plain]
  · rw [if_neg (by omega), if_neg hat, cellAt]

theorem cellAt_charCell {ax ay cx cy : Nat} (c : BitVec 8) (fg bg : BitVec 32)
    (hax : ax * 8 + 8 ≤ fb.width) (hay : ay * 16 + 15 < 2 ^ 32) (hcx : cx * 8 + 8 ≤ fb.width) :
    cellAt fb (charCell font fb m ax ay c fg bg) cx cy =
      if cx = ax ∧ cy = ay then glyph font c fg bg else cellAt fb m cx cy := by
  have hwidth := fb.width_lt
  have hmem : ∀ px ∈ fbDrawChar font (ax * 8) (ay * 16) c fg bg, ∃ (col : Fin 8) (row : Fin 16),
      px = ⟨ax * 8 + col, ay * 16 + row, glyph font c fg bg col row⟩ := by
    intro px hpx
    obtain ⟨row, hrow, hpx⟩ := List.mem_flatMap.mp hpx
    obtain ⟨col, hcol, rfl⟩ := List.mem_map.mp hpx
    rw [List.mem_range] at hrow hcol
    rw [Nat.mod_eq_of_lt (by omega), Nat.mod_eq_of_lt (by omega)]
    exact ⟨⟨col, hcol⟩, ⟨row, hrow⟩, rfl⟩
  have hin : ∀ px ∈ fbDrawChar font (ax * 8) (ay * 16) c fg bg, px.x < fb.width := by
    intro px hpx
    obtain ⟨col, row, rfl⟩ := hmem px hpx
    have hcol := col.isLt
    dsimp only
    omega
  funext col row
  have hcol := col.isLt
  have hrow := row.isLt
  rw [cellAt, charCell]
  by_cases hat : cx = ax ∧ cy = ay
  · obtain ⟨rfl, rfl⟩ := hat
    rw [if_pos ⟨rfl, rfl⟩]
    refine getPixel_draw_hit hin (by omega) ?_ ?_
    · intro px hpx hx hy
      obtain ⟨col', row', rfl⟩ := hmem px hpx
      obtain rfl : col' = col := Fin.ext (Nat.add_left_cancel hx)
      obtain rfl : row' = row := Fin.ext (Nat.add_left_cancel hy)
      rfl
    · refine ⟨_, List.mem_flatMap.mpr ⟨row, List.mem_range.mpr hrow,
        List.mem_map.mpr ⟨col, List.mem_range.mpr hcol, rfl⟩⟩, ?_, ?_⟩
      · exact Nat.mod_eq_of_lt (by omega)
      · exact Nat.mod_eq_of_lt (by omega)
  · rw [if_neg hat, cellAt]
    refine getPixel_draw_miss hin (by omega) ?_
    intro px hpx hpos
    obtain ⟨col', row', rfl⟩ := hmem px hpx
    have hcol' := col'.isLt
    have hrow' := row'.isLt
    dsimp only at hpos
    omega

/-- A scroll moves the cells up.  The last row gets what was below it, as far as it is
on the screen, and there the background comes. -/
theorem cellAt_scrolled {cx cy : Nat} (s : ConsoleT) (hcx : cx * 8 + 8 ≤ fb.width)
    (col : Fin 8) (row : Fin 16) (hin : cy * 16 + row < fb.height) :
    cellAt fb (scrolled fb s m) cx cy col row =
      if cy * 16 + row + 16 < fb.height then cellAt fb m cx (cy + 1) col row
      else s.consoleBg := by
  have hcol := col.isLt
  have hrow := row.isLt
  have hheight := fb.height_ge
  have hlt := fb.height_lt
  rw [cellAt, scrolled, consoleScroll, getPixel_fillRect _ (by omega) (by omega) (by omega)]
  split
  case isTrue h => rw [if_neg (by omega)]
  case isFalse h =>
    rw [if_pos (by omega), getPixel_moveRows m (fb.pixel_fits (by omega)) (by omega), cellAt]
    congr 1
    omega

end FrogKernel.Console
