import FrogKernel.Framebuffer.Screen

/-!
# Printing a character (`framebuffer/console.c`)

`console_putchar` wraps before it draws and scrolls after it has drawn.
`shows_char_iff`: the character is on the screen afterwards, and the other cells are
right, unless the wrap goes below the screen.  There the scroll leaves of the glyph only
what was on the screen already.
-/

namespace FrogKernel.Console

open FrogKernel.Bytes FrogKernel.Raster

variable (font : BitVec 8 → Nat → BitVec 8) (fb : Framebuffer)

/-! ## What printing should show -/

/-- A character that is drawn. -/
def Printable (c : BitVec 8) : Prop := c ≠ newline ∧ c ≠ carriageReturn ∧ c ≠ backspace

instance (c : BitVec 8) : Decidable (Printable c) := inferInstanceAs (Decidable (_ ∧ _))

/-- The cells before the call, without the cursor. -/
def before (t : ScreenT) (cx cy : Nat) : Cell :=
  if (cx : Int) = t.console.cursorX ∧ (cy : Int) = t.console.cursorY then plain t.console.consoleBg
  else cellAt fb t.buffer cx cy

/-- The same one row up, with an empty last row. -/
def movedUp (t : ScreenT) (cx cy : Nat) : Cell :=
  if cy + 1 < t.console.consoleRows then before fb t cx (cy + 1) else plain t.console.consoleBg

/-- `console_putchar` gets to `console_scroll`. -/
def Scrolls (s : ConsoleT) (c : BitVec 8) : Prop :=
  u32 (putcharBody font s c).2.cursorY ≥ s.consoleRows

instance (s : ConsoleT) (c : BitVec 8) : Decidable (Scrolls font s c) :=
  inferInstanceAs (Decidable (_ ≥ _))

/-- After the call the character is in the cell (`cx`, `cy`) and the cursor in the next
one, and every other cell is as before or has moved up. -/
structure ShowsAt (t : ScreenT) (c : BitVec 8) (cx cy : Nat) : Prop where
  cursorX : (screenPutchar font fb t c).console.cursorX = cx + 1
  cursorY : (screenPutchar font fb t c).console.cursorY = cy
  col : cx + 1 < t.console.consoleCols
  row : cy < t.console.consoleRows
  char : cellAt fb (screenPutchar font fb t c).buffer cx cy =
    glyph font c t.console.consoleFg t.console.consoleBg
  cursor : cellAt fb (screenPutchar font fb t c).buffer (cx + 1) cy = plain t.console.consoleFg
  others : ∀ x y, x < t.console.consoleCols → y < t.console.consoleRows →
    ¬ (x = cx ∧ y = cy) → ¬ (x = cx + 1 ∧ y = cy) →
      cellAt fb (screenPutchar font fb t c).buffer x y =
        if Scrolls font t.console c then movedUp fb t x y else before fb t x y

def ShowsChar (t : ScreenT) (c : BitVec 8) : Prop := ∃ cx cy, ShowsAt font fb t c cx cy

/-- The glyph has nothing in the rows from `h` on. -/
def BlankFrom (c : BitVec 8) (h : Nat) : Prop := ∀ row, h ≤ row → row < 16 → font c row = 0

/-- The screen below the last row of cells, from the third column on, is background. -/
def StripBlank (t : ScreenT) : Prop :=
  ∀ x, 2 ≤ x → x < t.console.consoleCols → ∀ (col : Fin 8) (row : Fin 16),
    row.val < fb.height % 16 →
      cellAt fb t.buffer x t.console.consoleRows col row = t.console.consoleBg

variable {font fb}

/-! ## What the call does -/

theorem u32_natCast {n : Nat} (h : n < 2 ^ 32) : u32 (n : Int) = n := by
  rw [u32, Int.emod_eq_of_lt (Int.natCast_nonneg _) (by exact_mod_cast h), Int.toNat_natCast]

/-- The pixels of a cell, as the calls of the console work them out. -/
theorem u32_cell {n k : Nat} (h : n * k < 2 ^ 32) : u32 ((n : Int) * (k : Int)) = n * k := by
  rw [← Int.natCast_mul, u32_natCast h]

/-- The cell of the cursor. -/
theorem InScreen.exists_cell {s : ConsoleT} (h : InScreen fb s) : ∃ x y : Nat,
    s.cursorX = x ∧ s.cursorY = y ∧ x < s.consoleCols ∧ y < s.consoleRows := by
  obtain ⟨-, -, hx0, hx, hy0, hy⟩ := h
  exact ⟨s.cursorX.toNat, s.cursorY.toNat, (Int.toNat_of_nonneg hx0).symm,
    (Int.toNat_of_nonneg hy0).symm, by omega, by omega⟩

/-- A rectangle at the cursor is a cell. -/
theorem draw_cursor {s : ConsoleT} {x y : Nat} (hcols : s.consoleCols = fb.width / 8)
    (hrows : s.consoleRows = fb.height / 16) (hx : s.cursorX = x) (hy : s.cursorY = y)
    (hxlt : x < s.consoleCols) (hylt : y < s.consoleRows) (m : Mem) (color : BitVec 32) :
    draw fb m (fbFillRect (u32 (s.cursorX * 8)) (u32 (s.cursorY * 16)) 8 16 color) =
      fillCell fb m x y color := by
  have hw := fb.width_lt
  have hh := fb.height_lt
  have hux : u32 ((x : Int) * (8 : Nat)) = x * 8 := u32_cell (by omega)
  have huy : u32 ((y : Int) * (16 : Nat)) = y * 16 := u32_cell (by omega)
  rw [hx, hy]
  exact congrArg₂ (fun px py => draw fb m (fbFillRect px py 8 16 color)) hux huy

theorem draw_cursorChar {s : ConsoleT} {x y : Nat} (hcols : s.consoleCols = fb.width / 8)
    (hrows : s.consoleRows = fb.height / 16) (hx : s.cursorX = x) (hy : s.cursorY = y)
    (hxlt : x < s.consoleCols) (hylt : y < s.consoleRows) (m : Mem) (c : BitVec 8)
    (fg bg : BitVec 32) :
    draw fb m (fbDrawChar font (u32 (s.cursorX * 8)) (u32 (s.cursorY * 16)) c fg bg) =
      charCell font fb m x y c fg bg := by
  have hw := fb.width_lt
  have hh := fb.height_lt
  have hux : u32 ((x : Int) * (8 : Nat)) = x * 8 := u32_cell (by omega)
  have huy : u32 ((y : Int) * (16 : Nat)) = y * 16 := u32_cell (by omega)
  rw [hx, hy]
  exact congrArg₂ (fun px py => draw fb m (fbDrawChar font px py c fg bg)) hux huy

/-- The cell that a character goes to, from the cursor at (`x`, `y`). -/
def Goes (s : ConsoleT) (x y px py : Nat) : Prop :=
  x + 1 < s.consoleCols ∧ px = x ∧ py = y ∨ x + 1 = s.consoleCols ∧ px = 0 ∧ py = y + 1

variable (font) in
theorem putcharBody_printable {s : ConsoleT} {c : BitVec 8} {x y : Nat} (h : InScreen fb s)
    (hc : Printable c) (hx : s.cursorX = x) (hy : s.cursorY = y) : ∃ px py,
      Goes s x y px py ∧ putcharBody font s c =
        (fbDrawChar font (px * 8) (py * 16) c s.consoleFg s.consoleBg,
          { s with cursorX := px + 1, cursorY := py }) := by
  obtain ⟨hcols, hrows, -, hxlt, -, hylt⟩ := h
  have hw := fb.width_lt
  have hh := fb.height_lt
  have hu : u32 s.cursorX = x := by rw [hx, u32_natCast (by omega)]
  unfold putcharBody
  rw [if_neg hc.1, if_neg hc.2.1, if_neg hc.2.2, hu]
  by_cases hwrap : x ≥ s.consoleCols - 1
  · refine ⟨0, y + 1, Or.inr ⟨by omega, rfl, rfl⟩, ?_⟩
    have huy : u32 (((y + 1 : Nat) : Int) * (16 : Nat)) = (y + 1) * 16 := u32_cell (by omega)
    rw [if_pos hwrap, hy]
    exact congrArg (fun py => (fbDrawChar font 0 py c s.consoleFg s.consoleBg,
      ({ s with cursorX := 0 + 1, cursorY := ((y + 1 : Nat) : Int) } : ConsoleT))) huy
  · refine ⟨x, y, Or.inl ⟨by omega, rfl, rfl⟩, ?_⟩
    have hux : u32 ((x : Int) * (8 : Nat)) = x * 8 := u32_cell (by omega)
    have huy : u32 ((y : Int) * (16 : Nat)) = y * 16 := u32_cell (by omega)
    rw [if_neg hwrap]
    dsimp only
    rw [hx, hy]
    exact congrArg₂ (fun px py => (fbDrawChar font px py c s.consoleFg s.consoleBg,
      ({ s with cursorX := (x : Int) + 1, cursorY := (y : Int) } : ConsoleT))) hux huy

variable (font) in
/-- **One character.** -/
theorem screenPutchar_cases {t : ScreenT} {c : BitVec 8} (h : InScreen fb t.console)
    (hc : Printable c) : ∃ x y px py : Nat,
      t.console.cursorX = x ∧ t.console.cursorY = y ∧ x < t.console.consoleCols ∧
      y < t.console.consoleRows ∧ Goes t.console x y px py ∧
      let s := t.console
      let m := charCell font fb (fillCell fb t.buffer x y s.consoleBg) px py c s.consoleFg
        s.consoleBg
      (py < s.consoleRows ∧ ¬ Scrolls font s c ∧ screenPutchar font fb t c =
          ⟨{ s with cursorX := px + 1, cursorY := py, cursorVisible := true },
            fillCell fb m (px + 1) py s.consoleFg⟩ ∨
        py = s.consoleRows ∧ Scrolls font s c ∧ screenPutchar font fb t c =
          ⟨{ s with cursorX := px + 1, cursorY := (s.consoleRows - 1 : Nat),
                    cursorVisible := true },
            fillCell fb (scrolled fb s m) (px + 1) (s.consoleRows - 1) s.consoleFg⟩) := by
  obtain ⟨x, y, hx, hy, hxlt, hylt⟩ := h.exists_cell
  obtain ⟨px, py, hgoes, hbody⟩ := putcharBody_printable font h hc hx hy
  have hclear : draw fb t.buffer (consoleClearCursor t.console) =
      fillCell fb t.buffer x y t.console.consoleBg :=
    draw_cursor h.cols h.rows hx hy hxlt hylt _ _
  have hw := fb.width_ge
  have hcols := h.cols
  have hrows := h.rows
  have hh := fb.height_lt
  have hpx : px + 1 < t.console.consoleCols := by
    rcases hgoes with hg | hg <;> omega
  have hpy : py ≤ t.console.consoleRows := by
    rcases hgoes with hg | hg <;> omega
  have huy : u32 ((py : Nat) : Int) = py := u32_natCast (by omega)
  refine ⟨x, y, px, py, hx, hy, hxlt, hylt, hgoes, ?_⟩
  dsimp only
  unfold Scrolls screenPutchar scrollBuffer putcharScroll
  simp only [hbody, hclear, huy]
  by_cases hlast : py < t.console.consoleRows
  · refine Or.inl ⟨hlast, Nat.not_le_of_lt hlast, ?_⟩
    rw [if_neg (Nat.not_le_of_lt hlast), if_neg (Nat.not_le_of_lt hlast)]
    exact congrArg (ScreenT.mk _) (draw_cursor (s := { t.console with
      cursorX := px + 1, cursorY := py }) hcols hrows rfl rfl hpx hlast _ _)
  · have hge : py ≥ t.console.consoleRows := Nat.le_of_not_lt hlast
    refine Or.inr ⟨by omega, hge, ?_⟩
    rw [if_pos hge, if_pos hge]
    exact congrArg (ScreenT.mk _) (draw_cursor (s := { t.console with
      cursorX := px + 1, cursorY := (t.console.consoleRows - 1 : Nat) }) hcols hrows rfl rfl hpx
      (by dsimp only; omega) _ _)

/-! ## The cells afterwards -/

theorem InScreen.col_fits {s : ConsoleT} (h : InScreen fb s) {x : Nat} (hx : x < s.consoleCols) :
    x * 8 + 8 ≤ fb.width := by
  have hcols := h.cols
  omega

theorem InScreen.row_fits {s : ConsoleT} (h : InScreen fb s) {y : Nat} (hy : y ≤ s.consoleRows) :
    y * 16 + 15 < 2 ^ 32 := by
  have hrows := h.rows
  have hh := fb.height_lt
  omega

theorem InScreen.row_inside {s : ConsoleT} (h : InScreen fb s) {y : Nat} (hy : y < s.consoleRows) :
    y * 16 + 16 ≤ fb.height := by
  have hrows := h.rows
  omega

/-- The cursor cleared, and a character drawn. -/
theorem cellAt_drawn {s : ConsoleT} (h : InScreen fb s) (m : Mem) (c : BitVec 8) {x y px py a : Nat}
    (hx : x < s.consoleCols) (hy : y < s.consoleRows) (hpx : px < s.consoleCols)
    (hpy : py ≤ s.consoleRows) (ha : a < s.consoleCols) (b : Nat) :
    cellAt fb (charCell font fb (fillCell fb m x y s.consoleBg) px py c s.consoleFg s.consoleBg)
      a b =
      if a = px ∧ b = py then glyph font c s.consoleFg s.consoleBg
      else if a = x ∧ b = y then plain s.consoleBg
      else cellAt fb m a b := by
  have hh := fb.height_lt
  have hrow := h.row_inside hy
  rw [cellAt_charCell c _ _ (h.col_fits hpx) (h.row_fits hpy) (h.col_fits ha),
    cellAt_fillCell _ (h.col_fits hx) (by omega) (h.col_fits ha)]

/-- A character that stays on the screen is shown. -/
theorem ShowsAt.inside {t : ScreenT} {c : BitVec 8} {x y px py : Nat} (h : InScreen fb t.console)
    (hx : t.console.cursorX = x) (hy : t.console.cursorY = y) (hxlt : x < t.console.consoleCols)
    (hylt : y < t.console.consoleRows) (hpx : px + 1 < t.console.consoleCols)
    (hpy : py < t.console.consoleRows) (hscroll : ¬ Scrolls font t.console c)
    (heq : screenPutchar font fb t c =
      ⟨{ t.console with cursorX := px + 1, cursorY := py, cursorVisible := true },
        fillCell fb (charCell font fb (fillCell fb t.buffer x y t.console.consoleBg) px py c
          t.console.consoleFg t.console.consoleBg) (px + 1) py t.console.consoleFg⟩) :
    ShowsAt font fb t c px py := by
  have hh := fb.height_lt
  have hrow := h.row_inside hpy
  have hcell : ∀ a b, a < t.console.consoleCols →
      cellAt fb (screenPutchar font fb t c).buffer a b =
        if a = px + 1 ∧ b = py then plain t.console.consoleFg
        else if a = px ∧ b = py then glyph font c t.console.consoleFg t.console.consoleBg
        else before fb t a b := by
    intro a b ha
    rw [heq, cellAt_fillCell _ (h.col_fits hpx) (by omega) (h.col_fits ha),
      cellAt_drawn h _ _ hxlt hylt (by omega) (Nat.le_of_lt hpy) ha, before, hx, hy]
    simp only [Int.natCast_inj]
  exact {
    cursorX := by rw [heq]
    cursorY := by rw [heq]
    col := hpx
    row := hpy
    char := by rw [hcell _ _ (by omega), if_neg (by omega), if_pos ⟨rfl, rfl⟩]
    cursor := by rw [hcell _ _ hpx, if_pos ⟨rfl, rfl⟩]
    others := fun a b ha _ h1 h2 => by rw [hcell _ _ ha, if_neg h2, if_neg h1, if_neg hscroll] }

/-! ## A wrap below the screen -/

section Scroll

variable {t : ScreenT} {c : BitVec 8} {x y : Nat}

/-- The buffer before the scroll: the character is below the last row. -/
def belowScreen (font : BitVec 8 → Nat → BitVec 8) (fb : Framebuffer) (t : ScreenT) (c : BitVec 8)
    (x y : Nat) : Mem :=
  charCell font fb (fillCell fb t.buffer x y t.console.consoleBg) 0 t.console.consoleRows c
    t.console.consoleFg t.console.consoleBg

/-- All rows but the last come from the next one. -/
theorem cellAt_scrolled_upper (h : InScreen fb t.console) (hx : t.console.cursorX = x)
    (hy : t.console.cursorY = y) (hxlt : x < t.console.consoleCols)
    (hylt : y < t.console.consoleRows) {a b : Nat} (ha : a < t.console.consoleCols)
    (hb : b + 1 < t.console.consoleRows) :
    cellAt fb (scrolled fb t.console (belowScreen font fb t c x y)) a b = movedUp fb t a b := by
  have hrow := h.row_inside hb
  rw [movedUp, if_pos hb]
  funext col row
  have hlt := row.isLt
  rw [cellAt_scrolled _ (h.col_fits ha) _ _ (by omega), if_pos (by omega), belowScreen,
    cellAt_drawn h _ _ hxlt hylt (by omega) (Nat.le_refl _) ha, if_neg (by omega), before, hx, hy]
  simp only [Int.natCast_inj]

/-- The last row gets what was below it on the screen. -/
theorem cellAt_scrolled_last (h : InScreen fb t.console) (hxlt : x < t.console.consoleCols)
    (hylt : y < t.console.consoleRows) {a : Nat} (ha : a < t.console.consoleCols) (col : Fin 8)
    (row : Fin 16) :
    cellAt fb (scrolled fb t.console (belowScreen font fb t c x y)) a (t.console.consoleRows - 1)
      col row =
      if row.val < fb.height % 16 then
        if a = 0 then glyph font c t.console.consoleFg t.console.consoleBg col row
        else cellAt fb t.buffer a t.console.consoleRows col row
      else t.console.consoleBg := by
  have hrows := h.rows
  have hlt := row.isLt
  have hnext : t.console.consoleRows - 1 + 1 = t.console.consoleRows := by omega
  have hbelow : (t.console.consoleRows - 1) * 16 + row.val + 16 < fb.height ↔
      row.val < fb.height % 16 := by omega
  rw [cellAt_scrolled _ (h.col_fits ha) _ _ (by omega), hnext, belowScreen,
    cellAt_drawn h _ _ hxlt hylt (by omega) (Nat.le_refl _) ha]
  simp only [hbelow, and_true]
  rw [if_neg (show ¬ (a = x ∧ t.console.consoleRows = y) by omega)]
  split
  · split <;> rfl
  · rfl

theorem byte_eq_zero : ∀ b : BitVec 8, (∀ col : Fin 8, b &&& (0x80#8 >>> col.val) = 0) → b = 0 := by
  decide +kernel

/-- A row of a glyph that is all background is empty. -/
theorem glyph_row_eq_bg {fg bg : BitVec 32} (hcolors : fg ≠ bg) (row : Fin 16) :
    (∀ col, glyph font c fg bg col row = bg) ↔ font c row = 0 := by
  constructor
  · intro hall
    refine byte_eq_zero _ fun col => ?_
    by_contra hbit
    exact hcolors ((if_pos hbit).symm.trans (hall col))
  · intro hzero col
    rw [glyph, hzero, if_neg (by simp)]

/-- The screen after the wrap: the cursor is behind the character, in the last row. -/
def wrapped (font : BitVec 8 → Nat → BitVec 8) (fb : Framebuffer) (t : ScreenT) (c : BitVec 8)
    (x y : Nat) : ScreenT :=
  ⟨{ t.console with cursorX := 1, cursorY := (t.console.consoleRows - 1 : Nat),
                    cursorVisible := true },
    fillCell fb (scrolled fb t.console (belowScreen font fb t c x y)) 1
      (t.console.consoleRows - 1) t.console.consoleFg⟩

theorem cellAt_wrapped (h : InScreen fb t.console) {a : Nat} (ha : a < t.console.consoleCols)
    (b : Nat) : cellAt fb (wrapped font fb t c x y).buffer a b =
      if a = 1 ∧ b = t.console.consoleRows - 1 then plain t.console.consoleFg
      else cellAt fb (scrolled fb t.console (belowScreen font fb t c x y)) a b := by
  have hw := fb.width_ge
  have hge := fb.height_ge
  have hh := fb.height_lt
  have hcols := h.cols
  have hrows := h.rows
  have hlast := h.row_inside (y := t.console.consoleRows - 1) (by omega)
  rw [wrapped, cellAt_fillCell _ (h.col_fits (by omega)) (by omega) (h.col_fits ha)]

/-- Its last row, besides the cursor. -/
theorem cellAt_wrapped_last (h : InScreen fb t.console) (hxlt : x < t.console.consoleCols)
    (hylt : y < t.console.consoleRows) {a : Nat} (ha : a < t.console.consoleCols) (ha1 : a ≠ 1)
    (col : Fin 8) (row : Fin 16) :
    cellAt fb (wrapped font fb t c x y).buffer a (t.console.consoleRows - 1) col row =
      if row.val < fb.height % 16 then
        if a = 0 then glyph font c t.console.consoleFg t.console.consoleBg col row
        else cellAt fb t.buffer a t.console.consoleRows col row
      else t.console.consoleBg := by
  rw [cellAt_wrapped h ha, if_neg (fun hat => ha1 hat.1), cellAt_scrolled_last h hxlt hylt ha]

theorem movedUp_last (a : Nat) :
    movedUp fb t a (t.console.consoleRows - 1) = plain t.console.consoleBg :=
  if_neg (by omega)

/-- What is shown after the wrap shows that nothing was to be seen below the screen. -/
theorem blank_of_shows (h : InScreen fb t.console)
    (hcolors : t.console.consoleFg ≠ t.console.consoleBg) (hxlt : x < t.console.consoleCols)
    (hylt : y < t.console.consoleRows) (hscroll : Scrolls font t.console c)
    (heq : screenPutchar font fb t c = wrapped font fb t c x y) {cx cy : Nat}
    (hs : ShowsAt font fb t c cx cy) :
    BlankFrom font c (fb.height % 16) ∧ StripBlank fb t := by
  have hcx := hs.cursorX
  have hcy := hs.cursorY
  rw [heq] at hcx hcy
  dsimp only [wrapped] at hcx hcy
  obtain rfl : cx = 0 := by omega
  obtain rfl : cy = t.console.consoleRows - 1 := by omega
  constructor
  · intro row hrow hlt
    refine (glyph_row_eq_bg hcolors ⟨row, hlt⟩).mp fun col => ?_
    rw [← hs.char, heq, cellAt_wrapped_last h hxlt hylt (by omega) (by decide),
      if_neg (Nat.not_lt.mpr hrow)]
  · intro a ha hacols col row hrow
    have hother := hs.others a (t.console.consoleRows - 1) hacols (by omega) (by omega) (by omega)
    rw [if_pos hscroll, movedUp_last, heq] at hother
    have hpixel := congrFun (congrFun hother col) row
    rw [cellAt_wrapped_last h hxlt hylt hacols (by omega), if_pos hrow, if_neg (by omega)] at hpixel
    exact hpixel

/-- And the other way round. -/
theorem shows_of_blank (h : InScreen fb t.console)
    (hcolors : t.console.consoleFg ≠ t.console.consoleBg) (hx : t.console.cursorX = x)
    (hy : t.console.cursorY = y) (hxlt : x < t.console.consoleCols)
    (hylt : y < t.console.consoleRows) (hscroll : Scrolls font t.console c)
    (heq : screenPutchar font fb t c = wrapped font fb t c x y)
    (hblank : BlankFrom font c (fb.height % 16)) (hstrip : StripBlank fb t) :
    ShowsAt font fb t c 0 (t.console.consoleRows - 1) := by
  have hw := fb.width_ge
  have hcols := h.cols
  exact {
    cursorX := by rw [heq]; rfl
    cursorY := by rw [heq]; rfl
    col := by omega
    row := by omega
    char := by
      funext col row
      rw [heq, cellAt_wrapped_last h hxlt hylt (by omega) (by decide), if_pos rfl]
      split
      · rfl
      · exact ((glyph_row_eq_bg hcolors row).mpr (hblank row (by omega) row.isLt) col).symm
    cursor := by rw [heq, cellAt_wrapped h (by omega), if_pos ⟨rfl, rfl⟩]
    others := by
      intro a b ha hb h0 h1
      rw [if_pos hscroll, heq, cellAt_wrapped h ha, if_neg (by omega)]
      by_cases hlow : b + 1 < t.console.consoleRows
      · exact cellAt_scrolled_upper h hx hy hxlt hylt ha hlow
      · obtain rfl : b = t.console.consoleRows - 1 := by omega
        rw [movedUp_last]
        funext col row
        rw [cellAt_scrolled_last h hxlt hylt ha]
        split
        · rw [if_neg (by omega)]
          exact hstrip a (by omega) ha col row (by assumption)
        · rfl }

/-- **The wrap below the screen.** -/
theorem shows_iff_of_scroll (h : InScreen fb t.console)
    (hcolors : t.console.consoleFg ≠ t.console.consoleBg) (hx : t.console.cursorX = x)
    (hy : t.console.cursorY = y) (hxlt : x < t.console.consoleCols)
    (hylt : y < t.console.consoleRows) (hscroll : Scrolls font t.console c)
    (heq : screenPutchar font fb t c = wrapped font fb t c x y) :
    ShowsChar font fb t c ↔ BlankFrom font c (fb.height % 16) ∧ StripBlank fb t := by
  constructor
  · rintro ⟨cx, cy, hs⟩
    exact blank_of_shows h hcolors hxlt hylt hscroll heq hs
  · rintro ⟨hblank, hstrip⟩
    exact ⟨0, t.console.consoleRows - 1,
      shows_of_blank h hcolors hx hy hxlt hylt hscroll heq hblank hstrip⟩

end Scroll

/-! ## Runs -/

variable (font) in
theorem putcharBody_colors (s : ConsoleT) (c : BitVec 8) :
    (putcharBody font s c).2.consoleFg = s.consoleFg ∧
      (putcharBody font s c).2.consoleBg = s.consoleBg := by
  unfold putcharBody
  split_ifs <;> exact ⟨rfl, rfl⟩

variable (fb) in
theorem putcharScroll_colors (s : ConsoleT) :
    (putcharScroll fb s).2.consoleFg = s.consoleFg ∧
      (putcharScroll fb s).2.consoleBg = s.consoleBg := by
  unfold putcharScroll
  split <;> exact ⟨rfl, rfl⟩

variable (font fb) in
theorem call_colors (s : ConsoleT) (k : Call) :
    (call font fb s k).2.consoleFg = s.consoleFg ∧ (call font fb s k).2.consoleBg = s.consoleBg := by
  cases k with
  | putchar c =>
    have hbody := putcharBody_colors font s c
    have hscroll := putcharScroll_colors fb (putcharBody font s c).2
    exact ⟨hscroll.1.trans hbody.1, hscroll.2.trans hbody.2⟩
  | toggleCursor => exact ⟨rfl, rfl⟩

theorem after_colors (s : ConsoleT) (calls : List Call) :
    (after font fb s calls).consoleFg = s.consoleFg ∧
      (after font fb s calls).consoleBg = s.consoleBg := by
  induction calls generalizing s with
  | nil => exact ⟨rfl, rfl⟩
  | cons k calls ih =>
    have hk := call_colors font fb s k
    have hrest := ih (call font fb s k).2
    exact ⟨hrest.1.trans hk.1, hrest.2.trans hk.2⟩

/-! ## The strip below the last row -/

section Strip

variable {t : ScreenT}

/-- Nothing is drawn to the strip but in its first two columns. -/
def SameStrip (fb : Framebuffer) (s : ConsoleT) (m m' : Mem) : Prop :=
  ∀ x, 2 ≤ x → x < s.consoleCols → cellAt fb m' x s.consoleRows = cellAt fb m x s.consoleRows

theorem SameStrip.trans {s : ConsoleT} {m m' m'' : Mem} (h : SameStrip fb s m m')
    (h' : SameStrip fb s m' m'') : SameStrip fb s m m'' :=
  fun x h2 hx => (h' x h2 hx).trans (h x h2 hx)

theorem fillCell_sameStrip {s : ConsoleT} (h : InScreen fb s) (m : Mem) (color : BitVec 32)
    {ax ay : Nat} (hax : ax < s.consoleCols) (hay : ay < s.consoleRows) :
    SameStrip fb s m (fillCell fb m ax ay color) := by
  intro x _ hx
  have hh := fb.height_lt
  have hrow := h.row_inside hay
  rw [cellAt_fillCell color (h.col_fits hax) (by omega) (h.col_fits hx), if_neg (by omega)]

theorem charCell_sameStrip {s : ConsoleT} (h : InScreen fb s) (m : Mem) (c : BitVec 8)
    (fg bg : BitVec 32) {ax ay : Nat} (hax : ax < s.consoleCols)
    (hay : ay < s.consoleRows ∨ ax = 0 ∧ ay = s.consoleRows) :
    SameStrip fb s m (charCell font fb m ax ay c fg bg) := by
  intro x h2 hx
  rw [cellAt_charCell c fg bg (h.col_fits hax) (h.row_fits (by omega)) (h.col_fits hx),
    if_neg (by omega)]

variable (font) in
/-- What is drawn between the two cursors is one cell, or nothing. -/
theorem putcharBody_sameStrip {s : ConsoleT} (h : InScreen fb s) (m : Mem) (c : BitVec 8) :
    SameStrip fb s m (draw fb m (putcharBody font s c).1) := by
  by_cases hc : Printable c
  · obtain ⟨x, y, hx, hy, hxlt, hylt⟩ := h.exists_cell
    obtain ⟨px, py, hgoes, hbody⟩ := putcharBody_printable font h hc hx hy
    rw [hbody]
    exact charCell_sameStrip h m c _ _ (by rcases hgoes with hg | hg <;> omega)
      (by rcases hgoes with hg | hg <;> omega)
  · unfold putcharBody
    split
    · exact fun _ _ _ => rfl
    split
    · exact fun _ _ _ => rfl
    split
    · have hback := inScreen_back h
      dsimp only
      generalize (if s.cursorX > 0 then { s with cursorX := s.cursorX - 1 }
        else if s.cursorY > 0 then
          { s with cursorY := s.cursorY - 1, cursorX := (s.consoleCols - 1 : Nat) }
        else s) = s' at hback ⊢
      obtain ⟨x, y, hx, hy, hxlt, hylt⟩ := hback.exists_cell
      rw [draw_cursorChar hback.cols hback.rows hx hy hxlt hylt]
      have hkeep : SameStrip fb s' m (charCell font fb m x y space s'.consoleFg s'.consoleBg) :=
        charCell_sameStrip hback m space _ _ hxlt (Or.inl hylt)
      rwa [SameStrip, hback.cols, hback.rows, ← h.cols, ← h.rows] at hkeep
    · rename_i h1 h2 h3
      exact absurd ⟨h1, h2, h3⟩ hc

/-- The last row of pixels that a scroll leaves is background. -/
theorem scrolled_strip {s : ConsoleT} (hcols : s.consoleCols = fb.width / 8)
    (hrows : s.consoleRows = fb.height / 16) (m : Mem) {x : Nat} (hx : x < s.consoleCols)
    (col : Fin 8) (row : Fin 16) (hrow : row.val < fb.height % 16) :
    cellAt fb (scrolled fb s m) x s.consoleRows col row = s.consoleBg := by
  have hlt := row.isLt
  rw [cellAt_scrolled s (by omega) col row (by omega), if_neg (by omega)]

theorem StripBlank.putchar (h : InScreen fb t.console) (hs : StripBlank fb t) (c : BitVec 8) :
    StripBlank fb (screenPutchar font fb t c) := by
  have hnear : NearScreen fb (putcharBody font t.console c).2 := putcharBody_near h c
  have hscreen := putcharScroll_inScreen hnear
  have hbg := (putcharBody_colors font t.console c).2
  have hbg' := (putcharScroll_colors fb (putcharBody font t.console c).2).2
  have hbody := putcharBody_sameStrip font h
    (draw fb t.buffer (consoleClearCursor t.console)) c
  obtain ⟨x, y, hx, hy, hxlt, hylt⟩ := h.exists_cell
  have hclear : SameStrip fb t.console t.buffer
      (draw fb t.buffer (consoleClearCursor t.console)) :=
    (draw_cursor h.cols h.rows hx hy hxlt hylt t.buffer t.console.consoleBg) ▸
      fillCell_sameStrip h _ _ hxlt hylt
  unfold screenPutchar
  dsimp only
  generalize putcharBody font t.console c = body at *
  generalize draw fb (draw fb t.buffer (consoleClearCursor t.console)) body.1 = m at hbody ⊢
  have hstrip : ∀ a, 2 ≤ a → a < fb.width / 8 → ∀ (col : Fin 8) (row : Fin 16),
      row.val < fb.height % 16 →
      cellAt fb (scrollBuffer fb body.2 m) a (fb.height / 16) col row = t.console.consoleBg := by
    intro a h2 ha col row hrow
    unfold scrollBuffer
    split
    · rw [← hnear.rows, scrolled_strip hnear.cols hnear.rows m (by rw [hnear.cols]; exact ha) col
        row hrow, hbg]
    · rw [← h.cols] at ha
      have hsame : cellAt fb m a t.console.consoleRows = cellAt fb t.buffer a t.console.consoleRows :=
        hclear.trans hbody a h2 ha
      rw [← h.rows, hsame]
      exact hs a h2 ha col row hrow
  generalize (putcharScroll fb body.2).2 = s' at hscreen hbg' ⊢
  obtain ⟨x', y', hx', hy', hxlt', hylt'⟩ := hscreen.exists_cell
  have hcursor : draw fb (scrollBuffer fb body.2 m) (consoleDrawCursor s') =
      fillCell fb (scrollBuffer fb body.2 m) x' y' s'.consoleFg :=
    draw_cursor hscreen.cols hscreen.rows hx' hy' hxlt' hylt' _ _
  intro a h2 ha col row hrow
  have hsame := fillCell_sameStrip hscreen (scrollBuffer fb body.2 m) s'.consoleFg hxlt' hylt' a h2 ha
  dsimp only at ha ⊢
  rw [hcursor, hsame, hscreen.rows, hstrip a h2 (hscreen.cols ▸ ha) col row hrow, hbg', hbg]

theorem StripBlank.call (h : InScreen fb t.console) (hs : StripBlank fb t) (k : Call) :
    StripBlank fb (screenCall font fb t k) := by
  cases k with
  | putchar c => exact hs.putchar h c
  | toggleCursor =>
    obtain ⟨x, y, hx, hy, hxlt, hylt⟩ := h.exists_cell
    have hkeep : SameStrip fb t.console t.buffer (screenToggleCursor fb t).buffer := by
      unfold screenToggleCursor consoleToggleCursor
      dsimp only
      split
      · exact (draw_cursor h.cols h.rows hx hy hxlt hylt t.buffer t.console.consoleFg) ▸
          fillCell_sameStrip h _ _ hxlt hylt
      · exact (draw_cursor h.cols h.rows hx hy hxlt hylt t.buffer t.console.consoleBg) ▸
          fillCell_sameStrip h _ _ hxlt hylt
    intro a h2 ha col row hrow
    have hcell : cellAt fb (screenToggleCursor fb t).buffer a t.console.consoleRows =
        cellAt fb t.buffer a t.console.consoleRows := hkeep a h2 ha
    exact (congrFun (congrFun hcell col) row).trans (hs a h2 ha col row hrow)

theorem stripBlank_init (hpitch : 4 ∣ fb.pitch) (m : Mem) : StripBlank fb (screenInit fb m) := by
  intro x _ hx col row hrow
  have hcol := col.isLt
  have hcols : (screenInit fb m).console.consoleCols = fb.width / 8 := rfl
  have hrows : (screenInit fb m).console.consoleRows = fb.height / 16 := rfl
  rw [hcols] at hx
  rw [hrows]
  exact getPixel_storeWords m _ hpitch (fb.pixel_fits (by omega)) (by omega)

/-- **The strip stays empty**, in every run from an empty screen. -/
theorem stripBlank_after (h : InScreen fb t.console) (hs : StripBlank fb t) (calls : List Call) :
    StripBlank fb (screenAfter font fb t calls) := by
  induction calls generalizing t with
  | nil => exact hs
  | cons k calls ih =>
    have hk : InScreen fb (screenCall font fb t k).console := by
      cases k with
      | putchar c => exact consolePutchar_inScreen h c
      | toggleCursor => exact (consoleToggleCursor_inside h).2
    exact ih hk (hs.call h k)

/-- Where a row of pixels is a row of words, `fb_clear` gets to the strip. -/
theorem stripBlank_reachable (hpitch : 4 ∣ fb.pitch) (m : Mem) (calls : List Call) :
    StripBlank fb (screenAfter font fb (screenInit fb m) calls) :=
  stripBlank_after inScreen_init (stripBlank_init hpitch m) calls

end Strip

/-! ## Printing -/

/-- A character printed on any screen. -/
theorem shows_iff {t : ScreenT} {c : BitVec 8} (h : InScreen fb t.console)
    (hcolors : t.console.consoleFg ≠ t.console.consoleBg) (hc : Printable c) :
    ShowsChar font fb t c ↔
      ¬ PrintsPastEnd t.console c ∨ BlankFrom font c (fb.height % 16) ∧ StripBlank fb t := by
  obtain ⟨x, y, px, py, hx, hy, hxlt, hylt, hgoes, hcase⟩ := screenPutchar_cases font h hc
  have hpast : PrintsPastEnd t.console c ↔ py = t.console.consoleRows := by
    constructor
    · rintro ⟨-, hcol, hrow⟩
      rcases hgoes with hg | hg <;> omega
    · intro hpy
      rcases hgoes with hg | hg
      · omega
      · exact ⟨hc, by omega, by omega⟩
  have hpx : px + 1 < t.console.consoleCols := by
    have hw := fb.width_ge
    have hcols := h.cols
    rcases hgoes with hg | hg <;> omega
  rcases hcase with ⟨hpy, hscroll, heq⟩ | ⟨hpy, hscroll, heq⟩
  · exact iff_of_true ⟨px, py, ShowsAt.inside h hx hy hxlt hylt hpx hpy hscroll heq⟩
      (Or.inl fun hp => Nat.ne_of_lt hpy (hpast.mp hp))
  · obtain rfl : px = 0 := by rcases hgoes with hg | hg <;> omega
    subst hpy
    rw [shows_iff_of_scroll h hcolors hx hy hxlt hylt hscroll heq]
    exact ⟨Or.inr, fun hor => hor.resolve_left fun hnot => hnot (hpast.mpr rfl)⟩

variable (font fb) in
theorem screenAfter_inScreen (m : Mem) (calls : List Call) :
    InScreen fb (screenAfter font fb (screenInit fb m) calls).console := by
  rw [screenAfter_console]
  exact inScreen_after inScreen_init calls

variable (font fb) in
theorem screenAfter_colors (m : Mem) (calls : List Call) :
    (screenAfter font fb (screenInit fb m) calls).console.consoleFg ≠
      (screenAfter font fb (screenInit fb m) calls).console.consoleBg := by
  rw [screenAfter_console, (after_colors _ calls).1, (after_colors _ calls).2]
  exact (by decide : (0xffededed : BitVec 32) ≠ 0xff233c67)

/-- **Printing.**  A character is shown unless it wraps below the screen; there it is
shown exactly when the rows of its glyph that do not fit on the screen are empty, and the
strip below the last row is. -/
theorem shows_char_iff (font : BitVec 8 → Nat → BitVec 8) (fb : Framebuffer) (m : Mem)
    (calls : List Call) (c : BitVec 8) (hc : Printable c) :
    ShowsChar font fb (screenAfter font fb (screenInit fb m) calls) c ↔
      ¬ PrintsPastEnd (screenAfter font fb (screenInit fb m) calls).console c ∨
      BlankFrom font c (fb.height % 16) ∧
        StripBlank fb (screenAfter font fb (screenInit fb m) calls) :=
  shows_iff (screenAfter_inScreen font fb m calls) (screenAfter_colors font fb m calls) hc

/-- Two letters of the font. -/
def letters (c : BitVec 8) (row : Nat) : BitVec 8 :=
  if c = 65 then [0x00, 0x00, 0x18, 0x3C, 0x66, 0x66, 0x7E, 0x66, 0x66, 0x66, 0x66].getD row 0
  else if c = 66 then [0x00, 0x00, 0x7C, 0x66, 0x66, 0x66, 0x7C, 0x66, 0x66, 0x66, 0x7C].getD row 0
  else 0

theorem firstLetter_shown : ShowsChar letters smallScreen
    (screenAfter letters smallScreen (screenInit smallScreen fun _ => 0) []) 65 :=
  (shows_char_iff letters smallScreen (fun _ => 0) [] 65 (by decide)).mpr
    (Or.inl fun hp => absurd hp.lastCol (by decide))

/-- The second letter on the screen of two cells is lost. -/
theorem secondLetter_lost : ¬ ShowsChar letters smallScreen
    (screenAfter letters smallScreen (screenInit smallScreen fun _ => 0) [.putchar 65]) 66 := by
  rw [shows_iff (screenAfter_inScreen _ _ _ _) (screenAfter_colors _ _ _ _) (by decide),
    screenAfter_console]
  rintro (hpast | ⟨hblank, -⟩)
  · exact hpast ⟨by decide, by decide +kernel, by decide +kernel⟩
  · exact absurd (hblank 2 (by decide) (by decide)) (by decide)

end FrogKernel.Console
