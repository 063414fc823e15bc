import FrogKernel.Framebuffer.Printing
import Mathlib.Data.List.Induction

/-!
# Backspace (`framebuffer/console.c`)

`console_putchar` leaves a row one column before its end, but a backspace at the
start of a row goes to the last column of the row above.

Main result: `roundTrip_iff`, when backspaces take back what was echoed.
-/

namespace FrogKernel.Console

open FrogKernel.Bytes FrogKernel.Raster

variable (font : BitVec 8 → Nat → BitVec 8) (fb : Framebuffer)

/-- The screen after a string. -/
def echo (t : ScreenT) (cs : List (BitVec 8)) : ScreenT := cs.foldl (screenPutchar font fb) t

/-- The screen after `k` backspaces. -/
def erase (t : ScreenT) : Nat → ScreenT
  | 0 => t
  | k + 1 => screenPutchar font fb (erase t k) backspace

/-- No character of the string scrolls. -/
def Still (t : ScreenT) (cs : List (BitVec 8)) : Prop :=
  ∀ past c rest, cs = past ++ c :: rest → ¬ Scrolls font (echo font fb t past).console c

/-- A call for some character of the string puts a pixel into the cell. -/
def Touched (t : ScreenT) (cs : List (BitVec 8)) (x y : Nat) : Prop :=
  ∃ past c rest, cs = past ++ c :: rest ∧
    ∃ px ∈ (consolePutchar font fb (echo font fb t past).console c).1, px.x / 8 = x ∧ px.y / 16 = y

/-- A string echoed and then as many backspaces: the cursor is back, and but for
the cursor all cells that were drawn to are blank. -/
structure RoundTrip (t : ScreenT) (cs : List (BitVec 8)) : Prop where
  cursorX : (erase font fb (echo font fb t cs) cs.length).console.cursorX = t.console.cursorX
  cursorY : (erase font fb (echo font fb t cs) cs.length).console.cursorY = t.console.cursorY
  blank : ∀ x y, Touched font fb t cs x y →
    before fb (erase font fb (echo font fb t cs) cs.length) x y = plain t.console.consoleBg

variable {font fb}

theorem echo_append (t : ScreenT) (cs cs' : List (BitVec 8)) :
    echo font fb t (cs ++ cs') = echo font fb (echo font fb t cs) cs' :=
  List.foldl_append

/-- The console is on the screen and as `t`'s, with the cursor at (`x`, `y`). -/
structure CursorAt (fb : Framebuffer) (t t' : ScreenT) (x y : Nat) : Prop where
  inScreen : InScreen fb t'.console
  cols : t'.console.consoleCols = t.console.consoleCols
  bg : t'.console.consoleBg = t.console.consoleBg
  x_eq : t'.console.cursorX = x
  y_eq : t'.console.cursorY = y

theorem CursorAt.x_lt {t t' : ScreenT} {x y : Nat} (h : CursorAt fb t t' x y) :
    x < t.console.consoleCols := by
  have hlt := h.inScreen.x_lt
  have hx := h.x_eq
  have hcols := h.cols
  omega

/-- A cell is known by its number. -/
theorem cell_unique {cols x y x' y' : Nat} (hx : x < cols) (hx' : x' < cols)
    (h : x + y * cols = x' + y' * cols) : x = x' ∧ y = y' := by
  have hxx : x = x' := by
    have hmod := congrArg (· % cols) h
    simpa only [Nat.add_mul_mod_self_right, Nat.mod_eq_of_lt hx, Nat.mod_eq_of_lt hx'] using hmod
  subst hxx
  exact ⟨rfl, Nat.eq_of_mul_eq_mul_right (by omega) (Nat.add_left_cancel h)⟩

/-! ## One backspace -/

variable (font) in
/-- The cursor goes one cell back, and leaves a blank cell. -/
theorem screenPutchar_backspace {t t' : ScreenT} {x y : Nat} (h : CursorAt fb t t' x y) :
    ∃ x' y', x' + y' * t.console.consoleCols = x + y * t.console.consoleCols - 1 ∧
      CursorAt fb t (screenPutchar font fb t' backspace) x' y' ∧
      ∀ a b, a < t.console.consoleCols → ¬ (a = x' ∧ b = y') →
        cellAt fb (screenPutchar font fb t' backspace).buffer a b =
          if a = x ∧ b = y then plain t.console.consoleBg else cellAt fb t'.buffer a b := by
  have hw := fb.width_ge
  have hh := fb.height_lt
  have hback := inScreen_back h.inScreen
  obtain ⟨hin, hcols, hbg, hx, hy⟩ := h
  have hxlt : x < t'.console.consoleCols := by
    have hlt := hin.x_lt
    omega
  have hylt : y < t'.console.consoleRows := by
    have hlt := hin.y_lt
    omega
  have hclear : draw fb t'.buffer (consoleClearCursor t'.console) =
      fillCell fb t'.buffer x y t'.console.consoleBg :=
    draw_cursor hin.cols hin.rows hx hy hxlt hylt _ _
  have hcell : ∃ x' y' : Nat, x' + y' * t.console.consoleCols = x + y * t.console.consoleCols - 1 ∧
      (if t'.console.cursorX > 0 then { t'.console with cursorX := t'.console.cursorX - 1 }
        else if t'.console.cursorY > 0 then
          { t'.console with
            cursorY := t'.console.cursorY - 1, cursorX := (t'.console.consoleCols - 1 : Nat) }
        else t'.console) = { t'.console with cursorX := (x' : Int), cursorY := (y' : Int) } := by
    rcases x with _ | x
    · rcases y with _ | y
      · refine ⟨0, 0, by omega, ?_⟩
        rw [if_neg (by omega), if_neg (by omega)]
        calc t'.console = { t'.console with
              cursorX := t'.console.cursorX, cursorY := t'.console.cursorY } := rfl
          _ = _ := by rw [hx, hy]
      · refine ⟨t'.console.consoleCols - 1, y, ?_, ?_⟩
        · rw [Nat.succ_mul]
          omega
        · rw [hx, hy, if_neg (by decide), if_pos (by omega)]
          simp
    · refine ⟨x, y, by omega, ?_⟩
      rw [hx, if_pos (by omega)]
      simp [hy]
  obtain ⟨x', y', hpos, hbody⟩ := hcell
  rw [hbody] at hback
  have hx'lt : x' < t'.console.consoleCols := by
    have hlt : (x' : Int) < t'.console.consoleCols := hback.x_lt
    omega
  have hy'lt : y' < t'.console.consoleRows := by
    have hlt : (y' : Int) < t'.console.consoleRows := hback.y_lt
    omega
  have hrow := hin.row_inside hy'lt
  have huy : u32 (y' : Int) = y' := u32_natCast (by omega)
  have hscreen : screenPutchar font fb t' backspace =
      ⟨{ t'.console with cursorX := (x' : Int), cursorY := (y' : Int), cursorVisible := true },
        fillCell fb (charCell font fb (fillCell fb t'.buffer x y t'.console.consoleBg) x' y' space
          t'.console.consoleFg t'.console.consoleBg) x' y' t'.console.consoleFg⟩ := by
    unfold screenPutchar scrollBuffer putcharScroll putcharBody
    rw [if_neg (by decide), if_neg (by decide), if_pos rfl, hbody, hclear]
    dsimp only
    rw [huy, if_neg (Nat.not_le_of_lt hy'lt), if_neg (Nat.not_le_of_lt hy'lt)]
    refine congrArg (ScreenT.mk _) ?_
    refine Eq.trans (congrArg (fun m => draw fb m _)
      (draw_cursorChar hback.cols hback.rows rfl rfl hx'lt hy'lt _ space _ _)) ?_
    exact draw_cursor (s := { t'.console with cursorX := (x' : Int), cursorY := (y' : Int) })
      hback.cols hback.rows rfl rfl hx'lt hy'lt _ _
  refine ⟨x', y', hpos, ?_, ?_⟩
  · rw [hscreen]
    exact ⟨⟨hback.cols, hback.rows, hback.x_nonneg, hback.x_lt, hback.y_nonneg, hback.y_lt⟩,
      hcols, hbg, rfl, rfl⟩
  · intro a b ha hne
    rw [← hcols] at ha
    rw [hscreen, cellAt_fillCell _ (hin.col_fits hx'lt) (by omega) (hin.col_fits ha), if_neg hne,
      cellAt_drawn hin _ _ hxlt hylt hx'lt (Nat.le_of_lt hy'lt) ha, if_neg hne, hbg]

variable (font) in
/-- Backspaces count the cells back. -/
theorem erase_cursor {t t' : ScreenT} {x y : Nat} (h : CursorAt fb t t' x y) (k : Nat) :
    ∃ x' y', x' + y' * t.console.consoleCols = x + y * t.console.consoleCols - k ∧
      CursorAt fb t (erase font fb t' k) x' y' := by
  induction k with
  | zero => exact ⟨x, y, by omega, h⟩
  | succ k ih =>
    obtain ⟨x₁, y₁, hpos₁, hat₁⟩ := ih
    obtain ⟨x₂, y₂, hpos₂, hat₂, -⟩ := screenPutchar_backspace font hat₁
    exact ⟨x₂, y₂, by omega, hat₂⟩

variable (font) in
/-- In one row they leave it blank. -/
theorem erase_row {t t' : ScreenT} {x y : Nat} (h : CursorAt fb t t' x y) (k : Nat) (hk : k ≤ x) :
    CursorAt fb t (erase font fb t' k) (x - k) y ∧ ∀ a, x - k < a → a ≤ x →
      cellAt fb (erase font fb t' k).buffer a y = plain t.console.consoleBg := by
  have hlt := h.x_lt
  induction k with
  | zero => exact ⟨h, fun a hlo hhi => absurd hhi (by omega)⟩
  | succ k ih =>
    obtain ⟨hat, hblank⟩ := ih (by omega)
    obtain ⟨x', y', hpos, hat', hcells⟩ := screenPutchar_backspace font hat
    obtain ⟨rfl, rfl⟩ : x - (k + 1) = x' ∧ y = y' :=
      cell_unique (by omega) hat'.x_lt (by omega)
    refine ⟨hat', fun a hlo hhi => ?_⟩
    rw [erase, hcells a y (by omega) (by omega)]
    by_cases ha : a = x - k
    · rw [if_pos ⟨ha, rfl⟩]
    · rw [if_neg (by omega), hblank a (by omega) hhi]

/-! ## The echo -/

theorem Still.left {t : ScreenT} {cs cs' : List (BitVec 8)} (h : Still font fb t (cs ++ cs')) :
    Still font fb t cs := by
  rintro past c rest rfl
  exact h past c (rest ++ cs') (by simp)

/-- The character goes to the cell (`px`, `py`). -/
theorem CursorAt.echo_char {t t' : ScreenT} {x y : Nat} (h : CursorAt fb t t' x y) {c : BitVec 8}
    (hc : Printable c) (hstill : ¬ Scrolls font t'.console c) :
    ∃ px py, Goes t'.console x y px py ∧
      CursorAt fb t (screenPutchar font fb t' c) (px + 1) py := by
  obtain ⟨x', y', px, py, hx', hy', hxlt, hylt, hgoes, hcase⟩ :=
    screenPutchar_cases font h.inScreen hc
  obtain rfl : x' = x := Int.ofNat_inj.mp (hx'.symm.trans h.x_eq)
  obtain rfl : y' = y := Int.ofNat_inj.mp (hy'.symm.trans h.y_eq)
  have hin : InScreen fb (screenPutchar font fb t' c).console :=
    consolePutchar_inScreen h.inScreen c
  rcases hcase with ⟨hpy, -, heq⟩ | ⟨-, hscroll, -⟩
  · refine ⟨px, py, hgoes, hin, ?_, ?_, ?_, ?_⟩ <;> rw [heq]
    · exact h.cols
    · exact h.bg
    · rfl
  · exact absurd hscroll hstill

/-- Where an echo from the start of row `y` ends: it skips one cell for each row
that it leaves, and leaves the first with as many characters as there are columns. -/
theorem echo_cursor {t : ScreenT} {y : Nat} (hstart : CursorAt fb t t 0 y) {cs : List (BitVec 8)}
    (hprint : ∀ c ∈ cs, Printable c) (hstill : Still font fb t cs) :
    ∃ x' q, CursorAt fb t (echo font fb t cs) x' (y + q) ∧
      x' + (y + q) * t.console.consoleCols = y * t.console.consoleCols + cs.length + q ∧
      (q = 0 ∨ t.console.consoleCols ≤ cs.length) := by
  induction cs using List.reverseRecOn with
  | nil => exact ⟨0, 0, hstart, by simp, Or.inl rfl⟩
  | append_singleton cs c ih =>
    obtain ⟨x, q, hat, hpos, hq⟩ := ih (fun d hd => hprint d (List.mem_append_left _ hd)) hstill.left
    obtain ⟨px, py, hgoes, hat'⟩ := hat.echo_char (hprint c (by simp)) (hstill cs c [] rfl)
    have hcols := hat.cols
    rw [echo_append, List.length_append, List.length_singleton]
    rcases hgoes with ⟨hlt, rfl, rfl⟩ | ⟨hlast, rfl, rfl⟩
    · exact ⟨px + 1, q, hat', by omega, by omega⟩
    · refine ⟨1, q + 1, hat', ?_, Or.inr ?_⟩
      · rw [← Nat.add_assoc, Nat.succ_mul]
        omega
      · rcases hq with rfl | hge
        · rw [Nat.add_zero] at hpos
          omega
        · omega

/-! ## The cells of a row -/

theorem mem_fillRect_cell {px : Pixel} {cx cy : Nat} {color : BitVec 32}
    (hx : cx * 8 + 8 < 2 ^ 32) (hy : cy * 16 + 16 < 2 ^ 32)
    (hpx : px ∈ fbFillRect (cx * 8) (cy * 16) 8 16 color) : px.x / 8 = cx ∧ px.y / 16 = cy := by
  have hmem := (mem_fbFillRect hx hy).mp hpx
  omega

theorem mem_cursor_cell {s : ConsoleT} (h : InScreen fb s) {x y : Nat} (hx : s.cursorX = x)
    (hy : s.cursorY = y) {px : Pixel} {color : BitVec 32}
    (hpx : px ∈ fbFillRect (u32 (s.cursorX * 8)) (u32 (s.cursorY * 16)) 8 16 color) :
    px.x / 8 = x ∧ px.y / 16 = y := by
  have hw := fb.width_lt
  have hh := fb.height_lt
  have hxlt := h.x_lt
  have hylt := h.y_lt
  have hcol := h.col_fits (x := x) (by omega)
  have hrow := h.row_inside (y := y) (by omega)
  have hux : u32 ((x : Int) * (8 : Nat)) = x * 8 := u32_cell (by omega)
  have huy : u32 ((y : Int) * (16 : Nat)) = y * 16 := u32_cell (by omega)
  rw [hx, hy] at hpx
  have hcell : px ∈ fbFillRect (x * 8) (y * 16) 8 16 color := by
    rwa [← hux, ← huy]
  exact mem_fillRect_cell (by omega) (by omega) hcell

theorem mem_drawChar_cell {px : Pixel} {cx cy : Nat} {c : BitVec 8} {fg bg : BitVec 32}
    (hx : cx * 8 + 8 < 2 ^ 32) (hy : cy * 16 + 16 < 2 ^ 32)
    (hpx : px ∈ fbDrawChar font (cx * 8) (cy * 16) c fg bg) : px.x / 8 = cx ∧ px.y / 16 = cy := by
  obtain ⟨row, hrow, hpx⟩ := List.mem_flatMap.mp hpx
  obtain ⟨col, hcol, rfl⟩ := List.mem_map.mp hpx
  rw [List.mem_range] at hrow hcol
  dsimp only
  rw [Nat.mod_eq_of_lt (by omega), Nat.mod_eq_of_lt (by omega)]
  omega

/-- A string that stays in its row draws to the cells of that row, the one
behind the string included. -/
theorem touched_row {t : ScreenT} {y : Nat} (hstart : CursorAt fb t t 0 y) {cs : List (BitVec 8)}
    (hprint : ∀ c ∈ cs, Printable c) (hstill : Still font fb t cs)
    (hfits : cs.length < t.console.consoleCols) {a b : Nat} (h : Touched font fb t cs a b) :
    a ≤ cs.length ∧ b = y := by
  obtain ⟨past, c, rest, rfl, px, hpx, rfl, rfl⟩ := h
  rw [List.length_append, List.length_cons] at hfits ⊢
  have hc : Printable c := hprint c (by simp)
  have hnot : ¬ Scrolls font (echo font fb t past).console c := hstill past c rest rfl
  obtain ⟨x, q, hat, hpos, hq⟩ :=
    echo_cursor hstart (fun d hd => hprint d (List.mem_append_left _ hd)) hstill.left
  obtain rfl : q = 0 := by omega
  obtain rfl : x = past.length := by
    rw [Nat.add_zero] at hpos
    omega
  obtain ⟨px', py', hgoes, hbody⟩ := putcharBody_printable font hat.inScreen hc hat.x_eq hat.y_eq
  have hcols := hat.cols
  obtain ⟨rfl, rfl⟩ : px' = past.length ∧ py' = y := by
    rcases hgoes with ⟨-, hpx', hpy'⟩ | ⟨hlast, -⟩
    · exact ⟨hpx', hpy'⟩
    · omega
  have hscroll : (putcharScroll fb (putcharBody font (echo font fb t past).console c).2) =
      ([], (putcharBody font (echo font fb t past).console c).2) := by
    have hlow := hnot
    rw [Scrolls, hbody] at hlow
    rw [putcharScroll, hbody]
    exact if_neg hlow
  rw [consolePutchar, hscroll, List.append_nil, List.mem_append, List.mem_append] at hpx
  rcases hpx with (hpx | hpx) | hpx
  · have hcell := mem_cursor_cell hat.inScreen hat.x_eq hat.y_eq hpx
    omega
  · have hw := fb.width_lt
    have hh := fb.height_lt
    have hcol := hat.inScreen.col_fits (x := past.length) (by omega)
    have hylt := hat.inScreen.y_lt
    have hyeq := hat.y_eq
    have hrow := hat.inScreen.row_inside (y := py') (by omega)
    rw [hbody] at hpx
    have hcell := mem_drawChar_cell (by omega) (by omega) hpx
    omega
  · obtain ⟨hcols', hrows', hx0, hxlt, hy0, hylt⟩ := hat.inScreen
    have hnext : InScreen fb (putcharBody font (echo font fb t past).console c).2 := by
      rw [hbody]
      have hyeq := hat.y_eq
      exact ⟨hcols', hrows', by dsimp only; omega, by dsimp only; omega, by dsimp only; omega,
        by dsimp only; omega⟩
    have hcell := mem_cursor_cell (x := past.length + 1) (y := py') hnext (by rw [hbody]; rfl)
      (by rw [hbody]) hpx
    omega

/-! ## The round trip -/

/-- **Backspace and echo.**  A string of printable characters from the start of
a row on, none of which scrolls, is taken back by as many backspaces exactly
when it is shorter than the row. -/
theorem roundTrip_iff (font : BitVec 8 → Nat → BitVec 8) (fb : Framebuffer) (t : ScreenT)
    (hin : InScreen fb t.console) (hstart : t.console.cursorX = 0) (cs : List (BitVec 8))
    (hprint : ∀ c ∈ cs, Printable c) (hstill : Still font fb t cs) :
    RoundTrip font fb t cs ↔ cs.length ≤ t.console.consoleCols - 1 := by
  obtain ⟨x, y, hx, hy, hxlt, hylt⟩ := hin.exists_cell
  obtain rfl : x = 0 := by omega
  have hat : CursorAt fb t t 0 y := ⟨hin, rfl, rfl, hx, hy⟩
  obtain ⟨x', q, hend, hpos, hq⟩ := echo_cursor hat hprint hstill
  constructor
  · intro h
    obtain ⟨x₁, y₁, hpos₁, hat₁⟩ := erase_cursor font hend cs.length
    have hx₁ : x₁ = 0 := by
      have heq := hat₁.x_eq.symm.trans (h.cursorX.trans hx)
      omega
    have hy₁ : y₁ = y := by
      have heq := hat₁.y_eq.symm.trans (h.cursorY.trans hy)
      omega
    subst hx₁ hy₁
    -- as many cells are left as rows were entered
    obtain rfl : q = 0 := by omega
    have hlt := hend.x_lt
    rw [Nat.add_zero] at hpos
    omega
  · intro hle
    obtain rfl : q = 0 := by omega
    obtain rfl : x' = cs.length := by
      rw [Nat.add_zero] at hpos
      omega
    obtain ⟨hback, hblank⟩ := erase_row font hend cs.length (Nat.le_refl _)
    rw [Nat.sub_self] at hback hblank
    refine ⟨hback.x_eq.trans hx.symm, hback.y_eq.trans hy.symm, fun a b htouched => ?_⟩
    obtain ⟨ha, rfl⟩ := touched_row hat hprint hstill (by omega) htouched
    rw [before, hback.x_eq, hback.y_eq, hback.bg]
    by_cases h0 : a = 0
    · rw [if_pos ⟨by rw [h0], rfl⟩]
    · rw [if_neg (fun hor => h0 (by exact_mod_cast hor.1))]
      exact hblank a (by omega) ha

/-- One letter on a screen of two cells. -/
theorem oneLetter_takenBack :
    RoundTrip letters smallScreen (screenInit smallScreen fun _ => 0) [65] := by
  refine (roundTrip_iff letters smallScreen (screenInit smallScreen fun _ => 0) inScreen_init rfl
    [65] (by decide) ?_).mpr (by decide)
  intro past c rest heq
  cases past with
  | nil =>
    obtain ⟨rfl, -⟩ := List.cons.inj heq
    decide +kernel
  | cons d past => simp at heq

/-- A screen of two rows with three cells each. -/
def twoRows : Framebuffer where
  width := 24
  height := 32
  pitch := 96
  width_ge := by decide
  height_ge := by decide
  pitch_ge := by decide
  width_lt := by decide
  height_lt := by decide

/-- Three letters there: three backspaces end behind the first letter. -/
theorem threeLetters_remain : ¬ ∀ (font : BitVec 8 → Nat → BitVec 8) (fb : Framebuffer) (t : ScreenT),
    InScreen fb t.console → t.console.cursorX = 0 → ∀ cs : List (BitVec 8),
      (∀ c ∈ cs, Printable c) → Still font fb t cs → RoundTrip font fb t cs := by
  intro h
  have hstill : Still letters twoRows (screenInit twoRows fun _ => 0) [65, 66, 65] := by
    intro past c rest heq
    rcases past with _ | ⟨d, _ | ⟨e, _ | ⟨f, past⟩⟩⟩
    · obtain ⟨rfl, -⟩ := List.cons.inj heq
      decide +kernel
    · obtain ⟨rfl, hrest⟩ := List.cons.inj heq
      obtain ⟨rfl, -⟩ := List.cons.inj hrest
      decide +kernel
    · obtain ⟨rfl, hrest⟩ := List.cons.inj heq
      obtain ⟨rfl, hlast⟩ := List.cons.inj hrest
      obtain ⟨rfl, -⟩ := List.cons.inj hlast
      decide +kernel
    · simp at heq
  have hback := (h letters twoRows (screenInit twoRows fun _ => 0) inScreen_init rfl [65, 66, 65]
    (by decide) hstill).cursorX
  exact absurd hback (by decide +kernel)

end FrogKernel.Console
