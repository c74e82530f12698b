import MyMisu.Vga.Bounds

/-!
# The terminal as a window

A page of 80 columns that grows without bound and never scrolls, and what a character does to it.
The terminal shows the last 25 rows of the page down to the one with the cursor, or the first 25:
each character keeps this, and a scroll moves the window down by one row.
-/

namespace MyMisu

/-- Characters by row and column, with the cursor. -/
structure EndlessPage where
  cell : ℕ → ℕ → UInt8
  row : ℕ
  column : ℕ

namespace EndlessPage

def blank : EndlessPage := ⟨fun _ _ => space, 0, 0⟩

def newRow (p : EndlessPage) : EndlessPage := { p with row := p.row + 1, column := 0 }

/-- The character under the cursor replaced. -/
def write (p : EndlessPage) (c : UInt8) : EndlessPage :=
  { p with cell := Function.update p.cell p.row (Function.update (p.cell p.row) p.column c) }

/-- The cursor at a column of the same row, or at the start of the next row if that is too far. -/
def moveTo (p : EndlessPage) (column : ℕ) : EndlessPage :=
  if column < 80 then { p with column := column } else p.newRow

/-- A character: newline, carriage return, tab, backspace or another one. -/
def put (p : EndlessPage) (c : UInt8) : EndlessPage :=
  if c = 10 then p.newRow
  else if c = 13 then { p with column := 0 }
  else if c = 9 then p.moveTo ((p.column / 4 + 1) * 4)
  else if c = 8 then
    if p.column = 0 then p else { p with column := p.column - 1 }.write space
  else (p.write c).moveTo (p.column + 1)

end EndlessPage

namespace Terminal

/-- The character shown at a place of the screen. -/
def charAt (t : Terminal) (y x : ℕ) : UInt8 := (t.terminalBuffer.cell (y * vgaWidth + x)).toUInt8

end Terminal

/-- The screen shows the 25 rows of the page that end in the row of its cursor, or the first 25 if
the cursor is in one of them, and both cursors are at the same place. -/
structure WindowOn (t : Terminal) (p : EndlessPage) : Prop where
  cells : ∀ y < 25, ∀ x < 80, t.charAt y x = p.cell (p.row - 24 + y) x
  row : t.terminalRow = p.row - (p.row - 24)
  column : t.terminalColumn = p.column
  cursor : t.cursor = t.terminalRow * 80 + t.terminalColumn

/-! ## Characters on the screen -/

theorem vgaEntry_char (c color : UInt8) : (vgaEntry c color).toUInt8 = c := by
  apply UInt8.toNat_inj.mp
  unfold vgaEntry
  rw [UInt16.toNat_toUInt8, UInt16.toNat_or, Nat.or_mod_two_pow, UInt8.toNat_toUInt16,
    UInt16.toNat_shiftLeft]
  have hc := c.toNat_lt
  -- the colour is in the high byte
  have hcolor : color.toUInt16.toNat <<< (UInt16.toNat 8 % 16) % 2 ^ 16 % 2 ^ 8 = 0 := by
    have hshift : UInt16.toNat 8 % 16 = 8 := rfl
    rw [hshift, Nat.shiftLeft_eq]
    omega
  rw [hcolor, Nat.or_zero, Nat.mod_eq_of_lt hc]

variable {t : Terminal} {p : EndlessPage} {top : ℕ}

theorem charAt_store {y x y₀ x₀ : ℕ} (hx : x < 80) (hx₀ : x₀ < 80) (c color : UInt8) :
    (t.store (y₀ * vgaWidth + x₀) (vgaEntry c color)).charAt y x =
      if y = y₀ ∧ x = x₀ then c else t.charAt y x := by
  unfold Terminal.charAt
  show (Function.update t.terminalBuffer.cell (y₀ * vgaWidth + x₀) (vgaEntry c color)
    (y * vgaWidth + x)).toUInt8 = _
  by_cases hsame : y = y₀ ∧ x = x₀
  · rw [hsame.1, hsame.2, Function.update_self, vgaEntry_char, if_pos ⟨rfl, rfl⟩]
  · have hne : y * vgaWidth + x ≠ y₀ * vgaWidth + x₀ := by
      simp only [vgaWidth]
      omega
    rw [Function.update_of_ne hne, if_neg hsame]

theorem charAt_blankScreen {y x : ℕ} (hy : y < 25) (hx : x < 80) :
    (blankScreen t).charAt y x = space := by
  have hin : y * vgaWidth + x < vgaHeight * vgaWidth := by
    simp only [vgaWidth, vgaHeight]
    omega
  unfold Terminal.charAt blankScreen
  rw [CellArray.cell_fillRows, if_pos hin, vgaEntry_char]

/-- A scroll shows each row one place higher and a blank one at the bottom. -/
theorem charAt_scroll {y x : ℕ} (hx : x < 80) :
    (terminalScroll t).charAt y x =
      if y = 24 then space else if y < 24 then t.charAt (y + 1) x else t.charAt y x := by
  unfold Terminal.charAt terminalScroll
  rw [CellArray.cell_fill, CellArray.cell_rowsUp]
  have hend : (vgaHeight - 1) * vgaWidth = 1920 := rfl
  have hwidth : vgaWidth = 80 := rfl
  have hrow : y * vgaWidth = y * 80 := rfl
  by_cases hlast : y = 24
  · rw [if_pos (by omega), if_pos hlast, vgaEntry_char]
  · rw [if_neg (by omega), if_neg hlast]
    by_cases hy : y < 24
    · rw [if_pos (by omega), if_pos hy, Nat.add_right_comm, ← Nat.succ_mul]
    · rw [if_neg (by omega), if_neg hy]

/-! ## The simulation -/

/-- Row `top` of the page is the first one on the screen.  The cursor may have gone one row below
the screen. -/
structure Shows (t : Terminal) (p : EndlessPage) (top : ℕ) : Prop where
  row : p.row = top + t.terminalRow
  column : t.terminalColumn = p.column
  columnLt : p.column < 80
  cells : ∀ y < 25, ∀ x < 80, t.charAt y x = p.cell (top + y) x
  below : ∀ y, top + 25 ≤ y → ∀ x, p.cell y x = space
  lowest : top = 0 ∨ 24 ≤ t.terminalRow
  unpaged : t.pagerEnabled = false

namespace Shows

theorem windowOn (h : Shows t p top) (hrow : t.terminalRow < 25)
    (hcursor : t.cursor = t.terminalRow * 80 + t.terminalColumn) : WindowOn t p := by
  have htop : p.row - 24 = top := by
    have hr := h.row
    have hl := h.lowest
    omega
  constructor
  · rw [htop]
    exact h.cells
  · have hr := h.row
    omega
  · exact h.column
  · exact hcursor

theorem blanked (hrow : t.terminalRow = 0) (hcol : t.terminalColumn = 0)
    (hoff : t.pagerEnabled = false) : Shows (blankScreen t) .blank 0 where
  row := by
    show 0 = 0 + t.terminalRow
    omega
  column := hcol
  columnLt := by decide
  cells _ hy _ hx := charAt_blankScreen hy hx
  below _ _ _ := rfl
  lowest := .inl rfl
  unpaged := hoff

theorem updateCursor (h : Shows t p top) (x y : ℕ) : Shows (terminalUpdateCursor t x y) p top :=
  ⟨h.row, h.column, h.columnLt, h.cells, h.below, h.lowest, h.unpaged⟩

theorem newRow (h : Shows t p top) (hrow : t.terminalRow < 25) :
    Shows t.newRow p.newRow top where
  row := by
    show p.row + 1 = top + (t.terminalRow + 1)
    rw [h.row, Nat.add_assoc]
  column := rfl
  columnLt := show 0 < 80 by decide
  cells := h.cells
  below := h.below
  lowest := by
    have hl := h.lowest
    show top = 0 ∨ 24 ≤ t.terminalRow + 1
    omega
  unpaged := h.unpaged

theorem moveTo (h : Shows t p top) (hrow : t.terminalRow < 25) (column : ℕ) :
    Shows (if column ≥ vgaWidth then t.newRow else { t with terminalColumn := column })
      (p.moveTo column) top := by
  unfold EndlessPage.moveTo
  by_cases hcol : column < 80
  · rw [if_neg (by simp only [vgaWidth]; omega), if_pos hcol]
    exact ⟨h.row, rfl, hcol, h.cells, h.below, h.lowest, h.unpaged⟩
  · rw [if_pos (by simp only [vgaWidth]; omega), if_neg hcol]
    exact h.newRow hrow

theorem write (h : Shows t p top) (hrow : t.terminalRow < 25) (c : UInt8) :
    Shows (t.store t.index (vgaEntry c t.terminalColor)) (p.write c) top where
  row := h.row
  column := h.column
  columnLt := h.columnLt
  cells y hy x hx := by
    have hcol := h.columnLt
    rw [← h.column] at hcol
    rw [Terminal.index, charAt_store hx hcol, h.cells y hy x hx, h.column]
    show _ = Function.update p.cell p.row (Function.update (p.cell p.row) p.column c) (top + y) x
    by_cases hy' : y = t.terminalRow
    · have hsame : top + y = p.row := by rw [h.row, hy']
      rw [hsame, Function.update_self]
      by_cases hx' : x = p.column
      · rw [hx', Function.update_self, if_pos ⟨hy', rfl⟩]
      · rw [Function.update_of_ne hx', if_neg fun hboth => hx' hboth.2]
    · have hother : top + y ≠ p.row := by
        rw [h.row]
        omega
      rw [Function.update_of_ne hother, if_neg fun hboth => hy' hboth.1]
  below y hy x := by
    have hother : y ≠ p.row := by
      rw [h.row]
      omega
    show Function.update p.cell p.row _ y x = space
    rw [Function.update_of_ne hother]
    exact h.below y hy x
  lowest := h.lowest
  unpaged := h.unpaged

theorem putOther (h : Shows t p top) (hrow : t.terminalRow < 25) {c : UInt8} (hc : c ≠ 10) :
    Shows (putOther t c) (p.put c) top := by
  unfold MyMisu.putOther EndlessPage.put
  rw [if_neg hc]
  by_cases hcr : c = 13
  · rw [if_pos hcr, if_pos hcr]
    exact ⟨h.row, rfl, show 0 < 80 by decide, h.cells, h.below, h.lowest, h.unpaged⟩
  rw [if_neg hcr, if_neg hcr]
  by_cases htab : c = 9
  · rw [if_pos htab, if_pos htab, h.column, nextTab_eq h.columnLt, ← Nat.succ_mul]
    exact h.moveTo hrow _
  rw [if_neg htab, if_neg htab]
  by_cases hback : c = 8
  · rw [if_pos hback, if_pos hback]
    by_cases hpos : t.terminalColumn > 0
    · have hleft : Shows { t with terminalColumn := t.terminalColumn - 1 }
          { p with column := p.column - 1 } top := by
        have hcol := h.columnLt
        refine ⟨h.row, ?_, ?_, h.cells, h.below, h.lowest, h.unpaged⟩
        · show t.terminalColumn - 1 = p.column - 1
          rw [h.column]
        · show p.column - 1 < 80
          omega
      rw [if_pos hpos, if_neg (by rw [← h.column]; omega)]
      exact hleft.write hrow space
    · rw [if_neg hpos, if_pos (by rw [← h.column]; omega)]
      exact h
  rw [if_neg hback, if_neg hback, ← h.column]
  exact (h.write hrow c).moveTo hrow (t.terminalColumn + 1)

/-- The repair: the window moves down when the cursor has left it. -/
theorem scrollIntoView (h : Shows t p top) (hrow : t.terminalRow ≤ 25) :
    ∃ top', Shows (scrollIntoView t) p top' ∧ (MyMisu.scrollIntoView t).terminalRow < 25 := by
  unfold MyMisu.scrollIntoView
  by_cases hlow : t.terminalRow ≥ vgaHeight
  · simp only [vgaHeight] at hlow
    have h25 : t.terminalRow = 25 := le_antisymm hrow hlow
    rw [if_pos (by simp only [vgaHeight]; omega)]
    refine ⟨top + 1, ⟨?_, h.column, h.columnLt, ?_, ?_, .inr ?_, h.unpaged⟩, ?_⟩
    · show p.row = top + 1 + 24
      rw [h.row, h25]
    · intro y hy x hx
      show (terminalScroll t).charAt y x = p.cell (top + 1 + y) x
      rw [charAt_scroll hx]
      by_cases hlast : y = 24
      -- the row below the old window is blank
      · rw [if_pos hlast, hlast]
        exact (h.below (top + 1 + 24) (by omega) x).symm
      · rw [if_neg hlast, if_pos (by omega), h.cells (y + 1) (by omega) x hx, Nat.add_assoc,
          Nat.add_comm 1 y]
    · intro y hy x
      exact h.below y (by omega) x
    · show 24 ≤ 24
      rfl
    · show 24 < 25
      decide
  · simp only [vgaHeight] at hlow
    rw [if_neg (by simp only [vgaHeight]; omega)]
    exact ⟨top, h, by omega⟩

theorem finish (h : Shows t p top) (hrow : t.terminalRow ≤ 25) :
    ∃ top', Shows (finishPutchar t) p top' ∧ (finishPutchar t).terminalRow < 25 ∧
      (finishPutchar t).cursor =
        (finishPutchar t).terminalRow * 80 + (finishPutchar t).terminalColumn := by
  have ⟨top', hshows, hlt⟩ := h.scrollIntoView hrow
  refine ⟨top', hshows.updateCursor _ _, hlt, ?_⟩
  have hcol := hshows.columnLt
  rw [← hshows.column] at hcol
  show ((MyMisu.scrollIntoView t).terminalRow * vgaWidth + (MyMisu.scrollIntoView t).terminalColumn) %
    2 ^ 16 = _
  have hpos := vgaRow_lt hlt hcol
  exact Nat.mod_eq_of_lt (by omega)

end Shows

/-- What a call keeps: the window, with the cursor on the screen. -/
structure Simulates (t : Terminal) (p : EndlessPage) : Prop where
  shows : ∃ top, Shows t p top
  row : t.terminalRow < 25
  cursor : t.cursor = t.terminalRow * 80 + t.terminalColumn

namespace Simulates

theorem start (hrow : t.terminalRow = 0) (hcol : t.terminalColumn = 0)
    (hoff : t.pagerEnabled = false) :
    Simulates (terminalUpdateCursor (blankScreen t) 0 0) .blank where
  shows := ⟨0, (Shows.blanked hrow hcol hoff).updateCursor 0 0⟩
  row := by
    show t.terminalRow < 25
    omega
  cursor := by
    show 0 = t.terminalRow * 80 + t.terminalColumn
    omega

theorem putchar (h : Simulates t p) (c key : UInt8) :
    Simulates (terminalPutchar t c key) (p.put c) := by
  have ⟨top, hshows⟩ := h.shows
  unfold terminalPutchar
  by_cases hnl : c = 10
  · have hnew := hshows.newRow h.row
    have hput : p.put c = p.newRow := if_pos hnl
    have hoff : t.newRow.pagerEnabled = false := hnew.unpaged
    rw [if_pos hnl, hput, putNewline]
    simp only [hoff, Bool.false_eq_true, if_false]
    have ⟨top', hs, hr, hc⟩ := hnew.finish h.row
    exact ⟨⟨top', hs⟩, hr, hc⟩
  · have hbounds := hshows.putOther h.row hnl
    have hle : (MyMisu.putOther t c).terminalRow ≤ 25 := by
      have hrow := hbounds.row
      have hold := hshows.row
      have hput : (p.put c).row ≤ p.row + 1 := by
        unfold EndlessPage.put EndlessPage.moveTo EndlessPage.newRow EndlessPage.write
        split_ifs <;> simp
      have hlt := h.row
      omega
    rw [if_neg hnl]
    have ⟨top', hs, hr, hc⟩ := hbounds.finish hle
    exact ⟨⟨top', hs⟩, hr, hc⟩

theorem run (h : Simulates t p) (calls : List (UInt8 × UInt8)) :
    Simulates (calls.foldl (fun t call => terminalPutchar t call.1 call.2) t)
      (calls.foldl (fun p call => p.put call.1) p) := by
  induction calls generalizing t p with
  | nil => exact h
  | cons call calls ih => exact ih (h.putchar call.1 call.2)

end Simulates

/-- After any sequence of characters written to a cleared screen with the pager off, the terminal is
the window on the page the same characters make. -/
theorem terminal_is_window (t s : Terminal) (hoff : t.pagerEnabled = false)
    (hs : s = terminalInitialize t ∨ s = terminalClear t) (calls : List (UInt8 × UInt8)) :
    WindowOn (calls.foldl (fun t call => terminalPutchar t call.1 call.2) s)
      (calls.foldl (fun p call => p.put call.1) .blank) := by
  have hstart : Simulates s .blank := by
    rcases hs with rfl | rfl
    · exact .start rfl rfl hoff
    · exact .start rfl rfl hoff
  have hrun := hstart.run calls
  have ⟨top, hshows⟩ := hrun.shows
  exact hshows.windowOn hrun.row hrun.cursor

theorem terminal_is_window_scrolled :
    WindowOn ((List.replicate 30 ((10 : UInt8), (0 : UInt8))).foldl
        (fun t call => terminalPutchar t call.1 call.2) (terminalInitialize .zero))
      ((List.replicate 30 ((10 : UInt8), (0 : UInt8))).foldl (fun p call => p.put call.1) .blank) :=
  terminal_is_window .zero (terminalInitialize .zero) rfl (.inl rfl) _

end MyMisu
