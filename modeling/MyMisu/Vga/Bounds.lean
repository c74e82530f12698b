import MyMisu.Vga.Terminal

/-!
# Terminal bounds

Inside a call the row may reach the height of the screen; the repair behind the branches, and the
one before the pager prompt, bring it back.  The column is wrapped in the branch that moves it.
-/

namespace MyMisu

/-- The cursor is on the screen and no store went outside of it. -/
structure TermBounds (t : Terminal) : Prop where
  row : t.terminalRow < 25
  column : t.terminalColumn < 80
  stored : ∀ i ∈ t.terminalBuffer.stored, i < 2000

/-- The bounds before the repair of the row. -/
structure NearBounds (t : Terminal) : Prop where
  row : t.terminalRow ≤ 25
  column : t.terminalColumn < 80
  stored : ∀ i ∈ t.terminalBuffer.stored, i < 2000

variable {t : Terminal}

theorem vgaRow_lt {y x : ℕ} (hy : y < 25) (hx : x < 80) : y * vgaWidth + x < 2000 := by
  simp only [vgaWidth]
  omega

/-- Whatever is stored on the screen stays on it through an operation that stores there. -/
theorem stored_lt {a b : CellArray UInt16} (ha : ∀ i ∈ a.stored, i < 2000)
    (h : ∀ i ∈ b.stored, i ∈ a.stored ∨ i < 2000) : ∀ i ∈ b.stored, i < 2000 := by
  intro i hi
  rcases h i hi with hold | hnew
  · exact ha i hold
  · exact hnew

theorem stored_fill_row {a : CellArray UInt16} (ha : ∀ i ∈ a.stored, i < 2000) {b n : ℕ}
    (hend : b + n ≤ 2000) (v : ℕ → UInt16) : ∀ i ∈ (a.fill b n v).stored, i < 2000 := by
  apply stored_lt ha
  intro i hi
  rcases CellArray.stored_fill v hi with hold | hnew
  · exact .inl hold
  · exact .inr (by omega)

theorem stored_scroll (h : ∀ i ∈ t.terminalBuffer.stored, i < 2000) :
    ∀ i ∈ (terminalScroll t).terminalBuffer.stored, i < 2000 := by
  have hup : ∀ i ∈ (t.terminalBuffer.rowsUp vgaWidth (vgaHeight - 1)).stored, i < 2000 := by
    apply stored_lt h
    intro i hi
    rcases CellArray.stored_rowsUp hi with hold | hnew
    · exact .inl hold
    · simp only [vgaWidth, vgaHeight] at hnew
      exact .inr (by omega)
  exact stored_fill_row hup (by decide) _

theorem stored_blankScreen (h : ∀ i ∈ t.terminalBuffer.stored, i < 2000) :
    ∀ i ∈ (blankScreen t).terminalBuffer.stored, i < 2000 := by
  apply stored_lt h
  intro i hi
  rcases CellArray.stored_fillRows hi with hold | hnew
  · exact .inl hold
  · simp only [vgaWidth, vgaHeight] at hnew
    exact .inr (by omega)

/-- The screen blanked and the cursor at its start. -/
theorem blanked_bounds (hrow : t.terminalRow = 0) (hcol : t.terminalColumn = 0)
    (h : ∀ i ∈ t.terminalBuffer.stored, i < 2000) :
    TermBounds (terminalUpdateCursor (blankScreen t) 0 0) := by
  constructor
  · show t.terminalRow < 25
    omega
  · show t.terminalColumn < 80
    omega
  · rw [terminalUpdateCursor_buffer]
    exact stored_blankScreen h

theorem TermBounds.near (h : TermBounds t) : NearBounds t :=
  ⟨le_of_lt h.row, h.column, h.stored⟩

theorem NearBounds.scrollIntoView (h : NearBounds t) : TermBounds (scrollIntoView t) := by
  unfold MyMisu.scrollIntoView
  split
  · exact ⟨show 24 < 25 by decide, h.column, stored_scroll h.stored⟩
  · next hrow =>
    simp only [vgaHeight] at hrow
    exact ⟨by omega, h.column, h.stored⟩

theorem NearBounds.finish (h : NearBounds t) : TermBounds (finishPutchar t) := by
  have hview := h.scrollIntoView
  exact ⟨hview.row, hview.column, hview.stored⟩

theorem TermBounds.newRow (h : TermBounds t) : NearBounds t.newRow :=
  ⟨h.row, show 0 < 80 by decide, h.stored⟩

/-- The prompt is shorter than the row it is written to. -/
theorem NearBounds.pagerPrompt (h : NearBounds t) (hcol : t.terminalColumn = 0) :
    TermBounds (pagerPrompt t) := by
  have hnear : NearBounds { t with terminalColor := vgaEntryColor vgaBlack vgaLightGrey } :=
    ⟨h.row, h.column, h.stored⟩
  have hview := hnear.scrollIntoView
  have hzero : (MyMisu.scrollIntoView
      { t with terminalColor := vgaEntryColor vgaBlack vgaLightGrey }).terminalColumn = 0 := by
    unfold MyMisu.scrollIntoView
    split <;> exact hcol
  unfold MyMisu.pagerPrompt
  simp only
  generalize MyMisu.scrollIntoView
    { t with terminalColor := vgaEntryColor vgaBlack vgaLightGrey } = u at hview hzero
  have hlen : strlen pagerMsg.bytes = 41 := by decide
  have hrow := hview.row
  refine ⟨hrow, show 0 < 80 by decide, ?_⟩
  apply stored_fill_row
  · apply stored_fill_row hview.stored
    unfold Terminal.index
    rw [hzero, hlen]
    simp only [vgaWidth]
    omega
  · simp only [vgaWidth]
    omega

theorem TermBounds.putNewline (h : TermBounds t) (key : UInt8) : TermBounds (putNewline t key) := by
  have hnew := h.newRow
  unfold MyMisu.putNewline
  simp only
  split
  · have hcount : NearBounds { t.newRow with pagerLines := t.newRow.pagerLines + 1 } :=
      ⟨hnew.row, hnew.column, hnew.stored⟩
    split
    · have hprompt := hcount.pagerPrompt rfl
      split
      -- the early return, with the row already back on the screen
      · exact ⟨hprompt.row, hprompt.column, hprompt.stored⟩
      · exact hprompt.near.finish
    · exact hcount.finish
  · exact hnew.finish

theorem nextTab_eq {n : ℕ} (h : n < 80) : nextTab n = n / 4 * 4 + 4 := by
  have hall : ∀ m < 80, nextTab m = m / 4 * 4 + 4 := by decide
  exact hall n h

theorem TermBounds.store (h : TermBounds t) (v : UInt16) :
    TermBounds (t.store t.index v) := by
  refine ⟨h.row, h.column, ?_⟩
  intro i hi
  rcases List.mem_cons.mp hi with heq | hold
  · rw [heq]
    exact vgaRow_lt h.row h.column
  · exact h.stored i hold

/-- A column moved on is wrapped at the edge. -/
theorem NearBounds.wrap (hrow : t.terminalRow < 25) (hstored : ∀ i ∈ t.terminalBuffer.stored, i < 2000) :
    NearBounds (if t.terminalColumn ≥ vgaWidth then t.newRow else t) := by
  split
  · exact ⟨hrow, show 0 < 80 by decide, hstored⟩
  · next hcol =>
    simp only [vgaWidth] at hcol
    exact ⟨le_of_lt hrow, by omega, hstored⟩

theorem TermBounds.putOther (h : TermBounds t) (c : UInt8) : NearBounds (putOther t c) := by
  unfold MyMisu.putOther
  split_ifs with hcr htab hback hpos
  · exact ⟨le_of_lt h.row, show 0 < 80 by decide, h.stored⟩
  · exact .wrap (t := { t with terminalColumn := nextTab t.terminalColumn }) h.row h.stored
  · have hleft : TermBounds { t with terminalColumn := t.terminalColumn - 1 } :=
      ⟨h.row, lt_of_le_of_lt (Nat.sub_le _ _) h.column, h.stored⟩
    exact (hleft.store _).near
  · exact h.near
  · have hstore := h.store (vgaEntry c t.terminalColor)
    exact .wrap (t := { t.store t.index (vgaEntry c t.terminalColor) with
      terminalColumn := t.terminalColumn + 1 }) h.row hstore.stored

theorem TermBounds.putchar (h : TermBounds t) (c key : UInt8) : TermBounds (terminalPutchar t c key) := by
  unfold terminalPutchar
  split
  · exact h.putNewline key
  · exact (h.putOther c).finish

theorem TermBounds.write (h : TermBounds t) (data : List UInt8) (keys : ℕ → UInt8) :
    TermBounds (terminalWrite t data keys) := by
  unfold terminalWrite
  generalize data.zipIdx = cks
  induction cks generalizing t with
  | nil => exact h
  | cons ck cks ih => exact ih (h.putchar ck.1 (keys ck.2))

theorem TermBounds.exec (h : TermBounds t) (op : TermOp) : TermBounds (termExec t op) := by
  cases op with
  | putchar c key => exact h.putchar c key
  | putcharColor c color key =>
    have hcolor : TermBounds { t with terminalColor := color } := ⟨h.row, h.column, h.stored⟩
    have hput := hcolor.putchar c key
    exact ⟨hput.row, hput.column, hput.stored⟩
  | write data keys => exact h.write data keys
  | writestring str keys => exact h.write str.bytes keys
  | clear => exact blanked_bounds rfl rfl h.stored
  | setcolor color => exact ⟨h.row, h.column, h.stored⟩
  | enablePager => exact ⟨h.row, h.column, h.stored⟩
  | disablePager => exact ⟨h.row, h.column, h.stored⟩

theorem termInitialize_bounds (h : t.terminalBuffer.stored = []) : TermBounds (terminalInitialize t) := by
  apply blanked_bounds rfl rfl
  intro i hi
  change i ∈ t.terminalBuffer.stored at hi
  rw [h] at hi
  cases hi

theorem TermBounds.reach (h : termSystem.Reachable t) : TermBounds t := by
  refine h.invariant ?_ ?_
  · rintro t ⟨t₀, hstored, rfl⟩
    exact termInitialize_bounds hstored
  · intro t op t' _ hbounds _ hstep
    rw [hstep]
    exact hbounds.exec op

/-- After every call of a run the cursor is on the screen, and all stores of the run were to cells
of the screen, whatever is written and whichever keys answer the pager. -/
theorem terminal_bounds (t : Terminal) (h : termSystem.Reachable t) : TermBounds t := .reach h

/-- The static variables before `terminal_initialize`. -/
def Terminal.zero : Terminal where
  terminalRow := 0
  terminalColumn := 0
  terminalColor := 0
  terminalBuffer := ⟨fun _ => 0, []⟩
  pagerEnabled := false
  pagerLines := 0
  cursor := 0

theorem terminal_bounds_paged :
    TermBounds (termExec (termExec (terminalInitialize .zero) .enablePager)
      (.write (List.replicate 30 10) fun _ => 113)) :=
  terminal_bounds _ (.next (.next (.init ⟨.zero, rfl, rfl⟩) rfl) rfl)

end MyMisu
