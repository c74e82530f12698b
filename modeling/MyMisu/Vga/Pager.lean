import MyMisu.Vga.Page

/-!
# The pager

A prompt comes with every 23rd newline, but rows also end at the last column.  A terminal with the pager
on is watched here: what a row holds when the cursor leaves it, how many rows have scrolled off, and what
the screen shows while a prompt waits.  A row is shown in full as long as one of the 24 row ends from its
own on is a newline with a prompt.
-/

namespace MyMisu

/-- The screen while the prompt waits for a key: `pagerPrompt` before it blanks the row again. -/
def pagerScreen (t : Terminal) : Terminal :=
  let t := scrollIntoView { t with terminalColor := vgaEntryColor vgaBlack vgaLightGrey }
  { t with
    terminalBuffer := t.terminalBuffer.fill t.index (strlen pagerMsg.bytes) fun i =>
      vgaEntry (pagerMsg.bytes.getD i 0) t.terminalColor }

namespace Terminal

/-- The cursor moved and the character written, before the repair of the row. -/
def moved (t : Terminal) (c : UInt8) : Terminal := if c = 10 then t.newRow else putOther t c

/-- How many rows the repair scrolls off. -/
def scrolled (t : Terminal) : ℕ := if t.terminalRow ≥ vgaHeight then 1 else 0

/-- The screen at the prompt of a call, if it shows one. -/
def promptScreen (t : Terminal) (c : UInt8) : Option Terminal :=
  if c = 10 ∧ t.pagerEnabled ∧ t.pagerLines + 1 ≥ vgaHeight - 2 then
    some (pagerScreen { t.newRow with pagerLines := t.pagerLines + 1 })
  else none

end Terminal

/-! ## Watching the terminal -/

/-- A prompt: the screen, and how many rows have scrolled off it. -/
structure PagerPrompt where
  screen : Terminal
  top : ℕ

/-- A terminal with the number of rows that have scrolled off, what each row held when the cursor left
it, and the prompts.  Rows are counted from the first one on the screen at the beginning. -/
structure WatchedTerminal where
  term : Terminal
  top : ℕ
  rows : ℕ → ℕ → UInt8
  prompts : List PagerPrompt

namespace WatchedTerminal

/-- The pager is switched on. -/
def start (t : Terminal) : WatchedTerminal := ⟨terminalEnablePager t, 0, fun _ _ => space, []⟩

def put (w : WatchedTerminal) (c key : UInt8) : WatchedTerminal :=
  let moved := w.term.moved c
  { term := terminalPutchar w.term c key
    top := w.top + moved.scrolled
    rows :=
      if moved.terminalRow = w.term.terminalRow + 1 then
        Function.update w.rows (w.top + w.term.terminalRow) (moved.charAt w.term.terminalRow)
      else w.rows
    prompts := w.prompts ++ (w.term.promptScreen c).toList.map fun screen =>
      ⟨screen, w.top + moved.scrolled⟩ }

/-- Calls of `terminal_putchar`, each with the key pressed if it shows the prompt. -/
def run (w : WatchedTerminal) (calls : List (UInt8 × UInt8)) : WatchedTerminal :=
  calls.foldl (fun w call => w.put call.1 call.2) w

theorem run_term (w : WatchedTerminal) (calls : List (UInt8 × UInt8)) :
    (w.run calls).term = calls.foldl (fun t call => terminalPutchar t call.1 call.2) w.term := by
  unfold run
  induction calls generalizing w with
  | nil => rfl
  | cons call calls ih => exact ih (w.put call.1 call.2)

end WatchedTerminal

/-! ## Where rows end -/

/-- A text laid out on 80 columns: the column, the newlines so far, and for each row that has ended
whether the pager shows a prompt there. -/
structure TextLayout where
  column : ℕ
  newlines : ℕ
  ends : List Bool

namespace TextLayout

/-- To a column of the same row, or to the next row if that is too far. -/
def moveTo (l : TextLayout) (column : ℕ) : TextLayout :=
  if column < 80 then { l with column := column } else { l with column := 0, ends := l.ends ++ [false] }

/-- A character; the newlines with a prompt are every 23rd. -/
def put (l : TextLayout) (c : UInt8) : TextLayout :=
  if c = 10 then ⟨0, l.newlines + 1, l.ends ++ [decide (23 ∣ l.newlines + 1)]⟩
  else if c = 13 then { l with column := 0 }
  else if c = 9 then l.moveTo ((l.column / 4 + 1) * 4)
  else if c = 8 then { l with column := l.column - 1 }
  else l.moveTo (l.column + 1)

end TextLayout

section Call

variable {t : Terminal} {l : TextLayout}

/-- What a call does before the repair.  The cursor stays in its row, or it ends the row and is at the
start of the next one; the rows above are not touched. -/
structure MovesTo (t : Terminal) (l : TextLayout) (t' : Terminal) (l' : TextLayout) : Prop where
  column : t'.terminalColumn = l'.column
  columnLt : l'.column < 80
  enabled : t'.pagerEnabled = t.pagerEnabled
  lines : t'.pagerLines = t.pagerLines
  above : ∀ y < t.terminalRow, ∀ x < 80, t'.charAt y x = t.charAt y x
  row : (t'.terminalRow = t.terminalRow ∧ l'.ends = l.ends) ∨
    t'.terminalRow = t.terminalRow + 1 ∧ ∃ b, l'.ends = l.ends ++ [b]

theorem moved_moveTo {t' : Terminal} (hcol : t'.terminalRow = t.terminalRow)
    (habove : ∀ y < t.terminalRow, ∀ x < 80, t'.charAt y x = t.charAt y x)
    (henabled : t'.pagerEnabled = t.pagerEnabled) (hlines : t'.pagerLines = t.pagerLines) (column : ℕ) :
    MovesTo t l (if column ≥ vgaWidth then t'.newRow else { t' with terminalColumn := column })
      (l.moveTo column) := by
  unfold TextLayout.moveTo
  by_cases hlt : column < 80
  · rw [if_neg (by simp only [vgaWidth]; omega), if_pos hlt]
    exact ⟨rfl, hlt, henabled, hlines, habove, .inl ⟨hcol, rfl⟩⟩
  · rw [if_pos (by simp only [vgaWidth]; omega), if_neg hlt]
    exact ⟨rfl, show 0 < 80 by decide, henabled, hlines, habove, .inr ⟨congrArg (· + 1) hcol, false, rfl⟩⟩

theorem charAt_store_above {y x : ℕ} (hy : y < t.terminalRow) (hx : x < 80) (hcol : t.terminalColumn < 80)
    (c color : UInt8) : (t.store t.index (vgaEntry c color)).charAt y x = t.charAt y x := by
  rw [Terminal.index, charAt_store hx hcol, if_neg (by omega)]

theorem moved_spec (hcol : t.terminalColumn = l.column) (hlt : l.column < 80) (c : UInt8) :
    MovesTo t l (t.moved c) (l.put c) := by
  unfold Terminal.moved TextLayout.put
  by_cases hnl : c = 10
  · rw [if_pos hnl, if_pos hnl]
    exact ⟨rfl, show 0 < 80 by decide, rfl, rfl, fun _ _ _ _ => rfl, .inr ⟨rfl, _, rfl⟩⟩
  rw [if_neg hnl, if_neg hnl]
  unfold putOther
  by_cases hcr : c = 13
  · rw [if_pos hcr, if_pos hcr]
    exact ⟨rfl, show 0 < 80 by decide, rfl, rfl, fun _ _ _ _ => rfl, .inl ⟨rfl, rfl⟩⟩
  rw [if_neg hcr, if_neg hcr]
  by_cases htab : c = 9
  · rw [if_pos htab, if_pos htab, hcol, nextTab_eq hlt, ← Nat.succ_mul]
    exact moved_moveTo rfl (fun _ _ _ _ => rfl) rfl rfl _
  rw [if_neg htab, if_neg htab]
  by_cases hback : c = 8
  · rw [if_pos hback, if_pos hback]
    have hleft : t.terminalColumn - 1 = l.column - 1 := by rw [hcol]
    have hleftLt : l.column - 1 < 80 := by omega
    split_ifs with hpos
    · -- the cell that is blanked is in the row of the cursor
      refine ⟨hleft, hleftLt, rfl, rfl, fun y hy x hx => ?_, .inl ⟨rfl, rfl⟩⟩
      exact @charAt_store_above { t with terminalColumn := t.terminalColumn - 1 } y x hy hx
        (show t.terminalColumn - 1 < 80 by omega) space _
    · have hzero : t.terminalColumn = l.column - 1 := by omega
      exact ⟨hzero, hleftLt, rfl, rfl, fun _ _ _ _ => rfl, .inl ⟨rfl, rfl⟩⟩
  rw [if_neg hback, if_neg hback, ← hcol]
  exact @moved_moveTo t l (t.store t.index (vgaEntry c t.terminalColor)) rfl
    (fun y hy x hx => charAt_store_above hy hx (by omega) c _) rfl rfl _

/-- A terminal after the repair: the cursor is on the screen, and the rows above it have moved up as far. -/
structure Repaired (m t : Terminal) : Prop where
  row : t.terminalRow + m.scrolled = m.terminalRow
  rowLt : t.terminalRow < 25
  cells : ∀ y < t.terminalRow, ∀ x < 80, t.charAt y x = m.charAt (y + m.scrolled) x

theorem repaired_scrollIntoView {m : Terminal} (hrow : m.terminalRow ≤ 25) : Repaired m (scrollIntoView m) := by
  unfold scrollIntoView
  have hheight : vgaHeight = 25 := rfl
  by_cases hlow : m.terminalRow ≥ vgaHeight
  · have hscrolled : m.scrolled = 1 := if_pos hlow
    rw [if_pos hlow]
    refine ⟨?_, show 24 < 25 by decide, fun y hy x hx => ?_⟩
    · rw [hscrolled]
      show 24 + 1 = m.terminalRow
      omega
    · have hy24 : y < 24 := hy
      have hscroll := @charAt_scroll m y x hx
      rw [if_neg (by omega), if_pos hy24] at hscroll
      rw [hscrolled]
      exact hscroll
  · have hscrolled : m.scrolled = 0 := if_neg hlow
    rw [if_neg hlow]
    exact ⟨by rw [hscrolled]; rfl, by omega, fun y hy x hx => by rw [hscrolled]; rfl⟩

/-- Cells from the row of the cursor on may be filled with anything. -/
theorem Repaired.fill {m : Terminal} (h : Repaired m t) {b n : ℕ} (hb : t.terminalRow * 80 ≤ b)
    (v : ℕ → UInt16) : Repaired m { t with terminalBuffer := t.terminalBuffer.fill b n v } := by
  refine ⟨h.row, h.rowLt, fun y hy x hx => ?_⟩
  rw [← h.cells y hy x hx]
  have hy' : y < t.terminalRow := hy
  have hbefore : y * vgaWidth + x < b := by
    simp only [vgaWidth]
    omega
  show ((t.terminalBuffer.fill b n v).cell (y * vgaWidth + x)).toUInt8 = _
  rw [CellArray.cell_fill, if_neg (by omega)]
  rfl

/-- The hardware cursor, colours and the pager's variables do not matter. -/
theorem Repaired.of_eq {m t' : Terminal} (h : Repaired m t) (hrow : t'.terminalRow = t.terminalRow)
    (hbuffer : t'.terminalBuffer = t.terminalBuffer) : Repaired m t' := by
  have hchar : t'.charAt = t.charAt := by
    unfold Terminal.charAt
    rw [hbuffer]
  refine ⟨hrow ▸ h.row, hrow ▸ h.rowLt, ?_⟩
  rw [hrow, hchar]
  exact h.cells

theorem repaired_pagerScreen {m : Terminal} (hrow : m.terminalRow ≤ 25) : Repaired m (pagerScreen m) := by
  have hview := @repaired_scrollIntoView { m with terminalColor := vgaEntryColor vgaBlack vgaLightGrey } hrow
  have hview' : Repaired m (scrollIntoView { m with terminalColor := vgaEntryColor vgaBlack vgaLightGrey }) :=
    ⟨hview.row, hview.rowLt, hview.cells⟩
  exact hview'.fill (Nat.le_add_right _ _) _

theorem repaired_pagerPrompt {m : Terminal} (hrow : m.terminalRow ≤ 25) : Repaired m (pagerPrompt m) :=
  ((repaired_pagerScreen hrow).fill le_rfl fun _ => vgaEntry space m.terminalColor).of_eq rfl rfl

/-- Once the cursor is on the screen, another repair does nothing. -/
theorem Repaired.trans {m t' : Terminal} (h : Repaired m t) (h' : Repaired t t') : Repaired m t' := by
  have hnone : t.scrolled = 0 := if_neg (Nat.not_le_of_lt h.rowLt)
  have hrow : t'.terminalRow = t.terminalRow := by
    have hr := h'.row
    omega
  refine ⟨hrow ▸ h.row, h'.rowLt, fun y hy x hx => ?_⟩
  rw [h'.cells y hy x hx, hnone, Nat.add_zero, h.cells y (hrow ▸ hy) x hx]

/-- What the branches have in common. -/
theorem finish_spec {m : Terminal} (hrow : m.terminalRow ≤ 25) :
    Repaired m (finishPutchar m) ∧ (finishPutchar m).terminalColumn = m.terminalColumn ∧
      (finishPutchar m).pagerEnabled = m.pagerEnabled ∧ (finishPutchar m).pagerLines = m.pagerLines := by
  refine ⟨(repaired_scrollIntoView hrow).of_eq rfl rfl, ?_⟩
  show (scrollIntoView m).terminalColumn = _ ∧ (scrollIntoView m).pagerEnabled = _ ∧
    (scrollIntoView m).pagerLines = _
  unfold scrollIntoView
  split_ifs
  · exact ⟨rfl, rfl, rfl⟩
  · exact ⟨rfl, rfl, rfl⟩

/-- A call with a key that does not stop the pager. -/
structure PutcharSpec (t : Terminal) (c : UInt8) (t' : Terminal) : Prop where
  repaired : Repaired (t.moved c) t'
  column : t'.terminalColumn = (t.moved c).terminalColumn
  enabled : t'.pagerEnabled = true
  lines : t'.pagerLines = if c = 10 then (t.pagerLines + 1) % 23 else t.pagerLines

theorem pagerPrompt_enabled (t : Terminal) : (pagerPrompt t).pagerEnabled = t.pagerEnabled := by
  unfold pagerPrompt scrollIntoView
  split_ifs <;> rfl

theorem putNewline_spec (hrow : t.terminalRow < 25) (henabled : t.pagerEnabled = true)
    (hlines : t.pagerLines < 23) {key : UInt8} (hkey : key ≠ 113 ∧ key ≠ 81) :
    PutcharSpec t 10 (putNewline t key) := by
  have hlimit : vgaHeight - 2 = 23 := rfl
  have hmoved : t.moved 10 = t.newRow := if_pos rfl
  let m : Terminal := { t.newRow with pagerLines := t.pagerLines + 1 }
  have hput : putNewline t key =
      if t.pagerLines + 1 ≥ vgaHeight - 2 then
        if key = 113 ∨ key = 81 then { pagerPrompt m with pagerEnabled := false }
        else finishPutchar (pagerPrompt m)
      else finishPutchar m := if_pos henabled
  rw [hput]
  by_cases hprompt : t.pagerLines + 1 ≥ vgaHeight - 2
  · rw [if_pos hprompt, if_neg (by simp [hkey])]
    have hpaged : Repaired m (pagerPrompt m) := repaired_pagerPrompt hrow
    obtain ⟨hrepaired, hcolumn, hon, hcount⟩ := finish_spec hpaged.rowLt.le
    -- the prompt has scrolled, so the repair at the end of the call does not
    have hboth := hpaged.trans hrepaired
    refine ⟨?_, ?_, hon.trans ((pagerPrompt_enabled m).trans henabled), ?_⟩
    · rw [hmoved]
      exact ⟨hboth.row, hboth.rowLt, hboth.cells⟩
    · rw [hmoved, hcolumn]
      rfl
    · rw [hcount, if_pos rfl, show t.pagerLines + 1 = 23 by omega]
      rfl
  · rw [if_neg hprompt]
    obtain ⟨hrepaired, hcolumn, hon, hcount⟩ := @finish_spec m hrow
    refine ⟨?_, ?_, hon.trans henabled, ?_⟩
    · rw [hmoved]
      exact ⟨hrepaired.row, hrepaired.rowLt, hrepaired.cells⟩
    · rw [hmoved, hcolumn]
    · rw [hcount, if_pos rfl, Nat.mod_eq_of_lt (by omega)]

theorem putchar_spec (hcol : t.terminalColumn = l.column) (hlt : l.column < 80) (hrow : t.terminalRow < 25)
    (henabled : t.pagerEnabled = true) (hlines : t.pagerLines < 23) (c : UInt8) {key : UInt8}
    (hkey : key ≠ 113 ∧ key ≠ 81) : PutcharSpec t c (terminalPutchar t c key) := by
  unfold terminalPutchar
  by_cases hnl : c = 10
  · rw [if_pos hnl, hnl]
    exact putNewline_spec hrow henabled hlines hkey
  · have hmoves := moved_spec hcol hlt c
    have hmoved : t.moved c = putOther t c := if_neg hnl
    have hle : (t.moved c).terminalRow ≤ 25 := by
      rcases hmoves.row with h | h <;> omega
    obtain ⟨hrepaired, hcolumn, hon, hcount⟩ := finish_spec hle
    rw [if_neg hnl, ← hmoved]
    refine ⟨hrepaired, hcolumn, hon.trans (hmoves.enabled.trans henabled), ?_⟩
    rw [hcount, hmoves.lines, if_neg hnl]

theorem newlines_put (l : TextLayout) (c : UInt8) :
    (l.put c).newlines = if c = 10 then l.newlines + 1 else l.newlines := by
  unfold TextLayout.put TextLayout.moveTo
  split_ifs <;> rfl

/-- The call shows a prompt just when the row end says so. -/
theorem promptScreen_of_ends (henabled : t.pagerEnabled = true) (hlines : t.pagerLines = l.newlines % 23)
    (hrow : t.terminalRow < 25) {c : UInt8} {b : Bool} (hends : (l.put c).ends = l.ends ++ [b]) :
    (b = true ∧ ∃ screen, t.promptScreen c = some screen ∧ Repaired (t.moved c) screen) ∨
      b = false ∧ t.promptScreen c = none := by
  have hlimit : vgaHeight - 2 = 23 := rfl
  unfold Terminal.promptScreen
  by_cases hnl : c = 10
  · have hb : decide (23 ∣ l.newlines + 1) = b := by
      rw [TextLayout.put, if_pos hnl] at hends
      simpa using hends
    rw [← hb, decide_eq_true_eq, decide_eq_false_iff_not]
    by_cases hprompt : 23 ∣ l.newlines + 1
    · have hmoved : t.moved c = t.newRow := if_pos hnl
      have hscreen := @repaired_pagerScreen { t.newRow with pagerLines := t.pagerLines + 1 } hrow
      refine .inl ⟨hprompt, _, if_pos ⟨hnl, henabled, by omega⟩, ?_⟩
      rw [hmoved]
      exact ⟨hscreen.row, hscreen.rowLt, hscreen.cells⟩
    · exact .inr ⟨hprompt, if_neg fun h => hprompt (by omega)⟩
  · -- a row that ends in another way
    refine .inr ⟨?_, if_neg fun h => hnl h.1⟩
    unfold TextLayout.put TextLayout.moveTo at hends
    rw [if_neg hnl] at hends
    split_ifs at hends <;> simp_all

theorem promptScreen_of_ends_eq {c : UInt8} (hends : (l.put c).ends = l.ends) : t.promptScreen c = none := by
  unfold Terminal.promptScreen
  by_cases hnl : c = 10
  · rw [TextLayout.put, if_pos hnl] at hends
    simp at hends
  · exact if_neg fun h => hnl h.1

end Call

/-! ## A run -/

/-- The prompt at the row end with the given index, as far as rows go. -/
structure PromptAt (first k : ℕ) (q : PagerPrompt) : Prop where
  top : q.top = first + k + 1 - 24
  row : q.top + q.screen.terminalRow = first + k + 1

/-- The watched terminal and the text it has been given. -/
structure Follows (first : ℕ) (w : WatchedTerminal) (l : TextLayout) : Prop where
  column : w.term.terminalColumn = l.column
  columnLt : l.column < 80
  enabled : w.term.pagerEnabled = true
  lines : w.term.pagerLines = l.newlines % 23
  rowLt : w.term.terminalRow < 25
  row : w.top + w.term.terminalRow = first + l.ends.length
  top : w.top = first + l.ends.length - 24
  onScreen : ∀ r, first ≤ r → w.top ≤ r → r < first + l.ends.length →
    ∀ x < 80, w.term.charAt (r - w.top) x = w.rows r x
  shown : ∀ k, l.ends[k]? = some true → ∃ q ∈ w.prompts, PromptAt first k q ∧
    ∀ r, first ≤ r → q.top ≤ r → r ≤ first + k → ∀ x < 80, q.screen.charAt (r - q.top) x = w.rows r x
  only : ∀ q ∈ w.prompts, ∃ k, l.ends[k]? = some true ∧ PromptAt first k q

namespace Follows

variable {first : ℕ} {w : WatchedTerminal} {l : TextLayout}

theorem start {t : Terminal} (hrow : t.terminalRow < 25) (hcol : t.terminalColumn < 80) :
    Follows t.terminalRow (.start t) ⟨t.terminalColumn, 0, []⟩ where
  column := rfl
  columnLt := hcol
  enabled := rfl
  lines := rfl
  rowLt := hrow
  row := Nat.zero_add _
  top := by
    show 0 = t.terminalRow + 0 - 24
    omega
  onScreen r hfirst _ hlt := by
    rw [List.length_nil, Nat.add_zero] at hlt
    omega
  shown k hk := by simp at hk
  only q hq := by simp [WatchedTerminal.start] at hq

theorem lines_lt (h : Follows first w l) : w.term.pagerLines < 23 := by
  rw [h.lines]
  exact Nat.mod_lt _ (by decide)

/-- What does not depend on whether the row ends. -/
theorem putchar_spec (h : Follows first w l) (c : UInt8) {key : UInt8} (hkey : key ≠ 113 ∧ key ≠ 81) :
    PutcharSpec w.term c (w.put c key).term :=
  MyMisu.putchar_spec h.column h.columnLt h.rowLt h.enabled h.lines_lt c hkey

theorem lines_put (h : Follows first w l) (c : UInt8) {key : UInt8} (hkey : key ≠ 113 ∧ key ≠ 81) :
    (w.put c key).term.pagerLines = (l.put c).newlines % 23 := by
  rw [(h.putchar_spec c hkey).lines, newlines_put, h.lines]
  split_ifs
  · rw [Nat.mod_add_mod]
  · rfl

/-- A call that leaves the cursor in its row. -/
theorem put_same (h : Follows first w l) {c key : UInt8} (hkey : key ≠ 113 ∧ key ≠ 81)
    (hrow : (w.term.moved c).terminalRow = w.term.terminalRow) (hends : (l.put c).ends = l.ends) :
    Follows first (w.put c key) (l.put c) := by
  have hspec := h.putchar_spec c hkey
  have hmoves := moved_spec h.column h.columnLt c
  have hlt := h.rowLt
  have hnone : (w.term.moved c).scrolled = 0 := if_neg (by rw [hrow]; exact Nat.not_le_of_lt hlt)
  have hrepaired := hspec.repaired.row
  have htop : (w.put c key).top = w.top := congrArg (w.top + ·) hnone
  have hrows : (w.put c key).rows = w.rows := if_neg (by omega)
  have hprompts : (w.put c key).prompts = w.prompts := by
    unfold WatchedTerminal.put
    simp [promptScreen_of_ends_eq hends]
  have hold := h.row
  refine ⟨hspec.column.trans hmoves.column, hmoves.columnLt, hspec.enabled, h.lines_put c hkey,
    hspec.repaired.rowLt, ?_, ?_, ?_, ?_, ?_⟩
  · rw [htop, hends]
    omega
  · rw [htop, hends, h.top]
  · intro r hfirst hle hr x hx
    rw [htop] at hle
    rw [hends] at hr
    rw [htop, hrows, hspec.repaired.cells (r - w.top) (by omega) x hx, hnone, Nat.add_zero,
      hmoves.above (r - w.top) (by omega) x hx]
    exact h.onScreen r hfirst hle hr x hx
  · rw [hends, hprompts, hrows]
    exact h.shown
  · rw [hends, hprompts]
    exact h.only

/-- When a call ends the row, the rows above the cursor are on any screen that the repair leaves. -/
theorem shown_next (h : Follows first w l) {c key : UInt8}
    (hrow : (w.term.moved c).terminalRow = w.term.terminalRow + 1) {t' : Terminal}
    (hrepaired : Repaired (w.term.moved c) t') {r : ℕ} (hfirst : first ≤ r) (hle : (w.put c key).top ≤ r)
    (hr : r ≤ first + l.ends.length) {x : ℕ} (hx : x < 80) :
    t'.charAt (r - (w.put c key).top) x = (w.put c key).rows r x := by
  have hmoves := moved_spec h.column h.columnLt c
  have hold := h.row
  have hnew := hrepaired.row
  have htop : (w.put c key).top = w.top + (w.term.moved c).scrolled := rfl
  have hrows : (w.put c key).rows = Function.update w.rows (w.top + w.term.terminalRow)
      ((w.term.moved c).charAt w.term.terminalRow) := if_pos hrow
  rw [hrepaired.cells _ (by omega) x hx, hrows, htop,
    show r - (w.top + (w.term.moved c).scrolled) + (w.term.moved c).scrolled = r - w.top by omega]
  by_cases hlast : r = w.top + w.term.terminalRow
  · rw [hlast, Function.update_self, Nat.add_sub_cancel_left]
  · rw [Function.update_of_ne hlast, hmoves.above (r - w.top) (by omega) x hx]
    exact h.onScreen r hfirst (by omega) (by omega) x hx

theorem rows_put_of_lt (h : Follows first w l) (c key : UInt8) {r : ℕ} (hr : r < first + l.ends.length) :
    (w.put c key).rows r = w.rows r := by
  have hold := h.row
  unfold WatchedTerminal.put
  simp only
  split_ifs
  · exact Function.update_of_ne (by omega) _ _
  · rfl

theorem top_put_next (h : Follows first w l) {c : UInt8} (key : UInt8)
    (hrow : (w.term.moved c).terminalRow = w.term.terminalRow + 1) :
    (w.put c key).top = first + (l.ends.length + 1) - 24 := by
  have hlt := h.rowLt
  have hold := h.row
  have holdTop := h.top
  have htop : (w.put c key).top = w.top + (w.term.moved c).scrolled := rfl
  have hscrolled : (w.term.moved c).scrolled = if w.term.terminalRow = 24 then 1 else 0 := by
    have hheight : vgaHeight = 25 := rfl
    refine if_congr ?_ rfl rfl
    rw [hrow, hheight]
    omega
  rw [htop, hscrolled]
  split_ifs <;> omega

/-- A prompt of a call that ends the row stands below it. -/
theorem promptAt_next (h : Follows first w l) {c : UInt8} (key : UInt8)
    (hrow : (w.term.moved c).terminalRow = w.term.terminalRow + 1) {screen : Terminal}
    (hrepaired : Repaired (w.term.moved c) screen) :
    PromptAt first l.ends.length ⟨screen, (w.put c key).top⟩ where
  top := h.top_put_next key hrow
  row := by
    have hold := h.row
    have hnew := hrepaired.row
    show w.top + (w.term.moved c).scrolled + screen.terminalRow = _
    omega

theorem getElem?_concat_iff (ends : List Bool) (b : Bool) (k : ℕ) :
    (ends ++ [b])[k]? = some true ↔ ends[k]? = some true ∨ k = ends.length ∧ b = true := by
  rw [List.getElem?_append]
  split_ifs with hk
  · exact ⟨.inl, fun h => h.resolve_right fun hlast => by omega⟩
  · rw [List.getElem?_singleton, List.getElem?_eq_none (by omega)]
    by_cases hlast : k = ends.length
    · simp [hlast]
    · simp [hlast, show k - ends.length ≠ 0 by omega]

/-- A call that ends the row. -/
theorem put_next (h : Follows first w l) {c key : UInt8} (hkey : key ≠ 113 ∧ key ≠ 81) {b : Bool}
    (hrow : (w.term.moved c).terminalRow = w.term.terminalRow + 1)
    (hends : (l.put c).ends = l.ends ++ [b]) : Follows first (w.put c key) (l.put c) := by
  have hspec := h.putchar_spec c hkey
  have hmoves := moved_spec h.column h.columnLt c
  have hold := h.row
  have hnew := hspec.repaired.row
  have hlen : (l.put c).ends.length = l.ends.length + 1 := by rw [hends, List.length_append]; rfl
  have htop : (w.put c key).top = w.top + (w.term.moved c).scrolled := rfl
  have hprompts : (w.put c key).prompts = w.prompts ++ (w.term.promptScreen c).toList.map fun screen =>
      ⟨screen, (w.put c key).top⟩ := rfl
  have hprompt := promptScreen_of_ends h.enabled h.lines h.rowLt hends
  refine ⟨hspec.column.trans hmoves.column, hmoves.columnLt, hspec.enabled, h.lines_put c hkey,
    hspec.repaired.rowLt, ?_, ?_, ?_, ?_, ?_⟩
  · rw [hlen, htop]
    omega
  · rw [hlen, h.top_put_next key hrow]
  · intro r hfirst hle hr x hx
    exact h.shown_next hrow hspec.repaired hfirst hle (by omega) hx
  · intro k hk
    rw [hends, getElem?_concat_iff] at hk
    rcases hk with hk | ⟨rfl, rfl⟩
    · -- an earlier prompt, and rows that were left before it
      obtain ⟨q, hq, hat, hshown⟩ := h.shown k hk
      obtain ⟨hlt, -⟩ := List.getElem?_eq_some_iff.mp hk
      refine ⟨q, List.mem_append_left _ hq, hat, fun r hfirst hle hr x hx => ?_⟩
      rw [h.rows_put_of_lt c key (by omega)]
      exact hshown r hfirst hle hr x hx
    · rcases hprompt with ⟨-, screen, hscreen, hrepaired⟩ | ⟨hb, -⟩
      · have hmem : ⟨screen, (w.put c key).top⟩ ∈ (w.put c key).prompts := by
          rw [hprompts, hscreen]
          simp
        exact ⟨_, hmem, h.promptAt_next key hrow hrepaired, fun r hfirst hle hr x hx =>
          h.shown_next hrow hrepaired hfirst hle hr hx⟩
      · cases hb
  · intro q hq
    rw [hprompts] at hq
    simp only [hends, getElem?_concat_iff]
    rcases List.mem_append.mp hq with hq | hq
    · obtain ⟨k, hk, hat⟩ := h.only q hq
      exact ⟨k, .inl hk, hat⟩
    · rcases hprompt with ⟨rfl, screen, hscreen, hrepaired⟩ | ⟨-, hnone⟩
      · rw [hscreen] at hq
        obtain rfl := List.mem_singleton.mp hq
        exact ⟨l.ends.length, .inr ⟨rfl, rfl⟩, h.promptAt_next key hrow hrepaired⟩
      · rw [hnone] at hq
        cases hq

theorem put (h : Follows first w l) (c : UInt8) {key : UInt8} (hkey : key ≠ 113 ∧ key ≠ 81) :
    Follows first (w.put c key) (l.put c) := by
  rcases (moved_spec h.column h.columnLt c).row with ⟨hrow, hends⟩ | ⟨hrow, b, hends⟩
  · exact h.put_same hkey hrow hends
  · exact h.put_next hkey hrow hends

theorem run (h : Follows first w l) {calls : List (UInt8 × UInt8)}
    (hkeys : ∀ call ∈ calls, call.2 ≠ 113 ∧ call.2 ≠ 81) :
    Follows first (w.run calls) ((calls.map Prod.fst).foldl TextLayout.put l) := by
  unfold WatchedTerminal.run
  induction calls generalizing w l with
  | nil => exact h
  | cons call calls ih =>
    obtain ⟨hkey, hrest⟩ := List.forall_mem_cons.mp hkeys
    exact ih (h.put call.1 hkey) hrest

end Follows

end MyMisu
