import MyMisu.Lib.Paging
import MyMisu.Shell.Reader

/-!
# The way back through a file

The pages that the reader shows begin where its rows are multiples of eighteen, and those that it goes
back to begin where the newlines are.  The two differ behind the first line that takes more rows than
one.
-/

namespace MyMisu

/-! ## Rows and lines -/

theorem Pen.advance_cases (p : Pen) (c : UInt8) :
    p.advance c = { p with col := p.col + 1 } ∧ c ≠ 10 ∨ p.advance c = ⟨p.row + 1, 4, p.lc + 1⟩ := by
  unfold Pen.advance
  split_ifs with hline hwrap
  · exact .inr rfl
  · exact .inr rfl
  · exact .inl ⟨rfl, hline⟩

theorem Pen.advance_wrap (p : Pen) {c : UInt8} (hc : c ≠ 10) (hcol : 74 ≤ p.col) :
    p.advance c = ⟨p.row + 1, 4, p.lc + 1⟩ := by
  rw [advance, if_neg hc, if_pos (by omega)]

theorem Pen.advance_right (p : Pen) {c : UInt8} (hc : c ≠ 10) (hcol : p.col < 74) :
    p.advance c = { p with col := p.col + 1 } := by
  rw [advance, if_neg hc, if_neg (by omega)]

/-- Two pens in the same column stay there, and fill as many rows. -/
theorem Pen.foldl_advance (text : List UInt8) {p q : Pen} (hcol : p.col = q.col) :
    (text.foldl Pen.advance p).col = (text.foldl Pen.advance q).col ∧
      (text.foldl Pen.advance p).lc + q.lc = (text.foldl Pen.advance q).lc + p.lc := by
  induction text generalizing p q with
  | nil => exact ⟨hcol, Nat.add_comm _ _⟩
  | cons c text ih =>
    have hstep : (p.advance c).col = (q.advance c).col ∧
        (p.advance c).lc + q.lc = (q.advance c).lc + p.lc := by
      unfold Pen.advance
      rw [hcol]
      split_ifs <;> simp only [true_and] <;> omega
    have hrest := ih hstep.1
    rw [List.foldl_cons, List.foldl_cons]
    exact ⟨hrest.1, by omega⟩

/-- The pen behind a text. -/
def pen (text : List UInt8) : Pen := text.foldl Pen.advance .start

theorem pen_snoc (text : List UInt8) (c : UInt8) : pen (text ++ [c]) = (pen text).advance c := by
  rw [pen, List.foldl_append]
  rfl

theorem pen_append {t : List UInt8} (ht : (pen t).col = 4) (u : List UInt8) :
    (pen (t ++ u)).col = (pen u).col ∧ (pen (t ++ u)).lc = (pen t).lc + (pen u).lc := by
  have h := Pen.foldl_advance u (show (pen t).col = Pen.start.col from ht)
  have hzero : Pen.start.lc = 0 := rfl
  rw [hzero] at h
  unfold pen at h ⊢
  rw [List.foldl_append]
  exact ⟨h.1, by omega⟩

/-- The rows that the reader fills. -/
def rowCounter : LineCounter UInt8 where
  count t := (pen t).lc
  Closed t := (pen t).col = 4
  count_nil := rfl
  closed_nil := rfl
  count_append ht u := (pen_append ht u).2
  closed_append ht hu := (pen_append ht _).1.trans hu
  count_snoc t c := by
    rw [pen_snoc]
    rcases (pen t).advance_cases c with ⟨h, -⟩ | h
    · exact .inl (by rw [h])
    · exact .inr (by rw [h]; exact ⟨rfl, rfl⟩)

/-- The lines that the way back counts. -/
def newlineCounter : LineCounter UInt8 where
  count t := t.count 10
  Closed _ := True
  count_nil := rfl
  closed_nil := trivial
  count_append _ u := List.count_append
  closed_append _ _ := trivial
  count_snoc t c := by
    rw [List.count_append, List.count_singleton]
    split_ifs
    · exact .inr ⟨rfl, trivial⟩
    · exact .inl rfl

theorem layout_fst (rest seen : List UInt8) :
    (layout (pen seen) rest).1 = rowCounter.fill 18 seen rest := by
  induction rest generalizing seen with
  | nil => rfl
  | cons c rest ih =>
    have hcount : rowCounter.count seen = (pen seen).lc := rfl
    rw [layout, LineCounter.fill, hcount, ← ih, pen_snoc]
    by_cases hroom : (pen seen).lc < 18
    · rw [if_pos hroom, if_pos hroom]
    · rw [if_neg hroom, if_neg hroom]

theorem skipLines_eq (rest seen : List UInt8) :
    skipLines (seen.count 10) rest = newlineCounter.fill 18 seen rest := by
  induction rest generalizing seen with
  | nil => rfl
  | cons c rest ih =>
    have hcount : (if c = 10 then seen.count 10 + 1 else seen.count 10) = (seen ++ [c]).count 10 := by
      rw [List.count_append, List.count_singleton]
      by_cases hc : c = 10
      · rw [if_pos hc, if_pos (by rw [hc]; rfl)]
      · rw [if_neg hc, if_neg (by simpa using hc), Nat.add_zero]
    rw [skipLines, LineCounter.fill, ← ih, hcount]
    rfl

/-- The pages the way forward shows begin where the rows are multiples of 18. -/
theorem isBreak_forward (ct : List UInt8) (n : ℕ) :
    rowCounter.IsBreak (n * 18) ct ((nextPage ct)^[n] 0) :=
  LineCounter.isBreak_iterate (fun off => by
    show rowCounter.IsBreak 18 _ (layout (pen []) (ct.drop off)).1
    rw [layout_fst]
    exact LineCounter.isBreak_fill (by decide) _) n

theorem isBreak_recount (ct : List UInt8) (n : ℕ) :
    newlineCounter.IsBreak (n * 18) ct (recount ct n) :=
  LineCounter.isBreak_iterate (fun off => by
    show newlineCounter.IsBreak 18 _ (skipLines (([] : List UInt8).count 10) (ct.drop off))
    rw [skipLines_eq]
    exact LineCounter.isBreak_fill (by decide) _) n

/-! ## Long lines -/

/-- The rows that a text fills when `k` characters stand in front of it in its first line. -/
def rowsFrom : ℕ → List UInt8 → ℕ
  | k, [] => k / 71
  | k, c :: text => if c = 10 then k / 71 + 1 + rowsFrom 0 text else rowsFrom (k + 1) text

def rows (text : List UInt8) : ℕ := rowsFrom 0 text

/-- The first 71 characters of a line behind the text `before`. -/
structure LongLine (before line : List UInt8) : Prop where
  start : before = [] ∨ ∃ text, before = text ++ [10]
  one : 10 ∉ line
  long : line.length = 71

/-- Every line of 71 characters or more begins on the last page that is shown or on the one before,
eighteen rows a page. -/
def LongLinesLast (text : List UInt8) : Prop :=
  ∀ before line after, text = before ++ line ++ after → LongLine before line →
    rows text.dropLast / 18 ≤ rows before / 18 + 1

theorem rowsFrom_wrap (text : List UInt8) (k : ℕ) : rowsFrom (k + 71) text = rowsFrom k text + 1 := by
  induction text generalizing k with
  | nil =>
    unfold rowsFrom
    omega
  | cons c text ih =>
    unfold rowsFrom
    rw [show k + 71 + 1 = k + 1 + 71 by omega, ih]
    split_ifs <;> omega

theorem lc_foldl (text : List UInt8) {p : Pen} {k : ℕ} (hcol : p.col = 4 + k) (hk : k < 71) :
    (text.foldl Pen.advance p).lc = p.lc + rowsFrom k text := by
  induction text generalizing p k with
  | nil =>
    rw [rowsFrom, Nat.div_eq_of_lt hk]
    rfl
  | cons c text ih =>
    rw [List.foldl_cons, rowsFrom]
    by_cases hline : c = 10
    · have hstep : p.advance c = ⟨p.row + 1, 4, p.lc + 1⟩ := if_pos hline
      rw [hstep, if_pos hline, @ih ⟨p.row + 1, 4, p.lc + 1⟩ 0 rfl (by decide), Nat.div_eq_of_lt hk]
      show p.lc + 1 + _ = _
      omega
    rw [if_neg hline]
    by_cases hwrap : 74 ≤ p.col
    · have hk' : k + 1 = 0 + 71 := by omega
      rw [p.advance_wrap hline hwrap, @ih ⟨p.row + 1, 4, p.lc + 1⟩ 0 rfl (by decide), hk', rowsFrom_wrap]
      show p.lc + 1 + _ = _
      omega
    · rw [p.advance_right hline (by omega)]
      exact @ih { p with col := p.col + 1 } (k + 1) (by show p.col + 1 = _; omega) (by omega)

theorem lc_pen (text : List UInt8) : (pen text).lc = rows text := by
  rw [pen, @lc_foldl text _ 0 rfl (by decide)]
  exact Nat.zero_add _

theorem rowsFrom_line {line : List UInt8} (hline : 10 ∉ line) (k : ℕ) :
    rowsFrom k line = (k + line.length) / 71 := by
  induction line generalizing k with
  | nil => rfl
  | cons c line ih =>
    rw [List.mem_cons, not_or] at hline
    rw [rowsFrom, if_neg (Ne.symm hline.1), ih hline.2, List.length_cons, Nat.add_right_comm, Nat.add_assoc]

namespace LongLine

variable {before line : List UInt8}

theorem col (h : LongLine before line) : (pen before).col = 4 := by
  rcases h.start with rfl | ⟨text, rfl⟩
  · rfl
  · rw [pen_snoc]
    rfl

/-- A long line fills a row that the way back does not count. -/
theorem rows_append (h : LongLine before line) : rows (before ++ line) = rows before + 1 := by
  have hline : rows line = 1 := by rw [rows, rowsFrom_line h.one, h.long]
  rw [← lc_pen, (pen_append h.col line).2, lc_pen, lc_pen, hline]

theorem count_append (h : LongLine before line) : (before ++ line).count 10 = before.count 10 := by
  rw [List.count_append, List.count_eq_zero.mpr h.one, Nat.add_zero]

end LongLine

/-- What is counted of a text and not of the beginning of it. -/
theorem count_le_rows (t u : List UInt8) : (t ++ u).count 10 + rows t ≤ rows (t ++ u) + t.count 10 := by
  induction u using List.reverseRecOn with
  | nil => rw [List.append_nil, Nat.add_comm]
  | append_singleton u c ih =>
    rw [← lc_pen, ← lc_pen] at ih ⊢
    rw [← List.append_assoc, pen_snoc, List.count_append, List.count_singleton]
    rcases (pen (t ++ u)).advance_cases c with ⟨h, hc⟩ | h
    · rw [h, if_neg (by simpa using hc)]
      exact ih
    · rw [h]
      show _ ≤ (pen (t ++ u)).lc + 1 + _
      split_ifs <;> omega

/-- Rows that are no lines come from a long line. -/
theorem long_line_cases (text : List UInt8) :
    (∃ before line after, text = before ++ line ++ after ∧ LongLine before line) ∨
      rows text = text.count 10 := by
  have hcases : (∃ before line after, text = before ++ line ++ after ∧ LongLine before line) ∨
      (pen text).lc = text.count 10 ∧ ∃ before line, text = before ++ line ∧
        (before = [] ∨ ∃ t, before = t ++ [10]) ∧ 10 ∉ line ∧ line.length < 71 ∧
        (pen text).col = 4 + line.length := by
    induction text using List.reverseRecOn with
    | nil => exact .inr ⟨rfl, [], [], rfl, .inl rfl, List.not_mem_nil, by decide, rfl⟩
    | append_singleton text c ih =>
      rcases ih with ⟨before, line, after, rfl, h⟩ | ⟨hlc, before, line, rfl, hstart, hone, hshort, hcol⟩
      · exact .inl ⟨before, line, after ++ [c], by rw [List.append_assoc _ after], h⟩
      rw [pen_snoc, List.count_append, List.count_singleton]
      by_cases hline : c = 10
      · have hstep : (pen (before ++ line)).advance c = ⟨_, 4, _⟩ := if_pos hline
        rw [hstep, if_pos (by rw [hline]; rfl), hlc]
        exact .inr ⟨rfl, before ++ line ++ [c], [], (List.append_nil _).symm, .inr ⟨_, by rw [hline]⟩,
          List.not_mem_nil, by decide, rfl⟩
      have hone' : 10 ∉ line ++ [c] := by
        rw [List.mem_append, List.mem_singleton, not_or]
        exact ⟨hone, Ne.symm hline⟩
      have hlength : (line ++ [c]).length = line.length + 1 := by simp
      -- the character fills the row, which makes the line a long one
      by_cases hwrap : 74 ≤ (pen (before ++ line)).col
      · exact .inl ⟨before, line ++ [c], [], by simp, hstart, hone', by omega⟩
      · rw [Pen.advance_right _ hline (by omega), if_neg (by simpa using hline), hcol]
        exact .inr ⟨hlc, before, line ++ [c], by simp, hstart, hone', by omega, by rw [hlength]; rfl⟩
  rcases hcases with h | h
  · exact .inl h
  · exact .inr ((lc_pen text).symm.trans h.1)

theorem count_newline_le_rows (t : List UInt8) : t.count 10 ≤ rows t := by
  have h := count_le_rows [] t
  rwa [List.nil_append, List.count_nil, show rows [] = 0 from rfl] at h

/-- Behind a long line there are more rows than lines. -/
theorem lines_lt_rows {ct before line after : List UInt8} (htext : ct = before ++ line ++ after)
    (hlong : LongLine before line) {i : ℕ} (hi : rows before < rows (ct.take i)) :
    (ct.take i).count 10 < rows (ct.take i) := by
  subst htext
  have hbefore := count_newline_le_rows before
  have hwrap := hlong.rows_append
  have hnowrap := hlong.count_append
  rcases Nat.le_total (before ++ line).length i with hle | hle
  · have hdiff := count_le_rows (before ++ line) (after.take (i - (before ++ line).length))
    rw [List.take_append, List.take_of_length_le hle]
    omega
  · have hsub := (List.take_sublist i (before ++ line)).count_le 10
    rw [List.take_append_of_le_length hle] at hi ⊢
    omega

/-! ## Where the pages begin -/

section Breaks

variable {ct : List UInt8} {m i : ℕ}

theorem rows_take (h : rowCounter.IsBreak m ct i) (hi : i < ct.length) : rows (ct.take i) = m :=
  (lc_pen _).symm.trans (h.reached hi).1

/-- A page is shown if the text without its last byte fills the rows in front of it. -/
theorem shown_iff (h : rowCounter.IsBreak m ct i) (hne : ct ≠ []) :
    i < ct.length ↔ m ≤ rows ct.dropLast := by
  have hpos := List.length_pos_iff.mpr hne
  have hle := h.le_iff (show ct.length - 1 < ct.length by omega)
  have hcount : rowCounter.count (ct.take (ct.length - 1)) = rows ct.dropLast := by
    rw [List.dropLast_eq_take]
    exact lc_pen _
  rw [← hcount, ← hle]
  omega

/-- The lines in front of a page are as many as its rows unless one of them is long. -/
theorem newline_break (h : rowCounter.IsBreak m ct i) (heq : rows (ct.take i) = (ct.take i).count 10) :
    newlineCounter.IsBreak m ct i where
  le := h.le
  before j hj := by
    have hrows : rows (ct.take j) < m := (lc_pen _).symm.trans_lt (h.before j hj)
    exact (count_newline_le_rows _).trans_lt hrows
  reached hi := ⟨heq.symm.trans (rows_take h hi), trivial⟩

end Breaks

/-- Both ways find the same pages exactly when a long line comes late. -/
theorem pages_agree_iff {ct : List UInt8} (hne : ct ≠ []) : PagesAgree ct ↔ LongLinesLast ct := by
  have hforward := isBreak_forward ct
  constructor
  · intro hagree before line after htext hlong
    by_contra hearly
    -- the page behind the one where the long line begins
    obtain ⟨n, hn⟩ : ∃ n, n = rows before / 18 + 1 := ⟨_, rfl⟩
    have hnext := (shown_iff (hforward (n + 1)) hne).mpr (by omega)
    have hshown := (shown_iff (hforward n) hne).mpr (by omega)
    have hrows := rows_take (hforward n) hshown
    have hlines : (ct.take ((nextPage ct)^[n] 0)).count 10 = n * 18 := by
      have hback := isBreak_recount ct n
      rw [hagree n hnext] at hback
      exact (hback.reached hshown).1
    have hbehind : rows before < rows (ct.take ((nextPage ct)^[n] 0)) := by omega
    -- but the way back has found as many lines as rows
    have hfewer := lines_lt_rows htext hlong hbehind
    omega
  · intro hlate n hnext
    have hlast := (shown_iff (hforward (n + 1)) hne).mp hnext
    have hshown := (shown_iff (hforward n) hne).mpr (by omega)
    have hrows := rows_take (hforward n) hshown
    -- a long line in front of this page would begin two pages before the last
    rcases long_line_cases (ct.take ((nextPage ct)^[n] 0)) with ⟨before, line, after, hsplit, hlong⟩ | heq
    · have htext : ct = before ++ line ++ (after ++ ct.drop ((nextPage ct)^[n] 0)) := by
        rw [← List.append_assoc, ← hsplit, List.take_append_drop]
      have hpage := hlate before line _ htext hlong
      have hwrap : rows before + 1 ≤ n * 18 := by
        rw [← hlong.rows_append, ← hrows, hsplit, ← lc_pen, ← lc_pen]
        exact rowCounter.count_le_append (before ++ line) after
      omega
    · exact (isBreak_recount ct n).unique (newline_break (hforward n) heq)

variable {s : FsState} {idx : NodeIdx}

/-- The navigation of the reader is reversible exactly when every long line of the file begins on the
last page or the one before. -/
theorem reader_reversible_iff (s : FsState) (h : fsSystem.Reachable s) (fn : CharArray 32)
    (typing : List UInt8) (hline : 10 ∉ typing) (name : CStr) (hname : typed 31 typing = name.bytes)
    (idx : NodeIdx) (hfile : FileHere s name idx) (hne : (s.nodes idx).content ≠ []) :
    Reversible s fn typing (s.nodes idx).content ↔ LongLinesLast (s.nodes idx).content := by
  have hat := readerAt_iff h fn hline hname hfile hne
  rw [← pages_agree_iff hne]
  constructor
  · intro hrev
    refine pagesAgree_of_returns fun keys r hr hnext => ?_
    obtain ⟨r', hr', hoff⟩ := hrev.returns keys r ((hat keys r).mpr hr) hnext
    exact ⟨r', (hat _ r').mp hr', hoff⟩
  · intro hagree
    refine ⟨fun keys r hr hnext => ?_, fun keys r hr => ?_⟩
    · exact ⟨r, (hat _ r).mpr (hagree.returns ((hat keys r).mp hr) hnext), rfl⟩
    · obtain ⟨r', hr'⟩ := hagree.stays ((hat keys r).mp hr)
      exact ⟨r', (hat _ r').mpr hr'⟩

/-- The array of the file name before anything is typed. -/
def blankName : CharArray 32 := ⟨List.replicate 32 0, rfl⟩

/-- Forty lines, on three pages. -/
def fortyLines : List UInt8 := (List.replicate 40 [97, 10]).flatten

theorem reader_reversible_three_pages :
    let s := fsExec withNotes (.writeFile notesFile fortyLines)
    rows (s.nodes 8).content = 40 ∧
      (Reversible s blankName (ascii "notes.txt") (s.nodes 8).content ↔ LongLinesLast (s.nodes 8).content) := by
  have hreach : fsSystem.Reachable (fsExec withNotes (.writeFile notesFile fortyLines)) :=
    .next (.next (.init ⟨0, rfl⟩) rfl) rfl
  obtain ⟨hhere, hcontent⟩ := @notes_written fortyLines (by decide +kernel)
  refine ⟨?_, reader_reversible_iff _ hreach blankName (ascii "notes.txt") (by decide) notesFile
    (by decide +kernel) 8 hhere ?_⟩
  · rw [hcontent]
    decide +kernel
  · rw [hcontent]
    decide +kernel

theorem skipLines_one_line {text : List UInt8} (hline : 10 ∉ text) : skipLines 0 text = text.length := by
  induction text with
  | nil => rfl
  | cons c text ih =>
    rw [List.mem_cons, not_or] at hline
    rw [skipLines, if_pos (by decide), if_neg (Ne.symm hline.1), ih hline.2, List.length_cons]

/-- In a file of one line the left key on the third page ends the reader. -/
theorem left_ends_reader :
    ¬ ∀ s, fsSystem.Reachable s → ∀ (fn : CharArray 32) (typing : List UInt8), 10 ∉ typing →
      ∀ name : CStr, typed 31 typing = name.bytes → ∀ idx, FileHere s name idx →
      1 ≤ (s.nodes idx).content.length → (s.nodes idx).content.length ≤ 4095 →
      Reversible s fn typing (s.nodes idx).content := by
  intro hall
  have hreach : fsSystem.Reachable fullNotes := .next (.next (.init ⟨0, rfl⟩) rfl) rfl
  obtain ⟨hhere, hcontent⟩ := fullNotes_written
  have hline : 10 ∉ ascii "notes.txt" := by decide
  have hname : typed 31 (ascii "notes.txt") = notesFile.bytes := by decide +kernel
  have hlength : (fullNotes.nodes 8).content.length = 4095 := by rw [hcontent, List.length_replicate]
  have hne : (fullNotes.nodes 8).content ≠ [] := List.ne_nil_of_length_pos (by omega)
  have hrev := hall fullNotes hreach blankName _ hline notesFile hname 8 hhere (by omega) (by omega)
  have hat := readerAt_iff hreach blankName hline hname hhere hne
  rw [hcontent] at hat
  have hthird : Reader.run (List.replicate 4095 97) ⟨0, 1⟩ [keyRight, keyRight] = some ⟨2556, 3⟩ := by
    decide +kernel
  have honeLine : 10 ∉ List.replicate 4095 (97 : UInt8) :=
    fun hmem => absurd (List.eq_of_mem_replicate hmem) (by decide)
  -- the way back to the second page finds the end of the file
  have hback : recount (List.replicate 4095 97) 1 = 4095 := by
    rw [recount, Function.iterate_one, List.drop_zero, skipLines_one_line honeLine, List.length_replicate]
  have hleft : Reader.key (List.replicate 4095 97) ⟨2556, 3⟩ keyLeft =
      some ⟨recount (List.replicate 4095 97) 1, 2⟩ := Reader.key_left (by decide)
  rw [hback] at hleft
  obtain ⟨r', hr'⟩ := hrev.stays _ _ ((hat _ _).mpr hthird)
  rw [hat, Reader.run_append, hthird, Option.bind_some, Reader.run,
    if_pos (by rw [List.length_replicate]; decide), hleft, Option.bind_some, Reader.run,
    if_neg (by rw [List.length_replicate]; decide)] at hr'
  cases hr'

end MyMisu
