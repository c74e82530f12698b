import MyMisu.Keyboard.State
import MyMisu.Vga.Console
import MyMisu.Vga.Page

/-!
# Backspace

A printable character moves the cursor on by one cell, over the end of a row into the next one; a
backspace stays in its row.  So backspaces take back what was typed exactly as long as that has not
left the row it started in.
-/

namespace MyMisu

variable {t u : Terminal} {s : List UInt8} {c : UInt8}

/-- A character other than a newline scrolls the screen. -/
def Scrolls (t : Terminal) (c : UInt8) : Prop := (putOther t c).terminalRow ≥ vgaHeight

/-- No character of a text scrolls the screen. -/
def WritesInPlace (t : Terminal) (s : List UInt8) (keys : ℕ → UInt8) : Prop :=
  ∀ before c after, s = before ++ c :: after → ¬ Scrolls (terminalWrite t before keys) c

/-- The text written and as many backspaces behind it. -/
def writeAndErase (t : Terminal) (s : List UInt8) (keys keys' : ℕ → UInt8) : Terminal :=
  terminalWrite (terminalWrite t s keys) (List.replicate s.length 8) keys'

/-- The cursor is back, and the cells of `n` characters from there on are blank. -/
structure TakenBack (t u : Terminal) (n : ℕ) : Prop where
  row : u.terminalRow = t.terminalRow
  column : u.terminalColumn = t.terminalColumn
  cursor : 0 < n → u.cursor = t.index
  blank : ∀ i < n, (u.terminalBuffer.cell (t.index + i)).toUInt8 = space

theorem terminalWrite_append (t : Terminal) (s : List UInt8) (c : UInt8) (keys : ℕ → UInt8) :
    terminalWrite t (s ++ [c]) keys = terminalPutchar (terminalWrite t s keys) c (keys s.length) := by
  unfold terminalWrite
  rw [List.zipIdx_append, List.foldl_append, Nat.zero_add]
  rfl

/-! ## Writing -/

theorem IsPrintable.ne {c : UInt8} (hc : IsPrintable c) : c ≠ 10 ∧ c ≠ 13 ∧ c ≠ 9 ∧ c ≠ 8 := by
  refine ⟨?_, ?_, ?_, ?_⟩ <;>
  · rintro rfl
    exact absurd hc (by decide)

/-- The end of a row is the start of the next one. -/
theorem wrap_index (hcol : t.terminalColumn ≤ 80) :
    (if t.terminalColumn ≥ vgaWidth then t.newRow else t).index = t.index ∧
      (if t.terminalColumn ≥ vgaWidth then t.newRow else t).terminalColumn < 80 := by
  by_cases hwrap : t.terminalColumn ≥ vgaWidth
  · rw [if_pos hwrap]
    unfold Terminal.index Terminal.newRow vgaWidth at *
    simp only
    omega
  · rw [if_neg hwrap]
    exact ⟨rfl, not_le.mp hwrap⟩

/-- The cursor moves on by one cell. -/
theorem putOther_index (hcol : t.terminalColumn < 80) (hc : IsPrintable c) :
    (putOther t c).index = t.index + 1 ∧ (putOther t c).terminalColumn < 80 := by
  obtain ⟨-, hcr, htab, hback⟩ := hc.ne
  unfold putOther
  rw [if_neg hcr, if_neg htab, if_neg hback]
  exact @wrap_index { t.store t.index (vgaEntry c t.terminalColor) with
    terminalColumn := t.terminalColumn + 1 } hcol

theorem terminalPutchar_in_place (hc : c ≠ 10) (hplace : ¬ Scrolls t c) (key : UInt8) :
    terminalPutchar t c key =
      terminalUpdateCursor (putOther t c) (putOther t c).terminalColumn (putOther t c).terminalRow := by
  have hview : scrollIntoView (putOther t c) = putOther t c := if_neg hplace
  unfold terminalPutchar finishPutchar
  rw [if_neg hc]
  simp only [hview]

theorem writesInPlace_append {keys : ℕ → UInt8} :
    WritesInPlace t (s ++ [c]) keys ↔
      WritesInPlace t s keys ∧ ¬ Scrolls (terminalWrite t s keys) c := by
  constructor
  · intro h
    refine ⟨fun before d after hs => ?_, h s c [] rfl⟩
    exact h before d (after ++ [c]) (by rw [hs, List.append_assoc, List.cons_append])
  · rintro ⟨hs, hc⟩ before d after h
    rcases List.eq_nil_or_concat after with rfl | ⟨after, e, rfl⟩
    · obtain ⟨rfl, hd⟩ := List.append_inj' h rfl
      cases hd
      exact hc
    · rw [List.concat_eq_append, ← List.cons_append, ← List.append_assoc] at h
      exact hs before d after (List.append_inj' h rfl).1

/-- A text moves the cursor on by its length. -/
theorem terminalWrite_index (hcol : t.terminalColumn < 80) (hrow : t.terminalRow < 25)
    {keys : ℕ → UInt8} (hs : ∀ c ∈ s, IsPrintable c) (hplace : WritesInPlace t s keys) :
    (terminalWrite t s keys).index = t.index + s.length ∧
      (terminalWrite t s keys).terminalColumn < 80 ∧ (terminalWrite t s keys).terminalRow < 25 := by
  induction s using List.reverseRecOn with
  | nil => exact ⟨rfl, hcol, hrow⟩
  | append_singleton s c ih =>
    rw [List.forall_mem_append, List.forall_mem_singleton] at hs
    rw [writesInPlace_append] at hplace
    obtain ⟨hindex, hcol', -⟩ := ih hs.1 hplace.1
    obtain ⟨hnext, hcol''⟩ := putOther_index hcol' hs.2
    rw [terminalWrite_append, terminalPutchar_in_place hs.2.ne.1 hplace.2, List.length_append,
      List.length_singleton, ← Nat.add_assoc, ← hindex]
    exact ⟨hnext, hcol'', not_le.mp hplace.2⟩

/-- A text that ends before the last cell of the screen does not scroll it. -/
theorem writesInPlace_of_lt (hcol : t.terminalColumn < 80) (hrow : t.terminalRow < 25)
    (keys : ℕ → UInt8) (hs : ∀ c ∈ s, IsPrintable c) (hfits : t.index + s.length < 2000) :
    WritesInPlace t s keys := by
  induction s using List.reverseRecOn with
  | nil =>
    intro before c after h
    exact absurd h.symm (List.append_ne_nil_of_right_ne_nil _ (List.cons_ne_nil _ _))
  | append_singleton s c ih =>
    rw [List.forall_mem_append, List.forall_mem_singleton] at hs
    rw [List.length_append, List.length_singleton] at hfits
    have hbefore := ih hs.1 (by omega)
    obtain ⟨hindex, hcol', -⟩ := terminalWrite_index hcol hrow hs.1 hbefore
    obtain ⟨hnext, -⟩ := putOther_index hcol' hs.2
    refine writesInPlace_append.mpr ⟨hbefore, fun hscroll => ?_⟩
    unfold Scrolls vgaHeight at hscroll
    unfold Terminal.index vgaWidth at *
    omega

/-! ## Erasing -/

/-- A backspace stays in its row. -/
theorem putOther_backspace (t : Terminal) :
    (putOther t 8).terminalRow = t.terminalRow ∧
      (putOther t 8).terminalColumn = t.terminalColumn - 1 := by
  unfold putOther
  rw [if_neg (by decide), if_neg (by decide), if_pos rfl]
  split_ifs with hpos
  · exact ⟨rfl, rfl⟩
  · exact ⟨rfl, by omega⟩

theorem terminalPutchar_backspace (hrow : t.terminalRow < 25) (key : UInt8) :
    terminalPutchar t 8 key = terminalUpdateCursor (putOther t 8) (t.terminalColumn - 1)
      t.terminalRow := by
  obtain ⟨hrow', hcol'⟩ := putOther_backspace t
  have hplace : ¬ Scrolls t 8 := by
    unfold Scrolls vgaHeight
    omega
  rw [terminalPutchar_in_place (by decide) hplace, hrow', hcol']

theorem erase_position (hrow : u.terminalRow < 25) (n : ℕ) (keys : ℕ → UInt8) :
    (terminalWrite u (List.replicate n 8) keys).terminalRow = u.terminalRow ∧
      (terminalWrite u (List.replicate n 8) keys).terminalColumn = u.terminalColumn - n := by
  induction n with
  | zero => exact ⟨rfl, rfl⟩
  | succ n ih =>
    have hrow' : (terminalWrite u (List.replicate n 8) keys).terminalRow < 25 := by omega
    obtain ⟨hstay, hleft⟩ := putOther_backspace (terminalWrite u (List.replicate n 8) keys)
    rw [List.replicate_succ', terminalWrite_append, terminalPutchar_backspace hrow']
    refine ⟨hstay.trans ih.1, hleft.trans ?_⟩
    rw [ih.2, Nat.sub_sub]

/-- Backspaces that stay in the row blank the cells they pass. -/
theorem erase_cells (hrow : u.terminalRow < 25) {n : ℕ} (hn : n ≤ u.terminalColumn)
    (hcol : u.terminalColumn < 80) (keys : ℕ → UInt8) :
    (0 < n → (terminalWrite u (List.replicate n 8) keys).cursor = u.index - n) ∧
      ∀ i, u.index - n ≤ i → i < u.index →
        ((terminalWrite u (List.replicate n 8) keys).terminalBuffer.cell i).toUInt8 = space := by
  induction n with
  | zero => exact ⟨fun h => absurd h (lt_irrefl 0), fun i hlo hhi => by omega⟩
  | succ n ih =>
    obtain ⟨-, hblank⟩ := ih (by omega)
    obtain ⟨hrow', hcol'⟩ := erase_position hrow n keys
    rw [List.replicate_succ', terminalWrite_append, terminalPutchar_backspace (by omega)]
    generalize terminalWrite u (List.replicate n 8) keys = v at hblank hrow' hcol' ⊢
    -- the cell left of the cursor is blanked, and those behind it stay so
    have hcell : (putOther v 8).terminalBuffer.cell =
        Function.update v.terminalBuffer.cell (u.index - (n + 1)) (vgaEntry space v.terminalColor) := by
      have hindex : { v with terminalColumn := v.terminalColumn - 1 }.index = u.index - (n + 1) := by
        show v.terminalRow * 80 + (v.terminalColumn - 1) =
          u.terminalRow * 80 + u.terminalColumn - (n + 1)
        omega
      unfold putOther
      rw [if_neg (by decide), if_neg (by decide), if_pos rfl, if_pos (by omega), ← hindex]
      rfl
    refine ⟨fun _ => ?_, fun i hlo hhi => ?_⟩
    · show (v.terminalRow * vgaWidth + (v.terminalColumn - 1)) % 2 ^ 16 = _
      unfold Terminal.index vgaWidth
      omega
    · rw [terminalUpdateCursor_buffer, hcell]
      by_cases hi : i = u.index - (n + 1)
      · rw [hi, Function.update_self, vgaEntry_char]
      · rw [Function.update_of_ne hi]
        exact hblank i (by omega) hhi

/-! ## Both -/

theorem takenBack_of_lt (hcol : t.terminalColumn + s.length < 80) (hrow : t.terminalRow < 25)
    {keys : ℕ → UInt8} (hs : ∀ c ∈ s, IsPrintable c) (hplace : WritesInPlace t s keys)
    (keys' : ℕ → UInt8) : TakenBack t (writeAndErase t s keys keys') s.length := by
  obtain ⟨hindex, hcol', hrow'⟩ := terminalWrite_index (by omega) hrow hs hplace
  have hsame : (terminalWrite t s keys).terminalRow = t.terminalRow ∧
      (terminalWrite t s keys).terminalColumn = t.terminalColumn + s.length := by
    unfold Terminal.index vgaWidth at hindex
    omega
  have hposition := erase_position hrow' s.length keys'
  have hcells := erase_cells hrow' (show s.length ≤ (terminalWrite t s keys).terminalColumn by omega)
    hcol' keys'
  rw [hindex, Nat.add_sub_cancel] at hcells
  exact {
    row := hposition.1.trans hsame.1
    column := by
      have hback := hposition.2
      rw [hsame.2, Nat.add_sub_cancel] at hback
      exact hback
    cursor := hcells.1
    blank := fun i hi => hcells.2 (t.index + i) (by omega) (by omega) }

/-- A text that leaves its row cannot be taken back. -/
theorem not_takenBack (hcol : t.terminalColumn < 80) (hrow : t.terminalRow < 25)
    (hlong : 80 ≤ t.terminalColumn + s.length) {keys : ℕ → UInt8} (hs : ∀ c ∈ s, IsPrintable c)
    (hplace : WritesInPlace t s keys) (keys' : ℕ → UInt8) :
    ¬ TakenBack t (writeAndErase t s keys keys') s.length := by
  intro hback
  obtain ⟨hindex, hcol', hrow'⟩ := terminalWrite_index hcol hrow hs hplace
  have hsame := (erase_position hrow' s.length keys').1.symm.trans hback.row
  unfold Terminal.index vgaWidth at hindex
  omega

theorem backspace_undoes_iff (t : Terminal) (ht : termSystem.Reachable t) (s : List UInt8)
    (keys keys' : ℕ → UInt8) (hs : ∀ c ∈ s, IsPrintable c) (hplace : WritesInPlace t s keys) :
    TakenBack t (writeAndErase t s keys keys') s.length ↔ t.terminalColumn + s.length < 80 := by
  obtain ⟨hrow, hcol, -⟩ := TermBounds.reach ht
  constructor
  · intro hback
    by_contra hlong
    exact not_takenBack hcol hrow (not_lt.mp hlong) hs hplace keys' hback
  · exact fun hshort => takenBack_of_lt hshort hrow hs hplace keys'

theorem backspace_undoes_ls : TakenBack (terminalInitialize .zero)
    (writeAndErase (terminalInitialize .zero) (ascii "ls") (fun _ => 0) fun _ => 0) 2 :=
  (backspace_undoes_iff (terminalInitialize .zero) (.init ⟨.zero, rfl, rfl⟩) (ascii "ls") (fun _ => 0)
    (fun _ => 0) (by decide +kernel)
    (writesInPlace_of_lt (by decide +kernel) (by decide +kernel) _ (by decide +kernel) (by decide +kernel))).mpr (by decide +kernel)

/-- A whole row of characters. -/
theorem backspace_stuck_in_next_row :
    ¬ ∀ (t : Terminal), termSystem.Reachable t → t.pagerEnabled = false →
      ∀ (s : List UInt8) (keys keys' : ℕ → UInt8), (∀ c ∈ s, IsPrintable c) → WritesInPlace t s keys →
        TakenBack t (writeAndErase t s keys keys') s.length := by
  intro hall
  have hprintable : ∀ c ∈ List.replicate 80 (97 : UInt8), IsPrintable c := by decide +kernel
  have hplace : WritesInPlace (terminalInitialize .zero) (List.replicate 80 97) fun _ => 0 :=
    writesInPlace_of_lt (by decide) (by decide) _ hprintable (by decide)
  exact not_takenBack (by decide) (by decide) (by decide) hprintable hplace (fun _ => 0)
    (hall (terminalInitialize .zero) (.init ⟨.zero, rfl, rfl⟩) rfl (List.replicate 80 97) (fun _ => 0)
      (fun _ => 0) hprintable hplace)

end MyMisu
