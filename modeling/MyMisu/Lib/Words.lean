import Mathlib.Data.List.TakeWhile
import Mathlib.Tactic

/-!
# Words of a line

The non-empty stretches of a line between separators, one word peeled off after the other, and the
room the words take.
-/

namespace List

variable {α : Type*} [DecidableEq α] {sep : α}

def words (sep : α) (line : List α) : List (List α) := (line.splitOn sep).filter (· ≠ [])

@[simp] theorem words_nil : words sep [] = [] := rfl

theorem words_append_sep (xs ys : List α) : words sep (xs ++ sep :: ys) = words sep xs ++ words sep ys := by
  rw [words, splitOn_append_cons_self, filter_append]
  rfl

theorem words_sep_cons (l : List α) : words sep (sep :: l) = words sep l :=
  words_append_sep [] l

/-- Separators in front of a line are skipped. -/
theorem words_seps_append {seps : List α} (hseps : ∀ x ∈ seps, x = sep) (l : List α) :
    words sep (seps ++ l) = words sep l := by
  induction seps with
  | nil => rfl
  | cons x seps ih =>
    have ⟨hx, hrest⟩ := forall_mem_cons.mp hseps
    rw [cons_append, hx, words_sep_cons, ih hrest]

theorem words_singleton {w : List α} (hsep : sep ∉ w) (hne : w ≠ []) : words sep w = [w] := by
  rw [words, splitOn_eq_singleton hsep, filter_singleton, decide_eq_true hne, cond_true]

theorem words_word_sep {w : List α} (hsep : sep ∉ w) (hne : w ≠ []) (l : List α) :
    words sep (w ++ sep :: l) = w :: words sep l := by
  rw [words_append_sep, words_singleton hsep hne, singleton_append]

theorem words_dropWhile (l : List α) : words sep (l.dropWhile (· = sep)) = words sep l := by
  induction l with
  | nil => rfl
  | cons x l ih =>
    by_cases hx : x = sep
    · rw [dropWhile_cons_of_pos (by simpa using hx), ih, hx, words_sep_cons]
    · rw [dropWhile_cons_of_neg (by simpa using hx)]

/-- The first word of a line that starts with one, and the line behind the separator after it. -/
theorem words_cons {x : α} (hx : x ≠ sep) (l : List α) :
    words sep (x :: l) =
      (x :: l).takeWhile (· ≠ sep) :: words sep ((x :: l).dropWhile (· ≠ sep)).tail := by
  have hword : sep ∉ (x :: l).takeWhile (· ≠ sep) := by
    intro hmem
    simpa using mem_takeWhile_imp hmem
  have hne : (x :: l).takeWhile (· ≠ sep) ≠ [] := by
    rw [takeWhile_cons_of_pos (by simpa using hx)]
    exact cons_ne_nil _ _
  have hline := takeWhile_append_dropWhile (p := fun y => decide (y ≠ sep)) (l := x :: l)
  rcases hrest : (x :: l).dropWhile (· ≠ sep) with _ | ⟨y, rest⟩
  · rw [hrest, append_nil] at hline
    rw [tail_nil, words_nil, hline, words_singleton (hline ▸ hword) (cons_ne_nil _ _)]
  -- the word ends at the first separator
  · have hy : y = sep := by
      have hhead := head?_dropWhile_not (fun z => decide (z ≠ sep)) (x :: l)
      rw [hrest] at hhead
      simpa using hhead
    rw [hrest, hy] at hline
    rw [tail_cons, ← words_word_sep hword hne, hline]

/-- A line is empty, starts with a separator, or starts with a word and what is behind it. -/
theorem words_induction (sep : α) {motive : List α → Prop} (nil : motive [])
    (skip : ∀ l, motive l → motive (sep :: l))
    (word : ∀ x l, x ≠ sep → motive ((x :: l).dropWhile (· ≠ sep)).tail → motive (x :: l))
    (line : List α) : motive line := by
  induction hn : line.length using Nat.strong_induction_on generalizing line with
  | _ n ih =>
  cases line with
  | nil => exact nil
  | cons x l =>
    rw [length_cons] at hn
    by_cases hx : x = sep
    · rw [hx]
      exact skip l (ih l.length (by omega) l rfl)
    · refine word x l hx (ih _ ?_ _ rfl)
      have hle := (dropWhile_sublist (fun y => decide (y ≠ sep)) (l := l)).length_le
      rw [dropWhile_cons_of_pos (by simpa using hx), length_tail]
      omega

theorem of_mem_words {w line : List α} (h : w ∈ words sep line) :
    w ≠ [] ∧ sep ∉ w ∧ w ⊆ line := by
  induction line using words_induction sep with
  | nil => cases h
  | skip l ih =>
    rw [words_sep_cons] at h
    have ⟨hne, hsep, hsub⟩ := ih h
    exact ⟨hne, hsep, fun y hy => mem_cons_of_mem _ (hsub hy)⟩
  | word x l hx ih =>
    rw [words_cons hx] at h
    rcases mem_cons.mp h with rfl | h
    · refine ⟨?_, fun hmem => by simpa using mem_takeWhile_imp hmem, takeWhile_subset _⟩
      rw [takeWhile_cons_of_pos (by simpa using hx)]
      exact cons_ne_nil _ _
    · have ⟨hne, hsep, hsub⟩ := ih h
      exact ⟨hne, hsep, fun y hy => (dropWhile_sublist _).subset ((tail_sublist _).subset (hsub hy))⟩

/-- Words with a separator behind each fit into the line with a separator behind it. -/
theorem sum_length_words (line : List α) :
    ((words sep line).map fun w => w.length + 1).sum ≤ line.length + 1 := by
  induction line using words_induction sep with
  | nil => exact Nat.zero_le _
  | skip l ih =>
    rw [words_sep_cons, length_cons]
    omega
  | word x l hx ih =>
    rw [words_cons hx, map_cons, sum_cons]
    have hlen := congrArg length
      (takeWhile_append_dropWhile (p := fun y => decide (y ≠ sep)) (l := x :: l))
    rw [length_append] at hlen
    rw [length_tail] at ih
    rcases hrest : (x :: l).dropWhile (· ≠ sep) with _ | ⟨y, rest⟩
    · -- the line ends with the word and has no separator for it
      rw [hrest] at ih hlen
      rw [tail_nil, words_nil, map_nil, sum_nil]
      rw [length_nil] at hlen
      omega
    · rw [hrest] at ih hlen
      rw [length_cons] at ih hlen
      omega

/-! ## Where the words begin -/

/-- The places in a line where a word begins: no separator stands there, and one stands in front. -/
def wordStarts (sep : α) (l : List α) : List ℕ :=
  (range l.length).filter fun i => l[i]? ≠ some sep ∧ (i = 0 ∨ l[i - 1]? = some sep)

@[simp] theorem wordStarts_nil : wordStarts sep [] = [] := rfl

theorem wordStarts_append_sep (xs ys : List α) :
    wordStarts sep (xs ++ sep :: ys) =
      wordStarts sep xs ++ (wordStarts sep ys).map (xs.length + 1 + ·) := by
  have hlen : (xs ++ sep :: ys).length = (xs.length + 1) + ys.length := by
    rw [length_append, length_cons]
    omega
  unfold wordStarts
  rw [hlen, range_add, filter_append, range_succ, filter_append, filter_map, append_assoc]
  congr 1
  · -- in front of the separator
    refine filter_congr fun i hi => ?_
    have hlt := mem_range.mp hi
    rw [getElem?_append_left hlt, getElem?_append_left (by omega)]
  -- no word begins at the separator
  have hsep : filter (fun i => decide ((xs ++ sep :: ys)[i]? ≠ some sep ∧
      (i = 0 ∨ (xs ++ sep :: ys)[i - 1]? = some sep))) [xs.length] = [] := by
    simp
  rw [hsep, nil_append]
  refine congrArg (map _) (filter_congr fun i _ => ?_)
  rw [Function.comp_apply, getElem?_append_right (by omega),
    show xs.length + 1 + i - xs.length = i + 1 by omega, getElem?_cons_succ]
  cases i with
  | zero => simp
  | succ i =>
    rw [getElem?_append_right (by omega),
      show xs.length + 1 + (i + 1) - 1 - xs.length = i + 1 by omega, getElem?_cons_succ]
    simp

theorem wordStarts_singleton {w : List α} (hsep : sep ∉ w) (hne : w ≠ []) : wordStarts sep w = [0] := by
  obtain ⟨x, xs, rfl⟩ := exists_cons_of_ne_nil hne
  have hin : ∀ i, (x :: xs)[i]? ≠ some sep := fun i hi => hsep (mem_of_getElem? hi)
  unfold wordStarts
  rw [length_cons, range_succ_eq_map, filter_cons_of_pos (by simpa using hin 0), filter_eq_nil_iff.mpr]
  intro i hi
  obtain ⟨j, -, rfl⟩ := mem_map.mp hi
  simp [hin]

theorem wordStarts_seps_append {seps : List α} (hseps : ∀ x ∈ seps, x = sep) (l : List α) :
    wordStarts sep (seps ++ l) = (wordStarts sep l).map (seps.length + ·) := by
  induction seps with
  | nil => simp
  | cons x seps ih =>
    have ⟨hx, hrest⟩ := forall_mem_cons.mp hseps
    have hskip := @wordStarts_append_sep α _ sep [] (seps ++ l)
    rw [nil_append, wordStarts_nil, nil_append, ih hrest, map_map] at hskip
    rw [cons_append, hx, hskip, length_cons]
    refine map_congr_left fun i _ => ?_
    show 0 + 1 + (seps.length + i) = seps.length + 1 + i
    omega

theorem wordStarts_word_sep {w : List α} (hsep : sep ∉ w) (hne : w ≠ []) (l : List α) :
    wordStarts sep (w ++ sep :: l) = 0 :: (wordStarts sep l).map (w.length + 1 + ·) := by
  rw [wordStarts_append_sep, wordStarts_singleton hsep hne, singleton_append]

end List
