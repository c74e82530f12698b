import MyMisu.Fs.ReadBack
import MyMisu.Lib.Words
import MyMisu.Shell.Commands

/-!
# Arguments and arrays

What the loops of the shell do to the command line and to local arrays: the arguments are the words
of the line as far as `argv` has room for them, and a string is appended to an array that has room
for it and its terminator.
-/

namespace MyMisu

variable {size : ℕ}

/-! ## Splitting the line -/

theorem splitArgs_eq (args : ℕ) (line : List UInt8) :
    splitArgs args line = ((line.words space).take args).map CStr.ofBuffer := by
  induction args generalizing line with
  | zero => rfl
  | succ args ih =>
    unfold splitArgs
    rw [← List.words_dropWhile line]
    rcases hline : line.dropWhile (· = space) with _ | ⟨c, rest⟩
    · rfl
    · have hc : c ≠ space := by
        have hhead := List.head?_dropWhile_not (fun b => decide (b = space)) line
        rw [hline] at hhead
        simpa using hhead
      simp only
      rw [if_neg (List.cons_ne_nil _ _), ih, List.words_cons hc, List.take_succ_cons, List.map_cons]

/-- The bytes of an argument are those of the word. -/
theorem ofBuffer_word {line : CStr} {w : List UInt8} (hw : w ∈ line.bytes.words space) :
    (CStr.ofBuffer w).bytes = w := by
  have ⟨_, _, hsub⟩ := List.of_mem_words hw
  exact cString_of_noNul fun b hb => line.noNul b (hsub hb)

theorem map_ofBuffer_words {line : CStr} {ws : List (List UInt8)}
    (hsub : ws.Sublist (line.bytes.words space)) : (ws.map CStr.ofBuffer).map CStr.bytes = ws := by
  rw [List.map_map]
  conv_rhs => rw [← List.map_id ws]
  exact List.map_congr_left fun w hw => ofBuffer_word (hsub.subset hw)

/-! ## Joining words -/

/-- Words with spaces in between and a newline at the end. -/
def joinWords (ws : List (List UInt8)) : List UInt8 := [space].intercalate ws ++ [10]

theorem length_joinWords {ws : List (List UInt8)} (hne : ws ≠ []) :
    (joinWords ws).length = (ws.map fun w => w.length + 1).sum := by
  unfold joinWords
  induction ws with
  | nil => exact absurd rfl hne
  | cons w ws ih =>
    cases ws with
    | nil => simp
    | cons v ws =>
      have htail := ih (List.cons_ne_nil _ _)
      rw [List.length_append] at htail ⊢
      rw [List.intercalate_cons_cons, List.length_append, List.length_append, List.map_cons,
        List.sum_cons, ← htail]
      simp only [List.length_singleton]
      omega

theorem joinWords_append {xs ys : List (List UInt8)} (hx : xs ≠ []) (hy : ys ≠ []) :
    ∃ rest, joinWords (xs ++ ys) = [space].intercalate xs ++ space :: rest := by
  have hsplit : [space].intercalate (xs ++ ys) =
      [space].intercalate xs ++ space :: [space].intercalate ys := by
    induction xs with
    | nil => exact absurd rfl hx
    | cons x xs ih =>
      cases xs with
      | nil =>
        rw [List.singleton_append, List.intercalate_cons_of_ne_nil hy, List.intercalate_singleton,
          List.append_assoc, List.singleton_append]
      | cons z xs =>
        rw [List.cons_append, List.intercalate_cons_of_ne_nil (by simp), ih (List.cons_ne_nil _ _),
          List.intercalate_cons_cons, List.append_assoc, List.append_assoc, List.append_assoc]
  refine ⟨[space].intercalate ys ++ [10], ?_⟩
  rw [joinWords, hsplit, List.append_assoc, List.cons_append]

/-- Joining only the first of the words does not give a beginning of all of them joined: a newline
stands where a space should. -/
theorem joinWords_take_cut {ws : List (List UInt8)} {n : ℕ} (hn : 0 < n)
    (hmany : n < ws.length) : ¬ joinWords (ws.take n) <+: joinWords ws := by
  intro hprefix
  have htake : ws.take n ≠ [] := by
    rw [Ne, List.take_eq_nil_iff, not_or, ← List.length_eq_zero_iff]
    omega
  have hdrop : ws.drop n ≠ [] := by
    rw [Ne, List.drop_eq_nil_iff]
    omega
  obtain ⟨rest, hall⟩ := joinWords_append htake hdrop
  rw [List.take_append_drop] at hall
  rw [hall, joinWords, List.prefix_append_right_inj, List.cons_prefix_cons] at hprefix
  exact absurd hprefix.1 (by decide)

/-- Some words of a line, joined, are at most one longer than the line. -/
theorem length_joinWords_le {line : List UInt8} {ws : List (List UInt8)}
    (hsub : ws.Sublist (line.words space)) (hne : ws ≠ []) : (joinWords ws).length ≤ line.length + 1 := by
  rw [length_joinWords hne]
  exact ((hsub.map _).sum_le_sum fun _ _ => Nat.zero_le _).trans (List.sum_length_words line)

/-- The first of the last words of a line stand in `argv` as they are, and joined they fit in an array
of 1024 characters. -/
theorem kept_words {line : CStr} (hlen : line.bytes.length ≤ 255) {before ws : List (List UInt8)}
    (hwords : line.bytes.words space = before ++ ws) (hws : ws ≠ []) {n : ℕ} (hn : n ≠ 0) :
    ∃ w rest, (ws.take n).map CStr.ofBuffer = w :: rest ∧
      (w :: rest).map CStr.bytes = ws.take n ∧ (joinWords (ws.take n)).length < 1024 := by
  have hkept : ws.take n ≠ [] := by
    rw [Ne, List.take_eq_nil_iff]
    exact not_or.mpr ⟨hn, hws⟩
  have hsub : (ws.take n).Sublist (line.bytes.words space) := by
    rw [hwords]
    exact (List.take_sublist n ws).trans (List.sublist_append_right before ws)
  have hshort := length_joinWords_le hsub hkept
  obtain ⟨w, rest, hcons⟩ := List.exists_cons_of_ne_nil (mt List.map_eq_nil_iff.mp hkept)
  refine ⟨w, rest, hcons, ?_, by omega⟩
  rw [← hcons, map_ofBuffer_words hsub]

/-! ## Arrays of characters -/

theorem emptyArray_ok (env : ShellEnv) (hpos : 0 < size) :
    ∃ b : CharArray size, env.emptyArray size = .ok b ∧ b.str.bytes = [] := by
  unfold ShellEnv.emptyArray CharArray.store
  rw [if_pos hpos]
  refine ⟨_, rfl, ?_⟩
  show cString ((env.junk size).bytes.set 0 0) = []
  have hlen := (env.junk size).length_eq
  rcases hbytes : (env.junk size).bytes with _ | ⟨c, cs⟩
  · rfl
  · rw [List.set_cons_zero, cString_cons, if_pos rfl]

/-- The arguments are appended with spaces in between. -/
theorem catArgs_ok (data : CharArray size) (ws : List CStr)
    (hroom : data.str.bytes.length + ([space].intercalate (ws.map CStr.bytes)).length < size) :
    ∃ b, catArgs data ws = .ok b ∧
      b.str.bytes = data.str.bytes ++ [space].intercalate (ws.map CStr.bytes) := by
  induction ws generalizing data with
  | nil => exact ⟨data, rfl, (List.append_nil _).symm⟩
  | cons w ws ih =>
    cases ws with
    | nil =>
      rw [List.map_singleton, List.intercalate_singleton] at hroom ⊢
      exact strcat_ok data w hroom
    | cons v ws =>
      -- a word with more behind it takes two calls, the second for the space
      have hspace : (CStr.ofString " ").bytes = [space] := rfl
      rw [List.map_cons, List.map_cons, List.intercalate_cons_cons, List.length_append,
        List.length_append, List.length_singleton] at hroom
      obtain ⟨a, hw, ha⟩ := strcat_ok data w (by omega)
      obtain ⟨b, hs, hb⟩ := strcat_ok a (.ofString " ") (by
        rw [ha, List.length_append, hspace, List.length_singleton]
        omega)
      obtain ⟨c, hrest, hc⟩ := ih b (by
        rw [hb, ha, List.length_append, List.length_append, hspace, List.length_singleton,
          List.map_cons]
        omega)
      refine ⟨c, ?_, ?_⟩
      · unfold catArgs
        rw [hw]
        show (strcat a (.ofString " ") >>= fun data => catArgs data (v :: ws)) = _
        rw [hs]
        exact hrest
      · rw [hc, hb, ha, hspace, List.map_cons, List.map_cons, List.map_cons,
          List.intercalate_cons_cons, List.append_assoc, List.append_assoc, List.append_assoc]

end MyMisu
