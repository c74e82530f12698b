import Mathlib.Tactic

/-!
# Pages of a text

A text is read element by element, and some elements complete a line.  A page is full with a given
number of lines, so the pages of a text begin where the lines completed so far reach the multiples of
that number.  A loop that fills one page, run again and again from where it has stopped, finds these
places.
-/

variable {α : Type*}

/-- The lines that a text completes.  Behind a complete line the count begins anew. -/
structure LineCounter (α : Type*) where
  count : List α → ℕ
  /-- The text ends with a complete line. -/
  Closed : List α → Prop
  count_nil : count [] = 0
  closed_nil : Closed []
  count_append {t : List α} : Closed t → ∀ u, count (t ++ u) = count t + count u
  closed_append {t u : List α} : Closed t → Closed u → Closed (t ++ u)
  count_snoc (t : List α) (a : α) :
    count (t ++ [a]) = count t ∨ count (t ++ [a]) = count t + 1 ∧ Closed (t ++ [a])

namespace LineCounter

variable {c : LineCounter α} {text : List α} {k m i j off : ℕ}

theorem count_le_append (c : LineCounter α) (t u : List α) : c.count t ≤ c.count (t ++ u) := by
  induction u using List.reverseRecOn with
  | nil => rw [List.append_nil]
  | append_singleton u a ih =>
    have hstep := c.count_snoc (t ++ u) a
    rw [← List.append_assoc]
    omega

theorem count_take_mono (c : LineCounter α) (text : List α) (h : i ≤ j) :
    c.count (text.take i) ≤ c.count (text.take j) := by
  obtain ⟨n, rfl⟩ := Nat.exists_eq_add_of_le h
  rw [List.take_add]
  exact c.count_le_append _ _

/-- The first place where `k` lines are complete, or the end of the text if it has fewer. -/
structure IsBreak (c : LineCounter α) (k : ℕ) (text : List α) (i : ℕ) : Prop where
  le : i ≤ text.length
  before : ∀ j < i, c.count (text.take j) < k
  reached : i < text.length → c.count (text.take i) = k ∧ c.Closed (text.take i)

theorem isBreak_zero (c : LineCounter α) (text : List α) : c.IsBreak 0 text 0 where
  le := Nat.zero_le _
  before j hj := absurd hj (Nat.not_lt_zero j)
  reached _ := ⟨c.count_nil, c.closed_nil⟩

theorem IsBreak.unique (hi : c.IsBreak k text i) (hj : c.IsBreak k text j) : i = j := by
  rcases lt_trichotomy i j with h | h | h
  · have := (hi.reached (h.trans_le hj.le)).1
    have := hj.before i h
    omega
  · exact h
  · have := (hj.reached (h.trans_le hi.le)).1
    have := hi.before j h
    omega

/-- The text in front of `j` completes the lines exactly when the page break is not behind `j`. -/
theorem IsBreak.le_iff (hi : c.IsBreak k text i) (hj : j < text.length) :
    i ≤ j ↔ k ≤ c.count (text.take j) := by
  constructor
  · intro h
    rw [← (hi.reached (h.trans_lt hj)).1]
    exact c.count_take_mono text h
  · intro h
    by_contra hlt
    have := hi.before j (by omega)
    omega

/-- A page behind a page break. -/
theorem IsBreak.next (hoff : c.IsBreak m text off) (hi : c.IsBreak k (text.drop off) i) :
    c.IsBreak (m + k) text (off + i) := by
  have hlen := hi.le
  rw [List.length_drop] at hlen
  have hle := hoff.le
  -- what is in front of a place on the page
  have hcount : off < text.length → ∀ n, c.count (text.take (off + n)) =
      m + c.count ((text.drop off).take n) := by
    intro hlt n
    rw [List.take_add, c.count_append (hoff.reached hlt).2, (hoff.reached hlt).1]
  refine ⟨by omega, ?_, ?_⟩
  · intro j hj
    by_cases hbefore : j < off
    · have := hoff.before j hbefore
      omega
    · obtain ⟨n, rfl⟩ := Nat.exists_eq_add_of_le (not_lt.mp hbefore)
      have := hi.before n (by omega)
      rw [hcount (by omega) n]
      omega
  · -- a page that ends in front of the end of the text is full
    intro hlt
    have hreached := hi.reached (by rw [List.length_drop]; omega)
    rw [hcount (by omega), hreached.1, List.take_add]
    exact ⟨rfl, c.closed_append (hoff.reached (by omega)).2 hreached.2⟩

/-- Page after page. -/
theorem isBreak_iterate {f : ℕ → ℕ} (hf : ∀ off, c.IsBreak k (text.drop off) (f off)) (n : ℕ) :
    c.IsBreak (n * k) text ((fun off => off + f off)^[n] 0) := by
  induction n with
  | zero =>
    rw [Nat.zero_mul]
    exact c.isBreak_zero text
  | succ n ih =>
    rw [Function.iterate_succ_apply', Nat.succ_mul]
    exact ih.next (hf _)

/-- The loop that fills a page, behind the text `seen` of the page. -/
def fill (c : LineCounter α) (k : ℕ) (seen : List α) : List α → ℕ
  | [] => 0
  | a :: rest => if c.count seen < k then fill c k (seen ++ [a]) rest + 1 else 0

theorem fill_isBreak (rest : List α) {seen : List α}
    (hbefore : ∀ j < seen.length, c.count (seen.take j) < k)
    (hseen : c.count seen < k ∨ c.count seen = k ∧ c.Closed seen) :
    c.IsBreak k (seen ++ rest) (seen.length + c.fill k seen rest) := by
  induction rest generalizing seen with
  | nil =>
    rw [List.append_nil]
    exact ⟨le_rfl, hbefore, fun h => absurd h (Nat.lt_irrefl _)⟩
  | cons a rest ih =>
    by_cases hroom : c.count seen < k
    · rw [fill, if_pos hroom, List.append_cons]
      have hlonger : ∀ j < (seen ++ [a]).length, c.count ((seen ++ [a]).take j) < k := by
        intro j hj
        rw [List.length_append, List.length_singleton] at hj
        rw [List.take_append_of_le_length (by omega)]
        rcases Nat.lt_succ_iff_lt_or_eq.mp hj with h | rfl
        · exact hbefore j h
        · rwa [List.take_length]
      have hlonger' : c.count (seen ++ [a]) < k ∨ c.count (seen ++ [a]) = k ∧ c.Closed (seen ++ [a]) := by
        rcases c.count_snoc seen a with h | ⟨h, hclosed⟩
        · exact .inl (h ▸ hroom)
        · rcases Nat.lt_or_eq_of_le (h ▸ hroom : c.count (seen ++ [a]) ≤ k) with hlt | heq
          · exact .inl hlt
          · exact .inr ⟨heq, hclosed⟩
      have hnext := ih hlonger hlonger'
      rwa [List.length_append, List.length_singleton, Nat.add_assoc, Nat.add_comm 1] at hnext
    · rw [fill, if_neg hroom, Nat.add_zero]
      have hfull := hseen.resolve_left hroom
      refine ⟨by simp, fun j hj => ?_, fun _ => ?_⟩
      · rw [List.take_append_of_le_length hj.le]
        exact hbefore j hj
      · rw [List.take_left]
        exact hfull

theorem isBreak_fill (hk : 0 < k) (text : List α) : c.IsBreak k text (c.fill k [] text) := by
  have h := @fill_isBreak α c k text [] (fun j hj => absurd hj (Nat.not_lt_zero j))
    (.inl (by rwa [c.count_nil]))
  rwa [List.nil_append, List.length_nil, Nat.zero_add] at h

end LineCounter
