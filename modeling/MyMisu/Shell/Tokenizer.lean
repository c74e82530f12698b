import MyMisu.CharArray
import MyMisu.Shell.Commands

/-!
# The tokenizer

The loop of `execute_command` ends each argument where it stands: it stores a NUL over the space
behind it, and `argv` points into the line.  A pointer is an offset in the memory that the line begins;
the loop does not look back, so the memory from `tok` on is all it depends on.
-/

namespace MyMisu

/-- The loop from `tok` on, with room for some more arguments: where the arguments begin, and where a
NUL is stored. -/
def tokenize : ℕ → ℕ → List UInt8 → Except Stuck (List ℕ × List ℕ)
  | _, _, [] => .error .overrun
  | 0, _, _ => .ok ([], [])
  | room + 1, tok, c :: mem =>
    if c = 0 then .ok ([], [])
    else
      -- `while(*tok==' ')tok++`
      let arg := tok + ((c :: mem).takeWhile (· = space)).length
      match (c :: mem).dropWhile (· = space) with
      | [] => .error .overrun
      | d :: rest =>
        if d = 0 then .ok ([], [])
        else
          -- `while(*tok&&*tok!=' ')tok++`
          let tok := arg + ((d :: rest).takeWhile fun b => b ≠ 0 ∧ b ≠ space).length
          match (d :: rest).dropWhile fun b => b ≠ 0 ∧ b ≠ space with
          | [] => .error .overrun
          | e :: rest =>
            if e = 0 then .ok ([arg], [])
            else do
              let (argv, nuls) ← tokenize room (tok + 1) rest
              .ok (arg :: argv, tok :: nuls)

/-! ## One round -/

theorem span_append {p : UInt8 → Bool} {xs : List UInt8} (hxs : ∀ b ∈ xs, p b = true) {c : UInt8}
    (hc : p c = false) (ys : List UInt8) :
    (xs ++ c :: ys).takeWhile p = xs ∧ (xs ++ c :: ys).dropWhile p = c :: ys := by
  constructor
  · rw [List.takeWhile_append_of_pos hxs, List.takeWhile_cons_of_neg (by rw [hc]; decide), List.append_nil]
  · rw [List.dropWhile_append_of_pos hxs, List.dropWhile_cons_of_neg (by rw [hc]; decide)]

section Round

variable {spaces word rest : List UInt8}

/-- Nothing but spaces is left. -/
theorem tokenize_spaces (hspaces : ∀ b ∈ spaces, b = space) (room tok : ℕ) :
    tokenize (room + 1) tok (spaces ++ 0 :: rest) = .ok ([], []) := by
  have hspan := span_append (p := fun b => decide (b = space)) (by simpa using hspaces) (c := 0)
    (by decide) rest
  rcases hmem : spaces ++ 0 :: rest with _ | ⟨c, mem⟩
  · simp at hmem
  · rw [hmem] at hspan
    rw [tokenize]
    simp only [hspan]
    simp

/-- An argument, and the byte that ends it. -/
theorem tokenize_word (hspaces : ∀ b ∈ spaces, b = space) (hne : word ≠ [])
    (hword : ∀ b ∈ word, b ≠ 0 ∧ b ≠ space) {e : UInt8} (he : e = 0 ∨ e = space) (room tok : ℕ) :
    tokenize (room + 1) tok (spaces ++ (word ++ e :: rest)) =
      if e = 0 then .ok ([tok + spaces.length], [])
      else (do
        let (argv, nuls) ← tokenize room (tok + spaces.length + word.length + 1) rest
        .ok ((tok + spaces.length) :: argv, (tok + spaces.length + word.length) :: nuls)) := by
  obtain ⟨d, ds, rfl⟩ := List.exists_cons_of_ne_nil hne
  have hd := hword d List.mem_cons_self
  have hspan := span_append (p := fun b => decide (b = space)) (by simpa using hspaces) (c := d)
    (by simpa using hd.2) (ds ++ e :: rest)
  have hletters : ∀ b ∈ d :: ds, decide (b ≠ 0 ∧ b ≠ space) = true :=
    fun b hb => decide_eq_true (hword b hb)
  have hspan' := span_append hletters (c := e) (by rcases he with rfl | rfl <;> decide) rest
  rw [List.cons_append] at hspan' ⊢
  rcases hmem : spaces ++ d :: (ds ++ e :: rest) with _ | ⟨c, mem⟩
  · simp at hmem
  · have hc : c ≠ 0 := by
      cases spaces with
      | nil =>
        rw [← (List.cons.inj hmem).1]
        exact hd.1
      | cons b spaces =>
        rw [← (List.cons.inj hmem).1, hspaces b List.mem_cons_self]
        decide
    rw [hmem] at hspan
    rw [tokenize, if_neg hc]
    simp only [hspan, hspan', if_neg hd.1]

end Round

/-- A run of other characters goes up to a NUL or a space. -/
theorem word_cases {mem : List UInt8} (hend : 0 ∈ mem) :
    ∃ (word rest : List UInt8) (e : UInt8), (∀ b ∈ word, b ≠ 0 ∧ b ≠ space) ∧
      (e = 0 ∨ e = space ∧ 0 ∈ rest) ∧ mem = word ++ e :: rest := by
  induction mem with
  | nil => cases hend
  | cons c mem ih =>
    by_cases hnul : c = 0
    · exact ⟨[], mem, c, List.forall_mem_nil _, .inl hnul, rfl⟩
    have hmem : 0 ∈ mem := (List.mem_cons.mp hend).resolve_left (Ne.symm hnul)
    by_cases hspace : c = space
    · exact ⟨[], mem, c, List.forall_mem_nil _, .inr ⟨hspace, hmem⟩, rfl⟩
    · obtain ⟨word, rest, e, hword, he, rfl⟩ := ih hmem
      exact ⟨c :: word, rest, e, List.forall_mem_cons.mpr ⟨⟨hnul, hspace⟩, hword⟩, he, rfl⟩

/-- What the loop finds in a line that ends. -/
theorem line_cases {mem : List UInt8} (hend : 0 ∈ mem) :
    ∃ spaces : List UInt8, (∀ b ∈ spaces, b = space) ∧
      ((∃ rest, mem = spaces ++ 0 :: rest) ∨
        ∃ word rest e, word ≠ [] ∧ (∀ b ∈ word, b ≠ 0 ∧ b ≠ space) ∧ (e = 0 ∨ e = space ∧ 0 ∈ rest) ∧
          mem = spaces ++ (word ++ e :: rest)) := by
  induction mem with
  | nil => cases hend
  | cons c mem ih =>
    by_cases hnul : c = 0
    · exact ⟨[], List.forall_mem_nil _, .inl ⟨mem, by rw [hnul, List.nil_append]⟩⟩
    have hmem : 0 ∈ mem := (List.mem_cons.mp hend).resolve_left (Ne.symm hnul)
    by_cases hspace : c = space
    · obtain ⟨spaces, hspaces, hcases⟩ := ih hmem
      refine ⟨c :: spaces, List.forall_mem_cons.mpr ⟨hspace, hspaces⟩, ?_⟩
      rcases hcases with ⟨rest, rfl⟩ | ⟨word, rest, e, hne, hword, he, rfl⟩
      · exact .inl ⟨rest, rfl⟩
      · exact .inr ⟨word, rest, e, hne, hword, he, rfl⟩
    · obtain ⟨word, rest, e, hword, he, rfl⟩ := word_cases hmem
      exact ⟨[], List.forall_mem_nil _, .inr ⟨c :: word, rest, e, List.cons_ne_nil _ _,
        List.forall_mem_cons.mpr ⟨⟨hnul, hspace⟩, hword⟩, he, rfl⟩⟩

/-- A line that ends in the memory is split, and no NUL is stored behind its end. -/
theorem tokenize_ok {mem : List UInt8} (hend : 0 ∈ mem) (room tok : ℕ) :
    ∃ argv nuls, tokenize room tok mem = .ok (argv, nuls) ∧ ∀ i ∈ nuls, i < tok + mem.length := by
  induction room generalizing tok mem with
  | zero =>
    obtain ⟨c, mem, rfl⟩ := List.exists_cons_of_ne_nil (List.ne_nil_of_mem hend)
    exact ⟨[], [], rfl, List.forall_mem_nil _⟩
  | succ room ih =>
    obtain ⟨spaces, hspaces, hcases⟩ := line_cases hend
    rcases hcases with ⟨rest, rfl⟩ | ⟨word, rest, e, hne, hword, he, rfl⟩
    · exact ⟨[], [], tokenize_spaces hspaces room tok, List.forall_mem_nil _⟩
    rw [tokenize_word hspaces hne hword (he.imp id And.left)]
    rcases he with rfl | ⟨rfl, hmore⟩
    · exact ⟨_, [], if_pos rfl, List.forall_mem_nil _⟩
    · obtain ⟨argv, nuls, hrun, hnuls⟩ := ih hmore (tok + spaces.length + word.length + 1)
      rw [if_neg (by decide), hrun]
      refine ⟨_, _, rfl, ?_⟩
      simp only [List.forall_mem_cons, List.length_append, List.length_cons]
      refine ⟨by omega, fun i hi => ?_⟩
      have := hnuls i hi
      omega

end MyMisu
