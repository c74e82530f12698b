import MyMisu.Keyboard.State

/-!
# Tic-tac-toe

`cmd_tictactoe`: X moves by keys, the CPU answers with O by a fixed order of rules.  It completes or
blocks a line that needs one square, and otherwise takes the centre, a corner or the first free
square.  The whole game is small enough to be listed: twelve lines of play end with a line of X.
-/

namespace MyMisu

/-- The characters `' '`, `'X'` and `'O'`. -/
inductive Mark
  | blank | x | o
  deriving DecidableEq

/-- `char b[9]` -/
structure Board where
  marks : List Mark
  length_eq : marks.length = 9

namespace Board

/-- `b[p]` -/
def get (b : Board) (p : ℕ) : Mark := b.marks.getD p .blank

/-- `b[p]=m` -/
def set (b : Board) (p : ℕ) (m : Mark) : Board := ⟨b.marks.set p m, List.length_set.trans b.length_eq⟩

def start : Board := ⟨List.replicate 9 .blank, List.length_replicate⟩

/-- `w` -/
def lines : List (List ℕ) :=
  [[0, 1, 2], [3, 4, 5], [6, 7, 8], [0, 3, 6], [1, 4, 7], [2, 5, 8], [0, 4, 8], [2, 4, 6]]

/-- The squares of a line are all the mark. -/
def Full (b : Board) (m : Mark) (line : List ℕ) : Prop := ∀ p ∈ line, b.get p = m

instance (b : Board) (m : Mark) (line : List ℕ) : Decidable (b.Full m line) :=
  inferInstanceAs (Decidable (∀ p ∈ line, b.get p = m))

/-- `wn`, which the last full line determines. -/
def winner (b : Board) : Mark :=
  lines.foldl (fun wn line =>
    let m := b.get (line.headD 0)
    if m ≠ .blank ∧ b.Full m line then m else wn) .blank

/-- What is printed when the game is over. -/
def verdict (b : Board) : Option (List UInt8) :=
  if b.winner = .x then some (ascii "  You win!\n\n")
  else if b.winner = .o then some (ascii "  CPU wins!\n\n")
  else if .blank ∉ b.marks then some (ascii "  Draw!\n\n")
  else none

/-- `em` of the first line with two marks `ch` and an empty square. -/
def gap (b : Board) (ch : Mark) : Option ℕ :=
  lines.findSome? fun line =>
    if line.countP (b.get · = ch) = 2 then (line.filter (b.get · = .blank)).getLast? else none

/-- The square the CPU takes: to win, to block, the centre, a corner, any. -/
def cpuCell (b : Board) : Option ℕ :=
  b.gap .o <|> b.gap .x <|> [4].find? (b.get · = .blank) <|> [0, 2, 6, 8].find? (b.get · = .blank) <|>
    (List.range 9).find? (b.get · = .blank)

def cpuMove (b : Board) : Board :=
  match b.cpuCell with
  | some p => b.set p .o
  | none => b

/-- A full line of a mark. -/
def HasLine (b : Board) (m : Mark) : Prop := ∃ line ∈ lines, b.Full m line

instance (b : Board) (m : Mark) : Decidable (b.HasLine m) :=
  inferInstanceAs (Decidable (∃ line ∈ lines, b.Full m line))

end Board

/-- `c-'1'`, for the keys that name a square. -/
def squareOf (c : UInt8) : Option ℕ := if 49 ≤ c ∧ c ≤ 57 then some (c.toNat - 49) else none

/-- The variables of `cmd_tictactoe`. -/
structure TicTacToe where
  b : Board
  turn : ℕ

namespace TicTacToe

/-- A key when it is X's turn. -/
def key (s : TicTacToe) (c : UInt8) : TicTacToe :=
  match squareOf c with
  | some p => if s.b.get p = .blank then ⟨s.b.set p .x, 1⟩ else s
  | none => s

/-- A round of the loop on the keys to come; there is no next one when the game is over or a key is
waited for. -/
def round : TicTacToe × List UInt8 → Option (TicTacToe × List UInt8)
  | (s, keys) =>
    if s.b.verdict.isSome then none
    else if s.turn = 0 then
      match keys with
      | [] => none
      | c :: keys => some (s.key c, keys)
    else some (⟨s.b.cpuMove, 0⟩, keys)

/-- The states the game passes through. -/
def Visits (keys : List UInt8) (s : TicTacToe) : Prop :=
  ∃ rest, Relation.ReflTransGen (fun p q => round p = some q) (⟨.start, 0⟩, keys) (s, rest)

end TicTacToe

/-! ## Lines of play -/

/-- The keys pick the squares of X in a line of play, which lists X's squares and the answers in turn.  A
key counts when it names a square that is not taken. -/
def follows (taken : List ℕ) (play : List ℕ) : List UInt8 → Bool
  | [] => false
  | c :: keys =>
    match squareOf c with
    | none => follows taken play keys
    | some p =>
      if p ∈ taken then follows taken play keys
      else
        match play with
        | x :: o :: play => p = x && follows (o :: x :: taken) play keys
        | [x] => p = x
        | [] => false

namespace Board

/-- The lines of play that X's mark at `p` begins, when those after the answer are known. -/
def winsAfter (rest : Board → List (List ℕ)) (b : Board) (p : ℕ) : List (List ℕ) :=
  if b.HasLine .x then [[p]]
  else if b.verdict.isSome then []
  else
    match b.cpuCell with
    | some o => (rest (b.set o .o)).map fun play => p :: o :: play
    | none => []

/-- The lines of play from a board that end with a line of X, with `n` marks of X at most. -/
def wins : ℕ → Board → List (List ℕ)
  | 0, _ => []
  | n + 1, b =>
    if b.verdict.isSome then []
    else ((List.range 9).filter (b.get · = .blank)).flatMap fun p => winsAfter (wins n) (b.set p .x) p

end Board

/-- The ways to beat the CPU. -/
def winningPlays : List (List ℕ) :=
  [[0, 4, 7, 2, 6, 8, 3], [0, 4, 8, 2, 6, 7, 3], [2, 4, 6, 0, 8, 7, 5], [2, 4, 7, 0, 8, 6, 5],
    [5, 4, 6, 0, 8, 7, 2], [5, 4, 7, 0, 8, 6, 2], [6, 4, 2, 0, 8, 7, 5], [6, 4, 5, 0, 8, 7, 2],
    [7, 4, 0, 2, 6, 8, 3], [7, 4, 2, 0, 8, 6, 5], [7, 4, 5, 0, 8, 6, 2], [8, 4, 0, 2, 6, 7, 3]]

theorem wins_start : Board.start.wins 9 = winningPlays := by decide +kernel

/-! ## Marks on the board -/

namespace Board

theorem get_eq (b : Board) {p : ℕ} (hp : p < b.marks.length) : b.get p = b.marks[p] := by
  rw [get, List.getD_eq_getElem?_getD, List.getElem?_eq_getElem hp, Option.getD_some]

theorem get_set (b : Board) (p : ℕ) (m : Mark) {q : ℕ} (hq : q < 9) :
    (b.set p m).get q = if p = q then m else b.get q := by
  have hlen := b.length_eq
  rw [get_eq _ (hq.trans_eq (b.set p m).length_eq.symm), get_eq b (by omega)]
  exact List.getElem_set _

/-- The empty squares. -/
def blanks (b : Board) : ℕ := b.marks.count .blank

theorem blanks_set_le (b : Board) (p : ℕ) {m : Mark} (hm : m ≠ .blank) : (b.set p m).blanks ≤ b.blanks := by
  show (b.marks.set p m).count .blank ≤ b.marks.count .blank
  by_cases hp : p < b.marks.length
  · rw [List.count_set hp, beq_false_of_ne hm]
    simp
  · rw [List.set_eq_of_length_le (by omega)]

theorem blanks_set_lt (b : Board) {p : ℕ} (hp : p < 9) (hblank : b.get p = .blank) {m : Mark}
    (hm : m ≠ .blank) : (b.set p m).blanks < b.blanks := by
  have hlen : p < b.marks.length := by rw [b.length_eq]; exact hp
  have hget : b.marks[p] = .blank := by
    rw [← hblank, get_eq b hlen]
  have hpos : 0 < b.marks.count .blank := List.count_pos_iff.mpr (hget ▸ List.getElem_mem hlen)
  show (b.marks.set p m).count .blank < b.marks.count .blank
  rw [List.count_set hlen, hget, beq_false_of_ne hm]
  simpa using hpos

/-- A mark of the CPU completes no line of X. -/
theorem hasLine_of_set {b : Board} {p : ℕ} (h : (b.set p .o).HasLine .x) : b.HasLine .x := by
  obtain ⟨line, hline, hfull⟩ := h
  refine ⟨line, hline, fun q hq => ?_⟩
  have hx := hfull q hq
  have hall : ∀ line ∈ lines, ∀ q ∈ line, q < 9 := by decide
  rw [get_set b p .o (hall line hline q hq)] at hx
  split_ifs at hx
  exact hx

/-- While a square is empty the CPU finds one. -/
theorem cpuCell_isSome {b : Board} (h : .blank ∈ b.marks) : ∃ o, b.cpuCell = some o := by
  obtain ⟨p, hp, hget⟩ := List.getElem_of_mem h
  have hany : ((List.range 9).find? (b.get · = .blank)).isSome := by
    rw [List.find?_isSome]
    refine ⟨p, List.mem_range.mpr (b.length_eq ▸ hp), ?_⟩
    rw [get_eq b hp, hget]
    rfl
  rw [← Option.isSome_iff_exists]
  unfold cpuCell
  simp [hany]

theorem blank_of_verdict {b : Board} (h : b.verdict = none) : .blank ∈ b.marks := by
  unfold verdict at h
  split_ifs at h with hx ho hfull
  exact hfull

end Board

theorem squareOf_lt {c : UInt8} {p : ℕ} (h : squareOf c = some p) : p < 9 := by
  unfold squareOf at h
  split_ifs at h with hc
  have hlo : 49 ≤ c.toNat := hc.1
  have hhi : c.toNat ≤ 57 := hc.2
  cases h
  omega

/-! ## The game as a tree -/

namespace TicTacToe

/-- A line of X comes up from here on. -/
def Beaten (p : TicTacToe × List UInt8) : Prop :=
  ∃ q, Relation.ReflTransGen (fun p q => round p = some q) p q ∧ q.1.b.HasLine .x

theorem beaten_iff (p : TicTacToe × List UInt8) :
    Beaten p ↔ p.1.b.HasLine .x ∨ ∃ q, round p = some q ∧ Beaten q := by
  constructor
  · rintro ⟨q, hreach, hline⟩
    rcases hreach.cases_head with rfl | ⟨r, hround, hrest⟩
    · exact .inl hline
    · exact .inr ⟨r, hround, q, hrest, hline⟩
  · rintro (hline | ⟨r, hround, q, hrest, hline⟩)
    · exact ⟨p, .refl, hline⟩
    · exact ⟨q, .head hround hrest, hline⟩

/-- A game without a line of X that goes on is what the next round makes of it. -/
theorem beaten_round {p q : TicTacToe × List UInt8} (hline : ¬ p.1.b.HasLine .x) (hround : round p = some q) :
    Beaten p ↔ Beaten q := by
  rw [beaten_iff, or_iff_right hline, hround]
  simp

theorem not_beaten {p : TicTacToe × List UInt8} (hline : ¬ p.1.b.HasLine .x) (hround : round p = none) :
    ¬ Beaten p := by
  rw [beaten_iff, or_iff_right hline, hround]
  simp

/-- A key that names a square which is not taken has to be the next of X in the line of play. -/
def answers (taken : List ℕ) (p : ℕ) (keys : List UInt8) (play : List ℕ) : Bool :=
  match play with
  | x :: o :: play => p = x && follows (o :: x :: taken) play keys
  | [x] => p = x
  | [] => false

theorem follows_cons (taken play : List ℕ) (c : UInt8) (keys : List UInt8) :
    follows taken play (c :: keys) =
      match squareOf c with
      | none => follows taken play keys
      | some p => if p ∈ taken then follows taken play keys else answers taken p keys play := rfl

/-- The CPU answers X's mark at `p`. -/
theorem beaten_answer {rest : Board → List (List ℕ)} {b : Board} {taken : List ℕ} {p : ℕ}
    {keys : List UInt8}
    (hrest : ∀ o, ¬ (b.set o .o).HasLine .x →
      (Beaten (⟨b.set o .o, 0⟩, keys) ↔
        ∃ play ∈ rest (b.set o .o), follows (o :: p :: taken) play keys = true)) :
    Beaten (⟨b, 1⟩, keys) ↔ ∃ play ∈ b.winsAfter rest p, answers taken p keys play = true := by
  unfold Board.winsAfter
  by_cases hline : b.HasLine .x
  · -- the line of play ends with this mark
    rw [if_pos hline, beaten_iff]
    simp [hline, answers]
  rw [if_neg hline]
  cases hverdict : b.verdict with
  | some text =>
    have hstop : round (⟨b, 1⟩, keys) = none := by simp [round, hverdict]
    simp [not_beaten hline hstop]
  | none =>
    obtain ⟨o, ho⟩ := Board.cpuCell_isSome (Board.blank_of_verdict hverdict)
    have hround : round (⟨b, 1⟩, keys) = some (⟨b.set o .o, 0⟩, keys) := by
      simp [round, hverdict, Board.cpuMove, ho]
    rw [beaten_round hline hround, hrest o (mt Board.hasLine_of_set hline)]
    simp [ho, answers]

/-- Only the lines of play that begin with the square of the key are answered. -/
theorem eq_of_answers {rest : Board → List (List ℕ)} {b : Board} {q p : ℕ} {taken play : List ℕ}
    {keys : List UInt8} (hplay : play ∈ b.winsAfter rest q) (h : answers taken p keys play = true) : p = q := by
  unfold Board.winsAfter at hplay
  split_ifs at hplay
  · rw [List.mem_singleton.mp hplay] at h
    simpa [answers] using h
  · cases hplay
  · cases ho : b.cpuCell with
    | none => simp [ho] at hplay
    | some o =>
      rw [ho] at hplay
      obtain ⟨tail, -, rfl⟩ := List.mem_map.mp hplay
      simp only [answers, Bool.and_eq_true, decide_eq_true_eq] at h
      exact h.1

/-- Of the lines of play from a board, a key picks those that begin with its square. -/
theorem wins_answers {n : ℕ} {b : Board} (hverdict : b.verdict = none) {p : ℕ} (hp : p < 9)
    (hblank : b.get p = .blank) (taken : List ℕ) (keys : List UInt8) :
    (∃ play ∈ b.wins (n + 1), answers taken p keys play = true) ↔
      ∃ play ∈ (b.set p .x).winsAfter (Board.wins n) p, answers taken p keys play = true := by
  have hmem : ∀ play, play ∈ b.wins (n + 1) ↔
      ∃ q, (q < 9 ∧ b.get q = .blank) ∧ play ∈ (b.set q .x).winsAfter (Board.wins n) q := by
    intro play
    rw [Board.wins, hverdict, if_neg (by decide), List.mem_flatMap]
    simp
  constructor
  · rintro ⟨play, hplay, h⟩
    obtain ⟨q, -, hq⟩ := (hmem play).mp hplay
    obtain rfl := eq_of_answers hq h
    exact ⟨play, hq, h⟩
  · rintro ⟨play, hplay, h⟩
    exact ⟨play, (hmem play).mpr ⟨p, ⟨hp, hblank⟩, hplay⟩, h⟩

/-- The squares that are taken after X's mark and the answer. -/
theorem taken_set {b : Board} {taken : List ℕ} (htaken : ∀ q < 9, q ∈ taken ↔ b.get q ≠ .blank) (p o : ℕ) :
    ∀ q < 9, q ∈ o :: p :: taken ↔ ((b.set p .x).set o .o).get q ≠ .blank := by
  intro q hq
  rw [Board.get_set _ o .o hq, Board.get_set b p .x hq, List.mem_cons, List.mem_cons, htaken q hq]
  split_ifs with ho hp
  · simp [ho]
  · simp [hp]
  · simp [Ne.symm ho, Ne.symm hp]

/-- From X's turn on, a line of X comes up just when the keys follow one of the lines of play. -/
theorem beaten_follows {n : ℕ} {b : Board} {taken : List ℕ} (hn : b.blanks ≤ n)
    (htaken : ∀ p < 9, p ∈ taken ↔ b.get p ≠ .blank) (hline : ¬ b.HasLine .x) (keys : List UInt8) :
    Beaten (⟨b, 0⟩, keys) ↔ ∃ play ∈ b.wins n, follows taken play keys = true := by
  induction keys generalizing n b taken with
  | nil =>
    have hwait : round (⟨b, 0⟩, []) = none := by simp [round]
    simp [not_beaten hline hwait, follows]
  | cons c keys ih =>
    cases hverdict : b.verdict with
    | some text =>
      have hstop : round (⟨b, 0⟩, c :: keys) = none := by simp [round, hverdict]
      have hnone : b.wins n = [] := by cases n <;> simp [Board.wins, hverdict]
      simp [not_beaten hline hstop, hnone]
    | none =>
      have hround : round (⟨b, 0⟩, c :: keys) = some (key ⟨b, 0⟩ c, keys) := by simp [round, hverdict]
      rw [beaten_round hline hround]
      simp only [follows_cons]
      cases hsquare : squareOf c with
      | none =>
        -- the loop reads the next key
        have hkey : key ⟨b, 0⟩ c = ⟨b, 0⟩ := by simp [key, hsquare]
        rw [hkey]
        exact ih hn htaken hline
      | some p =>
        have hp := squareOf_lt hsquare
        by_cases hmem : p ∈ taken
        · have hkey : key ⟨b, 0⟩ c = ⟨b, 0⟩ := by simp [key, hsquare, (htaken p hp).mp hmem]
          rw [hkey]
          simp only [if_pos hmem]
          exact ih hn htaken hline
        · have hblank : b.get p = .blank := not_not.mp (mt (htaken p hp).mpr hmem)
          have hkey : key ⟨b, 0⟩ c = ⟨b.set p .x, 1⟩ := by simp [key, hsquare, hblank]
          have hless := b.blanks_set_lt hp hblank (show Mark.x ≠ .blank by decide)
          -- the squares that are empty bound the marks of X that can follow
          obtain ⟨m, rfl⟩ := Nat.exists_eq_add_of_lt (Nat.lt_of_lt_of_le hless hn)
          rw [hkey]
          simp only [if_neg hmem]
          rw [wins_answers hverdict hp hblank]
          refine beaten_answer fun o hline' => ih ?_ ?_ hline'
          · have hle := (b.set p .x).blanks_set_le o (show Mark.o ≠ .blank by decide)
            omega
          · exact taken_set htaken p o

/-- The same from the empty board, where the lines of play are the twelve. -/
theorem beaten_start (keys : List UInt8) :
    Beaten (⟨.start, 0⟩, keys) ↔ ∃ play ∈ winningPlays, follows [] play keys = true := by
  have hblank : ∀ p < 9, Board.start.get p = .blank := by decide
  rw [← wins_start]
  exact beaten_follows (by decide) (fun p hp => by simp [hblank p hp]) (by decide) keys

/-- **Tic-tac-toe.**  A board on which X owns a line comes up for the keys that follow one of the twelve
lines of play, and for no others. -/
theorem unbeaten_iff (keys : List UInt8) :
    (∀ s, Visits keys s → ¬ s.b.HasLine .x) ↔ ∀ play ∈ winningPlays, follows [] play keys = false := by
  constructor
  · intro h play hplay
    by_contra hfollows
    obtain ⟨⟨s, rest⟩, hreach, hline⟩ :=
      (beaten_start keys).mpr ⟨play, hplay, by simpa using hfollows⟩
    exact h s ⟨rest, hreach⟩ hline
  · intro h s hvisit hline
    obtain ⟨rest, hreach⟩ := hvisit
    obtain ⟨play, hplay, hfollows⟩ := (beaten_start keys).mp ⟨(s, rest), hreach, hline⟩
    rw [h play hplay] at hfollows
    cases hfollows

/-- One, eight, seven and four. -/
theorem not_unbeatable : ¬ ∀ keys s, Visits keys s → ¬ s.b.HasLine .x := by
  intro h
  have hplay : [0, 4, 7, 2, 6, 8, 3] ∈ winningPlays := by decide
  have hkeys : follows [] [0, 4, 7, 2, 6, 8, 3] (ascii "1874") = true := by decide
  obtain ⟨⟨s, rest⟩, hreach, hline⟩ := (beaten_start (ascii "1874")).mpr ⟨_, hplay, hkeys⟩
  exact h (ascii "1874") s ⟨rest, hreach⟩ hline

end TicTacToe

end MyMisu
