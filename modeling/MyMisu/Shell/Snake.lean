import MyMisu.Keyboard.State

/-!
# Snake

`cmd_snake`: between two moves any number of keys is read, and a key counts unless it is opposite to
the direction the snake would take now.  The direction of the last move is not looked at, so two keys
in one waiting period can turn the head back on the body.
-/

namespace MyMisu

def snakeW : ℤ := 40
def snakeH : ℤ := 18
def snakeMax : ℕ := 200

/-- `dir`, from 0 on. -/
inductive Direction
  | up | down | left | right
  deriving DecidableEq

namespace Direction

def opposite : Direction → Direction
  | up => down
  | down => up
  | left => right
  | right => left

def vertical : Direction → Bool
  | up | down => true
  | left | right => false

/-- The direction after an arrow key. -/
def turn (d a : Direction) : Direction := if a = d.opposite then d else a

/-- What a move adds to the coordinates of the head. -/
def vector : Direction → ℤ × ℤ
  | up => (0, -1)
  | down => (0, 1)
  | left => (-1, 0)
  | right => (1, 0)

end Direction

open Direction

/-- The variables of `cmd_snake`; segments from `slen` on hold what was there before. -/
structure Snake where
  sx : ℕ → ℤ
  sy : ℕ → ℤ
  slen : ℕ
  slen_le : slen ≤ snakeMax
  dir : Direction
  fx : ℤ
  fy : ℤ
  score : ℤ
  gameOver : Bool

namespace Snake

def head (s : Snake) : ℤ × ℤ := (s.sx 0, s.sy 0)

/-- `fx=(timer_get_ticks()%(SNAKE_W-2))+1;fy=(timer_get_ticks()/7%(SNAKE_H-2))+1;` -/
def placeFood (s : Snake) (ticks : ℕ × ℕ) : Snake :=
  { s with fx := ticks.1 % (snakeW - 2) + 1, fy := (ticks.2 / 7 : ℕ) % (snakeH - 2) + 1 }

/-- The variables before the first waiting period, with the arrays as they are found. -/
def start (sx sy : ℕ → ℤ) (ticks : ℕ × ℕ) : Snake :=
  placeFood {
    sx := fun i => if i < 3 then snakeW / 2 - i else sx i
    sy := fun i => if i < 3 then snakeH / 2 else sy i
    slen := 3
    slen_le := by decide
    dir := .right
    fx := 0
    fy := 0
    score := 0
    gameOver := false } ticks

/-- One key of a waiting period. -/
def key (s : Snake) (c : UInt8) : Snake :=
  if c = keyUp ∧ s.dir ≠ .down then { s with dir := .up }
  else if c = keyDown ∧ s.dir ≠ .up then { s with dir := .down }
  else if c = keyLeft ∧ s.dir ≠ .right then { s with dir := .left }
  else if c = keyRight ∧ s.dir ≠ .left then { s with dir := .right }
  else if c = keyEsc then { s with gameOver := true }
  else s

/-- A waiting period, which escape ends. -/
def wait (s : Snake) : List UInt8 → Snake
  | [] => s
  | c :: keys => if (s.key c).gameOver then s.key c else wait (s.key c) keys

/-- `for(int i=slen-1;i>0;i--)a[i]=a[i-1];` -/
def shift (a : ℕ → ℤ) : ℕ → ℕ → ℤ
  | 0 => a
  | i + 1 => shift (Function.update a (i + 1) (a i)) i

/-- The segments follow each other, the head takes a step. -/
def advance (s : Snake) : Snake :=
  let sx := shift s.sx (s.slen - 1)
  let sy := shift s.sy (s.slen - 1)
  { s with
    sx := Function.update sx 0 (sx 0 + s.dir.vector.1)
    sy := Function.update sy 0 (sy 0 + s.dir.vector.2) }

/-- The head is at the border or at another segment. -/
def crashed (s : Snake) : Bool :=
  (s.sx 0 ≤ 0 ∨ s.sx 0 ≥ snakeW - 1 ∨ s.sy 0 ≤ 0 ∨ s.sy 0 ≥ snakeH - 1) ∨
    ∃ i < s.slen, 1 ≤ i ∧ s.sx 0 = s.sx i ∧ s.sy 0 = s.sy i

/-- `score+=10;if(slen<SNAKE_MAX)slen++;`, and new food. -/
def eat (s : Snake) (ticks : ℕ × ℕ) : Snake :=
  placeFood { s with
    score := s.score + 10
    slen := if s.slen < snakeMax then s.slen + 1 else s.slen
    slen_le := by
      have hle := s.slen_le
      split <;> omega } ticks

/-- What follows a waiting period. -/
def move (s : Snake) (ticks : ℕ × ℕ) : Snake :=
  let s := s.advance
  let s := { s with gameOver := s.crashed }
  if s.sx 0 = s.fx ∧ s.sy 0 = s.fy then s.eat ticks else s

end Snake

/-- A waiting period: the keys read in it, and the ticks that food would be placed by after it. -/
structure SnakePeriod where
  keys : List UInt8
  ticks : ℕ × ℕ

namespace Snake

/-- A round of the loop. -/
def round (s : Snake) (p : SnakePeriod) : Snake :=
  if s.gameOver then s
  else
    let s := s.wait p.keys
    if s.gameOver then s else s.move p.ticks

/-- The loop, as far as there are periods. -/
def run (s : Snake) (ps : List SnakePeriod) : Snake := ps.foldl round s

/-- The moves of the head in the rounds of the loop. -/
def moves (s : Snake) : List SnakePeriod → List (ℤ × ℤ)
  | [] => []
  | p :: ps =>
    if s.gameOver ∨ (s.wait p.keys).gameOver then []
    else ((s.round p).head - s.head) :: moves (s.round p) ps

/-! ## What it should do -/

/-- No move takes back the one before. -/
def NeverTurnsBack (ms : List (ℤ × ℤ)) : Prop := ms.IsChain fun m m' => m' ≠ -m

end Snake

/-! ## Directions -/

namespace Direction

theorem vertical_turn (d a : Direction) : (d.turn a).vertical = a.vertical := by
  cases d <;> cases a <;> rfl

theorem vector_eq_neg_iff {d e : Direction} : e.vector = -d.vector ↔ e = d.opposite := by
  cases d <;> cases e <;> decide

/-- After some arrows, the direction lies as the last of them does. -/
theorem vertical_foldl (d : Direction) (as : List Direction) (a : Direction) :
    ((as ++ [a]).foldl turn d).vertical = a.vertical := by
  rw [List.foldl_append]
  exact vertical_turn _ _

/-- An arrow along the line of `d` turns round a snake that goes across it, and no other. -/
theorem turn_along {d e a : Direction} (ha : a.vertical = d.vertical) :
    e.turn a = d.opposite ↔ e = d.opposite ∨ a = d.opposite ∧ e.vertical ≠ d.vertical := by
  cases d <;> cases e <;> cases a <;> revert ha <;> decide

/-- The arrows of a waiting period that turn the snake round: behind the last arrow across its way the
first one is against it. -/
def Reverses (d : Direction) (as : List Direction) : Prop :=
  ∃ xs c ys, as = xs ++ c :: d.opposite :: ys ∧ c.vertical ≠ d.vertical ∧ ∀ a ∈ ys, a.vertical = d.vertical

theorem reverses_append (d : Direction) (as : List Direction) (a : Direction) :
    d.Reverses (as ++ [a]) ↔ a.vertical = d.vertical ∧
      (d.Reverses as ∨ a = d.opposite ∧ ∃ bs c, as = bs ++ [c] ∧ c.vertical ≠ d.vertical) := by
  have hopposite : d.opposite.vertical = d.vertical := by cases d <;> rfl
  constructor
  · rintro ⟨xs, c, ys, heq, hc, hys⟩
    rcases ys.eq_nil_or_concat' with rfl | ⟨zs, z, rfl⟩
    · -- the arrow against the way is the last
      have hsplit : as ++ [a] = (xs ++ [c]) ++ [d.opposite] := by rw [heq, List.append_assoc]; rfl
      obtain ⟨has, ha⟩ := List.append_inj' hsplit rfl
      obtain rfl := List.singleton_inj.mp ha
      exact ⟨hopposite, .inr ⟨rfl, xs, c, has, hc⟩⟩
    · have hsplit : as ++ [a] = (xs ++ c :: d.opposite :: zs) ++ [z] := by
        rw [heq, List.append_assoc]
        rfl
      obtain ⟨has, ha⟩ := List.append_inj' hsplit rfl
      obtain rfl := List.singleton_inj.mp ha
      rw [List.forall_mem_append] at hys
      exact ⟨hys.2 a (List.mem_singleton_self a), .inl ⟨xs, c, zs, has, hc, hys.1⟩⟩
  · rintro ⟨ha, ⟨xs, c, ys, rfl, hc, hys⟩ | ⟨rfl, bs, c, rfl, hc⟩⟩
    · refine ⟨xs, c, ys ++ [a], by simp, hc, ?_⟩
      rw [List.forall_mem_append, List.forall_mem_singleton]
      exact ⟨hys, ha⟩
    · exact ⟨bs, c, [], by simp, hc, List.forall_mem_nil _⟩

/-- A snake that goes across its first way has been turned by the last arrow. -/
theorem vertical_foldl_ne_iff (d : Direction) (as : List Direction) :
    (as.foldl turn d).vertical ≠ d.vertical ↔ ∃ bs c, as = bs ++ [c] ∧ c.vertical ≠ d.vertical := by
  rcases as.eq_nil_or_concat' with rfl | ⟨bs, c, rfl⟩
  · simp
  · rw [vertical_foldl]
    constructor
    · exact fun hc => ⟨bs, c, rfl, hc⟩
    · rintro ⟨bs', c', heq, hc⟩
      obtain ⟨-, hlast⟩ := List.append_inj' heq rfl
      rwa [List.singleton_inj.mp hlast]

theorem foldl_turn_iff (d : Direction) (as : List Direction) :
    as.foldl turn d = d.opposite ↔ d.Reverses as := by
  induction as using List.reverseRecOn with
  | nil =>
    have hne : d ≠ d.opposite := by cases d <;> decide
    simp [Reverses, hne]
  | append_singleton as a ih =>
    rw [reverses_append, List.foldl_append, List.foldl_cons, List.foldl_nil]
    by_cases ha : a.vertical = d.vertical
    · rw [turn_along ha, ih, vertical_foldl_ne_iff, and_iff_right ha]
    · -- after an arrow across the way the snake goes across it
      have hturn := vertical_turn (as.foldl turn d) a
      refine iff_of_false (fun h => ha ?_) fun h => ha h.1
      rw [← hturn, h]
      cases d <;> rfl

end Direction

/-! ## A waiting period -/

namespace Snake

/-- The direction of an arrow key. -/
def arrow (c : UInt8) : Option Direction :=
  if c = keyUp then some .up
  else if c = keyDown then some .down
  else if c = keyLeft then some .left
  else if c = keyRight then some .right
  else none

theorem key_eq (s : Snake) {c : UInt8} (hc : c ≠ keyEsc) :
    s.key c = { s with dir := (arrow c).toList.foldl turn s.dir } := by
  -- no two of the keys are the same
  have hkeys : [keyUp, keyDown, keyLeft, keyRight].Nodup := by decide
  obtain ⟨sx, sy, slen, hle, dir, fx, fy, score, gameOver⟩ := s
  unfold key arrow
  split_ifs <;> cases dir <;> simp_all [turn, opposite]

/-- Without escape the arrows turn the snake one after the other. -/
theorem wait_eq {s : Snake} (hs : s.gameOver = false) {keys : List UInt8} (hkeys : keyEsc ∉ keys) :
    s.wait keys = { s with dir := (keys.filterMap arrow).foldl turn s.dir } := by
  induction keys generalizing s with
  | nil => rfl
  | cons c keys ih =>
    obtain ⟨hc, hrest⟩ := not_or.mp (mt List.mem_cons.mpr hkeys)
    have hkey := s.key_eq (Ne.symm hc)
    have hgo : (s.key c).gameOver = false := by rw [hkey, hs]
    rw [wait, if_neg (by simp [hgo]), ih hgo hrest, hkey]
    cases harrow : arrow c <;> simp [harrow]

theorem wait_esc {s : Snake} {keys : List UInt8} (hkeys : keyEsc ∈ keys) : (s.wait keys).gameOver = true := by
  induction keys generalizing s with
  | nil => cases hkeys
  | cons c keys ih =>
    rw [wait]
    split_ifs with hover
    · exact hover
    · rcases List.mem_cons.mp hkeys with rfl | hrest
      · exact absurd rfl hover
      · exact ih hrest

/-! ## A move -/

theorem shift_zero (a : ℕ → ℤ) (n : ℕ) : shift a n 0 = a 0 := by
  induction n generalizing a with
  | zero => rfl
  | succ n ih => rw [shift, ih, Function.update_of_ne (by omega)]

theorem head_advance (s : Snake) : s.advance.head = s.head + s.dir.vector := by
  unfold advance head
  simp only [Function.update_self, shift_zero]
  rfl

/-- A move takes the head one step on, in the direction the keys have left. -/
theorem move_spec (s : Snake) (ticks : ℕ × ℕ) :
    (s.move ticks).dir = s.dir ∧ (s.move ticks).head - s.head = s.dir.vector := by
  have hhead : (s.move ticks).head = s.advance.head := by
    unfold move
    simp only
    split_ifs <;> rfl
  have hdir : (s.move ticks).dir = s.dir := by
    unfold move
    simp only
    split_ifs <;> rfl
  rw [hhead, head_advance, add_sub_cancel_left]
  exact ⟨hdir, rfl⟩

/-! ## The rounds together -/

theorem round_over {s : Snake} (hs : s.gameOver = true) (p : SnakePeriod) : s.round p = s := by
  rw [round, if_pos hs]

theorem run_over {s : Snake} (hs : s.gameOver = true) (ps : List SnakePeriod) : s.run ps = s := by
  unfold run
  induction ps with
  | nil => rfl
  | cons p ps ih => rw [List.foldl_cons, round_over hs, ih]

theorem moves_over {s : Snake} (hs : s.gameOver = true) (ps : List SnakePeriod) : s.moves ps = [] := by
  cases ps with
  | nil => rfl
  | cons p ps => rw [moves, if_pos (.inl hs)]

/-- The keys of a waiting period turn the snake round, and no escape ends the game. -/
def TurnsRound (d : Direction) (keys : List UInt8) : Prop :=
  keyEsc ∉ keys ∧ d.Reverses (keys.filterMap arrow)

/-- No waiting period that the game gets to turns the snake round. -/
def Steady (s : Snake) (ps : List SnakePeriod) : Prop :=
  ∀ before p after, ps = before ++ p :: after → (s.run before).gameOver = false →
    ¬ TurnsRound (s.run before).dir p.keys

theorem steady_over {s : Snake} (hs : s.gameOver = true) (ps : List SnakePeriod) : s.Steady ps := by
  intro before p after _ hgo
  rw [run_over hs, hs] at hgo
  cases hgo

theorem steady_cons {s : Snake} (hs : s.gameOver = false) (p : SnakePeriod) (ps : List SnakePeriod) :
    s.Steady (p :: ps) ↔ ¬ TurnsRound s.dir p.keys ∧ (s.round p).Steady ps := by
  constructor
  · intro h
    -- the period itself has nothing before it
    refine ⟨h [] p ps rfl hs, fun before q after heq => ?_⟩
    exact h (p :: before) q after (by rw [heq, List.cons_append])
  · rintro ⟨hp, h⟩ before q after heq
    cases before with
    | nil =>
      obtain ⟨rfl, -⟩ := List.cons.inj heq
      exact fun _ => hp
    | cons r before =>
      obtain ⟨rfl, hrest⟩ := List.cons.inj heq
      exact h before q after hrest

/-- A round of a game that goes on: escape ends it without a move, or else the head moves as the arrows
say. -/
theorem round_cases {s : Snake} (hs : s.gameOver = false) (p : SnakePeriod) (ps : List SnakePeriod) :
    (keyEsc ∈ p.keys ∧ (s.round p).gameOver = true ∧ s.moves (p :: ps) = []) ∨
      (keyEsc ∉ p.keys ∧ (s.round p).dir = (p.keys.filterMap arrow).foldl turn s.dir ∧
        s.moves (p :: ps) = (s.round p).dir.vector :: (s.round p).moves ps) := by
  have hgo : ¬ s.gameOver = true := by simp [hs]
  by_cases hesc : keyEsc ∈ p.keys
  · have hover := wait_esc (s := s) hesc
    refine .inl ⟨hesc, ?_, ?_⟩
    · rw [round, if_neg hgo]
      simp [hover]
    · rw [moves, if_pos (.inr hover)]
  · have hwait := wait_eq hs hesc
    have hon : ¬ (s.wait p.keys).gameOver = true := by simp [hwait, hs]
    have hround : s.round p = (s.wait p.keys).move p.ticks := by
      rw [round, if_neg hgo]
      simp only [if_neg hon]
    obtain ⟨hdir, hstep⟩ := (s.wait p.keys).move_spec p.ticks
    have hhead : (s.wait p.keys).head = s.head := by rw [hwait]; rfl
    refine .inr ⟨hesc, ?_, ?_⟩
    · rw [hround, hdir, hwait]
    · rw [moves, if_neg (not_or.mpr ⟨hgo, hon⟩), hround, hdir, ← hhead, hstep]

/-- Behind a move in the direction the snake has, no move takes back the one before as long as no waiting
period turns it round. -/
theorem neverTurnsBack_iff (s : Snake) (ps : List SnakePeriod) :
    NeverTurnsBack (s.dir.vector :: s.moves ps) ↔ s.Steady ps := by
  induction ps generalizing s with
  | nil => simp [NeverTurnsBack, moves, Steady]
  | cons p ps ih =>
    cases hs : s.gameOver with
    | true =>
      rw [moves_over hs]
      exact iff_of_true (List.isChain_singleton _) (steady_over hs _)
    | false =>
      rw [steady_cons hs]
      rcases round_cases hs p ps with ⟨hesc, hover, hmoves⟩ | ⟨hesc, hdir, hmoves⟩
      · rw [hmoves]
        exact iff_of_true (List.isChain_singleton _) ⟨fun h => h.1 hesc, steady_over hover ps⟩
      · -- the move takes back the one before if the period has turned the snake round
        rw [hmoves, NeverTurnsBack, List.isChain_cons_cons, ← ih, NeverTurnsBack, Ne, vector_eq_neg_iff,
          hdir, foldl_turn_iff, TurnsRound, and_iff_right hesc]

/-- After the first round, a game is steady when it is so in all rounds but the first. -/
theorem steady_round_iff (s : Snake) (p : SnakePeriod) (ps : List SnakePeriod) :
    (s.round p).Steady ps ↔
      ∀ before q after, p :: ps = before ++ q :: after → before ≠ [] → (s.run before).gameOver = false →
        ¬ TurnsRound (s.run before).dir q.keys := by
  constructor
  · intro h before q after heq hne
    obtain ⟨r, before, rfl⟩ := List.exists_cons_of_ne_nil hne
    obtain ⟨rfl, hrest⟩ := List.cons.inj heq
    exact h before q after hrest
  · intro h before q after heq
    exact h (p :: before) q after (by rw [heq, List.cons_append]) (List.cons_ne_nil _ _)

/-- **The snake** turns back in a game just when, after its first move, there is a waiting period in whose
keys the first arrow behind the last one across its way is the arrow against it. -/
theorem snake_neverTurnsBack_iff (sx sy : ℕ → ℤ) (ticks : ℕ × ℕ) (ps : List SnakePeriod) :
    NeverTurnsBack ((start sx sy ticks).moves ps) ↔
      ∀ before p after, ps = before ++ p :: after → before ≠ [] →
        ((start sx sy ticks).run before).gameOver = false →
          ¬ TurnsRound ((start sx sy ticks).run before).dir p.keys := by
  cases ps with
  | nil => simp [NeverTurnsBack, moves]
  | cons p ps =>
    rw [← steady_round_iff]
    have hs : (start sx sy ticks).gameOver = false := rfl
    rcases round_cases hs p ps with ⟨-, hover, hmoves⟩ | ⟨-, -, hmoves⟩
    · rw [hmoves]
      exact iff_of_true List.isChain_nil (steady_over hover ps)
    · rw [hmoves]
      exact neverTurnsBack_iff _ ps

/-- Up and left in one waiting period, while the snake goes to the right. -/
theorem snake_turnsBack : ¬ ∀ sx sy ticks ps, NeverTurnsBack ((start sx sy ticks).moves ps) := by
  intro h
  have hback := h 0 0 (0, 0) [⟨[], (0, 0)⟩, ⟨[keyUp, keyLeft], (0, 0)⟩]
  have hmoves : (start 0 0 (0, 0)).moves [⟨[], (0, 0)⟩, ⟨[keyUp, keyLeft], (0, 0)⟩] =
      [(1, 0), (-1, 0)] := by
    decide +kernel
  rw [hmoves, NeverTurnsBack, List.isChain_pair] at hback
  exact hback (by decide)

end Snake

end MyMisu
