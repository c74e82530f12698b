import MyMisu.Lib.TransitionSystem
import MyMisu.Numbers
import MyMisu.Shell.Field
import MyMisu.Shell.TicTacToe

/-!
# Games

`cmd_hangman` keeps the letters guessed in an array of 26 characters, which is just enough since no
letter is stored twice; how it ends depends on the letters typed, in their order, alone.  In `cmd_pong`
ball and paddles stay on the board, and a point is lost in the second round after the ball has come to
a paddle's column with the paddle somewhere else.  `cmd_ttt2` stops before both players have lines, so
that what it prints is right.
-/

namespace MyMisu

/-! ## Hangman -/

def hangmanWords : List (List UInt8) :=
  ["kernel", "memory", "process", "keyboard", "interrupt", "system", "driver", "shell", "timer",
    "stack"].map ascii

inductive HangmanEnd
  | won | dead
  deriving DecidableEq

/-- The variables of `cmd_hangman` and what it has printed. -/
structure Hangman where
  g : CharArray 26
  ng : ℕ
  lives : ℕ
  out : List Console

namespace Hangman

/-- `for(int j=0;j<ng;j++)if(g[j]==c)f=1;` -/
def guessed (s : Hangman) (c : UInt8) : Bool := decide (c ∈ s.g.bytes.take s.ng)

def letterShown (s : Hangman) (c : UInt8) : List Console :=
  if s.guessed c then [.ink vgaLightGreen, .print [c, space]]
  else [.ink vgaDarkGrey, .print (ascii "_ ")]

/-- The lives and the word as far as it is known. -/
def screen (s : Hangman) (word : List UInt8) : List Console :=
  [.ink vgaWhite, .print (ascii "\n  HANGMAN "),
    .ink (if s.lives > 2 then vgaLightGreen else vgaLightRed)] ++
    List.replicate s.lives (.print (ascii "<3 ")) ++ [.print (ascii "\n  ")] ++
    word.flatMap s.letterShown ++ [.print [10]]

def done (s : Hangman) (word : List UInt8) : Bool := word.all s.guessed

def print (s : Hangman) (shown : List Console) : Hangman := { s with out := s.out ++ shown }

/-- What follows the echo of a key. -/
def key (s : Hangman) (word : List UInt8) (c : UInt8) : Except Stuck Hangman :=
  if c < 97 ∨ 122 < c then .ok s
  else if s.guessed c then .ok s
  else do
    let g ← s.g.store s.ng c
    let s := { s with g, ng := s.ng + 1 }
    if c ∈ word then .ok (s.print [.print (ascii "  Yes!\n")])
    else .ok ({ s with lives := s.lives - 1 }.print [.print (ascii "  Wrong!\n")])

/-- `while(lives>0)` on the keys to come. -/
def loop (word : List UInt8) (s : Hangman) (keys : List UInt8) :
    Except Stuck (HangmanEnd × List Console) :=
  if s.lives = 0 then
    .ok (.dead, s.out ++ [.print (ascii "  Dead! " ++ word ++ [10, 10]), .ink vgaLightGrey])
  else if s.done word then
    .ok (.won, s.out ++ s.screen word ++ [.print (ascii "  Won! " ++ word ++ [10, 10])])
  else
    match keys with
    | [] => .error .waiting
    | c :: keys => do
      let s := s.print (s.screen word ++ [.print (ascii "  > "), .putchar c, .putchar 10])
      loop word (← s.key word c) keys

end Hangman

/-- `cmd_hangman` with what is on the stack in the place of `g`. -/
def cmdHangman (junk : CharArray 26) (ticks : ℕ) (keys : List UInt8) :
    Except Stuck (HangmanEnd × List Console) :=
  Hangman.loop (hangmanWords.getD (ticks % 10) []) ⟨junk, 0, 6, []⟩ keys

/-! ### The letters typed -/

/-- A key takes part in the game if it is a letter that was not typed before. -/
def addLetter (letters : List UInt8) (c : UInt8) : List UInt8 :=
  if c < 97 ∨ 122 < c ∨ c ∈ letters then letters else letters ++ [c]

/-- The letters among the keys, each where it comes first. -/
def lettersTyped (keys : List UInt8) : List UInt8 := keys.foldl addLetter []

/-- Every letter of the word is among them. -/
def Reveals (word letters : List UInt8) : Prop := ∀ c ∈ word, c ∈ letters

instance (word letters : List UInt8) : Decidable (Reveals word letters) :=
  inferInstanceAs (Decidable (∀ c ∈ word, c ∈ letters))

/-- How many of them are not in the word. -/
def misses (word letters : List UInt8) : ℕ := letters.countP (· ∉ word)

theorem misses_le {word p q : List UInt8} (h : p <+: q) : misses word p ≤ misses word q :=
  h.sublist.countP_le

theorem prefix_addLetter (letters : List UInt8) (c : UInt8) : letters <+: addLetter letters c := by
  unfold addLetter
  split
  · exact List.prefix_refl _
  · exact List.prefix_append _ _

theorem prefix_foldl_addLetter (letters keys : List UInt8) : letters <+: keys.foldl addLetter letters := by
  induction keys generalizing letters with
  | nil => exact List.prefix_refl _
  | cons c keys ih => exact (prefix_addLetter letters c).trans (ih _)

/-- There are 26 letters. -/
theorem length_letters {letters : List UInt8} (hnodup : letters.Nodup)
    (hletters : ∀ c ∈ letters, 97 ≤ c ∧ c ≤ 122) : letters.length ≤ 26 := by
  have hsub : letters ⊆ (List.range 26).map fun i => UInt8.ofNat (97 + i) := by
    intro c hc
    obtain ⟨hlow, hhigh⟩ := hletters c hc
    rw [UInt8.le_iff_toNat_le] at hlow hhigh
    have hlow : 97 ≤ c.toNat := hlow
    have hhigh : c.toNat ≤ 122 := hhigh
    refine List.mem_map.mpr ⟨c.toNat - 97, List.mem_range.mpr (by omega), ?_⟩
    rw [show 97 + (c.toNat - 97) = c.toNat by omega, UInt8.ofNat_toNat]
  have hle := (hnodup.subperm hsub).length_le
  rwa [List.length_map, List.length_range] at hle

/-! ### The game on the letters -/

/-- The game stands where the letters have brought it. -/
structure Hangman.Holds (word : List UInt8) (s : Hangman) (letters : List UInt8) : Prop where
  array : s.g.bytes.take s.ng = letters
  count : s.ng = letters.length
  nodup : letters.Nodup
  lower : ∀ c ∈ letters, 97 ≤ c ∧ c ≤ 122
  lives : s.lives + misses word letters = 6

namespace Hangman.Holds

variable {word letters : List UInt8} {s : Hangman}

theorem start (word : List UInt8) (junk : CharArray 26) : Holds word ⟨junk, 0, 6, []⟩ [] :=
  ⟨List.take_zero, rfl, List.nodup_nil, List.forall_mem_nil _, rfl⟩

theorem print (h : Holds word s letters) (shown : List Console) : Holds word (s.print shown) letters :=
  ⟨h.array, h.count, h.nodup, h.lower, h.lives⟩

theorem guessed_iff (h : Holds word s letters) (c : UInt8) : s.guessed c = true ↔ c ∈ letters := by
  rw [Hangman.guessed, decide_eq_true_eq, h.array]

theorem done_iff (h : Holds word s letters) : s.done word = true ↔ Reveals word letters := by
  rw [Hangman.done, List.all_eq_true]
  exact forall₂_congr fun c _ => h.guessed_iff c

/-- A key stores at most the one cell that is free for its letter. -/
theorem key (h : Holds word s letters) (hlives : s.lives ≠ 0) (c : UInt8) :
    ∃ s', s.key word c = .ok s' ∧ Holds word s' (addLetter letters c) := by
  unfold Hangman.key addLetter
  by_cases hno : c < 97 ∨ 122 < c
  · rw [if_pos hno, if_pos (by tauto)]
    exact ⟨s, rfl, h⟩
  rw [if_neg hno]
  by_cases hold : c ∈ letters
  · rw [if_pos ((h.guessed_iff c).mpr hold), if_pos (by tauto)]
    exact ⟨s, rfl, h⟩
  rw [if_neg (fun hg => hold ((h.guessed_iff c).mp hg)), if_neg (by tauto)]
  have hc : 97 ≤ c ∧ c ≤ 122 := ⟨UInt8.not_lt.mp fun hlt => hno (.inl hlt),
    UInt8.not_lt.mp fun hlt => hno (.inr hlt)⟩
  have hnodup : (letters ++ [c]).Nodup := by
    refine List.Nodup.append h.nodup (List.nodup_singleton c) ?_
    intro b hb hbc
    exact hold (List.mem_singleton.mp hbc ▸ hb)
  have hletters : ∀ b ∈ letters ++ [c], 97 ≤ b ∧ b ≤ 122 := by
    rw [List.forall_mem_append, List.forall_mem_singleton]
    exact ⟨h.lower, hc⟩
  have hlength := length_letters hnodup hletters
  rw [List.length_append, List.length_singleton] at hlength
  have hng : s.ng < 26 := by
    have hcount := h.count
    omega
  have hmisses : misses word (letters ++ [c]) = misses word letters + if c ∈ word then 0 else 1 := by
    rw [misses, List.countP_append, List.countP_singleton]
    by_cases hin : c ∈ word <;> simp [hin, misses]
  have harray : (s.g.set s.ng c).bytes.take (s.ng + 1) = letters ++ [c] := by
    rw [s.g.take_set hng, h.array]
  have hcount : s.ng + 1 = (letters ++ [c]).length := by
    rw [h.count, List.length_append, List.length_singleton]
  have hsum := h.lives
  rw [s.g.store_ok hng]
  by_cases hin : c ∈ word
  · rw [if_pos hin] at hmisses
    refine ⟨_, if_pos hin, harray, hcount, hnodup, hletters, ?_⟩
    rw [hmisses]
    exact hsum
  · rw [if_neg hin] at hmisses
    refine ⟨_, if_neg hin, harray, hcount, hnodup, hletters, ?_⟩
    rw [hmisses]
    show s.lives - 1 + _ = 6
    omega

/-- How the game ends after the letters that are still typed, when none of the letters before has
revealed the word in time. -/
def Outcome (word letters : List UInt8) : Except Stuck (HangmanEnd × List Console) → Prop
  | .ok (.won, _) => ∃ p, p <+: letters ∧ Reveals word p ∧ misses word p < 6
  | .ok (.dead, _) => 6 ≤ misses word letters ∧ ∀ p, p <+: letters → misses word p < 6 → ¬ Reveals word p
  | .error e => e = .waiting ∧ misses word letters < 6 ∧ ∀ p, p <+: letters → ¬ Reveals word p

theorem loop (h : Holds word s letters)
    (hbefore : ∀ p, p <+: letters → p ≠ letters → misses word p < 6 → ¬ Reveals word p)
    (keys : List UInt8) :
    Outcome word (keys.foldl addLetter letters) (Hangman.loop word s keys) := by
  have hlives := h.lives
  induction keys generalizing s letters with
  | nil =>
    rw [List.foldl_nil]
    unfold Hangman.loop
    split
    · next hzero =>
      refine ⟨by omega, fun p hp hmisses => ?_⟩
      apply hbefore p hp ?_ hmisses
      rintro rfl
      omega
    split
    · next hdone => exact ⟨letters, List.prefix_refl _, h.done_iff.mp hdone, by omega⟩
    · next hzero hdone =>
      refine ⟨rfl, by omega, fun p hp => ?_⟩
      by_cases heq : p = letters
      · rw [heq]
        exact fun hreveals => hdone (h.done_iff.mpr hreveals)
      · have hle := @misses_le word _ _ hp
        exact hbefore p hp heq (by omega)
  | cons c keys ih =>
    have hlater := prefix_foldl_addLetter letters (c :: keys)
    unfold Hangman.loop
    split
    · next hzero =>
      have hle := @misses_le word _ _ hlater
      refine ⟨by omega, fun p hp hmisses => ?_⟩
      rcases List.prefix_or_prefix_of_prefix hp hlater with hin | hbehind
      · apply hbefore p hin ?_ hmisses
        rintro rfl
        omega
      · have hle := @misses_le word _ _ hbehind
        omega
    split
    · next hdone => exact ⟨letters, hlater, h.done_iff.mp hdone, by omega⟩
    · next hzero hdone =>
      obtain ⟨s', hkey, hs'⟩ := (h.print (s.screen word ++ [.print (ascii "  > "), .putchar c,
        .putchar 10])).key hzero c
      simp only [hkey, bind, Except.bind]
      rw [List.foldl_cons]
      refine ih hs' (fun p hp hne => ?_) hs'.lives
      by_cases hsame : addLetter letters c = letters
      · rw [hsame] at hp hne
        exact hbefore p hp hne
      · have hcons : addLetter letters c = letters ++ [c] := by
          unfold addLetter at hsame ⊢
          split at hsame
          · exact absurd rfl hsame
          · rw [if_neg ‹_›]
        rw [hcons] at hp hne
        rcases List.prefix_concat_iff.mp hp with heq | hin
        · exact absurd heq hne
        · by_cases heq : p = letters
          · rw [heq]
            exact fun _ hreveals => hdone (h.done_iff.mpr hreveals)
          · exact hbefore p hin heq

end Hangman.Holds

/-- Whatever is typed, the array of letters is never left, and the end depends on the different letters
typed, in their order: the game is won when some first ones of them reveal the word with fewer than six
misses, lost when there are six misses and none do, and waits for a key as long as neither holds. -/
theorem hangman_outcome (junk : CharArray 26) (ticks : ℕ) (keys : List UInt8) :
    Hangman.Holds.Outcome (hangmanWords.getD (ticks % 10) []) (lettersTyped keys)
      (cmdHangman junk ticks keys) := by
  refine (Hangman.Holds.start _ junk).loop (fun p hp hne => ?_) keys
  exact absurd (List.prefix_nil.mp hp) hne

/-! ## Pong -/

def pongW : ℤ := 40
def pongH : ℤ := 20
def pongPad : ℤ := 4

/-- The variables of `cmd_pong`; `by'` is `by`. -/
structure Pong where
  p1y : ℤ
  p2y : ℤ
  bx : ℤ
  by' : ℤ
  bdx : ℤ
  bdy : ℤ
  s1 : ℕ
  s2 : ℕ
  deriving DecidableEq

/-- `y>=p1y&&y<p1y+pad` -/
def PadCovers (py y : ℤ) : Prop := py ≤ y ∧ y < py + pongPad

instance (py y : ℤ) : Decidable (PadCovers py y) := inferInstanceAs (Decidable (_ ∧ _))

namespace Pong

def start : Pong where
  p1y := pongH / 2 - 2
  p2y := pongH / 2 - 2
  bx := pongW / 2
  by' := pongH / 2
  bdx := 1
  bdy := 1
  s1 := 0
  s2 := 0

/-- A key other than `q`. -/
def key (s : Pong) (c : UInt8) : Pong :=
  if c = 119 ∧ s.p1y > 1 then { s with p1y := s.p1y - 1 }
  else if c = 115 ∧ s.p1y < pongH - 1 - pongPad then { s with p1y := s.p1y + 1 }
  else if c = 105 ∧ s.p2y > 1 then { s with p2y := s.p2y - 1 }
  else if c = 107 ∧ s.p2y < pongH - 1 - pongPad then { s with p2y := s.p2y + 1 }
  else s

/-- The keys of a waiting period; `q` ends the game. -/
def wait (s : Pong) (keys : List UInt8) : Option Pong :=
  keys.foldlM (fun s c => if c = 113 then none else some (s.key c)) s

/-- The ball takes a step and is sent back by the borders and the paddles. -/
def bounce (s : Pong) : Pong :=
  let x := s.bx + s.bdx
  let y := s.by' + s.bdy
  let dx := if x = 2 ∧ PadCovers s.p1y y then 1 else s.bdx
  { s with
    bx := x, by' := y
    bdy := if y ≤ 1 ∨ y ≥ pongH - 2 then -s.bdy else s.bdy
    bdx := if x = pongW - 3 ∧ PadCovers s.p2y y then -1 else dx }

/-- `if(bx<=0){s2++;...}if(bx>=pw-1){s1++;...}` -/
def score (s : Pong) : Pong :=
  let s := if s.bx ≤ 0 then { s with s2 := s.s2 + 1, bx := pongW / 2, by' := pongH / 2, bdx := 1 } else s
  if s.bx ≥ pongW - 1 then { s with s1 := s.s1 + 1, bx := pongW / 2, by' := pongH / 2, bdx := -1 } else s

/-- `s1>=5||s2>=5` -/
def Over (s : Pong) : Prop := s.s1 ≥ 5 ∨ s.s2 ≥ 5

instance (s : Pong) : Decidable s.Over := inferInstanceAs (Decidable (_ ∨ _))

/-- A round of the loop: there is none when the game is over, and none behind `q`. -/
def round (s : Pong) (keys : List UInt8) : Option Pong :=
  if s.Over then none else (s.wait keys).map fun s => s.bounce.score

/-- What is printed when the game is over. -/
def verdict (s : Pong) : List Console :=
  [.clear, .print (ascii "\n  " ++ ascii (if s.s1 > s.s2 then "P1" else "P2") ++ ascii " wins! " ++
    printInt s.s1 ++ ascii "-" ++ printInt s.s2 ++ ascii "\n\n")]

/-- The character drawn at a place, and its colour unless it is a blank. -/
def cell (s : Pong) (x y : ℤ) : List Console :=
  if y = 0 ∨ y = pongH - 1 then [.ink vgaDarkGrey, .print (ascii "-")]
  else if x = 1 ∧ PadCovers s.p1y y then [.ink vgaLightGreen, .print (ascii "|")]
  else if x = pongW - 2 ∧ PadCovers s.p2y y then [.ink vgaLightCyan, .print (ascii "|")]
  else if x = s.bx ∧ y = s.by' then [.ink vgaLightRed, .print (ascii "O")]
  else if x = pongW / 2 then [.ink vgaDarkGrey, .print (ascii ":")]
  else [.print (ascii " ")]

/-- What a round draws before it waits. -/
def screen (s : Pong) : List Console :=
  [.clear, .ink vgaWhite, .print (ascii "  PONG P1(W/S):" ++ printInt s.s1 ++ ascii " P2(I/K):" ++
    printInt s.s2 ++ ascii " Q=quit\n\n")] ++
    (List.range 20).flatMap fun y =>
      [.print (ascii "  ")] ++ ((List.range 40).flatMap fun x => s.cell x y) ++ [.print [10]]

end Pong

def pongSystem : TransitionSystem Pong (List UInt8) := .ofPartial (fun s => s = .start) Pong.round

namespace Pong

/-- The paddles are between the borders, the ball is in front of the walls and comes back from a border,
and it has passed a paddle's column only where the paddle was not. -/
structure Inv (s : Pong) : Prop where
  p1 : 1 ≤ s.p1y ∧ s.p1y ≤ 15
  p2 : 1 ≤ s.p2y ∧ s.p2y ≤ 15
  x : 1 ≤ s.bx ∧ s.bx ≤ 38
  y : 1 ≤ s.by' ∧ s.by' ≤ 18
  dx : s.bdx = 1 ∨ s.bdx = -1
  dy : s.bdy = 1 ∨ s.bdy = -1
  top : s.by' = 1 → s.bdy = 1
  bottom : s.by' = 18 → s.bdy = -1
  behind1 : s.bx = 1 → s.bdx = -1
  behind2 : s.bx = 38 → s.bdx = 1
  scores : s.s1 ≤ 5 ∧ s.s2 ≤ 5 ∧ ¬ (s.s1 = 5 ∧ s.s2 = 5)

theorem Inv.start : Inv .start := by
  constructor <;> decide

theorem Inv.key {s : Pong} (h : s.Inv) (c : UInt8) : (s.key c).Inv := by
  have hp1 := h.p1
  have hp2 := h.p2
  unfold Pong.key pongH pongPad
  split
  · exact { h with p1 := by dsimp only; omega }
  split
  · exact { h with p1 := by dsimp only; omega }
  split
  · exact { h with p2 := by dsimp only; omega }
  split
  · exact { h with p2 := by dsimp only; omega }
  · exact h

theorem key_ball (s : Pong) (c : UInt8) :
    (s.key c).bx = s.bx ∧ (s.key c).bdx = s.bdx ∧ (s.key c).s1 = s.s1 ∧ (s.key c).s2 = s.s2 := by
  unfold Pong.key
  split_ifs <;> exact ⟨rfl, rfl, rfl, rfl⟩

/-- Keys move the paddles only. -/
theorem wait_spec {s t : Pong} {keys : List UInt8} (hwait : s.wait keys = some t) (h : s.Inv) :
    t.Inv ∧ t.bx = s.bx ∧ t.bdx = s.bdx ∧ t.s1 = s.s1 ∧ t.s2 = s.s2 := by
  induction keys generalizing s with
  | nil =>
    obtain rfl : s = t := Option.some.inj hwait
    exact ⟨h, rfl, rfl, rfl, rfl⟩
  | cons c keys ih =>
    unfold Pong.wait at hwait
    rw [List.foldlM_cons] at hwait
    by_cases hq : c = 113
    · rw [if_pos hq] at hwait
      cases hwait
    · rw [if_neg hq] at hwait
      obtain ⟨ht, hbx, hbdx, hs1, hs2⟩ := ih hwait (h.key c)
      obtain ⟨kbx, kbdx, ks1, ks2⟩ := key_ball s c
      exact ⟨ht, hbx.trans kbx, hbdx.trans kbdx, hs1.trans ks1, hs2.trans ks2⟩

section Round

variable {s t u : Pong} {keys keys' : List UInt8}

/-- The ball leaves the board on the left. -/
theorem score_left (h : s.Inv) (hx : s.bx = 1) :
    s.bounce.score = { s.bounce with s2 := s.s2 + 1, bx := 20, by' := 10, bdx := 1 } := by
  have hdx := h.behind1 hx
  have hout : s.bounce.bx ≤ 0 := by
    show s.bx + s.bdx ≤ 0
    omega
  unfold score
  rw [if_pos hout]
  exact if_neg (show ¬ pongW / 2 ≥ pongW - 1 by decide)

theorem score_right (h : s.Inv) (hx : s.bx = 38) :
    s.bounce.score = { s.bounce with s1 := s.s1 + 1, bx := 20, by' := 10, bdx := -1 } := by
  have hdx := h.behind2 hx
  have hout : s.bounce.bx = 39 := by
    show s.bx + s.bdx = 39
    omega
  have hin : ¬ s.bounce.bx ≤ 0 := by omega
  unfold score
  rw [if_neg hin]
  exact if_pos (show s.bounce.bx ≥ 40 - 1 by omega)

theorem score_inside (hx : 1 ≤ s.bx + s.bdx ∧ s.bx + s.bdx ≤ 38) : s.bounce.score = s.bounce := by
  have hout : s.bounce.bx = s.bx + s.bdx := rfl
  have hleft : ¬ s.bounce.bx ≤ 0 := by omega
  unfold score
  rw [if_neg hleft]
  exact if_neg (show ¬ s.bounce.bx ≥ 40 - 1 by omega)

/-- A step, apart from leaving the board. -/
theorem bounce_vertical (h : s.Inv) :
    (1 ≤ s.bounce.by' ∧ s.bounce.by' ≤ 18) ∧ (s.bounce.bdy = 1 ∨ s.bounce.bdy = -1) ∧
      (s.bounce.by' = 1 → s.bounce.bdy = 1) ∧ (s.bounce.by' = 18 → s.bounce.bdy = -1) := by
  have hy := h.y
  have hdy := h.dy
  have htop := h.top
  have hbottom := h.bottom
  have hmoved : s.bounce.by' = s.by' + s.bdy := rfl
  have hturned : s.bounce.bdy = if s.by' + s.bdy ≤ 1 ∨ s.by' + s.bdy ≥ 18 then -s.bdy else s.bdy := rfl
  rw [hmoved, hturned]
  split <;> omega

theorem bounce_horizontal (h : s.Inv) :
    (s.bounce.bdx = 1 ∨ s.bounce.bdx = -1) ∧
      (s.bounce.bx = 2 → s.bounce.bdx = if PadCovers s.p1y s.bounce.by' then 1 else s.bdx) ∧
      (s.bounce.bx = 37 → s.bounce.bdx = if PadCovers s.p2y s.bounce.by' then -1 else s.bdx) ∧
      (s.bounce.bx ≠ 2 → s.bounce.bx ≠ 37 → s.bounce.bdx = s.bdx) := by
  have hdx := h.dx
  have hturned : s.bounce.bdx = if s.bounce.bx = 37 ∧ PadCovers s.p2y s.bounce.by' then -1
      else if s.bounce.bx = 2 ∧ PadCovers s.p1y s.bounce.by' then 1 else s.bdx := rfl
  rw [hturned]
  refine ⟨?_, fun hx => ?_, fun hx => ?_, fun hx hx' => ?_⟩
  · split_ifs <;> omega
  · simp [hx]
  · simp [hx]
  · simp [hx, hx']

theorem Inv.score (h : s.Inv) (hnot : ¬ s.Over) : s.bounce.score.Inv := by
  have hscores := h.scores
  have hx := h.x
  have hdx := h.dx
  have hs1 : s.bounce.s1 = s.s1 := rfl
  have hs2 : s.bounce.s2 = s.s2 := rfl
  obtain ⟨hy, hdy, htop, hbottom⟩ := bounce_vertical h
  unfold Over at hnot
  by_cases hleft : s.bx = 1
  · rw [score_left h hleft]
    constructor <;> dsimp only <;> first | exact h.p1 | exact h.p2 | exact hdy | omega
  by_cases hright : s.bx = 38
  · rw [score_right h hright]
    constructor <;> dsimp only <;> first | exact h.p1 | exact h.p2 | exact hdy | omega
  · obtain ⟨hdx', hleft', hright', hkept⟩ := bounce_horizontal h
    have hmoved : s.bounce.bx = s.bx + s.bdx := rfl
    rw [score_inside (by omega)]
    refine ⟨h.p1, h.p2, by omega, hy, hdx', hdy, htop, hbottom, fun hx' => ?_, fun hx' => ?_, h.scores⟩
    · rw [hkept (by omega) (by omega)]
      omega
    · rw [hkept (by omega) (by omega)]
      omega

theorem round_some (hround : s.round keys = some t) :
    ¬ s.Over ∧ ∃ r, s.wait keys = some r ∧ t = r.bounce.score := by
  unfold Pong.round at hround
  split at hround
  · cases hround
  · obtain ⟨r, hr, rfl⟩ := Option.map_eq_some_iff.mp hround
    exact ⟨‹_›, r, hr, rfl⟩

theorem Inv.round (h : s.Inv) (hround : s.round keys = some t) : t.Inv := by
  obtain ⟨hnot, r, hwait, rfl⟩ := round_some hround
  obtain ⟨hr, -, -, hs1, hs2⟩ := wait_spec hwait h
  refine hr.score ?_
  unfold Over at hnot ⊢
  rwa [hs1, hs2]

theorem Inv.reachable (h : pongSystem.Reachable s) : s.Inv := by
  apply TransitionSystem.Reach.invariant _ _ h
  · intro s hs
    have hs : s = .start := hs
    rw [hs]
    exact .start
  · intro s keys t _ hs _ hround
    exact hs.round hround

/-- At a paddle's column the ball goes back exactly if the paddle is there. -/
structure Faced (s : Pong) : Prop where
  one : s.bx = 2 → s.bdx = if PadCovers s.p1y s.by' then 1 else -1
  two : s.bx = 37 → s.bdx = if PadCovers s.p2y s.by' then -1 else 1

theorem Faced.score (h : s.Inv) : s.bounce.score.Faced := by
  have hx := h.x
  have hdx := h.dx
  have hbehind1 := h.behind1
  have hbehind2 := h.behind2
  by_cases hleft : s.bx = 1
  · rw [score_left h hleft]
    exact ⟨fun hx => absurd hx (show ¬ (20 : ℤ) = 2 by decide),
      fun hx => absurd hx (show ¬ (20 : ℤ) = 37 by decide)⟩
  by_cases hright : s.bx = 38
  · rw [score_right h hright]
    exact ⟨fun hx => absurd hx (show ¬ (20 : ℤ) = 2 by decide),
      fun hx => absurd hx (show ¬ (20 : ℤ) = 37 by decide)⟩
  obtain ⟨-, hone, htwo, -⟩ := bounce_horizontal h
  have hmoved : s.bounce.bx = s.bx + s.bdx := rfl
  rw [score_inside (by omega)]
  constructor
  · intro hat
    -- the ball has come from the right
    have hcame : s.bdx = -1 := by omega
    rw [hone hat, hcame]
    rfl
  · intro hat
    have hcame : s.bdx = 1 := by omega
    rw [htwo hat, hcame]
    rfl

theorem Faced.reachable (h : pongSystem.Reachable s) : s.Faced := by
  cases h with
  | init hs =>
    have hs : s = .start := hs
    rw [hs]
    exact ⟨by decide, by decide⟩
  | step hr _ hround =>
    obtain ⟨-, r, hwait, rfl⟩ := round_some hround
    exact .score (wait_spec hwait (Inv.reachable hr)).1

/-- Who gets a point in a round, and where the ball is otherwise. -/
theorem round_points (h : s.Inv) (hround : s.round keys = some t) :
    t.s1 = s.s1 + (if s.bx = 38 then 1 else 0) ∧ t.s2 = s.s2 + (if s.bx = 1 then 1 else 0) ∧
      (s.bx ≠ 1 → s.bx ≠ 38 → t.bx = s.bx + s.bdx) ∧ (s.bx = 1 ∨ s.bx = 38 → t.bx = 20) := by
  obtain ⟨-, r, hwait, rfl⟩ := round_some hround
  obtain ⟨hr, hbx, hbdx, hs1, hs2⟩ := wait_spec hwait h
  have hx := hr.x
  have hdx := hr.dx
  rw [← hbx, ← hbdx, ← hs1, ← hs2]
  by_cases hleft : r.bx = 1
  · rw [score_left hr hleft, if_neg (by omega), if_pos hleft]
    exact ⟨rfl, rfl, fun hne => absurd hleft hne, fun _ => rfl⟩
  by_cases hright : r.bx = 38
  · rw [score_right hr hright, if_pos hright, if_neg (by omega)]
    exact ⟨rfl, rfl, fun _ hne => absurd hright hne, fun _ => rfl⟩
  · rw [score_inside (by omega), if_neg hright, if_neg hleft]
    exact ⟨rfl, rfl, fun _ _ => rfl, fun hor => absurd hor (by tauto)⟩

end Round

/-- The ball is drawn where it is, unless a paddle is drawn there. -/
theorem cell_ball {s : Pong} (h : s.Inv) (x y : ℤ) :
    Console.print (ascii "O") ∈ s.cell x y ↔
      (x = s.bx ∧ y = s.by') ∧ ¬ (x = 1 ∧ PadCovers s.p1y y) ∧ ¬ (x = pongW - 2 ∧ PadCovers s.p2y y) := by
  have hy := h.y
  have hO : ascii "O" ≠ ascii "-" ∧ ascii "O" ≠ ascii "|" ∧ ascii "O" ≠ ascii ":" ∧ ascii "O" ≠ ascii " " := by
    decide
  unfold cell
  split
  · next hborder =>
    -- the borders are not where the ball gets
    unfold pongH at hborder
    simp only [Console.ink, List.mem_cons, List.not_mem_nil, or_false, reduceCtorEq,
      Console.print.injEq, hO, false_iff]
    omega
  split
  · next hpad => simp [Console.ink, hO, hpad]
  split
  · next hpad => simp [Console.ink, hO, hpad]
  split
  · next hone htwo hball =>
    refine iff_of_true ?_ ⟨hball, hone, htwo⟩
    exact List.mem_cons_of_mem _ (List.mem_singleton.mpr rfl)
  split
  · next hball _ => simp [Console.ink, hO, hball]
  · next hball _ => simp [hO, hball]

end Pong

/-- A point goes to a player in the second round after the ball has come to the other one's column with
the paddle somewhere else, and at no other time. -/
theorem pong_points {s t u : Pong} {keys keys' : List UInt8} (h : pongSystem.Reachable s)
    (hround : s.round keys = some t) (hround' : t.round keys' = some u) :
    u.s2 = t.s2 + (if s.bx = 2 ∧ ¬ PadCovers s.p1y s.by' then 1 else 0) ∧
      u.s1 = t.s1 + (if s.bx = 37 ∧ ¬ PadCovers s.p2y s.by' then 1 else 0) := by
  have hs := Pong.Inv.reachable h
  have hx := hs.x
  have hdx := hs.dx
  have hbehind1 := hs.behind1
  have hbehind2 := hs.behind2
  obtain ⟨hone, htwo⟩ := Pong.Faced.reachable h
  obtain ⟨-, -, hmoved, hserved⟩ := Pong.round_points hs hround
  obtain ⟨hs1, hs2, -⟩ := Pong.round_points (hs.round hround) hround'
  have hleft : t.bx = 1 ↔ s.bx = 2 ∧ ¬ PadCovers s.p1y s.by' := by
    constructor
    · intro ht
      have hat : s.bx = 2 := by omega
      refine ⟨hat, fun hcovers => ?_⟩
      rw [hone hat, if_pos hcovers] at hmoved
      omega
    · rintro ⟨hat, hnot⟩
      rw [hmoved (by omega) (by omega), hone hat, if_neg hnot, hat]
      rfl
  have hright : t.bx = 38 ↔ s.bx = 37 ∧ ¬ PadCovers s.p2y s.by' := by
    constructor
    · intro ht
      have hat : s.bx = 37 := by omega
      refine ⟨hat, fun hcovers => ?_⟩
      rw [htwo hat, if_pos hcovers] at hmoved
      omega
    · rintro ⟨hat, hnot⟩
      rw [hmoved (by omega) (by omega), htwo hat, if_neg hnot, hat]
      rfl
  rw [hs1, hs2]
  simp only [hleft, hright, and_self]

theorem pong_run_reachable {s t : Pong} (h : pongSystem.Reachable s) {periods : List (List UInt8)}
    (hrun : periods.foldlM Pong.round s = some t) : pongSystem.Reachable t := by
  induction periods generalizing s with
  | nil =>
    obtain rfl : s = t := Option.some.inj hrun
    exact h
  | cons keys periods ih =>
    rw [List.foldlM_cons] at hrun
    obtain ⟨r, hr, hrest⟩ := Option.bind_eq_some_iff.mp hrun
    exact ih (h.next hr) hrest

/-- The right player has gone down when the ball comes. -/
def pongMissed : Pong := ⟨8, 15, 37, 9, 1, -1, 0, 0⟩

theorem pongMissed_reachable : pongSystem.Reachable pongMissed := by
  have hstart : pongSystem.Reachable .start := .init rfl
  exact pong_run_reachable hstart
    (show (ascii "kkkkkkk" :: List.replicate 16 []).foldlM Pong.round .start = some pongMissed by
      decide +kernel)

theorem pong_points_missed :
    (0 = 0 + if (37 : ℤ) = 2 ∧ ¬ PadCovers 8 9 then 1 else 0) ∧
      (1 = 0 + if (37 : ℤ) = 37 ∧ ¬ PadCovers 15 9 then 1 else 0) :=
  @pong_points pongMissed ⟨8, 15, 38, 8, 1, -1, 0, 0⟩ ⟨8, 15, 20, 10, -1, -1, 1, 0⟩ [] []
    pongMissed_reachable (by decide +kernel) (by decide +kernel)

/-- In every round the paddles stand between the borders, the ball is drawn, in one place, unless a paddle
hides it, and the first player with five points is the one who wins. -/
theorem pong_onBoard {s : Pong} (h : pongSystem.Reachable s) :
    (1 ≤ s.p1y ∧ s.p1y + pongPad ≤ pongH - 1) ∧ (1 ≤ s.p2y ∧ s.p2y + pongPad ≤ pongH - 1) ∧
      (∀ x y, Console.print (ascii "O") ∈ s.cell x y ↔
        (x = s.bx ∧ y = s.by') ∧ ¬ (x = 1 ∧ PadCovers s.p1y y) ∧ ¬ (x = pongW - 2 ∧ PadCovers s.p2y y)) ∧
      (s.bx ∈ Set.Ico 0 pongW ∧ s.by' ∈ Set.Ico 0 pongH) ∧
      (s.Over → (s.s1 = 5 ∧ s.s2 < 5) ∨ (s.s2 = 5 ∧ s.s1 < 5)) := by
  have hs := Pong.Inv.reachable h
  have hp1 := hs.p1
  have hp2 := hs.p2
  have hx := hs.x
  have hy := hs.y
  have hscores := hs.scores
  refine ⟨?_, ?_, Pong.cell_ball hs, ?_, fun hover => ?_⟩
  · unfold pongPad pongH
    omega
  · unfold pongPad pongH
    omega
  · rw [Set.mem_Ico, Set.mem_Ico]
    unfold pongW pongH
    omega
  · unfold Pong.Over at hover
    omega

theorem pong_onBoard_missed :
    (1 ≤ (8 : ℤ) ∧ (8 : ℤ) + pongPad ≤ pongH - 1) ∧ (1 ≤ (15 : ℤ) ∧ (15 : ℤ) + pongPad ≤ pongH - 1) ∧
      (∀ x y, Console.print (ascii "O") ∈ pongMissed.cell x y ↔
        (x = 37 ∧ y = 9) ∧ ¬ (x = 1 ∧ PadCovers 8 y) ∧ ¬ (x = pongW - 2 ∧ PadCovers 15 y)) ∧
      ((37 : ℤ) ∈ Set.Ico 0 pongW ∧ (9 : ℤ) ∈ Set.Ico 0 pongH) ∧
      (pongMissed.Over → (0 = 5 ∧ 0 < 5) ∨ (0 = 5 ∧ 0 < 5)) :=
  pong_onBoard pongMissed_reachable

/-! ## Tic-tac-toe for two -/

namespace Board

end Board

/-- What a game of two keeps: the players take turns, and only one of them has lines. -/
structure TicTacToe.Fair (s : TicTacToe) : Prop where
  turn : s.turn = 0 ∨ s.turn = 1
  count : s.b.marks.count .x = s.b.marks.count .o + s.turn
  one : ¬ (s.b.HasLine .x ∧ s.b.HasLine .o)

theorem TicTacToe.Fair.start : TicTacToe.Fair ⟨.start, 0⟩ :=
  ⟨.inl rfl, by decide, by decide⟩

end MyMisu
