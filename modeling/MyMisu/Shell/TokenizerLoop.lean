import MyMisu.Lib.WhileLoop
import MyMisu.Shell.Arguments
import MyMisu.Shell.Tokenizer

/-!
# The tokenizer in its buffer

The loop of `execute_command` on the memory it reads and writes: three scans move one pointer, and the
last of them leaves a NUL behind each argument.  It does what `tokenize` says, which looks at the line
from the outside; what the arguments are is then a matter of the words of the line.
-/

namespace MyMisu

/-- A NUL at each of the places. -/
def storeNuls (mem : List UInt8) (nuls : List ℕ) : List UInt8 := nuls.foldl (fun mem i => mem.set i 0) mem

theorem ne_zero_of_spaces {spaces : List UInt8} (hspaces : ∀ b ∈ spaces, b = space) : ∀ b ∈ spaces, b ≠ 0 := by
  intro b hb
  rw [hspaces b hb]
  decide

theorem ne_zero_of_spaces_word {spaces word : List UInt8} (hspaces : ∀ b ∈ spaces, b = space)
    (hword : ∀ b ∈ word, b ≠ 0 ∧ b ≠ space) : ∀ b ∈ spaces ++ word, b ≠ 0 := by
  intro b hb
  rcases List.mem_append.mp hb with hb | hb
  · exact ne_zero_of_spaces hspaces b hb
  · exact (hword b hb).1

/-- The variables of the loop.  `nuls` are the places it has stored a NUL at, which the program does not
keep. -/
structure ArgScan where
  mem : List UInt8
  tok : ℕ
  argv : List ℕ
  nuls : List ℕ

namespace ArgScan

/-- `*tok` -/
def char (s : ArgScan) : UInt8 := s.mem.getD s.tok 0

/-- `tok++` -/
def advance (s : ArgScan) : ArgScan := { s with tok := s.tok + 1 }

def onChar (p : UInt8 → Bool) (s : ArgScan) : Bool := p s.char

/-- `while(p(*tok))tok++` -/
def skip (p : UInt8 → Bool) (fuel : ℕ) (s : ArgScan) : Option ArgScan :=
  whileLoop (onChar p) (some ∘ advance) fuel s

/-- `if(*tok){*tok='\0';tok++;}`; a store outside the memory does not return. -/
def terminate (s : ArgScan) : Option ArgScan :=
  if s.char = 0 then some s
  else if s.tok < s.mem.length then
    some { s with mem := s.mem.set s.tok 0, tok := s.tok + 1, nuls := s.nuls ++ [s.tok] }
  else none

/-- The body of the loop.  The `break` leaves it at a NUL, where the test of the loop ends it too. -/
def round (fuel : ℕ) (s : ArgScan) : Option ArgScan := do
  let s ← s.skip (· = space) fuel
  if s.char = 0 then some s
  else do
    let s ← { s with argv := s.argv ++ [s.tok] }.skip (fun c => c ≠ 0 ∧ c ≠ space) fuel
    s.terminate

/-- `while(*tok&&argc<MAX_ARGS)` -/
def more (s : ArgScan) : Bool := s.char ≠ 0 ∧ s.argv.length < maxArgs

/-! ## One round -/

theorem char_of_drop {s : ArgScan} {c : UInt8} {rest : List UInt8} (hmem : s.mem.drop s.tok = c :: rest) :
    s.char = c := by
  have hhead := congrArg List.head? hmem
  rw [List.head?_drop, List.head?_cons] at hhead
  unfold char
  rw [List.getD_eq_getElem?_getD, hhead, Option.getD_some]

theorem char_ne_zero {s : ArgScan} {xs ys : List UInt8} (hmem : s.mem.drop s.tok = xs ++ ys) (hne : xs ≠ [])
    (hxs : ∀ b ∈ xs, b ≠ 0) : s.char ≠ 0 := by
  obtain ⟨x, xs, rfl⟩ := List.exists_cons_of_ne_nil hne
  rw [char_of_drop hmem]
  exact hxs x List.mem_cons_self

theorem drop_advance {mem : List UInt8} {tok : ℕ} {xs ys : List UInt8} (hmem : mem.drop tok = xs ++ ys) :
    mem.drop (tok + xs.length) = ys := by
  rw [← List.drop_drop, hmem, List.drop_left]

/-- A scan goes over a run of characters it is for, up to the first other one. -/
theorem skip_run {p : UInt8 → Bool} {s : ArgScan} {run rest : List UInt8} {c : UInt8}
    (hrun : ∀ b ∈ run, p b = true) (hc : p c = false) (hmem : s.mem.drop s.tok = run ++ c :: rest)
    {fuel : ℕ} (hfuel : run.length < fuel) : s.skip p fuel = some { s with tok := s.tok + run.length } := by
  induction run generalizing s fuel with
  | nil =>
    obtain ⟨n, rfl⟩ := Nat.exists_eq_add_of_lt hfuel
    exact WhileLoop.exit (by rw [onChar, char_of_drop hmem, hc]) _
  | cons b run ih =>
    have ⟨hb, hrest⟩ := List.forall_mem_cons.mp hrun
    obtain ⟨n, rfl⟩ := Nat.exists_eq_add_of_lt hfuel
    have hnext : s.advance.mem.drop s.advance.tok = run ++ c :: rest :=
      drop_advance (show s.mem.drop s.tok = [b] ++ (run ++ c :: rest) from hmem)
    have hrun' := ih hrest hnext (show run.length < (b :: run).length + n by rw [List.length_cons]; omega)
    have htest : s.onChar p = true := by
      rw [onChar, char_of_drop hmem, hb]
    have hstep : (some ∘ advance) s = some s.advance := rfl
    calc s.skip p ((b :: run).length + n + 1)
        = s.advance.skip p ((b :: run).length + n) := WhileLoop.enter htest hstep _
      _ = some { s with tok := s.tok + 1 + run.length } := hrun'
      _ = some { s with tok := s.tok + (b :: run).length } := by
          rw [List.length_cons, Nat.add_right_comm, Nat.add_assoc]

section Round

variable {s : ArgScan} {spaces word rest : List UInt8} {fuel : ℕ}

theorem round_spaces (hspaces : ∀ b ∈ spaces, b = space) (hmem : s.mem.drop s.tok = spaces ++ 0 :: rest)
    (hfuel : spaces.length < fuel) : s.round fuel = some { s with tok := s.tok + spaces.length } := by
  have hskip := skip_run (p := (· = space)) (by simpa using hspaces) (by decide) hmem hfuel
  unfold round
  rw [hskip, Option.bind_eq_bind, Option.bind_some, if_pos (char_of_drop (drop_advance hmem))]

theorem round_word (hspaces : ∀ b ∈ spaces, b = space) (hne : word ≠ [])
    (hword : ∀ b ∈ word, b ≠ 0 ∧ b ≠ space) {e : UInt8} (he : e = 0 ∨ e = space)
    (hmem : s.mem.drop s.tok = spaces ++ (word ++ e :: rest)) (hfuel : spaces.length + word.length < fuel) :
    s.round fuel = ArgScan.terminate { s with
      tok := s.tok + spaces.length + word.length, argv := s.argv ++ [s.tok + spaces.length] } := by
  obtain ⟨d, ds, rfl⟩ := List.exists_cons_of_ne_nil hne
  have ⟨hd, hspace⟩ := hword d List.mem_cons_self
  have hskip := skip_run (p := (· = space)) (by simpa using hspaces) (by simpa using hspace) hmem
    (show spaces.length < fuel by omega)
  have hmem' := drop_advance hmem
  have hskip' := skip_run (p := fun c => c ≠ 0 ∧ c ≠ space)
    (s := { s with tok := s.tok + spaces.length, argv := s.argv ++ [s.tok + spaces.length] })
    (by simpa using hword) (by rcases he with rfl | rfl <;> decide) hmem'
    (show (d :: ds).length < fuel by omega)
  unfold round
  rw [hskip, Option.bind_eq_bind, Option.bind_some, if_neg (by rw [char_of_drop hmem']; exact hd), hskip',
    Option.bind_some]

/-- The last argument ends with the line. -/
theorem round_last (hspaces : ∀ b ∈ spaces, b = space) (hne : word ≠ [])
    (hword : ∀ b ∈ word, b ≠ 0 ∧ b ≠ space) (hmem : s.mem.drop s.tok = spaces ++ (word ++ 0 :: rest))
    (hfuel : spaces.length + word.length < fuel) :
    s.round fuel = some { s with
      tok := s.tok + spaces.length + word.length, argv := s.argv ++ [s.tok + spaces.length] } := by
  have hstop := drop_advance (drop_advance hmem)
  rw [round_word hspaces hne hword (.inl rfl) hmem hfuel, terminate, if_pos]
  exact char_of_drop hstop

/-- An argument with a space behind it, where a NUL is stored. -/
theorem round_cut (hspaces : ∀ b ∈ spaces, b = space) (hne : word ≠ [])
    (hword : ∀ b ∈ word, b ≠ 0 ∧ b ≠ space) (hmem : s.mem.drop s.tok = spaces ++ (word ++ space :: rest))
    (hfuel : spaces.length + word.length < fuel) :
    s.round fuel = some {
      mem := s.mem.set (s.tok + spaces.length + word.length) 0
      tok := s.tok + spaces.length + word.length + 1
      argv := s.argv ++ [s.tok + spaces.length]
      nuls := s.nuls ++ [s.tok + spaces.length + word.length] } := by
  have hstop := drop_advance (drop_advance hmem)
  have hin : s.tok + spaces.length + word.length < s.mem.length := by
    have hlen := congrArg List.length hstop
    rw [List.length_drop, List.length_cons] at hlen
    omega
  have hchar := char_of_drop (s := ⟨s.mem, _, s.argv ++ [s.tok + spaces.length], s.nuls⟩) hstop
  rw [round_word hspaces hne hword (.inr rfl) hmem hfuel, terminate, if_neg (by rw [hchar]; decide),
    if_pos hin]

end Round

/-! ## The rounds together -/

/-- The loop ends where a NUL stands. -/
theorem loop_exit {s : ArgScan} {rest : List UInt8} (hmem : s.mem.drop s.tok = 0 :: rest) {n : ℕ}
    (hn : 0 < n) (fuel : ℕ) : whileLoop more (round fuel) n s = some s := by
  obtain ⟨n, rfl⟩ := Nat.exists_eq_add_of_lt hn
  exact WhileLoop.exit (by simp [more, char_of_drop hmem]) _

section Line

variable {s : ArgScan} {spaces word rest : List UInt8} {fuel n : ℕ}

/-- A line of spaces takes one round, and an empty one takes none. -/
theorem loop_blank (hspaces : ∀ b ∈ spaces, b = space) (hmem : s.mem.drop s.tok = spaces ++ 0 :: rest)
    (hroom : s.argv.length < maxArgs) (hfuel : spaces.length < fuel) (hn : spaces.length < n) :
    whileLoop more (round fuel) n s = some { s with tok := s.tok + spaces.length } := by
  cases spaces with
  | nil => exact loop_exit hmem hn fuel
  | cons b spaces =>
    obtain ⟨n, rfl⟩ := Nat.exists_eq_add_of_lt hn
    have hchar : s.char ≠ 0 := char_ne_zero hmem (List.cons_ne_nil b spaces) (ne_zero_of_spaces hspaces)
    have hmore : s.more = true := by simp [more, hchar, hroom]
    have hout : 0 < (b :: spaces).length + n := by
      rw [List.length_cons]
      omega
    exact (WhileLoop.enter hmore (round_spaces hspaces hmem hfuel) _).trans
      (loop_exit (drop_advance hmem) hout fuel)

theorem more_of_word (hspaces : ∀ b ∈ spaces, b = space) (hne : word ≠ [])
    (hword : ∀ b ∈ word, b ≠ 0 ∧ b ≠ space) (hmem : s.mem.drop s.tok = spaces ++ (word ++ rest))
    (hroom : s.argv.length < maxArgs) : s.more = true := by
  have hchar : s.char ≠ 0 := by
    rw [← List.append_assoc] at hmem
    exact char_ne_zero hmem (by simp [hne]) (ne_zero_of_spaces_word hspaces hword)
  simp [more, hchar, hroom]

/-- The last argument takes one round. -/
theorem loop_last (hspaces : ∀ b ∈ spaces, b = space) (hne : word ≠ [])
    (hword : ∀ b ∈ word, b ≠ 0 ∧ b ≠ space) (hmem : s.mem.drop s.tok = spaces ++ (word ++ 0 :: rest))
    (hroom : s.argv.length < maxArgs) (hfuel : spaces.length + word.length < fuel)
    (hn : spaces.length + word.length < n) :
    whileLoop more (round fuel) n s = some { s with
      tok := s.tok + spaces.length + word.length, argv := s.argv ++ [s.tok + spaces.length] } := by
  have hpos : 0 < word.length := List.length_pos_of_ne_nil hne
  obtain ⟨n, rfl⟩ := Nat.exists_eq_add_of_lt hn
  have hmore := more_of_word hspaces hne hword hmem hroom
  have hround := round_last hspaces hne hword hmem hfuel
  exact (WhileLoop.enter hmore hround _).trans
    (loop_exit (drop_advance (drop_advance hmem)) (by omega) fuel)

end Line

/-- From any round on, the loop does to the memory what `tokenize` finds in the rest of the line. -/
theorem loop_tokenize {room : ℕ} {s : ArgScan} {rest : List UInt8} (hend : 0 ∈ rest)
    (hmem : s.mem.drop s.tok = rest) (hroom : s.argv.length + room = maxArgs) {fuel n : ℕ}
    (hfuel : (cString rest).length < fuel) (hn : (cString rest).length < n) :
    ∃ argv nuls tok, tokenize room s.tok rest = .ok (argv, nuls) ∧
      whileLoop more (round fuel) n s = some ⟨storeNuls s.mem nuls, tok, s.argv ++ argv, s.nuls ++ nuls⟩ := by
  induction room generalizing s rest n with
  | zero =>
    -- `argc` is `MAX_ARGS`
    obtain ⟨c, rest, rfl⟩ := List.exists_cons_of_ne_nil (List.ne_nil_of_mem hend)
    obtain ⟨n, rfl⟩ := Nat.exists_eq_add_of_lt hn
    refine ⟨[], [], s.tok, rfl, ?_⟩
    rw [List.append_nil, List.append_nil]
    exact WhileLoop.exit (by simp [more, ← hroom]) _
  | succ room ih =>
    obtain ⟨spaces, hspaces, hcases⟩ := line_cases hend
    have hlt : s.argv.length < maxArgs := by omega
    rcases hcases with ⟨rest, rfl⟩ | ⟨word, rest, e, hne, hword, he, rfl⟩
    · rw [cString_append_nul (ne_zero_of_spaces hspaces)] at hfuel hn
      have hloop := loop_blank hspaces hmem hlt hfuel hn
      refine ⟨[], [], s.tok + spaces.length, tokenize_spaces hspaces _ _, ?_⟩
      rw [List.append_nil, List.append_nil]
      exact hloop
    rw [tokenize_word hspaces hne hword (he.imp id And.left)]
    have hletters := ne_zero_of_spaces_word hspaces hword
    rcases he with rfl | ⟨rfl, hbehind⟩
    · -- the line ends with the argument
      rw [← List.append_assoc, cString_append_nul hletters, List.length_append] at hfuel hn
      have hloop := loop_last hspaces hne hword hmem hlt hfuel hn
      refine ⟨[s.tok + spaces.length], [], s.tok + spaces.length + word.length, if_pos rfl, ?_⟩
      rw [List.append_nil]
      exact hloop
    · -- one round, and the others on what is behind the space
      have hlen : (cString (spaces ++ (word ++ space :: rest))).length =
          spaces.length + word.length + 1 + (cString rest).length := by
        rw [← List.append_assoc, cString_append hletters, cString_cons, if_neg (by decide),
          List.length_append, List.length_append, List.length_cons]
        omega
      rw [hlen] at hfuel hn
      obtain ⟨n, rfl⟩ := Nat.exists_eq_add_of_lt hn
      have hround := round_cut hspaces hne hword hmem (show _ < fuel by omega)
      have hrest : (s.mem.set (s.tok + spaces.length + word.length) 0).drop
          (s.tok + spaces.length + word.length + 1) = rest := by
        rw [List.drop_set_of_lt (by omega)]
        have hstop := drop_advance (drop_advance hmem)
        exact drop_advance (show _ = [space] ++ rest from hstop)
      have hargs : (s.argv ++ [s.tok + spaces.length]).length + room = maxArgs := by
        rw [List.length_append, List.length_singleton]
        omega
      have hmany : (cString rest).length < spaces.length + word.length + 1 + (cString rest).length + n := by
        omega
      obtain ⟨argv, nuls, tok, htokens, hloop⟩ := ih
        (s := ⟨_, _, _, s.nuls ++ [s.tok + spaces.length + word.length]⟩) hbehind hrest hargs (by omega) hmany
      have hmore := more_of_word hspaces hne hword hmem hlt
      refine ⟨(s.tok + spaces.length) :: argv, (s.tok + spaces.length + word.length) :: nuls, tok, ?_, ?_⟩
      · rw [if_neg (by decide), htokens]
        rfl
      · rw [List.append_assoc, List.append_assoc] at hloop
        exact (WhileLoop.enter hmore hround _).trans hloop

end ArgScan

/-- The loop on the memory that `input` begins; `fuel` bounds the rounds of each of its loops. -/
def scanArgs (fuel : ℕ) (mem : List UInt8) : Option ArgScan :=
  whileLoop ArgScan.more (ArgScan.round fuel) fuel ⟨mem, 0, [], []⟩

/-! ## The arguments are words -/

theorem storeNuls_shift (pre rest : List UInt8) (nuls : List ℕ) :
    storeNuls (pre ++ rest) (nuls.map (pre.length + ·)) = pre ++ storeNuls rest nuls := by
  unfold storeNuls
  induction nuls generalizing rest with
  | nil => rfl
  | cons i nuls ih =>
    rw [List.map_cons, List.foldl_cons, List.foldl_cons, List.set_append_right _ _ (by omega),
      Nat.add_sub_cancel_left]
    exact ih _

/-- A NUL behind two stretches of the memory, the other NULs farther on. -/
theorem storeNuls_cut (xs ys : List UInt8) (c : UInt8) (rest : List UInt8) (nuls : List ℕ) :
    storeNuls (xs ++ (ys ++ c :: rest))
        ((xs.length + ys.length) :: nuls.map (xs.length + ys.length + 1 + ·)) =
      xs ++ (ys ++ 0 :: storeNuls rest nuls) := by
  have hset : (xs ++ (ys ++ c :: rest)).set (xs.length + ys.length) 0 = xs ++ ys ++ [0] ++ rest := by
    rw [← List.append_assoc, ← List.length_append, List.set_append_right _ _ le_rfl, Nat.sub_self,
      List.set_cons_zero, List.append_assoc (xs ++ ys), List.singleton_append]
  have hlen : (xs ++ ys ++ [0]).length = xs.length + ys.length + 1 := by simp [Nat.add_assoc]
  have hshift := storeNuls_shift (xs ++ ys ++ [0]) rest nuls
  rw [hlen, ← hset] at hshift
  refine hshift.trans ?_
  rw [List.append_assoc, List.append_assoc, List.singleton_append]

@[simp] theorem length_storeNuls (mem : List UInt8) (nuls : List ℕ) :
    (storeNuls mem nuls).length = mem.length := by
  unfold storeNuls
  induction nuls generalizing mem with
  | nil => rfl
  | cons i nuls ih => rw [List.foldl_cons, ih, List.length_set]

theorem storeNuls_of_notMem {mem : List UInt8} {nuls : List ℕ} {i : ℕ} (hi : i ∉ nuls) :
    (storeNuls mem nuls)[i]? = mem[i]? := by
  unfold storeNuls
  induction nuls generalizing mem with
  | nil => rfl
  | cons j nuls ih =>
    have ⟨hne, hrest⟩ := not_or.mp (mt List.mem_cons.mpr hi)
    rw [List.foldl_cons, ih hrest, List.getElem?_set_ne (Ne.symm hne)]

/-- What is behind two stretches of the memory and the place of a NUL. -/
theorem drop_cut (xs ys : List UInt8) (c : UInt8) (rest : List UInt8) (a : ℕ) :
    (xs ++ (ys ++ c :: rest)).drop (xs.length + ys.length + 1 + a) = rest.drop a := by
  rw [← List.append_assoc, ← List.drop_drop, ← List.drop_drop, ← List.length_append, List.drop_left,
    List.drop_one, List.tail_cons]

theorem map_add_map (m n : ℕ) (places : List ℕ) :
    (places.map (n + ·)).map (m + ·) = places.map (m + n + ·) := by
  rw [List.map_map]
  refine List.map_congr_left fun a _ => ?_
  show m + (n + a) = m + n + a
  omega

/-- Arguments and NULs of a line.  The arguments begin where words of the line do and hold those words
once the NULs are stored, and the NULs take the places of spaces. -/
structure SplitsLine (mem : List UInt8) (room : ℕ) (argv nuls : List ℕ) : Prop where
  starts : argv = ((cString mem).wordStarts space).take room
  ends : ∀ a ∈ argv, 0 ∈ (storeNuls mem nuls).drop a
  texts : argv.map (fun a => cString ((storeNuls mem nuls).drop a)) = ((cString mem).words space).take room
  spaces : ∀ i ∈ nuls, (cString mem)[i]? = some space

namespace SplitsLine

theorem none (mem : List UInt8) : SplitsLine mem 0 [] [] :=
  ⟨rfl, List.forall_mem_nil _, rfl, List.forall_mem_nil _⟩

section Line

variable {spaces word rest : List UInt8}

theorem blank (hspaces : ∀ b ∈ spaces, b = space) (room : ℕ) : SplitsLine (spaces ++ 0 :: rest) room [] [] := by
  have hline : cString (spaces ++ 0 :: rest) = spaces ++ [] := by
    rw [cString_append_nul (ne_zero_of_spaces hspaces), List.append_nil]
  refine ⟨?_, List.forall_mem_nil _, ?_, List.forall_mem_nil _⟩
  · rw [hline, List.wordStarts_seps_append hspaces]
    simp
  · rw [hline, List.words_seps_append hspaces]
    simp

theorem last (hspaces : ∀ b ∈ spaces, b = space) (hne : word ≠ [])
    (hword : ∀ b ∈ word, b ≠ 0 ∧ b ≠ space) (room : ℕ) :
    SplitsLine (spaces ++ (word ++ 0 :: rest)) (room + 1) [spaces.length] [] := by
  have hnoNul : ∀ b ∈ word, b ≠ 0 := fun b hb => (hword b hb).1
  have hnoSpace : space ∉ word := fun hmem => (hword space hmem).2 rfl
  have hline : cString (spaces ++ (word ++ 0 :: rest)) = spaces ++ word := by
    rw [cString_append (ne_zero_of_spaces hspaces), cString_append_nul hnoNul]
  have hdrop : (spaces ++ (word ++ 0 :: rest)).drop spaces.length = word ++ 0 :: rest := List.drop_left
  refine ⟨?_, ?_, ?_, List.forall_mem_nil _⟩
  · rw [hline, List.wordStarts_seps_append hspaces, List.wordStarts_singleton hnoSpace hne]
    simp
  · simp [storeNuls, hdrop]
  · rw [hline, List.words_seps_append hspaces, List.words_singleton hnoSpace hne]
    simp [storeNuls, hdrop, cString_append_nul hnoNul]

/-- An argument with a space behind it, in front of a line that is split. -/
theorem cut (hspaces : ∀ b ∈ spaces, b = space) (hne : word ≠ [])
    (hword : ∀ b ∈ word, b ≠ 0 ∧ b ≠ space) {room : ℕ} {argv nuls : List ℕ}
    (h : SplitsLine rest room argv nuls) :
    SplitsLine (spaces ++ (word ++ space :: rest)) (room + 1)
      (spaces.length :: argv.map (spaces.length + word.length + 1 + ·))
      ((spaces.length + word.length) :: nuls.map (spaces.length + word.length + 1 + ·)) := by
  have hnoNul : ∀ b ∈ word, b ≠ 0 := fun b hb => (hword b hb).1
  have hnoSpace : space ∉ word := fun hmem => (hword space hmem).2 rfl
  have hline : cString (spaces ++ (word ++ space :: rest)) = spaces ++ (word ++ space :: cString rest) := by
    rw [cString_append (ne_zero_of_spaces hspaces), cString_append hnoNul, cString_cons,
      if_neg (by decide)]
  refine ⟨?_, ?_, ?_, ?_⟩
  · rw [hline, List.wordStarts_seps_append hspaces, List.wordStarts_word_sep hnoSpace hne, List.map_cons,
      map_add_map, List.take_succ_cons, h.starts, List.map_take, ← Nat.add_assoc]
    rfl
  · rw [storeNuls_cut]
    refine List.forall_mem_cons.mpr ⟨by simp, fun a ha => ?_⟩
    obtain ⟨b, hb, rfl⟩ := List.mem_map.mp ha
    rw [drop_cut]
    exact h.ends b hb
  · rw [hline, List.words_seps_append hspaces, List.words_word_sep hnoSpace hne, storeNuls_cut,
      List.map_cons, List.map_map, List.drop_left, cString_append_nul hnoNul, List.take_succ_cons, ← h.texts]
    refine congrArg _ (List.map_congr_left fun a _ => ?_)
    rw [Function.comp_apply, drop_cut]
  · rw [hline]
    refine List.forall_mem_cons.mpr ⟨?_, fun i hi => ?_⟩
    · rw [← List.append_assoc, ← List.length_append, List.getElem?_append_right le_rfl, Nat.sub_self,
        List.getElem?_cons_zero]
    · obtain ⟨j, hj, rfl⟩ := List.mem_map.mp hi
      have hbehind := congrArg List.head? (drop_cut spaces word space (cString rest) j)
      rw [List.head?_drop, List.head?_drop] at hbehind
      rw [hbehind, h.spaces j hj]

end Line

end SplitsLine

/-- What `tokenize` makes of a line, in places of the line. -/
theorem tokenize_words {mem : List UInt8} (hend : 0 ∈ mem) (room tok : ℕ) :
    ∃ argv nuls, tokenize room tok mem = .ok (argv.map (tok + ·), nuls.map (tok + ·)) ∧
      SplitsLine mem room argv nuls := by
  induction room generalizing mem tok with
  | zero =>
    obtain ⟨c, mem, rfl⟩ := List.exists_cons_of_ne_nil (List.ne_nil_of_mem hend)
    exact ⟨[], [], rfl, .none _⟩
  | succ room ih =>
    obtain ⟨spaces, hspaces, hcases⟩ := line_cases hend
    rcases hcases with ⟨rest, rfl⟩ | ⟨word, rest, e, hne, hword, he, rfl⟩
    · exact ⟨[], [], tokenize_spaces hspaces room tok, .blank hspaces _⟩
    rw [tokenize_word hspaces hne hword (he.imp id And.left)]
    rcases he with rfl | ⟨rfl, hbehind⟩
    · exact ⟨[spaces.length], [], if_pos rfl, .last hspaces hne hword room⟩
    · -- places behind the space are counted from it by the induction hypothesis
      obtain ⟨argv, nuls, htokens, hsplits⟩ := ih hbehind (tok + spaces.length + word.length + 1)
      refine ⟨_, _, ?_, .cut hspaces hne hword hsplits⟩
      rw [if_neg (by decide), htokens, List.map_cons, List.map_cons, map_add_map, map_add_map]
      simp only [← Nat.add_assoc]
      rfl

/-- **The tokenizer.**  Whatever the memory holds behind the terminator and however long the line is, the
loop ends.  The arguments begin where the first words of the line do, `MAX_ARGS` of them at most, and
each is one of those words with a NUL behind it; the stores put NULs over spaces of the line and change
nothing else. -/
theorem scanArgs_words {mem : List UInt8} (hend : 0 ∈ mem) {fuel : ℕ} (hfuel : (cString mem).length < fuel) :
    ∃ s, scanArgs fuel mem = some s ∧
      s.argv = ((cString mem).wordStarts space).take maxArgs ∧
      (∀ a ∈ s.argv, 0 ∈ s.mem.drop a) ∧
      s.argv.map (fun a => cString (s.mem.drop a)) = ((cString mem).words space).take maxArgs ∧
      (∀ i ∈ s.nuls, (cString mem)[i]? = some space) ∧
      s.mem.length = mem.length ∧ ∀ i, i ∉ s.nuls → s.mem[i]? = mem[i]? := by
  obtain ⟨argv, nuls, htokens, hsplits⟩ := tokenize_words hend maxArgs 0
  obtain ⟨argv', nuls', tok, htokens', hloop⟩ := ArgScan.loop_tokenize (s := ⟨mem, 0, [], []⟩) hend
    List.drop_zero (Nat.zero_add _) hfuel hfuel
  have hsame := htokens.symm.trans htokens'
  simp only [Nat.zero_add, List.map_id'] at hsame
  obtain ⟨rfl, rfl⟩ := Prod.mk.inj (Except.ok.inj hsame)
  exact ⟨_, hloop, hsplits.starts, hsplits.ends, hsplits.texts, hsplits.spaces, length_storeNuls mem nuls,
    fun i hi => storeNuls_of_notMem hi⟩

/-- `echo  hi`, with something behind the terminator. -/
theorem scanArgs_words_echo : ∃ s, scanArgs 9 (ascii "echo  hi" ++ [0, 32, 7]) = some s ∧
    s.argv = [0, 6] ∧
      s.argv.map (fun a => cString (s.mem.drop a)) = [ascii "echo", ascii "hi"] := by
  have hend : 0 ∈ ascii "echo  hi" ++ [0, 32, 7] := by decide +kernel
  have hfuel : (cString (ascii "echo  hi" ++ [0, 32, 7])).length < 9 := by decide +kernel
  obtain ⟨s, hrun, hargv, -, hwords, -⟩ := scanArgs_words hend hfuel
  have hstarts : ((cString (ascii "echo  hi" ++ [0, 32, 7])).wordStarts space).take maxArgs = [0, 6] := by
    decide +kernel
  have htexts : ((cString (ascii "echo  hi" ++ [0, 32, 7])).words space).take maxArgs =
      [ascii "echo", ascii "hi"] := by
    decide +kernel
  exact ⟨s, hrun, hargv.trans hstarts, hwords.trans htexts⟩

end MyMisu
