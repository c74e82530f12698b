import Mathlib.Data.List.DropRight
import MyMisu.Shell.Field
import MyMisu.Shell.Tokenizer

/-!
# The prompt

`shell_run` edits a line in `cmd_buffer`, keeps the last ten lines in `history` and has each line
executed in the buffer where it was typed, which cuts it into pieces.  The reference is an editor with
a text for a line and the list of all lines entered.  The commands are a parameter; they read no keys,
so every key comes to the prompt.
-/

namespace MyMisu

/-- What the commands work on, the directory that the prompt shows, and the commands themselves. -/
structure Commands (σ : Type) where
  pwd : σ → CStr
  /-- The `strcmp` chain of `execute_command`, on the history and the arguments. -/
  run : σ → List (List UInt8) → List CStr → σ × List Console

/-- `history[MAX_HISTORY][CMD_BUFFER_SIZE]` and `history_count`. -/
structure History where
  lines : Fin 10 → CharArray 256
  count : ℕ

namespace History

/-- The string in `history[i]`. -/
def load (h : History) (i : ℕ) : Except Stuck CStr :=
  if hi : i < 10 then (h.lines ⟨i, hi⟩).load else .error .overrun

/-- `strcpy(history[i], cmd)` -/
def put (h : History) (i : ℕ) (cmd : CStr) : Except Stuck History :=
  if hi : i < 10 then do
    let a ← (h.lines ⟨i, hi⟩).strcpy cmd
    .ok { h with lines := Function.update h.lines ⟨i, hi⟩ a }
  else .error .overrun

/-- `history_add` -/
def add (h : History) (cmd : CStr) : Except Stuck History :=
  if h.count < 10 then do
    let h' ← h.put h.count cmd
    .ok { h' with count := h.count + 1 }
  else do
    -- the oldest line is written over, row after row
    let h ← (List.range' 1 9).foldlM (fun h i => do h.put (i - 1) (← h.load i)) h
    h.put 9 cmd

/-- The strings in the history. -/
def texts (h : History) : List (List UInt8) := (List.ofFn h.lines).take h.count |>.map (·.str.bytes)

end History

/-- The state of `shell_run` when it waits for a key; `executed` are the lines that have been given to
`execute_command`. -/
structure Shell (σ : Type) where
  world : σ
  cmd : Line 256
  history : History
  pos : ℕ
  executed : List (List UInt8)
  out : List Console

def printPrompt (pwd : CStr) : List Console :=
  [.ink vgaLightCyan, .print (ascii "misu"), .ink vgaDarkGrey, .print (ascii ":"), .ink vgaLightBlue,
    .print pwd.bytes, .ink vgaWhite, .print (ascii " > "), .ink vgaLightGreen]

variable {σ : Type} (cmds : Commands σ)

/-- `execute_command`: what becomes of the buffer, and of everything else. -/
def executeIn (world : σ) (history : History) (buf : CharArray 256) :
    Except Stuck (CharArray 256 × σ × List Console) := do
  let (argv, nuls) ← tokenize maxArgs 0 buf.bytes
  -- the arguments stay where they were typed
  let buf ← nuls.foldlM (fun buf i => buf.store i 0) buf
  if argv = [] then .ok (buf, world, [])
  else .ok (buf, cmds.run world history.texts (argv.map fun arg => .ofBuffer (buf.bytes.drop arg)))

namespace Shell

/-- `print_prompt();cmd_len=0;history_pos=history_count;` -/
def prompt (sh : Shell σ) : Shell σ :=
  { sh with cmd.len := 0, pos := sh.history.count, out := sh.out ++ printPrompt (cmds.pwd sh.world) }

/-- Enter. -/
def enter (sh : Shell σ) : Except Stuck (Shell σ) := do
  let buf ← sh.cmd.close
  let sh := { sh with cmd.buf := buf, out := sh.out ++ [.putchar 10] }
  if sh.cmd.len > 0 then do
    let line ← buf.load
    -- the history has the line before it is cut into arguments
    let history ← sh.history.add line
    let (buf, world, shown) ← executeIn cmds sh.world history buf
    .ok (prompt cmds { sh with
      world, history, cmd.buf := buf, executed := sh.executed ++ [line.bytes], out := sh.out ++ shown })
  else .ok (prompt cmds sh)

/-- `while(cmd_len>0){terminal_putchar('\b');cmd_len--;}` -/
def erase (sh : Shell σ) : Shell σ :=
  { sh with cmd.len := 0, out := sh.out ++ List.replicate sh.cmd.len (.putchar 8) }

/-- The line in `history[pos]` takes the place of the one that was typed. -/
def recallLine (sh : Shell σ) (pos : ℕ) : Except Stuck (Shell σ) := do
  let sh := { sh.erase with pos }
  let buf ← sh.cmd.buf.strcpy (← sh.history.load pos)
  let text ← buf.load
  .ok { sh with cmd := ⟨buf, text.bytes.length⟩, out := sh.out ++ text.bytes.map .putchar }

/-- The keys up and down; `history_pos<history_count-1` on integers. -/
def up (sh : Shell σ) : Except Stuck (Shell σ) :=
  if sh.pos > 0 then sh.recallLine (sh.pos - 1) else .ok sh

def down (sh : Shell σ) : Except Stuck (Shell σ) :=
  if sh.pos + 1 < sh.history.count then sh.recallLine (sh.pos + 1)
  else .ok { sh with pos := sh.history.count }.erase

/-- The body of the loop of `shell_run`. -/
def key (sh : Shell σ) (c : UInt8) : Except Stuck (Shell σ) :=
  if c = 10 then sh.enter cmds
  else if c = 8 then .ok { sh with cmd := sh.cmd.back.1, out := sh.out ++ sh.cmd.back.2 }
  else if c = keyUp then sh.up
  else if c = keyDown then sh.down
  else if 32 ≤ c ∧ c < 127 ∧ sh.cmd.len < 255 then do
    .ok { sh with cmd := ← sh.cmd.push c, out := sh.out ++ [.putchar c] }
  else .ok sh

end Shell

/-- The arrays as the loader leaves them, and the first prompt. -/
def shellInit (world : σ) : Shell σ :=
  let zero : CharArray 256 := ⟨List.replicate 256 0, List.length_replicate⟩
  Shell.prompt cmds {
    world
    cmd := ⟨zero, 0⟩
    history := ⟨fun _ => zero, 0⟩
    pos := 0
    executed := []
    out := [.ink vgaLightGrey, .print (ascii "\n  Type 'help' or 'menu' for visual navigation.\n\n")] }

/-- `shell_run` as far as keys are pressed. -/
def shellRun (world : σ) (keys : List UInt8) : Except Stuck (Shell σ) :=
  keys.foldlM (Shell.key cmds) (shellInit cmds world)

/-! ## The reference -/

/-- The lines entered, the text being edited, and which of the last ten lines it was taken from; their
number if it was taken from none. -/
structure LineEditor where
  entered : List (List UInt8)
  text : List UInt8
  pos : ℕ

namespace LineEditor

def recent (entered : List (List UInt8)) : List (List UInt8) := entered.rtake 10

/-- An empty text that comes from none of the lines. -/
def fresh (entered : List (List UInt8)) : LineEditor := ⟨entered, [], (recent entered).length⟩

def key (e : LineEditor) (c : UInt8) : LineEditor :=
  if c = 10 then fresh (if e.text = [] then e.entered else e.entered ++ [e.text])
  else if c = keyUp then
    if e.pos = 0 then e else { e with text := (recent e.entered).getD (e.pos - 1) [], pos := e.pos - 1 }
  else if c = keyDown then
    if e.pos + 1 < (recent e.entered).length then
      { e with text := (recent e.entered).getD (e.pos + 1) [], pos := e.pos + 1 }
    else fresh e.entered
  else { e with text := typeKey 255 e.text c }

def run (keys : List UInt8) : LineEditor := keys.foldl key (fresh [])

end LineEditor

/-! ## The history -/

namespace History

variable {h : History} {texts : List (List UInt8)} {i j : ℕ} {text : List UInt8}

def Row (h : History) (i : ℕ) (text : List UInt8) : Prop :=
  ∃ hi : i < 10, (h.lines ⟨i, hi⟩).HasText text

/-- The history is the texts, in the first rows. -/
structure Holds (h : History) (texts : List (List UInt8)) : Prop where
  count : h.count = texts.length
  le : texts.length ≤ 10
  row : ∀ i text, texts[i]? = some text → h.Row i text

theorem Row.load (hrow : h.Row i text) : ∃ cmd, h.load i = .ok cmd ∧ cmd.bytes = text := by
  obtain ⟨hi, htext⟩ := hrow
  rw [History.load, dif_pos hi]
  exact htext.load

theorem Row.length_lt (hrow : h.Row i text) : text.length < 256 := by
  obtain ⟨hi, htext⟩ := hrow
  exact htext.length_lt

/-- One row is written, the others stay. -/
theorem put_ok (h : History) (hi : i < 10) {cmd : CStr} (hroom : cmd.bytes.length < 256) :
    ∃ h', h.put i cmd = .ok h' ∧ h'.count = h.count ∧ h'.Row i cmd.bytes ∧
      ∀ j text, j ≠ i → h.Row j text → h'.Row j text := by
  obtain ⟨a, hcopy, htext, -⟩ := (h.lines ⟨i, hi⟩).strcpy_ok cmd hroom
  refine ⟨{ h with lines := Function.update h.lines ⟨i, hi⟩ a }, ?_, rfl, ⟨hi, ?_⟩, ?_⟩
  · rw [put, dif_pos hi, hcopy]
    rfl
  · show (Function.update h.lines ⟨i, hi⟩ a ⟨i, hi⟩).HasText _
    rw [Function.update_self]
    exact htext
  · rintro j text hne ⟨hj, hrow⟩
    refine ⟨hj, ?_⟩
    show (Function.update h.lines ⟨i, hi⟩ a ⟨j, hj⟩).HasText _
    rw [Function.update_of_ne (by simpa using hne)]
    exact hrow

/-- The first `n` rounds of the loop that moves the rows up. -/
theorem shift_ok {row : ℕ → List UInt8} (hrows : ∀ i < 10, h.Row i (row i)) {n : ℕ} (hn : n ≤ 9) :
    ∃ h', (List.range' 1 n).foldlM (fun h i => do h.put (i - 1) (← h.load i)) h = .ok h' ∧
      h'.count = h.count ∧ (∀ i < n, h'.Row i (row (i + 1))) ∧ ∀ i < 10, n ≤ i → h'.Row i (row i) := by
  induction n with
  | zero => exact ⟨h, rfl, rfl, fun i hi => absurd hi (Nat.not_lt_zero i), fun i hi _ => hrows i hi⟩
  | succ n ih =>
    obtain ⟨h', hrun, hcount, hmoved, hstill⟩ := ih (by omega)
    have hfrom := hstill (1 + n) (by omega) (by omega)
    obtain ⟨cmd, hload, hcmd⟩ := hfrom.load
    obtain ⟨h'', hput, hcount', hrow, hothers⟩ :=
      h'.put_ok (show 1 + n - 1 < 10 by omega) (hcmd ▸ hfrom.length_lt)
    rw [hcmd, Nat.add_sub_cancel_left, Nat.add_comm 1 n] at hrow
    refine ⟨h'', ?_, hcount'.trans hcount, fun i hi => ?_, fun i hi hle => ?_⟩
    · rw [List.range'_1_concat, List.foldlM_append, hrun]
      show (do h'.put (1 + n - 1) (← h'.load (1 + n))) >>= _ = _
      rw [hload]
      show h'.put (1 + n - 1) cmd >>= _ = _
      rw [hput]
      rfl
    · rcases Nat.lt_succ_iff_lt_or_eq.mp hi with hlt | rfl
      · exact hothers i _ (by omega) (hmoved i hlt)
      · exact hrow
    · exact hothers i _ (by omega) (hstill i hi (by omega))

/-- There is a row left. -/
theorem Holds.add_row (hold : h.Holds texts) (hroom : texts.length < 10) {cmd : CStr}
    (hcmd : cmd.bytes.length < 256) :
    ∃ h', h.add cmd = .ok h' ∧ h'.Holds (texts ++ [cmd.bytes]) := by
  have hcount := hold.count
  have hfree : h.count < 10 := by omega
  obtain ⟨h', hput, -, hrow, hothers⟩ := h.put_ok hfree hcmd
  refine ⟨{ h' with count := h.count + 1 }, ?_, ?_, ?_, fun i text htext => ?_⟩
  · rw [History.add, if_pos hfree, hput]
    rfl
  · rw [List.length_append, List.length_singleton, ← hcount]
  · rw [List.length_append, List.length_singleton]
    omega
  · show h'.Row i text
    have hi := (List.getElem?_eq_some_iff.mp htext).1
    rw [List.length_append, List.length_singleton] at hi
    rcases Nat.lt_succ_iff_lt_or_eq.mp hi with hlt | rfl
    · rw [List.getElem?_append_left hlt] at htext
      exact hothers i text (by omega) (hold.row i text htext)
    · rw [List.getElem?_concat_length] at htext
      rw [← Option.some.inj htext, ← hcount]
      exact hrow

/-- The oldest line goes. -/
theorem Holds.add_shift (hold : h.Holds texts) (hfull : texts.length = 10) {cmd : CStr}
    (hcmd : cmd.bytes.length < 256) :
    ∃ h', h.add cmd = .ok h' ∧ h'.Holds (texts.drop 1 ++ [cmd.bytes]) := by
  have hcount := hold.count
  have hdrop : (texts.drop 1).length = 9 := by rw [List.length_drop, hfull]
  have hrows : ∀ i < 10, h.Row i (texts.getD i []) := by
    intro i hi
    refine hold.row i _ ?_
    rw [List.getD_eq_getElem?_getD, List.getElem?_eq_getElem (by omega), Option.getD_some]
  obtain ⟨h', hshift, hcount', hmoved, -⟩ := shift_ok hrows (le_refl 9)
  obtain ⟨h'', hput, hcount'', hrow, hothers⟩ := h'.put_ok (show 9 < 10 by decide) hcmd
  have hlength : (texts.drop 1 ++ [cmd.bytes]).length = 10 := by
    rw [List.length_append, hdrop, List.length_singleton]
  refine ⟨h'', ?_, by omega, by omega, fun i text htext => ?_⟩
  · rw [History.add, if_neg (by omega), hshift]
    exact hput
  · -- the first nine rows are those of the loop
    have hi := (List.getElem?_eq_some_iff.mp htext).1
    rw [hlength] at hi
    rcases Nat.lt_succ_iff_lt_or_eq.mp hi with hlt | rfl
    · rw [List.getElem?_append_left (by omega), List.getElem?_drop] at htext
      have hmove := hmoved i hlt
      rw [List.getD_eq_getElem?_getD, Nat.add_comm i 1, htext] at hmove
      exact hothers i text (by omega) hmove
    · rw [← hdrop, List.getElem?_concat_length] at htext
      rw [← Option.some.inj htext]
      exact hrow

theorem Holds.add (hold : h.Holds texts) {cmd : CStr} (hcmd : cmd.bytes.length < 256) :
    ∃ h', h.add cmd = .ok h' ∧ h'.Holds ((texts ++ [cmd.bytes]).rtake 10) := by
  rw [List.rtake_concat_succ, List.rtake]
  rcases Nat.lt_or_eq_of_le hold.le with hroom | hfull
  · rw [Nat.sub_eq_zero_of_le (by omega), List.drop_zero]
    exact hold.add_row hroom hcmd
  · rw [hfull]
    exact hold.add_shift hfull hcmd

theorem Holds.texts_eq (hold : h.Holds texts) : h.texts = texts := by
  have hcount := hold.count
  have hle := hold.le
  refine List.ext_getElem? fun i => ?_
  rw [History.texts, List.getElem?_map, List.getElem?_take]
  split_ifs with hi
  · obtain ⟨hten, -, htext⟩ := hold.row i _ (List.getElem?_eq_getElem (by omega : i < texts.length))
    rw [List.getElem?_ofFn, dif_pos hten, Option.map_some, htext, List.getElem?_eq_getElem]
  · rw [List.getElem?_eq_none (by omega)]
    rfl

end History

/-! ## The shell against the reference -/

open LineEditor (recent)

/-- From `start` to `world` `execute_command` has been called on the lines one after the other, each in a
buffer that holds it and with the last ten lines, itself included, in the history. -/
inductive ExecutedFrom (start : σ) : List (List UInt8) → σ → Prop
  | start : ExecutedFrom start [] start
  | line {entered : List (List UInt8)} {world world' : σ} {text : List UInt8} {history : History}
      {buf buf' : CharArray 256} {shown : List Console} (before : ExecutedFrom start entered world)
      (hbuf : buf.HasText text) (hhistory : history.texts = recent (entered ++ [text]))
      (hrun : executeIn cmds world history buf = .ok (buf', world', shown)) :
      ExecutedFrom start (entered ++ [text]) world'

/-- The shell is in the state of the reference editor, and the commands have been called on its lines;
nothing is said of the buffer behind the line. -/
structure Shell.Refines (start : σ) (sh : Shell σ) (e : LineEditor) : Prop where
  line : sh.cmd.Holds 255 e.text
  history : sh.history.Holds (recent e.entered)
  pos : sh.pos = e.pos
  le : e.pos ≤ (recent e.entered).length
  executed : sh.executed = e.entered
  calls : ExecutedFrom cmds start e.entered sh.world
  printable : ∀ text ∈ e.entered, ∀ c ∈ text, IsPrintable c

theorem recent_append (entered : List (List UInt8)) (text : List UInt8) :
    (recent entered ++ [text]).rtake 10 = recent (entered ++ [text]) := by
  have hnine : (recent entered).rtake 9 = entered.rtake 9 := by
    unfold LineEditor.recent List.rtake
    rw [List.drop_drop, List.length_drop]
    congr 1
    omega
  have hsplit := List.rtake_concat_succ (recent entered) 9 text
  rw [hsplit, hnine, LineEditor.recent, List.rtake_concat_succ]

/-- The stores that end the arguments. -/
theorem executeIn_ok (world : σ) (history : History) {buf : CharArray 256} (hend : 0 ∈ buf.bytes) :
    ∃ buf' world' shown, executeIn cmds world history buf = .ok (buf', world', shown) := by
  obtain ⟨argv, nuls, htokens, hnuls⟩ := tokenize_ok hend maxArgs 0
  rw [buf.length_eq, Nat.zero_add] at hnuls
  have hstores : ∃ buf', nuls.foldlM (fun buf i => buf.store i 0) buf = .ok buf' := by
    -- whether the string still ends does not matter to the stores
    clear htokens hend
    induction nuls generalizing buf with
    | nil => exact ⟨buf, rfl⟩
    | cons i nuls ih =>
      rw [List.forall_mem_cons] at hnuls
      rw [List.foldlM_cons, buf.store_ok hnuls.1]
      exact ih hnuls.2
  obtain ⟨buf', hstores⟩ := hstores
  simp only [executeIn, htokens, hstores, bind, Except.bind]
  split_ifs
  · exact ⟨_, _, _, rfl⟩
  · exact ⟨_, _, _, rfl⟩

namespace Shell.Refines

variable {start : σ} {sh : Shell σ} {e : LineEditor}

theorem prompt {entered : List (List UInt8)} (hhistory : sh.history.Holds (recent entered))
    (hexecuted : sh.executed = entered) (hcalls : ExecutedFrom cmds start entered sh.world)
    (hprintable : ∀ text ∈ entered, ∀ c ∈ text, IsPrintable c) :
    (sh.prompt cmds).Refines cmds start (.fresh entered) where
  line := .empty _ rfl (by decide)
  history := hhistory
  pos := hhistory.count
  le := le_rfl
  executed := hexecuted
  calls := hcalls
  printable := hprintable

theorem enter (h : sh.Refines cmds start e) : ∃ sh', sh.enter cmds = .ok sh' ∧
    sh'.Refines cmds start (.fresh (if e.text = [] then e.entered else e.entered ++ [e.text])) := by
  obtain ⟨buf, hclose, hstr⟩ := h.line.close
  have hlen := h.line.length
  have hle := h.line.len
  have htext := CharArray.hasText_of_length_lt hstr (by omega)
  obtain ⟨line, hload, hline⟩ := htext.load
  simp only [Shell.enter, hclose, bind, Except.bind]
  by_cases hempty : e.text = []
  · rw [if_pos hempty, if_neg (by rw [hlen, hempty]; decide)]
    exact ⟨_, rfl, .prompt cmds h.history h.executed h.calls h.printable⟩
  · have hpos : sh.cmd.len > 0 := by
      rw [hlen]
      exact List.length_pos_iff.mpr hempty
    obtain ⟨history, hadd, hhistory⟩ := h.history.add (show line.bytes.length < 256 by rw [hline]; omega)
    obtain ⟨buf', world, shown, hexecute⟩ := executeIn_ok cmds sh.world history htext.1
    rw [if_pos hpos, if_neg hempty, hload]
    -- what the commands leave in the buffer is behind an empty line
    simp only [hadd, hexecute]
    rw [hline, recent_append] at hhistory
    refine ⟨_, rfl, .prompt cmds hhistory ?_ (.line h.calls htext hhistory.texts_eq hexecute) ?_⟩
    · show sh.executed ++ [line.bytes] = _
      rw [h.executed, hline]
    · rw [List.forall_mem_append, List.forall_mem_singleton]
      exact ⟨h.printable, h.line.printable⟩

/-- A line of the history takes the place of the one that was typed. -/
theorem recallLine (h : sh.Refines cmds start e) {i : ℕ} {text : List UInt8}
    (hrow : (recent e.entered)[i]? = some text) :
    ∃ sh', sh.recallLine i = .ok sh' ∧ sh'.Refines cmds start { e with text, pos := i } := by
  have hsaved := h.history.row i text hrow
  obtain ⟨src, hload, hsrc⟩ := hsaved.load
  obtain ⟨buf, hcopy, htext, htake⟩ := sh.cmd.buf.strcpy_ok src (hsrc ▸ hsaved.length_lt)
  obtain ⟨line, hload', hline⟩ := htext.load
  rw [hsrc] at htext htake hline
  have hi := (List.getElem?_eq_some_iff.mp hrow).1
  have hmem : text ∈ e.entered := List.mem_of_mem_drop (List.mem_of_getElem? hrow)
  have hrun : sh.recallLine i = .ok
      { sh with
        cmd := ⟨buf, line.bytes.length⟩, pos := i
        out := sh.out ++ List.replicate sh.cmd.len (.putchar 8) ++ line.bytes.map .putchar } := by
    simp only [Shell.recallLine, Shell.erase, hload, hcopy, hload', bind, Except.bind]
  refine ⟨_, hrun, ⟨?_, ?_, by decide, h.printable text hmem⟩, h.history, rfl, hi.le, h.executed,
    h.calls, h.printable⟩
  · show buf.bytes.take line.bytes.length = text
    rw [hline, htake]
  · show line.bytes.length ≤ 255
    rw [hline]
    exact Nat.le_of_lt_succ htext.length_lt

theorem getElem?_recent {i : ℕ} (hi : i < (recent e.entered).length) :
    (recent e.entered)[i]? = some ((recent e.entered).getD i []) := by
  rw [List.getD_eq_getElem?_getD, List.getElem?_eq_getElem hi, Option.getD_some]

theorem key (h : sh.Refines cmds start e) (c : UInt8) :
    ∃ sh', sh.key cmds c = .ok sh' ∧ sh'.Refines cmds start (e.key c) := by
  have hcount := h.history.count
  have hle := h.le
  unfold Shell.key LineEditor.key
  by_cases henter : c = 10
  · rw [if_pos henter, if_pos henter]
    exact h.enter cmds
  rw [if_neg henter, if_neg henter]
  by_cases hback : c = 8
  · rw [if_pos hback, hback, if_neg (by decide), if_neg (by decide), typeKey, if_pos rfl]
    exact ⟨_, rfl, h.line.back, h.history, h.pos, h.le, h.executed, h.calls, h.printable⟩
  rw [if_neg hback]
  by_cases hup : c = keyUp
  · rw [if_pos hup, if_pos hup, Shell.up, h.pos]
    by_cases hzero : e.pos = 0
    · rw [if_pos hzero, if_neg (by omega)]
      exact ⟨sh, rfl, h⟩
    · rw [if_neg hzero, if_pos (by omega)]
      exact h.recallLine cmds (getElem?_recent (by omega))
  rw [if_neg hup, if_neg hup]
  by_cases hdown : c = keyDown
  · rw [if_pos hdown, if_pos hdown, Shell.down, h.pos, hcount]
    by_cases hnext : e.pos + 1 < (recent e.entered).length
    · rw [if_pos hnext, if_pos hnext]
      exact h.recallLine cmds (getElem?_recent hnext)
    · rw [if_neg hnext, if_neg hnext]
      exact ⟨_, rfl, .empty _ rfl (by decide), h.history, rfl, le_rfl, h.executed, h.calls, h.printable⟩
  rw [if_neg hdown, if_neg hdown, typeKey, if_neg hback, h.line.length]
  by_cases hroom : e.text.length < 255 ∧ IsPrintable c
  · obtain ⟨cmd, hpush, hcmd⟩ := h.line.push hroom.1 hroom.2
    rw [if_pos ⟨hroom.2.1, hroom.2.2, hroom.1⟩, if_pos hroom, hpush]
    exact ⟨_, rfl, hcmd, h.history, h.pos, h.le, h.executed, h.calls, h.printable⟩
  · rw [if_neg (fun hc => hroom ⟨hc.2.2, hc.1, hc.2.1⟩), if_neg hroom]
    exact ⟨sh, rfl, h⟩

theorem run (h : sh.Refines cmds start e) (keys : List UInt8) :
    ∃ sh', keys.foldlM (Shell.key cmds) sh = .ok sh' ∧
      sh'.Refines cmds start (keys.foldl LineEditor.key e) := by
  induction keys generalizing sh e with
  | nil => exact ⟨sh, rfl, h⟩
  | cons c keys ih =>
    obtain ⟨next, hkey, hnext⟩ := h.key cmds c
    rw [List.foldlM_cons, List.foldl_cons, hkey]
    exact ih hnext

theorem init (world : σ) : (shellInit cmds world).Refines cmds world (.fresh []) :=
  .prompt cmds ⟨rfl, by decide, fun _ _ htext => by cases htext⟩ rfl .start (List.forall_mem_nil _)

end Shell.Refines

/-- Whatever keys are pressed, no array is left, the lines executed are those of the reference editor,
the history is the last ten of them, and the line in the buffer is the text being edited; what has become
of the world is the work of `execute_command` on these very lines. -/
theorem shell_refines_editor (world : σ) (keys : List UInt8) :
    ∃ sh, shellRun cmds world keys = .ok sh ∧
      sh.executed = (LineEditor.run keys).entered ∧
      sh.history.texts = (LineEditor.run keys).entered.rtake 10 ∧
      sh.cmd.text = (LineEditor.run keys).text ∧
      ExecutedFrom cmds world sh.executed sh.world := by
  obtain ⟨sh, hrun, h⟩ := (Shell.Refines.init cmds world).run cmds keys
  refine ⟨sh, hrun, h.executed, h.history.texts_eq, h.line.text, ?_⟩
  rw [h.executed]
  exact h.calls

end MyMisu
