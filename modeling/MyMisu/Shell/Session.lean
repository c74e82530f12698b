import MyMisu.Keyboard.Typing
import MyMisu.Shell.LineEditor
import MyMisu.Shell.TokenizerLoop
import MyMisu.Shell.Write

/-!
# From keys to commands

What is typed at the prompt is executed: the scan codes of some lines, taken in by the key interrupts,
fetched by `keyboard_getchar`, edited into `cmd_buffer`, cut into arguments there and handed to the
`strcmp` chain of `execute_command`, come to the calls that the lines spell.
-/

namespace MyMisu

open LineEditor (recent)

variable {σ : Type} (cmds : Commands σ)

/-- The arguments that a line spells. -/
def lineArgs (line : List UInt8) : List CStr := ((line.words space).take maxArgs).map CStr.ofBuffer

/-- What the line is meant to do, on the history with the line in it. -/
def execLine (history : List (List UInt8)) (world : σ) (line : List UInt8) : σ :=
  match lineArgs line with
  | [] => world
  | argv => (cmds.run world history argv).1

/-- The lines one after the other, behind those entered before. -/
def execLines (entered : List (List UInt8)) (world : σ) : List (List UInt8) → σ
  | [] => world
  | line :: lines =>
    execLines (entered ++ [line]) (execLine cmds (recent (entered ++ [line])) world line) lines

/-- The keys of a line are those of its characters and Enter. -/
def lineKeys (lines : List (List UInt8)) : List UInt8 := lines.flatMap fun line => line ++ [10]

/-- A line that can be typed and fits in the buffer. -/
structure Typeable (line : List UInt8) : Prop where
  nonempty : line ≠ []
  fits : line.length ≤ 255
  printable : ∀ c ∈ line, IsPrintable c

/-! ## One line -/

theorem foldlM_store {size : ℕ} {nuls : List ℕ} {buf buf' : CharArray size}
    (h : nuls.foldlM (fun buf i => buf.store i 0) buf = .ok buf') :
    buf'.bytes = storeNuls buf.bytes nuls := by
  induction nuls generalizing buf with
  | nil =>
    cases h
    rfl
  | cons i nuls ih =>
    rw [List.foldlM_cons] at h
    by_cases hi : i < size
    · rw [buf.store_ok hi] at h
      exact ih h
    · have herror : buf.store i 0 = .error .overrun := dif_neg hi
      rw [herror] at h
      cases h

/-- The arguments are cut out of the buffer where the line was typed. -/
theorem executeIn_world (world : σ) {history : History} {buf : CharArray 256} (hend : 0 ∈ buf.bytes)
    {buf' : CharArray 256} {world' : σ} {shown : List Console}
    (h : executeIn cmds world history buf = .ok (buf', world', shown)) :
    world' = execLine cmds history.texts world (cString buf.bytes) := by
  obtain ⟨argv, nuls, htokens, hsplits⟩ := tokenize_words hend maxArgs 0
  simp only [Nat.zero_add, List.map_id'] at htokens
  have hargs : lineArgs (cString buf.bytes) =
      argv.map fun a => CStr.ofBuffer ((storeNuls buf.bytes nuls).drop a) := by
    rw [lineArgs, ← hsplits.texts, List.map_map]
    refine List.map_congr_left fun a _ => ?_
    exact CStr.ext_bytes (cString_of_noNul (cString_ne_zero _))
  simp only [executeIn, htokens, bind, Except.bind] at h
  cases hstores : nuls.foldlM (fun buf i => buf.store i 0) buf with
  | error e =>
    rw [hstores] at h
    cases h
  | ok cut =>
    rw [hstores] at h
    simp only at h
    rw [execLine, hargs, ← foldlM_store hstores]
    by_cases hnone : argv = []
    · rw [if_pos hnone] at h
      have hparts := Prod.mk.inj (Except.ok.inj h)
      rw [hnone]
      exact (Prod.mk.inj hparts.2).1.symm
    · rw [if_neg hnone] at h
      have hrun := (Prod.ext_iff.mp (Except.ok.inj h)).2
      obtain ⟨a, argv, rfl⟩ := List.exists_cons_of_ne_nil hnone
      exact (congrArg Prod.fst hrun).symm

theorem execLines_append (entered : List (List UInt8)) (world : σ) (xs ys : List (List UInt8)) :
    execLines cmds entered world (xs ++ ys) =
      execLines cmds (entered ++ xs) (execLines cmds entered world xs) ys := by
  induction xs generalizing entered world with
  | nil => rw [List.nil_append, List.append_nil, execLines]
  | cons x xs ih =>
    rw [List.cons_append, execLines, execLines, ih, List.append_assoc, List.singleton_append]

/-! ## Every key -/

/-- Executed where they were typed, the lines have done what they spell. -/
theorem ExecutedFrom.world_eq {start world : σ} {lines : List (List UInt8)}
    (h : ExecutedFrom cmds start lines world) : world = execLines cmds [] start lines := by
  induction h with
  | start => rfl
  | line before hbuf hhistory hrun ih =>
    have hline := executeIn_world cmds _ hbuf.1 hrun
    have htext : cString _ = _ := hbuf.2
    rw [hline, hhistory, htext, ih, execLines_append, List.nil_append, execLines, execLines]

/-- Whatever keys are pressed, what has become of the world is the work of the lines that the reference
editor has entered, in their order, each on the arguments it spells and the last ten lines. -/
theorem shellRun_executes (world : σ) (keys : List UInt8) :
    ∃ sh, shellRun cmds world keys = .ok sh ∧
      sh.world = execLines cmds [] world (LineEditor.run keys).entered := by
  obtain ⟨sh, hrun, h⟩ := (Shell.Refines.init cmds world).run cmds keys
  exact ⟨sh, hrun, h.calls.world_eq cmds⟩

/-! ## Lines typed -/

namespace LineEditor

variable (entered : List (List UInt8))

theorem key_enter (e : LineEditor) :
    e.key 10 = fresh (if e.text = [] then e.entered else e.entered ++ [e.text]) :=
  if_pos rfl

theorem key_printable (text : List UInt8) {c : UInt8} (hc : IsPrintable c) (hroom : text.length < 255) :
    LineEditor.key { fresh entered with text } c = { fresh entered with text := text ++ [c] } := by
  have hne : c ≠ 10 ∧ c ≠ 8 ∧ c ≠ keyUp ∧ c ≠ keyDown := by
    obtain ⟨hlow, hhigh⟩ := hc
    refine ⟨?_, ?_, ?_, ?_⟩ <;> (rintro rfl; revert hlow hhigh; decide)
  unfold LineEditor.key
  rw [if_neg hne.1, if_neg hne.2.2.1, if_neg hne.2.2.2, typeKey, if_neg hne.2.1, if_pos ⟨hroom, hc⟩]

/-- Printable characters are taken as far as they fit. -/
theorem type_text (text : List UInt8) {more : List UInt8} (hmore : ∀ c ∈ more, IsPrintable c)
    (hfits : (text ++ more).length ≤ 255) :
    more.foldl LineEditor.key { fresh entered with text } =
      { fresh entered with text := text ++ more } := by
  induction more generalizing text with
  | nil => rw [List.foldl_nil, List.append_nil]
  | cons c more ih =>
    rw [List.forall_mem_cons] at hmore
    rw [List.length_append, List.length_cons] at hfits
    have hstep := key_printable entered text hmore.1 (by omega)
    rw [List.foldl_cons, hstep, ih _ hmore.2, List.append_assoc, List.singleton_append]
    rw [List.length_append, List.length_append, List.length_singleton]
    omega

theorem type_line {line : List UInt8} (hline : Typeable line) :
    (line ++ [10]).foldl LineEditor.key (fresh entered) = fresh (entered ++ [line]) := by
  have htext := type_text entered [] hline.printable hline.fits
  rw [List.nil_append] at htext
  rw [List.foldl_append]
  show [10].foldl LineEditor.key (line.foldl LineEditor.key { fresh entered with text := [] }) = _
  rw [htext, List.foldl_cons, List.foldl_nil, key_enter, if_neg hline.nonempty]
  rfl

/-- As many of the lines have been entered as there were Enters. -/
theorem type_lines {lines : List (List UInt8)} (hlines : ∀ line ∈ lines, Typeable line)
    {keys : List UInt8} (hkeys : keys <+: lineKeys lines) :
    (keys.foldl LineEditor.key (fresh entered)).entered = entered ++ lines.take (keys.count 10) := by
  induction lines generalizing entered keys with
  | nil =>
    have hnone : keys = [] := List.prefix_nil.mp hkeys
    rw [hnone, List.take_nil, List.append_nil]
    rfl
  | cons line lines ih =>
    rw [List.forall_mem_cons] at hlines
    have hcount : line.count 10 = 0 := by
      rw [List.count_eq_zero]
      intro hmem
      exact absurd (hlines.1.printable 10 hmem) (by decide)
    have hkeys : keys <+: (line ++ [10]) ++ lineKeys lines := hkeys
    rcases List.prefix_or_prefix_of_prefix hkeys (List.prefix_append _ _) with hin | hbehind
    · rcases List.prefix_concat_iff.mp hin with rfl | hpart
      · rw [type_line entered hlines.1, List.count_append, hcount]
        rfl
      · -- the line is still being typed
        have htext := type_text entered [] (fun c hc => hlines.1.printable c (hpart.subset hc))
          (hpart.length_le.trans hlines.1.fits)
        have hcount' : keys.count 10 = 0 := by
          have := hpart.sublist.count_le 10
          omega
        rw [hcount', List.take_zero, List.append_nil]
        exact congrArg LineEditor.entered htext
    · obtain ⟨more, rfl⟩ := hbehind
      have hmore : more <+: lineKeys lines := (List.prefix_append_right_inj _).mp hkeys
      rw [List.foldl_append, type_line entered hlines.1, ih _ hlines.2 hmore, List.count_append,
        List.count_append, hcount, List.count_singleton_self, Nat.zero_add, Nat.add_comm, List.take_succ_cons,
        List.append_assoc, List.singleton_append]

end LineEditor

theorem IsPrintable.onKey {c : UInt8} (hc : IsPrintable c) : OnKey c := by
  obtain ⟨hlow, hhigh⟩ := hc
  exact .inl ⟨hlow, by simp only [UInt8.lt_iff_toNat_lt, UInt8.le_iff_toNat_le] at *; simp at *; omega⟩

theorem lineKeys_onKey {lines : List (List UInt8)} (hlines : ∀ line ∈ lines, Typeable line) :
    ∀ c ∈ lineKeys lines, OnKey c := by
  intro c hc
  obtain ⟨line, hline, hc⟩ := List.mem_flatMap.mp hc
  rcases List.mem_append.mp hc with hc | hc
  · exact ((hlines line hline).printable c hc).onKey
  · rw [List.mem_singleton.mp hc]
    decide

theorem lineKeys_count {lines : List (List UInt8)} (hlines : ∀ line ∈ lines, Typeable line) :
    (lineKeys lines).count 10 = lines.length := by
  induction lines with
  | nil => rfl
  | cons line lines ih =>
    rw [List.forall_mem_cons] at hlines
    have hcount : line.count 10 = 0 := by
      rw [List.count_eq_zero]
      intro hmem
      exact absurd (hlines.1.printable 10 hmem) (by decide)
    show ((line ++ [10]) ++ lineKeys lines).count 10 = _
    rw [List.count_append, List.count_append, hcount, ih hlines.2, List.length_cons]
    show 0 + 1 + _ = _
    omega

/-- Lines are typed on the keys, with caps lock on or off, and the queue has room for every key.  However
the key interrupts fall between the statements of `keyboard_getchar`, at any moment, also between the keys,
the shell has executed as many of the lines as Enters have been returned, in their order, each on the
arguments it spells; when all keys are in and the queue has run empty it has executed all of them. -/
theorem typed_lines_executed (world : σ) (caps : Bool) (lines : List (List UInt8))
    (hlines : ∀ line ∈ lines, Typeable line) (h : Typing) (hr : typingSystem.Reach RoomForKey h)
    (hcodes : h.codes <+: keyStrokes caps (lineKeys lines)) :
    (∃ sh, shellRun cmds world h.queue.returned = .ok sh ∧
      sh.executed = lines.take (h.queue.returned.count 10) ∧
      sh.world = execLines cmds [] world sh.executed) ∧
    (h.codes = keyStrokes caps (lineKeys lines) →
      ∃ n sh, shellRun cmds world (KbHist.consumer^[n] h.queue).returned = .ok sh ∧
        sh.executed = lines ∧ sh.world = execLines cmds [] world lines) := by
  have hi := TypingInv.reach hr
  have hprefix : ∀ keys, keys <+: lineKeys lines → ∃ sh, shellRun cmds world keys = .ok sh ∧
      sh.executed = lines.take (keys.count 10) ∧ sh.world = execLines cmds [] world sh.executed := by
    intro keys hkeys
    obtain ⟨sh, hrun, hsh⟩ := (Shell.Refines.init cmds world).run cmds keys
    refine ⟨sh, hrun, ?_, ?_⟩
    · rw [hsh.executed, LineEditor.type_lines [] hlines hkeys, List.nil_append]
    · rw [hsh.executed]
      exact hsh.calls.world_eq cmds
  constructor
  · apply hprefix
    exact hi.returned_prefix.trans (TypingInv.accepted_prefix hr (lineKeys_onKey hlines) hcodes)
  · intro hall
    obtain ⟨n, hdrained⟩ := hi.queue.drained
    rw [TypingInv.accepted_all hr (lineKeys_onKey hlines) hall] at hdrained
    obtain ⟨sh, hrun, hexecuted, hworld⟩ := hprefix _ (List.prefix_refl _)
    rw [lineKeys_count hlines, List.take_length] at hexecuted
    refine ⟨n, sh, by rw [hdrained]; exact hrun, hexecuted, by rw [← hexecuted]; exact hworld⟩

/-- The two lines `a` and `b c`, with the consumer at work between the keys. -/
def twoLines : List (List UInt8) := [ascii "a", ascii "b c"]

def typingEvents (lines : List (List UInt8)) : List TypingEvent :=
  ((keyStrokes false (lineKeys lines)).take 5).map .irq ++ List.replicate 7 .consumer ++
    ((keyStrokes false (lineKeys lines)).drop 5).map .irq

/-- A world that counts the arguments. -/
def countArgs : Commands ℕ where
  pwd _ := .ofString "/"
  run n _ argv := (n + argv.length, [])

theorem twoLines_typeable : ∀ line ∈ twoLines, Typeable line :=
  List.forall_mem_cons.mpr ⟨⟨by decide, by decide, by decide +kernel⟩,
    List.forall_mem_singleton.mpr ⟨by decide, by decide, by decide +kernel⟩⟩

/-- Behind the first line, in the middle of the keys of the second, and behind all keys. -/
theorem typed_lines_executed_two :
    (let h := ((typingEvents twoLines).take 13).foldl Typing.exec .start
    h.queue.returned.count 10 = 1 ∧
      ∃ sh, shellRun countArgs 0 h.queue.returned = .ok sh ∧
        sh.executed = twoLines.take (h.queue.returned.count 10) ∧
        sh.world = execLines countArgs [] 0 sh.executed) ∧
    let h := (typingEvents twoLines).foldl Typing.exec .start
    ∃ n sh, shellRun countArgs 0 (KbHist.consumer^[n] h.queue).returned = .ok sh ∧
      sh.executed = twoLines ∧ sh.world = execLines countArgs [] 0 twoLines :=
  ⟨⟨by decide +kernel,
      (typed_lines_executed countArgs 0 false twoLines twoLines_typeable _
        (typing_reach (by decide +kernel)) (by decide +kernel)).1⟩,
    (typed_lines_executed countArgs 0 false twoLines twoLines_typeable _
      (typing_reach (by decide +kernel)) (by decide +kernel)).2 (by decide +kernel)⟩

/-! ## Files written at the prompt -/

/-- The `strcmp` chain of `execute_command` on the arguments. -/
def executeArgs (env : ShellEnv) (s : FsState) : List CStr → CmdResult
  | [] => .ok (s, [])
  | cmd :: args =>
    let is name := strcmp cmd.bytes (CStr.ofString name).bytes = 0
    let argv := cmd :: args
    if is "pwd" then .ok (s, [.print (ascii "  " ++ (fsPwd s).bytes ++ [10])])
    else if is "cd" then cmdCd s argv
    else if is "cat" then cmdCat env s argv
    else if is "touch" then cmdTouch env s argv
    else if is "write" then cmdWriteFile env s argv
    else if is "edit" then cmdEdit env s argv
    else if is "mkdir" then cmdMkdirShell env s argv
    else if is "rm" then cmdRm s argv
    else if is "tree" then cmdTree env.frames s
    else if is "note" then cmdNote env s argv
    else env.other s argv

/-- The file commands at the prompt; nothing is known any more of a world in which one got stuck. -/
def fileCommands (env : ShellEnv) : Commands (Except Stuck FsState) where
  pwd world :=
    match world with
    | .ok s => fsPwd s
    | .error _ => .ofString ""
  run world _ argv :=
    match world with
    | .ok s =>
      match executeArgs env s argv with
      | .ok (s', out) => (.ok s', out)
      | .error e => (.error e, [])
    | .error e => (.error e, [])

/-- The arguments cut in place and those cut off a copy of the line lead to the same command. -/
theorem execLine_fileCommands (env : ShellEnv) (history : List (List UInt8)) (s : FsState) (line : CStr) :
    execLine (fileCommands env) history (.ok s) line.bytes = (executeCommand env s line).map Prod.fst := by
  unfold execLine executeCommand lineArgs
  rw [splitArgs_eq]
  cases ((line.bytes.words space).take maxArgs).map CStr.ofBuffer with
  | nil => rfl
  | cons cmd args =>
    show (match executeArgs env s (cmd :: args) with
      | .ok (s', out) => ((.ok s', out) : Except Stuck FsState × List Console)
      | .error e => (.error e, [])).1 = (executeArgs env s (cmd :: args)).map Prod.fst
    cases executeArgs env s (cmd :: args) <;> rfl

/-- What the files hold once some `write` lines have been executed; `argv` has room for 14 words. -/
def contentAfter (s : FsState) (lines : List (List UInt8)) (idx : NodeIdx) : List UInt8 :=
  lines.foldl
    (fun content line =>
      match line.words space with
      | _ :: f :: ts => if findNode s (.ofBuffer f) = some idx then joinWords (ts.take 14) else content
      | _ => content)
    (s.nodes idx).content

/-- The line writes to a file of the current directory. -/
def WritesHere (s : FsState) (line : List UInt8) : Prop :=
  ∃ f ts idx, line.words space = ascii "write" :: f :: ts ∧ ts ≠ [] ∧ FileHere s (.ofBuffer f) idx

/-- From `s` nothing has changed but what files hold. -/
structure Rewritten (s t : FsState) : Prop where
  tree : FsTree t
  files : ∀ name idx, FileHere s name idx → FileHere t name idx

theorem Rewritten.write {s t : FsState} (h : Rewritten s t) (env : ShellEnv) {line : CStr}
    (hlen : line.bytes.length ≤ 255) {f : List UInt8} {ts : List (List UInt8)}
    (hwords : line.bytes.words space = ascii "write" :: f :: ts) (hts : ts ≠ []) {idx : NodeIdx}
    (hfile : FileHere s (.ofBuffer f) idx) :
    ∃ t' out, executeCommand env t line = .ok (t', out) ∧ Rewritten s t' ∧
      (t'.nodes idx).content = joinWords (ts.take 14) ∧ ∀ i, i ≠ idx → t'.nodes i = t.nodes i := by
  obtain ⟨w, rest, hcons, hbytes, hshort⟩ := @kept_words line hlen [ascii "write", f] ts hwords hts 14
    (by decide)
  have hargs : splitArgs maxArgs line.bytes =
      .ofBuffer (ascii "write") :: .ofBuffer f :: (ts.take 14).map CStr.ofBuffer := by
    rw [splitArgs_eq, hwords]
    rfl
  have hhere := h.files _ _ hfile
  have hfound := hhere.found h.tree
  obtain ⟨done, hrun⟩ := @cmdWriteFile_file t idx env (.ofBuffer (ascii "write")) (.ofBuffer f) w rest
    hfound hhere.file (by rwa [hbytes])
  rw [hbytes] at hrun
  -- the command has done what `fs_write_file` does
  have hcall : (fsWriteFile t (.ofBuffer f) (joinWords (ts.take 14))).2 =
      t.setNode idx ((t.nodes idx).stored (joinWords (ts.take 14))) := by
    rw [fsWriteFile_file hfound hhere.file]
  refine ⟨_, _, by rw [executeCommand_write env hargs, hcons]; exact hrun, ⟨?_, ?_⟩, ?_, ?_⟩
  · rw [← hcall]
    exact (fsWriteFile_updates t (.ofBuffer f) _).invariant (fun _ _ hc h => h.update hc) h.tree
  · intro name i hi
    have hi := h.files name i hi
    by_cases hsame : i = idx
    · subst hsame
      refine ⟨?_, ?_, ?_, ?_⟩
      · rw [FsState.used, FsState.setNode_self]
        exact hi.used
      · rw [FsState.parentOf, FsState.setNode_self]
        exact hi.here
      · rw [FsState.nameOf, FsState.setNode_self]
        exact hi.named
      · rw [FsState.setNode_self]
        exact hi.file
    · refine ⟨?_, ?_, ?_, ?_⟩
      · rw [FsState.used, FsState.setNode_ne _ _ hsame]
        exact hi.used
      · rw [FsState.parentOf, FsState.setNode_ne _ _ hsame]
        exact hi.here
      · rw [FsState.nameOf, FsState.setNode_ne _ _ hsame]
        exact hi.named
      · rw [FsState.setNode_ne _ _ hsame]
        exact hi.file
  · rw [FsState.setNode_self, content_stored hhere.file]
    exact List.take_of_length_le (by omega)
  · intro i hi
    rw [FsState.setNode_ne _ _ hi]

/-- Line after line, the contents are those that the words of the lines say. -/
theorem Rewritten.lines {s : FsState} (hs : FsTree s) (env : ShellEnv) {lines : List (List UInt8)}
    (hlines : ∀ line ∈ lines, Typeable line) (hwrites : ∀ line ∈ lines, WritesHere s line) :
    ∃ t, execLines (fileCommands env) [] (.ok s) lines = .ok t ∧ Rewritten s t ∧
      ∀ idx, (t.nodes idx).content = contentAfter s lines idx := by
  induction lines using List.reverseRecOn with
  | nil => exact ⟨s, rfl, ⟨hs, fun _ _ hfile => hfile⟩, fun _ => rfl⟩
  | append_singleton lines line ih =>
    rw [List.forall_mem_append, List.forall_mem_singleton] at hlines hwrites
    obtain ⟨t, hrun, ht, hcontent⟩ := ih hlines.1 hwrites.1
    obtain ⟨f, ts, idx, hwords, hts, hfile⟩ := hwrites.2
    have hnoNul : ∀ c ∈ line, c ≠ 0 := fun c hc => (hlines.2.printable c hc).ne_zero
    obtain ⟨t', out, hcommand, ht', hwritten, hothers⟩ :=
      @Rewritten.write s t ht env ⟨line, hnoNul⟩ hlines.2.fits f ts hwords hts idx hfile
    have hline := execLine_fileCommands env (recent (lines ++ [line])) t ⟨line, hnoNul⟩
    rw [hcommand] at hline
    have hfound := hfile.found hs
    refine ⟨t', ?_, ht', fun i => ?_⟩
    · rw [execLines_append, hrun, List.nil_append, execLines, execLines]
      exact hline
    · rw [contentAfter, List.foldl_append, List.foldl_cons, List.foldl_nil, hwords]
      simp only
      rw [hfound]
      by_cases hi : idx = i
      · rw [if_pos (congrArg some hi), ← hi, hwritten]
      · rw [if_neg (fun heq => hi (Option.some.inj heq)), hothers i (Ne.symm hi), hcontent i]
        rfl

/-- `write` lines typed on the keys end in the files: when the queue is empty every file holds the words of
the last line that wrote to it, the first 14 of them, and what no line wrote to holds what it held. -/
theorem typed_writes_stored (env : ShellEnv) (s : FsState) (hs : fsSystem.Reachable s) (caps : Bool)
    (lines : List (List UInt8)) (hlines : ∀ line ∈ lines, Typeable line)
    (hwrites : ∀ line ∈ lines, WritesHere s line) (h : Typing)
    (hr : typingSystem.Reach RoomForKey h) (hcodes : h.codes = keyStrokes caps (lineKeys lines)) :
    ∃ n sh t, shellRun (fileCommands env) (.ok s) (KbHist.consumer^[n] h.queue).returned = .ok sh ∧
      sh.world = .ok t ∧ ∀ idx, (t.nodes idx).content = contentAfter s lines idx := by
  have haccepted := TypingInv.accepted_all hr (lineKeys_onKey hlines) hcodes
  obtain ⟨n, hdrained⟩ := (TypingInv.reach hr).queue.drained
  obtain ⟨t, hworld, -, hcontent⟩ := Rewritten.lines (FsTree.reachable hs) env hlines hwrites
  obtain ⟨sh, hrun, hsh⟩ := (Shell.Refines.init (fileCommands env) (.ok s)).run _ (lineKeys lines)
  have hentered := LineEditor.type_lines [] hlines (List.prefix_refl _)
  rw [lineKeys_count hlines, List.take_length, List.nil_append] at hentered
  refine ⟨n, sh, t, ?_, ?_, hcontent⟩
  · rw [hdrained, haccepted]
    exact hrun
  · rw [hsh.calls.world_eq, hentered, hworld]

def hostnameLine : List UInt8 := ascii "write hostname pc"

theorem typed_writes_stored_hostname :
    let h := (typingEvents [hostnameLine]).foldl Typing.exec .start
    ∃ n sh t, shellRun (fileCommands (plainEnv [])) (.ok (fsInit 0))
        (KbHist.consumer^[n] h.queue).returned = .ok sh ∧
      sh.world = .ok t ∧ ∀ idx, (t.nodes idx).content = contentAfter (fsInit 0) [hostnameLine] idx :=
  typed_writes_stored (plainEnv []) (fsInit 0) (.init ⟨0, rfl⟩) false [hostnameLine]
    (List.forall_mem_singleton.mpr ⟨by decide, by decide, by decide +kernel⟩)
    (List.forall_mem_singleton.mpr
      ⟨ascii "hostname", [ascii "pc"], 6, by decide +kernel, by decide, hostname_here⟩)
    _ (typing_reach (by decide +kernel)) (by decide +kernel)

end MyMisu
