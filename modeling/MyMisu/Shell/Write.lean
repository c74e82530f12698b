import MyMisu.Shell.Arguments

/-!
# The commands `write` and `note`

Both join the arguments they are given and store them.  The tokenizer has given up on the words
behind the sixteenth by then, without a trace, and `note` appends to what it read of the file in an
array that has no room for more than a full file.
-/

namespace MyMisu

variable {s : FsState} {idx : NodeIdx}

/-- `idx` is the regular file `name` of the current directory. -/
structure FileHere (s : FsState) (name : CStr) (idx : NodeIdx) : Prop where
  used : s.used idx
  here : s.parentOf idx = some s.currentDir
  named : s.nameOf idx = name
  file : (s.nodes idx).type = .file

theorem FileHere.found {name : CStr} (hfile : FileHere s name idx) (h : FsTree s) :
    findNode s name = some idx :=
  findNodeIn_eq_some hfile.used hfile.named hfile.here fun j hj hp hn =>
    h.siblings j idx hj hfile.used (hp.trans hfile.here.symm) (hn.trans hfile.named.symm)

theorem content_stored {node : FsNode} (hfile : node.type = .file) (buf : List UInt8) :
    (node.stored buf).content = buf.take 4095 := by
  have hentry := entry_stored hfile buf
  rw [FsNode.entry_file (by exact hfile)] at hentry
  exact Entry.file.inj hentry

/-- `fs_write_file` replaces the content of a file and nothing else about it. -/
theorem FileHere.written {name : CStr} (hfile : FileHere s name idx) (h : FsTree s)
    (buf : List UInt8) :
    FileHere (fsWriteFile s name buf).2 name idx ∧
      ((fsWriteFile s name buf).2.nodes idx).content = buf.take 4095 := by
  rw [fsWriteFile_file (hfile.found h) hfile.file]
  refine ⟨⟨?_, ?_, ?_, ?_⟩, ?_⟩
  · rw [FsState.used, FsState.setNode_self]
    exact hfile.used
  · rw [FsState.parentOf, FsState.setNode_self]
    exact hfile.here
  · rw [FsState.nameOf, FsState.setNode_self]
    exact hfile.named
  · rw [FsState.setNode_self]
    exact hfile.file
  · rw [FsState.setNode_self, content_stored hfile.file]

/-- The text a command joins in an array that has room for it. -/
theorem joined_ok {size : ℕ} (env : ShellEnv) (ws : List CStr)
    (hroom : (joinWords (ws.map CStr.bytes)).length < size) :
    ∃ a b data : CharArray size, env.emptyArray size = .ok a ∧ catArgs a ws = .ok b ∧
      strcat b (.ofString "\n") = .ok data ∧ data.str.bytes = joinWords (ws.map CStr.bytes) := by
  have hline : (CStr.ofString "\n").bytes = [10] := rfl
  rw [joinWords, List.length_append, List.length_singleton] at hroom
  obtain ⟨a, hempty, ha⟩ := @emptyArray_ok size env (by omega)
  obtain ⟨b, hcat, hb⟩ := catArgs_ok a ws (by
    rw [ha, List.length_nil]
    omega)
  rw [ha, List.nil_append] at hb
  obtain ⟨data, hend, hdata⟩ := strcat_ok b (.ofString "\n") (by
    rw [hb, hline, List.length_singleton]
    omega)
  exact ⟨a, b, data, hempty, hcat, hend, by rw [hdata, hb, hline, joinWords]⟩

/-! ## `write` -/

theorem cmdWriteFile_file (env : ShellEnv) {cmd name w : CStr} {ws : List CStr}
    (hf : findNode s name = some idx) (hfile : (s.nodes idx).type = .file)
    (hroom : (joinWords ((w :: ws).map CStr.bytes)).length < 1024) :
    ∃ done, cmdWriteFile env s (cmd :: name :: w :: ws) =
      .ok (s.setNode idx ((s.nodes idx).stored (joinWords ((w :: ws).map CStr.bytes))),
        [.ink vgaGreen, .print (ascii "  Wrote " ++ done), .ink vgaLightGrey]) := by
  obtain ⟨a, b, data, hempty, hcat, hend, hdata⟩ := joined_ok env (w :: ws) hroom
  refine ⟨printInt (min (joinWords ((w :: ws).map CStr.bytes)).length (fsMaxData - 1) : ℕ) ++
    ascii " bytes\n", ?_⟩
  unfold cmdWriteFile
  simp only
  rw [hempty]
  show (catArgs a (w :: ws) >>= _) = _
  rw [hcat]
  show (strcat b (.ofString "\n") >>= _) = _
  rw [hend]
  show Except.ok _ = _
  rw [hdata, fsWriteFile_file hf hfile]
  have hok : decide (¬ ((min (joinWords ((w :: ws).map CStr.bytes)).length (fsMaxData - 1) : ℕ) : ℤ) < 0) =
      true := decide_eq_true (by omega)
  rw [hok, report, if_pos rfl, List.append_assoc]

theorem executeCommand_write (env : ShellEnv) {line : CStr} {args : List CStr}
    (hargs : splitArgs maxArgs line.bytes = .ofBuffer (ascii "write") :: args) :
    executeCommand env s line = cmdWriteFile env s (.ofBuffer (ascii "write") :: args) := by
  unfold executeCommand
  rw [hargs]
  rfl

/-- What is left of the words behind the name: `argv` has room for 14 of them. -/
theorem executeCommand_write_file (env : ShellEnv) (h : FsTree s) {line : CStr}
    (hlen : line.bytes.length ≤ 255) {f : List UInt8} {ts : List (List UInt8)}
    (hwords : line.bytes.words space = ascii "write" :: f :: ts) (hts : ts ≠ [])
    (hfile : FileHere s (.ofBuffer f) idx) :
    ∃ s' done, executeCommand env s line =
        .ok (s', [.ink vgaGreen, .print (ascii "  Wrote " ++ done), .ink vgaLightGrey]) ∧
      (s'.nodes idx).content = joinWords (ts.take 14) := by
  obtain ⟨w, rest, hcons, hbytes, hshort⟩ := @kept_words line hlen [ascii "write", f] ts hwords hts 14
    (by decide)
  have hargs : splitArgs maxArgs line.bytes =
      .ofBuffer (ascii "write") :: .ofBuffer f :: (ts.take 14).map CStr.ofBuffer := by
    rw [splitArgs_eq, hwords]
    rfl
  have hfit : (joinWords ((w :: rest).map CStr.bytes)).length ≤ 4095 := by
    rw [hbytes]
    omega
  rw [executeCommand_write env hargs, hcons]
  obtain ⟨done, hrun⟩ := @cmdWriteFile_file s idx env (.ofBuffer (ascii "write")) (.ofBuffer f) w rest
    (hfile.found h) hfile.file (by rwa [hbytes])
  refine ⟨_, done, hrun, ?_⟩
  rw [FsState.setNode_self, content_stored hfile.file, List.take_of_length_le hfit, hbytes]

/-- `execute_command` leaves the file with the given text or prints that it failed. -/
def WritesText (env : ShellEnv) (s : FsState) (line : CStr) (idx : NodeIdx) (text : List UInt8) :
    Prop :=
  ∃ s' out, executeCommand env s line = .ok (s', out) ∧
    ((s'.nodes idx).content = text ∨ Console.print (ascii "  Not found (touch first)\n") ∈ out)

theorem wrote_not_failed (done : List UInt8) :
    Console.print (ascii "  Not found (touch first)\n") ∉
      [.ink vgaGreen, .print (ascii "  Wrote " ++ done), .ink vgaLightGrey] := by
  intro hmem
  have heq : ascii "  Not found (touch first)\n" = ascii "  Wrote " ++ done := by
    simpa [Console.ink] using hmem
  -- the texts differ in their third character
  have hthird := congrArg (fun l : List UInt8 => l[2]?) heq
  exact absurd (Option.some.inj hthird) (by decide)

/-- `write` stores all the text exactly when it has at most 14 words. -/
theorem write_stores_iff (env : ShellEnv) (s : FsState) (h : fsSystem.Reachable s) (line : CStr)
    (hlen : line.bytes.length ≤ 255) (f : List UInt8) (ts : List (List UInt8))
    (hwords : line.bytes.words space = ascii "write" :: f :: ts) (hts : ts ≠ []) (idx : NodeIdx)
    (hfile : FileHere s (.ofBuffer f) idx) :
    WritesText env s line idx (joinWords ts) ↔ ts.length ≤ 14 := by
  obtain ⟨s', done, hrun, hcontent⟩ :=
    executeCommand_write_file env (FsTree.reachable h) hlen hwords hts hfile
  constructor
  · rintro ⟨t, out, hrun', hres⟩
    rw [hrun] at hrun'
    obtain ⟨rfl, rfl⟩ := Prod.mk.inj (Except.ok.inj hrun')
    have hall := hres.resolve_right (wrote_not_failed done)
    by_contra hmany
    refine @joinWords_take_cut ts 14 (by decide) (not_le.mp hmany) ?_
    rw [← hcontent, hall]
  · intro hfew
    rw [List.take_of_length_le hfew] at hcontent
    exact ⟨s', _, hrun, .inl hcontent⟩

/-- Zeroed arrays and the given keys. -/
def plainEnv (keys : List UInt8) : ShellEnv where
  tick := 0
  keys := keys
  frames := 64
  junk size := ⟨List.replicate size 0, List.length_replicate⟩
  other _ _ := .error .waiting

theorem hostname_here : FileHere (fsInit 0) (.ofString "hostname") 6 :=
  ⟨by unfold FsState.used; decide +kernel, by unfold FsState.parentOf; decide +kernel,
    by unfold FsState.nameOf; decide +kernel, by decide +kernel⟩

theorem write_stores_hostname :
    WritesText (plainEnv []) (fsInit 0) (.ofString "write hostname new name") 6
      (joinWords [ascii "new", ascii "name"]) :=
  (write_stores_iff (plainEnv []) (fsInit 0) (.init ⟨0, rfl⟩) (.ofString "write hostname new name")
    (by decide) (ascii "hostname") [ascii "new", ascii "name"] (by decide +kernel) (by decide) 6
    hostname_here).mpr (by decide)

/-- `write hostname a b c d e f g h i j k l m n o`: the last of the 15 words is dropped. -/
theorem write_drops_word :
    ¬ ∀ env s, fsSystem.Reachable s → ∀ line : CStr, line.bytes.length ≤ 255 → ∀ f ts,
      line.bytes.words space = ascii "write" :: f :: ts → ts ≠ [] → ∀ idx,
      FileHere s (.ofBuffer f) idx → WritesText env s line idx (joinWords ts) := by
  intro hall
  have hreach : fsSystem.Reachable (fsInit 0) := .init ⟨0, rfl⟩
  have hlen : (CStr.ofString "write hostname a b c d e f g h i j k l m n o").bytes.length ≤ 255 := by
    decide
  have hwords : (CStr.ofString "write hostname a b c d e f g h i j k l m n o").bytes.words space =
      ascii "write" :: ascii "hostname" :: ((ascii "abcdefghijklmno").map fun c => [c]) := by
    decide +kernel
  obtain ⟨t, out, hrun, hres⟩ :=
    hall (plainEnv []) (fsInit 0) hreach _ hlen _ _ hwords (by decide) 6 hostname_here
  obtain ⟨s', done, hrun', hcontent⟩ := executeCommand_write_file (plainEnv [])
    (FsTree.reachable hreach) hlen hwords (by decide) hostname_here
  rw [hrun'] at hrun
  obtain ⟨rfl, rfl⟩ := Prod.mk.inj (Except.ok.inj hrun)
  have hall := hres.resolve_right (wrote_not_failed done)
  rw [hcontent] at hall
  revert hall
  decide

/-! ## `note` -/

/-- Creating a file that is there changes nothing. -/
theorem fsCreateFile_exists {name : CStr} (hf : findNode s name = some idx) (tick : ℕ) :
    (fsCreateFile s tick (some name)).2 = s := by
  unfold fsCreateFile
  rcases createEntry_cases .file (fun data => Function.update data 0 0) s tick (some name) with
    ⟨e, hrun, -⟩ | ⟨n, i, hn, -, -, hnew, -, -⟩
  · rw [hrun]
  · rw [← Option.some.inj hn, hf] at hnew
    cases hnew

/-- One of the bytes asked for is the terminator. -/
theorem readInto_file {name : CStr} (hf : findNode s name = some idx)
    (hfile : (s.nodes idx).type = .file) (hsize : (s.nodes idx).size < fsMaxData) {maxLen : ℕ}
    (hpos : 1 ≤ maxLen) (hle : maxLen ≤ 4096) (buf : CharArray 4096) :
    ∃ a rest, readInto s name buf maxLen = .ok (((min (s.nodes idx).size (maxLen - 1) : ℕ) : ℤ), a) ∧
      a.bytes = (s.nodes idx).content.take (maxLen - 1) ++ 0 :: rest := by
  have hlen := (s.nodes idx).content_length
  have hread : fsReadFile s name maxLen = (((min (s.nodes idx).size (maxLen - 1) : ℕ) : ℤ),
      (s.nodes idx).content.take (maxLen - 1) ++ [0]) := by
    rw [fsReadFile_file hf hfile hsize hpos, ← hlen, min_comm, ← List.take_take, List.take_length]
  obtain ⟨a, hstore, ha⟩ := buf.storeAll_ok
    (show 0 + ((s.nodes idx).content.take (maxLen - 1) ++ [0]).length ≤ 4096 by
      rw [List.length_append, List.length_take, List.length_singleton]
      omega)
  rw [List.take_zero, List.nil_append, List.append_assoc, List.singleton_append] at ha
  refine ⟨a, _, ?_, ha⟩
  unfold readInto
  rw [hread]
  show (buf.storeAll 0 _ >>= _) = _
  rw [hstore]
  rfl

/-- The whole content of a file and a terminator fit in an array of 4096 characters. -/
theorem readInto_whole {name : CStr} (hf : findNode s name = some idx)
    (hfile : (s.nodes idx).type = .file) (hsize : (s.nodes idx).size < fsMaxData)
    (hnul : ∀ b ∈ (s.nodes idx).content, b ≠ 0) (buf : CharArray 4096) :
    ∃ a, readInto s name buf 4096 = .ok (((s.nodes idx).size : ℤ), a) ∧
      a.str.bytes = (s.nodes idx).content := by
  have hlen := (s.nodes idx).content_length
  obtain ⟨a, rest, hread, ha⟩ := readInto_file hf hfile hsize (show 1 ≤ 4096 by decide) le_rfl buf
  simp only [fsMaxData] at hsize
  rw [min_eq_left (by omega)] at hread
  rw [List.take_of_length_le (by omega)] at ha
  refine ⟨a, hread, ?_⟩
  show cString a.bytes = _
  rw [ha]
  exact cString_append_nul hnul rest

/-- The new text is appended if it fits behind the old one; if it does not, `strcat` writes behind
the end of `ex`. -/
theorem cmdNote_file (env : ShellEnv) (h : FsTree s) {cmd w : CStr} {ws : List CStr}
    (hfile : FileHere s notesFile idx) (hsize : (s.nodes idx).size < fsMaxData)
    (hnul : ∀ b ∈ (s.nodes idx).content, b ≠ 0)
    (hroom : (joinWords ((w :: ws).map CStr.bytes)).length < 1024) :
    cmdNote env s (cmd :: w :: ws) =
      if (s.nodes idx).content.length + (joinWords ((w :: ws).map CStr.bytes)).length ≤ 4095 then
        .ok (s.setNode idx ((s.nodes idx).stored
            ((s.nodes idx).content ++ joinWords ((w :: ws).map CStr.bytes))),
          [.ink vgaGreen, .print (ascii "  Saved!\n"), .ink vgaLightGrey])
      else .error .overrun := by
  have hf := hfile.found h
  have hlen := (s.nodes idx).content_length
  obtain ⟨a, b, data, hempty, hcat, hend, hdata⟩ := joined_ok env (w :: ws) hroom
  obtain ⟨ex, hread, hex⟩ := readInto_whole hf hfile.file hsize hnul (env.junk 4096)
  unfold cmdNote
  simp only
  rw [fsCreateFile_exists hf, hempty]
  show (catArgs a (w :: ws) >>= _) = _
  rw [hcat]
  show (strcat b (.ofString "\n") >>= _) = _
  rw [hend]
  show (readInto s notesFile (env.junk 4096) 4096 >>= _) = _
  rw [hread]
  show (if (((s.nodes idx).size : ℕ) : ℤ) > 0 then (strcat ex data.str >>= _) else _) = _
  by_cases hempty : (s.nodes idx).size = 0
  · -- an empty file is not read back
    have hnil : (s.nodes idx).content = [] := List.length_eq_zero_iff.mp (hlen.trans hempty)
    rw [if_neg (by omega), hnil, List.length_nil, List.nil_append, if_pos (by omega)]
    show Except.ok _ = _
    rw [hdata, fsWriteFile_file hf hfile.file]
  · rw [if_pos (by omega)]
    by_cases hfits : (s.nodes idx).content.length + (joinWords ((w :: ws).map CStr.bytes)).length ≤ 4095
    · obtain ⟨all, hall, hbytes⟩ := strcat_ok ex data.str (by
        rw [hex, hdata]
        omega)
      rw [if_pos hfits, hall]
      show Except.ok _ = _
      rw [hbytes, hex, hdata, fsWriteFile_file hf hfile.file]
    · rw [if_neg hfits, strcat_overrun ex data.str (by
        rw [hex, hdata]
        omega)]
      rfl

theorem executeCommand_note (env : ShellEnv) {line : CStr} {args : List CStr}
    (hargs : splitArgs maxArgs line.bytes = .ofBuffer (ascii "note") :: args) :
    executeCommand env s line = cmdNote env s (.ofBuffer (ascii "note") :: args) := by
  unfold executeCommand
  rw [hargs]
  rfl

/-- `note` with the words that `argv` has room for. -/
theorem executeCommand_note_file (env : ShellEnv) (h : FsTree s) {line : CStr}
    (hlen : line.bytes.length ≤ 255) {ws : List (List UInt8)}
    (hwords : line.bytes.words space = ascii "note" :: ws) (hws : ws ≠ [])
    (hfile : FileHere s notesFile idx) (hsize : (s.nodes idx).size < fsMaxData)
    (hnul : ∀ b ∈ (s.nodes idx).content, b ≠ 0) :
    executeCommand env s line =
      if (s.nodes idx).content.length + (joinWords (ws.take 15)).length ≤ 4095 then
        .ok (s.setNode idx ((s.nodes idx).stored ((s.nodes idx).content ++ joinWords (ws.take 15))),
          [.ink vgaGreen, .print (ascii "  Saved!\n"), .ink vgaLightGrey])
      else .error .overrun := by
  obtain ⟨w, rest, hcons, hbytes, hshort⟩ := @kept_words line hlen [ascii "note"] ws hwords hws 15
    (by decide)
  have hargs : splitArgs maxArgs line.bytes =
      .ofBuffer (ascii "note") :: (ws.take 15).map CStr.ofBuffer := by
    rw [splitArgs_eq, hwords]
    rfl
  rw [executeCommand_note env hargs, hcons, cmdNote_file env h hfile hsize hnul (by rwa [hbytes]),
    hbytes]

/-- `execute_command` stores nothing outside an array and leaves the file with the first 4095 bytes
of what it held and the words. -/
def AppendsNote (env : ShellEnv) (s : FsState) (line : CStr) (idx : NodeIdx)
    (ws : List (List UInt8)) : Prop :=
  ∃ s' out, executeCommand env s line = .ok (s', out) ∧
    (s'.nodes idx).content = ((s.nodes idx).content ++ joinWords ws).take 4095

/-- The words that reach `cmd_note` are appended exactly when they fit in the file with what it
holds; all words of the line are, exactly when there are besides at most 15 of them. -/
theorem note_appends_iff (env : ShellEnv) (s : FsState) (h : fsSystem.Reachable s) (line : CStr)
    (hlen : line.bytes.length ≤ 255) (ws : List (List UInt8))
    (hwords : line.bytes.words space = ascii "note" :: ws) (hws : ws ≠ []) (idx : NodeIdx)
    (hfile : FileHere s notesFile idx) (hnul : ∀ b ∈ (s.nodes idx).content, b ≠ 0) :
    let args := (splitArgs maxArgs line.bytes).tail.map CStr.bytes
    (AppendsNote env s line idx args ↔
        (s.nodes idx).content.length + (joinWords args).length ≤ 4095) ∧
      (AppendsNote env s line idx ws ↔ ws.length ≤ 15 ∧
        (s.nodes idx).content.length + (joinWords ws).length ≤ 4095) := by
  intro args
  have hargs : args = ws.take 15 := by
    show (splitArgs maxArgs line.bytes).tail.map CStr.bytes = _
    rw [splitArgs_eq, hwords]
    refine @map_ofBuffer_words line _ ?_
    rw [hwords]
    exact (List.take_sublist 15 ws).cons _
  have hrun := executeCommand_note_file env (FsTree.reachable h) hlen hwords hws hfile
    ((NodeBounds.reachable h).size idx) hnul
  have hexact : AppendsNote env s line idx (ws.take 15) ↔
      (s.nodes idx).content.length + (joinWords (ws.take 15)).length ≤ 4095 := by
    unfold AppendsNote
    rw [hrun]
    split_ifs with hfits
    · refine iff_of_true ⟨_, _, rfl, ?_⟩ hfits
      rw [FsState.setNode_self, content_stored hfile.file]
    · refine iff_of_false ?_ hfits
      rintro ⟨s', out, hok, -⟩
      cases hok
  rw [hargs]
  refine ⟨hexact, ?_⟩
  by_cases hfew : ws.length ≤ 15
  · rw [List.take_of_length_le hfew] at hexact
    rw [hexact, and_iff_right hfew]
  · refine iff_of_false ?_ fun hboth => hfew hboth.1
    rintro ⟨s', out, hok, hcontent⟩
    rw [hrun] at hok
    split_ifs at hok with hfits
    obtain ⟨rfl, -⟩ := Prod.mk.inj (Except.ok.inj hok)
    -- the file ends with a newline where the joined words go on with a space
    refine @joinWords_take_cut ws 15 (by decide) (not_le.mp hfew) ?_
    rw [FsState.setNode_self, content_stored hfile.file, List.take_of_length_le (by
      rw [List.length_append]
      exact hfits)] at hcontent
    rw [← List.prefix_append_right_inj (s.nodes idx).content, hcontent]
    exact List.take_prefix _ _

/-- An empty `notes.txt` in the root. -/
def withNotes : FsState := fsExec (fsInit 0) (.createFile 0 (some notesFile))

theorem withNotes_here : FileHere withNotes notesFile 8 :=
  ⟨by unfold FsState.used; decide +kernel, by unfold FsState.parentOf; decide +kernel,
    by unfold FsState.nameOf; decide +kernel, by decide +kernel⟩

theorem note_appends_milk :
    let args := (splitArgs maxArgs (CStr.ofString "note buy milk").bytes).tail.map CStr.bytes
    (AppendsNote (plainEnv []) withNotes (.ofString "note buy milk") 8 args ↔
        (withNotes.nodes 8).content.length + (joinWords args).length ≤ 4095) ∧
      (AppendsNote (plainEnv []) withNotes (.ofString "note buy milk") 8 [ascii "buy", ascii "milk"] ↔
        [ascii "buy", ascii "milk"].length ≤ 15 ∧
          (withNotes.nodes 8).content.length + (joinWords [ascii "buy", ascii "milk"]).length ≤ 4095) :=
  note_appends_iff (plainEnv []) withNotes (.next (.init ⟨0, rfl⟩) rfl) (.ofString "note buy milk")
    (by decide) [ascii "buy", ascii "milk"] (by decide +kernel) (by decide) 8 withNotes_here
    (by decide +kernel)

/-- `notes.txt` as full as a file gets. -/
def fullNotes : FsState := fsExec withNotes (.writeFile notesFile (List.replicate 4095 97))

theorem notes_written {text : List UInt8} (hfits : text.length ≤ 4095) :
    FileHere (fsExec withNotes (.writeFile notesFile text)) notesFile 8 ∧
      ((fsExec withNotes (.writeFile notesFile text)).nodes 8).content = text := by
  have htree : FsTree withNotes := FsTree.reachable (.next (.init ⟨0, rfl⟩) rfl)
  have ⟨hhere, hcontent⟩ := withNotes_here.written htree text
  rw [List.take_of_length_le hfits] at hcontent
  have hexec : ∀ s name buf, fsExec s (.writeFile name buf) = (fsWriteFile s name buf).2 :=
    fun _ _ _ => rfl
  rw [hexec]
  exact ⟨hhere, hcontent⟩

theorem fullNotes_written :
    FileHere fullNotes notesFile 8 ∧ (fullNotes.nodes 8).content = List.replicate 4095 97 := by
  rw [fullNotes]
  exact notes_written (by rw [List.length_replicate])

theorem fullNotes_noNul : ∀ b ∈ (fullNotes.nodes 8).content, b ≠ 0 := by
  intro b hb
  rw [fullNotes_written.2] at hb
  rw [List.eq_of_mem_replicate hb]
  decide

/-- `note x` with a full `notes.txt` writes behind the end of `ex`. -/
theorem note_overruns :
    ¬ ∀ env s, fsSystem.Reachable s → ∀ line : CStr, line.bytes.length ≤ 255 → ∀ ws,
      line.bytes.words space = ascii "note" :: ws → ws ≠ [] → ∀ idx, FileHere s notesFile idx →
      (∀ b ∈ (s.nodes idx).content, b ≠ 0) →
      AppendsNote env s line idx ((splitArgs maxArgs line.bytes).tail.map CStr.bytes) := by
  intro hall
  have hreach : fsSystem.Reachable fullNotes := .next (.next (.init ⟨0, rfl⟩) rfl) rfl
  have hlen : (CStr.ofString "note x").bytes.length ≤ 255 := by decide
  have hwords : (CStr.ofString "note x").bytes.words space = ascii "note" :: [ascii "x"] := by
    decide +kernel
  obtain ⟨s', out, hok, -⟩ := hall (plainEnv []) fullNotes hreach _ hlen _ hwords (by decide) 8
    fullNotes_written.1 fullNotes_noNul
  rw [executeCommand_note_file (plainEnv []) (FsTree.reachable hreach) hlen hwords (by decide)
    fullNotes_written.1 ((NodeBounds.reachable hreach).size 8) fullNotes_noNul,
    fullNotes_written.2,
    List.length_replicate, if_neg (by decide)] at hok
  cases hok

end MyMisu
