import MyMisu.Shell.Write

/-!
# The editor

`cmd_edit` loads a file into an array, lets each key change the array and stores it again at ESC.
The load leaves out the last byte of a file of the greatest length, whatever is typed then.
-/

namespace MyMisu

variable {s : FsState} {idx : NodeIdx}

/-- What a key does to the text: a printable character or a newline is appended as long as there are
fewer than 4094 bytes, a backspace removes the last byte. -/
def editText (text : List UInt8) (c : UInt8) : List UInt8 :=
  if c = 8 then text.dropLast
  else if c = 10 ∨ 32 ≤ c ∧ c < 127 then if text.length < 4094 then text ++ [c] else text
  else text

def applyKeys (keys text : List UInt8) : List UInt8 := keys.foldl editText text

theorem length_editText_le {text : List UInt8} (h : text.length ≤ 4094) (c : UInt8) :
    (editText text c).length ≤ 4094 := by
  unfold editText
  split_ifs
  · rw [List.length_dropLast]
    omega
  · rw [List.length_append, List.length_singleton]
    omega
  · exact h
  · exact h

theorem length_applyKeys_le {text : List UInt8} (h : text.length ≤ 4094) (keys : List UInt8) :
    (applyKeys keys text).length ≤ 4094 := by
  induction keys generalizing text with
  | nil => exact h
  | cons c keys ih => exact ih (length_editText_le h c)

namespace Editor

/-- The text in the array. -/
def text (e : Editor) : List UInt8 := e.buf.bytes.take e.buflen

theorem length_text {e : Editor} (h : e.buflen ≤ 4094) : e.text.length = e.buflen := by
  unfold text
  rw [List.length_take, e.buf.length_eq]
  omega

/-- A character is stored in the array if the editor still takes one. -/
theorem append_eq {e : Editor} (h : e.buflen ≤ 4094) (c : UInt8) :
    ∃ e' shown, e.append c = .ok (e', shown) ∧ e'.buflen ≤ 4094 ∧
      e'.text = if e.text.length < 4094 then e.text ++ [c] else e.text := by
  rw [length_text h]
  unfold append
  by_cases hroom : e.buflen < 4094
  · rw [if_pos hroom, if_pos hroom]
    have hput : e.buf.store e.buflen c = .ok (e.buf.set e.buflen c) := if_pos (by omega)
    rw [hput]
    refine ⟨⟨e.buf.set e.buflen c, e.buflen + 1⟩, _, rfl, ?_, ?_⟩
    · show e.buflen + 1 ≤ 4094
      omega
    · exact e.buf.take_set (by omega) c
  · rw [if_neg hroom, if_neg hroom]
    exact ⟨e, [], rfl, h, rfl⟩

/-- A key changes the array as it changes the text, and the index stays in it. -/
theorem key_eq {e : Editor} (h : e.buflen ≤ 4094) (c : UInt8) :
    ∃ e' shown, e.key c = .ok (e', shown) ∧ e'.buflen ≤ 4094 ∧ e'.text = editText e.text c := by
  unfold key editText
  by_cases hback : c = 8
  · rw [if_pos hback, if_pos hback]
    by_cases hpos : e.buflen > 0
    · rw [if_pos hpos]
      refine ⟨_, _, rfl, ?_, ?_⟩
      · show e.buflen - 1 ≤ 4094
        omega
      · have hlen := length_text h
        rw [List.dropLast_eq_take, hlen]
        show e.buf.bytes.take (e.buflen - 1) = (e.buf.bytes.take e.buflen).take (e.buflen - 1)
        rw [List.take_take, min_eq_left (Nat.sub_le _ _)]
    · rw [if_neg hpos]
      have hnil : e.text = [] := List.length_eq_zero_iff.mp (by rw [length_text h]; omega)
      exact ⟨e, [], rfl, h, by rw [hnil, List.dropLast_nil]⟩
  rw [if_neg hback, if_neg hback]
  by_cases hline : c = 10
  · rw [if_pos hline, if_pos (.inl hline), ← hline]
    exact append_eq h c
  rw [if_neg hline]
  by_cases hprint : 32 ≤ c ∧ c < 127
  · rw [if_pos hprint, if_pos (.inr hprint)]
    exact append_eq h c
  · rw [if_neg hprint, if_neg (not_or.mpr ⟨hline, hprint⟩)]
    exact ⟨e, [], rfl, h, rfl⟩

end Editor

/-- The loop of the editor stores what the keys up to ESC make of the text. -/
theorem editLoop_eq (name : CStr) {e : Editor} (he : e.buflen ≤ 4094) (out : List Console)
    {keys : List UInt8} (hesc : keyEsc ∉ keys) (more : List UInt8) :
    ∃ shown, editLoop s name e out (keys ++ keyEsc :: more) =
      .ok ((fsWriteFile s name (applyKeys keys e.text)).2, shown) := by
  induction keys generalizing e out with
  | nil =>
    rw [List.nil_append, editLoop, if_pos rfl]
    have hput : e.buf.store e.buflen 0 = .ok (e.buf.set e.buflen 0) := if_pos (by omega)
    -- the terminator stands behind the text
    have htext : (e.buf.set e.buflen 0).bytes.take e.buflen = applyKeys [] e.text :=
      List.take_set_of_le le_rfl
    rw [hput, ← htext]
    exact ⟨_, rfl⟩
  | cons c keys ih =>
    have hc : c ≠ keyEsc := fun heq => hesc (heq ▸ List.mem_cons_self)
    obtain ⟨e', shown, hkey, he', htext⟩ := e.key_eq he c
    rw [List.cons_append, editLoop, if_neg hc, hkey]
    obtain ⟨all, hrun⟩ := ih he' (out ++ shown) fun hmem => hesc (List.mem_cons_of_mem _ hmem)
    refine ⟨all, ?_⟩
    rw [htext] at hrun
    exact hrun

/-- The editor starts from the first 4094 bytes of the file. -/
theorem cmdEdit_file (env : ShellEnv) (h : FsTree s) {cmd name : CStr} (args : List CStr)
    (hfile : FileHere s name idx) (hsize : (s.nodes idx).size < fsMaxData) {keys more : List UInt8}
    (hesc : keyEsc ∉ keys) (hkeys : env.keys = keys ++ keyEsc :: more) :
    ∃ shown, cmdEdit env s (cmd :: name :: args) =
      .ok ((fsWriteFile s name (applyKeys keys ((s.nodes idx).content.take 4094))).2, shown) := by
  have hf := hfile.found h
  have hlen := (s.nodes idx).content_length
  obtain ⟨a, hempty, -⟩ := @emptyArray_ok 4096 env (by decide)
  obtain ⟨b, rest, hread, hb⟩ :=
    readInto_file hf hfile.file hsize (show 1 ≤ 4095 by decide) (by decide) a
  have htext : (⟨b, min (s.nodes idx).size 4094⟩ : Editor).text = (s.nodes idx).content.take 4094 := by
    show b.bytes.take (min (s.nodes idx).size 4094) = _
    rw [hb, List.take_left' (by rw [List.length_take, hlen, min_comm])]
  have hcount : (if ((min (s.nodes idx).size 4094 : ℕ) : ℤ) > 0
      then ((min (s.nodes idx).size 4094 : ℕ) : ℤ).toNat else 0) = min (s.nodes idx).size 4094 := by
    rw [Int.toNat_natCast]
    split_ifs <;> omega
  unfold cmdEdit
  simp only
  rw [hempty]
  show ∃ shown, (readInto s name a 4095 >>= _) = Except.ok (_, shown)
  rw [hread]
  show ∃ shown, editLoop _ name ⟨b, _⟩ _ env.keys = Except.ok (_, shown)
  -- for an empty file `fs_create_file` is called, which finds the name taken
  rw [hcount, fsCreateFile_exists hf, ite_self, hkeys, ← htext]
  exact editLoop_eq name (min_le_right _ _) _ hesc more

/-- The keys that are typed end with ESC. -/
def ShellEnv.typing (env : ShellEnv) (keys : List UInt8) : ShellEnv :=
  { env with keys := keys ++ [keyEsc] }

/-- `cmd_edit` leaves the file with the given text. -/
def EditsText (env : ShellEnv) (s : FsState) (argv : List CStr) (idx : NodeIdx) (text : List UInt8) :
    Prop :=
  ∃ s' out, cmdEdit env s argv = .ok (s', out) ∧ (s'.nodes idx).content = text

theorem editsText_iff (env : ShellEnv) (h : fsSystem.Reachable s) {cmd name : CStr} (args : List CStr)
    (hfile : FileHere s name idx) {keys : List UInt8} (hesc : keyEsc ∉ keys) (text : List UInt8) :
    EditsText (env.typing keys) s (cmd :: name :: args) idx text ↔
      applyKeys keys ((s.nodes idx).content.take 4094) = text := by
  have htree := FsTree.reachable h
  obtain ⟨shown, hrun⟩ := @cmdEdit_file s idx (env.typing keys) htree cmd name args
    hfile ((NodeBounds.reachable h).size idx) keys [] hesc rfl
  have hlen : (applyKeys keys ((s.nodes idx).content.take 4094)).length ≤ 4094 :=
    length_applyKeys_le (List.length_take_le _ _) keys
  have hcontent := (hfile.written htree (applyKeys keys ((s.nodes idx).content.take 4094))).2
  rw [List.take_of_length_le (hlen.trans (by decide))] at hcontent
  unfold EditsText
  rw [hrun]
  constructor
  · rintro ⟨s', out, hok, htext⟩
    obtain ⟨rfl, -⟩ := Prod.mk.inj (Except.ok.inj hok)
    exact hcontent.symm.trans htext
  · intro htext
    exact ⟨_, shown, rfl, hcontent.trans htext⟩

/-- ESC alone does not keep the last byte of a longer file. -/
theorem length_of_esc_keeps (env : ShellEnv) (h : fsSystem.Reachable s) {cmd name : CStr}
    (args : List CStr) (hfile : FileHere s name idx)
    (hkept : EditsText (env.typing []) s (cmd :: name :: args) idx
      (applyKeys [] (s.nodes idx).content)) : (s.nodes idx).content.length ≤ 4094 :=
  List.take_eq_self_iff _ |>.mp ((editsText_iff env h args hfile List.not_mem_nil _).mp hkept)

/-- Every key sequence has its effect on the content exactly when the file has at most 4094 bytes; on
a longer file those do whose effect does not depend on the last byte.  The index stays in the array
in any case. -/
theorem edit_preserves_iff (env : ShellEnv) (s : FsState) (h : fsSystem.Reachable s) (cmd name : CStr)
    (args : List CStr) (idx : NodeIdx) (hfile : FileHere s name idx) :
    ((∀ keys, keyEsc ∉ keys → EditsText (env.typing keys) s (cmd :: name :: args)
        idx (applyKeys keys (s.nodes idx).content)) ↔ (s.nodes idx).content.length ≤ 4094) ∧
      ∀ keys, keyEsc ∉ keys →
        (EditsText (env.typing keys) s (cmd :: name :: args) idx
            (applyKeys keys (s.nodes idx).content) ↔
          applyKeys keys ((s.nodes idx).content.take 4094) =
            applyKeys keys (s.nodes idx).content) ∧
        EditsText (env.typing keys) s (cmd :: name :: args) idx
          (applyKeys keys ((s.nodes idx).content.take 4094)) := by
  constructor
  · constructor
    · intro hall
      exact length_of_esc_keeps env h args hfile (hall [] List.not_mem_nil)
    · intro hlen keys hesc
      rw [editsText_iff env h args hfile hesc, List.take_of_length_le hlen]
  · intro keys hesc
    exact ⟨editsText_iff env h args hfile hesc _, (editsText_iff env h args hfile hesc _).mpr rfl⟩

theorem edit_preserves_hostname :
    ((∀ keys, keyEsc ∉ keys → EditsText ((plainEnv []).typing keys) (fsInit 0)
        [.ofString "edit", .ofString "hostname"] 6 (applyKeys keys ((fsInit 0).nodes 6).content)) ↔
        ((fsInit 0).nodes 6).content.length ≤ 4094) ∧
      ∀ keys, keyEsc ∉ keys →
        (EditsText ((plainEnv []).typing keys) (fsInit 0)
            [.ofString "edit", .ofString "hostname"] 6
            (applyKeys keys ((fsInit 0).nodes 6).content) ↔
          applyKeys keys (((fsInit 0).nodes 6).content.take 4094) =
            applyKeys keys ((fsInit 0).nodes 6).content) ∧
        EditsText ((plainEnv []).typing keys) (fsInit 0)
          [.ofString "edit", .ofString "hostname"] 6
          (applyKeys keys (((fsInit 0).nodes 6).content.take 4094)) :=
  edit_preserves_iff (plainEnv []) (fsInit 0) (.init ⟨0, rfl⟩) (.ofString "edit")
    (.ofString "hostname") [] 6 hostname_here

/-- ESC alone takes the last byte off a file as long as a file gets. -/
theorem edit_cuts_full_file :
    ¬ ∀ (env : ShellEnv) (s : FsState), fsSystem.Reachable s → ∀ cmd name args idx, FileHere s name idx →
      (∀ b ∈ (s.nodes idx).content, b ≠ 0) → ∀ keys, keyEsc ∉ keys →
      EditsText (env.typing keys) s (cmd :: name :: args) idx
        (applyKeys keys (s.nodes idx).content) := by
  intro hall
  have hreach : fsSystem.Reachable fullNotes := .next (.next (.init ⟨0, rfl⟩) rfl) rfl
  obtain ⟨hhere, hcontent⟩ := fullNotes_written
  have hlen := length_of_esc_keeps (plainEnv []) hreach [] hhere (hall (plainEnv []) fullNotes hreach
    (.ofString "edit") notesFile [] 8 hhere fullNotes_noNul [] List.not_mem_nil)
  rw [hcontent, List.length_replicate] at hlen
  omega

end MyMisu
