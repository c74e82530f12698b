import MyMisu.Fs.Bounds

/-!
# Failed calls

A call that returns an error leaves files, descriptors and the current directory as they were, with
one exception: `fs_open` looks for a free descriptor after it has created or truncated the file.
-/

namespace MyMisu

/-- Every file in use is terminated behind its last byte. -/
def FsState.Terminated (s : FsState) : Prop :=
  ∀ i, s.used i → (s.nodes i).type = .file → (s.nodes i).data (s.nodes i).size = 0

theorem FsState.Terminated.reachable {s : FsState} (h : fsSystem.Reachable s) : s.Terminated :=
  (NodeBounds.reachable h).terminated

/-- The files, the descriptors and the current directory are the same. -/
structure SameFiles (s s' : FsState) : Prop where
  nodes : s'.nodes = s.nodes
  cwd : s'.currentDir = s.currentDir
  fds : ∀ fd, (s'.fdTable fd).inUse = (s.fdTable fd).inUse ∧
    (s'.fdTable fd).nodeIdx = (s.fdTable fd).nodeIdx ∧
    (s'.fdTable fd).flags = (s.fdTable fd).flags

theorem SameFiles.refl (s : FsState) : SameFiles s s := ⟨rfl, rfl, fun _ => ⟨rfl, rfl, rfl⟩⟩

/-- `fs_open` with every descriptor taken, on a file it would truncate or a name it would create. -/
def OpenLosesFile (s : FsState) : FsOp → Prop
  | .open _ (some name) flags =>
    name.bytes ≠ [] ∧ findFreeFd s = none ∧
      ((∃ idx, findNode s name = some idx ∧ (s.nodes idx).type = .file ∧
          hasFlag flags oTrunc = true ∧ (s.nodes idx).size ≠ 0) ∨
        findNode s name = none ∧ hasFlag flags oCreat = true ∧
          name.bytes.length < fsMaxName ∧ (findFreeNode s).isSome = true)
  | _ => False

/-- A call fails without a trace. -/
def Atomic (s : FsState) (r : ℤ × FsState) : Prop := r.1 < 0 → SameFiles s r.2

theorem Atomic.of_error {s : FsState} (code : ℤ) : Atomic s (code, s) := fun _ => .refl s

theorem Atomic.of_success {s s' : FsState} {code : ℤ} (h : 0 ≤ code) : Atomic s (code, s') :=
  fun hlt => absurd hlt (not_lt.mpr h)

theorem createEntry_atomic (type : NodeType) (clear : (ℕ → UInt8) → ℕ → UInt8) (s : FsState)
    (tick : ℕ) (name : Option CStr) : Atomic s (createEntry type clear s tick name) := by
  rcases createEntry_cases type clear s tick name with ⟨e, h, -⟩ | ⟨n, idx, -, -, -, -, -, h⟩
  · rw [h]; exact .of_error _
  · rw [h]; exact .of_success le_rfl

theorem RemoveCases.atomic {s : FsState} {name : CStr} {r : ℤ × FsState}
    (h : RemoveCases s name r) : Atomic s r := by
  rcases h with ⟨e, rfl⟩ | ⟨h0, -⟩
  · exact .of_error _
  · exact fun hlt => absurd hlt (by omega)

theorem fsWriteFile_atomic (s : FsState) (name : CStr) (buf : List UInt8) :
    Atomic s (fsWriteFile s name buf) := by
  rcases fsWriteFile_cases s name buf with ⟨e, h⟩ | ⟨idx, -, -, h⟩
  · rw [h]; exact .of_error _
  · rw [h]; exact .of_success (Int.natCast_nonneg _)

theorem fsCd_atomic (s : FsState) (name : CStr) : Atomic s (fsCd s name) := by
  unfold fsCd
  split_ifs
  · split <;> exact .of_success le_rfl
  · exact .of_success le_rfl
  · cases findNode s name with
    | none => exact .of_error _
    | some idx =>
      simp only
      split_ifs
      · exact .of_error _
      · exact .of_success le_rfl

theorem fsClose_atomic (s : FsState) (fd : ℤ) : Atomic s (fsClose s fd) := by
  rcases fsClose_cases s fd with ⟨-, h⟩ | ⟨i, -, h⟩
  · rw [h]; exact .of_error _
  · rw [h]; exact .of_success le_rfl

theorem fsReadFd_atomic (s : FsState) (fd : ℤ) (buf : Bool) (n : ℕ) :
    Atomic s ((fsReadFd s fd buf n).1, (fsReadFd s fd buf n).2.2) := by
  rcases fsReadFd_cases s fd buf n with ⟨code, h⟩ | ⟨i, f, node, len, -, -, -, -, -, h⟩
  · rw [h]; exact .of_error _
  · rw [h]; exact .of_success (Int.natCast_nonneg _)

theorem fsWriteFd_atomic (s : FsState) (fd : ℤ) (buf : Option (List UInt8)) :
    Atomic s (fsWriteFd s fd buf) := by
  rcases fsWriteFd_cases s fd buf with ⟨e, h⟩ | ⟨i, b, f, node, hopen, -, -, hf, -, hcase⟩
  · rw [h]; exact .of_error _
  · rcases hcase with ⟨-, h⟩ | ⟨-, h⟩
    · rw [h]
      -- `-ENOSPC` comes after an append has moved the offset, which is no loss
      refine fun _ => ⟨rfl, rfl, fun fd' => ?_⟩
      by_cases hfd : fd' = i
      · subst hfd
        simp [hf]
      · simp [hfd]
    · rw [h]; exact .of_success (Int.natCast_nonneg _)

theorem fsLseek_atomic (s : FsState) (fd offset whence : ℤ) :
    Atomic s (fsLseek s fd offset whence) := by
  rcases fsLseek_cases s fd offset whence with ⟨e, h⟩ | ⟨i, off, -, -, h⟩
  · rw [h]; exact .of_error _
  · rw [h]; exact .of_success (Int.natCast_nonneg _)

/-! ### `fs_open` -/

theorem openTrunc_empty {s : FsState} (h : s.Terminated) {idx : NodeIdx} (hu : s.used idx)
    (ht : (s.nodes idx).type = .file) {flags : ℕ}
    (hkeep : hasFlag flags oTrunc = true → (s.nodes idx).size = 0) :
    openTrunc s idx flags = s := by
  unfold openTrunc
  split
  · next htrunc =>
    have hz := h idx hu ht
    -- an empty file starts with its terminator, so the store of a NUL there changes nothing
    rw [hkeep htrunc] at hz
    have hnode : { s.nodes idx with
        data := Function.update (s.nodes idx).data 0 0, size := 0 } = s.nodes idx := by
      rw [show Function.update (s.nodes idx).data 0 0 = (s.nodes idx).data from
        Function.update_eq_self_iff.mpr hz.symm]
      conv_rhs => rw [show s.nodes idx = { s.nodes idx with size := (s.nodes idx).size } from rfl,
        hkeep htrunc]
    show s.setNode idx _ = s
    rw [hnode]
    unfold FsState.setNode
    rw [Function.update_eq_self]
  · rfl

/-- Opening a node that is found: the only loss is a truncation without a free descriptor. -/
theorem openNode_atomic_iff {s : FsState} (h : s.Terminated) {idx : NodeIdx} (hu : s.used idx)
    (flags : ℕ) :
    Atomic s (openNode s idx flags) ↔
      ¬ (findFreeFd s = none ∧ (s.nodes idx).type = .file ∧ hasFlag flags oTrunc = true ∧
        (s.nodes idx).size ≠ 0) := by
  rcases openNode_cases s idx flags with ⟨ht, ho⟩ | ⟨ht, hfd, ho⟩ | ⟨fd, -, hfd, ho⟩
  · rw [ho]
    exact ⟨fun _ hl => ht hl.2.1, fun _ => .of_error _⟩
  · rw [ho]
    constructor
    · rintro hatomic ⟨-, -, htrunc, hsize⟩
      -- the size is 0 after the truncation and was not before
      have hnodes := (hatomic Errno.emfile.ret_neg).nodes
      have := congrArg FsNode.size (congrFun hnodes idx)
      simp [openTrunc, htrunc] at this
      exact hsize this.symm
    · intro hno
      rw [openTrunc_empty h hu ht fun htrunc => by
        by_contra hsize
        exact hno ⟨hfd, ht, htrunc, hsize⟩]
      exact .of_error _
  · rw [ho]
    refine ⟨fun _ hl => ?_, fun _ => .of_success (Int.natCast_nonneg _)⟩
    rw [hfd] at hl
    cases hl.1

theorem openNode_create_atomic_iff {s : FsState} {tick : ℕ} {name : CStr} {idx : NodeIdx}
    (hfree : findFreeNode s = some idx) (flags : ℕ) :
    Atomic s (openNode (s.create .file (fun data => Function.update data 0 0) tick name idx) idx
      flags) ↔ findFreeFd s ≠ none := by
  have hscan : findFreeFd (s.create .file (fun data => Function.update data 0 0) tick name idx) =
      findFreeFd s := rfl
  rcases openNode_cases (s.create .file (fun data => Function.update data 0 0) tick name idx) idx
    flags with ⟨ht, -⟩ | ⟨-, hfd, ho⟩ | ⟨fd, -, hfd, ho⟩
  · exact absurd (by rw [create_self]; rfl) ht
  · rw [ho, ← hscan]
    -- with no descriptor free the new file stays
    refine ⟨fun hatomic => ?_, fun hno => absurd hfd hno⟩
    -- the slot was free before the call and is in use after it
    have hnodes := (hatomic Errno.emfile.ret_neg).nodes
    have hused := congrArg FsNode.inUse (congrFun hnodes idx)
    rw [(findFreeNode_some hfree).2, openTrunc_inUse, create_self] at hused
    cases hused
  · rw [ho, ← hscan, hfd]
    exact ⟨fun _ => Option.some_ne_none fd, fun _ => .of_success (Int.natCast_nonneg _)⟩

theorem fsOpen_atomic_iff {s : FsState} (h : s.Terminated) (tick : ℕ) (name : Option CStr)
    (flags : ℕ) :
    Atomic s (fsOpen s tick name flags) ↔ ¬ OpenLosesFile s (.open tick name flags) := by
  rcases fsOpen_cases s tick name flags with ⟨e, ho, hno⟩ | ⟨n, idx, rfl, hne, hf, ho⟩ |
    ⟨n, idx, s', rfl, hne, hlen, hnew, hfree, hcreat, rfl, -, ho⟩
  · rw [ho]
    refine ⟨fun _ hl => ?_, fun _ => .of_error _⟩
    cases name with
    | none => exact hl
    | some n =>
      -- an exit before the node is resolved has neither found nor created a file
      rcases hl with ⟨hne, -, ⟨idx, hf, -⟩ | ⟨-, hcreat, hlen, hfree⟩⟩
      · rw [(hno n rfl hne).1] at hf
        cases hf
      · rw [(hno n rfl hne).2 hcreat hlen] at hfree
        cases hfree
  · rw [ho, openNode_atomic_iff h (findNodeIn_some hf).1]
    apply not_congr
    constructor
    · intro ⟨hfd, hlost⟩
      exact ⟨hne, hfd, .inl ⟨idx, hf, hlost⟩⟩
    · rintro ⟨-, hfd, ⟨idx', hf', hlost⟩ | ⟨hnone, -⟩⟩
      · rw [hf] at hf'
        rcases Option.some.inj hf'
        exact ⟨hfd, hlost⟩
      · rw [hf] at hnone
        cases hnone
  · rw [ho, openNode_create_atomic_iff hfree]
    apply not_congr
    exact ⟨fun hfd => ⟨hne, hfd, .inr ⟨hnew, hcreat, hlen, by rw [hfree]; rfl⟩⟩,
      fun hl => hl.2.1⟩

/-- A failed call changes nothing exactly when it is no `fs_open` that has created or truncated its
file before it found every descriptor taken. -/
theorem failed_call_atomic_iff (s : FsState) (h : fsSystem.Reachable s) (op : FsOp) :
    ((fsCall s op).1.code < 0 → SameFiles s (fsExec s op)) ↔ ¬ OpenLosesFile s op := by
  have hrest : ∀ {r : ℤ × FsState}, Atomic s r → ((r.1 < 0 → SameFiles s r.2) ↔ ¬ False) :=
    fun hr => iff_of_true hr not_false
  cases op with
  | mkdir tick name => exact hrest (createEntry_atomic .dir id s tick name)
  | createFile tick name => exact hrest (createEntry_atomic .file (Function.update · 0 0) s tick name)
  | writeFile name buf => exact hrest (fsWriteFile_atomic s name buf)
  | readFile name maxLen =>
    have hread : Atomic s ((fsReadFile s name maxLen).1, s) := .of_error _
    exact iff_of_true hread not_false
  | delete name => exact hrest (fsDelete_cases s name).atomic
  | cd name => exact hrest (fsCd_atomic s name)
  | «open» tick name flags =>
    exact fsOpen_atomic_iff (FsState.Terminated.reachable h) tick name flags
  | close fd => exact hrest (fsClose_atomic s fd)
  | readFd fd buf n => exact hrest (fsReadFd_atomic s fd buf n)
  | writeFd fd buf => exact hrest (fsWriteFd_atomic s fd buf)
  | lseek fd offset whence => exact hrest (fsLseek_atomic s fd offset whence)
  | stat name out =>
    have hstat : Atomic s ((fsStat s name out).1, s) := .of_error _
    exact iff_of_true hstat not_false
  | unlink name => exact hrest (fsUnlink_cases s name).atomic
  | rmdir name => exact hrest (fsRmdir_cases s name).atomic

/-- All descriptors opened on `readme.txt`. -/
def openAll : List FsOp := List.replicate fsMaxFds (.open 0 (some (.ofString "readme.txt")) oRdonly)

theorem openAll_reachable : fsSystem.Reachable (openAll.foldl fsExec (fsInit 0)) := by
  have hstart : fsSystem.Reachable (fsInit 0) := .init ⟨0, rfl⟩
  exact hstart.foldl openAll

/-- The 17th open that truncates nothing fails as well. -/
theorem failed_call_atomic_full :
    let s := openAll.foldl fsExec (fsInit 0)
    let op := FsOp.open 0 (some (.ofString "readme.txt")) oRdonly
    (fsCall s op).1.code < 0 ∧
      (((fsCall s op).1.code < 0 → SameFiles s (fsExec s op)) ↔ ¬ OpenLosesFile s op) :=
  ⟨by decide +kernel, failed_call_atomic_iff _ openAll_reachable _⟩

/-- The 17th open of `readme.txt` fails and empties the file. -/
theorem failed_open_truncates :
    ¬ ∀ s, fsSystem.Reachable s → ∀ op, (fsCall s op).1.code < 0 → SameFiles s (fsExec s op) := by
  intro hall
  have hsame := hall _ openAll_reachable (.open 0 (some (.ofString "readme.txt")) oTrunc) (by decide +kernel)
  have hsize := congrArg FsNode.size (congrFun hsame.nodes 5)
  revert hsize
  decide +kernel

end MyMisu
