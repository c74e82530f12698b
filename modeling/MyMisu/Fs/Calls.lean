import Mathlib.Logic.Relation
import MyMisu.Fs.Api
import MyMisu.Lib.TransitionSystem

/-!
# Runs of the filesystem

The calls as operations of one step function, and what any call can do to the tables: the three
removing calls free a slot, every other call is a sequence of the primitive updates of `FsUpdate`.
Invariants of the tables are proved against those and hold along every run.
-/

namespace MyMisu

/-- A call with its arguments.  `fs_list`, `fs_pwd`, `fs_getcwd` and the counters only read the
tables and are not steps of a run. -/
inductive FsOp
  | mkdir (tick : ℕ) (name : Option CStr)
  | createFile (tick : ℕ) (name : Option CStr)
  | writeFile (name : CStr) (buf : List UInt8)
  | readFile (name : CStr) (maxLen : ℕ)
  | delete (name : CStr)
  | cd (name : CStr)
  | open (tick : ℕ) (name : Option CStr) (flags : ℕ)
  | close (fd : ℤ)
  | readFd (fd : ℤ) (buf : Bool) (n : ℕ)
  | writeFd (fd : ℤ) (buf : Option (List UInt8))
  | lseek (fd offset whence : ℤ)
  | stat (name : Option CStr) (out : Bool)
  | unlink (name : CStr)
  | rmdir (name : CStr)

/-- What a caller sees: the result, the bytes stored in its buffer and the `fs_stat_t`. -/
structure FsReply where
  code : ℤ
  bytes : List UInt8
  stat : Option FsStat
  deriving DecidableEq

def FsReply.ofCode (code : ℤ) : FsReply := ⟨code, [], none⟩

@[simp] theorem FsReply.ofCode_code (code : ℤ) : (FsReply.ofCode code).code = code := rfl

def fsCall (s : FsState) : FsOp → FsReply × FsState
  | .mkdir tick name => ((fsMkdir s tick name).map FsReply.ofCode id)
  | .createFile tick name => ((fsCreateFile s tick name).map FsReply.ofCode id)
  | .writeFile name buf => ((fsWriteFile s name buf).map FsReply.ofCode id)
  | .readFile name maxLen => (⟨(fsReadFile s name maxLen).1, (fsReadFile s name maxLen).2, none⟩, s)
  | .delete name => ((fsDelete s name).map FsReply.ofCode id)
  | .cd name => ((fsCd s name).map FsReply.ofCode id)
  | .open tick name flags => ((fsOpen s tick name flags).map FsReply.ofCode id)
  | .close fd => ((fsClose s fd).map FsReply.ofCode id)
  | .readFd fd buf n =>
    (⟨(fsReadFd s fd buf n).1, (fsReadFd s fd buf n).2.1, none⟩, (fsReadFd s fd buf n).2.2)
  | .writeFd fd buf => ((fsWriteFd s fd buf).map FsReply.ofCode id)
  | .lseek fd offset whence => ((fsLseek s fd offset whence).map FsReply.ofCode id)
  | .stat name out => (⟨(fsStat s name out).1, [], (fsStat s name out).2⟩, s)
  | .unlink name => ((fsUnlink s name).map FsReply.ofCode id)
  | .rmdir name => ((fsRmdir s name).map FsReply.ofCode id)

/-- The tables after a call. -/
def fsExec (s : FsState) (op : FsOp) : FsState := (fsCall s op).2

/-- The filesystem from `fs_init` on. -/
def fsSystem : TransitionSystem FsState FsOp := .ofFun (fun s => ∃ tick, s = fsInit tick) fsExec

/-- The name given to a call that removes one. -/
def FsOp.removes : FsOp → Option CStr
  | .delete name | .unlink name | .rmdir name => some name
  | _ => none

/-- The length `fs_read_file` copies. -/
theorem readFile_copyLen {size maxLen : ℕ} (hsize : size < 2 ^ 32) (hpos : 1 ≤ maxLen) :
    (if size ≥ maxLen then wrap32 (maxLen + (2 ^ 32 - 1)) else size) = min size (maxLen - 1) := by
  split_ifs with hcut
  -- `max_len - 1` is computed modulo 2 ^ 32
  · rw [wrap32, show maxLen + (2 ^ 32 - 1) = maxLen - 1 + 2 ^ 32 by omega, Nat.add_mod_right,
      Nat.mod_eq_of_lt (by omega), min_eq_right (by omega)]
  · rw [min_eq_left (by omega)]

theorem bytesAt_congr {data data' : ℕ → UInt8} {off len : ℕ}
    (h : ∀ i, off ≤ i → i < off + len → data i = data' i) :
    bytesAt data off len = bytesAt data' off len := by
  unfold bytesAt
  apply List.map_congr_left
  intro i hi
  have hi := List.mem_range.mp hi
  exact h _ (by omega) (by omega)

/-! ## The primitive updates -/

/-- The node `fs_mkdir` and `fs_create_file` store in a free slot. -/
def newNode (old : FsNode) (type : NodeType) (clear : (ℕ → UInt8) → ℕ → UInt8) (tick : ℕ)
    (name : CStr) (dir : NodeIdx) : FsNode where
  name := old.name.store name
  type := type
  size := 0
  data := clear old.data
  parent := some dir
  inUse := true
  createdTick := tick

/-- The tables after a creation in slot `idx`. -/
def FsState.create (s : FsState) (type : NodeType) (clear : (ℕ → UInt8) → ℕ → UInt8) (tick : ℕ)
    (name : CStr) (idx : NodeIdx) : FsState :=
  s.setNode idx (newNode (s.nodes idx) type clear tick name s.currentDir)

/-- The tables after slot `idx` was freed. -/
def FsState.free (s : FsState) (idx : NodeIdx) : FsState :=
  s.setNode idx { s.nodes idx with inUse := false }

/-- A type with what creation does to the data bytes of its slot. -/
inductive CreateKind : NodeType → ((ℕ → UInt8) → ℕ → UInt8) → Prop
  | dir : CreateKind .dir id
  | file : CreateKind .file fun data => Function.update data 0 0

inductive FsUpdate (s : FsState) : FsState → Prop
  | create {type : NodeType} {clear : (ℕ → UInt8) → ℕ → UInt8} (tick : ℕ) {name : CStr}
      {idx : NodeIdx} : CreateKind type clear → name.bytes ≠ [] →
      name.bytes.length < fsMaxName → findNode s name = none → findFreeNode s = some idx →
      FsUpdate s (s.create type clear tick name idx)
  /-- The bytes or the size of a node change, through its name or through a descriptor. -/
  | store {idx : NodeIdx} {data : ℕ → UInt8} {size : ℕ} :
      ((s.nodes idx).inUse = true ∧ (s.nodes idx).type = .file ∨
        ∃ fd, (s.fdTable fd).inUse = true ∧ (s.fdTable fd).node = idx) →
      (size < fsMaxData ∨ size = (s.nodes idx).size) → data size = 0 →
      FsUpdate s (s.setNode idx { s.nodes idx with data := data, size := size })
  | chdir {idx : NodeIdx} :
      ((s.nodes s.currentDir).parent = some idx ∨ idx = 0 ∨
        ∃ name, findNode s name = some idx ∧ (s.nodes idx).type = .dir) →
      FsUpdate s { s with currentDir := idx }
  | descriptor (fd : FdIdx) (f : FsFd) : FsUpdate s (s.setFd fd f)

abbrev FsUpdates : FsState → FsState → Prop := Relation.ReflTransGen FsUpdate

/-- A removed name led to a slot other than the root that holds no directory or an empty one. -/
inductive FsRemove (s : FsState) (name : CStr) : FsState → Prop
  | free {idx : NodeIdx} : findNode s name = some idx → idx ≠ 0 →
      ((s.nodes idx).type ≠ .dir ∨ hasChild s idx = false) →
      FsRemove s name (s.free idx)

theorem FsRemove.spec {s s' : FsState} {name : CStr} (h : FsRemove s name s') :
    ∃ idx, findNode s name = some idx ∧ idx ≠ 0 ∧
      ((s.nodes idx).type ≠ .dir ∨ hasChild s idx = false) ∧ s' = s.free idx := by
  rcases h with ⟨hf, hroot, hempty⟩
  exact ⟨_, hf, hroot, hempty, rfl⟩

/-- The creation calls: an error leaves the tables alone, success fills the lowest free slot. -/
theorem createEntry_cases (type : NodeType) (clear : (ℕ → UInt8) → ℕ → UInt8) (s : FsState)
    (tick : ℕ) (name : Option CStr) :
    (∃ e : Errno, createEntry type clear s tick name = (e.ret, s) ∧
        ∀ n, name = some n → n.bytes ≠ [] → n.bytes.length < fsMaxName → findNode s n = none →
          findFreeNode s = none) ∨
      ∃ n idx, name = some n ∧ n.bytes ≠ [] ∧ n.bytes.length < fsMaxName ∧
        findNode s n = none ∧ findFreeNode s = some idx ∧
        createEntry type clear s tick name = (0, s.create type clear tick n idx) := by
  unfold createEntry
  cases name with
  | none => exact .inl ⟨.einval, rfl, fun _ hn => nomatch hn⟩
  | some n =>
    simp only [CStr.strlen_bytes, Option.some.injEq, forall_eq']
    split_ifs with hempty hlong hfound
    · exact .inl ⟨.einval, rfl, fun hne => absurd hempty hne⟩
    · exact .inl ⟨.enametoolong, rfl, fun _ hlen => absurd hlong (not_le.mpr hlen)⟩
    · exact .inl ⟨.eexist, rfl, fun _ _ hnew => by rw [hnew] at hfound; cases hfound⟩
    · cases hfree : findFreeNode s with
      -- every check on the name has passed
      | none => exact .inl ⟨.enospc, rfl, fun _ _ _ => rfl⟩
      | some idx =>
        exact .inr ⟨n, idx, rfl, hempty, not_le.mp hlong, by simpa using hfound, rfl, rfl⟩

theorem createEntry_updates {type : NodeType} {clear : (ℕ → UInt8) → ℕ → UInt8}
    (hk : CreateKind type clear) (s : FsState) (tick : ℕ) (name : Option CStr) :
    FsUpdates s (createEntry type clear s tick name).2 := by
  rcases createEntry_cases type clear s tick name with ⟨e, h, -⟩ | ⟨n, idx, -, hne, hlen, hnew, hfree, h⟩
  · rw [h]
  · rw [h]
    exact .single (.create tick hk hne hlen hnew hfree)

theorem fsMkdir_updates (s : FsState) (tick : ℕ) (name : Option CStr) :
    FsUpdates s (fsMkdir s tick name).2 :=
  createEntry_updates .dir s tick name

theorem fsCreateFile_updates (s : FsState) (tick : ℕ) (name : Option CStr) :
    FsUpdates s (fsCreateFile s tick name).2 :=
  createEntry_updates .file s tick name

/-- `fs_delete`, `fs_unlink` and `fs_rmdir` fail without a trace or free the slot of the name. -/
def RemoveCases (s : FsState) (name : CStr) (r : ℤ × FsState) : Prop :=
  (∃ e : Errno, r = (e.ret, s)) ∨ r.1 = 0 ∧ FsRemove s name r.2

theorem fsDelete_cases (s : FsState) (name : CStr) : RemoveCases s name (fsDelete s name) := by
  unfold fsDelete
  cases hf : findNode s name with
  | none => exact .inl ⟨.enoent, rfl⟩
  | some idx =>
    simp only
    split_ifs with hroot hfull
    · exact .inl ⟨.enoent, rfl⟩
    · exact .inl ⟨.enotempty, rfl⟩
    · refine .inr ⟨rfl, .free hf hroot ?_⟩
      by_cases hd : (s.nodes idx).type = .dir
      · exact .inr (by simpa [hd] using hfull)
      · exact .inl hd

theorem fsUnlink_cases (s : FsState) (name : CStr) : RemoveCases s name (fsUnlink s name) := by
  unfold fsUnlink
  cases hf : findNode s name with
  | none => exact .inl ⟨.enoent, rfl⟩
  | some idx =>
    simp only
    split_ifs with hroot htype
    · exact .inl ⟨.enoent, rfl⟩
    · exact .inl ⟨.eisdir, rfl⟩
    · refine .inr ⟨rfl, .free hf hroot (.inl ?_)⟩
      rw [not_not.mp htype]
      decide

theorem fsRmdir_cases (s : FsState) (name : CStr) : RemoveCases s name (fsRmdir s name) := by
  unfold fsRmdir
  cases hf : findNode s name with
  | none => exact .inl ⟨.enoent, rfl⟩
  | some idx =>
    simp only
    split_ifs with hroot htype hfull
    · exact .inl ⟨.enoent, rfl⟩
    · exact .inl ⟨.enotdir, rfl⟩
    · exact .inl ⟨.enotempty, rfl⟩
    · exact .inr ⟨rfl, .free hf hroot (.inr (by simpa using hfull))⟩

/-- What `fs_write_file` leaves in the node it found. -/
def FsNode.stored (node : FsNode) (buf : List UInt8) : FsNode :=
  { node with
    data := Function.update (memcpyAt node.data 0 (buf.take (fsMaxData - 1)))
      (min buf.length (fsMaxData - 1)) 0
    size := min buf.length (fsMaxData - 1) }

theorem fsWriteFile_file {s : FsState} {name : CStr} {idx : NodeIdx} (hf : findNode s name = some idx)
    (hfile : (s.nodes idx).type = .file) (buf : List UInt8) :
    fsWriteFile s name buf =
      (((min buf.length (fsMaxData - 1) : ℕ) : ℤ), s.setNode idx ((s.nodes idx).stored buf)) := by
  unfold fsWriteFile
  rw [hf]
  simp only
  rw [if_neg (not_not.mpr hfile), FsNode.stored]
  by_cases hlen : buf.length ≥ fsMaxData
  · rw [if_pos hlen, min_eq_right (by omega)]
  · have hshort : buf.length ≤ fsMaxData - 1 := Nat.le_pred_of_lt (not_le.mp hlen)
    rw [if_neg hlen, min_eq_left hshort, List.take_of_length_le hshort,
      List.take_of_length_le le_rfl]

theorem fsWriteFile_cases (s : FsState) (name : CStr) (buf : List UInt8) :
    (∃ e : Errno, fsWriteFile s name buf = (e.ret, s)) ∨
      ∃ idx, findNode s name = some idx ∧ (s.nodes idx).type = .file ∧
        fsWriteFile s name buf =
          (((min buf.length (fsMaxData - 1) : ℕ) : ℤ),
            s.setNode idx ((s.nodes idx).stored buf)) := by
  cases hf : findNode s name with
  | none =>
    unfold fsWriteFile
    rw [hf]
    exact .inl ⟨.enoent, rfl⟩
  | some idx =>
    by_cases hfile : (s.nodes idx).type = .file
    · exact .inr ⟨idx, rfl, hfile, fsWriteFile_file hf hfile buf⟩
    · unfold fsWriteFile
      rw [hf]
      simp only
      rw [if_pos hfile]
      exact .inl ⟨.eisdir, rfl⟩

theorem fsWriteFile_updates (s : FsState) (name : CStr) (buf : List UInt8) :
    FsUpdates s (fsWriteFile s name buf).2 := by
  rcases fsWriteFile_cases s name buf with ⟨e, h⟩ | ⟨idx, hf, htype, h⟩
  · rw [h]
  · rw [h]
    refine .single (.store (.inl ⟨(findNodeIn_some hf).1, htype⟩) (.inl ?_) ?_)
    · exact lt_of_le_of_lt (min_le_right _ _) (by decide)
    · exact Function.update_self ..

theorem fsCd_updates (s : FsState) (name : CStr) : FsUpdates s (fsCd s name).2 := by
  unfold fsCd
  split_ifs
  · split
    · next parent hp => exact .single (.chdir (.inl hp))
    · exact .refl
  · exact .single (.chdir (.inr (.inl rfl)))
  · cases hf : findNode s name with
    | none => exact .refl
    | some idx =>
      simp only
      split_ifs with htype
      · exact .refl
      · exact .single (.chdir (.inr (.inr ⟨name, hf, not_not.mp htype⟩)))

/-! ### Opening -/

@[simp] theorem openTrunc_fdTable (s : FsState) (idx : NodeIdx) (flags : ℕ) :
    (openTrunc s idx flags).fdTable = s.fdTable := by
  unfold openTrunc; split <;> rfl

@[simp] theorem openTrunc_inUse (s : FsState) (idx i : NodeIdx) (flags : ℕ) :
    ((openTrunc s idx flags).nodes i).inUse = (s.nodes i).inUse := by
  unfold openTrunc
  split
  · by_cases hi : i = idx
    · subst hi; simp
    · simp [hi]
  · rfl

@[simp] theorem openTrunc_currentDir (s : FsState) (idx : NodeIdx) (flags : ℕ) :
    (openTrunc s idx flags).currentDir = s.currentDir := by
  unfold openTrunc; split <;> rfl

theorem openTrunc_updates {s : FsState} {idx : NodeIdx} (hu : (s.nodes idx).inUse = true)
    (htype : (s.nodes idx).type = .file) (flags : ℕ) : FsUpdates s (openTrunc s idx flags) := by
  unfold openTrunc
  split
  · exact .single (.store (.inl ⟨hu, htype⟩) (.inl (by decide)) (Function.update_self ..))
  · exact .refl

/-- The descriptor `fs_open` fills in. -/
def newFd (s : FsState) (idx : NodeIdx) (flags : ℕ) : FsFd where
  nodeIdx := some idx
  offset := if hasFlag flags oAppend then (s.nodes idx).size else 0
  flags := flags
  inUse := true

theorem openNode_cases (s : FsState) (idx : NodeIdx) (flags : ℕ) :
    ((s.nodes idx).type ≠ .file ∧ openNode s idx flags = (Errno.eisdir.ret, s)) ∨
      ((s.nodes idx).type = .file ∧ findFreeFd s = none ∧
        openNode s idx flags = (Errno.emfile.ret, openTrunc s idx flags)) ∨
      ∃ fd, (s.nodes idx).type = .file ∧ findFreeFd s = some fd ∧
        openNode s idx flags =
          (((fd : ℕ) : ℤ),
            (openTrunc s idx flags).setFd fd (newFd (openTrunc s idx flags) idx flags)) := by
  have hscan : findFreeFd (openTrunc s idx flags) = findFreeFd s := by
    simp [findFreeFd]
  unfold openNode
  by_cases htype : (s.nodes idx).type = .file
  · rw [if_neg (not_not.mpr htype)]
    simp only [hscan]
    cases hfd : findFreeFd s with
    | none => exact .inr (.inl ⟨htype, rfl, rfl⟩)
    | some fd => exact .inr (.inr ⟨fd, htype, rfl, rfl⟩)
  · rw [if_pos htype]
    exact .inl ⟨htype, rfl⟩

theorem openNode_updates {s : FsState} {idx : NodeIdx} (hu : (s.nodes idx).inUse = true)
    (flags : ℕ) : FsUpdates s (openNode s idx flags).2 := by
  rcases openNode_cases s idx flags with ⟨-, h⟩ | ⟨htype, -, h⟩ | ⟨fd, htype, -, h⟩
  · rw [h]
  · rw [h]; exact openTrunc_updates hu htype flags
  · rw [h]; exact (openTrunc_updates hu htype flags).tail (.descriptor fd _)

theorem findNode_create {s : FsState} {type : NodeType} {clear : (ℕ → UInt8) → ℕ → UInt8}
    {tick : ℕ} {name : CStr} {idx : NodeIdx} (hlen : name.bytes.length < fsMaxName)
    (hnew : findNode s name = none) :
    findNode (s.create type clear tick name idx) name = some idx := by
  unfold FsState.create
  apply findNodeIn_eq_some
  · rw [FsState.setNode_self]; rfl
  · rw [FsState.setNode_self]; exact NameArray.str_store _ hlen
  · rw [FsState.setNode_self]; rfl
  · intro j hu hp hn
    by_contra hj
    rw [FsState.setNode_ne _ _ hj] at hu hp hn
    exact findNodeIn_none.mp hnew j hu hp hn

/-- `fs_open` fails before it touches anything, opens the node the name leads to, or creates a file
and opens that; the `-EIO` exit behind the creation is never taken. -/
theorem fsOpen_cases (s : FsState) (tick : ℕ) (name : Option CStr) (flags : ℕ) :
    (∃ e : Errno, fsOpen s tick name flags = (e.ret, s) ∧
        ∀ n, name = some n → n.bytes ≠ [] → findNode s n = none ∧
          (hasFlag flags oCreat = true → n.bytes.length < fsMaxName → findFreeNode s = none)) ∨
      (∃ n idx, name = some n ∧ n.bytes ≠ [] ∧ findNode s n = some idx ∧
        fsOpen s tick name flags = openNode s idx flags) ∨
      ∃ n idx s', name = some n ∧ n.bytes ≠ [] ∧ n.bytes.length < fsMaxName ∧
        findNode s n = none ∧ findFreeNode s = some idx ∧ hasFlag flags oCreat = true ∧
        s' = s.create .file (fun data => Function.update data 0 0) tick n idx ∧
        findNode s' n = some idx ∧ fsOpen s tick name flags = openNode s' idx flags := by
  unfold fsOpen
  cases name with
  | none => exact .inl ⟨.einval, rfl, fun _ hn => nomatch hn⟩
  | some n =>
    by_cases hempty : n.bytes = []
    · refine .inl ⟨.einval, by simp [hempty], fun n' hn hne => ?_⟩
      rcases Option.some.inj hn
      exact absurd hempty hne
    · simp only [if_neg hempty]
      cases hf : findNode s n with
      | some idx => exact .inr (.inl ⟨n, idx, rfl, hempty, hf, rfl⟩)
      | none =>
        -- the name leads nowhere: `O_CREAT` decides
        by_cases hcreat : hasFlag flags oCreat = true
        · simp only [if_pos hcreat]
          rcases createEntry_cases .file (fun data => Function.update data 0 0) s tick (some n) with
            ⟨e, h, hno⟩ | ⟨n', idx, hn, -, hlen, hnew, hfree, h⟩
          · refine .inl ⟨e, ?_, fun n' hn hne => ?_⟩
            · rw [fsCreateFile, h]
              simp [e.ret_neg]
            · rcases Option.some.inj hn
              exact ⟨hf, fun _ hlen => hno n rfl hne hlen hf⟩
          · rcases Option.some.inj hn
            -- the second scan finds the node just created
            have hfound := @findNode_create s .file (fun data => Function.update data 0 0) tick n idx
              hlen hnew
            refine .inr (.inr ⟨n, idx, _, rfl, hempty, hlen, hnew, hfree, hcreat, rfl, hfound, ?_⟩)
            rw [fsCreateFile, h]
            simp [hfound]
        · simp only [if_neg hcreat]
          refine .inl ⟨.enoent, rfl, fun n' hn _ => ?_⟩
          rcases Option.some.inj hn
          exact ⟨hf, fun h => absurd h hcreat⟩

theorem fsOpen_updates (s : FsState) (tick : ℕ) (name : Option CStr) (flags : ℕ) :
    FsUpdates s (fsOpen s tick name flags).2 := by
  rcases fsOpen_cases s tick name flags with ⟨e, h, -⟩ | ⟨n, idx, -, -, hf, h⟩ |
    ⟨n, idx, s', -, hne, hlen, hnew, hfree, -, rfl, hfound, h⟩
  · rw [h]
  · rw [h]; exact openNode_updates (findNodeIn_some hf).1 flags
  · rw [h]
    exact (Relation.ReflTransGen.single (.create tick .file hne hlen hnew hfree)).trans
      (openNode_updates (findNodeIn_some hfound).1 flags)

/-! ### Through a descriptor -/

theorem openFd_some {s : FsState} {fd : ℤ} {i : FdIdx} (h : openFd s fd = some i) :
    (s.fdTable i).inUse = true ∧ fd = (i : ℕ) := by
  unfold openFd fdIndex at h
  split at h
  · cases h
  · next j hj =>
    split at hj
    · cases hj
    · next hrange =>
      split at h
      · next hu =>
        rcases Option.some.inj hj
        rcases Option.some.inj h
        exact ⟨hu, by simp; omega⟩
      · cases h

theorem openFd_val {s : FsState} {i : FdIdx} (h : (s.fdTable i).inUse = true) :
    openFd s (i : ℕ) = some i := by
  have hi := i.isLt
  have hidx : fdIndex (i : ℕ) = some i := by
    unfold fdIndex
    rw [dif_neg (by simp only [fsMaxFds] at *; omega)]
    rfl
  rw [openFd, hidx]
  simp [h]

theorem fsClose_cases (s : FsState) (fd : ℤ) :
    (openFd s fd = none ∧ fsClose s fd = (Errno.ebadf.ret, s)) ∨
      ∃ i, openFd s fd = some i ∧
        fsClose s fd = (0, s.setFd i { s.fdTable i with inUse := false, nodeIdx := none }) := by
  unfold fsClose
  cases openFd s fd with
  | none => exact .inl ⟨rfl, rfl⟩
  | some i => exact .inr ⟨i, rfl, rfl⟩

theorem fsReadFd_cases (s : FsState) (fd : ℤ) (buf : Bool) (n : ℕ) :
    (∃ code : ℤ, fsReadFd s fd buf n = (code, [], s)) ∨
      ∃ i f node len, openFd s fd = some i ∧ f = s.fdTable i ∧ node = s.nodes f.node ∧
        f.offset < node.size ∧ len = min n (node.size - f.offset) ∧
        fsReadFd s fd buf n = ((len : ℤ), bytesAt node.data f.offset len,
          s.setFd i { f with offset := f.offset + len }) := by
  unfold fsReadFd
  cases openFd s fd with
  | none => exact .inl ⟨Errno.ebadf.ret, rfl⟩
  | some i =>
    by_cases hb : buf = false
    · exact .inl ⟨Errno.efault.ret, by simp [hb]⟩
    · by_cases hacc : (s.fdTable i).flags &&& 0x3 = oWronly
      · exact .inl ⟨Errno.eacces.ret, by simp [hb, hacc]⟩
      · by_cases hend : (s.fdTable i).offset ≥ (s.nodes (s.fdTable i).node).size
        · exact .inl ⟨0, by simp [hb, hacc, hend]⟩
        · refine .inr ⟨i, _, _, _, rfl, rfl, rfl, not_le.mp hend, rfl, ?_⟩
          simp only [if_neg hb, if_neg hacc, if_neg hend, ← min_def_lt]

/-- The number of bytes `fs_write_fd` copies. -/
def FsFd.room (f : FsFd) (buf : List UInt8) : ℕ := min buf.length (fsMaxData - 1 - f.offset)

/-- The node after `len` bytes of `buf` were copied to the descriptor's offset. -/
def FsNode.written (node : FsNode) (offset : ℕ) (buf : List UInt8) (len : ℕ) : FsNode :=
  { node with
    data := Function.update (memcpyAt node.data offset (buf.take len))
      (max node.size (offset + len)) 0
    size := max node.size (offset + len) }

@[simp] theorem FsFd.writeStart_node (f : FsFd) (node : FsNode) :
    (f.writeStart node).node = f.node := by
  unfold writeStart; split <;> rfl

@[simp] theorem FsFd.writeStart_flags (f : FsFd) (node : FsNode) :
    (f.writeStart node).flags = f.flags := by
  unfold writeStart; split <;> rfl

@[simp] theorem FsFd.writeStart_inUse (f : FsFd) (node : FsNode) :
    (f.writeStart node).inUse = f.inUse := by
  unfold writeStart; split <;> rfl

@[simp] theorem FsFd.writeStart_nodeIdx (f : FsFd) (node : FsNode) :
    (f.writeStart node).nodeIdx = f.nodeIdx := by
  unfold writeStart; split <;> rfl

/-- A write through a descriptor that permits it. -/
theorem fsWriteFd_open {s : FsState} {fd : ℤ} {i : FdIdx} (hopen : openFd s fd = some i)
    (hacc : (s.fdTable i).flags &&& 0x3 ≠ oRdonly) (b : List UInt8) {f : FsFd}
    (hf : (s.fdTable i).writeStart (s.nodes (s.fdTable i).node) = f) :
    fsWriteFd s fd (some b) =
      if f.offset ≥ fsMaxData - 1 then (Errno.enospc.ret, s.setFd i f)
      else ((f.room b : ℤ), (s.setFd i { f with offset := f.offset + f.room b }).setNode f.node
        ((s.nodes (s.fdTable i).node).written f.offset b (f.room b))) := by
  unfold fsWriteFd
  rw [hopen]
  simp only [if_neg hacc, hf]
  by_cases hfull : f.offset ≥ fsMaxData - 1
  · rw [if_pos hfull, if_pos hfull]
  · rw [if_neg hfull, if_neg hfull]
    simp only [FsFd.room, FsNode.written, gt_iff_lt, ← min_def_lt, ← max_def_lt,
      FsState.setFd_setFd]

theorem fsWriteFd_cases (s : FsState) (fd : ℤ) (buf : Option (List UInt8)) :
    (∃ e : Errno, fsWriteFd s fd buf = (e.ret, s)) ∨
      ∃ i b f node, openFd s fd = some i ∧ buf = some b ∧ node = s.nodes (s.fdTable i).node ∧
        f = (s.fdTable i).writeStart node ∧ f.flags &&& 0x3 ≠ oRdonly ∧
        ((fsMaxData - 1 ≤ f.offset ∧ fsWriteFd s fd buf = (Errno.enospc.ret, s.setFd i f)) ∨
          f.offset < fsMaxData - 1 ∧ fsWriteFd s fd buf =
            ((f.room b : ℤ), (s.setFd i { f with offset := f.offset + f.room b }).setNode f.node
              (node.written f.offset b (f.room b)))) := by
  cases hopen : openFd s fd with
  | none =>
    unfold fsWriteFd
    rw [hopen]
    exact .inl ⟨.ebadf, rfl⟩
  | some i =>
    cases buf with
    | none =>
      unfold fsWriteFd
      rw [hopen]
      exact .inl ⟨.efault, rfl⟩
    | some b =>
      by_cases hacc : (s.fdTable i).flags &&& 0x3 = oRdonly
      · unfold fsWriteFd
        rw [hopen]
        exact .inl ⟨.eacces, by simp [hacc]⟩
      · refine .inr ⟨i, b, _, _, rfl, rfl, rfl, rfl, by simpa using hacc, ?_⟩
        rw [fsWriteFd_open hopen hacc b rfl]
        split_ifs with hfull
        · exact .inl ⟨hfull, rfl⟩
        · exact .inr ⟨not_le.mp hfull, rfl⟩

theorem fsLseek_cases (s : FsState) (fd offset whence : ℤ) :
    (∃ e : Errno, fsLseek s fd offset whence = (e.ret, s)) ∨
      ∃ (i : FdIdx) (off : ℕ), openFd s fd = some i ∧ off < fsMaxData ∧
        fsLseek s fd offset whence =
          ((off : ℤ), s.setFd i { s.fdTable i with offset := off }) := by
  unfold fsLseek
  cases openFd s fd with
  | none => exact .inl ⟨.ebadf, rfl⟩
  | some i =>
    simp only
    generalize (if whence = seekSet then some offset
      else if whence = seekCur then some (wrapInt32 (intOfU32 (s.fdTable i).offset + offset))
      else if whence = seekEnd then
        some (wrapInt32 (intOfU32 (s.nodes (s.fdTable i).node).size + offset))
      else none) = newOff
    cases newOff with
    | none => exact .inl ⟨.einval, rfl⟩
    | some off =>
      by_cases hneg : off < 0
      · exact .inl ⟨.einval, by simp [hneg]⟩
      · by_cases hbig : off > (fsMaxData : ℤ) - 1
        · exact .inl ⟨.einval, by simp only [if_neg hneg, if_pos hbig]⟩
        · simp only [fsMaxData] at hbig
          refine .inr ⟨i, off.toNat, rfl, by simp only [fsMaxData]; omega, ?_⟩
          simp only [if_neg hneg, fsMaxData, if_neg hbig, Int.toNat_of_nonneg (not_lt.mp hneg)]

/-! ### Calls that leave the nodes as they are -/

theorem fsCd_nodes (s : FsState) (name : CStr) : (fsCd s name).2.nodes = s.nodes := by
  unfold fsCd
  split_ifs
  · split <;> rfl
  · rfl
  · cases findNode s name with
    | none => rfl
    | some idx => simp only; split <;> rfl

theorem fsClose_nodes (s : FsState) (fd : ℤ) : (fsClose s fd).2.nodes = s.nodes := by
  rcases fsClose_cases s fd with ⟨-, hrun⟩ | ⟨i, -, hrun⟩
  · rw [hrun]
  · rw [hrun, FsState.setFd_nodes]

theorem fsReadFd_nodes (s : FsState) (fd : ℤ) (buf : Bool) (n : ℕ) :
    (fsReadFd s fd buf n).2.2.nodes = s.nodes := by
  rcases fsReadFd_cases s fd buf n with ⟨code, hrun⟩ | ⟨i, f, node, len, -, -, -, -, -, hrun⟩
  · rw [hrun]
  · rw [hrun, FsState.setFd_nodes]

theorem fsLseek_nodes (s : FsState) (fd offset whence : ℤ) :
    (fsLseek s fd offset whence).2.nodes = s.nodes := by
  rcases fsLseek_cases s fd offset whence with ⟨e, hrun⟩ | ⟨i, off, -, -, hrun⟩
  · rw [hrun]
  · rw [hrun, FsState.setFd_nodes]

theorem fsClose_updates (s : FsState) (fd : ℤ) : FsUpdates s (fsClose s fd).2 := by
  rcases fsClose_cases s fd with ⟨-, h⟩ | ⟨i, -, h⟩
  · rw [h]
  · rw [h]; exact .single (.descriptor i _)

theorem fsReadFd_updates (s : FsState) (fd : ℤ) (buf : Bool) (n : ℕ) :
    FsUpdates s (fsReadFd s fd buf n).2.2 := by
  rcases fsReadFd_cases s fd buf n with ⟨code, h⟩ | ⟨i, f, node, len, -, -, -, -, -, h⟩
  · rw [h]
  · rw [h]; exact .single (.descriptor i _)

theorem fsLseek_updates (s : FsState) (fd offset whence : ℤ) :
    FsUpdates s (fsLseek s fd offset whence).2 := by
  rcases fsLseek_cases s fd offset whence with ⟨e, h⟩ | ⟨i, off, -, -, h⟩
  · rw [h]
  · rw [h]; exact .single (.descriptor i _)

theorem fsWriteFd_updates (s : FsState) (fd : ℤ) (buf : Option (List UInt8)) :
    FsUpdates s (fsWriteFd s fd buf).2 := by
  rcases fsWriteFd_cases s fd buf with ⟨e, h⟩ | ⟨i, b, f, node, hopen, -, hnode, hf, -, hcase⟩
  · rw [h]
  · rcases hcase with ⟨-, h⟩ | ⟨hroom, h⟩
    · rw [h]; exact .single (.descriptor i f)
    · rw [h]
      have hfn : f.node = (s.fdTable i).node := by rw [hf, FsFd.writeStart_node]
      have hin : f.inUse = true := by rw [hf, FsFd.writeStart_inUse, (openFd_some hopen).1]
      refine (Relation.ReflTransGen.single
        (.descriptor i { f with offset := f.offset + f.room b })).tail ?_
      rw [hnode, ← hfn]
      refine .store (.inr ⟨i, ?_, ?_⟩) ?_ (Function.update_self ..)
      · simpa using hin
      · simp [FsFd.node]
      -- the copy stops at the capacity, so a size that grows stays below it
      · have hle : f.offset + f.room b < fsMaxData := by
          unfold FsFd.room
          simp only [fsMaxData] at hroom ⊢
          omega
        rw [FsState.setFd_nodes]
        rcases le_total (f.offset + f.room b) (s.nodes f.node).size with h | h
        · exact .inr (max_eq_left h)
        · exact .inl (by rwa [max_eq_right h])

theorem fsExec_cases (s : FsState) (op : FsOp) :
    (op.removes = none ∧ FsUpdates s (fsExec s op)) ∨
      ∃ name, op.removes = some name ∧ RemoveCases s name ((fsCall s op).1.code, fsExec s op) := by
  cases op with
  | mkdir tick name => exact .inl ⟨rfl, fsMkdir_updates s tick name⟩
  | createFile tick name => exact .inl ⟨rfl, fsCreateFile_updates s tick name⟩
  | writeFile name buf => exact .inl ⟨rfl, fsWriteFile_updates s name buf⟩
  | readFile name maxLen => exact .inl ⟨rfl, .refl⟩
  | delete name => exact .inr ⟨name, rfl, fsDelete_cases s name⟩
  | cd name => exact .inl ⟨rfl, fsCd_updates s name⟩
  | «open» tick name flags => exact .inl ⟨rfl, fsOpen_updates s tick name flags⟩
  | close fd => exact .inl ⟨rfl, fsClose_updates s fd⟩
  | readFd fd buf n => exact .inl ⟨rfl, fsReadFd_updates s fd buf n⟩
  | writeFd fd buf => exact .inl ⟨rfl, fsWriteFd_updates s fd buf⟩
  | lseek fd offset whence => exact .inl ⟨rfl, fsLseek_updates s fd offset whence⟩
  | stat name out => exact .inl ⟨rfl, .refl⟩
  | unlink name => exact .inr ⟨name, rfl, fsUnlink_cases s name⟩
  | rmdir name => exact .inr ⟨name, rfl, fsRmdir_cases s name⟩

theorem FsUpdates.invariant {I : FsState → Prop} (hI : ∀ s s', FsUpdate s s' → I s → I s')
    {s s' : FsState} (h : FsUpdates s s') (hs : I s) : I s' := by
  induction h with
  | refl => exact hs
  | tail _ hc ih => exact hI _ _ hc ih

theorem fsInit_updates (tick : ℕ) : FsUpdates fsEmpty (fsInit tick) := by
  unfold fsInit
  refine .trans ?_ (fsWriteFile_updates _ _ _)
  refine .trans ?_ (fsCreateFile_updates _ _ _)
  refine .trans ?_ (fsWriteFile_updates _ _ _)
  refine .trans ?_ (fsCreateFile_updates _ _ _)
  refine .trans ?_ (fsWriteFile_updates _ _ _)
  refine .trans ?_ (fsCreateFile_updates _ _ _)
  refine .trans ?_ (fsMkdir_updates _ _ _)
  refine .trans ?_ (fsMkdir_updates _ _ _)
  exact .trans (fsMkdir_updates _ _ _) (fsMkdir_updates _ _ _)

theorem fsExec_invariant {I : FsState → Prop} (hupdate : ∀ s s', FsUpdate s s' → I s → I s')
    (hremove : ∀ s name s', FsRemove s name s' → I s → I s') {s : FsState} (hs : I s) (op : FsOp) :
    I (fsExec s op) := by
  rcases fsExec_cases s op with ⟨-, h⟩ | ⟨name, -, ⟨e, h⟩ | ⟨-, h⟩⟩
  · exact h.invariant hupdate hs
  · rw [show fsExec s op = s from (Prod.ext_iff.mp h).2]
    exact hs
  · exact hremove s name _ h hs

theorem fsSystem_invariant {I : FsState → Prop} (hempty : I fsEmpty)
    (hupdate : ∀ s s', FsUpdate s s' → I s → I s')
    (hremove : ∀ s name s', FsRemove s name s' → I s → I s')
    {s : FsState} (h : fsSystem.Reachable s) : I s := by
  refine h.invariant ?_ ?_
  · intro s hs
    have ⟨tick, h⟩ : ∃ tick, s = fsInit tick := hs
    rw [h]
    exact (fsInit_updates tick).invariant hupdate hempty
  · intro s op s' _ hs _ hstep
    rw [hstep]
    exact fsExec_invariant hupdate hremove hs op

end MyMisu
