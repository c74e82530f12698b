import MyMisu.Fs.Agreement
import MyMisu.Fs.Descriptors

/-!
# Indices into the data of a node

The sizes of the nodes and the offsets of the open descriptors stay below the capacity, whatever is
sought, truncated, removed or created between the calls, and every index a call uses into `data` is
one of the array.  In the model there are bytes behind the array, too: a call uses the indices outside
of which its outcome depends on no byte and changes none.
-/

namespace MyMisu

/-! ## The indices a call uses -/

/-- `memcpy(data, buf, copy_len)` and the terminator. -/
def fsWriteFileIndices (s : FsState) (name : CStr) (buf : List UInt8) : List ℕ :=
  match findNode s name with
  | none => []
  | some idx =>
    if (s.nodes idx).type ≠ .file then []
    else
      let copyLen := if buf.length ≥ fsMaxData then fsMaxData - 1 else buf.length
      List.range copyLen ++ [copyLen]

/-- `memcpy(buf, data, copy_len)`. -/
def fsReadFileIndices (s : FsState) (name : CStr) (maxLen : ℕ) : List ℕ :=
  match findNode s name with
  | none => []
  | some idx =>
    let node := s.nodes idx
    if node.type ≠ .file then []
    else
      let copyLen := if node.size ≥ maxLen then wrap32 (maxLen + (2 ^ 32 - 1)) else node.size
      List.range copyLen

/-- `memcpy(buf, data + offset, to_copy)`. -/
def fsReadFdIndices (s : FsState) (fd : ℤ) (buf : Bool) (n : ℕ) : List ℕ :=
  match openFd s fd with
  | none => []
  | some i =>
    let f := s.fdTable i
    if buf = false then []
    else if f.flags &&& 0x3 = oWronly then []
    else
      let node := s.nodes f.node
      if f.offset ≥ node.size then []
      else
        let avail := node.size - f.offset
        let toCopy := if n < avail then n else avail
        List.range' f.offset toCopy

/-- `memcpy(data + offset, buf, to_copy)` and the terminator. -/
def fsWriteFdIndices (s : FsState) (fd : ℤ) (buf : Option (List UInt8)) : List ℕ :=
  match openFd s fd with
  | none => []
  | some i =>
    match buf with
    | none => []
    | some buf =>
      let f := s.fdTable i
      if f.flags &&& 0x3 = oRdonly then []
      else
        let node := s.nodes f.node
        let f := f.writeStart node
        if f.offset ≥ fsMaxData - 1 then []
        else
          let space := (fsMaxData - 1) - f.offset
          let toCopy := if buf.length < space then buf.length else space
          let offset := f.offset + toCopy
          let size := if offset > node.size then offset else node.size
          List.range' f.offset toCopy ++ [size]

/-- The indices into `data` of a call; a file that is created or truncated gets `data[0] = '\0'`. -/
def FsOp.dataIndices (s : FsState) : FsOp → List ℕ
  | .createFile _ _ => [0]
  | .writeFile name buf => fsWriteFileIndices s name buf
  | .readFile name maxLen => fsReadFileIndices s name maxLen
  | .open _ _ _ => [0]
  | .readFd fd buf n => fsReadFdIndices s fd buf n
  | .writeFd fd buf => fsWriteFdIndices s fd buf
  | _ => []

/-- Whatever bytes there are elsewhere, the call returns the same, does the same to the bytes at these
indices and leaves the others alone. -/
def FsOp.UsesOnly (op : FsOp) (s : FsState) (used : List ℕ) : Prop :=
  ∀ t, s.Agrees (fun _ j => j ∈ used) t →
    (fsCall t op).1 = (fsCall s op).1 ∧ (fsExec s op).Agrees (fun _ j => j ∈ used) (fsExec t op) ∧
      ∀ i, ∀ j ∉ used, ((fsExec t op).nodes i).data j = (t.nodes i).data j

/-- A buffer given to `fs_read_file` has room for the terminator. -/
def FsOp.RoomForNul : FsOp → Prop
  | .readFile _ maxLen => 1 ≤ maxLen
  | _ => True

structure DataBounds (s : FsState) : Prop where
  size : ∀ i, (s.nodes i).size ≤ 4095
  terminated : ∀ i, s.used i → (s.nodes i).type = .file → (s.nodes i).data (s.nodes i).size = 0
  descriptors : ∀ fd, (s.fdTable fd).inUse = true →
    (s.fdTable fd).offset ≤ 4095 ∧ ∃ i, (s.fdTable fd).nodeIdx = some i ∧ 1 ≤ i.val ∧ i.val ≤ 63
  indices : ∀ op : FsOp, op.RoomForNul →
    op.UsesOnly s (op.dataIndices s) ∧ ∀ j ∈ op.dataIndices s, j ≤ 4095

/-! ## Nodes -/

/-- Sizes fit, and a regular file ends in a NUL. -/
structure NodeBounds (s : FsState) : Prop where
  size : ∀ i, (s.nodes i).size < fsMaxData
  terminated : ∀ i, s.used i → (s.nodes i).type = .file → (s.nodes i).data (s.nodes i).size = 0

namespace NodeBounds

theorem empty : NodeBounds fsEmpty := by
  have hnode : ∀ i, (fsEmpty.nodes i).size = 0 ∧ (fsEmpty.nodes i).data = fun _ => 0 := by
    intro i
    unfold fsEmpty
    by_cases h0 : i = 0
    · simp only [h0, if_true]
      exact ⟨rfl, rfl⟩
    · simp only [h0, if_false]
      exact ⟨rfl, rfl⟩
  constructor
  · intro i
    rw [(hnode i).1]
    decide
  · intro i _ _
    rw [(hnode i).2]

theorem update {s s' : FsState} (hc : FsUpdate s s') (h : NodeBounds s) : NodeBounds s' := by
  cases hc with
  | @create type clear tick name idx hk _ _ _ _ =>
    constructor
    · intro i
      by_cases hi : i = idx
      · rw [hi, create_self]
        show 0 < fsMaxData
        decide
      · rw [create_ne _ _ _ _ _ _ hi]
        exact h.size i
    · intro i hu ht
      by_cases hi : i = idx
      · rw [hi, create_self] at ht ⊢
        -- a directory keeps the old bytes of its slot, a file is cleared
        cases hk with
        | dir => cases ht
        | file =>
          show Function.update (s.nodes idx).data 0 0 0 = 0
          exact Function.update_self ..
      · rw [FsState.used, create_ne _ _ _ _ _ _ hi] at hu
        rw [create_ne _ _ _ _ _ _ hi] at ht ⊢
        exact h.terminated i hu ht
  | @store idx data size _ hsize hdata =>
    constructor
    · intro i
      by_cases hi : i = idx
      · rw [hi, FsState.setNode_self]
        rcases hsize with hlt | heq
        · exact hlt
        · rw [heq]
          exact h.size idx
      · rw [FsState.setNode_ne _ _ hi]
        exact h.size i
    · intro i hu ht
      by_cases hi : i = idx
      · rw [hi, FsState.setNode_self]
        exact hdata
      · rw [FsState.used, FsState.setNode_ne _ _ hi] at hu
        rw [FsState.setNode_ne _ _ hi] at ht ⊢
        exact h.terminated i hu ht
  | chdir _ => exact ⟨h.size, h.terminated⟩
  | descriptor _ _ => exact ⟨h.size, h.terminated⟩

theorem remove {s s' : FsState} {name : CStr} (hr : FsRemove s name s') (h : NodeBounds s) :
    NodeBounds s' := by
  have ⟨idx, _, _, _, hs⟩ := hr.spec
  rw [hs]
  constructor
  · intro i
    rw [free_nodes]
    exact h.size i
  · intro i hu ht
    rw [type_free] at ht
    rw [free_nodes]
    exact h.terminated i ((used_free s idx i).mp hu).2 ht

theorem reachable {s : FsState} (h : fsSystem.Reachable s) : NodeBounds s :=
  fsSystem_invariant empty (fun _ _ hc h => h.update hc) (fun _ _ _ hr h => h.remove hr) h

end NodeBounds

/-! ## Descriptors -/

/-- An open descriptor is at an offset of the array and not on the root directory. -/
def FsFd.Fits (f : FsFd) : Prop :=
  f.inUse = true → f.offset < fsMaxData ∧ ∃ i, f.nodeIdx = some i ∧ i ≠ 0

def FdBounds (s : FsState) : Prop := ∀ fd, (s.fdTable fd).Fits

namespace FdBounds

variable {s s' : FsState}

theorem congr (h : FdBounds s) (htable : s'.fdTable = s.fdTable) : FdBounds s' := by
  intro fd
  rw [htable]
  exact h fd

theorem setFd (h : FdBounds s) {i : FdIdx} {f : FsFd} (hf : f.Fits) : FdBounds (s.setFd i f) := by
  intro fd
  by_cases hfd : fd = i
  · rw [hfd, FsState.setFd_self]
    exact hf
  · rw [FsState.setFd_ne _ _ hfd]
    exact h fd

theorem moved (h : FdBounds s) {i : FdIdx} {f : FsFd} (hinUse : f.inUse = (s.fdTable i).inUse)
    (hnode : f.nodeIdx = (s.fdTable i).nodeIdx) (hoff : f.offset < fsMaxData) :
    FdBounds (s.setFd i f) := by
  apply h.setFd
  intro hu
  have ⟨_, hidx⟩ := h i (hinUse ▸ hu)
  rw [hnode]
  exact ⟨hoff, hidx⟩

theorem openNode (h : FdBounds s) (htree : FsTree s) {name : CStr} {idx : NodeIdx}
    (hf : findNode s name = some idx) (flags : ℕ) (hnodes : NodeBounds (openNode s idx flags).2) :
    FdBounds (openNode s idx flags).2 := by
  have htrunc : FdBounds (openTrunc s idx flags) := h.congr (openTrunc_fdTable s idx flags)
  rcases openNode_cases s idx flags with ⟨-, hrun⟩ | ⟨-, -, hrun⟩ | ⟨fd, -, -, hrun⟩
  · rw [hrun]
    exact h
  · rw [hrun]
    exact htrunc
  · rw [hrun] at hnodes ⊢
    apply htrunc.setFd
    intro _
    -- `O_APPEND` starts at the size, which fits
    have hsize := hnodes.size idx
    refine ⟨?_, idx, rfl, htree.found_ne_root hf⟩
    show (if hasFlag flags oAppend then ((openTrunc s idx flags).nodes idx).size else 0) < fsMaxData
    split
    · exact hsize
    · decide

theorem fsOpen (h : FdBounds s) (htree : FsTree s) (tick : ℕ) (name : Option CStr) (flags : ℕ)
    (hnodes : NodeBounds (fsOpen s tick name flags).2) :
    FdBounds (fsOpen s tick name flags).2 := by
  rcases fsOpen_cases s tick name flags with ⟨e, hrun, -⟩ | ⟨n, idx, -, -, hf, hrun⟩ |
    ⟨n, idx, s', -, hne, hlen, hnew, hfree, -, hs', hf, hrun⟩
  · rw [hrun]
    exact h
  · rw [hrun] at hnodes ⊢
    exact h.openNode htree hf flags hnodes
  · rw [hrun] at hnodes ⊢
    have htree' : FsTree s' := by
      rw [hs']
      exact htree.create .file tick hne hlen hnew hfree
    have h' : FdBounds s' := h.congr (by rw [hs', create_fdTable])
    exact h'.openNode htree' hf flags hnodes

theorem readFd (h : FdBounds s) (hnodes : NodeBounds s) (fd : ℤ) (buf : Bool) (n : ℕ) :
    FdBounds (fsReadFd s fd buf n).2.2 := by
  rcases fsReadFd_cases s fd buf n with ⟨code, hrun⟩ |
    ⟨i, f, node, len, -, hf, hnode, hoff, hlen, hrun⟩
  · rw [hrun]
    exact h
  · rw [hrun]
    have hsize := hnodes.size f.node
    rw [← hnode] at hsize
    -- a read ends at the size at the latest
    apply h.moved
    · rw [hf]
    · rw [hf]
    · show f.offset + len < fsMaxData
      omega

theorem writeFd (h : FdBounds s) (hnodes : NodeBounds s) (fd : ℤ) (buf : Option (List UInt8)) :
    FdBounds (fsWriteFd s fd buf).2 := by
  rcases fsWriteFd_cases s fd buf with ⟨e, hrun⟩ |
    ⟨i, b, f, node, hopen, -, hnode, hf, -, hcase⟩
  · rw [hrun]
    exact h
  · have hinUse : f.inUse = (s.fdTable i).inUse := by rw [hf, FsFd.writeStart_inUse]
    have hidx : f.nodeIdx = (s.fdTable i).nodeIdx := by rw [hf, FsFd.writeStart_nodeIdx]
    rcases hcase with ⟨-, hrun⟩ | ⟨hroom, hrun⟩
    · rw [hrun]
      -- a full file: the offset moves to the size with O_APPEND, or stays
      apply h.moved hinUse hidx
      have hsize := hnodes.size (s.fdTable i).node
      have hold := (h i (openFd_some hopen).1).1
      rw [hf, FsFd.writeStart]
      split
      · rw [hnode]
        exact hsize
      · exact hold
    · rw [hrun]
      -- the write is cut to leave room for the NUL
      have hoff : f.offset + f.room b < fsMaxData := by
        unfold FsFd.room
        simp only [fsMaxData] at hroom ⊢
        omega
      have hmoved : FdBounds (s.setFd i { f with offset := f.offset + f.room b }) :=
        h.moved hinUse hidx hoff
      exact hmoved.congr rfl

theorem exec (h : FdBounds s) (htree : FsTree s) (hnodes : NodeBounds s) (op : FsOp)
    (hnodes' : NodeBounds (fsExec s op)) : FdBounds (fsExec s op) := by
  cases op with
  | mkdir tick name => exact h.congr (createEntry_fdTable .dir id s tick name)
  | createFile tick name =>
    exact h.congr (createEntry_fdTable .file (Function.update · 0 0) s tick name)
  | writeFile name buf => exact h.congr (fsWriteFile_fdTable s name buf)
  | readFile name maxLen => exact h
  | delete name => exact h.congr (fsDelete_cases s name).fdTable
  | cd name => exact h.congr (fsCd_fdTable s name)
  | «open» tick name flags => exact h.fsOpen htree tick name flags hnodes'
  | close fd =>
    show FdBounds (fsClose s fd).2
    rcases fsClose_cases s fd with ⟨-, hrun⟩ | ⟨i, -, hrun⟩
    · rw [hrun]
      exact h
    · rw [hrun]
      apply h.setFd
      intro hu
      cases hu
  | readFd fd buf n => exact h.readFd hnodes fd buf n
  | writeFd fd buf => exact h.writeFd hnodes fd buf
  | lseek fd offset whence =>
    show FdBounds (fsLseek s fd offset whence).2
    rcases fsLseek_cases s fd offset whence with ⟨e, hrun⟩ | ⟨i, off, -, hoff, hrun⟩
    · rw [hrun]
      exact h
    · rw [hrun]
      exact h.moved rfl rfl hoff
  | stat name out => exact h
  | unlink name => exact h.congr (fsUnlink_cases s name).fdTable
  | rmdir name => exact h.congr (fsRmdir_cases s name).fdTable

theorem reachable (h : fsSystem.Reachable s) : FdBounds s := by
  apply h.invariant
  · intro s hs
    have ⟨tick, hs⟩ : ∃ tick, s = fsInit tick := hs
    intro fd hu
    rw [hs, fsInit_fdTable] at hu
    cases hu
  · intro s op s' hr hs _ hstep
    rw [hstep]
    exact hs.exec (FsTree.reachable hr) (NodeBounds.reachable hr) op
      (NodeBounds.reachable (.step hr trivial rfl))

end FdBounds

/-! ## What the calls use -/

section Uses

variable {s t : FsState} {j : ℕ}

theorem setNode_data {idx : NodeIdx} {n : FsNode} (hn : n.data j = (s.nodes idx).data j) (i : NodeIdx) :
    ((s.setNode idx n).nodes i).data j = (s.nodes i).data j := by
  by_cases hi : i = idx
  · rw [hi, FsState.setNode_self, hn]
  · rw [FsState.setNode_ne _ _ hi]

/-- A copy with a terminator behind it. -/
theorem memcpyAt_outside {data : ℕ → UInt8} {off len last : ℕ} {src : List UInt8}
    (hlen : src.length ≤ len) (hj : ¬ (off ≤ j ∧ j < off + len)) (hlast : j ≠ last) :
    Function.update (memcpyAt data off src) last 0 j = data j := by
  rw [Function.update_of_ne hlast]
  unfold memcpyAt
  rw [if_neg (by omega)]

theorem createEntry_data {type : NodeType} {clear : (ℕ → UInt8) → ℕ → UInt8}
    (hclear : ∀ data, clear data j = data j) (tick : ℕ) (name : Option CStr) (i : NodeIdx) :
    ((createEntry type clear s tick name).2.nodes i).data j = (s.nodes i).data j := by
  rcases createEntry_cases type clear s tick name with ⟨e, hrun, -⟩ | ⟨n, idx, -, -, -, -, -, hrun⟩
  · rw [hrun]
  · rw [hrun]
    exact setNode_data (hclear _) i

theorem fsWriteFile_data {name : CStr} {buf : List UInt8} (hj : j ∉ fsWriteFileIndices s name buf)
    (i : NodeIdx) : ((fsWriteFile s name buf).2.nodes i).data j = (s.nodes i).data j := by
  unfold fsWriteFileIndices at hj
  unfold fsWriteFile
  cases hf : findNode s name with
  | none => rfl
  | some idx =>
    rw [hf] at hj
    simp only at hj ⊢
    split
    · rfl
    · next hfile =>
      rw [if_neg hfile] at hj
      simp only [List.mem_append, List.mem_range, List.mem_singleton, not_or, not_lt] at hj
      apply setNode_data
      exact memcpyAt_outside (List.length_take_le _ _) (by omega) hj.2

theorem fsWriteFd_data {fd : ℤ} {buf : Option (List UInt8)} (hj : j ∉ fsWriteFdIndices s fd buf)
    (i : NodeIdx) : ((fsWriteFd s fd buf).2.nodes i).data j = (s.nodes i).data j := by
  unfold fsWriteFdIndices at hj
  unfold fsWriteFd
  cases hopen : openFd s fd with
  | none => rfl
  | some k =>
    rw [hopen] at hj
    cases buf with
    | none => rfl
    | some b =>
      simp only at hj ⊢
      generalize hf : (s.fdTable k).writeStart (s.nodes (s.fdTable k).node) = f at hj ⊢
      have hnode : f.node = (s.fdTable k).node := by rw [← hf, FsFd.writeStart_node]
      split
      · rfl
      · next hacc =>
        rw [if_neg hacc] at hj
        split
        · rfl
        · next hfull =>
          rw [if_neg hfull] at hj
          simp only [List.mem_append, List.mem_range'_1, List.mem_singleton, not_or] at hj
          rw [hnode]
          apply setNode_data
          exact memcpyAt_outside (List.length_take_le _ _) hj.1 hj.2

theorem openNode_data (hj : j ≠ 0) (idx : NodeIdx) (flags : ℕ) (i : NodeIdx) :
    ((openNode s idx flags).2.nodes i).data j = (s.nodes i).data j := by
  have htrunc : ((openTrunc s idx flags).nodes i).data j = (s.nodes i).data j := by
    unfold openTrunc
    split
    · exact setNode_data (Function.update_of_ne hj ..) i
    · rfl
  rcases openNode_cases s idx flags with ⟨-, hrun⟩ | ⟨-, -, hrun⟩ | ⟨fd, -, -, hrun⟩
  · rw [hrun]
  · rw [hrun]
    exact htrunc
  · rw [hrun]
    exact htrunc

theorem fsOpen_data (hj : j ≠ 0) (tick : ℕ) (name : Option CStr) (flags : ℕ) (i : NodeIdx) :
    ((fsOpen s tick name flags).2.nodes i).data j = (s.nodes i).data j := by
  rcases fsOpen_cases s tick name flags with ⟨e, hrun, -⟩ | ⟨n, idx, -, -, -, hrun⟩ |
    ⟨n, idx, s', -, -, -, -, -, -, hs', -, hrun⟩
  · rw [hrun]
  · rw [hrun]
    exact openNode_data hj idx flags i
  · rw [hrun, openNode_data hj idx flags i, hs']
    exact setNode_data (Function.update_of_ne hj ..) i

theorem RemoveCases.data {name : CStr} {r : ℤ × FsState} (h : RemoveCases s name r) (i : NodeIdx) :
    (r.2.nodes i).data j = (s.nodes i).data j := by
  rcases h with ⟨e, hr⟩ | ⟨hr, hremove⟩
  · rw [hr]
  · obtain ⟨idx, -, -, -, hs⟩ := hremove.spec
    rw [hs]
    exact setNode_data (n := { s.nodes idx with inUse := false }) rfl i

/-- A call stores bytes at its indices only. -/
theorem fsExec_data (op : FsOp) (hj : j ∉ op.dataIndices s) (i : NodeIdx) :
    ((fsExec s op).nodes i).data j = (s.nodes i).data j := by
  cases op with
  | mkdir tick name => exact createEntry_data (fun _ => rfl) tick name i
  | createFile tick name =>
    exact createEntry_data (fun _ => Function.update_of_ne (List.ne_of_not_mem_cons hj) ..) tick name i
  | writeFile name buf => exact fsWriteFile_data hj i
  | readFile name maxLen => rfl
  | delete name => exact (fsDelete_cases s name).data i
  | cd name => exact congrArg (fun nodes => (nodes i).data j) (fsCd_nodes s name)
  | «open» tick name flags => exact fsOpen_data (List.ne_of_not_mem_cons hj) tick name flags i
  | close fd => exact congrArg (fun nodes => (nodes i).data j) (fsClose_nodes s fd)
  | readFd fd buf n => exact congrArg (fun nodes => (nodes i).data j) (fsReadFd_nodes s fd buf n)
  | writeFd fd buf => exact fsWriteFd_data hj i
  | lseek fd offset whence =>
    exact congrArg (fun nodes => (nodes i).data j) (fsLseek_nodes s fd offset whence)
  | stat name out => rfl
  | unlink name => exact (fsUnlink_cases s name).data i
  | rmdir name => exact (fsRmdir_cases s name).data i

/-- The indices of a call depend on no byte. -/
theorem FsState.Agrees.dataIndices {known : NodeIdx → ℕ → Prop} (h : s.Agrees known t) (op : FsOp) :
    op.dataIndices t = op.dataIndices s := by
  cases op with
  | writeFile name buf =>
    show fsWriteFileIndices t name buf = fsWriteFileIndices s name buf
    unfold fsWriteFileIndices
    rw [h.findNode]
    cases MyMisu.findNode s name with
    | none => rfl
    | some idx =>
      simp only
      rw [(h.nodes idx).type]
  | readFile name maxLen =>
    show fsReadFileIndices t name maxLen = fsReadFileIndices s name maxLen
    unfold fsReadFileIndices
    rw [h.findNode]
    cases MyMisu.findNode s name with
    | none => rfl
    | some idx =>
      simp only
      rw [(h.nodes idx).type, (h.nodes idx).size]
  | readFd fd buf n =>
    show fsReadFdIndices t fd buf n = fsReadFdIndices s fd buf n
    unfold fsReadFdIndices
    rw [h.openFd]
    cases MyMisu.openFd s fd with
    | none => rfl
    | some i =>
      simp only
      rw [h.fdTable, (h.nodes (s.fdTable i).node).size]
  | writeFd fd buf =>
    show fsWriteFdIndices t fd buf = fsWriteFdIndices s fd buf
    unfold fsWriteFdIndices
    rw [h.openFd]
    cases MyMisu.openFd s fd with
    | none => rfl
    | some i =>
      cases buf with
      | none => rfl
      | some b =>
        simp only
        rw [h.fdTable, h.writeStart, (h.nodes (s.fdTable i).node).size]
  | _ => rfl

theorem FsState.Agrees.readFile {name : CStr} {maxLen : ℕ}
    (h : s.Agrees (fun _ j => j ∈ fsReadFileIndices s name maxLen) t) :
    fsReadFile t name maxLen = fsReadFile s name maxLen := by
  unfold fsReadFile
  rw [h.findNode]
  cases hf : MyMisu.findNode s name with
  | none => rfl
  | some idx =>
    have hn := h.nodes idx
    simp only
    rw [hn.type, hn.size]
    split
    · rfl
    · next hfile =>
      congr 2
      apply bytesAt_congr
      intro j _ hj
      apply hn.data
      unfold fsReadFileIndices
      rw [hf]
      simp only
      rw [if_neg hfile, List.mem_range]
      omega

theorem FsState.Agrees.readFdBytes {fd : ℤ} {buf : Bool} {n : ℕ}
    (h : s.Agrees (fun _ j => j ∈ fsReadFdIndices s fd buf n) t) :
    (fsReadFd t fd buf n).1 = (fsReadFd s fd buf n).1 ∧
      (fsReadFd t fd buf n).2.1 = (fsReadFd s fd buf n).2.1 := by
  unfold fsReadFd
  rw [h.openFd]
  cases hopen : MyMisu.openFd s fd with
  | none => exact ⟨rfl, rfl⟩
  | some i =>
    have hn := h.nodes (s.fdTable i).node
    simp only
    rw [h.fdTable, hn.size]
    split
    · exact ⟨rfl, rfl⟩
    · next hbuf =>
      split
      · exact ⟨rfl, rfl⟩
      · next hacc =>
        split
        · exact ⟨rfl, rfl⟩
        · next hend =>
          refine ⟨rfl, bytesAt_congr fun j hlo hhi => hn.data j ?_⟩
          unfold fsReadFdIndices
          rw [hopen]
          simp only
          rw [if_neg hbuf, if_neg hacc, if_neg hend, List.mem_range'_1]
          exact ⟨hlo, hhi⟩

/-- A call returns nothing of the bytes at other indices. -/
theorem FsState.Agrees.reply {op : FsOp} (h : s.Agrees (fun _ j => j ∈ op.dataIndices s) t) :
    (fsCall t op).1 = (fsCall s op).1 := by
  cases op with
  | mkdir tick name => exact congrArg FsReply.ofCode (h.mkdir tick name).1
  | createFile tick name => exact congrArg FsReply.ofCode (h.createFile tick name).1
  | writeFile name buf => exact congrArg FsReply.ofCode (h.writeFile name rfl (.inl rfl)).1
  | readFile name maxLen =>
    show FsReply.mk (fsReadFile t name maxLen).1 (fsReadFile t name maxLen).2 none = _
    rw [h.readFile]
    rfl
  | delete name => exact congrArg FsReply.ofCode (h.delete name).1
  | cd name => exact congrArg FsReply.ofCode (h.cd name).1
  | «open» tick name flags => exact congrArg FsReply.ofCode (h.open tick name flags).1
  | close fd => exact congrArg FsReply.ofCode (h.close fd).1
  | readFd fd buf n =>
    have hread := h.readFdBytes
    show FsReply.mk (fsReadFd t fd buf n).1 (fsReadFd t fd buf n).2.1 none = _
    rw [hread.1, hread.2]
    rfl
  | writeFd fd buf => exact congrArg FsReply.ofCode (h.writeFd fd rfl (.inl rfl)).1
  | lseek fd offset whence => exact congrArg FsReply.ofCode (h.lseek fd offset whence).1
  | stat name out =>
    have hstat : fsStat t name out = fsStat s name out := by
      unfold fsStat
      cases name with
      | none => rfl
      | some name =>
        simp only
        rw [h.findNode]
        cases MyMisu.findNode s name with
        | none => rfl
        | some idx =>
          simp only
          rw [(h.nodes idx).type, (h.nodes idx).size, (h.nodes idx).createdTick, (h.nodes idx).parent]
    show FsReply.mk (fsStat t name out).1 [] (fsStat t name out).2 = _
    rw [hstat]
    rfl
  | unlink name => exact congrArg FsReply.ofCode (h.unlink name).1
  | rmdir name => exact congrArg FsReply.ofCode (h.rmdir name).1

theorem usesOnly_dataIndices (s : FsState) (op : FsOp) : op.UsesOnly s (op.dataIndices s) := by
  intro t h
  refine ⟨h.reply, h.exec op, fun i j hj => ?_⟩
  apply fsExec_data
  rw [h.dataIndices]
  exact hj

end Uses

/-! ## Indices -/

/-- `fs_write_file` cuts the buffer by itself, whatever the node was. -/
theorem fsWriteFile_indices {s : FsState} {j : ℕ} {name : CStr} {buf : List UInt8}
    (hj : j ∈ fsWriteFileIndices s name buf) : j ≤ 4095 := by
  unfold fsWriteFileIndices at hj
  split at hj
  · cases hj
  · split at hj
    · cases hj
    · simp only [List.mem_append, List.mem_range, List.mem_singleton] at hj
      split at hj
      · simp only [fsMaxData] at hj
        omega
      · simp only [fsMaxData] at *
        omega

namespace NodeBounds

variable {s : FsState} {j : ℕ}

theorem readFile_indices (h : NodeBounds s) {name : CStr} {maxLen : ℕ} (hpos : 1 ≤ maxLen)
    (hj : j ∈ fsReadFileIndices s name maxLen) : j ≤ 4095 := by
  unfold fsReadFileIndices at hj
  split at hj
  · cases hj
  · next idx _ =>
    have hsize : (s.nodes idx).size < 4096 := h.size idx
    simp only at hj
    split at hj
    · cases hj
    · rw [readFile_copyLen (by omega) hpos, List.mem_range] at hj
      omega

theorem readFd_indices (h : NodeBounds s) {fd : ℤ} {buf : Bool} {n : ℕ}
    (hj : j ∈ fsReadFdIndices s fd buf n) : j ≤ 4095 := by
  unfold fsReadFdIndices at hj
  split at hj
  · cases hj
  · next i _ =>
    have hsize : (s.nodes (s.fdTable i).node).size < 4096 := h.size _
    simp only at hj
    split_ifs at hj with hbuf hflags hend hshort
    · cases hj
    · cases hj
    · cases hj
    · rw [List.mem_range'_1] at hj
      omega
    · rw [List.mem_range'_1] at hj
      omega

theorem writeFd_indices (h : NodeBounds s) {fd : ℤ} {buf : Option (List UInt8)}
    (hj : j ∈ fsWriteFdIndices s fd buf) : j ≤ 4095 := by
  unfold fsWriteFdIndices at hj
  split at hj
  · cases hj
  · next i _ =>
    have hsize : (s.nodes (s.fdTable i).node).size < 4096 := h.size _
    split at hj
    · cases hj
    · next b =>
      simp only at hj
      generalize (s.fdTable i).writeStart (s.nodes (s.fdTable i).node) = f at hj
      split_ifs at hj with hflags hfull hshort hgrow hgrow
      · cases hj
      · cases hj
      -- the bytes end below the NUL, and the NUL at the last index
      all_goals
        simp only [fsMaxData] at *
        simp only [List.mem_append, List.mem_range'_1, List.mem_singleton] at hj
        omega

theorem indices (h : NodeBounds s) {op : FsOp} (hop : op.RoomForNul) (hj : j ∈ op.dataIndices s) :
    j ≤ 4095 := by
  cases op with
  | writeFile name buf => exact fsWriteFile_indices hj
  | readFile name maxLen => exact h.readFile_indices hop hj
  | readFd fd buf n => exact h.readFd_indices hj
  | writeFd fd buf => exact h.writeFd_indices hj
  | createFile tick name =>
    obtain rfl := List.mem_singleton.mp hj
    omega
  | «open» tick name flags =>
    obtain rfl := List.mem_singleton.mp hj
    omega
  | _ => cases hj

end NodeBounds

/-- Every reachable state keeps the bounds, so no call leaves the array of a node. -/
theorem data_bounds (s : FsState) (h : fsSystem.Reachable s) : DataBounds s := by
  have hnodes := NodeBounds.reachable h
  constructor
  · intro i
    have hsize := hnodes.size i
    simp only [fsMaxData] at hsize
    omega
  · exact hnodes.terminated
  · intro fd hu
    have ⟨hoff, i, hidx, hroot⟩ := FdBounds.reachable h fd hu
    have hlt := i.isLt
    have hne : i.val ≠ 0 := fun h0 => hroot (Fin.ext h0)
    simp only [fsMaxData] at hoff
    simp only [fsMaxFiles] at hlt
    exact ⟨by omega, i, hidx, by omega, by omega⟩
  · intro op hop
    exact ⟨usesOnly_dataIndices s op, fun j hj => hnodes.indices hop hj⟩

/-- A descriptor on a file that has been removed, at the end of the array. -/
def removedOpen : List FsOp :=
  [.open 0 (some (.ofString "hostname")) oRdwr, .lseek 0 4095 0, .unlink (.ofString "hostname")]

theorem data_bounds_removed : ∃ s, s = removedOpen.foldl fsExec (fsInit 0) ∧
    (s.fdTable 0).inUse = true ∧ (s.fdTable 0).offset = 4095 ∧ DataBounds s := by
  have hreach := TransitionSystem.Reachable.foldl (.init ⟨0, rfl⟩ : fsSystem.Reachable (fsInit 0)) removedOpen
  refine ⟨_, rfl, ?_, ?_, data_bounds _ hreach⟩
  · decide +kernel
  · decide +kernel

end MyMisu
