import MyMisu.Fs.SlotReuse

/-!
# Appending descriptors

A write through a descriptor with `O_APPEND` goes to the end of the file, wherever the other writes
and the seeks have left its offset.  So however the writes of several such descriptors interleave,
the file is its old content followed by the buffers in the order of the calls, cut at the capacity.
-/

namespace MyMisu

/-- The bytes of a file. -/
def FsNode.content (node : FsNode) : List UInt8 := bytesAt node.data 0 node.size

theorem FsNode.content_length (node : FsNode) : node.content.length = node.size := bytesAt_length ..

theorem bytesAt_append (data : ℕ → UInt8) (off m n : ℕ) :
    bytesAt data off (m + n) = bytesAt data off m ++ bytesAt data (off + m) n := by
  unfold bytesAt
  rw [List.range_add, List.map_append, List.map_map]
  congr 1
  apply List.map_congr_left
  intro i _
  rw [Function.comp_apply, Nat.add_assoc]

/-! ## One write -/

section Written

variable {node : FsNode} {off len : ℕ} {buf : List UInt8}

theorem FsNode.written_outside (hlen : len ≤ buf.length) {j : ℕ} (hj : j < node.size)
    (hout : j < off ∨ off + len ≤ j) : (node.written off buf len).data j = node.data j := by
  have hend : j ≠ max node.size (off + len) := by omega
  have hcopy : ¬ (off ≤ j ∧ j < off + (buf.take len).length) := by
    rw [List.length_take_of_le hlen]
    omega
  exact (Function.update_of_ne hend ..).trans (if_neg hcopy)

/-- The written bytes are the ones a read at the same place returns. -/
theorem FsNode.bytesAt_written (hlen : len ≤ buf.length) :
    bytesAt (node.written off buf len).data off len = buf.take len := by
  have htake : (buf.take len).length = len := List.length_take_of_le hlen
  have hcopy : bytesAt (node.written off buf len).data off len =
      bytesAt (memcpyAt node.data off (buf.take len)) off len := by
    apply bytesAt_congr
    intro j _ hj
    have hend : j ≠ max node.size (off + len) := by omega
    exact Function.update_of_ne hend ..
  have hmem := bytesAt_memcpyAt node.data off (buf.take len)
  rw [htake] at hmem
  rw [hcopy, hmem]

/-- At the end of the file the bytes are appended. -/
theorem FsNode.content_written (hlen : len ≤ buf.length) :
    (node.written node.size buf len).content = node.content ++ buf.take len := by
  have hsize : (node.written node.size buf len).size = node.size + len := by
    show max node.size (node.size + len) = node.size + len
    omega
  unfold FsNode.content
  rw [hsize, bytesAt_append, Nat.zero_add, FsNode.bytesAt_written hlen]
  congr 1
  apply bytesAt_congr
  intro j _ hj
  exact FsNode.written_outside hlen (by omega) (.inl (by omega))

end Written

theorem take_take_append {α : Type*} (n : ℕ) (xs ys : List α) :
    (xs.take n ++ ys).take n = (xs ++ ys).take n := by
  rw [List.take_append, List.take_append, List.take_take, min_self, List.length_take]
  congr 2
  omega

/-! ## Runs of writes -/

/-- `fd` is open on node `i` for appending. -/
structure AppendsTo (s : FsState) (i : NodeIdx) (fd : FdIdx) : Prop where
  inUse : (s.fdTable fd).inUse = true
  node : (s.fdTable fd).nodeIdx = some i
  append : hasFlag (s.fdTable fd).flags oAppend = true
  writable : (s.fdTable fd).flags &&& 0x3 ≠ oRdonly

/-- A write, a seek or a read through one of the descriptors. -/
inductive FsOp.Through (fds : Set FdIdx) : FsOp → Prop
  | write {fd : FdIdx} (buf : List UInt8) : fd ∈ fds → Through fds (.writeFd (fd : ℕ) (some buf))
  | lseek {fd : FdIdx} (offset whence : ℤ) : fd ∈ fds → Through fds (.lseek (fd : ℕ) offset whence)
  | read {fd : FdIdx} (buf : Bool) (n : ℕ) : fd ∈ fds → Through fds (.readFd (fd : ℕ) buf n)

/-- The bytes a call was given to write. -/
def FsOp.written : FsOp → List UInt8
  | .writeFd _ (some buf) => buf
  | _ => []

/-- The result of a write, 0 if it was refused. -/
def FsOp.accepted (s : FsState) : FsOp → ℤ
  | .writeFd fd buf => max (fsWriteFd s fd buf).1 0
  | _ => 0

/-- The sum of the non-negative results of the writes of a run. -/
def acceptedBytes : FsState → List FsOp → ℤ
  | _, [] => 0
  | s, op :: ops => op.accepted s + acceptedBytes (fsExec s op) ops

section Step

variable {s : FsState} {i : NodeIdx}

theorem AppendsTo.moved {fd fd' : FdIdx} (h : AppendsTo s i fd') (off : ℕ) :
    AppendsTo (s.setFd fd { s.fdTable fd with offset := off }) i fd' := by
  by_cases hfd : fd' = fd
  · subst hfd
    constructor
    · rw [FsState.setFd_self]
      exact h.inUse
    · rw [FsState.setFd_self]
      exact h.node
    · rw [FsState.setFd_self]
      exact h.append
    · rw [FsState.setFd_self]
      exact h.writable
  · constructor
    · rw [FsState.setFd_ne _ _ hfd]
      exact h.inUse
    · rw [FsState.setFd_ne _ _ hfd]
      exact h.node
    · rw [FsState.setFd_ne _ _ hfd]
      exact h.append
    · rw [FsState.setFd_ne _ _ hfd]
      exact h.writable

theorem AppendsTo.setNode {fd : FdIdx} (h : AppendsTo s i fd) (j : NodeIdx) (node : FsNode) :
    AppendsTo (s.setNode j node) i fd :=
  ⟨h.inUse, h.node, h.append, h.writable⟩

/-- An appending write at a file of at most 4095 bytes. -/
theorem AppendsTo.write {fd : FdIdx} (h : AppendsTo s i fd) (buf : List UInt8) :
    fsWriteFd s (fd : ℕ) (some buf) =
      if (s.nodes i).size ≥ fsMaxData - 1 then
        (Errno.enospc.ret, s.setFd fd { s.fdTable fd with offset := (s.nodes i).size })
      else
        let len := min buf.length (fsMaxData - 1 - (s.nodes i).size)
        (len, (s.setFd fd { s.fdTable fd with offset := (s.nodes i).size + len }).setNode i
          ((s.nodes i).written (s.nodes i).size buf len)) := by
  have hnode : (s.fdTable fd).node = i := by rw [FsFd.node, h.node, Option.getD_some]
  have hstart : (s.fdTable fd).writeStart (s.nodes i) =
      { s.fdTable fd with offset := (s.nodes i).size } := if_pos h.append
  unfold fsWriteFd
  rw [openFd_val h.inUse]
  simp only [hnode, hstart, if_neg h.writable]
  have hnode' : FsFd.node { s.fdTable fd with offset := (s.nodes i).size } = i := hnode
  simp only [FsNode.written, gt_iff_lt, ← min_def_lt, ← max_def_lt, FsState.setFd_setFd, hnode']

/-- The descriptors append to node `i`, which is within the capacity. -/
structure Appending (s : FsState) (i : NodeIdx) (fds : Set FdIdx) : Prop where
  fds : ∀ fd ∈ fds, AppendsTo s i fd
  size : (s.nodes i).size ≤ 4095

/-- What a step does to the file: it goes from `old` to `old` with `w` behind it, cut at 4095. -/
structure Appended (s t : FsState) (i : NodeIdx) (w : List UInt8) (accepted : ℤ) : Prop where
  content : (t.nodes i).content = ((s.nodes i).content ++ w).take 4095
  accepted : ((s.nodes i).size : ℤ) + accepted = (t.nodes i).size

theorem Appended.refl (hsize : (s.nodes i).size ≤ 4095) {t : FsState} (hnode : t.nodes i = s.nodes i) :
    Appended s t i [] 0 := by
  constructor
  · rw [hnode, List.append_nil, List.take_of_length_le]
    rwa [FsNode.content_length]
  · rw [hnode, add_zero]

theorem Appended.trans {s t u : FsState} {v w : List UInt8} {m n : ℤ} (h : Appended s t i v m)
    (h' : Appended t u i w n) : Appended s u i (v ++ w) (m + n) := by
  constructor
  · rw [h'.content, h.content, take_take_append, List.append_assoc]
  · have hm := h.accepted
    have hn := h'.accepted
    omega

theorem Appending.write {fds : Set FdIdx} (h : Appending s i fds) {fd : FdIdx} (hfd : fd ∈ fds)
    (buf : List UInt8) :
    Appending (fsWriteFd s (fd : ℕ) (some buf)).2 i fds ∧
      Appended s (fsWriteFd s (fd : ℕ) (some buf)).2 i buf
        (max (fsWriteFd s (fd : ℕ) (some buf)).1 0) := by
  have hsize := h.size
  rw [(h.fds fd hfd).write buf]
  by_cases hfull : (s.nodes i).size ≥ fsMaxData - 1
  -- a full file: the write is refused, and the cut loses all of the buffer
  · rw [if_pos hfull]
    simp only [fsMaxData] at hfull
    have hlen : (s.nodes i).content.length = 4095 := by
      rw [FsNode.content_length]
      omega
    refine ⟨⟨fun fd' hfd' => (h.fds fd' hfd').moved _, hsize⟩, ?_, ?_⟩
    · rw [List.take_append_of_le_length (by omega), List.take_of_length_le (by omega)]
      rfl
    · rw [max_eq_right (le_of_lt (Errno.ret_neg _)), add_zero]
      rfl
  · rw [if_neg hfull]
    simp only [fsMaxData] at hfull
    generalize hlen : min buf.length (fsMaxData - 1 - (s.nodes i).size) = len
    simp only [fsMaxData] at hlen
    have hle : len ≤ buf.length := by omega
    have hnode := FsState.setNode_self (s.setFd fd { s.fdTable fd with offset := (s.nodes i).size + len })
      i ((s.nodes i).written (s.nodes i).size buf len)
    have hgrown : ((s.nodes i).written (s.nodes i).size buf len).size = (s.nodes i).size + len := by
      show max (s.nodes i).size ((s.nodes i).size + len) = _
      omega
    have hcontent : (s.nodes i).content.length ≤ 4095 := by rwa [FsNode.content_length]
    have hcut : buf.take len = buf.take (4095 - (s.nodes i).content.length) := by
      rw [FsNode.content_length, ← hlen, min_comm, ← List.take_eq_take_min]
    refine ⟨⟨fun fd' hfd' => ((h.fds fd' hfd').moved _).setNode .., ?_⟩, ?_, ?_⟩
    · show (((s.setFd fd _).setNode i _).nodes i).size ≤ 4095
      rw [hnode, hgrown]
      omega
    · show (((s.setFd fd _).setNode i _).nodes i).content = _
      rw [hnode, FsNode.content_written hle, List.take_append, List.take_of_length_le hcontent, hcut]
    · show ((s.nodes i).size : ℤ) + max (len : ℤ) 0 = ((((s.setFd fd _).setNode i _).nodes i).size : ℤ)
      rw [hnode, hgrown]
      omega

/-- A call that stores an offset in one of the descriptors leaves the file alone. -/
theorem Appending.move {fds : Set FdIdx} (h : Appending s i fds) (fd : FdIdx) (off : ℕ) :
    Appending (s.setFd fd { s.fdTable fd with offset := off }) i fds ∧
      Appended s (s.setFd fd { s.fdTable fd with offset := off }) i [] 0 :=
  ⟨⟨fun fd' hfd' => (h.fds fd' hfd').moved off, h.size⟩, .refl h.size rfl⟩

theorem Appending.step {fds : Set FdIdx} (h : Appending s i fds) {op : FsOp}
    (hop : op.Through fds) :
    Appending (fsExec s op) i fds ∧ Appended s (fsExec s op) i op.written (op.accepted s) := by
  cases hop with
  | write buf hfd => exact h.write hfd buf
  | @lseek fd offset whence _ =>
    show Appending (fsLseek s fd offset whence).2 i fds ∧
      Appended s (fsLseek s fd offset whence).2 i [] 0
    rcases fsLseek_cases s fd offset whence with ⟨e, hrun⟩ | ⟨j, off, -, -, hrun⟩
    · rw [hrun]
      exact ⟨h, .refl h.size rfl⟩
    · rw [hrun]
      exact h.move j off
  | @read fd buf n _ =>
    show Appending (fsReadFd s fd buf n).2.2 i fds ∧ Appended s (fsReadFd s fd buf n).2.2 i [] 0
    rcases fsReadFd_cases s fd buf n with ⟨code, hrun⟩ | ⟨j, f, node, len, -, hf, -, -, -, hrun⟩
    · rw [hrun]
      exact ⟨h, .refl h.size rfl⟩
    · rw [hrun, hf]
      exact h.move j _

theorem Appending.run {fds : Set FdIdx} (h : Appending s i fds) {ops : List FsOp}
    (hops : ∀ op ∈ ops, op.Through fds) :
    Appended s (ops.foldl fsExec s) i (ops.flatMap FsOp.written) (acceptedBytes s ops) := by
  -- on the run; a step leaves the descriptors appending, so the next one starts from such a state
  induction ops generalizing s with
  | nil => exact .refl h.size rfl
  | cons op ops ih =>
    have ⟨hnext, hstep⟩ := h.step (hops op (List.mem_cons_self ..))
    exact hstep.trans (ih hnext fun op' hop' => hops op' (List.mem_cons_of_mem _ hop'))

end Step

/-- Whatever the order of the writes, seeks and reads of appending descriptors of one node, its
content ends as the old one followed by all buffers, cut at 4095 bytes, and the results of the
writes add up to what was appended. -/
theorem appends_lose_nothing (s : FsState) (h : fsSystem.Reachable s) (i : NodeIdx) (fds : Set FdIdx)
    (hfds : ∀ fd ∈ fds, AppendsTo s i fd) (ops : List FsOp) (hops : ∀ op ∈ ops, op.Through fds) :
    ((ops.foldl fsExec s).nodes i).content =
        ((s.nodes i).content ++ ops.flatMap FsOp.written).take 4095 ∧
      acceptedBytes s ops =
        ((ops.foldl fsExec s).nodes i).content.length - (s.nodes i).content.length := by
  have hsize := (NodeBounds.reachable h).size i
  simp only [fsMaxData] at hsize
  have hrun := Appending.run ⟨hfds, by omega⟩ hops
  refine ⟨hrun.content, ?_⟩
  rw [FsNode.content_length, FsNode.content_length, ← hrun.accepted]
  omega

/-- Two descriptors that append to `hostname`. -/
def twoAppenders : FsState :=
  let openAppend := FsOp.open 0 (some (.ofString "hostname")) (oWronly ||| oAppend)
  fsExec (fsExec (fsInit 0) openAppend) openAppend

theorem twoAppenders_appendsTo (fd : FdIdx) (h : fd ∈ ({0, 1} : Set FdIdx)) :
    AppendsTo twoAppenders 6 fd := by
  rcases h with rfl | rfl
  · exact ⟨by decide +kernel, by decide +kernel, by decide +kernel, by decide +kernel⟩
  · exact ⟨by decide +kernel, by decide +kernel, by decide +kernel, by decide +kernel⟩

theorem appends_lose_nothing_hostname :
    (([FsOp.writeFd 0 (some [45]), .lseek 1 0 seekSet, .writeFd 1 (some [49, 50])].foldl fsExec
      twoAppenders).nodes 6).content = (CStr.ofString "misu-pc-12").bytes := by
  have hreach : fsSystem.Reachable twoAppenders := .next (.next (.init ⟨0, rfl⟩) rfl) rfl
  have hops : ∀ op ∈ [FsOp.writeFd 0 (some [45]), .lseek 1 0 seekSet, .writeFd 1 (some [49, 50])],
      op.Through {0, 1} := by
    simp only [List.forall_mem_cons, List.not_mem_nil, false_imp_iff, implies_true, and_true]
    have h0 : (0 : FdIdx) ∈ ({0, 1} : Set FdIdx) := .inl rfl
    have h1 : (1 : FdIdx) ∈ ({0, 1} : Set FdIdx) := .inr rfl
    exact ⟨.write [45] h0, .lseek 0 seekSet h1, .write [49, 50] h1⟩
  rw [(appends_lose_nothing twoAppenders hreach 6 {0, 1} twoAppenders_appendsTo _ hops).1]
  decide +kernel

end MyMisu
