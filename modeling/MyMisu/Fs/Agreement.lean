import MyMisu.Fs.Calls

/-!
# Two runs of the filesystem

Tables that differ in data bytes only, and only at indices where nothing is known about them.  A call
takes such tables to such tables and returns the same result; a write may even store different bytes
where nothing is known.
-/

namespace MyMisu

/-- Two nodes with the same fields and the same bytes at the known indices. -/
structure FsNode.Agrees (known : ℕ → Prop) (n m : FsNode) : Prop where
  name : m.name = n.name
  type : m.type = n.type
  size : m.size = n.size
  parent : m.parent = n.parent
  inUse : m.inUse = n.inUse
  createdTick : m.createdTick = n.createdTick
  data : ∀ j, known j → m.data j = n.data j

structure FsState.Agrees (known : NodeIdx → ℕ → Prop) (s t : FsState) : Prop where
  nodes : ∀ i, (s.nodes i).Agrees (known i) (t.nodes i)
  fdTable : t.fdTable = s.fdTable
  currentDir : t.currentDir = s.currentDir

/-- The same result and tables that agree. -/
def SameOutcome (known : NodeIdx → ℕ → Prop) (r r' : ℤ × FsState) : Prop :=
  r'.1 = r.1 ∧ r.2.Agrees known r'.2

theorem memcpyAt_congr {data data' : ℕ → UInt8} {j : ℕ} (h : data' j = data j) (off : ℕ)
    (src : List UInt8) : memcpyAt data' off src j = memcpyAt data off src j := by
  unfold memcpyAt
  rw [h]

theorem update_congr {data data' : ℕ → UInt8} {j : ℕ} (h : data' j = data j) (i : ℕ) (b : UInt8) :
    Function.update data' i b j = Function.update data i b j := by
  rw [Function.update_apply, Function.update_apply, h]

namespace FsState.Agrees

variable {known : NodeIdx → ℕ → Prop} {s t : FsState} (h : s.Agrees known t)

theorem rfl' (known : NodeIdx → ℕ → Prop) (s : FsState) : s.Agrees known s where
  nodes _ := ⟨rfl, rfl, rfl, rfl, rfl, rfl, fun _ _ => rfl⟩
  fdTable := rfl
  currentDir := rfl

include h

theorem findNode (name : CStr) : findNode t name = findNode s name := by
  unfold MyMisu.findNode findNodeIn
  rw [h.currentDir]
  congr 1
  ext i
  rw [(h.nodes i).inUse, (h.nodes i).name, (h.nodes i).parent]

theorem findFreeNode : findFreeNode t = findFreeNode s := by
  unfold MyMisu.findFreeNode
  congr 1
  ext i
  rw [(h.nodes i).inUse]

theorem findFreeFd : findFreeFd t = findFreeFd s := by
  unfold MyMisu.findFreeFd
  rw [h.fdTable]

theorem hasChild (idx : NodeIdx) : hasChild t idx = hasChild s idx := by
  unfold MyMisu.hasChild
  congr 2
  ext i
  rw [(h.nodes i).inUse, (h.nodes i).parent]

theorem openFd (fd : ℤ) : openFd t fd = openFd s fd := by
  unfold MyMisu.openFd
  rw [h.fdTable]

theorem same (code : ℤ) : SameOutcome known (code, s) (code, t) := ⟨rfl, h⟩

theorem setNode {i : NodeIdx} {n m : FsNode} (hn : n.Agrees (known i) m) :
    (s.setNode i n).Agrees known (t.setNode i m) where
  nodes j := by
    by_cases hj : j = i
    · rw [hj, FsState.setNode_self, FsState.setNode_self]
      exact hn
    · rw [FsState.setNode_ne _ _ hj, FsState.setNode_ne _ _ hj]
      exact h.nodes j
  fdTable := h.fdTable
  currentDir := h.currentDir

theorem setFd (i : FdIdx) (f : FsFd) : (s.setFd i f).Agrees known (t.setFd i f) where
  nodes := h.nodes
  fdTable := by
    show Function.update t.fdTable i f = Function.update s.fdTable i f
    rw [h.fdTable]
  currentDir := h.currentDir

theorem freed (idx : NodeIdx) {m : FsNode} (hm : m = { t.nodes idx with inUse := false }) :
    SameOutcome known (0, s.setNode idx { s.nodes idx with inUse := false }) (0, t.setNode idx m) := by
  have hn := h.nodes idx
  rw [hm]
  exact ⟨rfl, h.setNode ⟨hn.name, hn.type, hn.size, hn.parent, rfl, hn.createdTick, hn.data⟩⟩

/-! ## The calls -/

theorem createEntry (type : NodeType) {clear : (ℕ → UInt8) → ℕ → UInt8}
    (hclear : ∀ d d' j, d' j = d j → clear d' j = clear d j) (tick : ℕ) (name : Option CStr) :
    SameOutcome known (createEntry type clear s tick name) (createEntry type clear t tick name) := by
  unfold MyMisu.createEntry
  cases name with
  | none => exact h.same _
  | some name =>
    simp only
    rw [h.findNode, h.findFreeNode]
    split_ifs
    · exact h.same _
    · exact h.same _
    · exact h.same _
    · cases MyMisu.findFreeNode s with
      | none => exact h.same _
      | some idx =>
        have hn := h.nodes idx
        refine ⟨rfl, h.setNode ⟨?_, rfl, rfl, ?_, rfl, rfl, ?_⟩⟩
        · show (t.nodes idx).name.store name = (s.nodes idx).name.store name
          rw [hn.name]
        · show some t.currentDir = some s.currentDir
          rw [h.currentDir]
        · intro j hj
          exact hclear _ _ j (hn.data j hj)

theorem mkdir (tick : ℕ) (name : Option CStr) :
    SameOutcome known (fsMkdir s tick name) (fsMkdir t tick name) :=
  h.createEntry .dir (fun _ _ _ hd => hd) tick name

theorem createFile (tick : ℕ) (name : Option CStr) :
    SameOutcome known (fsCreateFile s tick name) (fsCreateFile t tick name) :=
  h.createEntry .file (fun _ _ _ hd => update_congr hd 0 0) tick name

/-- Bytes may differ where nothing is known. -/
theorem writeFile (name : CStr) {buf buf' : List UInt8} (hlen : buf'.length = buf.length)
    (hbuf : buf' = buf ∨ ∀ i, MyMisu.findNode s name = some i → ∀ j, ¬ known i j) :
    SameOutcome known (fsWriteFile s name buf) (fsWriteFile t name buf') := by
  unfold fsWriteFile
  rw [h.findNode]
  cases hf : MyMisu.findNode s name with
  | none => exact h.same _
  | some idx =>
    have hn := h.nodes idx
    simp only
    rw [hn.type, hlen]
    split
    · exact h.same _
    · refine ⟨rfl, h.setNode ⟨hn.name, rfl, rfl, hn.parent, hn.inUse, hn.createdTick, ?_⟩⟩
      intro j hj
      rcases hbuf with heq | hnone
      · rw [heq]
        exact update_congr (memcpyAt_congr (hn.data j hj) 0 _) _ 0
      · exact absurd hj (hnone idx hf j)

theorem delete (name : CStr) : SameOutcome known (fsDelete s name) (fsDelete t name) := by
  unfold fsDelete
  rw [h.findNode]
  cases MyMisu.findNode s name with
  | none => exact h.same _
  | some idx =>
    simp only
    rw [(h.nodes idx).type, h.hasChild]
    split_ifs
    · exact h.same _
    · exact h.same _
    · exact h.freed idx (by rw [← (h.nodes idx).type])

theorem unlink (name : CStr) : SameOutcome known (fsUnlink s name) (fsUnlink t name) := by
  unfold fsUnlink
  rw [h.findNode]
  cases MyMisu.findNode s name with
  | none => exact h.same _
  | some idx =>
    simp only
    rw [(h.nodes idx).type]
    split_ifs
    · exact h.same _
    · exact h.same _
    · exact h.freed idx (by rw [← (h.nodes idx).type])

theorem rmdir (name : CStr) : SameOutcome known (fsRmdir s name) (fsRmdir t name) := by
  unfold fsRmdir
  rw [h.findNode]
  cases MyMisu.findNode s name with
  | none => exact h.same _
  | some idx =>
    simp only
    rw [(h.nodes idx).type, h.hasChild]
    split_ifs
    · exact h.same _
    · exact h.same _
    · exact h.same _
    · exact h.freed idx (by rw [← (h.nodes idx).type])

theorem chdir (dir : NodeIdx) :
    SameOutcome known (0, { s with currentDir := dir }) (0, { t with currentDir := dir }) :=
  ⟨rfl, h.nodes, h.fdTable, rfl⟩

theorem cd (name : CStr) : SameOutcome known (fsCd s name) (fsCd t name) := by
  unfold fsCd
  rw [h.currentDir, (h.nodes s.currentDir).parent, h.findNode]
  split_ifs
  · cases (s.nodes s.currentDir).parent with
    | none => exact h.same _
    | some parent => exact h.chdir parent
  · exact h.chdir 0
  · cases MyMisu.findNode s name with
    | none => exact h.same _
    | some idx =>
      simp only
      rw [(h.nodes idx).type]
      split_ifs
      · exact h.same _
      · exact h.chdir idx

theorem openTrunc (idx : NodeIdx) (flags : ℕ) :
    (openTrunc s idx flags).Agrees known (openTrunc t idx flags) := by
  have hn := h.nodes idx
  unfold MyMisu.openTrunc
  split
  · exact h.setNode ⟨hn.name, hn.type, rfl, hn.parent, hn.inUse, hn.createdTick,
      fun j hj => update_congr (hn.data j hj) 0 0⟩
  · exact h

theorem openNode (idx : NodeIdx) (flags : ℕ) :
    SameOutcome known (openNode s idx flags) (openNode t idx flags) := by
  have htrunc := h.openTrunc idx flags
  unfold MyMisu.openNode
  rw [(h.nodes idx).type]
  split
  · exact h.same _
  · simp only
    rw [htrunc.findFreeFd, (htrunc.nodes idx).size]
    cases MyMisu.findFreeFd (MyMisu.openTrunc s idx flags) with
    | none => exact htrunc.same _
    | some fd => exact ⟨rfl, htrunc.setFd fd _⟩

theorem «open» (tick : ℕ) (name : Option CStr) (flags : ℕ) :
    SameOutcome known (fsOpen s tick name flags) (fsOpen t tick name flags) := by
  unfold fsOpen
  cases name with
  | none => exact h.same _
  | some name =>
    have hnew := h.createFile tick (some name)
    simp only
    rw [h.findNode]
    split
    · exact h.same _
    · cases MyMisu.findNode s name with
      | some idx => exact h.openNode idx flags
      | none =>
        simp only
        split
        · -- `O_CREAT`: the creation returns the same code, and the second search finds the same
          rw [hnew.1, hnew.2.findNode]
          split
          · exact ⟨rfl, hnew.2⟩
          · cases MyMisu.findNode (fsCreateFile s tick (some name)).2 name with
            | none => exact ⟨rfl, hnew.2⟩
            | some idx => exact hnew.2.openNode idx flags
        · exact h.same _

theorem close (fd : ℤ) : SameOutcome known (fsClose s fd) (fsClose t fd) := by
  unfold fsClose
  rw [h.openFd]
  cases MyMisu.openFd s fd with
  | none => exact h.same _
  | some i =>
    simp only
    rw [h.fdTable]
    exact ⟨rfl, h.setFd i _⟩

theorem readFd (fd : ℤ) (buf : Bool) (n : ℕ) :
    (fsReadFd s fd buf n).2.2.Agrees known (fsReadFd t fd buf n).2.2 := by
  unfold fsReadFd
  rw [h.openFd]
  cases MyMisu.openFd s fd with
  | none => exact h
  | some i =>
    simp only
    rw [h.fdTable, (h.nodes (s.fdTable i).node).size]
    split
    · exact h
    · split
      · exact h
      · split
        · exact h
        · exact h.setFd i _

theorem writeStart {idx : NodeIdx} (f : FsFd) :
    f.writeStart (t.nodes idx) = f.writeStart (s.nodes idx) := by
  unfold FsFd.writeStart
  rw [(h.nodes idx).size]

theorem writeFd (fd : ℤ) {buf buf' : Option (List UInt8)}
    (hlen : buf'.map List.length = buf.map List.length)
    (hbuf : buf' = buf ∨
      ∀ i, MyMisu.openFd s fd = some i → ∀ j, ¬ known (s.fdTable i).node j) :
    SameOutcome known (fsWriteFd s fd buf) (fsWriteFd t fd buf') := by
  unfold fsWriteFd
  rw [h.openFd]
  cases hopen : MyMisu.openFd s fd with
  | none => exact h.same _
  | some i =>
    cases buf with
    | none =>
      rw [Option.map_none, Option.map_eq_none_iff] at hlen
      rw [hlen]
      exact h.same _
    | some b =>
      have ⟨b', hb', hlen⟩ := Option.map_eq_some_iff.mp hlen
      rw [hb'] at hbuf ⊢
      have hn := h.nodes (s.fdTable i).node
      simp only
      rw [h.fdTable, h.writeStart, hn.size, hlen]
      generalize hf : (s.fdTable i).writeStart (s.nodes (s.fdTable i).node) = f
      have hnode : f.node = (s.fdTable i).node := by rw [← hf, FsFd.writeStart_node]
      split
      · exact h.same _
      · split
        · exact ⟨rfl, h.setFd i f⟩
        · refine ⟨rfl, ((h.setFd i f).setFd i _).setNode ?_⟩
          rw [hnode]
          refine ⟨hn.name, hn.type, rfl, hn.parent, hn.inUse, hn.createdTick, ?_⟩
          intro j hj
          rcases hbuf with heq | hnone
          -- two buffers may differ only where the node's bytes are not compared
          · rw [Option.some.inj heq]
            exact update_congr (memcpyAt_congr (hn.data j hj) _ _) _ 0
          · exact absurd hj (hnone i hopen j)

theorem lseek (fd offset whence : ℤ) :
    SameOutcome known (fsLseek s fd offset whence) (fsLseek t fd offset whence) := by
  unfold fsLseek
  rw [h.openFd]
  cases MyMisu.openFd s fd with
  | none => exact h.same _
  | some i =>
    simp only
    rw [h.fdTable, (h.nodes (s.fdTable i).node).size]
    split
    · exact h.same _
    · split
      · exact h.same _
      · split
        · exact h.same _
        · exact ⟨rfl, h.setFd i _⟩

/-- The same call keeps two runs in agreement. -/
theorem exec (op : FsOp) : (fsExec s op).Agrees known (fsExec t op) := by
  cases op with
  | mkdir tick name => exact (h.mkdir tick name).2
  | createFile tick name => exact (h.createFile tick name).2
  | writeFile name buf => exact (h.writeFile name rfl (.inl rfl)).2
  | readFile name maxLen => exact h
  | delete name => exact (h.delete name).2
  | cd name => exact (h.cd name).2
  | «open» tick name flags => exact (h.open tick name flags).2
  | close fd => exact (h.close fd).2
  | readFd fd buf n => exact h.readFd fd buf n
  | writeFd fd buf => exact (h.writeFd fd rfl (.inl rfl)).2
  | lseek fd offset whence => exact (h.lseek fd offset whence).2
  | stat name out => exact h
  | unlink name => exact (h.unlink name).2
  | rmdir name => exact (h.rmdir name).2

end FsState.Agrees

end MyMisu
