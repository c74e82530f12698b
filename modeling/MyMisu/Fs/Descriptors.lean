import MyMisu.Fs.TreeInvariant
import MyMisu.Lib.Replies

/-!
# Open descriptors

A descriptor holds the index of its node, and the calls that free a node do not look at the
descriptors.  Runs carry a history here: when each file was created and what each `fs_open`
resolved its name to.  While no call frees the file of an open descriptor, every descriptor stays
bound to that file; the first call that does breaks it.
-/

namespace MyMisu

/-- The tables with a history: `born` is the call that created the file in a slot, and `opened` the
node that the `fs_open` of a descriptor resolved, with the number of that call. -/
structure FsHist where
  fs : FsState
  clock : ℕ
  born : NodeIdx → ℕ
  opened : FdIdx → Option (NodeIdx × ℕ)

namespace FsHist

def start (fs : FsState) : FsHist where
  fs := fs
  clock := 0
  born _ := 0
  opened _ := none

def exec (h : FsHist) (op : FsOp) : FsHist where
  fs := fsExec h.fs op
  clock := h.clock + 1
  born i :=
    if (h.fs.nodes i).inUse = false ∧ ((fsExec h.fs op).nodes i).inUse = true then h.clock + 1
    else h.born i
  opened fd :=
    match op with
    | .open _ (some name) _ =>
      if (fsCall h.fs op).1.code = (fd : ℕ) then
        (findNode (fsExec h.fs op) name).map fun i => (i, h.clock + 1)
      else h.opened fd
    | _ => h.opened fd

end FsHist

def fsHistSystem : TransitionSystem FsHist FsOp :=
  .ofFun (fun h => ∃ tick, h = FsHist.start (fsInit tick)) FsHist.exec

/-- The descriptor is bound to the file `i` that its `fs_open`, call number `t`, resolved. -/
structure BoundTo (h : FsHist) (fd : FdIdx) (i : NodeIdx) (t : ℕ) : Prop where
  resolved : h.opened fd = some (i, t)
  node : (h.fs.fdTable fd).nodeIdx = some i
  used : h.fs.used i
  file : (h.fs.nodes i).type = .file
  older : h.born i ≤ t
  reads : ∀ buf n, ∃ off len,
    (fsReadFd h.fs (fd : ℕ) buf n).2.1 = bytesAt (h.fs.nodes i).data off len
  writes : ∀ buf j, t < h.born j → (fsWriteFd h.fs (fd : ℕ) buf).2.nodes j = h.fs.nodes j

def DescriptorsBound (h : FsHist) : Prop :=
  ∀ fd, (h.fs.fdTable fd).inUse = true → ∃ i t, BoundTo h fd i t

/-- The node a removing call takes the name from, when that is a file. -/
def FsOp.unlinks (s : FsState) : FsOp → Option NodeIdx
  | .delete name | .unlink name => findNode s name
  | _ => none

/-- The call removes no file that a descriptor is open on. -/
def SparesOpenFiles (h : FsHist) (op : FsOp) : Prop :=
  ∀ fd i, (h.fs.fdTable fd).inUse = true → (h.fs.fdTable fd).nodeIdx = some i →
    (h.fs.nodes i).type = .file → op.unlinks h.fs ≠ some i

instance (h : FsHist) (op : FsOp) : Decidable (SparesOpenFiles h op) :=
  inferInstanceAs (Decidable (∀ _ _, _ → _ → _ → _))

/-! ## What a call does to one file -/

theorem FsUpdate.keeps_file {s s' : FsState} (hc : FsUpdate s s') {i : NodeIdx}
    (h : s.used i ∧ (s.nodes i).type = .file) : s'.used i ∧ (s'.nodes i).type = .file := by
  cases hc with
  | @create type clear tick name idx _ _ _ _ hfree =>
    have hi : i ≠ idx := by
      intro he
      have := (findFreeNode_some hfree).2
      rw [← he, h.1] at this
      cases this
    rw [FsState.used, create_ne _ _ _ _ _ _ hi]
    exact h
  | @store idx =>
    by_cases hi : i = idx
    · subst hi
      rw [FsState.used, FsState.setNode_self]
      exact h
    · rw [FsState.used, FsState.setNode_ne _ _ hi]
      exact h
  | chdir _ => exact h
  | descriptor _ _ => exact h

theorem fsExec_keeps_file {s : FsState} {op : FsOp} {i : NodeIdx} (hu : s.used i)
    (ht : (s.nodes i).type = .file) (hno : op.unlinks s ≠ some i) :
    (fsExec s op).used i ∧ ((fsExec s op).nodes i).type = .file := by
  rcases fsExec_cases s op with ⟨-, hs⟩ | ⟨name, hr, ⟨e, hs⟩ | ⟨hcode, hs⟩⟩
  · exact hs.invariant (fun _ _ hc h => hc.keeps_file h) ⟨hu, ht⟩
  · rw [show fsExec s op = s from (Prod.ext_iff.mp hs).2]
    exact ⟨hu, ht⟩
  · have ⟨idx, hf, hroot, _, hs'⟩ := hs.spec
    have hi : i ≠ idx := by
      intro he
      subst he
      cases op with
      | delete n => cases Option.some.inj hr; exact hno hf
      | unlink n => cases Option.some.inj hr; exact hno hf
      -- `fs_rmdir` refuses a file
      | rmdir n =>
        cases Option.some.inj hr
        have hcode : (fsRmdir s name).1 = 0 := hcode
        unfold fsRmdir at hcode
        rw [hf] at hcode
        simp only at hcode
        rw [if_neg hroot, if_pos (by rw [ht]; decide)] at hcode
        exact absurd hcode Errno.enotdir.ret_neg.ne
      | _ => cases hr
    rw [show fsExec s op = s.free idx from hs', type_free]
    exact ⟨(used_free s idx i).mpr ⟨hi, hu⟩, ht⟩

theorem fsExec_unlinks {s : FsState} (h : FsTree s) {op : FsOp} {i : NodeIdx}
    (hi : op.unlinks s = some i) (ht : (s.nodes i).type = .file) : ¬ (fsExec s op).used i := by
  have hroot : i ≠ 0 := by
    intro he
    -- the root is a directory
    rw [he, h.rootDir] at ht
    cases ht
  have hfree : ¬ (s.free i).used i := fun hu => ((used_free s i i).mp hu).1 rfl
  cases op with
  | delete name =>
    have hf : findNode s name = some i := hi
    show ¬ (fsDelete s name).2.used i
    unfold fsDelete
    rw [hf]
    simp only
    rw [if_neg hroot, if_neg (by rw [ht]; exact fun h => nomatch h.1)]
    exact hfree
  | unlink name =>
    have hf : findNode s name = some i := hi
    show ¬ (fsUnlink s name).2.used i
    unfold fsUnlink
    rw [hf]
    simp only
    rw [if_neg hroot, if_neg (not_not.mpr ht)]
    exact hfree
  | _ => cases hi

/-! ## What a call does to one descriptor -/

theorem findNode_congr {s s' : FsState} (hnodes : ∀ i, (s'.nodes i).SamePlace (s.nodes i))
    (hcwd : s'.currentDir = s.currentDir) (name : CStr) : findNode s' name = findNode s name := by
  unfold findNode findNodeIn
  rw [hcwd]
  congr 1
  ext i
  rw [(hnodes i).1, (hnodes i).2.1, (hnodes i).2.2.1]

theorem openTrunc_samePlace (s : FsState) (idx : NodeIdx) (flags : ℕ) (i : NodeIdx) :
    ((openTrunc s idx flags).nodes i).SamePlace (s.nodes i) := by
  unfold openTrunc
  split
  · by_cases hi : i = idx
    · subst hi
      rw [FsState.setNode_self]
      exact ⟨rfl, rfl, rfl, rfl⟩
    · rw [FsState.setNode_ne _ _ hi]
      exact ⟨rfl, rfl, rfl, rfl⟩
  · exact ⟨rfl, rfl, rfl, rfl⟩

theorem createEntry_fdTable (type : NodeType) (clear : (ℕ → UInt8) → ℕ → UInt8) (s : FsState)
    (tick : ℕ) (name : Option CStr) : (createEntry type clear s tick name).2.fdTable = s.fdTable := by
  rcases createEntry_cases type clear s tick name with ⟨e, h, -⟩ | ⟨n, idx, -, -, -, -, -, h⟩
  · rw [h]
  · rw [h]
    rfl

theorem fsWriteFile_fdTable (s : FsState) (name : CStr) (buf : List UInt8) :
    (fsWriteFile s name buf).2.fdTable = s.fdTable := by
  rcases fsWriteFile_cases s name buf with ⟨e, h⟩ | ⟨idx, -, -, h⟩
  · rw [h]
  · rw [h]
    rfl

theorem fsCd_fdTable (s : FsState) (name : CStr) : (fsCd s name).2.fdTable = s.fdTable := by
  unfold fsCd
  split_ifs
  · split <;> rfl
  · rfl
  · cases findNode s name with
    | none => rfl
    | some idx => simp only; split <;> rfl

theorem RemoveCases.fdTable {s : FsState} {name : CStr} {r : ℤ × FsState}
    (h : RemoveCases s name r) : r.2.fdTable = s.fdTable := by
  rcases h with ⟨e, rfl⟩ | ⟨-, hr⟩
  · rfl
  · have ⟨idx, _, _, _, hr'⟩ := hr.spec
    rw [hr']
    rfl

theorem fsInit_fdTable (tick : ℕ) : (fsInit tick).fdTable = fsEmpty.fdTable := by
  unfold fsInit fsMkdir fsCreateFile
  simp only [createEntry_fdTable, fsWriteFile_fdTable]

/-- The calls that neither open nor close a descriptor leave its node alone. -/
def FsOp.keepsDescriptors : FsOp → Prop
  | .open .. | .close _ => False
  | _ => True

theorem keeps_fd_of_eq {s s' : FsState} (htable : s'.fdTable = s.fdTable) (fd : FdIdx) :
    (s'.fdTable fd).inUse = (s.fdTable fd).inUse ∧ (s'.fdTable fd).nodeIdx = (s.fdTable fd).nodeIdx := by
  rw [htable]
  exact ⟨rfl, rfl⟩

/-- Reads, writes and seeks store a descriptor with the same node. -/
theorem setFd_keeps_fd (fd : FdIdx) (s s' : FsState) (i : FdIdx) (f : FsFd) (htable : s'.fdTable = s.fdTable)
    (huse : f.inUse = (s.fdTable i).inUse) (hnode : f.nodeIdx = (s.fdTable i).nodeIdx) :
    ((s'.setFd i f).fdTable fd).inUse = (s.fdTable fd).inUse ∧
      ((s'.setFd i f).fdTable fd).nodeIdx = (s.fdTable fd).nodeIdx := by
  by_cases hfd : fd = i
  · rw [hfd, FsState.setFd_self]
    exact ⟨huse, hnode⟩
  · rw [FsState.setFd_ne _ _ hfd]
    exact keeps_fd_of_eq htable fd

theorem fsExec_keeps_fd (s : FsState) {op : FsOp} (hop : op.keepsDescriptors) (fd : FdIdx) :
    ((fsExec s op).fdTable fd).inUse = (s.fdTable fd).inUse ∧
      ((fsExec s op).fdTable fd).nodeIdx = (s.fdTable fd).nodeIdx := by
  cases op with
  | mkdir tick name => exact keeps_fd_of_eq (createEntry_fdTable .dir id s tick name) fd
  | createFile tick name =>
    exact keeps_fd_of_eq (createEntry_fdTable .file (Function.update · 0 0) s tick name) fd
  | writeFile name buf => exact keeps_fd_of_eq (fsWriteFile_fdTable s name buf) fd
  | readFile name maxLen => exact ⟨rfl, rfl⟩
  | delete name => exact keeps_fd_of_eq (fsDelete_cases s name).fdTable fd
  | cd name => exact keeps_fd_of_eq (fsCd_fdTable s name) fd
  | «open» tick name flags => cases hop
  | close fd => cases hop
  | readFd fd' buf n =>
    show ((fsReadFd s fd' buf n).2.2.fdTable fd).inUse = _ ∧
      ((fsReadFd s fd' buf n).2.2.fdTable fd).nodeIdx = _
    rcases fsReadFd_cases s fd' buf n with ⟨code, h⟩ | ⟨i, f, node, len, -, hf, -, -, -, h⟩
    · rw [h]; exact ⟨rfl, rfl⟩
    · rw [h, hf]; exact setFd_keeps_fd fd s s i _ rfl rfl rfl
  | writeFd fd' buf =>
    show ((fsWriteFd s fd' buf).2.fdTable fd).inUse = _ ∧
      ((fsWriteFd s fd' buf).2.fdTable fd).nodeIdx = _
    rcases fsWriteFd_cases s fd' buf with ⟨e, h⟩ | ⟨i, b, f, node, -, -, -, hf, -, ⟨-, h⟩ | ⟨-, h⟩⟩
    · rw [h]; exact ⟨rfl, rfl⟩
    · rw [h, hf]
      exact setFd_keeps_fd fd s _ i _ rfl (FsFd.writeStart_inUse ..) (FsFd.writeStart_nodeIdx ..)
    · rw [h, hf]
      exact setFd_keeps_fd fd s _ i _ rfl (FsFd.writeStart_inUse ..) (FsFd.writeStart_nodeIdx ..)
  | lseek fd' offset whence =>
    show ((fsLseek s fd' offset whence).2.fdTable fd).inUse = _ ∧
      ((fsLseek s fd' offset whence).2.fdTable fd).nodeIdx = _
    rcases fsLseek_cases s fd' offset whence with ⟨e, h⟩ | ⟨i, off, -, -, h⟩
    · rw [h]; exact ⟨rfl, rfl⟩
    · rw [h]; exact setFd_keeps_fd fd s s i _ rfl rfl rfl
  | stat name out => exact ⟨rfl, rfl⟩
  | unlink name => exact keeps_fd_of_eq (fsUnlink_cases s name).fdTable fd
  | rmdir name => exact keeps_fd_of_eq (fsRmdir_cases s name).fdTable fd

/-- `fs_open` fails, or binds a free descriptor to the file its name leads to; every other
descriptor stays as it is. -/
def OpensFd (s : FsState) (name : Option CStr) (r : ℤ × FsState) : Prop :=
  (r.1 < 0 ∧ r.2.fdTable = s.fdTable) ∨
    ∃ n fd i, name = some n ∧ (s.fdTable fd).inUse = false ∧ r.1 = ((fd : ℕ) : ℤ) ∧
      findNode r.2 n = some i ∧ (r.2.nodes i).type = .file ∧
      ∃ f : FsFd, f.nodeIdx = some i ∧ r.2.fdTable = Function.update s.fdTable fd f

theorem openNode_opensFd {s t : FsState} {n : CStr} {idx : NodeIdx} (hf : findNode t n = some idx)
    (htable : t.fdTable = s.fdTable) (flags : ℕ) : OpensFd s (some n) (openNode t idx flags) := by
  rcases openNode_cases t idx flags with ⟨-, h⟩ | ⟨-, -, h⟩ | ⟨fd, ht, hfd, h⟩
  · rw [h]
    exact .inl ⟨Errno.eisdir.ret_neg, htable⟩
  · rw [h]
    exact .inl ⟨Errno.emfile.ret_neg, by rw [openTrunc_fdTable, htable]⟩
  · rw [h]
    refine .inr ⟨n, fd, idx, rfl, htable ▸ findFreeFd_some hfd, rfl, ?_, ?_,
      newFd (openTrunc t idx flags) idx flags, rfl, ?_⟩
    · rw [← hf]
      exact findNode_congr (openTrunc_samePlace t idx flags) (openTrunc_currentDir ..) n
    · exact (openTrunc_samePlace t idx flags idx).2.2.2.trans ht
    · show Function.update (openTrunc t idx flags).fdTable fd _ = _
      rw [openTrunc_fdTable, htable]

theorem fsOpen_opensFd (s : FsState) (tick : ℕ) (name : Option CStr) (flags : ℕ) :
    OpensFd s name (fsOpen s tick name flags) := by
  rcases fsOpen_cases s tick name flags with ⟨e, h, -⟩ | ⟨n, idx, hn, -, hf, h⟩ |
    ⟨n, idx, s', hn, -, -, -, -, -, hs', hf, h⟩
  · rw [h]
    exact .inl ⟨e.ret_neg, rfl⟩
  · rw [h, hn]
    exact openNode_opensFd hf rfl flags
  · rw [h, hn]
    exact openNode_opensFd hf (by rw [hs']; rfl) flags

/-! ## Runs -/

structure DescriptorInv (h : FsHist) : Prop where
  tree : FsTree h.fs
  born_le : ∀ i, h.born i ≤ h.clock
  bound : ∀ fd, (h.fs.fdTable fd).inUse = true → ∃ i t, h.opened fd = some (i, t) ∧
    (h.fs.fdTable fd).nodeIdx = some i ∧ h.fs.used i ∧ (h.fs.nodes i).type = .file ∧ h.born i ≤ t

namespace DescriptorInv

theorem start {s : FsState} (htree : FsTree s) (htable : ∀ fd, (s.fdTable fd).inUse = false) :
    DescriptorInv (FsHist.start s) := by
  refine ⟨htree, fun _ => le_rfl, fun fd hu => ?_⟩
  have hu : (s.fdTable fd).inUse = true := hu
  rw [htable] at hu
  cases hu

theorem born_exec {h : FsHist} {i : NodeIdx} (hu : h.fs.used i) (op : FsOp) :
    (h.exec op).born i = h.born i := by
  show (if _ then _ else _) = _
  rw [if_neg]
  intro hnew
  rw [hu] at hnew
  cases hnew.1

theorem born_exec_le {h : FsHist} (hi : DescriptorInv h) (op : FsOp) (i : NodeIdx) :
    (h.exec op).born i ≤ h.clock + 1 := by
  have hle := hi.born_le i
  show (if _ then h.clock + 1 else h.born i) ≤ h.clock + 1
  split
  · exact le_rfl
  · omega

theorem opened_exec (h : FsHist) {op : FsOp} (hop : op.keepsDescriptors) (fd : FdIdx) :
    (h.exec op).opened fd = h.opened fd := by
  cases op with
  | «open» tick name flags => cases hop
  | _ => rfl

theorem keep {h : FsHist} (hi : DescriptorInv h) {op : FsOp} (hop : SparesOpenFiles h op)
    {fd : FdIdx} (hu : (h.fs.fdTable fd).inUse = true)
    (hnode : ((fsExec h.fs op).fdTable fd).nodeIdx = (h.fs.fdTable fd).nodeIdx)
    (hopened : (h.exec op).opened fd = h.opened fd) :
    ∃ i t, (h.exec op).opened fd = some (i, t) ∧ ((h.exec op).fs.fdTable fd).nodeIdx = some i ∧
      (h.exec op).fs.used i ∧ ((h.exec op).fs.nodes i).type = .file ∧ (h.exec op).born i ≤ t := by
  have ⟨i, t, hres, hn, hused, hfile, hborn⟩ := hi.bound fd hu
  have ⟨hused', hfile'⟩ := fsExec_keeps_file hused hfile (hop fd i hu hn hfile)
  exact ⟨i, t, hopened.trans hres, hnode.trans hn, hused', hfile', by rwa [born_exec hused]⟩

/-- `fs_open` binds the descriptor it returns to what its name leads to now. -/
theorem bound_open {h : FsHist} (hi : DescriptorInv h) {tick : ℕ} {name : Option CStr} {flags : ℕ}
    (hop : SparesOpenFiles h (.open tick name flags)) {fd : FdIdx}
    (hu : ((fsOpen h.fs tick name flags).2.fdTable fd).inUse = true) :
    ∃ i t, (h.exec (.open tick name flags)).opened fd = some (i, t) ∧
      ((fsOpen h.fs tick name flags).2.fdTable fd).nodeIdx = some i ∧
      (fsOpen h.fs tick name flags).2.used i ∧
      ((fsOpen h.fs tick name flags).2.nodes i).type = .file ∧
      (h.exec (.open tick name flags)).born i ≤ t := by
  rcases fsOpen_opensFd h.fs tick name flags with ⟨hneg, htable⟩ |
    ⟨n, fd', i, rfl, hfree, hcode, hfound, hfile, f, hf, htable⟩
  · rw [htable] at hu
    apply hi.keep hop hu (by show ((fsOpen _ _ _ _).2.fdTable fd).nodeIdx = _; rw [htable])
    cases name with
    | none => rfl
    | some n =>
      show (if (fsOpen h.fs tick (some n) flags).1 = ((fd : ℕ) : ℤ) then _ else _) = _
      rw [if_neg (by omega)]
  · by_cases hfd : fd = fd'
    · subst hfd
      refine ⟨i, h.clock + 1, ?_, ?_, (findNodeIn_some hfound).1, hfile, ?_⟩
      · show (if (fsOpen h.fs tick (some n) flags).1 = ((fd : ℕ) : ℤ) then
          (findNode (fsOpen h.fs tick (some n) flags).2 n).map _ else _) = _
        rw [if_pos hcode, hfound]
        rfl
      · rw [htable, Function.update_self, hf]
      · exact hi.born_exec_le _ i
    · -- the others keep their files: the code is not theirs
      rw [htable, Function.update_of_ne hfd] at hu
      apply hi.keep hop hu
      · show ((fsOpen h.fs tick (some n) flags).2.fdTable fd).nodeIdx = _
        rw [htable, Function.update_of_ne hfd]
      · show (if (fsOpen h.fs tick (some n) flags).1 = ((fd : ℕ) : ℤ) then _ else _) = _
        have hne : (fd : ℕ) ≠ (fd' : ℕ) := fun he => hfd (Fin.ext he)
        rw [if_neg (by omega)]

theorem bound_close {h : FsHist} (hi : DescriptorInv h) {fd' : ℤ}
    (hop : SparesOpenFiles h (.close fd')) {fd : FdIdx}
    (hu : ((fsClose h.fs fd').2.fdTable fd).inUse = true) :
    ∃ i t, (h.exec (.close fd')).opened fd = some (i, t) ∧
      ((fsClose h.fs fd').2.fdTable fd).nodeIdx = some i ∧ (fsClose h.fs fd').2.used i ∧
      ((fsClose h.fs fd').2.nodes i).type = .file ∧ (h.exec (.close fd')).born i ≤ t := by
  rcases fsClose_cases h.fs fd' with ⟨-, hrun⟩ | ⟨i, -, hrun⟩
  · rw [hrun] at hu
    apply hi.keep hop hu _ rfl
    show ((fsClose h.fs fd').2.fdTable fd).nodeIdx = _
    rw [hrun]
  · have hfd : fd ≠ i := by
      intro he
      -- a descriptor still in use is not the one closed
      rw [hrun, he, FsState.setFd_self] at hu
      cases hu
    rw [hrun, FsState.setFd_ne _ _ hfd] at hu
    apply hi.keep hop hu _ rfl
    show ((fsClose h.fs fd').2.fdTable fd).nodeIdx = _
    rw [hrun, FsState.setFd_ne _ _ hfd]

theorem exec {h : FsHist} (hi : DescriptorInv h) {op : FsOp} (hop : SparesOpenFiles h op) :
    DescriptorInv (h.exec op) := by
  refine ⟨hi.tree.exec op, hi.born_exec_le op, fun fd hu => ?_⟩
  -- only `fs_open` and `fs_close` change what a descriptor is bound to
  by_cases hkeeps : op.keepsDescriptors
  · have ⟨hinUse, hnode⟩ := fsExec_keeps_fd h.fs hkeeps fd
    exact hi.keep hop (hinUse ▸ hu) hnode (opened_exec h hkeeps fd)
  · cases op with
    | «open» tick name flags => exact hi.bound_open hop hu
    | close fd' => exact hi.bound_close hop hu
    | _ => exact absurd trivial hkeeps

theorem descriptorsBound {h : FsHist} (hi : DescriptorInv h) : DescriptorsBound h := by
  intro fd hu
  have ⟨i, t, hres, hn, hused, hfile, hborn⟩ := hi.bound fd hu
  have hnode : (h.fs.fdTable fd).node = i := by rw [FsFd.node, hn]; rfl
  have hopen := openFd_val hu
  refine ⟨i, t, hres, hn, hused, hfile, hborn, fun buf n => ?_, fun buf j hj => ?_⟩
  · rcases fsReadFd_cases h.fs (fd : ℕ) buf n with ⟨code, hrun⟩ |
      ⟨fd', f, node, len, hopen', rfl, rfl, -, -, hrun⟩
    · exact ⟨0, 0, by rw [hrun]; rfl⟩
    · rw [hopen] at hopen'
      cases Option.some.inj hopen'
      rw [hrun, hnode]
      exact ⟨_, _, rfl⟩
  · have hji : j ≠ i := by
      intro he
      -- the write stores the node of the descriptor, which is older than its `fs_open`
      rw [he] at hj
      omega
    rcases fsWriteFd_cases h.fs (fd : ℕ) buf with ⟨e, hrun⟩ |
      ⟨fd', b, f, node, hopen', -, -, hf, -, ⟨-, hrun⟩ | ⟨-, hrun⟩⟩
    · rw [hrun]
    · rw [hrun]
      rfl
    · rw [hopen] at hopen'
      cases Option.some.inj hopen'
      have hfn : f.node = i := by rw [hf, FsFd.writeStart_node, hnode]
      rw [hrun, hfn, FsState.setNode_ne _ _ hji]
      rfl

theorem reach {h : FsHist} (hr : fsHistSystem.Reach SparesOpenFiles h) : DescriptorInv h := by
  refine hr.invariant ?_ ?_
  · intro h hs
    have ⟨tick, hs⟩ : ∃ tick, h = FsHist.start (fsInit tick) := hs
    have htree : FsTree (fsInit tick) := FsTree.reachable (.init ⟨tick, rfl⟩)
    rw [hs]
    exact start htree fun fd => by rw [fsInit_fdTable]; rfl
  · intro h op h' _ hi hop hstep
    rw [hstep]
    exact hi.exec hop

theorem not_bound_of_unlink {h : FsHist} (hi : DescriptorInv h) {op : FsOp}
    (hop : ¬ SparesOpenFiles h op) : ¬ DescriptorsBound (h.exec op) := by
  unfold SparesOpenFiles at hop
  push Not at hop
  have ⟨fd, i, hu, hn, hfile, hunlinks⟩ := hop
  intro hbound
  have hkeeps : op.keepsDescriptors := by
    cases op with
    | «open» => cases hunlinks
    | close => cases hunlinks
    | _ => trivial
  have ⟨hu', hn'⟩ := fsExec_keeps_fd h.fs hkeeps fd
  have ⟨i', t, hb⟩ := hbound fd (hu'.trans hu)
  have hii : i' = i := Option.some.inj (hb.node.symm.trans (hn'.trans hn))
  apply fsExec_unlinks hi.tree hunlinks hfile
  rw [← hii]
  exact hb.used

end DescriptorInv

/-- In a run that removes no open file every descriptor is bound to its file, and the first call that
removes one ends that. -/
theorem descriptors_bound_while_files_kept (h : FsHist)
    (hr : fsHistSystem.Reach SparesOpenFiles h) :
    DescriptorsBound h ∧ ∀ op, DescriptorsBound (h.exec op) ↔ SparesOpenFiles h op := by
  have hi := DescriptorInv.reach hr
  refine ⟨hi.descriptorsBound, fun op => ⟨fun hbound => ?_, fun hop => ?_⟩⟩
  · by_contra hop
    exact hi.not_bound_of_unlink hop hbound
  · exact (hi.exec hop).descriptorsBound

/-- `a` stays open while `readme.txt` is removed. -/
def keptRun : List FsOp :=
  [.open 0 (some (.ofString "a")) (oCreat ||| oRdwr), .writeFd 0 (some [1]), .unlink (.ofString "readme.txt")]

theorem descriptors_bound_kept :
    let h := keptRun.foldl FsHist.exec (FsHist.start (fsInit 0))
    (h.fs.fdTable 0).inUse = true ∧ DescriptorsBound h ∧
      ∀ op, DescriptorsBound (h.exec op) ↔ SparesOpenFiles h op := by
  have hstart : fsHistSystem.Reach SparesOpenFiles (FsHist.start (fsInit 0)) := .init ⟨0, rfl⟩
  have hspares : Replies.Allowed SparesOpenFiles (fun h op => ((), FsHist.exec h op))
      (FsHist.start (fsInit 0)) keptRun := by
    decide +kernel
  have hreach := Replies.reach_foldl hstart hspares
  exact ⟨by decide +kernel, descriptors_bound_while_files_kept _ hreach⟩

/-- Open `a`, unlink it, create `b`. -/
def reuseRun : List FsOp :=
  [.open 0 (some (.ofString "a")) (oCreat ||| oRdwr), .unlink (.ofString "a"),
    .createFile 0 (some (.ofString "b"))]

/-- The descriptor of the unlinked `a` writes into `b`, which was created after its `fs_open`. -/
theorem unlinked_descriptor_writes_new_file :
    ¬ ∀ h, fsHistSystem.Reachable h → DescriptorsBound h := by
  intro hall
  have hstart : fsHistSystem.Reachable (FsHist.start (fsInit 0)) := .init ⟨0, rfl⟩
  have ⟨i, t, hb⟩ := hall _ (hstart.foldl reuseRun) 0 (by decide +kernel)
  have hres : (reuseRun.foldl FsHist.exec (FsHist.start (fsInit 0))).opened 0 = some (8, 1) := by
    decide +kernel
  have hb' := Option.some.inj (hb.resolved.symm.trans hres)
  have ht : t = 1 := congrArg Prod.snd hb'
  have hwrite := hb.writes (some [1]) 8 (by rw [ht]; decide +kernel)
  have hsize := congrArg FsNode.size hwrite
  revert hsize
  decide +kernel

end MyMisu
