import MyMisu.Fs.Append

/-!
# What reads return

A read through a descriptor returns the bytes from its offset on and moves the offset behind them.
What was just written is read back after a seek to where it went, and a file that is read in chunks
of any sizes gives the bytes `fs_read_file` copies at once.
-/

namespace MyMisu

section Reading

variable {s : FsState} {fd : FdIdx} {i : NodeIdx}

/-- A read through a descriptor open for reading; behind the end nothing is copied. -/
theorem fsReadFd_open (hu : (s.fdTable fd).inUse = true) (hnode : (s.fdTable fd).nodeIdx = some i)
    (hread : (s.fdTable fd).flags &&& 0x3 ≠ oWronly) (n : ℕ) :
    fsReadFd s (fd : ℕ) true n =
      let off := (s.fdTable fd).offset
      let len := min n ((s.nodes i).size - off)
      ((len : ℤ), bytesAt (s.nodes i).data off len,
        s.setFd fd { s.fdTable fd with offset := off + len }) := by
  have hi : (s.fdTable fd).node = i := by rw [FsFd.node, hnode, Option.getD_some]
  unfold fsReadFd
  rw [openFd_val hu]
  simp only [Bool.true_eq_false, if_false, if_neg hread, hi]
  by_cases hend : (s.fdTable fd).offset ≥ (s.nodes i).size
  · have hsame : s.setFd fd (s.fdTable fd) = s := by
      unfold FsState.setFd
      rw [Function.update_eq_self]
    rw [if_pos hend, Nat.sub_eq_zero_of_le hend, Nat.min_zero, Nat.add_zero, hsame]
    rfl
  · rw [if_neg hend, ← min_def_lt]

theorem fsLseek_set (hu : (s.fdTable fd).inUse = true) {off : ℕ} (hoff : off < fsMaxData) :
    fsLseek s (fd : ℕ) off seekSet = ((off : ℤ), s.setFd fd { s.fdTable fd with offset := off }) := by
  have hnonneg : ¬ (off : ℤ) < 0 := by omega
  have hsmall : ¬ (off : ℤ) > (fsMaxData : ℤ) - 1 := by
    simp only [fsMaxData] at hoff ⊢
    omega
  unfold fsLseek
  rw [openFd_val hu]
  simp only [if_true, if_neg hnonneg, if_neg hsmall, Int.toNat_natCast]

end Reading

/-! ## Write, seek, read -/

/-- `k` bytes were written to node `i` from offset `o` on through `fd`, and nothing else changed. -/
structure WroteAt (s t : FsState) (fd : FdIdx) (i : NodeIdx) (o k : ℕ) : Prop where
  size : (t.nodes i).size = max (s.nodes i).size (o + k)
  kept : ∀ j, j < (s.nodes i).size → j < o ∨ o + k ≤ j → (t.nodes i).data j = (s.nodes i).data j
  nodes : ∀ i', i' ≠ i → t.nodes i' = s.nodes i'
  fds : ∀ fd', fd' ≠ fd → t.fdTable fd' = s.fdTable fd'

theorem WroteAt.setFd {s t : FsState} {fd : FdIdx} {i : NodeIdx} {o k : ℕ}
    (h : WroteAt s t fd i o k) (f : FsFd) : WroteAt s (t.setFd fd f) fd i o k where
  size := h.size
  kept := h.kept
  nodes := h.nodes
  fds fd' hfd := by rw [FsState.setFd_ne _ _ hfd, h.fds fd' hfd]

section RoundTrip

variable {s : FsState} {fd : FdIdx} {i : NodeIdx}

/-- A write without `O_APPEND` that was not refused. -/
theorem fsWriteFd_at (hu : (s.fdTable fd).inUse = true) (hnode : (s.fdTable fd).nodeIdx = some i)
    (happ : hasFlag (s.fdTable fd).flags oAppend = false) {buf : List UInt8}
    (hk : 0 < (fsWriteFd s (fd : ℕ) (some buf)).1) :
    (s.fdTable fd).offset < fsMaxData - 1 ∧ fsWriteFd s (fd : ℕ) (some buf) =
      let off := (s.fdTable fd).offset
      let len := min buf.length (fsMaxData - 1 - off)
      ((len : ℤ), (s.setFd fd { s.fdTable fd with offset := off + len }).setNode i
        ((s.nodes i).written off buf len)) := by
  have hi : (s.fdTable fd).node = i := by rw [FsFd.node, hnode, Option.getD_some]
  have hstart : (s.fdTable fd).writeStart (s.nodes i) = s.fdTable fd := by
    rw [FsFd.writeStart, happ]
    rfl
  rcases fsWriteFd_cases s (fd : ℕ) (some buf) with
    ⟨e, h⟩ | ⟨j, b, f, node, hopen, hb, hn, hf, -, hcase⟩
  · rw [h] at hk
    exact absurd hk (not_lt.mpr (le_of_lt e.ret_neg))
  · rcases Option.some.inj ((openFd_val hu).symm.trans hopen)
    rcases Option.some.inj hb
    rw [hi] at hn
    rw [hn, hstart] at hf
    subst hf hn
    rcases hcase with ⟨-, h⟩ | ⟨hroom, h⟩
    · rw [h] at hk
      exact absurd hk (not_lt.mpr (le_of_lt Errno.enospc.ret_neg))
    · rw [h, FsFd.room, hi]
      exact ⟨hroom, rfl⟩

theorem wroteAt_written (off : ℕ) {buf : List UInt8} {len : ℕ} (hlen : len ≤ buf.length) (f : FsFd) :
    WroteAt s ((s.setFd fd f).setNode i ((s.nodes i).written off buf len)) fd i off len := by
  constructor
  · rw [FsState.setNode_self]
    rfl
  · intro j hj hout
    rw [FsState.setNode_self]
    exact FsNode.written_outside hlen hj hout
  · intro i' hi'
    rw [FsState.setNode_ne _ _ hi', FsState.setFd_nodes]
  · intro fd' hfd'
    rw [FsState.setNode_fdTable, FsState.setFd_ne _ _ hfd']

end RoundTrip

/-- The bytes a write stored come back from a read at the offset they were written at, and the
three calls leave everything else as it was. -/
theorem write_seek_read (s : FsState) (h : fsSystem.Reachable s) (fd : FdIdx)
    (hu : (s.fdTable fd).inUse = true) (hread : (s.fdTable fd).flags &&& 0x3 ≠ oWronly)
    (happ : hasFlag (s.fdTable fd).flags oAppend = false) (buf : List UInt8)
    (hk : 0 < (fsWriteFd s (fd : ℕ) (some buf)).1) :
    ∃ i, (s.fdTable fd).nodeIdx = some i ∧
      let o := (s.fdTable fd).offset
      let k := min buf.length (4095 - o)
      let w := fsWriteFd s (fd : ℕ) (some buf)
      let seek := fsLseek w.2 (fd : ℕ) o seekSet
      let r := fsReadFd seek.2 (fd : ℕ) true k
      w.1 = k ∧ seek.1 = o ∧ r.1 = k ∧ r.2.1 = buf.take k ∧
        WroteAt s w.2 fd i o k ∧ WroteAt s r.2.2 fd i o k := by
  have ⟨hoff, i, hnode, _⟩ := FdBounds.reachable h fd hu
  have ⟨hroom, hw⟩ := fsWriteFd_at hu hnode happ hk
  refine ⟨i, hnode, ?_⟩
  simp only [hw]
  generalize ho : (s.fdTable fd).offset = o at hoff hroom ⊢
  generalize hlen : min buf.length (4095 - o) = k
  have hle : k ≤ buf.length := by omega
  have hwrote := @wroteAt_written s fd i o buf k hle { s.fdTable fd with offset := o + k }
  generalize hs1 : (s.setFd fd { s.fdTable fd with offset := o + k }).setNode i
    ((s.nodes i).written o buf k) = s1 at hwrote ⊢
  have hfd1 : s1.fdTable fd = { s.fdTable fd with offset := o + k } := by
    rw [← hs1, FsState.setNode_fdTable, FsState.setFd_self]
  have hnode1 : s1.nodes i = (s.nodes i).written o buf k := by
    rw [← hs1, FsState.setNode_self]
  rw [fsLseek_set (by rw [hfd1]; exact hu) hoff]
  have hfd2 : (s1.setFd fd { s1.fdTable fd with offset := o }).fdTable fd =
      { s.fdTable fd with offset := o } := by
    rw [FsState.setFd_self, hfd1]
  rw [fsReadFd_open (i := i) (by rw [hfd2]; exact hu) (by rw [hfd2]; exact hnode)
    (by rw [hfd2]; exact hread)]
  -- the file reaches behind what was written, so the read is not cut short
  have hcopy : min k (((s.nodes i).written o buf k).size - o) = k := by
    show min k (max (s.nodes i).size (o + k) - o) = k
    omega
  simp only [hfd2, FsState.setFd_nodes, hnode1, hcopy]
  refine ⟨trivial, trivial, trivial, FsNode.bytesAt_written hle, hwrote, (hwrote.setFd _).setFd _⟩

/-- `hostname` open for reading and writing. -/
def hostnameOpen : FsState := fsExec (fsInit 0) (.open 0 (some (.ofString "hostname")) oRdwr)

theorem write_seek_read_hostname :
    ∃ i, (hostnameOpen.fdTable 0).nodeIdx = some i ∧
      let w := fsWriteFd hostnameOpen 0 (some [77, 73])
      let r := fsReadFd (fsLseek w.2 0 0 seekSet).2 0 true 2
      r.2.1 = [77, 73] ∧ WroteAt hostnameOpen r.2.2 0 i 0 2 := by
  have hreach : fsSystem.Reachable hostnameOpen := .next (.init ⟨0, rfl⟩) rfl
  obtain ⟨i, hnode, -, -, -, hread, -, hwrote⟩ := write_seek_read hostnameOpen hreach 0
    (by decide +kernel) (by decide +kernel) (by decide +kernel) [77, 73] (by decide +kernel)
  have hoff : (hostnameOpen.fdTable 0).offset = 0 := by decide +kernel
  have hlen : min [(77 : UInt8), 73].length (4095 - 0) = 2 := by decide
  have hfd : (((0 : FdIdx) : ℕ) : ℤ) = 0 := rfl
  have htake : [(77 : UInt8), 73].take 2 = [77, 73] := rfl
  have hzero : ((0 : ℕ) : ℤ) = 0 := rfl
  rw [hoff, hlen, hfd, hzero] at hread hwrote
  rw [htake] at hread
  exact ⟨i, hnode, hread, hwrote⟩

/-! ## Reading in chunks -/

/-- The tables after the first `m` reads with the given sizes. -/
def afterReads (s : FsState) (fd : ℤ) (sizes : ℕ → ℕ) : ℕ → FsState
  | 0 => s
  | m + 1 => (fsReadFd (afterReads s fd sizes m) fd true (sizes m)).2.2

/-- The result of read `m` and the bytes it copied. -/
def readNth (s : FsState) (fd : ℤ) (sizes : ℕ → ℕ) (m : ℕ) : ℤ × List UInt8 :=
  let r := fsReadFd (afterReads s fd sizes m) fd true (sizes m)
  (r.1, r.2.1)

/-- Some read returns 0, and the ones before it return the given bytes piece by piece. -/
def ReadsOut (s : FsState) (fd : ℤ) (sizes : ℕ → ℕ) (bytes : List UInt8) : Prop :=
  ∃ m, (readNth s fd sizes m).1 = 0 ∧ (∀ j < m, 0 < (readNth s fd sizes j).1) ∧
    (List.range m).flatMap (fun j => (readNth s fd sizes j).2) = bytes

section Chunks

variable {s : FsState} {fd : FdIdx} {i : NodeIdx} {sizes : ℕ → ℕ}

/-- The offset after `m` reads: the sizes added up, cut at the end of the file. -/
def readOffset (size : ℕ) (sizes : ℕ → ℕ) : ℕ → ℕ
  | 0 => 0
  | m + 1 => readOffset size sizes m + min (sizes m) (size - readOffset size sizes m)

theorem readOffset_le (size : ℕ) (sizes : ℕ → ℕ) (m : ℕ) : readOffset size sizes m ≤ size := by
  induction m with
  | zero => exact Nat.zero_le _
  | succ m ih =>
    rw [readOffset]
    omega

/-- Every read before the end moves the offset by one byte at least. -/
theorem readOffset_progress (size : ℕ) (hsizes : ∀ m, 1 ≤ sizes m) (m : ℕ) :
    min m size ≤ readOffset size sizes m := by
  induction m with
  | zero => exact min_le_left ..
  | succ m ih =>
    have hone := hsizes m
    have hle := readOffset_le size sizes m
    rw [readOffset]
    omega

/-- `fd` is open for reading on node `i`, at the start of the file. -/
structure OpenAtStart (s : FsState) (fd : FdIdx) (i : NodeIdx) : Prop where
  inUse : (s.fdTable fd).inUse = true
  node : (s.fdTable fd).nodeIdx = some i
  readable : (s.fdTable fd).flags &&& 0x3 ≠ oWronly
  offset : (s.fdTable fd).offset = 0

theorem OpenAtStart.read (h : OpenAtStart s fd i) (off n : ℕ) :
    fsReadFd (s.setFd fd { s.fdTable fd with offset := off }) (fd : ℕ) true n =
      let len := min n ((s.nodes i).size - off)
      ((len : ℤ), bytesAt (s.nodes i).data off len,
        s.setFd fd { s.fdTable fd with offset := off + len }) := by
  have hfd := s.setFd_self fd { s.fdTable fd with offset := off }
  rw [fsReadFd_open (i := i) (by rw [hfd]; exact h.inUse) (by rw [hfd]; exact h.node)
    (by rw [hfd]; exact h.readable)]
  simp only [hfd, FsState.setFd_nodes, FsState.setFd_setFd]

theorem OpenAtStart.afterReads (h : OpenAtStart s fd i) (sizes : ℕ → ℕ) (m : ℕ) :
    MyMisu.afterReads s (fd : ℕ) sizes m =
      s.setFd fd { s.fdTable fd with offset := readOffset (s.nodes i).size sizes m } := by
  induction m with
  | zero =>
    have hsame : { s.fdTable fd with offset := 0 } = s.fdTable fd := by rw [← h.offset]
    unfold FsState.setFd
    rw [readOffset, hsame, Function.update_eq_self]
    rfl
  | succ m ih => rw [MyMisu.afterReads, ih, h.read, readOffset]

theorem OpenAtStart.readNth (h : OpenAtStart s fd i) (sizes : ℕ → ℕ) (m : ℕ) :
    let off := readOffset (s.nodes i).size sizes m
    MyMisu.readNth s (fd : ℕ) sizes m =
      (((min (sizes m) ((s.nodes i).size - off) : ℕ) : ℤ),
        bytesAt (s.nodes i).data off (min (sizes m) ((s.nodes i).size - off))) := by
  rw [MyMisu.readNth, h.afterReads, h.read]

/-- The chunks of the first reads are the bytes up to the offset. -/
theorem OpenAtStart.chunks (h : OpenAtStart s fd i) (sizes : ℕ → ℕ) (m : ℕ) :
    (List.range m).flatMap (fun j => (MyMisu.readNth s (fd : ℕ) sizes j).2) =
      bytesAt (s.nodes i).data 0 (readOffset (s.nodes i).size sizes m) := by
  induction m with
  | zero => rfl
  | succ m ih =>
    rw [List.range_succ, List.flatMap_append, ih, List.flatMap_singleton, h.readNth, readOffset,
      bytesAt_append, Nat.zero_add]

theorem OpenAtStart.readsOut (h : OpenAtStart s fd i) (hsizes : ∀ m, 1 ≤ sizes m) :
    ReadsOut s (fd : ℕ) sizes (s.nodes i).content := by
  generalize hsize : (s.nodes i).size = size
  have hend : ∃ m, readOffset size sizes m = size := by
    have hle := readOffset_le size sizes size
    have hge := readOffset_progress size hsizes size
    rw [min_self] at hge
    exact ⟨size, by omega⟩
  -- the first read that starts at the end of the file
  refine ⟨Nat.find hend, ?_, ?_, ?_⟩
  · rw [h.readNth, hsize, Nat.find_spec hend, Nat.sub_self, Nat.min_zero]
    rfl
  · intro j hj
    have hlt := lt_of_le_of_ne (readOffset_le size sizes j) (Nat.find_min hend hj)
    have hone := hsizes j
    rw [h.readNth, hsize]
    simp only [Nat.cast_pos]
    omega
  · rw [h.chunks, hsize, Nat.find_spec hend, FsNode.content, hsize]

end Chunks

/-- The chunks read from the start of a file through a new descriptor, and the copies
`fs_read_file` makes of it, are the same bytes. -/
def ReadPathsAgree (s : FsState) (i : NodeIdx) (tick : ℕ) (sizes : ℕ → ℕ) : Prop :=
  let name := (s.nodes i).name.str
  let opened := fsOpen s tick (some name) oRdonly
  ∃ bytes, ReadsOut opened.2 opened.1 sizes bytes ∧
    (∀ maxLen, (s.nodes i).size < maxLen →
      fsReadFile s name maxLen = ((bytes.length : ℤ), bytes ++ [0])) ∧
    ∀ maxLen, 1 ≤ maxLen → fsReadFile s name maxLen =
      (((min (s.nodes i).size (maxLen - 1) : ℕ) : ℤ),
        bytes.take (min (s.nodes i).size (maxLen - 1)) ++ [0])

section Paths

variable {s : FsState} {name : CStr} {i : NodeIdx}

theorem fsOpen_rdonly (hf : findNode s name = some i) (hne : name.bytes ≠ [])
    (hfile : (s.nodes i).type = .file) (tick : ℕ) :
    (findFreeFd s = none ∧ fsOpen s tick (some name) oRdonly = (Errno.emfile.ret, s)) ∨
      ∃ fd, findFreeFd s = some fd ∧ fsOpen s tick (some name) oRdonly =
        (((fd : ℕ) : ℤ), s.setFd fd ⟨some i, 0, oRdonly, true⟩) := by
  have htrunc : openTrunc s i oRdonly = s := if_neg (by decide)
  have hopen : fsOpen s tick (some name) oRdonly = openNode s i oRdonly := by
    unfold fsOpen
    simp only [if_neg hne, hf]
  rw [hopen]
  rcases openNode_cases s i oRdonly with ⟨htype, -⟩ | ⟨-, hfd, h⟩ | ⟨fd, -, hfd, h⟩
  · exact absurd hfile htype
  · rw [htrunc] at h
    exact .inl ⟨hfd, h⟩
  · rw [htrunc] at h
    exact .inr ⟨fd, hfd, h⟩

theorem fsReadFile_file (hf : findNode s name = some i) (hfile : (s.nodes i).type = .file)
    (hsize : (s.nodes i).size < fsMaxData) {maxLen : ℕ} (hpos : 1 ≤ maxLen) :
    fsReadFile s name maxLen =
      (((min (s.nodes i).size (maxLen - 1) : ℕ) : ℤ),
        (s.nodes i).content.take (min (s.nodes i).size (maxLen - 1)) ++ [0]) := by
  simp only [fsMaxData] at hsize
  unfold fsReadFile
  rw [hf]
  simp only
  rw [if_neg (not_not.mpr hfile), readFile_copyLen (by omega) hpos, intOfU32_of_lt (by omega),
    FsNode.content, take_bytesAt, min_eq_left (min_le_left _ _)]

end Paths

/-- With a free descriptor the two read paths agree for every sequence of chunk sizes; without one
`fs_open` fails and changes nothing, and `fs_read_file` still copies the content. -/
theorem read_paths_agree (s : FsState) (h : fsSystem.Reachable s) (i : NodeIdx) (hu : s.used i)
    (hfile : (s.nodes i).type = .file) (hdir : (s.nodes i).parent = some s.currentDir) (tick : ℕ)
    (sizes : ℕ → ℕ) (hsizes : ∀ m, 1 ≤ sizes m) :
    ((∃ fd, (s.fdTable fd).inUse = false) → ReadPathsAgree s i tick sizes) ∧
      ((∀ fd, (s.fdTable fd).inUse = true) →
        fsOpen s tick (some (s.nodes i).name.str) oRdonly = (Errno.emfile.ret, s)) ∧
      ∀ maxLen, 1 ≤ maxLen → fsReadFile s (s.nodes i).name.str maxLen =
        (((min (s.nodes i).size (maxLen - 1) : ℕ) : ℤ),
          (s.nodes i).content.take (min (s.nodes i).size (maxLen - 1)) ++ [0]) := by
  have htree := FsTree.reachable h
  have hsize := (NodeBounds.reachable h).size i
  have hne := (htree.named i hu).1
  have hf : findNode s (s.nodes i).name.str = some i :=
    findNodeIn_eq_some hu rfl hdir fun j hj hpj hnj =>
      htree.siblings j i hj hu (hpj.trans hdir.symm) hnj
  have hread := fun maxLen (hpos : 1 ≤ maxLen) => fsReadFile_file hf hfile hsize hpos
  refine ⟨fun ⟨fd, hfree⟩ => ?_, fun hfull => ?_, hread⟩
  · rcases fsOpen_rdonly hf hne hfile tick with ⟨hnone, -⟩ | ⟨fd', -, hopen⟩
    · have hall := Fin.find?_eq_none_iff.mp hnone fd
      rw [hfree] at hall
      cases hall
    · have hstart : OpenAtStart (s.setFd fd' ⟨some i, 0, oRdonly, true⟩) fd' i := by
        constructor
        · rw [FsState.setFd_self]
        · rw [FsState.setFd_self]
        · rw [FsState.setFd_self]
          show oRdonly &&& 0x3 ≠ oWronly
          decide
        · rw [FsState.setFd_self]
      refine ⟨(s.nodes i).content, ?_, ?_, hread⟩
      · simp only [hopen]
        exact hstart.readsOut hsizes
      · intro maxLen hlong
        rw [hread maxLen (by omega), min_eq_left (by omega), FsNode.content_length,
          List.take_of_length_le (by rw [FsNode.content_length])]
  · rcases fsOpen_rdonly hf hne hfile tick with ⟨-, hopen⟩ | ⟨fd', hfd, -⟩
    · exact hopen
    · have hfree := findFreeFd_some hfd
      rw [hfull fd'] at hfree
      cases hfree

theorem read_paths_agree_hostname : ReadPathsAgree (fsInit 0) 6 0 fun _ => 2 :=
  (read_paths_agree (fsInit 0) (.init ⟨0, rfl⟩) 6 (by decide +kernel) (by decide +kernel)
    (by decide +kernel) 0 (fun _ => 2) (fun _ => by decide)).1 ⟨0, by decide +kernel⟩

/-- All descriptors are open on `hostname`. -/
def tableFull : FsState :=
  (List.replicate 16 (FsOp.open 0 (some (.ofString "hostname")) oRdonly)).foldl fsExec (fsInit 0)

/-- When all descriptors are in use nothing can be read in chunks. -/
theorem full_table_reads_nothing :
    ¬ ∀ s, fsSystem.Reachable s → ∀ i, s.used i → (s.nodes i).type = .file →
      (s.nodes i).parent = some s.currentDir → ∀ tick sizes, (∀ m, 1 ≤ sizes m) →
        ReadPathsAgree s i tick sizes := by
  intro hall
  have hinit : fsSystem.Reachable (fsInit 0) := .init ⟨0, rfl⟩
  have hreach : fsSystem.Reachable tableFull := hinit.foldl _
  obtain ⟨bytes, ⟨m, hzero, -⟩, -⟩ := hall tableFull hreach 6 (by decide +kernel) (by decide +kernel)
    (by decide +kernel) 0 (fun _ => 1) (fun _ => le_rfl)
  have hcode : (fsOpen tableFull 0 (some (tableFull.nodes 6).name.str) oRdonly).1 = -24 := by
    decide +kernel
  -- every read of the descriptor -24 fails
  have hbad : ∀ s, fsReadFd s (-24) true 1 = (Errno.ebadf.ret, [], s) := fun s => rfl
  rw [hcode, readNth, hbad] at hzero
  have hzero : Errno.ebadf.ret = 0 := hzero
  revert hzero
  decide

end MyMisu
