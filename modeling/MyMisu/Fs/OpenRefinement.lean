import MyMisu.Fs.Append
import MyMisu.Fs.Bounds
import MyMisu.Fs.OpenFiles
import MyMisu.Fs.Refinement
import MyMisu.Lib.Replies

/-!
# The tables refine the tree with open files

A descriptor in use stands for the path of its node.  While no call removes an open file and no
write leaves a hole, every call of `fs.c` replies as its operation on the tree with open files.  Of
`fs_stat` these are the type and the size: the tick of the creation and the slot of the parent, which it
reports too, are nothing of the tree.
-/

namespace MyMisu

/-- What a descriptor in use stands for. -/
def FsState.openFile (s : FsState) (f : FsFd) : OpenFile where
  path := pathOf s fsMaxFiles f.node
  offset := f.offset
  flags := f.flags

def openTreeOf (s : FsState) (h : FsTree s) : OpenTree where
  tree := treeOf s h
  file fd := if (s.fdTable fd).inUse then some (s.openFile (s.fdTable fd)) else none

/-- The invariant of the runs: descriptors in use are on files and inside the array. -/
structure OpenState (s : FsState) : Prop where
  named : NamedState s
  file : ∀ fd, (s.fdTable fd).inUse = true →
    s.used (s.fdTable fd).node ∧ (s.nodes (s.fdTable fd).node).type = .file
  offset : ∀ fd, (s.fdTable fd).inUse = true → (s.fdTable fd).offset < fsMaxData

/-- A call replies as the operation and its tables stand for what the operation leaves. -/
def RefinesOpen {ρ : Type} (r : ρ × FsState) (a : ρ × OpenTree) : Prop :=
  r.1 = a.1 ∧ OpenState r.2 ∧ ∀ h : FsTree r.2, openTreeOf r.2 h = a.2

/-- The call removes no open file, starts no write behind the end of its file and has room for the
terminator it stores; `off_t` is 32 bits. -/
def KeepsFiles (s : FsState) (op : FsOp) : Prop :=
  (∀ fd, (s.fdTable fd).inUse = true → op.unlinks s ≠ some (s.fdTable fd).node) ∧
    match op with
    | .readFile _ maxLen => 1 ≤ maxLen
    | .writeFd fd _ => ∀ i, openFd s fd = some i → hasFlag (s.fdTable i).flags oAppend = false →
        (s.fdTable i).offset ≤ (s.nodes (s.fdTable i).node).size
    | .lseek _ offset _ => FitsInt32 offset
    | _ => True

instance (s : FsState) (op : FsOp) : Decidable (KeepsFiles s op) := by
  unfold KeepsFiles
  cases op <;> infer_instance

/-! ## Paths of files that stay -/

theorem FsUpdate.keeps_path {s s' : FsState} (hc : FsUpdate s s') (h : FsTree s) {p : List CStr}
    {i : NodeIdx} (hp : s.LeadsTo p i) : s'.LeadsTo p i := by
  cases hc with
  | @create type clear tick name idx _ _ _ _ hfree =>
    have hidx : ¬ s.used idx := by
      rw [FsState.used, (findFreeNode_some hfree).2]
      decide
    have hother : ∀ j, j ≠ idx → (s.create type clear tick name idx).nodes j = s.nodes j :=
      fun j hj => create_ne s type clear tick name idx hj
    -- a creation adds one path and keeps the others
    apply (h.tree.pathTo_insert_iff hidx (h.pathTo_pathOf h.cwdUsed)
      (used_create s type clear tick name idx) _ _ _).mpr (.inr hp)
    · rw [FsState.parentOf, create_self]
      rfl
    · intro j hj
      rw [FsState.parentOf, hother j hj]
    · intro j hj
      rw [FsState.nameOf, hother j hj]
  | @store idx =>
    apply (leadsTo_congr _).mpr hp
    intro j
    by_cases hj : j = idx
    · rw [hj, FsState.setNode_self]
      exact ⟨rfl, rfl, rfl, rfl⟩
    · rw [FsState.setNode_ne _ _ hj]
      exact ⟨rfl, rfl, rfl, rfl⟩
  | chdir _ => exact hp
  | descriptor _ _ => exact hp

theorem fsExec_keeps_path {s : FsState} (h : FsTree s) {op : FsOp} {p : List CStr} {i : NodeIdx}
    (hp : s.LeadsTo p i) (ht : (s.nodes i).type = .file) (hno : op.unlinks s ≠ some i) :
    (fsExec s op).LeadsTo p i := by
  have hused := h.tree.pathTo_alive hp
  have ⟨hused', _⟩ := fsExec_keeps_file hused ht hno
  rcases fsExec_cases s op with ⟨-, hs⟩ | ⟨name, hr, ⟨e, hs⟩ | ⟨-, hs⟩⟩
  · have hinv : FsTree (fsExec s op) ∧ (fsExec s op).LeadsTo p i :=
      hs.invariant (I := fun s => FsTree s ∧ s.LeadsTo p i)
        (fun _ _ hc hi => ⟨hi.1.update hc, hc.keeps_path hi.1 hi.2⟩) ⟨h, hp⟩
    exact hinv.2
  · rw [show fsExec s op = s from (Prod.ext_iff.mp hs).2]
    exact hp
  · have ⟨idx, hf, hroot, hempty, hs'⟩ := hs.spec
    have hs' : fsExec s op = s.free idx := hs'
    rw [hs'] at hused' ⊢
    have hleaf : ∀ j, s.used j → s.parentOf j ≠ some idx := by
      rcases hempty with hdir | hempty
      -- only a directory is a parent
      · intro j hj hpar
        exact hdir (h.parentDir j idx hj hpar)
      · exact hasChild_false.mp hempty
    apply (ParentTree.pathTo_remove_iff hroot hleaf (used_free s idx) (parentOf_free s idx)
      (nameOf_free s idx)).mpr
    exact ⟨((used_free s idx i).mp hused').1, hp⟩

/-! ## Bytes behind an offset -/

/-- `O_APPEND` moves the offset and nothing else. -/
theorem FsFd.writeStart_eq (f : FsFd) (node : FsNode) :
    f.writeStart node =
      { f with offset := if hasFlag f.flags oAppend then node.size else f.offset } := by
  unfold FsFd.writeStart
  split <;> rfl

theorem drop_bytesAt (data : ℕ → UInt8) (len off : ℕ) :
    (bytesAt data 0 len).drop off = bytesAt data off (len - off) := by
  apply List.ext_getElem
  · rw [List.length_drop, bytesAt_length, bytesAt_length]
  · intro i hi hi'
    rw [List.getElem_drop, getElem_bytesAt, getElem_bytesAt, Nat.zero_add]

/-- A write that starts inside the file goes over its bytes. -/
theorem FsNode.bytesAt_written_inside {node : FsNode} {off len : ℕ} {buf : List UInt8}
    (hoff : off ≤ node.size) (hlen : len ≤ buf.length) :
    bytesAt (node.written off buf len).data 0 (node.written off buf len).size =
      overwrite (bytesAt node.data 0 node.size) off (buf.take len) := by
  have hsize : (node.written off buf len).size = off + (len + (node.size - (off + len))) := by
    show max node.size (off + len) = _
    omega
  unfold overwrite
  rw [hsize, bytesAt_append, bytesAt_append, ← List.append_assoc]
  congr 1
  · congr 1
    · rw [take_bytesAt, min_eq_left hoff]
      apply bytesAt_congr
      intro j _ hj
      exact FsNode.written_outside hlen (by omega) (.inl (by omega))
    · rw [Nat.zero_add, FsNode.bytesAt_written hlen]
  · rw [drop_bytesAt, List.length_take_of_le hlen, Nat.zero_add]
    apply bytesAt_congr
    intro j hj hj'
    exact FsNode.written_outside hlen (by omega) (.inr (by omega))

/-! ## The tree with open files of the tables -/

section Tables

variable {s : FsState} (h : FsTree s)

theorem treeOf_storeAt {p : List CStr} {idx : NodeIdx} {node : FsNode} {b : List UInt8}
    (hp : s.LeadsTo p idx) (hfile : (s.nodes idx).type = .file)
    (hsame : node.SamePlace (s.nodes idx)) (hb : node.entry = .file b)
    (h' : FsTree (s.setNode idx node)) :
    treeOf (s.setNode idx node) h' = (treeOf s h).rewriteAt p b := by
  have hnodes : ∀ j, ((s.setNode idx node).nodes j).SamePlace (s.nodes j) := by
    intro j
    by_cases hj : j = idx
    · rw [hj, FsState.setNode_self]
      exact hsame
    · rw [FsState.setNode_ne _ _ hj]
      exact ⟨rfl, rfl, rfl, rfl⟩
  apply treeOf_eq h'
  · intro q j hq
    have hq := (leadsTo_congr hnodes).mp hq
    show (if q = p then _ else _) = _
    by_cases hqp : q = p
    · rw [hqp] at hq
      rw [if_pos hqp, hqp, h.pathTo_inj hq hp, FsState.setNode_self, hb, entry_treeOf h hp,
        FsNode.entry_file hfile]
      rfl
    · have hj : j ≠ idx := fun he => hqp (h.tree.pathTo_unique (he ▸ hq) hp)
      rw [if_neg hqp, FsState.setNode_ne _ _ hj, entry_treeOf h hq]
  · intro q hq
    have hq : ∀ j, ¬ s.LeadsTo q j := fun j hj => hq j ((leadsTo_congr hnodes).mpr hj)
    show (if _ then _ else _) = _
    rw [entry_treeOf_none h hq]
    split <;> rfl
  · exact (leadsTo_congr hnodes).mpr (leadsTo_cwd h)

theorem treeOf_setFd {i : FdIdx} {f : FsFd} (h' : FsTree (s.setFd i f)) :
    treeOf (s.setFd i f) h' = treeOf s h := by
  apply treeOf_eq h'
  · intro p j hp
    exact entry_treeOf h hp
  · intro p hp
    exact entry_treeOf_none h hp
  · exact leadsTo_cwd h

theorem content_treeOf {p : List CStr} {i : NodeIdx} (hp : s.LeadsTo p i)
    (hfile : (s.nodes i).type = .file) :
    (treeOf s h).content p = bytesAt (s.nodes i).data 0 (s.nodes i).size := by
  apply FileTree.content_eq
  rw [entry_treeOf h hp, FsNode.entry_file hfile]

theorem fileOf_openTreeOf (fd : ℤ) :
    (openTreeOf s h).fileOf fd = (openFd s fd).map fun i => (i, s.openFile (s.fdTable i)) := by
  unfold OpenTree.fileOf openFd openTreeOf
  cases fdIndex fd with
  | none => rfl
  | some i =>
    rw [Option.bind_some]
    simp only
    split <;> rfl

theorem findFreeFd_openTreeOf :
    (Fin.find? fun i => ((openTreeOf s h).file i).isNone) = findFreeFd s := by
  unfold findFreeFd openTreeOf
  congr 1
  ext fd
  show (if (s.fdTable fd).inUse then some _ else none).isNone = !(s.fdTable fd).inUse
  cases (s.fdTable fd).inUse <;> rfl

/-- Only the descriptors differ, and their files keep their paths. -/
theorem openTreeOf_file {s' : FsState} (h' : FsTree s') {fd : FdIdx}
    (hsame : s'.fdTable fd = s.fdTable fd)
    (hpath : (s.fdTable fd).inUse = true → ∀ p, s.LeadsTo p (s.fdTable fd).node →
      s'.LeadsTo p (s.fdTable fd).node)
    (hused : (s.fdTable fd).inUse = true → s.used (s.fdTable fd).node) :
    (openTreeOf s' h').file fd = (openTreeOf s h).file fd := by
  unfold openTreeOf FsState.openFile
  simp only [hsame]
  by_cases hu : (s.fdTable fd).inUse = true
  · have hp := h.pathTo_pathOf (hused hu)
    rw [if_pos hu, if_pos hu, h'.pathOf_eq (hpath hu _ hp)]
  · rw [if_neg hu, if_neg hu]

end Tables

namespace OpenState

variable {s : FsState} (h : OpenState s)

include h

theorem same {ρ : Type} (reply : ρ) :
    RefinesOpen (reply, s) (reply, openTreeOf s h.named.tree) :=
  ⟨rfl, h, fun _ => rfl⟩

theorem leadsTo {fd : FdIdx} (hu : (s.fdTable fd).inUse = true) :
    s.LeadsTo (s.openFile (s.fdTable fd)).path (s.fdTable fd).node :=
  h.named.tree.pathTo_pathOf (h.file fd hu).1

theorem content {fd : FdIdx} (hu : (s.fdTable fd).inUse = true) :
    (treeOf s h.named.tree).content (s.openFile (s.fdTable fd)).path =
      bytesAt (s.nodes (s.fdTable fd).node).data 0 (s.nodes (s.fdTable fd).node).size :=
  content_treeOf h.named.tree (h.leadsTo hu) (h.file fd hu).2

theorem setFd {i : FdIdx} {f : FsFd}
    (hfile : f.inUse = true → s.used f.node ∧ (s.nodes f.node).type = .file)
    (hoff : f.inUse = true → f.offset < fsMaxData) : OpenState (s.setFd i f) := by
  have htree : FsTree (s.setFd i f) := h.named.tree.update (.descriptor i f)
  refine ⟨⟨htree, h.named.small, h.named.dirSize⟩, fun fd => ?_, fun fd => ?_⟩
  · by_cases hfd : fd = i
    · rw [hfd, FsState.setFd_self]
      exact hfile
    · rw [FsState.setFd_ne _ _ hfd]
      exact h.file fd
  · by_cases hfd : fd = i
    · rw [hfd, FsState.setFd_self]
      exact hoff
    · rw [FsState.setFd_ne _ _ hfd]
      exact h.offset fd

theorem openTreeOf_setFd {i : FdIdx} {f : FsFd} (h' : FsTree (s.setFd i f)) :
    openTreeOf (s.setFd i f) h' =
      (openTreeOf s h.named.tree).setFile i (if f.inUse then some (s.openFile f) else none) := by
  apply OpenTree.ext
  · exact treeOf_setFd h.named.tree h'
  · ext fd : 1
    show _ = Function.update (openTreeOf s h.named.tree).file i _ fd
    by_cases hfd : fd = i
    · rw [hfd, Function.update_self]
      show (if ((s.setFd i f).fdTable i).inUse then some _ else none) = _
      rw [FsState.setFd_self]
      rfl
    · rw [Function.update_of_ne hfd]
      exact openTreeOf_file h.named.tree h' (FsState.setFd_ne _ _ hfd) (fun _ _ hp => hp)
        fun hu => (h.file fd hu).1

/-- A descriptor that is moved on its file. -/
theorem moved {ρ : Type} {i : FdIdx} (hu : (s.fdTable i).inUse = true) {off : ℕ}
    (hoff : off < fsMaxData) (reply : ρ) :
    RefinesOpen (reply, s.setFd i { s.fdTable i with offset := off })
      (reply, (openTreeOf s h.named.tree).setFile i
        (some { s.openFile (s.fdTable i) with offset := off })) := by
  have hnext : OpenState (s.setFd i { s.fdTable i with offset := off }) :=
    h.setFd (fun _ => h.file i hu) (fun _ => hoff)
  refine ⟨rfl, hnext, fun h' => ?_⟩
  rw [h.openTreeOf_setFd h', if_pos (by exact hu)]
  rfl

theorem fileOf_none {fd : ℤ} (hopen : openFd s fd = none) :
    (openTreeOf s h.named.tree).fileOf fd = none := by
  rw [fileOf_openTreeOf, hopen, Option.map_none]

theorem fileOf_some {fd : ℤ} {i : FdIdx} (hopen : openFd s fd = some i) :
    (openTreeOf s h.named.tree).fileOf fd = some (i, s.openFile (s.fdTable i)) := by
  rw [fileOf_openTreeOf, hopen, Option.map_some]

/-! ## The calls on a descriptor -/

theorem fsClose_refines (fd : ℤ) :
    RefinesOpen (fsClose s fd) ((openTreeOf s h.named.tree).close fd) := by
  unfold OpenTree.close
  rcases fsClose_cases s fd with ⟨hopen, hrun⟩ | ⟨i, hopen, hrun⟩
  · rw [hrun, h.fileOf_none hopen]
    exact h.same _
  · rw [hrun, h.fileOf_some hopen]
    have hnext : OpenState (s.setFd i { s.fdTable i with inUse := false, nodeIdx := none }) := by
      apply h.setFd
      -- nothing is asked of a free entry
      · intro hu
        cases hu
      · intro hu
        cases hu
    exact ⟨rfl, hnext, fun h' => h.openTreeOf_setFd h'⟩

/-- The reply of a read is the number of bytes and the bytes. -/
theorem fsReadFd_refines (fd : ℤ) (buf : Bool) (n : ℕ) :
    RefinesOpen
      (((fsReadFd s fd buf n).1, (fsReadFd s fd buf n).2.1), (fsReadFd s fd buf n).2.2)
      ((((openTreeOf s h.named.tree).read fd buf n).1,
          ((openTreeOf s h.named.tree).read fd buf n).2.1),
        ((openTreeOf s h.named.tree).read fd buf n).2.2) := by
  unfold OpenTree.read fsReadFd
  cases hopen : openFd s fd with
  | none =>
    rw [h.fileOf_none hopen]
    exact h.same _
  | some i =>
    have hu := (openFd_some hopen).1
    have hoff := h.offset i hu
    have hsmall := h.named.small (s.fdTable i).node
    rw [h.fileOf_some hopen]
    simp only
    by_cases hbuf : buf = false
    · rw [if_pos hbuf, if_pos hbuf]
      exact h.same _
    rw [if_neg hbuf, if_neg hbuf]
    by_cases hacc : (s.fdTable i).flags &&& 0x3 = oWronly
    · rw [if_pos hacc, if_pos (show (s.openFile (s.fdTable i)).flags &&& 0x3 = oWronly from hacc)]
      exact h.same _
    rw [if_neg hacc, if_neg (show ¬ (s.openFile (s.fdTable i)).flags &&& 0x3 = oWronly from hacc)]
    -- the bytes behind the offset, none at the end of the file
    have hgot : (((openTreeOf s h.named.tree).tree.content (s.openFile (s.fdTable i)).path).drop
        (s.openFile (s.fdTable i)).offset).take n =
          bytesAt (s.nodes (s.fdTable i).node).data (s.fdTable i).offset
            (min n ((s.nodes (s.fdTable i).node).size - (s.fdTable i).offset)) := by
      have hcontent := h.content hu
      show List.take n (List.drop (s.fdTable i).offset
        ((treeOf s h.named.tree).content (s.openFile (s.fdTable i)).path)) = _
      rw [hcontent, drop_bytesAt, take_bytesAt]
    simp only [hgot, bytesAt_length]
    by_cases hend : (s.fdTable i).offset ≥ (s.nodes (s.fdTable i).node).size
    · have hzero : min n ((s.nodes (s.fdTable i).node).size - (s.fdTable i).offset) = 0 := by omega
      rw [if_pos hend, hzero]
      have hsame := h.moved hu hoff ((0 : ℤ), ([] : List UInt8))
      have hself : s.setFd i { s.fdTable i with offset := (s.fdTable i).offset } = s := by
        unfold FsState.setFd
        rw [Function.update_eq_self]
      rw [hself] at hsame
      exact hsame
    · rw [if_neg hend, ← min_def_lt]
      apply h.moved hu
      simp only [fsMaxData] at hsmall ⊢
      omega

/-- The range test of a seek, on an offset that may have wrapped outside the array. -/
theorem land_refines {i : FdIdx} (hu : (s.fdTable i).inUse = true) {x y : ℤ}
    (hxy : x = y ∨ ¬ (0 ≤ x ∧ x < fsMaxData) ∧ ¬ (0 ≤ y ∧ y < fsMaxData)) :
    RefinesOpen
      (if x < 0 then (Errno.einval.ret, s)
        else if x > (fsMaxData : ℤ) - 1 then (Errno.einval.ret, s)
        else (x, s.setFd i { s.fdTable i with offset := x.toNat }))
      (if 0 ≤ y ∧ y < fsMaxData then
          (y, (openTreeOf s h.named.tree).setFile i
            (some { s.openFile (s.fdTable i) with offset := y.toNat }))
        else (Errno.einval.ret, openTreeOf s h.named.tree)) := by
  by_cases hneg : x < 0
  · rw [if_pos hneg, if_neg (by omega)]
    exact h.same _
  rw [if_neg hneg]
  by_cases hbig : x > (fsMaxData : ℤ) - 1
  · rw [if_pos hbig, if_neg (by omega)]
    exact h.same _
  · have hin : x = y := by omega
    rw [if_neg hbig, ← hin, if_pos (by omega)]
    exact h.moved hu (by omega) x

theorem fsLseek_refines (fd offset whence : ℤ) (hfits : FitsInt32 offset) :
    RefinesOpen (fsLseek s fd offset whence) ((openTreeOf s h.named.tree).seek fd offset whence) := by
  unfold OpenTree.seek fsLseek
  cases hopen : openFd s fd with
  | none =>
    rw [h.fileOf_none hopen]
    exact h.same _
  | some i =>
    have hu := (openFd_some hopen).1
    have hoff := h.offset i hu
    have hsize := h.named.small (s.fdTable i).node
    have hend : ((openTreeOf s h.named.tree).tree.content (s.openFile (s.fdTable i)).path).length =
        (s.nodes (s.fdTable i).node).size := by
      show ((treeOf s h.named.tree).content _).length = _
      rw [h.content hu, bytesAt_length]
    have hwrap : ∀ base : ℕ, base < fsMaxData →
        wrapInt32 (intOfU32 base + offset) = base + offset ∨
          ¬ (0 ≤ wrapInt32 (intOfU32 base + offset) ∧
              wrapInt32 (intOfU32 base + offset) < fsMaxData) ∧
            ¬ (0 ≤ (base : ℤ) + offset ∧ (base : ℤ) + offset < fsMaxData) := by
      intro base hbase
      have ⟨hlo, hhi⟩ := hfits
      -- a sum past 2 ^ 31 wraps to a negative number, and neither is an offset of the array
      simp only [fsMaxData] at hbase ⊢
      rw [intOfU32_of_lt (by omega), wrapInt32]
      omega
    rw [h.fileOf_some hopen]
    simp only [hend]
    by_cases hset : whence = seekSet
    · rw [if_pos hset, if_pos hset]
      exact h.land_refines hu (.inl (by simp))
    rw [if_neg hset, if_neg hset]
    by_cases hcur : whence = seekCur
    · rw [if_pos hcur, if_pos hcur]
      exact h.land_refines hu (hwrap _ hoff)
    rw [if_neg hcur, if_neg hcur]
    by_cases hwhence : whence = seekEnd
    · rw [if_pos hwhence, if_pos hwhence]
      exact h.land_refines hu (hwrap _ hsize)
    · rw [if_neg hwhence, if_neg hwhence]
      exact h.same _

/-- Other bytes in a file, seen by every descriptor on it. -/
theorem stored {p : List CStr} {idx : NodeIdx} {node : FsNode} {b : List UInt8}
    (hp : s.LeadsTo p idx) (hfile : (s.nodes idx).type = .file)
    (hsame : node.SamePlace (s.nodes idx)) (hb : node.entry = .file b)
    (hsmall : node.size < fsMaxData) :
    OpenState (s.setNode idx node) ∧ ∀ h' : FsTree (s.setNode idx node),
      openTreeOf (s.setNode idx node) h' =
        { openTreeOf s h.named.tree with tree := (treeOf s h.named.tree).rewriteAt p b } := by
  have hnodes : ∀ j, ((s.setNode idx node).nodes j).SamePlace (s.nodes j) := by
    intro j
    by_cases hj : j = idx
    · rw [hj, FsState.setNode_self]
      exact hsame
    · rw [FsState.setNode_ne _ _ hj]
      exact ⟨rfl, rfl, rfl, rfl⟩
  have htree : FsTree (s.setNode idx node) := h.named.tree.congr hnodes rfl
  have hnamed : NamedState (s.setNode idx node) := by
    apply h.named.setNode htree hsmall
    intro hdir
    rw [hsame.2.2.2, hfile] at hdir
    cases hdir
  refine ⟨⟨hnamed, fun fd hu => ?_, h.offset⟩, fun h' => ?_⟩
  · have ⟨hused, htype⟩ := h.file fd hu
    exact ⟨(hnodes _).1.trans hused, (hnodes _).2.2.2.trans htype⟩
  · apply OpenTree.ext
    · exact treeOf_storeAt h.named.tree hp hfile hsame hb h'
    · ext fd : 1
      exact openTreeOf_file h.named.tree h' rfl (fun _ _ hq => (leadsTo_congr hnodes).mpr hq)
        fun hu => (h.file fd hu).1

/-- A write that the descriptor permits. -/
theorem write_refines {fd : ℤ} {i : FdIdx} (hopen : openFd s fd = some i)
    (hacc : (s.fdTable i).flags &&& 0x3 ≠ oRdonly) (b : List UInt8)
    (hhole : hasFlag (s.fdTable i).flags oAppend = false →
      (s.fdTable i).offset ≤ (s.nodes (s.fdTable i).node).size)
    {off : ℕ} (hoff : off = if hasFlag (s.fdTable i).flags oAppend then
      ((treeOf s h.named.tree).content (s.openFile (s.fdTable i)).path).length
      else (s.fdTable i).offset) {d : List UInt8} (hd : d = b.take (fsMaxData - 1 - off)) :
    RefinesOpen (fsWriteFd s fd (some b))
      (if fsMaxData - 1 ≤ off then
          (Errno.enospc.ret, (openTreeOf s h.named.tree).setFile i
            (some { s.openFile (s.fdTable i) with offset := off }))
        else
          ((d.length : ℤ),
            { openTreeOf s h.named.tree with
                tree := (treeOf s h.named.tree).rewriteAt (s.openFile (s.fdTable i)).path
                  (overwrite ((treeOf s h.named.tree).content (s.openFile (s.fdTable i)).path)
                    off d) }.setFile i
              (some { s.openFile (s.fdTable i) with offset := off + d.length }))) := by
  have hu := (openFd_some hopen).1
  have hsize := h.named.small (s.fdTable i).node
  obtain ⟨hused, hfile⟩ := h.file i hu
  rw [h.content hu] at hoff ⊢
  rw [bytesAt_length] at hoff
  have hinside : off ≤ (s.nodes (s.fdTable i).node).size := by
    cases happend : hasFlag (s.fdTable i).flags oAppend with
    | true => rw [hoff, happend, if_pos rfl]
    | false =>
      rw [hoff, happend, if_neg (by decide)]
      exact hhole happend
  have hstart : (s.fdTable i).writeStart (s.nodes (s.fdTable i).node) =
      { s.fdTable i with offset := off } := by
    rw [FsFd.writeStart_eq, hoff]
  have hroom : ({ s.fdTable i with offset := off } : FsFd).room b = d.length := by
    rw [hd, List.length_take, min_comm]
    rfl
  have hdb : d.length ≤ b.length := by rw [hd, List.length_take]; omega
  have htake : b.take d.length = d := by
    rw [hd, List.length_take, List.take_eq_take_iff]
    omega
  rw [fsWriteFd_open hopen hacc b hstart]
  simp only [ge_iff_le, hroom]
  by_cases hfull : fsMaxData - 1 ≤ off
  · rw [if_pos hfull, if_pos hfull]
    exact h.moved hu (by omega) _
  rw [if_neg hfull, if_neg hfull]
  have hgrown : off + d.length < fsMaxData := by
    rw [hd, List.length_take]
    omega
  -- the offset moves first, then the bytes go to the node
  obtain ⟨-, hmoved, hmovedTree⟩ := h.moved hu hgrown (d.length : ℤ)
  have hsame : ((s.nodes (s.fdTable i).node).written off b d.length).SamePlace
      (s.nodes (s.fdTable i).node) := ⟨rfl, rfl, rfl, rfl⟩
  have hentry : ((s.nodes (s.fdTable i).node).written off b d.length).entry =
      .file (overwrite (bytesAt (s.nodes (s.fdTable i).node).data 0
        (s.nodes (s.fdTable i).node).size) off d) := by
    rw [FsNode.entry_file (by exact hfile), FsNode.bytesAt_written_inside hinside hdb, htake]
  have hsmall : ((s.nodes (s.fdTable i).node).written off b d.length).size < fsMaxData := by
    show max (s.nodes (s.fdTable i).node).size (off + d.length) < fsMaxData
    omega
  obtain ⟨hnext, hnextTree⟩ := hmoved.stored (h.leadsTo hu) hfile hsame hentry hsmall
  have hfiles := congrArg OpenTree.file (hmovedTree hmoved.named.tree)
  refine ⟨rfl, hnext, fun h' => (hnextTree h').trans (OpenTree.ext ?_ hfiles)⟩
  exact congrArg (DirTree.rewriteAt · _ _) (treeOf_setFd h.named.tree _)

theorem fsWriteFd_refines (fd : ℤ) (buf : Option (List UInt8))
    (hhole : ∀ i, openFd s fd = some i → hasFlag (s.fdTable i).flags oAppend = false →
      (s.fdTable i).offset ≤ (s.nodes (s.fdTable i).node).size) :
    RefinesOpen (fsWriteFd s fd buf) ((openTreeOf s h.named.tree).write fd buf) := by
  unfold OpenTree.write
  cases hopen : openFd s fd with
  | none =>
    unfold fsWriteFd
    rw [h.fileOf_none hopen, hopen]
    exact h.same _
  | some i =>
    have hu := (openFd_some hopen).1
    rw [h.fileOf_some hopen]
    cases buf with
    | none =>
      unfold fsWriteFd
      rw [hopen]
      exact h.same _
    | some b =>
      simp only
      by_cases hacc : (s.fdTable i).flags &&& 0x3 = oRdonly
      · unfold fsWriteFd
        rw [hopen, if_pos (show (s.openFile (s.fdTable i)).flags &&& 0x3 = oRdonly from hacc)]
        simp only
        rw [if_pos hacc]
        exact h.same _
      rw [if_neg (show ¬ (s.openFile (s.fdTable i)).flags &&& 0x3 = oRdonly from hacc)]
      exact h.write_refines hopen hacc b (hhole i hopen) rfl rfl

/-! ## Opening -/

theorem openTrunc_refines {p : List CStr} {idx : NodeIdx} (hp : s.LeadsTo p idx)
    (hfile : (s.nodes idx).type = .file) (flags : ℕ) :
    OpenState (openTrunc s idx flags) ∧ ∀ h' : FsTree (openTrunc s idx flags),
      openTreeOf (openTrunc s idx flags) h' = (openTreeOf s h.named.tree).trunc p flags := by
  unfold openTrunc OpenTree.trunc
  split
  · have hentry : ({ s.nodes idx with
        data := Function.update (s.nodes idx).data 0 0, size := 0 } : FsNode).entry = .file [] :=
      FsNode.entry_file hfile
    exact h.stored hp hfile ⟨rfl, rfl, rfl, rfl⟩ hentry (Nat.succ_pos _)
  · exact ⟨h, fun _ => rfl⟩

/-- The free entry is filled in behind the `O_TRUNC` block. -/
theorem newFd_refines {p : List CStr} {idx : NodeIdx} (hp : s.LeadsTo p idx)
    (hfile : (s.nodes idx).type = .file) (flags : ℕ) (fd : FdIdx) :
    RefinesOpen ((fd.val : ℤ), s.setFd fd (newFd s idx flags))
      ((fd.val : ℤ), (openTreeOf s h.named.tree).setFile fd (some
        { path := p
          offset := if hasFlag flags oAppend then
            ((openTreeOf s h.named.tree).tree.content p).length else 0
          flags := flags })) := by
  have hlength := congrArg List.length (content_treeOf h.named.tree hp hfile)
  rw [bytesAt_length] at hlength
  have hoff : (newFd s idx flags).offset < fsMaxData := by
    show (if hasFlag flags oAppend then (s.nodes idx).size else 0) < fsMaxData
    split
    · exact h.named.small idx
    · decide
  have hnext : OpenState (s.setFd fd (newFd s idx flags)) :=
    h.setFd (fun _ => ⟨h.named.tree.tree.pathTo_alive hp, hfile⟩) fun _ => hoff
  refine ⟨rfl, hnext, fun h' => ?_⟩
  rw [h.openTreeOf_setFd h', if_pos (by rfl), FsState.openFile]
  congr 3
  · exact h.named.tree.pathOf_eq hp
  · show _ = if hasFlag flags oAppend then ((treeOf s h.named.tree).content p).length else 0
    rw [hlength]
    rfl

theorem openNode_refines {p : List CStr} {idx : NodeIdx} (hp : s.LeadsTo p idx)
    (hfile : (s.nodes idx).type = .file) (flags : ℕ) :
    RefinesOpen (openNode s idx flags) ((openTreeOf s h.named.tree).openPath p flags) := by
  have ⟨htrunc, htree⟩ := h.openTrunc_refines hp hfile flags
  have hp' : (openTrunc s idx flags).LeadsTo p idx :=
    (leadsTo_congr (openTrunc_samePlace s idx flags)).mpr hp
  have hfile' : ((openTrunc s idx flags).nodes idx).type = .file :=
    (openTrunc_samePlace s idx flags idx).2.2.2.trans hfile
  unfold openNode OpenTree.openPath OpenTree.bindFile
  rw [if_neg (not_not.mpr hfile), ← htree htrunc.named.tree, findFreeFd_openTreeOf]
  simp only
  cases findFreeFd (openTrunc s idx flags) with
  | none => exact htrunc.same _
  | some fd => exact htrunc.newFd_refines hp' hfile' flags fd

/-! ## The calls on a name -/

/-- A call on the tree that removes no open file leaves the open files as they are. -/
theorem onTree (op : FsOp) {r : ℤ × FsState} (hop : r.2 = fsExec s op)
    (htable : r.2.fdTable = s.fdTable)
    (hno : ∀ fd, (s.fdTable fd).inUse = true → op.unlinks s ≠ some (s.fdTable fd).node)
    {a : ℤ × FileTree} (hr : Refines r a) :
    RefinesOpen r (a.1, { openTreeOf s h.named.tree with tree := a.2 }) := by
  have ⟨hcode, hnamed, htree⟩ := hr
  rw [hop] at hnamed htable
  have hfile : ∀ fd, (s.fdTable fd).inUse = true →
      (fsExec s op).used (s.fdTable fd).node ∧
        ((fsExec s op).nodes (s.fdTable fd).node).type = .file := by
    intro fd hu
    have ⟨hused, htype⟩ := h.file fd hu
    exact fsExec_keeps_file hused htype (hno fd hu)
  have hpath : ∀ fd, (s.fdTable fd).inUse = true → ∀ p, s.LeadsTo p (s.fdTable fd).node →
      (fsExec s op).LeadsTo p (s.fdTable fd).node := by
    intro fd hu p hp
    exact fsExec_keeps_path h.named.tree hp (h.file fd hu).2 (hno fd hu)
  have hnext : OpenState (fsExec s op) := by
    refine ⟨hnamed, ?_, ?_⟩
    · rw [htable]
      exact hfile
    · rw [htable]
      exact h.offset
  refine ⟨hcode, hop ▸ hnext, fun h' => OpenTree.ext (htree h') ?_⟩
  ext fd : 1
  rw [show openTreeOf r.2 h' = openTreeOf (fsExec s op) (hop ▸ h') by congr]
  exact openTreeOf_file h.named.tree _ (congrFun htable fd) (hpath fd) fun hu => (h.file fd hu).1

theorem fsCreateFile_refines (tick : ℕ) (name : Option CStr) :
    RefinesOpen (fsCreateFile s tick name)
      (((treeOf s h.named.tree).create (.file []) name).1,
        { openTreeOf s h.named.tree with
          tree := ((treeOf s h.named.tree).create (.file []) name).2 }) :=
  h.onTree (.createFile tick name) (r := fsCreateFile s tick name) rfl
    (createEntry_fdTable .file (Function.update · 0 0) s tick name) (fun _ _ hu => nomatch hu)
    (MyMisu.fsCreateFile_refines h.named tick name)

/-- Behind a creation the new file is opened as any other. -/
theorem open_created {n : CStr} {flags : ℕ} {p : List CStr} {r : ℤ × FsState} {a : ℤ × OpenTree}
    (hr : RefinesOpen r a) (herr : r.1 < 0 → r.2 = s)
    (hnew : ¬ r.1 < 0 → ∃ idx, findNode r.2 n = some idx ∧ (r.2.nodes idx).type = .file ∧
      r.2.LeadsTo p idx) :
    RefinesOpen
      (if r.1 < 0 then r
        else
          match findNode r.2 n with
          | none => (Errno.eio.ret, r.2)
          | some idx => openNode r.2 idx flags)
      (if a.1 < 0 then (a.1, openTreeOf s h.named.tree) else a.2.openPath p flags) := by
  have ⟨hcode, hnext, htree⟩ := hr
  rw [← hcode]
  by_cases hneg : r.1 < 0
  · rw [if_pos hneg, if_pos hneg]
    have hs := herr hneg
    cases r with
    | mk code s' =>
      cases hs
      exact h.same code
  · have ⟨idx, hf, hfile, hp⟩ := hnew hneg
    rw [if_neg hneg, if_neg hneg, hf, ← htree hnext.named.tree]
    exact hnext.openNode_refines hp hfile flags

theorem createFile_found {tick : ℕ} {n : CStr} (hok : ¬ (fsCreateFile s tick (some n)).1 < 0) :
    ∃ idx, findNode (fsCreateFile s tick (some n)).2 n = some idx ∧
      ((fsCreateFile s tick (some n)).2.nodes idx).type = .file ∧
      (fsCreateFile s tick (some n)).2.LeadsTo (n :: (treeOf s h.named.tree).cwd) idx := by
  rcases createEntry_cases .file (fun data => Function.update data 0 0) s tick (some n) with
    ⟨e, hrun, -⟩ | ⟨n', idx, hn, hne, hlen, hnew, hfree, hrun⟩
  · rw [show fsCreateFile s tick (some n) = (e.ret, s) from hrun] at hok
    exact absurd e.ret_neg hok
  · cases Option.some.inj hn
    rw [show fsCreateFile s tick (some n) = _ from hrun]
    have htree := h.named.tree.create .file tick hne hlen hnew hfree
    have hf := @findNode_create s .file (fun data => Function.update data 0 0) tick n idx hlen hnew
    refine ⟨idx, hf, ?_, ?_⟩
    · rw [create_self]
      rfl
    -- the working directory keeps its path
    · have hp := pathTo_of_findNode htree hf
      have hcwd := (FsUpdate.create tick .file hne hlen hnew hfree).keeps_path h.named.tree
        (leadsTo_cwd h.named.tree)
      rwa [show (treeOf _ htree).cwd = _ from htree.pathOf_eq hcwd] at hp

theorem fsOpen_refines (tick : ℕ) (name : Option CStr) (flags : ℕ) :
    RefinesOpen (fsOpen s tick name flags) ((openTreeOf s h.named.tree).openFile name flags) := by
  unfold fsOpen OpenTree.openFile
  cases name with
  | none => exact h.same _
  | some n =>
    simp only
    by_cases hempty : n.bytes = []
    · rw [if_pos hempty, if_pos hempty]
      exact h.same _
    rw [if_neg hempty, if_neg hempty]
    cases hf : findNode s n with
    | some idx =>
      have hlookup := lookup_found h.named hf
      rcases found_typed h.named hf with hfile | hdir
      · rw [FsNode.entry_file hfile] at hlookup
        rw [show (openTreeOf s h.named.tree).tree.lookup n = _ from hlookup]
        exact h.openNode_refines (pathTo_of_findNode h.named.tree hf) hfile flags
      -- a directory is not opened
      · rw [FsNode.entry_dir hdir] at hlookup
        rw [show (openTreeOf s h.named.tree).tree.lookup n = _ from hlookup]
        simp only
        unfold openNode
        rw [if_pos (by rw [hdir]; decide)]
        exact h.same _
    | none =>
      have hlookup := lookup_not_found h.named hf
      rw [show (openTreeOf s h.named.tree).tree.lookup n = _ from hlookup]
      simp only
      by_cases hcreat : hasFlag flags oCreat = true
      · rw [if_pos hcreat, if_pos hcreat]
        have hkeep : (fsCreateFile s tick (some n)).1 < 0 → (fsCreateFile s tick (some n)).2 = s := by
          intro hneg
          rcases createEntry_cases .file (fun data => Function.update data 0 0) s tick (some n) with
            ⟨e, hrun, -⟩ | ⟨_, _, _, _, _, _, _, hrun⟩
          · exact congrArg Prod.snd hrun
          · rw [show (fsCreateFile s tick (some n)).1 = 0 from congrArg Prod.fst hrun] at hneg
            omega
        exact h.open_created (h.fsCreateFile_refines tick (some n)) hkeep h.createFile_found
      · rw [if_neg hcreat, if_neg hcreat]
        exact h.same _

end OpenState

/-! ## Runs -/

theorem RefinesOpen.call {r : ℤ × FsState} {a : ℤ × OpenTree} (hr : RefinesOpen r a) :
    RefinesOpen ((r.map FsReply.ofCode id).1.view, r.2) (a.map TreeReply.ofCode id) := by
  have ⟨hcode, hrest⟩ := hr
  exact ⟨congrArg TreeReply.ofCode hcode, hrest⟩

namespace OpenState

theorem init (tick : ℕ) : OpenState (fsInit tick) := by
  have hclosed : ∀ fd, ((fsInit tick).fdTable fd).inUse = false := by
    intro fd
    rw [fsInit_fdTable]
    rfl
  refine ⟨.init tick, fun fd hu => ?_, fun fd hu => ?_⟩
  · rw [hclosed] at hu
    cases hu
  · rw [hclosed] at hu
    cases hu

variable {s : FsState} (h : OpenState s)

include h

theorem fsCall_refines {op : FsOp} (hop : KeepsFiles s op) :
    RefinesOpen ((fsCall s op).1.view, fsExec s op) (openCall (openTreeOf s h.named.tree) op) := by
  have ⟨hno, hargs⟩ := hop
  cases op with
  | mkdir tick name =>
    have htable := createEntry_fdTable .dir id s tick name
    exact (h.onTree (.mkdir tick name) (r := fsMkdir s tick name) rfl htable hno
      (fsMkdir_refines h.named tick name)).call
  | createFile tick name => exact (h.fsCreateFile_refines tick name).call
  | writeFile name buf =>
    exact (h.onTree (.writeFile name buf) (r := fsWriteFile s name buf) rfl
      (fsWriteFile_fdTable s name buf) hno
      (fsWriteFile_refines h.named name buf)).call
  | readFile name maxLen =>
    have hread := fsReadFile_refines h.named name hargs
    show RefinesOpen (TreeReply.mk _ _ none, s) (TreeReply.mk _ _ none, _)
    rw [show (openTreeOf s h.named.tree).tree.read name maxLen = _ from hread.symm]
    exact h.same _
  | delete name =>
    exact (h.onTree (.delete name) (r := fsDelete s name) rfl (fsDelete_cases s name).fdTable hno
      (fsDelete_refines h.named name)).call
  | cd name =>
    exact (h.onTree (.cd name) (r := fsCd s name) rfl (fsCd_fdTable s name) hno
      (fsCd_refines h.named name)).call
  | «open» tick name flags => exact (h.fsOpen_refines tick name flags).call
  | close fd => exact (h.fsClose_refines fd).call
  | readFd fd buf n =>
    have ⟨hreply, hrest⟩ := h.fsReadFd_refines fd buf n
    refine ⟨?_, hrest⟩
    exact congrArg (fun reply : ℤ × List UInt8 => TreeReply.mk reply.1 reply.2 none) hreply
  | writeFd fd buf => exact (h.fsWriteFd_refines fd buf hargs).call
  | lseek fd offset whence => exact (h.fsLseek_refines fd offset whence hargs).call
  | stat name out =>
    have hstat := fsStat_refines h.named name out
    show RefinesOpen (TreeReply.mk _ [] _, s) (TreeReply.mk _ [] _, _)
    rw [show (openTreeOf s h.named.tree).tree.stat name out = _ from hstat.symm]
    exact h.same _
  | unlink name =>
    exact (h.onTree (.unlink name) (r := fsUnlink s name) rfl (fsUnlink_cases s name).fdTable hno
      (fsUnlink_refines h.named name)).call
  | rmdir name =>
    exact (h.onTree (.rmdir name) (r := fsRmdir s name) rfl (fsRmdir_cases s name).fdTable hno
      (fsRmdir_refines h.named name)).call

end OpenState

/-- The tables stand for the tree with open files. -/
def StandsFor (s : FsState) (t : OpenTree) : Prop :=
  ∃ h : OpenState s, openTreeOf s h.named.tree = t

theorem standsFor_init (tick : ℕ) :
    StandsFor (fsInit tick) (openTreeOf (fsInit tick) (NamedState.init tick).tree) :=
  ⟨.init tick, rfl⟩

theorem standsFor_step (s : FsState) (t : OpenTree) (op : FsOp) (hs : StandsFor s t)
    (hop : KeepsFiles s op) :
    (fsCall s op).1.view = (openCall t op).1 ∧ StandsFor (fsCall s op).2 (openCall t op).2 := by
  have ⟨h, ht⟩ := hs
  have ⟨hreply, hnext, htree⟩ := h.fsCall_refines hop
  rw [← ht]
  exact ⟨hreply, hnext, htree hnext.named.tree⟩

/-- Over every run that removes no open file and leaves no hole, the calls reply as operations on a
tree with open files, `fs_stat` in type and size, and the tables stand for the tree in the end. -/
theorem calls_refine_open_files (tick : ℕ) (ops : List FsOp)
    (hops : Replies.Allowed KeepsFiles fsCall (fsInit tick) ops) :
    let start := openTreeOf (fsInit tick) (NamedState.init tick).tree
    (Replies.replies fsCall (fsInit tick) ops).map FsReply.view = Replies.replies openCall start ops ∧
      StandsFor (Replies.final fsCall (fsInit tick) ops) (Replies.final openCall start ops) :=
  ⟨Replies.replies_of_simulation standsFor_step (standsFor_init tick) hops,
    Replies.final_of_simulation standsFor_step (standsFor_init tick) hops⟩

/-- Two descriptors on one file, moved past each other's bytes. -/
def sharedFileOps : List FsOp :=
  [.open 0 (some (.ofString "a")) (oCreat ||| oRdwr), .open 0 (some (.ofString "a")) oRdonly,
    .cd (.ofString "home"), .writeFd 0 (some [1, 2, 3]), .readFd 1 true 2, .lseek 0 1 seekSet,
    .writeFd 0 (some [7]), .lseek 1 (-2) seekCur, .readFd 1 true 9, .close 0]

theorem shared_file_refines :
    let start := openTreeOf (fsInit 0) (NamedState.init 0).tree
    (Replies.replies fsCall (fsInit 0) sharedFileOps).map FsReply.view =
        Replies.replies openCall start sharedFileOps ∧
      StandsFor (Replies.final fsCall (fsInit 0) sharedFileOps)
        (Replies.final openCall start sharedFileOps) :=
  calls_refine_open_files 0 sharedFileOps (by decide +kernel)

end MyMisu
