import MyMisu.Fs.Agreement
import MyMisu.Fs.Bounds
import MyMisu.Fs.Refinement

/-!
# What a reused slot shows of its last file

Two runs that differ only in the bytes written to one file.  The data of its slot is all they ever
disagree on, and a new file in that slot shows none of it as long as no write starts behind the part
of the file that was written before: creation clears the first byte only, and a write behind the end
of a file raises its size over bytes that nobody wrote.
-/

namespace MyMisu

/-! ## Pairs of runs -/

/-- The file is kept, it is deleted, or a file `g` was created since and has had up to `peak` bytes. -/
inductive ReusePhase
  | kept
  | deleted
  | reused (g : NodeIdx) (peak : ℕ)
  deriving DecidableEq

structure TwoRuns where
  left : FsState
  right : FsState
  /-- The slot of the file whose bytes differ. -/
  slot : NodeIdx
  phase : ReusePhase

/-- Writes of equally many bytes to the file in `slot`. -/
inductive WritesTo (s : FsState) (slot : NodeIdx) : FsOp → FsOp → Prop
  | file {name : CStr} {buf buf' : List UInt8} : findNode s name = some slot →
      buf'.length = buf.length → WritesTo s slot (.writeFile name buf) (.writeFile name buf')
  | fd {fd : ℤ} {i : FdIdx} {buf buf' : List UInt8} : openFd s fd = some i →
      (s.fdTable i).node = slot → buf'.length = buf.length →
      WritesTo s slot (.writeFd fd (some buf)) (.writeFd fd (some buf'))

namespace TwoRuns

def next (r : TwoRuns) (op op' : FsOp) (phase : ReusePhase) : TwoRuns where
  left := fsExec r.left op
  right := fsExec r.right op'
  slot := r.slot
  phase := phase

inductive Step (r : TwoRuns) : FsOp × FsOp → TwoRuns → Prop
  | keep {op : FsOp} : r.phase = .kept → (fsExec r.left op).used r.slot →
      Step r (op, op) (r.next op op .kept)
  | write {op op' : FsOp} : r.phase = .kept → WritesTo r.left r.slot op op' →
      Step r (op, op') (r.next op op' .kept)
  | delete {op : FsOp} : r.phase = .kept → ¬ (fsExec r.left op).used r.slot →
      (∀ fd, (r.left.fdTable fd).inUse = true → (r.left.fdTable fd).nodeIdx ≠ some r.slot) →
      Step r (op, op) (r.next op op .deleted)
  | between {op : FsOp} : r.phase = .deleted → Step r (op, op) (r.next op op .deleted)
  | create {op : FsOp} {g : NodeIdx} : r.phase = .deleted → ¬ r.left.used g →
      (fsExec r.left op).used g → ((fsExec r.left op).nodes g).type = .file →
      Step r (op, op) (r.next op op (.reused g 0))
  | use {op : FsOp} {g : NodeIdx} {peak : ℕ} : r.phase = .reused g peak →
      (fsExec r.left op).used g →
      Step r (op, op) (r.next op op (.reused g (max peak ((fsExec r.left op).nodes g).size)))

end TwoRuns

/-- Both runs start in one state that holds the file. -/
def twoRunSystem : TransitionSystem TwoRuns (FsOp × FsOp) where
  init r := r.left = r.right ∧ fsSystem.Reachable r.left ∧ r.left.used r.slot ∧
    (r.left.nodes r.slot).type = .file ∧ r.phase = .kept
  step := TwoRuns.Step

/-- The file a call reads bytes of. -/
def FsOp.readsFrom (s : FsState) : FsOp → Option NodeIdx
  | .readFile name _ => findNode s name
  | .readFd fd _ _ => (openFd s fd).map fun i => (s.fdTable i).node
  | _ => none

/-- Reads of the new file return the same in both runs. -/
def NoLeak (r : TwoRuns) : Prop :=
  ∀ g peak, r.phase = .reused g peak → ∀ op : FsOp, op.RoomForNul →
    op.readsFrom r.left = some g → (fsCall r.right op).1 = (fsCall r.left op).1

/-- A write to the file in `g` that is carried out starts at most one byte behind `peak`. -/
def FsOp.StartsWithin (s : FsState) (g : NodeIdx) (peak : ℕ) : FsOp → Prop
  | .writeFd fd (some _) => ∀ i, openFd s fd = some i → (s.fdTable i).node = g →
      (s.fdTable i).flags &&& 0x3 ≠ oRdonly →
      ((s.fdTable i).writeStart (s.nodes g)).offset < fsMaxData - 1 →
      ((s.fdTable i).writeStart (s.nodes g)).offset ≤ peak + 1
  | _ => True

/-- No write leaves a hole in a new file that took the slot. -/
def LeavesNoHole (r : TwoRuns) (ops : FsOp × FsOp) : Prop :=
  ∀ peak, r.phase = .reused r.slot peak → ops.1.StartsWithin r.left r.slot peak

/-! ## Sizes -/

def FsOp.writes : FsOp → Prop
  | .writeFile .. | .writeFd .. => True
  | _ => False

/-- The size of a node stays as it is, and a node in use was so before, or the size is 0. -/
def SizeKept (s s' : FsState) (i : NodeIdx) : Prop :=
  (s'.nodes i).size = (s.nodes i).size ∧ (s'.used i → s.used i) ∨ (s'.nodes i).size = 0

theorem sizeKept_of_nodes {s s' : FsState} {i : NodeIdx} (h : s'.nodes i = s.nodes i) :
    SizeKept s s' i := by
  rw [SizeKept, FsState.used, FsState.used, h]
  exact .inl ⟨rfl, id⟩

theorem createEntry_sizeKept (type : NodeType) (clear : (ℕ → UInt8) → ℕ → UInt8) (s : FsState)
    (tick : ℕ) (name : Option CStr) (i : NodeIdx) :
    SizeKept s (createEntry type clear s tick name).2 i := by
  rcases createEntry_cases type clear s tick name with ⟨e, hrun, -⟩ | ⟨n, idx, -, -, -, -, -, hrun⟩
  · rw [hrun]
    exact sizeKept_of_nodes rfl
  · rw [hrun]
    by_cases hi : i = idx
    · rw [hi]
      exact .inr (by rw [create_self]; rfl)
    · exact sizeKept_of_nodes (create_ne _ _ _ _ _ _ hi)

theorem RemoveCases.sizeKept {s : FsState} {name : CStr} {r : ℤ × FsState}
    (h : RemoveCases s name r) (i : NodeIdx) : SizeKept s r.2 i := by
  rcases h with ⟨e, hr⟩ | ⟨-, hr⟩
  · rw [hr]
    exact sizeKept_of_nodes rfl
  · have ⟨idx, _, _, _, hs⟩ := hr.spec
    rw [hs]
    have hsize : ((s.free idx).nodes i).size = (s.nodes i).size := by rw [free_nodes]
    exact .inl ⟨hsize, fun hu => ((used_free s idx i).mp hu).2⟩

theorem openNode_sizeKept (s : FsState) (idx : NodeIdx) (flags : ℕ) (i : NodeIdx) :
    SizeKept s (openNode s idx flags).2 i := by
  have htrunc : SizeKept s (openTrunc s idx flags) i := by
    unfold openTrunc
    split
    · by_cases hi : i = idx
      · rw [hi]
        exact .inr (by rw [FsState.setNode_self])
      · exact sizeKept_of_nodes (FsState.setNode_ne _ _ hi)
    · exact sizeKept_of_nodes rfl
  rcases openNode_cases s idx flags with ⟨-, hrun⟩ | ⟨-, -, hrun⟩ | ⟨fd, -, -, hrun⟩
  · rw [hrun]
    exact sizeKept_of_nodes rfl
  · rw [hrun]
    exact htrunc
  · rw [hrun]
    exact htrunc

theorem fsOpen_sizeKept (s : FsState) (tick : ℕ) (name : Option CStr) (flags : ℕ) (i : NodeIdx) :
    SizeKept s (fsOpen s tick name flags).2 i := by
  rcases fsOpen_cases s tick name flags with ⟨e, hrun, -⟩ | ⟨n, idx, -, -, -, hrun⟩ |
    ⟨n, idx, s', -, -, -, -, -, -, hs', -, hrun⟩
  · rw [hrun]
    exact sizeKept_of_nodes rfl
  · rw [hrun]
    exact openNode_sizeKept s idx flags i
  · rw [hrun]
    rcases openNode_sizeKept s' idx flags i with ⟨hsize, hused⟩ | hzero
    · by_cases hi : i = idx
      · -- opening leaves the size of the file just created at 0
        right
        rw [hsize, hs', hi, create_self]
        rfl
      · have hold : s'.nodes i = s.nodes i := by rw [hs', create_ne _ _ _ _ _ _ hi]
        left
        rw [FsState.used, FsState.used, hold] at hused
        exact ⟨by rw [hsize, hold], hused⟩
    · exact .inr hzero

theorem fsExec_sizeKept (s : FsState) {op : FsOp} (hop : ¬ op.writes) (i : NodeIdx) :
    SizeKept s (fsExec s op) i := by
  cases op with
  | mkdir tick name => exact createEntry_sizeKept .dir id s tick name i
  | createFile tick name =>
    exact createEntry_sizeKept .file (Function.update · 0 0) s tick name i
  | writeFile name buf => exact absurd trivial hop
  | readFile name maxLen => exact sizeKept_of_nodes rfl
  | delete name => exact (fsDelete_cases s name).sizeKept i
  | cd name => exact sizeKept_of_nodes (congrFun (fsCd_nodes s name) i)
  | «open» tick name flags => exact fsOpen_sizeKept s tick name flags i
  | close fd => exact sizeKept_of_nodes (congrFun (fsClose_nodes s fd) i)
  | readFd fd buf n => exact sizeKept_of_nodes (congrFun (fsReadFd_nodes s fd buf n) i)
  | writeFd fd buf => exact absurd trivial hop
  | lseek fd offset whence => exact sizeKept_of_nodes (congrFun (fsLseek_nodes s fd offset whence) i)
  | stat name out => exact sizeKept_of_nodes rfl
  | unlink name => exact (fsUnlink_cases s name).sizeKept i
  | rmdir name => exact (fsRmdir_cases s name).sizeKept i

theorem fsExec_writes_of_grown {s : FsState} {op : FsOp} {i : NodeIdx}
    (hgrow : (s.nodes i).size < ((fsExec s op).nodes i).size) : op.writes := by
  by_contra hop
  rcases fsExec_sizeKept s hop i with ⟨hsize, -⟩ | hzero
  · omega
  · omega

theorem fsExec_used_of_writes {s : FsState} {op : FsOp} (hop : op.writes) {i : NodeIdx}
    (hu : (fsExec s op).used i) : s.used i := by
  -- a write stores a node with the `in_use` it has
  have hset : ∀ (idx : NodeIdx) (n : FsNode), n.inUse = (s.nodes idx).inUse →
      (s.setNode idx n).used i → s.used i := by
    intro idx n hn hi
    by_cases h : i = idx
    · rw [FsState.used, h, FsState.setNode_self, hn] at hi
      rw [FsState.used, h]
      exact hi
    · rw [FsState.used, FsState.setNode_ne _ _ h] at hi
      exact hi
  cases op with
  | writeFile name buf =>
    have hu : (fsWriteFile s name buf).2.used i := hu
    rcases fsWriteFile_cases s name buf with ⟨e, hrun⟩ | ⟨idx, -, -, hrun⟩
    · rw [hrun] at hu
      exact hu
    · rw [hrun] at hu
      exact hset idx ((s.nodes idx).stored buf) rfl hu
  | writeFd fd buf =>
    have hu : (fsWriteFd s fd buf).2.used i := hu
    rcases fsWriteFd_cases s fd buf with ⟨e, hrun⟩ | ⟨_, b, f, node, -, -, hnode, hf, -, hcase⟩
    · rw [hrun] at hu
      exact hu
    · rcases hcase with ⟨-, hrun⟩ | ⟨-, hrun⟩
      · rw [hrun] at hu
        exact hu
      · rw [hrun, hf, FsFd.writeStart_node] at hu
        exact hset _ _ (by rw [hnode]; rfl) hu
  | _ => cases hop

/-- A node that a call takes into use starts with size 0. -/
theorem fsExec_created {s : FsState} {op : FsOp} {i : NodeIdx} (hnew : ¬ s.used i)
    (hu : (fsExec s op).used i) : ((fsExec s op).nodes i).size = 0 := by
  have hop : ¬ op.writes := fun hw => hnew (fsExec_used_of_writes hw hu)
  rcases fsExec_sizeKept s hop i with ⟨-, hold⟩ | hzero
  · exact absurd (hold hu) hnew
  · exact hzero

/-- No call turns a file into a directory. -/
theorem fsExec_file {s : FsState} (op : FsOp) {i : NodeIdx} (hu : s.used i)
    (ht : (s.nodes i).type = .file) : ((fsExec s op).nodes i).type = .file := by
  rcases fsExec_cases s op with ⟨-, hs⟩ | ⟨name, -, ⟨e, hs⟩ | ⟨-, hs⟩⟩
  · exact (hs.invariant (fun _ _ hc h => hc.keeps_file h) ⟨hu, ht⟩).2
  · rw [show fsExec s op = s from (Prod.ext_iff.mp hs).2]
    exact ht
  · have ⟨idx, _, _, _, hs'⟩ := hs.spec
    rw [show fsExec s op = s.free idx from hs', type_free]
    exact ht

/-! ## Writes that grow a file -/

theorem memcpyAt_take {data : ℕ → UInt8} {off len j : ℕ} {buf : List UInt8}
    (hlen : len ≤ buf.length) (hlo : off ≤ j) (hhi : j < off + len) :
    memcpyAt data off (buf.take len) j = buf.getD (j - off) 0 := by
  have htake : (buf.take len).length = len := List.length_take_of_le hlen
  unfold memcpyAt
  rw [if_pos (by omega), List.getD_eq_getElem?_getD, List.getElem?_take_of_lt (by omega),
    ← List.getD_eq_getElem?_getD]

/-- A longer content is the buffer. -/
theorem fsWriteFile_grown {s : FsState} {name : CStr} {buf : List UInt8} {g : NodeIdx}
    (hgrow : (s.nodes g).size < ((fsWriteFile s name buf).2.nodes g).size) {j : ℕ}
    (hj : j < ((fsWriteFile s name buf).2.nodes g).size) :
    ((fsWriteFile s name buf).2.nodes g).data j = buf.getD j 0 := by
  rcases fsWriteFile_cases s name buf with ⟨e, hrun⟩ | ⟨idx, -, -, hrun⟩
  · rw [hrun] at hgrow
    exact absurd hgrow (lt_irrefl _)
  · rw [hrun] at hgrow hj ⊢
    by_cases hg : g = idx
    · rw [hg, FsState.setNode_self] at hj ⊢
      have hj : j < min buf.length (fsMaxData - 1) := hj
      show Function.update (memcpyAt (s.nodes idx).data 0 (buf.take (fsMaxData - 1)))
        (min buf.length (fsMaxData - 1)) 0 j = _
      rw [Function.update_of_ne (by omega), List.take_eq_take_min, min_comm,
        memcpyAt_take (min_le_left _ _) (Nat.zero_le j) (by omega), Nat.sub_zero]
    · rw [FsState.setNode_ne _ _ hg] at hgrow
      exact absurd hgrow (lt_irrefl _)

/-- A write that makes a file longer stores the buffer from its start to the new end. -/
theorem fsWriteFd_grown {s : FsState} {fd : ℤ} {buf : Option (List UInt8)} {g : NodeIdx}
    (hgrow : (s.nodes g).size < ((fsWriteFd s fd buf).2.nodes g).size) :
    ∃ i b f, openFd s fd = some i ∧ buf = some b ∧ (s.fdTable i).node = g ∧
      f = (s.fdTable i).writeStart (s.nodes g) ∧ f.flags &&& 0x3 ≠ oRdonly ∧
      f.offset < fsMaxData - 1 ∧
      ∀ j, f.offset ≤ j → j < ((fsWriteFd s fd buf).2.nodes g).size →
        ((fsWriteFd s fd buf).2.nodes g).data j = b.getD (j - f.offset) 0 := by
  rcases fsWriteFd_cases s fd buf with ⟨e, hrun⟩ | ⟨i, b, f, node, hopen, hb, hnode, hf, hacc, hcase⟩
  · rw [hrun] at hgrow
    exact absurd hgrow (lt_irrefl _)
  · rcases hcase with ⟨-, hrun⟩ | ⟨hroom, hrun⟩
    · rw [hrun] at hgrow
      exact absurd hgrow (lt_irrefl _)
    · have hfn : f.node = (s.fdTable i).node := by rw [hf, FsFd.writeStart_node]
      rw [hrun, hfn] at hgrow ⊢
      by_cases hg : g = (s.fdTable i).node
      -- only the node of the descriptor is stored, with the NUL behind its new end
      · subst hg
        rw [hnode] at hf
        refine ⟨i, b, f, hopen, hb, rfl, hf, hacc, hroom, ?_⟩
        intro j hlo hhi
        rw [FsState.setNode_self] at hgrow hhi ⊢
        have hgrow : (s.nodes (s.fdTable i).node).size < max node.size (f.offset + f.room b) := hgrow
        have hhi : j < max node.size (f.offset + f.room b) := hhi
        rw [hnode] at hgrow hhi
        have hlen : f.room b ≤ b.length := min_le_left _ _
        show Function.update (memcpyAt node.data f.offset (b.take (f.room b)))
          (max node.size (f.offset + f.room b)) 0 j = _
        rw [hnode, Function.update_of_ne (by omega), memcpyAt_take hlen hlo (by omega)]
      · rw [FsState.setNode_ne _ _ hg] at hgrow
        exact absurd hgrow (lt_irrefl _)

/-! ## Agreement of the two runs -/

theorem FsState.Agrees.extend {known known' : NodeIdx → ℕ → Prop} {s t : FsState}
    (h : s.Agrees known t)
    (hdata : ∀ i j, known' i j → known i j ∨ (t.nodes i).data j = (s.nodes i).data j) :
    s.Agrees known' t where
  nodes i :=
    { h.nodes i with
      data := fun j hj => (hdata i j hj).elim ((h.nodes i).data j) id }
  fdTable := h.fdTable
  currentDir := h.currentDir

/-- The part of a file that a call adds is the same in both runs when no hole is left in it. -/
theorem FsState.Agrees.grown {known : NodeIdx → ℕ → Prop} {s t : FsState} (h : s.Agrees known t)
    {op : FsOp} {g : NodeIdx} {peak j : ℕ} (hs : NodeBounds (fsExec s op))
    (ht : NodeBounds (fsExec t op)) (hused : (fsExec s op).used g)
    (hfile : ((fsExec s op).nodes g).type = .file) (hpeak : (s.nodes g).size ≤ peak)
    (hhole : op.StartsWithin s g peak) (hlo : peak < j) (hhi : j ≤ ((fsExec s op).nodes g).size) :
    ((fsExec t op).nodes g).data j = ((fsExec s op).nodes g).data j := by
  have hn := (h.exec op).nodes g
  have hgrow : (s.nodes g).size < ((fsExec s op).nodes g).size := by omega
  have hgrow' : (t.nodes g).size < ((fsExec t op).nodes g).size := by
    rw [hn.size, (h.nodes g).size]
    exact hgrow
  by_cases hend : j = ((fsExec s op).nodes g).size
  · -- both runs end the file with a NUL
    have hleft := hs.terminated g hused hfile
    have hright := ht.terminated g (by rw [FsState.used, hn.inUse]; exact hused)
      (by rw [hn.type]; exact hfile)
    rw [hn.size, ← hend] at hright
    rw [hend] at hright ⊢
    rw [hleft, hright]
  · have hlt : j < ((fsExec s op).nodes g).size := by omega
    have hlt' : j < ((fsExec t op).nodes g).size := by
      rw [hn.size]
      exact hlt
    cases op with
    | writeFile name buf =>
      have hleft := fsWriteFile_grown hgrow hlt
      have hright := fsWriteFile_grown hgrow' hlt'
      exact hright.trans hleft.symm
    | writeFd fd buf =>
      obtain ⟨i, b, f, hopen, hb, hnode, hf, hacc, hroom, hleft⟩ := fsWriteFd_grown hgrow
      obtain ⟨i', b', f', hopen', hb', -, hf', -, -, hright⟩ := fsWriteFd_grown hgrow'
      rw [h.openFd, hopen] at hopen'
      have hi : i' = i := (Option.some.inj hopen').symm
      rw [hb] at hb' hhole
      have hbb : b' = b := (Option.some.inj hb').symm
      have hff : f' = f := by rw [hf', hf, hi, h.fdTable, h.writeStart]
      have hstart : f.offset ≤ peak + 1 := by
        rw [hf] at hacc hroom ⊢
        rw [FsFd.writeStart_flags] at hacc
        exact hhole i hopen hnode hacc hroom
      rw [hff, hbb] at hright
      have hleft := hleft j (by omega) hlt
      have hright := hright j (by omega) hlt'
      exact hright.trans hleft.symm
    | _ => cases fsExec_writes_of_grown hgrow

namespace TwoRuns

/-- All data but that of the slot is the same, and of a new file there the part that was written. -/
def known (r : TwoRuns) (i : NodeIdx) (j : ℕ) : Prop :=
  i ≠ r.slot ∨ ∃ peak, r.phase = .reused i peak ∧ j ≤ peak

structure Inv (r : TwoRuns) : Prop where
  left : fsSystem.Reachable r.left
  right : fsSystem.Reachable r.right
  agree : r.left.Agrees r.known r.right
  reused : ∀ g peak, r.phase = .reused g peak →
    r.left.used g ∧ (r.left.nodes g).type = .file ∧ (r.left.nodes g).size ≤ peak

namespace Inv

variable {r : TwoRuns}

theorem bounds (h : r.Inv) (op op' : FsOp) :
    NodeBounds (fsExec r.left op) ∧ NodeBounds (fsExec r.right op') :=
  ⟨.reachable (.step h.left trivial rfl), .reachable (.step h.right trivial rfl)⟩

/-- A step that ends outside the life of the new file. -/
theorem outside (h : r.Inv) {op op' : FsOp} {phase : ReusePhase}
    (hexec : (fsExec r.left op).Agrees (fun i _ => i ≠ r.slot) (fsExec r.right op'))
    (hphase : ∀ g peak, phase ≠ .reused g peak) : (r.next op op' phase).Inv where
  left := .step h.left trivial rfl
  right := .step h.right trivial rfl
  agree := by
    apply hexec.extend
    rintro i j (hi | ⟨peak, hp, -⟩)
    · exact .inl hi
    · exact absurd hp (hphase i peak)
  reused g peak hp := absurd hp (hphase g peak)

theorem agree_ne (h : r.Inv) : r.left.Agrees (fun i _ => i ≠ r.slot) r.right :=
  h.agree.extend fun _ _ hi => .inl (.inl hi)

theorem write (h : r.Inv) {op op' : FsOp} (hw : WritesTo r.left r.slot op op') :
    (fsExec r.left op).Agrees (fun i _ => i ≠ r.slot) (fsExec r.right op') := by
  cases hw with
  | @file name buf buf' hf hlen =>
    have hbuf : ∀ i, findNode r.left name = some i → ∀ _ : ℕ, ¬ i ≠ r.slot := by
      intro i hi _ hne
      exact hne (Option.some.inj (hi.symm.trans hf))
    exact (h.agree_ne.writeFile name hlen (.inr hbuf)).2
  | @fd fd i buf buf' hopen hnode hlen =>
    have hbuf : ∀ k, openFd r.left fd = some k → ∀ _ : ℕ, ¬ (r.left.fdTable k).node ≠ r.slot := by
      intro k hk _ hne
      rw [Option.some.inj (hk.symm.trans hopen)] at hne
      exact hne hnode
    have hlens : (some buf').map List.length = (some buf).map List.length := congrArg some hlen
    exact (h.agree_ne.writeFd fd hlens (.inr hbuf)).2

theorem create (h : r.Inv) {op : FsOp} {g : NodeIdx} (hnew : ¬ r.left.used g)
    (hused : (fsExec r.left op).used g) (hfile : ((fsExec r.left op).nodes g).type = .file) :
    (r.next op op (.reused g 0)).Inv := by
  have hexec := h.agree_ne.exec op
  have ⟨hleft, hright⟩ := h.bounds op op
  have hsize := fsExec_created hnew hused
  refine ⟨.step h.left trivial rfl, .step h.right trivial rfl, hexec.extend ?_, ?_⟩
  · rintro i j (hi | ⟨peak, hp, hj⟩)
    · exact .inl hi
    · -- the new file is empty, and its first byte is the terminator in both runs
      cases hp
      have hn := hexec.nodes g
      have hj0 : j = 0 := Nat.le_zero.mp hj
      have hl := hleft.terminated g hused hfile
      have hr := hright.terminated g (by rw [FsState.used, hn.inUse]; exact hused)
        (by rw [hn.type]; exact hfile)
      rw [hsize] at hl
      rw [hn.size, hsize] at hr
      right
      rw [hj0]
      exact hr.trans hl.symm
  · intro g' peak hp
    cases hp
    exact ⟨hused, hfile, hsize.le⟩

theorem use (h : r.Inv) {op : FsOp} {g : NodeIdx} {peak : ℕ} (hphase : r.phase = .reused g peak)
    (hused : (fsExec r.left op).used g) (hop : LeavesNoHole r (op, op)) :
    (r.next op op (.reused g (max peak ((fsExec r.left op).nodes g).size))).Inv := by
  have hexec := h.agree.exec op
  have ⟨hleft, hright⟩ := h.bounds op op
  have ⟨hold, htype, hpeak⟩ := h.reused g peak hphase
  have hfile := fsExec_file op hold htype
  refine ⟨.step h.left trivial rfl, .step h.right trivial rfl, hexec.extend ?_, ?_⟩
  · rintro i j (hi | ⟨peak', hp, hj⟩)
    · exact .inl (.inl hi)
    · cases hp
      by_cases hslot : g = r.slot
      · by_cases hj' : j ≤ peak
        · exact .inl (.inr ⟨peak, hphase, hj'⟩)
        · rw [hslot] at hphase
          have hhole := hop peak hphase
          rw [← hslot] at hhole
          right
          exact h.agree.grown hleft hright hused hfile hpeak hhole (not_le.mp hj')
            ((le_max_iff.mp hj).resolve_left hj')
      · exact .inl (.inl hslot)
  · intro g' peak' hp
    cases hp
    exact ⟨hused, hfile, le_max_right _ _⟩

theorem step (h : r.Inv) {ops : FsOp × FsOp} {r' : TwoRuns} (hop : LeavesNoHole r ops)
    (hstep : r.Step ops r') : r'.Inv := by
  have hsame : ∀ op, (fsExec r.left op).Agrees (fun i _ => i ≠ r.slot) (fsExec r.right op) :=
    fun op => h.agree_ne.exec op
  cases hstep with
  | keep _ _ => exact h.outside (hsame _) (fun _ _ => ReusePhase.noConfusion)
  | write _ hw => exact h.outside (h.write hw) (fun _ _ => ReusePhase.noConfusion)
  | delete _ _ _ => exact h.outside (hsame _) (fun _ _ => ReusePhase.noConfusion)
  | between _ => exact h.outside (hsame _) (fun _ _ => ReusePhase.noConfusion)
  | create _ hnew hused hfile => exact h.create hnew hused hfile
  | use hphase hused => exact h.use hphase hused hop

theorem reach (hr : twoRunSystem.Reach LeavesNoHole r) : r.Inv := by
  apply hr.invariant
  · rintro r ⟨heq, hreach, -, -, hphase⟩
    refine ⟨hreach, heq ▸ hreach, ?_, fun g peak hp => ?_⟩
    · rw [← heq]
      exact .rfl' _ _
    · rw [hphase] at hp
      cases hp
  · intro r ops r' _ h hop hstep
    exact h.step hop hstep

/-- Up to its size the new file is known. -/
theorem data (h : r.Inv) {g : NodeIdx} {peak j : ℕ} (hphase : r.phase = .reused g peak)
    (hj : j < (r.left.nodes g).size) : (r.right.nodes g).data j = (r.left.nodes g).data j := by
  have hpeak := (h.reused g peak hphase).2.2
  exact (h.agree.nodes g).data j (.inr ⟨peak, hphase, by omega⟩)

theorem readFile (h : r.Inv) {g : NodeIdx} {peak : ℕ} (hphase : r.phase = .reused g peak)
    {name : CStr} {maxLen : ℕ} (hpos : 1 ≤ maxLen) (hf : findNode r.left name = some g) :
    fsReadFile r.right name maxLen = fsReadFile r.left name maxLen := by
  have hn := h.agree.nodes g
  unfold fsReadFile
  rw [h.agree.findNode, hf]
  simp only
  rw [hn.type, hn.size]
  split
  · rfl
  · congr 2
    apply bytesAt_congr
    intro j _ hj
    apply h.data hphase
    have hsize := (NodeBounds.reachable h.left).size g
    simp only [fsMaxData] at hsize
    rw [readFile_copyLen (by omega) hpos] at hj
    omega

theorem readFd (h : r.Inv) {g : NodeIdx} {peak : ℕ} (hphase : r.phase = .reused g peak)
    {fd : ℤ} {i : FdIdx} (hopen : openFd r.left fd = some i) (hnode : (r.left.fdTable i).node = g)
    (buf : Bool) (n : ℕ) :
    (fsReadFd r.right fd buf n).1 = (fsReadFd r.left fd buf n).1 ∧
      (fsReadFd r.right fd buf n).2.1 = (fsReadFd r.left fd buf n).2.1 := by
  have hn := h.agree.nodes g
  unfold fsReadFd
  rw [h.agree.openFd, hopen]
  simp only
  rw [h.agree.fdTable, hnode, hn.size]
  split
  · exact ⟨rfl, rfl⟩
  · split
    · exact ⟨rfl, rfl⟩
    · split
      · exact ⟨rfl, rfl⟩
      · refine ⟨rfl, bytesAt_congr fun j _ hj => h.data hphase ?_⟩
        split at hj
        · omega
        · omega

theorem noLeak (h : r.Inv) : NoLeak r := by
  intro g peak hphase op hop hreads
  cases op with
  | readFile name maxLen =>
    have hrun := h.readFile hphase hop hreads
    show FsReply.mk (fsReadFile r.right name maxLen).1 (fsReadFile r.right name maxLen).2 none = _
    rw [hrun]
    rfl
  | readFd fd buf n =>
    have ⟨i, hopen, hnode⟩ := Option.map_eq_some_iff.mp hreads
    have ⟨hcode, hbytes⟩ := h.readFd hphase hopen hnode buf n
    show FsReply.mk (fsReadFd r.right fd buf n).1 (fsReadFd r.right fd buf n).2.1 none = _
    rw [hcode, hbytes]
    rfl
  | _ => cases hreads

end Inv

end TwoRuns

/-- While no write leaves a hole in the new file, its reads do not depend on the bytes that the file
before it in the slot held. -/
theorem no_leak_without_holes (r : TwoRuns) (hr : twoRunSystem.Reach LeavesNoHole r) : NoLeak r :=
  (TwoRuns.Inv.reach hr).noLeak

theorem leavesNoHole_of_phase {r : TwoRuns} {ops : FsOp × FsOp}
    (h : ∀ g peak, r.phase ≠ .reused g peak) : LeavesNoHole r ops :=
  fun peak hp => absurd hp (h _ peak)

def fileA : CStr := .ofString "a"
def fileB : CStr := .ofString "b"

theorem TwoRuns.start {s : FsState} {i : NodeIdx} (h : fsSystem.Reachable s) (hu : s.used i)
    (ht : (s.nodes i).type = .file) : twoRunSystem.Reach LeavesNoHole ⟨s, s, i, .kept⟩ :=
  .init ⟨rfl, h, hu, ht, rfl⟩

/-- `a` is created in slot 8. -/
def withFileA : FsState := fsExec (fsInit 0) (.createFile 0 (some fileA))

def slotKept : TwoRuns := ⟨withFileA, withFileA, 8, .kept⟩

/-- `a` gets different bytes in the two runs. -/
def slotWritten : TwoRuns :=
  slotKept.next (.writeFile fileA [1, 1, 1, 1]) (.writeFile fileA [2, 2, 2, 2]) .kept

def slotFreed : TwoRuns := slotWritten.next (.unlink fileA) (.unlink fileA) .deleted

/-- `b` takes the slot. -/
def slotReused : TwoRuns :=
  slotFreed.next (.createFile 0 (some fileB)) (.createFile 0 (some fileB)) (.reused 8 0)

def TwoRuns.uses (r : TwoRuns) (peak : ℕ) (op : FsOp) : TwoRuns :=
  r.next op op (.reused 8 (max peak ((fsExec r.left op).nodes 8).size))

theorem slotReused_reach : twoRunSystem.Reach LeavesNoHole slotReused := by
  have hinit : fsSystem.Reachable (fsInit 0) := .init ⟨0, rfl⟩
  have hfile : fsSystem.Reachable withFileA :=
    .step (a := .createFile 0 (some fileA)) hinit trivial rfl
  have hkept : twoRunSystem.Reach LeavesNoHole slotKept :=
    TwoRuns.start hfile (by decide +kernel) (by decide +kernel)
  have hwrite : slotKept.Step (.writeFile fileA [1, 1, 1, 1], .writeFile fileA [2, 2, 2, 2])
      slotWritten := .write rfl (.file (by decide +kernel) rfl)
  have hunlink : slotWritten.Step (.unlink fileA, .unlink fileA) slotFreed :=
    .delete rfl (by decide +kernel) (by decide +kernel)
  have hcreate : slotFreed.Step (.createFile 0 (some fileB), .createFile 0 (some fileB))
      slotReused := .create rfl (by decide +kernel) (by decide +kernel) (by decide +kernel)
  apply TransitionSystem.Reach.step _ _ hcreate
  · apply TransitionSystem.Reach.step _ _ hunlink
    · exact .step hkept (leavesNoHole_of_phase fun _ _ => ReusePhase.noConfusion) hwrite
    · exact leavesNoHole_of_phase fun _ _ => ReusePhase.noConfusion
  · exact leavesNoHole_of_phase fun _ _ => ReusePhase.noConfusion

theorem TwoRuns.step_uses {r : TwoRuns} {peak : ℕ} (hphase : r.phase = .reused 8 peak) {op : FsOp}
    (hused : (fsExec r.left op).used 8) : r.Step (op, op) (r.uses peak op) :=
  .use hphase hused

/-- `b` is open for reading and writing as descriptor 0. -/
def reusedOpen : TwoRuns := slotReused.uses 0 (.open 0 (some fileB) oRdwr)

theorem reusedOpen_reach : twoRunSystem.Reach LeavesNoHole reusedOpen := by
  have hopen : slotReused.Step (.open 0 (some fileB) oRdwr, .open 0 (some fileB) oRdwr) reusedOpen :=
    TwoRuns.step_uses rfl (by decide +kernel)
  apply TransitionSystem.Reach.step slotReused_reach _ hopen
  intro peak _
  trivial

theorem reusedOpen_phase : reusedOpen.phase = .reused 8 0 := by decide +kernel

/-- A write to the start of the empty `b`. -/
theorem no_leak_reused : NoLeak (reusedOpen.uses 0 (.writeFd 0 (some [7]))) := by
  have hwrite : reusedOpen.Step (.writeFd 0 (some [7]), .writeFd 0 (some [7]))
      (reusedOpen.uses 0 (.writeFd 0 (some [7]))) :=
    TwoRuns.step_uses reusedOpen_phase (by decide +kernel)
  have hstart : FsOp.StartsWithin reusedOpen.left reusedOpen.slot 0 (.writeFd 0 (some [7])) := by
    unfold FsOp.StartsWithin
    decide +kernel
  have hnoHole : LeavesNoHole reusedOpen (.writeFd 0 (some [7]), .writeFd 0 (some [7])) := by
    intro peak hp
    rw [reusedOpen_phase] at hp
    rw [← (ReusePhase.reused.inj hp).2]
    exact hstart
  exact no_leak_without_holes _ (.step reusedOpen_reach hnoHole hwrite)

/-- The offset of descriptor 0 goes to 3, one byte is written there, and the offset goes back. -/
def holeRun : TwoRuns :=
  ((reusedOpen.uses 0 (.lseek 0 3 seekSet)).uses 0 (.writeFd 0 (some [9]))).uses 4
    (.lseek 0 0 seekSet)

/-- A read of `b` returns bytes of the unlinked `a`. -/
theorem hole_shows_old_bytes : ¬ ∀ r, twoRunSystem.Reachable r → NoLeak r := by
  intro hall
  have hseek : reusedOpen.Step (.lseek 0 3 seekSet, .lseek 0 3 seekSet)
      (reusedOpen.uses 0 (.lseek 0 3 seekSet)) :=
    TwoRuns.step_uses reusedOpen_phase (by decide +kernel)
  have hwrite : (reusedOpen.uses 0 (.lseek 0 3 seekSet)).Step
      (.writeFd 0 (some [9]), .writeFd 0 (some [9]))
      ((reusedOpen.uses 0 (.lseek 0 3 seekSet)).uses 0 (.writeFd 0 (some [9]))) :=
    TwoRuns.step_uses (by decide +kernel) (by decide +kernel)
  have hback : ((reusedOpen.uses 0 (.lseek 0 3 seekSet)).uses 0 (.writeFd 0 (some [9]))).Step
      (.lseek 0 0 seekSet, .lseek 0 0 seekSet) holeRun :=
    TwoRuns.step_uses (by decide +kernel) (by decide +kernel)
  have hopen : twoRunSystem.Reachable reusedOpen := reusedOpen_reach.mono fun _ _ _ => trivial
  have hrun : twoRunSystem.Reachable holeRun :=
    .step (.step (.step hopen trivial hseek) trivial hwrite) trivial hback
  have hleak := hall holeRun hrun 8 4 (by decide +kernel) (.readFd 0 true 4) trivial
    (by decide +kernel)
  revert hleak
  decide +kernel

end MyMisu
