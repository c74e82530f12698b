import MyMisu.Fs.Calls
import MyMisu.Lib.ParentTree

/-!
# The directory tree

The node table is a parent-pointer tree rooted in slot 0 in every reachable state, whatever calls
were made and however slots were reused: parents are directories in use, siblings have different
names, and the current directory is a directory of the tree.
-/

namespace MyMisu

abbrev FsState.used (s : FsState) (i : NodeIdx) : Prop := (s.nodes i).inUse = true

abbrev FsState.parentOf (s : FsState) (i : NodeIdx) : Option NodeIdx := (s.nodes i).parent

abbrev FsState.nameOf (s : FsState) (i : NodeIdx) : CStr := (s.nodes i).name.str

/-- The invariant of the node table. -/
structure FsTree (s : FsState) : Prop where
  tree : ParentTree s.used s.parentOf 0
  rootDir : (s.nodes 0).type = .dir
  parentDir : ∀ i p, s.used i → s.parentOf i = some p → (s.nodes p).type = .dir
  siblings : ∀ i j, s.used i → s.used j → s.parentOf i = s.parentOf j → s.nameOf i = s.nameOf j →
    i = j
  named : ∀ i, s.used i → (s.nameOf i).bytes ≠ [] ∧ (s.nameOf i).bytes.length < fsMaxName
  typed : ∀ i, s.used i → (s.nodes i).type = .file ∨ (s.nodes i).type = .dir
  cwdUsed : s.used s.currentDir
  cwdDir : (s.nodes s.currentDir).type = .dir

/-- Two nodes with the same place in the tree. -/
def FsNode.SamePlace (n m : FsNode) : Prop :=
  n.inUse = m.inUse ∧ n.parent = m.parent ∧ n.name = m.name ∧ n.type = m.type

section Tables

variable (s : FsState) (type : NodeType) (clear : (ℕ → UInt8) → ℕ → UInt8) (tick : ℕ) (name : CStr)
  (idx : NodeIdx)

theorem create_self :
    (s.create type clear tick name idx).nodes idx =
      newNode (s.nodes idx) type clear tick name s.currentDir :=
  FsState.setNode_self ..

theorem create_ne {j : NodeIdx} (hj : j ≠ idx) :
    (s.create type clear tick name idx).nodes j = s.nodes j :=
  FsState.setNode_ne _ _ hj

@[simp] theorem create_currentDir :
    (s.create type clear tick name idx).currentDir = s.currentDir := rfl

@[simp] theorem create_fdTable : (s.create type clear tick name idx).fdTable = s.fdTable := rfl

theorem used_create (j : NodeIdx) :
    (s.create type clear tick name idx).used j ↔ j = idx ∨ s.used j := by
  by_cases hj : j = idx
  · subst hj
    simp [FsState.used, create_self, newNode]
  · simp [FsState.used, create_ne _ _ _ _ _ _ hj, hj]

theorem nameOf_create_self (hlen : name.bytes.length < fsMaxName) :
    (s.create type clear tick name idx).nameOf idx = name := by
  rw [FsState.nameOf, create_self]
  exact NameArray.str_store _ hlen

theorem nameOf_create_ne {j : NodeIdx} (hj : j ≠ idx) :
    (s.create type clear tick name idx).nameOf j = s.nameOf j := by
  rw [FsState.nameOf, create_ne _ _ _ _ _ _ hj]

theorem parentOf_create_self :
    (s.create type clear tick name idx).parentOf idx = some s.currentDir := by
  rw [FsState.parentOf, create_self]
  rfl

theorem parentOf_create_ne {j : NodeIdx} (hj : j ≠ idx) :
    (s.create type clear tick name idx).parentOf j = s.parentOf j := by
  rw [FsState.parentOf, create_ne _ _ _ _ _ _ hj]

theorem used_free (j : NodeIdx) : (s.free idx).used j ↔ j ≠ idx ∧ s.used j := by
  by_cases hj : j = idx
  · subst hj
    simp [FsState.used, FsState.free]
  · simp [FsState.used, FsState.free, hj]

theorem free_nodes (j : NodeIdx) :
    (s.free idx).nodes j = { s.nodes j with inUse := ((s.free idx).nodes j).inUse } := by
  unfold FsState.free
  by_cases hj : j = idx
  · subst hj; simp
  · simp [hj]

@[simp] theorem parentOf_free (j : NodeIdx) : (s.free idx).parentOf j = s.parentOf j := by
  rw [FsState.parentOf, free_nodes]

@[simp] theorem nameOf_free (j : NodeIdx) : (s.free idx).nameOf j = s.nameOf j := by
  rw [FsState.nameOf, free_nodes]

@[simp] theorem type_free (j : NodeIdx) : ((s.free idx).nodes j).type = (s.nodes j).type := by
  rw [free_nodes]

end Tables

namespace FsTree

theorem rootParent {s : FsState} (h : FsTree s) : (s.nodes 0).parent = none := h.tree.root_parent

theorem empty : FsTree fsEmpty := by
  have hused : ∀ i, fsEmpty.used i → i = 0 := by
    intro i hi
    by_contra h
    simp [FsState.used, fsEmpty, FsNode.zero, h] at hi
  refine ⟨⟨rfl, rfl, fun hi _ => hused _ hi, ?_, fun _ => 0, ?_⟩, rfl, ?_, ?_, ?_, ?_, rfl, rfl⟩
  · intro i p hi hp; rw [hused i hi] at hp; cases hp
  · intro i p hi hp; rw [hused i hi] at hp; cases hp
  · intro i p hi hp; rw [hused i hi] at hp; cases hp
  · intro i j hi hj _ _; rw [hused i hi, hused j hj]
  · intro i hi; rw [hused i hi]; decide
  · intro i hi; rw [hused i hi]; exact .inr rfl

theorem congr {s s' : FsState} (h : FsTree s) (hnodes : ∀ i, (s'.nodes i).SamePlace (s.nodes i))
    (hcwd : s'.currentDir = s.currentDir) : FsTree s' := by
  have hu : ∀ i, s'.used i ↔ s.used i := fun i => by rw [FsState.used, (hnodes i).1]
  have hp : ∀ i, s'.parentOf i = s.parentOf i := fun i => (hnodes i).2.1
  have hn : ∀ i, s'.nameOf i = s.nameOf i := fun i => congrArg NameArray.str (hnodes i).2.2.1
  have ht : ∀ i, (s'.nodes i).type = (s.nodes i).type := fun i => (hnodes i).2.2.2
  refine ⟨h.tree.congr hu hp, (ht 0).trans h.rootDir, ?_, ?_, ?_, ?_, ?_, ?_⟩
  · intro i p hi hpar
    rw [ht]; exact h.parentDir i p ((hu i).mp hi) (hp i ▸ hpar)
  · intro i j hi hj hpar hname
    rw [hp, hp] at hpar
    rw [hn, hn] at hname
    exact h.siblings i j ((hu i).mp hi) ((hu j).mp hj) hpar hname
  · intro i hi; rw [hn]; exact h.named i ((hu i).mp hi)
  · intro i hi; rw [ht]; exact h.typed i ((hu i).mp hi)
  · rw [hcwd]; exact (hu _).mpr h.cwdUsed
  · rw [hcwd, ht]; exact h.cwdDir

/-- The new name differs from those of its siblings, or `find_node` would have found one. -/
theorem create_siblings {s : FsState} (h : FsTree s) {type : NodeType}
    {clear : (ℕ → UInt8) → ℕ → UInt8} {tick : ℕ} {name : CStr} {idx : NodeIdx}
    (hlen : name.bytes.length < fsMaxName) (hnew : findNode s name = none) (hidx : ¬ s.used idx)
    {i j : NodeIdx} (hi : (s.create type clear tick name idx).used i)
    (hj : (s.create type clear tick name idx).used j)
    (hp : (s.create type clear tick name idx).parentOf i = (s.create type clear tick name idx).parentOf j)
    (hn : (s.create type clear tick name idx).nameOf i = (s.create type clear tick name idx).nameOf j) :
    i = j := by
  have hother : ∀ {k}, s.used k → k ≠ idx := fun hk he => hidx (he ▸ hk)
  have hsib : ∀ k, s.used k → s.parentOf k = some s.currentDir → s.nameOf k ≠ name :=
    fun k hk hparent => findNodeIn_none.mp hnew k hk hparent
  rcases (used_create s type clear tick name idx i).mp hi with rfl | hi'
  · rcases (used_create s type clear tick name i j).mp hj with rfl | hj'
    · rfl
    · rw [nameOf_create_self _ _ _ _ _ _ hlen, nameOf_create_ne _ _ _ _ _ _ (hother hj')] at hn
      rw [parentOf_create_self, parentOf_create_ne _ _ _ _ _ _ (hother hj')] at hp
      exact absurd hn.symm (hsib j hj' hp.symm)
  · rw [nameOf_create_ne _ _ _ _ _ _ (hother hi')] at hn
    rw [parentOf_create_ne _ _ _ _ _ _ (hother hi')] at hp
    rcases (used_create s type clear tick name idx j).mp hj with rfl | hj'
    · rw [nameOf_create_self _ _ _ _ _ _ hlen] at hn
      rw [parentOf_create_self] at hp
      exact absurd hn (hsib i hi' hp)
    · rw [nameOf_create_ne _ _ _ _ _ _ (hother hj')] at hn
      rw [parentOf_create_ne _ _ _ _ _ _ (hother hj')] at hp
      exact h.siblings i j hi' hj' hp hn

theorem create {s : FsState} (h : FsTree s) {type : NodeType}
    {clear : (ℕ → UInt8) → ℕ → UInt8} (hk : CreateKind type clear) (tick : ℕ) {name : CStr}
    {idx : NodeIdx} (hne : name.bytes ≠ []) (hlen : name.bytes.length < fsMaxName)
    (hnew : findNode s name = none) (hfree : findFreeNode s = some idx) :
    FsTree (s.create type clear tick name idx) := by
  have hidx : ¬ s.used idx := by
    rw [FsState.used, (findFreeNode_some hfree).2]
    decide
  have hold : ∀ {j}, s.used j → j ≠ idx := fun hj he => hidx (he ▸ hj)
  have hself := create_self s type clear tick name idx
  have hother : ∀ {j}, j ≠ idx → (s.create type clear tick name idx).nodes j = s.nodes j :=
    fun hj => create_ne s type clear tick name idx hj
  have hused := used_create s type clear tick name idx
  refine ⟨h.tree.insert hidx h.cwdUsed hused ?_ ?_, ?_, ?_, ?_, ?_, ?_, ?_, ?_⟩
  · exact parentOf_create_self ..
  · exact fun j hj => parentOf_create_ne _ _ _ _ _ _ hj
  · rw [hother (hold h.tree.root_alive)]; exact h.rootDir
  · intro j p hj hp
    rcases (hused j).mp hj with rfl | hj
    · rw [parentOf_create_self] at hp
      rw [← Option.some.inj hp, hother (hold h.cwdUsed)]
      exact h.cwdDir
    · rw [parentOf_create_ne _ _ _ _ _ _ (hold hj)] at hp
      rw [hother (hold (h.tree.parent_alive hj hp))]
      exact h.parentDir j p hj hp
  · exact fun i j hi hj hp hn => h.create_siblings hlen hnew hidx hi hj hp hn
  · intro j hj
    rcases (hused j).mp hj with rfl | hj
    · rw [nameOf_create_self _ _ _ _ _ _ hlen]
      exact ⟨hne, hlen⟩
    · rw [nameOf_create_ne _ _ _ _ _ _ (hold hj)]
      exact h.named j hj
  · intro j hj
    rcases (hused j).mp hj with rfl | hj
    · rw [hself]
      cases hk
      · exact .inr rfl
      · exact .inl rfl
    · rw [hother (hold hj)]; exact h.typed j hj
  · exact (hused _).mpr (.inr h.cwdUsed)
  · rw [create_currentDir, hother (hold h.cwdUsed)]; exact h.cwdDir

theorem update {s s' : FsState} (hc : FsUpdate s s') (h : FsTree s) : FsTree s' := by
  cases hc with
  | create tick hk hne hlen hnew hfree => exact h.create hk tick hne hlen hnew hfree
  | @store idx data size =>
    refine h.congr (fun j => ?_) rfl
    by_cases hj : j = idx
    · subst hj
      rw [FsState.setNode_self]
      exact ⟨rfl, rfl, rfl, rfl⟩
    · rw [FsState.setNode_ne _ _ hj]
      exact ⟨rfl, rfl, rfl, rfl⟩
  | @chdir idx hidx =>
    have hdir : s.used idx ∧ (s.nodes idx).type = .dir := by
      rcases hidx with hp | rfl | ⟨name, hf, ht⟩
      · exact ⟨h.tree.parent_alive h.cwdUsed hp, h.parentDir _ _ h.cwdUsed hp⟩
      · exact ⟨h.tree.root_alive, h.rootDir⟩
      · exact ⟨(findNodeIn_some hf).1, ht⟩
    exact { h with cwdUsed := hdir.1, cwdDir := hdir.2 }
  | descriptor fd f => exact h.congr (fun _ => ⟨rfl, rfl, rfl, rfl⟩) rfl

theorem found_not_above {s : FsState} (h : FsTree s) {name : CStr} {idx : NodeIdx}
    (hf : findNode s name = some idx) (n : ℕ) : climb s.parentOf n s.currentDir ≠ some idx := by
  intro hc
  apply h.tree.climb_ne_self h.cwdUsed (Nat.succ_pos n)
  rw [ParentTree.climb_add n 1, hc, Option.bind_some, climb, FsState.parentOf,
    (findNodeIn_some hf).2.2]
  rfl

theorem found_ne_root {s : FsState} (h : FsTree s) {name : CStr} {idx : NodeIdx}
    (hf : findNode s name = some idx) : idx ≠ 0 := by
  intro h0
  have hp := (findNodeIn_some hf).2.2
  rw [h0, h.rootParent] at hp
  cases hp

theorem remove {s s' : FsState} {name : CStr} (hr : FsRemove s name s') (h : FsTree s) :
    FsTree s' := by
  rcases hr with @⟨idx, hf, hroot, hempty⟩
  -- a node that is no directory has no children, since parents are directories
  have hleaf : ∀ j, s.used j → s.parentOf j ≠ some idx := by
    intro j hj hp
    rcases hempty with ht | hnone
    · exact ht (h.parentDir j idx hj hp)
    · exact hasChild_false.mp hnone j hj hp
  have hcwd : s.currentDir ≠ idx := fun he => h.found_not_above hf 0 (he ▸ rfl)
  have hused := used_free s idx
  refine ⟨h.tree.remove hroot hleaf hused (parentOf_free s idx), ?_, ?_, ?_, ?_, ?_, ?_, ?_⟩
  · rw [type_free]; exact h.rootDir
  · intro j p hj hp
    rw [parentOf_free] at hp
    rw [type_free]; exact h.parentDir j p ((hused j).mp hj).2 hp
  · intro i j hi hj hp hn
    rw [parentOf_free, parentOf_free] at hp
    rw [nameOf_free, nameOf_free] at hn
    exact h.siblings i j ((hused i).mp hi).2 ((hused j).mp hj).2 hp hn
  · intro j hj; rw [nameOf_free]; exact h.named j ((hused j).mp hj).2
  · intro j hj; rw [type_free]; exact h.typed j ((hused j).mp hj).2
  · exact (hused _).mpr ⟨hcwd, h.cwdUsed⟩
  · rw [type_free]; exact h.cwdDir

theorem exec {s : FsState} (h : FsTree s) (op : FsOp) : FsTree (fsExec s op) :=
  fsExec_invariant (fun _ _ hc h => h.update hc) (fun _ _ _ hr h => h.remove hr) h op

theorem reachable {s : FsState} (h : fsSystem.Reachable s) : FsTree s :=
  fsSystem_invariant empty (fun _ _ hc h => h.update hc) (fun _ _ _ hr h => h.remove hr) h

end FsTree

/-! ## The directory tree of a reachable state -/

/-- The directory tree in the terms of the tables. -/
structure DirectoryTree (s : FsState) : Prop where
  root : s.used 0 ∧ (s.nodes 0).type = .dir ∧ (s.nodes 0).parent = none
  onlyRoot : ∀ i, s.used i → (s.nodes i).parent = none → i = 0
  parents : ∀ i, s.used i → i ≠ 0 →
    ∃ p, (s.nodes i).parent = some p ∧ s.used p ∧ (s.nodes p).type = .dir
  toRoot : ∀ i, s.used i → ∃ n < fsMaxFiles, climb s.parentOf n i = some 0
  siblings : ∀ i j, s.used i → s.used j → (s.nodes i).parent = (s.nodes j).parent →
    cString (s.nodes i).name.bytes = cString (s.nodes j).name.bytes → i = j
  nonempty : ∀ i, s.used i → strlen (s.nodes i).name.bytes ≠ 0
  terminated : ∀ i, s.used i → ∃ k < fsMaxName, (s.nodes i).name.bytes[k]? = some 0
  cwd : s.used s.currentDir ∧ (s.nodes s.currentDir).type = .dir

theorem exec_keeps_above {s : FsState} (h : FsTree s) (op : FsOp) {n : ℕ} {a : NodeIdx}
    (ha : climb s.parentOf n s.currentDir = some a) : (fsExec s op).used a := by
  have hua : s.used a := h.tree.climb_alive h.cwdUsed ha
  have hupdate : ∀ t t', FsUpdate t t' → t.used a → t'.used a := by
    intro t t' hc hu
    cases hc with
    | create tick _ _ _ _ _ => exact (used_create ..).mpr (.inr hu)
    | @store idx =>
      by_cases hj : a = idx
      · subst hj; rw [FsState.used, FsState.setNode_self]; exact hu
      · rw [FsState.used, FsState.setNode_ne _ _ hj]; exact hu
    | chdir _ => exact hu
    | descriptor _ _ => exact hu
  rcases fsExec_cases s op with ⟨-, hs⟩ | ⟨name, -, ⟨e, hs⟩ | ⟨-, hs⟩⟩
  · exact hs.invariant hupdate hua
  · rw [show fsExec s op = s from (Prod.ext_iff.mp hs).2]
    exact hua
  · have ⟨idx, hf, _, _, hs'⟩ := hs.spec
    rw [show fsExec s op = s.free idx from hs']
    exact (used_free s idx a).mpr ⟨fun he => h.found_not_above hf n (he ▸ ha), hua⟩

theorem FsTree.directoryTree {s : FsState} (h : FsTree s) : DirectoryTree s := by
  refine ⟨⟨h.tree.root_alive, h.rootDir, h.tree.root_parent⟩, fun i => h.tree.root_unique, ?_, ?_,
    ?_, ?_, ?_, h.cwdUsed, h.cwdDir⟩
  · intro i hi hne
    cases hp : (s.nodes i).parent with
    | none => exact absurd (h.tree.root_unique hi hp) hne
    | some p => exact ⟨p, rfl, h.tree.parent_alive hi hp, h.parentDir i p hi hp⟩
  · intro i hi
    have ⟨n, hn, hc⟩ := h.tree.climb_root hi
    exact ⟨n, by rwa [Fintype.card_fin] at hn, hc⟩
  · intro i j hi hj hp hn
    exact h.siblings i j hi hj hp (CStr.ext_bytes hn)
  · intro i hi
    rw [strlen_eq]
    exact fun h0 => (h.named i hi).1 (List.length_eq_zero_iff.mp h0)
  · intro i hi
    have hlen : (cString (s.nodes i).name.bytes).length < fsMaxName := (h.named i hi).2
    exact ⟨_, hlen, cString_terminator (by rw [(s.nodes i).name.size]; exact hlen)⟩

/-- Every reachable state is a directory tree, and no call removes the current directory or one of
its ancestors. -/
theorem directory_tree_invariant (s : FsState) (h : fsSystem.Reachable s) :
    DirectoryTree s ∧ ∀ op n a, climb s.parentOf n s.currentDir = some a → (fsExec s op).used a :=
  ⟨(FsTree.reachable h).directoryTree, fun op _ _ => exec_keeps_above (FsTree.reachable h) op⟩

theorem directory_tree_invariant_start :
    DirectoryTree (fsInit 0) ∧ ∀ op n a,
      climb (fsInit 0).parentOf n (fsInit 0).currentDir = some a → (fsExec (fsInit 0) op).used a :=
  directory_tree_invariant (fsInit 0) (.init ⟨0, rfl⟩)

end MyMisu
