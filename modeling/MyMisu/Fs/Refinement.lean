import MyMisu.Fs.TreeInvariant
import MyMisu.Fs.TreeModel

/-!
# The tables refine the tree

The tree a table stands for: a path leads to a node by `find_node` from directory to directory, and
the current directory has the path read off its parent pointers.  Every call that takes a name
replies as its tree operation and leaves the tables standing for its result, whichever slots were
chosen.
-/

namespace MyMisu

/-- The node a path leads to. -/
def walk (s : FsState) : List CStr → Option NodeIdx
  | [] => some 0
  | n :: p => (walk s p).bind fun d => findNodeIn s d n

/-- The names from a node up to the root, innermost first. -/
def pathOf (s : FsState) : ℕ → NodeIdx → List CStr
  | 0, _ => []
  | k + 1, i =>
    match s.parentOf i with
    | none => []
    | some d => s.nameOf i :: pathOf s k d

abbrev FsState.LeadsTo (s : FsState) : List CStr → NodeIdx → Prop :=
  PathTo s.used s.parentOf s.nameOf 0

theorem leadsTo_nil {s : FsState} {i : NodeIdx} : s.LeadsTo [] i ↔ i = 0 := ParentTree.pathTo_nil

theorem leadsTo_cons {s : FsState} {n : CStr} {p : List CStr} {i : NodeIdx} :
    s.LeadsTo (n :: p) i ↔
      s.nameOf i = n ∧ s.used i ∧ ∃ d, s.parentOf i = some d ∧ s.LeadsTo p d :=
  ParentTree.pathTo_cons

/-- What a node is in the tree. -/
def FsNode.entry (node : FsNode) : Entry (List UInt8) :=
  if node.type = .dir then .dir else .file (bytesAt node.data 0 node.size)

namespace FsTree

theorem walk_eq_some {s : FsState} (h : FsTree s) {p : List CStr} {i : NodeIdx} :
    walk s p = some i ↔ s.LeadsTo p i := by
  -- on the path; sibling names differ, so the first match of the search is the only one
  induction p generalizing i with
  | nil =>
    rw [leadsTo_nil]
    exact ⟨fun hi => (Option.some.inj hi).symm, fun hi => hi ▸ rfl⟩
  | cons n p ih =>
    rw [leadsTo_cons, walk, Option.bind_eq_some_iff]
    constructor
    · intro ⟨d, hd, hf⟩
      have ⟨hu, hn, hp⟩ := findNodeIn_some hf
      exact ⟨hn, hu, d, hp, ih.mp hd⟩
    · intro ⟨hn, hu, d, hp, hd⟩
      refine ⟨d, ih.mpr hd, findNodeIn_eq_some hu hn hp ?_⟩
      intro j hj hpj hnj
      exact h.siblings j i hj hu (hpj.trans hp.symm) (hnj.trans hn.symm)

theorem pathOf_eq_of_le {s : FsState} (h : FsTree s) {p : List CStr} {i : NodeIdx}
    (hp : s.LeadsTo p i) {k : ℕ} (hk : p.length ≤ k) : pathOf s k i = p := by
  induction hp generalizing k with
  | root =>
    cases k with
    | zero => rfl
    | succ k =>
      unfold pathOf
      rw [h.tree.root_parent]
  | child _ _ hpar ih =>
    cases k with
    | zero => simp at hk
    | succ k =>
      unfold pathOf
      rw [hpar]
      simp only
      rw [ih (by simpa using hk)]

theorem pathOf_eq {s : FsState} (h : FsTree s) {p : List CStr} {i : NodeIdx}
    (hp : s.LeadsTo p i) : pathOf s fsMaxFiles i = p := by
  apply h.pathOf_eq_of_le hp
  have hlt := h.tree.pathTo_length_lt hp
  rw [Fintype.card_fin] at hlt
  omega

theorem pathTo_pathOf {s : FsState} (h : FsTree s) {i : NodeIdx} (hi : s.used i) :
    s.LeadsTo (pathOf s fsMaxFiles i) i := by
  have ⟨p, hp⟩ := h.tree.exists_pathTo s.nameOf hi
  rwa [h.pathOf_eq hp]

theorem walk_cwd {s : FsState} (h : FsTree s) :
    walk s (pathOf s fsMaxFiles s.currentDir) = some s.currentDir :=
  h.walk_eq_some.mpr (h.pathTo_pathOf h.cwdUsed)

theorem pathTo_inj {s : FsState} (h : FsTree s) {p : List CStr} {i j : NodeIdx}
    (hi : s.LeadsTo p i) (hj : s.LeadsTo p j) : i = j :=
  ParentTree.pathTo_functional h.siblings hi hj

end FsTree

theorem FsNode.entry_dir {node : FsNode} (h : node.type = .dir) : node.entry = .dir := if_pos h

theorem FsNode.entry_file {node : FsNode} (h : node.type = .file) :
    node.entry = .file (bytesAt node.data 0 node.size) :=
  if_neg (by rw [h]; decide)

/-- The tree the tables stand for. -/
def treeOf (s : FsState) (h : FsTree s) : FileTree where
  entry p := (walk s p).map fun i => (s.nodes i).entry
  cwd := pathOf s fsMaxFiles s.currentDir
  root := by rw [walk, Option.map_some, FsNode.entry_dir h.rootDir]
  parents := by
    intro n p hne
    rw [ne_eq, Option.map_eq_none_iff] at hne
    have ⟨i, hi⟩ := Option.ne_none_iff_exists'.mp hne
    -- a name is found in the directory it has for its parent
    rw [walk, Option.bind_eq_some_iff] at hi
    have ⟨d, hd, hf⟩ := hi
    have ⟨hu, _, hp⟩ := findNodeIn_some hf
    rw [hd, Option.map_some, FsNode.entry_dir (h.parentDir i d hu hp)]
  cwdDir := by rw [h.walk_cwd, Option.map_some, FsNode.entry_dir h.cwdDir]
  finite := by
    -- two paths of the tree end in different slots
    apply Set.Finite.of_injOn (f := walk s) (fun _ _ => Set.mem_univ _) _ Set.finite_univ
    intro p hp q _ hpq
    rw [Set.mem_ofPred_eq, ne_eq, Option.map_eq_none_iff] at hp
    have ⟨i, hi⟩ := Option.ne_none_iff_exists'.mp hp
    exact h.tree.pathTo_unique (h.walk_eq_some.mp hi) (h.walk_eq_some.mp (hpq ▸ hi))

section Lookup

variable {s : FsState} (h : FsTree s)

theorem lookup_treeOf (name : CStr) :
    (treeOf s h).lookup name = (findNode s name).map fun i => (s.nodes i).entry := by
  show (walk s (name :: pathOf s fsMaxFiles s.currentDir)).map _ = _
  rw [walk, h.walk_cwd]
  rfl

theorem pathTo_of_findNode {name : CStr} {idx : NodeIdx} (hf : findNode s name = some idx) :
    s.LeadsTo (name :: (treeOf s h).cwd) idx := by
  have ⟨hu, hn, hp⟩ := findNodeIn_some hf
  exact leadsTo_cons.mpr ⟨hn, hu, _, hp, h.pathTo_pathOf h.cwdUsed⟩

theorem leaf_iff_hasChild {name : CStr} {idx : NodeIdx} (hf : findNode s name = some idx) :
    (treeOf s h).Leaf name ↔ hasChild s idx = false := by
  have hwalk : ∀ m, walk s (m :: name :: (treeOf s h).cwd) = findNodeIn s idx m := by
    intro m
    rw [walk, h.walk_eq_some.mpr (pathTo_of_findNode h hf)]
    rfl
  have hentry : ∀ m, (treeOf s h).entry (m :: name :: (treeOf s h).cwd) = none ↔
      findNodeIn s idx m = none := by
    intro m
    show (walk s _).map _ = none ↔ _
    rw [hwalk, Option.map_eq_none_iff]
  rw [hasChild_false]
  constructor
  · intro hleaf i hu hp
    exact findNodeIn_none.mp ((hentry _).mp (hleaf (s.nameOf i))) i hu hp rfl
  · intro hno m
    exact (hentry m).mpr (findNodeIn_none.mpr fun i hu hp => absurd hp (hno i hu))

theorem count_treeOf : (treeOf s h).count = fsMaxFiles - 1 ↔ findFreeNode s = none := by
  -- paths and slots in use correspond, the root's path to slot 0
  have hpaths : {p | p ≠ [] ∧ (treeOf s h).entry p ≠ none} =
      pathOf s fsMaxFiles '' {i | s.used i ∧ i ≠ 0} := by
    ext p
    constructor
    · intro ⟨hne, hp⟩
      rw [ne_eq, show (treeOf s h).entry p = (walk s p).map _ from rfl,
        Option.map_eq_none_iff] at hp
      have ⟨i, hi⟩ := Option.ne_none_iff_exists'.mp hp
      have hi := h.walk_eq_some.mp hi
      refine ⟨i, ⟨h.tree.pathTo_alive hi, fun h0 => hne ?_⟩, h.pathOf_eq hi⟩
      exact h.tree.pathTo_unique hi (h0 ▸ .root)
    · rintro ⟨i, ⟨hu, h0⟩, rfl⟩
      have hi := h.pathTo_pathOf hu
      refine ⟨fun hnil => ?_, ?_⟩
      · rw [hnil] at hi
        exact h0 (leadsTo_nil.mp hi)
      · show (walk s _).map _ ≠ none
        rw [h.walk_eq_some.mpr hi]
        exact Option.some_ne_none _
  have hinj : Set.InjOn (pathOf s fsMaxFiles) {i | s.used i ∧ i ≠ 0} := by
    intro i hi j hj hij
    exact h.pathTo_inj (h.pathTo_pathOf hi.1) (hij ▸ h.pathTo_pathOf hj.1)
  have hall : {i : NodeIdx | i ≠ 0}.ncard = fsMaxFiles - 1 := by
    rw [Set.ncard_eq_toFinset_card']
    decide
  have hsub : {i | s.used i ∧ i ≠ 0} ⊆ {i : NodeIdx | i ≠ 0} := fun i hi => hi.2
  rw [DirTree.count, hpaths, hinj.ncard_image, findFreeNode_none]
  constructor
  · intro hcount i h0
    -- 63 slots in use are all slots but the root's
    have heq := Set.eq_of_subset_of_ncard_le hsub (by rw [hall, hcount]) (Set.toFinite _)
    have hi : i ∈ {i : NodeIdx | i ≠ 0} := h0
    rw [← heq] at hi
    exact hi.1
  · intro hfull
    rw [← hall]
    congr 1
    ext i
    exact ⟨fun hi => hi.2, fun h0 => ⟨hfull i h0, h0⟩⟩

end Lookup

/-! ## The primitive updates of the tables and of the tree -/

section Entries

variable {s : FsState} (h : FsTree s) {p : List CStr}

theorem entry_treeOf {i : NodeIdx} (hp : s.LeadsTo p i) :
    (treeOf s h).entry p = some (s.nodes i).entry := by
  show (walk s p).map _ = _
  rw [h.walk_eq_some.mpr hp]
  rfl

theorem entry_treeOf_none (hp : ∀ i, ¬ s.LeadsTo p i) : (treeOf s h).entry p = none := by
  show (walk s p).map _ = none
  rw [Option.map_eq_none_iff]
  by_contra hne
  have ⟨i, hi⟩ := Option.ne_none_iff_exists'.mp hne
  exact hp i (h.walk_eq_some.mp hi)

theorem treeOf_eq {t : FileTree}
    (hentry : ∀ p i, s.LeadsTo p i → t.entry p = some (s.nodes i).entry)
    (hnone : ∀ p, (∀ i, ¬ s.LeadsTo p i) → t.entry p = none)
    (hcwd : s.LeadsTo t.cwd s.currentDir) : treeOf s h = t := by
  apply DirTree.ext
  · ext p : 1
    by_cases hp : ∃ i, s.LeadsTo p i
    · have ⟨i, hi⟩ := hp
      rw [entry_treeOf h hi, hentry p i hi]
    · have hp : ∀ i, ¬ s.LeadsTo p i := fun i hi => hp ⟨i, hi⟩
      rw [entry_treeOf_none h hp, hnone p hp]
  · exact h.pathOf_eq hcwd

theorem leadsTo_cwd : s.LeadsTo (treeOf s h).cwd s.currentDir := h.pathTo_pathOf h.cwdUsed

theorem leadsTo_congr {s' : FsState} (hnodes : ∀ i, (s'.nodes i).SamePlace (s.nodes i))
    {i : NodeIdx} : s'.LeadsTo p i ↔ s.LeadsTo p i := by
  have hu : s'.used = s.used := by
    ext i
    rw [FsState.used, (hnodes i).1]
  have hp : s'.parentOf = s.parentOf := by
    ext i : 1
    exact (hnodes i).2.1
  have hn : s'.nameOf = s.nameOf := by
    ext i : 1
    exact congrArg NameArray.str (hnodes i).2.2.1
  unfold FsState.LeadsTo
  rw [hu, hp, hn]

end Entries

section Updates

variable {s : FsState} (h : FsTree s) {name : CStr} {idx : NodeIdx}

theorem treeOf_create {type : NodeType} {clear : (ℕ → UInt8) → ℕ → UInt8} {tick : ℕ}
    {e : Entry (List UInt8)}
    (he : (newNode (s.nodes idx) type clear tick name s.currentDir).entry = e)
    (hlen : name.bytes.length < fsMaxName) (hfree : findFreeNode s = some idx)
    (hnew : (treeOf s h).lookup name = none) (h' : FsTree (s.create type clear tick name idx)) :
    treeOf (s.create type clear tick name idx) h' = (treeOf s h).insert name e hnew := by
  have hidx : ¬ s.used idx := by
    rw [FsState.used, (findFreeNode_some hfree).2]
    decide
  have hother : ∀ j, j ≠ idx → (s.create type clear tick name idx).nodes j = s.nodes j :=
    fun j hj => create_ne s type clear tick name idx hj
  have hleads : ∀ p j, (s.create type clear tick name idx).LeadsTo p j ↔
      -- the new node adds one path, from the current directory
      (p = name :: (treeOf s h).cwd ∧ j = idx) ∨ s.LeadsTo p j := by
    intro p j
    unfold FsState.LeadsTo
    rw [h.tree.pathTo_insert_iff hidx (leadsTo_cwd h) (used_create s type clear tick name idx)
        (by rw [FsState.parentOf, create_self]; rfl)
        (fun j hj => by rw [FsState.parentOf, hother j hj])
        (fun j hj => by rw [FsState.nameOf, hother j hj]),
      nameOf_create_self s type clear tick name idx hlen]
  have hold : ∀ p j, s.LeadsTo p j → p ≠ name :: (treeOf s h).cwd := by
    intro p j hp he
    have hsome := entry_treeOf h (he ▸ hp)
    rw [show (treeOf s h).entry _ = none from hnew] at hsome
    cases hsome
  apply treeOf_eq h'
  · intro p j hp
    show Function.update (treeOf s h).entry _ _ p = _
    rcases (hleads p j).mp hp with ⟨rfl, rfl⟩ | hp
    · rw [Function.update_self, create_self, he]
    · have hj : j ≠ idx := fun he => hidx (he ▸ h.tree.pathTo_alive hp)
      rw [Function.update_of_ne (hold p j hp), hother j hj, entry_treeOf h hp]
  · intro p hp
    show Function.update (treeOf s h).entry _ _ p = _
    rw [Function.update_of_ne fun he => hp idx ((hleads p idx).mpr (.inl ⟨he, rfl⟩))]
    exact entry_treeOf_none h fun j hj => hp j ((hleads p j).mpr (.inr hj))
  · exact (hleads _ _).mpr (.inr (leadsTo_cwd h))

theorem treeOf_store {node : FsNode} {b : List UInt8} (hf : findNode s name = some idx)
    (hfile : (s.nodes idx).type = .file) (hsame : node.SamePlace (s.nodes idx))
    (hb : node.entry = .file b) (h' : FsTree (s.setNode idx node)) :
    treeOf (s.setNode idx node) h' = (treeOf s h).rewrite name b := by
  have hnodes : ∀ j, ((s.setNode idx node).nodes j).SamePlace (s.nodes j) := by
    intro j
    by_cases hj : j = idx
    · rw [hj, FsState.setNode_self]
      exact hsame
    · rw [FsState.setNode_ne _ _ hj]
      exact ⟨rfl, rfl, rfl, rfl⟩
  have hidx := pathTo_of_findNode h hf
  apply treeOf_eq h'
  · intro p j hp
    -- a store moves no path
    have hp := (leadsTo_congr hnodes).mp hp
    show (if p = name :: (treeOf s h).cwd then _ else _) = _
    by_cases hpn : p = name :: (treeOf s h).cwd
    · rw [hpn] at hp
      rw [if_pos hpn, hpn, h.pathTo_inj hp hidx, FsState.setNode_self, hb, entry_treeOf h hidx,
        FsNode.entry_file hfile]
      rfl
    · have hj : j ≠ idx := fun he => hpn (h.tree.pathTo_unique (he ▸ hp) hidx)
      rw [if_neg hpn, FsState.setNode_ne _ _ hj, entry_treeOf h hp]
  · intro p hp
    have hp : ∀ j, ¬ s.LeadsTo p j := fun j hj => hp j ((leadsTo_congr hnodes).mpr hj)
    show (if _ then _ else _) = _
    rw [entry_treeOf_none h hp]
    split <;> rfl
  · exact (leadsTo_congr hnodes).mpr (leadsTo_cwd h)

theorem treeOf_free (hf : findNode s name = some idx) (hroot : idx ≠ 0)
    (hleaf : (treeOf s h).Leaf name) (h' : FsTree (s.free idx)) :
    treeOf (s.free idx) h' = (treeOf s h).erase name hleaf := by
  have hempty := hasChild_false.mp ((leaf_iff_hasChild h hf).mp hleaf)
  -- a leaf takes its own path with it and no other
  have hleads : ∀ p j, (s.free idx).LeadsTo p j ↔ j ≠ idx ∧ s.LeadsTo p j := fun p j =>
    ParentTree.pathTo_remove_iff hroot hempty (used_free s idx) (parentOf_free s idx)
      (nameOf_free s idx)
  have hidx := pathTo_of_findNode h hf
  apply treeOf_eq h'
  · intro p j hp
    have ⟨hj, hp⟩ := (hleads p j).mp hp
    have hpn : p ≠ name :: (treeOf s h).cwd := fun he => hj (h.pathTo_inj (he ▸ hp) hidx)
    have hnode : (s.free idx).nodes j = s.nodes j := FsState.setNode_ne _ _ hj
    show Function.update (treeOf s h).entry _ _ p = _
    rw [Function.update_of_ne hpn, hnode, entry_treeOf h hp]
  · intro p hp
    show Function.update (treeOf s h).entry _ _ p = _
    by_cases hpn : p = name :: (treeOf s h).cwd
    · rw [hpn, Function.update_self]
    · rw [Function.update_of_ne hpn]
      apply entry_treeOf_none h
      intro j hj
      exact hp j ((hleads p j).mpr
        ⟨fun he => hpn (h.tree.pathTo_unique (he ▸ hj) hidx), hj⟩)
  · have hcwd : s.currentDir ≠ idx := fun he => h.found_not_above hf 0 (he ▸ rfl)
    exact (hleads _ _).mpr ⟨hcwd, leadsTo_cwd h⟩

theorem treeOf_chdir {dir : NodeIdx} {p : List CStr} (hp : s.LeadsTo p dir)
    (hdir : (treeOf s h).entry p = some .dir) (h' : FsTree { s with currentDir := dir }) :
    treeOf { s with currentDir := dir } h' = (treeOf s h).chdir p hdir := by
  apply treeOf_eq h'
  · intro q i hq
    exact entry_treeOf h hq
  · intro q hq
    exact entry_treeOf_none h hq
  · exact hp

end Updates

/-! ## Bytes -/

theorem bytesAt_length (data : ℕ → UInt8) (off len : ℕ) : (bytesAt data off len).length = len := by
  unfold bytesAt
  rw [List.length_map, List.length_range]

theorem take_bytesAt (data : ℕ → UInt8) (off len k : ℕ) :
    (bytesAt data off len).take k = bytesAt data off (min k len) := by
  unfold bytesAt
  rw [← List.map_take, List.take_range]

theorem getElem_bytesAt (data : ℕ → UInt8) (off len : ℕ) {i : ℕ}
    (hi : i < (bytesAt data off len).length) : (bytesAt data off len)[i] = data (off + i) := by
  simp only [bytesAt, List.getElem_map, List.getElem_range]

theorem bytesAt_memcpyAt (data : ℕ → UInt8) (off : ℕ) (src : List UInt8) :
    bytesAt (memcpyAt data off src) off src.length = src := by
  apply List.ext_getElem
  · exact bytesAt_length ..
  · intro i hi hi'
    rw [getElem_bytesAt]
    unfold memcpyAt
    rw [if_pos (by omega), Nat.add_sub_cancel_left, List.getD_eq_getElem?_getD, List.getElem?_eq_getElem hi',
      Option.getD_some]

theorem entry_stored {node : FsNode} (hfile : node.type = .file) (buf : List UInt8) :
    (node.stored buf).entry = .file (buf.take (fsMaxData - 1)) := by
  have hlen : (buf.take (fsMaxData - 1)).length = min buf.length (fsMaxData - 1) := by
    rw [List.length_take, min_comm]
  rw [FsNode.entry_file (by exact hfile)]
  congr 1
  unfold FsNode.stored
  simp only
  rw [← hlen]
  -- the terminator lies behind the copied bytes
  rw [bytesAt_congr fun i _ hi => Function.update_of_ne (by omega) ..]
  exact bytesAt_memcpyAt ..

/-! ## The calls -/

/-- The invariant of the runs without descriptors. -/
structure NamedState (s : FsState) : Prop where
  tree : FsTree s
  small : ∀ i, (s.nodes i).size < fsMaxData
  dirSize : ∀ i, (s.nodes i).type = .dir → (s.nodes i).size = 0

/-- A call replies as the tree operation and its tables stand for the tree the operation returns. -/
def Refines (r : ℤ × FsState) (a : ℤ × FileTree) : Prop :=
  r.1 = a.1 ∧ NamedState r.2 ∧ ∀ h : FsTree r.2, treeOf r.2 h = a.2

section Calls

variable {s : FsState} (h : NamedState s)

include h

theorem Refines.same (code : ℤ) : Refines (code, s) (code, treeOf s h.tree) :=
  ⟨rfl, h, fun _ => rfl⟩

theorem NamedState.setNode {idx : NodeIdx} {node : FsNode} (htree : FsTree (s.setNode idx node))
    (hsmall : node.size < fsMaxData) (hdir : node.type = .dir → node.size = 0) :
    NamedState (s.setNode idx node) := by
  refine ⟨htree, fun j => ?_, fun j => ?_⟩
  · by_cases hj : j = idx
    · rw [hj, FsState.setNode_self]
      exact hsmall
    · rw [FsState.setNode_ne _ _ hj]
      exact h.small j
  · by_cases hj : j = idx
    · rw [hj, FsState.setNode_self]
      exact hdir
    · rw [FsState.setNode_ne _ _ hj]
      exact h.dirSize j

theorem createEntry_refines {type : NodeType} {clear : (ℕ → UInt8) → ℕ → UInt8}
    (hk : CreateKind type clear) {e : Entry (List UInt8)}
    (he : ∀ old tick name dir, (newNode old type clear tick name dir).entry = e) (tick : ℕ)
    (name : Option CStr) :
    Refines (createEntry type clear s tick name) (FileTree.create (treeOf s h.tree) e name) := by
  unfold createEntry FileTree.create
  cases name with
  | none => exact .same h _
  | some name =>
    simp only [CStr.strlen_bytes]
    by_cases hempty : name.bytes = []
    · rw [if_pos hempty, if_pos hempty]
      exact .same h _
    rw [if_neg hempty, if_neg hempty]
    by_cases hlong : fsMaxName ≤ name.bytes.length
    · rw [if_pos hlong, if_pos hlong]
      exact .same h _
    rw [if_neg hlong, if_neg hlong]
    have hlookup := lookup_treeOf h.tree name
    -- from here on the code and the tree operation test in the same order: taken, full, new
    cases hf : findNode s name with
    | some idx =>
      rw [hf] at hlookup
      rw [if_pos Option.isSome_some, dif_neg (by rw [hlookup]; exact Option.some_ne_none _)]
      exact .same h _
    | none =>
      have hnew : (treeOf s h.tree).lookup name = none := by rw [hlookup, hf]; rfl
      rw [if_neg (by decide), dif_pos hnew]
      cases hfree : findFreeNode s with
      | none =>
        rw [if_pos ((count_treeOf h.tree).mpr hfree)]
        exact .same h _
      | some idx =>
        -- a free slot is room in the tree
        have hroom : (treeOf s h.tree).count ≠ fsMaxFiles - 1 := by
          rw [ne_eq, count_treeOf, hfree]
          exact Option.some_ne_none _
        rw [if_neg hroom]
        have htree := h.tree.create hk tick hempty (not_le.mp hlong) hf hfree
        refine ⟨rfl, h.setNode htree (Nat.succ_pos _) (fun _ => rfl), fun h' => ?_⟩
        exact treeOf_create h.tree (he ..) (not_le.mp hlong) hfree hnew h'

theorem fsMkdir_refines (tick : ℕ) (name : Option CStr) :
    Refines (fsMkdir s tick name) (FileTree.create (treeOf s h.tree) .dir name) :=
  createEntry_refines h .dir (fun _ _ _ _ => FsNode.entry_dir rfl) tick name

theorem fsCreateFile_refines (tick : ℕ) (name : Option CStr) :
    Refines (fsCreateFile s tick name) (FileTree.create (treeOf s h.tree) (.file []) name) :=
  createEntry_refines h .file (fun _ _ _ _ => FsNode.entry_file rfl) tick name

theorem found_typed {name : CStr} {idx : NodeIdx} (hf : findNode s name = some idx) :
    (s.nodes idx).type = .file ∨ (s.nodes idx).type = .dir :=
  h.tree.typed idx (findNodeIn_some hf).1

theorem lookup_found {name : CStr} {idx : NodeIdx} (hf : findNode s name = some idx) :
    (treeOf s h.tree).lookup name = some (s.nodes idx).entry := by
  rw [lookup_treeOf, hf, Option.map_some]

theorem lookup_not_found {name : CStr} (hf : findNode s name = none) :
    (treeOf s h.tree).lookup name = none := by
  rw [lookup_treeOf, hf, Option.map_none]

theorem fsWriteFile_refines (name : CStr) (buf : List UInt8) :
    Refines (fsWriteFile s name buf) (FileTree.write (treeOf s h.tree) name buf) := by
  unfold FileTree.write
  cases hf : findNode s name with
  | none =>
    rw [lookup_not_found h hf]
    unfold fsWriteFile
    rw [hf]
    exact .same h _
  | some idx =>
    rw [lookup_found h hf]
    rcases found_typed h hf with hfile | hdir
    · rw [FsNode.entry_file hfile]
      have hsize : min buf.length (fsMaxData - 1) < fsMaxData :=
        lt_of_le_of_lt (min_le_right _ _) (by decide)
      have hsame : ((s.nodes idx).stored buf).SamePlace (s.nodes idx) := ⟨rfl, rfl, rfl, rfl⟩
      have hupdate : FsUpdate s (s.setNode idx ((s.nodes idx).stored buf)) :=
        .store (.inl ⟨(findNodeIn_some hf).1, hfile⟩) (.inl hsize) (Function.update_self ..)
      rw [fsWriteFile_file hf hfile]
      refine ⟨?_, h.setNode (h.tree.update hupdate) hsize ?_, fun h' => ?_⟩
      · rw [List.length_take, min_comm]
      · intro hdir
        rw [show ((s.nodes idx).stored buf).type = _ from hfile] at hdir
        cases hdir
      · exact treeOf_store h.tree hf hfile hsame (entry_stored hfile buf) h'
    · rw [FsNode.entry_dir hdir]
      unfold fsWriteFile
      -- a directory is not written
      rw [hf]
      simp only
      rw [if_pos (by rw [hdir]; decide)]
      exact .same h _

theorem free_refines {name : CStr} {idx : NodeIdx} (hf : findNode s name = some idx)
    (hroot : idx ≠ 0) (hempty : hasChild s idx = false) (hleaf : (treeOf s h.tree).Leaf name) :
    Refines (0, s.free idx) (0, (treeOf s h.tree).erase name hleaf) := by
  have htree : FsTree (s.free idx) := h.tree.remove (.free hf hroot (.inr hempty))
  refine ⟨rfl, h.setNode htree (h.small idx) (h.dirSize idx), fun h' => ?_⟩
  exact treeOf_free h.tree hf hroot hleaf h'

theorem file_hasChild {idx : NodeIdx} (hfile : (s.nodes idx).type = .file) :
    hasChild s idx = false := by
  rw [hasChild_false]
  intro i hu hp
  rw [h.tree.parentDir i idx hu hp] at hfile
  cases hfile

theorem fsDelete_refines (name : CStr) :
    Refines (fsDelete s name) (FileTree.delete (treeOf s h.tree) name) := by
  unfold FileTree.delete fsDelete
  cases hf : findNode s name with
  | none =>
    rw [lookup_not_found h hf]
    exact .same h _
  | some idx =>
    have hroot := h.tree.found_ne_root hf
    have hleaf := leaf_iff_hasChild h.tree hf
    rw [lookup_found h hf]
    simp only
    rw [if_neg hroot]
    by_cases hfull : hasChild s idx = true
    · have hnot : ¬ (treeOf s h.tree).Leaf name := by
        rw [hleaf, hfull]
        decide
      have hdir : (s.nodes idx).type = .dir := by
        -- only a directory is a parent
        rcases found_typed h hf with hfile | hdir
        · rw [file_hasChild h hfile] at hfull
          cases hfull
        · exact hdir
      rw [if_pos ⟨hdir, hfull⟩, dif_neg hnot]
      exact .same h _
    · have hempty := eq_false_of_ne_true hfull
      rw [if_neg fun hc => hfull hc.2, dif_pos (hleaf.mpr hempty)]
      exact free_refines h hf hroot hempty _

theorem fsUnlink_refines (name : CStr) :
    Refines (fsUnlink s name) (FileTree.unlink (treeOf s h.tree) name) := by
  unfold fsUnlink
  cases hf : findNode s name with
  | none =>
    rw [FileTree.unlink_none (lookup_not_found h hf)]
    exact .same h _
  | some idx =>
    have hroot := h.tree.found_ne_root hf
    have hlookup := lookup_found h hf
    simp only
    rw [if_neg hroot]
    rcases found_typed h hf with hfile | hdir
    · have hempty := file_hasChild h hfile
      rw [FsNode.entry_file hfile] at hlookup
      -- the code does not ask for children here: a file has none
      rw [if_neg (not_not.mpr hfile),
        FileTree.unlink_file hlookup ((leaf_iff_hasChild h.tree hf).mpr hempty)]
      exact free_refines h hf hroot hempty _
    · rw [FsNode.entry_dir hdir] at hlookup
      rw [if_pos (by rw [hdir]; decide), FileTree.unlink_dir hlookup]
      exact .same h _

theorem fsRmdir_refines (name : CStr) :
    Refines (fsRmdir s name) (FileTree.rmdir (treeOf s h.tree) name) := by
  unfold FileTree.rmdir fsRmdir
  cases hf : findNode s name with
  | none =>
    rw [lookup_not_found h hf]
    exact .same h _
  | some idx =>
    have hroot := h.tree.found_ne_root hf
    have hleaf := leaf_iff_hasChild h.tree hf
    rw [lookup_found h hf]
    simp only
    rw [if_neg hroot]
    rcases found_typed h hf with hfile | hdir
    · rw [FsNode.entry_file hfile, if_pos (by rw [hfile]; decide)]
      exact .same h _
    · rw [FsNode.entry_dir hdir, if_neg (not_not.mpr hdir)]
      simp only
      by_cases hfull : hasChild s idx = true
      · have hnot : ¬ (treeOf s h.tree).Leaf name := by
          rw [hleaf, hfull]
          decide
        rw [if_pos hfull, dif_neg hnot]
        exact .same h _
      · have hempty := eq_false_of_ne_true hfull
        rw [if_neg hfull, dif_pos (hleaf.mpr hempty)]
        exact free_refines h hf hroot hempty _

theorem chdir_refines {dir : NodeIdx} {p : List CStr} (hp : s.LeadsTo p dir)
    (hdir : (treeOf s h.tree).entry p = some .dir) :
    Refines (0, { s with currentDir := dir }) (0, (treeOf s h.tree).chdir p hdir) := by
  have hused : s.used dir := h.tree.tree.pathTo_alive hp
  -- `.dir` in the tree is read back from the node's own type
  have htype : (s.nodes dir).type = .dir := by
    rw [entry_treeOf h.tree hp] at hdir
    rcases h.tree.typed dir hused with hfile | htype
    · rw [FsNode.entry_file hfile] at hdir
      cases Option.some.inj hdir
    · exact htype
  refine ⟨rfl, ⟨{ h.tree with cwdUsed := hused, cwdDir := htype }, h.small, h.dirSize⟩, fun h' => ?_⟩
  exact treeOf_chdir h.tree hp hdir h'

/-- The path of the working directory without its innermost name is that of the parent; the root is its
own. -/
theorem leadsTo_parent :
    s.LeadsTo (treeOf s h.tree).cwd.tail ((s.nodes s.currentDir).parent.getD s.currentDir) := by
  have hcwd := leadsTo_cwd h.tree
  cases hp : (s.nodes s.currentDir).parent with
  | none =>
    have h0 : s.currentDir = 0 := h.tree.tree.root_unique h.tree.cwdUsed hp
    have hnil : (treeOf s h.tree).cwd = [] :=
      h.tree.tree.pathTo_unique hcwd (by rw [h0]; exact .root)
    rw [hnil, h0]
    exact .root
  | some parent =>
    cases hc : (treeOf s h.tree).cwd with
    | nil =>
      rw [hc] at hcwd
      rw [leadsTo_nil.mp hcwd, h.tree.rootParent] at hp
      cases hp
    | cons n q =>
      rw [hc] at hcwd
      have ⟨_, _, d, hd, hq⟩ := leadsTo_cons.mp hcwd
      rw [FsState.parentOf, hp] at hd
      cases Option.some.inj hd
      exact hq

theorem fsCd_refines (name : CStr) :
    Refines (fsCd s name) (FileTree.cd (treeOf s h.tree) name) := by
  unfold FileTree.cd fsCd
  have htail := leadsTo_parent h
  by_cases hup : name = CStr.ofString ".."
  · rw [if_pos ((strcmp_bytes_iff ..).mpr hup), if_pos hup]
    cases hp : (s.nodes s.currentDir).parent with
    | none =>
      -- at the root, `..` stays
      rw [hp] at htail
      exact chdir_refines h htail _
    | some parent =>
      rw [hp] at htail
      exact chdir_refines h htail _
  rw [if_neg (mt (strcmp_bytes_iff ..).mp hup), if_neg hup]
  -- `/` goes home from anywhere
  by_cases hhome : name = CStr.ofString "/"
  · rw [if_pos ((strcmp_bytes_iff ..).mpr hhome), if_pos hhome]
    exact chdir_refines h .root _
  rw [if_neg (mt (strcmp_bytes_iff ..).mp hhome), if_neg hhome]
  cases hf : findNode s name with
  | none =>
    have hlookup := lookup_not_found h hf
    rw [dif_neg (by rw [hlookup]; intro h; cases h), if_pos hlookup]
    exact .same h _
  | some idx =>
    have hlookup := lookup_found h hf
    simp only
    rcases found_typed h hf with hfile | hdir
    · rw [FsNode.entry_file hfile] at hlookup
      rw [if_pos (by rw [hfile]; decide), dif_neg (by rw [hlookup]; intro h; cases h),
        if_neg (by rw [hlookup]; intro h; cases h)]
      exact .same h _
    · rw [FsNode.entry_dir hdir] at hlookup
      rw [if_neg (not_not.mpr hdir), dif_pos hlookup]
      exact chdir_refines h (pathTo_of_findNode h.tree hf) _

theorem fsReadFile_refines (name : CStr) {maxLen : ℕ} (hpos : 1 ≤ maxLen) :
    fsReadFile s name maxLen = FileTree.read (treeOf s h.tree) name maxLen := by
  unfold FileTree.read fsReadFile
  cases hf : findNode s name with
  | none => rw [lookup_not_found h hf]
  | some idx =>
    rw [lookup_found h hf]
    simp only
    rcases found_typed h hf with hfile | hdir
    · rw [FsNode.entry_file hfile, if_neg (not_not.mpr hfile)]
      simp only
      have hsmall : (s.nodes idx).size < 4096 := h.small idx
      rw [readFile_copyLen (by omega) hpos, min_comm, intOfU32_of_lt (by omega), take_bytesAt,
        bytesAt_length]
    · rw [FsNode.entry_dir hdir, if_pos (by rw [hdir]; decide)]

theorem fsStat_refines (name : Option CStr) (out : Bool) :
    ((fsStat s name out).1, (fsStat s name out).2.map fun st => (st.type, st.size)) =
      FileTree.stat (treeOf s h.tree) name out := by
  unfold FileTree.stat fsStat
  cases name with
  | none => rfl
  | some name =>
    cases out with
    | false => rfl
    | true =>
      simp only [Bool.true_eq_false, if_false]
      cases hf : findNode s name with
      | none => rw [lookup_not_found h hf]; rfl
      | some idx =>
        rw [lookup_found h hf]
        rcases found_typed h hf with hfile | hdir
        · rw [FsNode.entry_file hfile]
          simp only [Option.map_some, hfile, bytesAt_length]
        · rw [FsNode.entry_dir hdir]
          simp only [Option.map_some, hdir, h.dirSize idx hdir]

end Calls

/-! ## Runs -/

theorem Refines.call {r : ℤ × FsState} {a : ℤ × FileTree} (hr : Refines r a) :
    ∃ h' : FsTree r.2,
      a.map TreeReply.ofCode id = ((FsReply.ofCode r.1).view, treeOf r.2 h') := by
  have ⟨hcode, h', htree⟩ := hr
  refine ⟨h'.tree, ?_⟩
  rw [htree h'.tree, hcode]
  rfl

namespace NamedState

theorem empty : NamedState fsEmpty := by
  -- the cleared table is empty slots and the root, all of size 0
  have hsize : ∀ i, (fsEmpty.nodes i).size = 0 := by
    intro i
    show (if i = 0 then _ else FsNode.zero).size = 0
    split <;> rfl
  exact ⟨FsTree.empty, fun i => by rw [hsize]; decide, fun i _ => hsize i⟩

theorem mkdir {s : FsState} (h : NamedState s) (tick : ℕ) (name : Option CStr) :
    NamedState (fsMkdir s tick name).2 :=
  (fsMkdir_refines h tick name).2.1

theorem createFile {s : FsState} (h : NamedState s) (tick : ℕ) (name : Option CStr) :
    NamedState (fsCreateFile s tick name).2 :=
  (fsCreateFile_refines h tick name).2.1

theorem writeFile {s : FsState} (h : NamedState s) (name : CStr) (buf : List UInt8) :
    NamedState (fsWriteFile s name buf).2 :=
  (fsWriteFile_refines h name buf).2.1

theorem init (tick : ℕ) : NamedState (fsInit tick) := by
  unfold fsInit
  apply writeFile
  apply createFile
  apply writeFile
  apply createFile
  apply writeFile
  apply createFile
  apply mkdir
  apply mkdir
  apply mkdir
  apply mkdir
  exact empty

theorem exec {s : FsState} (h : NamedState s) (op : NameOp) : NamedState (fsExec s op.op) := by
  cases op with
  | mkdir tick name => exact h.mkdir tick name
  | createFile tick name => exact h.createFile tick name
  | writeFile name buf => exact h.writeFile name buf
  | readFile name maxLen hpos => exact h
  | delete name => exact (fsDelete_refines h name).2.1
  | cd name => exact (fsCd_refines h name).2.1
  | stat name out => exact h
  | unlink name => exact (fsUnlink_refines h name).2.1
  | rmdir name => exact (fsRmdir_refines h name).2.1

theorem reachable {s : FsState} (hr : nameSystem.Reachable s) : NamedState s := by
  refine hr.invariant ?_ ?_
  · intro s hs
    have ⟨tick, hs⟩ : ∃ tick, s = fsInit tick := hs
    rw [hs]
    exact init tick
  · intro s op s' _ h _ hstep
    rw [hstep]
    exact h.exec op

end NamedState

/-- Every call that takes a name replies as its tree operation, and the tables it leaves stand for
the tree the operation returns. -/
theorem name_calls_refine_tree (s : FsState) (hr : nameSystem.Reachable s) (op : NameOp) :
    ∃ (h : FsTree s) (h' : FsTree (fsExec s op.op)),
      treeCall (treeOf s h) op = ((fsCall s op.op).1.view, treeOf (fsExec s op.op) h') := by
  have h := NamedState.reachable hr
  refine ⟨h.tree, ?_⟩
  cases op with
  | mkdir tick name => exact (fsMkdir_refines h tick name).call
  | createFile tick name => exact (fsCreateFile_refines h tick name).call
  | writeFile name buf => exact (fsWriteFile_refines h name buf).call
  | readFile name maxLen hpos =>
    refine ⟨h.tree, ?_⟩
    -- reads leave the tables alone: only the replies are compared
    show (TreeReply.mk _ _ none, _) = (TreeReply.mk _ _ none, _)
    rw [← fsReadFile_refines h name hpos]
    rfl
  | delete name => exact (fsDelete_refines h name).call
  | cd name => exact (fsCd_refines h name).call
  | stat name out =>
    refine ⟨h.tree, ?_⟩
    show (TreeReply.mk _ [] _, _) = (TreeReply.mk _ [] _, _)
    rw [← fsStat_refines h name out]
    rfl
  | unlink name => exact (fsUnlink_refines h name).call
  | rmdir name => exact (fsRmdir_refines h name).call

theorem name_calls_refine_tree_start :
    ∃ (h : FsTree (fsInit 0)) (h' : FsTree (fsExec (fsInit 0) (.cd (.ofString "home")))),
      treeCall (treeOf (fsInit 0) h) (.cd (.ofString "home")) =
        ((fsCall (fsInit 0) (.cd (.ofString "home"))).1.view,
          treeOf (fsExec (fsInit 0) (.cd (.ofString "home"))) h') :=
  name_calls_refine_tree (fsInit 0) (.init ⟨0, rfl⟩) (.cd (.ofString "home"))

end MyMisu
