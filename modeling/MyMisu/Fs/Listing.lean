import MyMisu.Fs.Paths
import MyMisu.Lib.FirstFit

/-!
# Listing a directory

`fs_list` writes an entry for each child that still fits in the buffer behind those written before
it; a child that does not fit is left out.
-/

namespace MyMisu

variable {s : FsState}

/-- The nodes in use whose parent is `d`, in slot order. -/
def children (s : FsState) (d : NodeIdx) : List NodeIdx :=
  (List.finRange fsMaxFiles).filter fun i => s.used i ∧ s.parentOf i = some d

/-- The word for a type in a listing. -/
def typeWord : NodeType → List UInt8
  | .dir => (CStr.ofString "DIR ").bytes
  | .file => (CStr.ofString "FILE").bytes
  | .unset => []

/-- The line for a node in a listing. -/
def listEntry (s : FsState) (i : NodeIdx) : List UInt8 :=
  typeWord (s.nodes i).type ++ (CStr.ofString "  ").bytes ++ (s.nameOf i).bytes ++
    (CStr.ofString "\n").bytes

/-- The room a line takes. -/
def entrySize (s : FsState) (i : NodeIdx) : ℕ := (s.nameOf i).bytes.length + 7

/-- What `fs_list` returns and writes when it lists the nodes `l`. -/
def listingOf (s : FsState) (l : List NodeIdx) : ℤ × List UInt8 :=
  ((l.length : ℤ), l.flatMap (listEntry s) ++ [0])

theorem mem_children {d i : NodeIdx} : i ∈ children s d ↔ s.used i ∧ s.parentOf i = some d := by
  unfold children
  rw [List.mem_filter, decide_eq_true_iff]
  exact and_iff_right (List.mem_finRange i)

theorem typeStr_eq {type : NodeType} (h : type = .file ∨ type = .dir) : typeStr type = typeWord type := by
  rcases h with h | h
  · rw [h]
    rfl
  · rw [h]
    rfl

theorem listEntry_length {i : NodeIdx} (h : (s.nodes i).type = .file ∨ (s.nodes i).type = .dir) :
    (listEntry s i).length = entrySize s i := by
  unfold listEntry entrySize
  have htype : (typeWord (s.nodes i).type).length = 4 := by
    rcases h with h | h
    · rw [h]
      rfl
    · rw [h]
      rfl
  have hspaces : (CStr.ofString "  ").bytes.length = 2 := rfl
  have hline : (CStr.ofString "\n").bytes.length = 1 := rfl
  rw [List.length_append, List.length_append, List.length_append, htype, hspaces, hline]
  omega

/-- The bytes of a name up to its terminator. -/
theorem nameOf_take (i : NodeIdx) :
    (s.nodes i).name.bytes.take (strlen (s.nodes i).name.bytes) = (s.nameOf i).bytes :=
  take_strlen _

/-- A child is written if it fits, any other node is passed over. -/
theorem listNode_eq (h : FsTree s) (maxLen : ℕ) (out : ℤ × List UInt8) (i : NodeIdx) :
    listNode s maxLen out i =
      if (s.used i ∧ s.parentOf i = some s.currentDir) ∧ out.2.length + entrySize s i < maxLen then
        (out.1 + 1, out.2 ++ listEntry s i)
      else out := by
  unfold listNode
  simp only
  by_cases hchild : s.used i ∧ s.parentOf i = some s.currentDir
  · have hlen : strlen (s.nodes i).name.bytes = (s.nameOf i).bytes.length := strlen_eq _
    have hsize : out.2.length + 6 + (s.nameOf i).bytes.length + 1 = out.2.length + entrySize s i := by
      unfold entrySize
      omega
    rw [if_pos hchild, nameOf_take, hlen, hsize, typeStr_eq (h.typed i hchild.1)]
    by_cases hfit : out.2.length + entrySize s i < maxLen
    · rw [if_pos hfit, if_pos ⟨hchild, hfit⟩]
      unfold listEntry
      rw [List.append_assoc, List.append_assoc, List.append_assoc, List.append_assoc,
        List.append_assoc]
    · rw [if_neg hfit, if_neg fun hboth => hfit hboth.2]
  · rw [if_neg hchild, if_neg fun hboth => hchild hboth.1]

/-- The loop of `fs_list` over a stretch of the table. -/
theorem foldl_listNode (h : FsTree s) (maxLen : ℕ) (l : List NodeIdx) (out : ℤ × List UInt8) :
    l.foldl (listNode s (maxLen + 1)) out =
      let kept := (l.filter fun i => s.used i ∧ s.parentOf i = some s.currentDir).firstFit
        (entrySize s) (maxLen - out.2.length)
      (out.1 + kept.length, out.2 ++ kept.flatMap (listEntry s)) := by
  induction l generalizing out with
  | nil => simp [List.firstFit]
  | cons i l ih =>
    rw [List.foldl_cons, listNode_eq h, ih]
    by_cases hchild : s.used i ∧ s.parentOf i = some s.currentDir
    · rw [List.filter_cons_of_pos (by simpa using hchild)]
      have hpos : 0 < entrySize s i := Nat.succ_pos _
      by_cases hfit : out.2.length + entrySize s i < maxLen + 1
      · -- the entry is written, and there is less room by its size
        rw [if_pos ⟨hchild, hfit⟩, List.firstFit, if_pos (by omega)]
        have hroom : maxLen - (out.2 ++ listEntry s i).length =
            maxLen - out.2.length - entrySize s i := by
          rw [List.length_append, listEntry_length (h.typed i hchild.1)]
          omega
        simp only [hroom, List.flatMap_cons, List.length_cons, List.append_assoc]
        congr 1
        push_cast
        ring
      · -- an entry without room is left out, and the loop goes on with the next slot
        rw [if_neg fun hboth => hfit hboth.2, List.firstFit, if_neg (by omega)]
    · rw [List.filter_cons_of_neg (by simpa using hchild), if_neg fun hboth => hchild hboth.1]

/-- `fs_list` lists the children that fit, in slot order. -/
theorem fsList_eq (h : FsTree s) (dirName : CStr) (maxLen : ℕ) :
    fsList s dirName (maxLen + 1) =
      listingOf s ((children s s.currentDir).firstFit (entrySize s) maxLen) := by
  unfold fsList
  rw [foldl_listNode h]
  simp only [List.length_nil, Nat.sub_zero, zero_add, List.nil_append]
  rfl

/-- The room the entries of the current directory take together. -/
def listingSize (s : FsState) : ℕ := ((children s s.currentDir).map (entrySize s)).sum

/-- `cmd_ls` sees every child of the current directory. -/
def ListsChildren (s : FsState) (dirName : CStr) : Prop :=
  fsList s dirName 2048 = listingOf s (children s s.currentDir)

theorem listsChildren_iff (h : FsTree s) (dirName : CStr) :
    ListsChildren s dirName ↔ listingSize s ≤ 2047 := by
  unfold ListsChildren listingSize
  rw [fsList_eq h, ← List.firstFit_eq_self_iff]
  constructor
  · intro hall
    have hcount : (((children s s.currentDir).firstFit (entrySize s) 2047).length : ℤ) =
        (children s s.currentDir).length := congrArg Prod.fst hall
    exact (List.firstFit_sublist _ _).eq_of_length (by exact_mod_cast hcount)
  · intro hkept
    rw [hkept]

/-- With a buffer of 2048 bytes `fs_list` leaves out the children whose entries do not fit behind
those already written, and so lists all of them exactly when their entries fit together. -/
theorem list_children (s : FsState) (h : fsSystem.Reachable s) (dirName : CStr) :
    fsList s dirName 2048 =
        listingOf s ((children s s.currentDir).firstFit (entrySize s) 2047) ∧
      (ListsChildren s dirName ↔ listingSize s ≤ 2047) :=
  ⟨fsList_eq (FsTree.reachable h) dirName 2047, listsChildren_iff (FsTree.reachable h) dirName⟩

theorem list_children_start : ListsChildren (fsInit 0) (.ofString "/") :=
  (list_children (fsInit 0) (.init ⟨0, rfl⟩) (.ofString "/")).2.mpr (by decide +kernel)

/-! ## A directory that does not fit -/

theorem listingSize_eq_sum :
    listingSize s =
      ∑ i, if s.used i ∧ s.parentOf i = some s.currentDir then entrySize s i else 0 := by
  unfold listingSize children
  rw [Fin.sum_univ_def]
  induction List.finRange fsMaxFiles with
  | nil => rfl
  | cons i l ih =>
    rw [List.map_cons, List.sum_cons, ← ih]
    by_cases hchild : s.used i ∧ s.parentOf i = some s.currentDir
    · rw [List.filter_cons_of_pos (by simpa using hchild), List.map_cons, List.sum_cons,
        if_pos hchild]
    · rw [List.filter_cons_of_neg (by simpa using hchild), if_neg hchild, zero_add]

/-- A new node adds its own entry. -/
theorem listingSize_create {type : NodeType} {clear : (ℕ → UInt8) → ℕ → UInt8} {tick : ℕ}
    {name : CStr} {idx : NodeIdx} (hunused : ¬ s.used idx) (hlen : name.bytes.length < fsMaxName) :
    listingSize (s.create type clear tick name idx) = listingSize s + (name.bytes.length + 7) := by
  rw [listingSize_eq_sum, listingSize_eq_sum,
    show name.bytes.length + 7 = ∑ i, if i = idx then name.bytes.length + 7 else 0 by
      rw [Finset.sum_ite_eq' Finset.univ, if_pos (Finset.mem_univ _)],
    ← Finset.sum_add_distrib]
  refine Finset.sum_congr rfl fun i _ => ?_
  by_cases hi : i = idx
  · rw [hi, if_pos ⟨(used_create ..).mpr (.inl rfl), parentOf_create_self ..⟩, if_neg fun h => hunused h.1,
      if_pos rfl, zero_add, entrySize, nameOf_create_self _ _ _ _ _ _ hlen]
  · have hold := create_ne s type clear tick name idx hi
    simp only [FsState.used, FsState.parentOf, entrySize, FsState.nameOf, hold, create_currentDir,
      if_neg hi, add_zero]

/-- The names of 31 characters, one for each `k`. -/
def longName (k : ℕ) : CStr := .ofBuffer (UInt8.ofNat (k + 65) :: List.replicate 30 97)

/-- `k` files with long names beside the nodes `fs_init` makes. -/
def crowdedRoot (k : ℕ) : FsState :=
  ((List.range k).map fun j => FsOp.createFile 0 (some (longName j))).foldl fsExec (fsInit 0)

theorem longName_bytes {k : ℕ} (hk : k < 52) :
    (longName k).bytes = UInt8.ofNat (k + 65) :: List.replicate 30 97 := by
  have hmem : k ∈ List.range 52 := List.mem_range.mpr hk
  revert k
  decide

theorem longName_inj {j k : ℕ} (hj : j < 52) (hk : k < 52) (h : longName j = longName k) : j = k := by
  have hbytes := congrArg CStr.bytes h
  rw [longName_bytes hj, longName_bytes hk] at hbytes
  have hnat := congrArg UInt8.toNat (List.cons.inj hbytes).1
  rw [UInt8.toNat_ofNat', UInt8.toNat_ofNat'] at hnat
  omega

/-- What the run to `crowdedRoot k` keeps. -/
structure Crowded (k : ℕ) (s : FsState) : Prop where
  reachable : fsSystem.Reachable s
  fresh : NamesOnly (fun name => ∀ j, k ≤ j → j < 52 → name ≠ longName j) s
  slots : (Finset.univ.filter s.used).card ≤ 8 + k
  size : listingSize s = 87 + 38 * k

theorem Crowded.new {k : ℕ} (h : Crowded k s) (hk : k < 52) : findNode s (longName k) = none := by
  rcases hf : findNode s (longName k) with _ | i
  · rfl
  · have hname := h.fresh i (findNodeIn_some hf).1
      ((FsTree.reachable h.reachable).found_ne_root hf) k le_rfl hk
    exact absurd (findNodeIn_some hf).2.1 hname

theorem findFreeNode_ne_none (h : FsTree s) (hslots : (Finset.univ.filter s.used).card < fsMaxFiles) :
    findFreeNode s ≠ none := by
  intro hnone
  have hall : Finset.univ.filter s.used = Finset.univ := by
    refine Finset.filter_true_of_mem fun i _ => ?_
    by_cases hi : i = 0
    · rw [hi]
      exact h.tree.root_alive
    · exact findFreeNode_none.mp hnone i hi
  rw [hall, Finset.card_univ, Fintype.card_fin] at hslots
  exact lt_irrefl _ hslots

theorem card_used_create_le (type : NodeType) (initData : (ℕ → UInt8) → ℕ → UInt8) (tick : ℕ)
    (name : CStr) (idx : NodeIdx) :
    (Finset.univ.filter (s.create type initData tick name idx).used).card ≤
      (Finset.univ.filter s.used).card + 1 := by
  have hinsert : Finset.univ.filter (s.create type initData tick name idx).used =
      insert idx (Finset.univ.filter s.used) := by
    ext i
    rw [Finset.mem_filter, used_create, Finset.mem_insert, Finset.mem_filter]
    simp only [Finset.mem_univ, true_and]
  rw [hinsert]
  exact Finset.card_insert_le idx (Finset.univ.filter s.used)

theorem Crowded.step {k : ℕ} (h : Crowded k s) (hk : k < 52) :
    Crowded (k + 1) (fsExec s (.createFile 0 (some (longName k)))) := by
  have hslots := h.slots
  have hbytes := longName_bytes hk
  have hlength : (longName k).bytes.length = 31 := by
    rw [hbytes]
    rfl
  have hfree := findFreeNode_ne_none (FsTree.reachable h.reachable) (show _ < 64 by omega)
  rcases createEntry_cases .file (fun data => Function.update data 0 0) s 0 (some (longName k)) with
    ⟨e, -, hno⟩ | ⟨n, idx, hn, -, hlen, -, hidx, hrun⟩
  · -- the name is fit and new, and there is a free slot
    refine absurd (hno (longName k) rfl ?_ ?_ (h.new hk)) hfree
    · rw [hbytes]
      exact List.cons_ne_nil _ _
    · rw [hlength]
      decide
  rw [← Option.some.inj hn] at hlen hrun
  have hstate : fsExec s (.createFile 0 (some (longName k))) =
      s.create .file (fun data => Function.update data 0 0) 0 (longName k) idx :=
    congrArg Prod.snd hrun
  have hunused : ¬ s.used idx := by
    rw [FsState.used, (findFreeNode_some hidx).2]
    decide
  refine ⟨h.reachable.next rfl, ?_, ?_, ?_⟩
  · rw [hstate]
    have hold : NamesOnly (fun name => ∀ j, k + 1 ≤ j → j < 52 → name ≠ longName j) s :=
      fun i hu hi j hj => h.fresh i hu hi j (by omega)
    refine hold.create hlen fun j hj hj52 he => ?_
    have := longName_inj hk hj52 he
    omega
  · rw [hstate]
    have hcard := @card_used_create_le s .file (fun data => Function.update data 0 0) 0 (longName k) idx
    omega
  · rw [hstate, listingSize_create hunused hlen, h.size, hlength]
    omega

theorem crowdedRoot_crowded {k : ℕ} (hk : k ≤ 52) : Crowded k (crowdedRoot k) := by
  induction k with
  | zero =>
    refine ⟨.init ⟨0, rfl⟩, ?_, by decide +kernel, by decide +kernel⟩
    exact .init (by decide +kernel) 0
  | succ k ih =>
    unfold crowdedRoot
    rw [List.range_succ, List.map_append, List.foldl_append]
    exact (ih (by omega)).step (by omega)

/-- With 52 such files the entries take 2063 bytes. -/
theorem crowded_root_cut :
    ¬ ∀ s, fsSystem.Reachable s → ∀ dirName, ListsChildren s dirName := by
  intro hall
  have hcrowded := crowdedRoot_crowded (le_refl 52)
  have hsize := (listsChildren_iff (FsTree.reachable hcrowded.reachable) (.ofString "/")).mp
    (hall _ hcrowded.reachable (.ofString "/"))
  rw [hcrowded.size] at hsize
  omega

end MyMisu
