import MyMisu.Fs.Bounds
import MyMisu.Fs.Listing
import MyMisu.Lib.TreeWalk
import MyMisu.Shell.Commands

/-!
# Printing the tree

`tree_print_recurse` walks the parent pointers in preorder.  A slot may have a lower number than its
parent, so what bounds the recursion is the depth of the tree.
-/

namespace MyMisu

open Decimal ParentTree

variable {s : FsState}

/-- The calls for a node of the given depth. -/
def treeLine (nodes : NodeIdx → FsNode) (line : ℕ × NodeIdx) : List Console :=
  treeConnector line.1 ++
    if (nodes line.2).type = .dir then
      [.ink vgaLightCyan, .print ((nodes line.2).name.str.bytes ++ ascii "/\n")]
    else
      [.ink vgaLightGrey, .print (nodes line.2).name.str.bytes, .ink vgaDarkGrey,
        .print (ascii "  (" ++ printInt (intOfU32 (nodes line.2).size) ++ ascii " bytes)\n")]

/-- The line of a node: four blanks for each level, a connector, and the name, with a slash or with the size. -/
def treeText (s : FsState) (line : ℕ × NodeIdx) : List UInt8 :=
  List.replicate (4 * line.1) space ++ ascii "|-- " ++ (s.nameOf line.2).bytes ++
    (if (s.nodes line.2).type = .dir then ascii "/"
    else ascii "  (" ++ numeral (s.nodes line.2).size ++ ascii " bytes)") ++ [10]

/-- Lines, each a node with its indentation, that show the tree. -/
structure ShowsTree (s : FsState) (lines : List (ℕ × NodeIdx)) : Prop where
  once : (lines.map Prod.snd).Nodup
  complete : ∀ i, i ∈ lines.map Prod.snd ↔ s.used i ∧ i ≠ 0
  indented : ∀ n i, (n, i) ∈ lines → climb s.parentOf n i = some 0
  /-- Between the line of a directory and that of a node in it there are only lines of nodes deeper
  than the directory. -/
  blocks : ∀ before n i after, lines = before ++ (n, i) :: after → ∃ p, s.parentOf i = some p ∧
    (p = 0 ∧ n = 1 ∨
      ∃ m start between, before = start ++ (m, p) :: between ∧ n = m + 1 ∧ ∀ x ∈ between, n ≤ x.1)

theorem childLists (s : FsState) : ChildLists s.used s.parentOf (children s) where
  mem _ _ := mem_children
  nodup _ := (List.nodup_finRange _).filter _

theorem flatten_map_ite {α β : Type} (p : α → Prop) [DecidablePred p] (f : α → List β) (l : List α) :
    (l.map fun a => if p a then f a else []).flatten = (l.filter p).flatMap f := by
  induction l with
  | nil => rfl
  | cons a l ih =>
    rw [List.map_cons, List.flatten_cons, ih]
    by_cases ha : p a
    · rw [if_pos ha, List.filter_cons_of_pos (by simpa using ha), List.flatMap_cons]
    · rw [if_neg ha, List.filter_cons_of_neg (by simpa using ha), List.nil_append]

/-- Only directories have children. -/
theorem children_file (h : FsTree s) {i : NodeIdx} (hi : (s.nodes i).type ≠ .dir) :
    children s i = [] := by
  rw [List.eq_nil_iff_forall_not_mem]
  intro j hj
  have ⟨hu, hp⟩ := mem_children.mp hj
  exact hi (h.parentDir j i hu hp)

/-- A child is printed with the block below it, any other node is passed over. -/
theorem treePrintNode_eq (h : FsTree s) {below : NodeIdx → Except Stuck (List Console)}
    (blocks : NodeIdx → List Console) {d : NodeIdx} (depth : ℕ) {i : NodeIdx}
    (hbelow : s.used i → s.parentOf i = some d → (s.nodes i).type = .dir →
      below i = .ok (blocks i))
    (hfile : (s.nodes i).type ≠ .dir → blocks i = []) :
    treePrintNode s.nodes below d depth i =
      .ok (if s.used i ∧ s.parentOf i = some d then treeLine s.nodes (depth, i) ++ blocks i else []) := by
  unfold treePrintNode
  by_cases hu : s.used i
  · have hin : ¬ (s.nodes i).inUse = false := by
      rw [show (s.nodes i).inUse = true from hu]
      decide
    simp only [if_neg hin]
    by_cases hp : s.parentOf i = some d
    · -- the root has no parent, so the test for it skips no child
      have h0 : i ≠ 0 := by
        rintro rfl
        rw [FsState.parentOf, h.rootParent] at hp
        cases hp
      have hchild : s.used i ∧ s.parentOf i = some d := ⟨hu, hp⟩
      rw [if_neg (not_not.mpr hp), if_neg h0, if_pos hchild]
      by_cases hdir : (s.nodes i).type = .dir
      · rw [if_pos hdir, hbelow hu hp hdir, treeLine, if_pos hdir]
        rfl
      · rw [if_neg hdir, hfile hdir, treeLine, if_neg hdir, List.append_nil]
    · rw [if_pos hp, if_neg fun hboth => hp hboth.2]
  · simp only [if_pos (show (s.nodes i).inUse = false by simpa using hu),
      if_neg fun hboth : s.used i ∧ s.parentOf i = some d => hu hboth.1]

/-- With room for the height of the tree below `d`, the call prints the walk below `d`. -/
theorem treePrintRecurse_eq (h : FsTree s) {frames : ℕ} (depth : ℕ) {d : NodeIdx} (hd : s.used d)
    (hroom : ∀ n i, s.used i → climb s.parentOf n i = some d → n < frames) :
    treePrintRecurse s.nodes frames d depth =
      .ok ((preorder (children s) frames depth d).flatMap (treeLine s.nodes)) := by
  induction frames generalizing depth d with
  | zero => exact absurd (hroom 0 d hd rfl) (Nat.not_lt_zero 0)
  | succ frames ih =>
    have hnode : ∀ i ∈ List.finRange fsMaxFiles,
        treePrintNode s.nodes (fun i => treePrintRecurse s.nodes frames i (depth + 1)) d depth i =
          .ok (if s.used i ∧ s.parentOf i = some d then
            ((depth, i) :: preorder (children s) frames (depth + 1) i).flatMap (treeLine s.nodes)
            else []) := by
      intro i _
      rw [List.flatMap_cons]
      refine treePrintNode_eq h (fun i =>
        (preorder (children s) frames (depth + 1) i).flatMap (treeLine s.nodes)) depth
        (fun hu hp _ => ?_) fun hfile => ?_
      -- one nested call fewer is needed below a child
      · refine ih (depth + 1) hu fun n j hj hc => ?_
        have := hroom (n + 1) j hj (climb_succ_eq_some.mpr ⟨i, hc, hp⟩)
        omega
      · simp only [preorder_leaf (children_file h hfile), List.flatMap_nil]
    unfold treePrintRecurse
    rw [mapM_ok hnode]
    show Except.ok (List.flatten _) = _
    rw [flatten_map_ite, preorder, List.flatMap_assoc]
    rfl

theorem showsTree_preorder (h : FsTree s) : ShowsTree s (preorder (children s) 64 1 0) where
  once := h.tree.nodup_preorder (childLists s) 64 1 0
  complete := by
    intro i
    constructor
    · intro hi
      obtain ⟨⟨n, j⟩, hj, rfl⟩ := List.mem_map.mp hi
      obtain ⟨k, -, -, hu, hclimb⟩ := (h.tree.mem_preorder (childLists s)).mp hj
      refine ⟨hu, ?_⟩
      rintro rfl
      exact h.tree.climb_ne_self hu (Nat.succ_pos k) hclimb
    · rintro ⟨hu, h0⟩
      -- the way up to the root is shorter than the number of slots
      obtain ⟨n, hn, hclimb⟩ := h.tree.climb_root hu
      rw [Fintype.card_fin] at hn
      cases n with
      | zero => exact absurd (Option.some.inj hclimb) h0
      | succ k =>
        have hk : k < 64 := by
          simp only [fsMaxFiles] at hn
          omega
        exact List.mem_map.mpr ⟨(1 + k, i),
          (h.tree.mem_preorder (childLists s)).mpr ⟨k, hk, rfl, hu, hclimb⟩, rfl⟩
  indented := by
    intro n i hi
    obtain ⟨k, -, rfl, -, hclimb⟩ := (h.tree.mem_preorder (childLists s)).mp hi
    rw [Nat.add_comm]
    exact hclimb
  blocks := h.tree.inBlocks_preorder (childLists s) 64 1 0

/-- The way up from a node has less than 64 steps, so 64 active calls are enough for the root. -/
theorem treePrintRecurse_root (h : FsTree s) :
    treePrintRecurse s.nodes 64 0 1 =
      .ok ((preorder (children s) 64 1 0).flatMap (treeLine s.nodes)) := by
  refine treePrintRecurse_eq h 1 h.tree.root_alive ?_
  intro n i hi hclimb
  have hn := h.tree.climb_lt_card hi hclimb
  rwa [Fintype.card_fin] at hn

/-- `cmd_tree` prints a title, the lines of the tree and an empty line, and leaves the tables alone. -/
theorem cmdTree_eq (h : FsTree s) :
    ∃ lines, ShowsTree s lines ∧ cmdTree 64 s = .ok (s, [.ink vgaLightCyan,
      .print (ascii "\n  /\n")] ++ lines.flatMap (treeLine s.nodes) ++
        [.ink vgaLightGrey, .print [10]]) := by
  refine ⟨preorder (children s) 64 1 0, showsTree_preorder h, ?_⟩
  unfold cmdTree
  rw [treePrintRecurse_root h]
  rfl

theorem indent_text (depth : ℕ) :
    (List.replicate depth (Console.print (ascii "    "))).flatMap Console.text =
      List.replicate (4 * depth) space := by
  induction depth with
  | zero => rfl
  | succ depth ih =>
    rw [List.replicate_succ, List.flatMap_cons, ih, show 4 * (depth + 1) = 4 + 4 * depth by omega,
      List.replicate_add]
    rfl

theorem treeLine_text (h : NodeBounds s) (line : ℕ × NodeIdx) :
    (treeLine s.nodes line).flatMap Console.text = treeText s line := by
  have hsize := h.size line.2
  simp only [fsMaxData] at hsize
  have hconnector : (treeConnector line.1).flatMap Console.text =
      List.replicate (4 * line.1) space ++ ascii "|-- " := by
    rw [treeConnector, List.flatMap_append, indent_text]
    rfl
  have hslash : ascii "/\n" = ascii "/" ++ [10] := by decide
  have hbytes : ascii " bytes)\n" = ascii " bytes)" ++ [10] := by decide
  rw [treeLine, treeText, List.flatMap_append, hconnector]
  split
  · rw [hslash]
    simp [Console.ink, Console.text, FsState.nameOf]
  · rw [hbytes, intOfU32_of_lt (by omega), printInt_natCast]
    simp [Console.ink, Console.text, FsState.nameOf]

theorem treeLines_text (h : NodeBounds s) (lines : List (ℕ × NodeIdx)) :
    (lines.flatMap (treeLine s.nodes)).flatMap Console.text = lines.flatMap (treeText s) := by
  rw [List.flatMap_assoc]
  simp only [treeLine_text h]

/-- In every reachable state `tree_print_recurse(0, 1, nodes)` terminates, with 64 calls active at
the most (the one for the root and 63 nested ones), and prints the lines of the tree. -/
theorem tree_printed (s : FsState) (h : fsSystem.Reachable s) :
    ∃ shown lines, treePrintRecurse s.nodes 64 0 1 = .ok shown ∧
      shown.flatMap Console.text = lines.flatMap (treeText s) ∧ ShowsTree s lines := by
  have htree := FsTree.reachable h
  exact ⟨_, preorder (children s) 64 1 0, treePrintRecurse_root htree,
    treeLines_text (NodeBounds.reachable h) _, showsTree_preorder htree⟩

/-- A file in a directory of a directory. -/
def nestedOps : List FsOp :=
  [.mkdir 0 (some (.ofString "a")), .cd (.ofString "a"), .mkdir 0 (some (.ofString "b")), .cd (.ofString "b"),
    .createFile 0 (some (.ofString "c"))]

theorem tree_printed_nested : ∃ s, s = nestedOps.foldl fsExec (fsInit 0) ∧ ∃ shown lines,
    treePrintRecurse s.nodes 64 0 1 = .ok shown ∧
      shown.flatMap Console.text = lines.flatMap (treeText s) ∧ ShowsTree s lines := by
  have hstart : fsSystem.Reachable (fsInit 0) := .init ⟨0, rfl⟩
  exact ⟨_, rfl, tree_printed _ (hstart.foldl nestedOps)⟩

end MyMisu
