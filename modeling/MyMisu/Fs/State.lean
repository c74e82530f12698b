import Mathlib.Data.Fin.Tuple.Basic
import MyMisu.CInt
import MyMisu.CString
import MyMisu.Errno

/-!
# The ramdisk tables

The two static tables of `fs.c` and its current directory.  Indices into a table are `Fin`s, and an
`int` that is such an index or -1 is an `Option`.  The bytes of `data` are given by their index;
the array has `fsMaxData` of them.
-/

namespace MyMisu

abbrev fsMaxFiles : ℕ := 64
abbrev fsMaxName : ℕ := 32
abbrev fsMaxData : ℕ := 4096
abbrev fsMaxFds : ℕ := 16

instance : NeZero fsMaxFiles := ⟨by decide⟩

instance : NeZero fsMaxFds := ⟨by decide⟩

abbrev NodeIdx := Fin fsMaxFiles
abbrev FdIdx := Fin fsMaxFds

def oRdonly : ℕ := 0x0000
def oWronly : ℕ := 0x0001
def oRdwr : ℕ := 0x0002
def oCreat : ℕ := 0x0040
def oTrunc : ℕ := 0x0200
def oAppend : ℕ := 0x0400

def seekSet : ℤ := 0
def seekCur : ℤ := 1
def seekEnd : ℤ := 2

/-- `uint8_t type`: zeroed, `FS_TYPE_FILE` or `FS_TYPE_DIR`. -/
inductive NodeType
  | unset | file | dir
  deriving DecidableEq, Repr

/-- `char name[FS_MAX_NAME]`. -/
structure NameArray where
  bytes : List UInt8
  size : bytes.length = fsMaxName

namespace NameArray

def zero : NameArray := ⟨List.replicate fsMaxName 0, List.length_replicate⟩

/-- `strncpy(name, src, FS_MAX_NAME - 1); name[FS_MAX_NAME - 1] = '\0';` -/
def store (a : NameArray) (src : CStr) : NameArray where
  bytes := (strncpy a.bytes src.bytes (fsMaxName - 1)).set (fsMaxName - 1) 0
  size := by rw [List.length_set, strncpy_length, a.size]

/-- The string in the array. -/
def str (a : NameArray) : CStr := .ofBuffer a.bytes

theorem str_store (a : NameArray) {src : CStr} (h : src.bytes.length < fsMaxName) :
    (a.store src).str = src := by
  have hlt : src.bytes.length < 32 := h
  have hsize : a.bytes.length = 32 := a.size
  apply CStr.ext_bytes
  show cString ((strncpy a.bytes src.bytes 31).set 31 0) = src.bytes
  rw [strncpy_eq src.noNul (by omega) (by omega)]
  rcases hd : a.bytes.drop 31 with _ | ⟨x, rest⟩
  · have := congrArg List.length hd
    rw [List.length_drop, hsize] at this
    cases this
  -- the last byte of the array is the terminator, the padding in front of it is NUL already
  · have hlen : (src.bytes ++ List.replicate (31 - src.bytes.length) (0 : UInt8)).length = 31 := by
      rw [List.length_append, List.length_replicate]; omega
    rw [List.set_append_right _ _ (by omega), hlen, Nat.sub_self, List.set_cons_zero,
      List.append_assoc]
    cases hpad : 31 - src.bytes.length with
    | zero => exact cString_append_nul src.noNul rest
    | succ k => exact cString_append_nul src.noNul _

end NameArray

structure FsNode where
  name : NameArray
  type : NodeType
  size : ℕ
  data : ℕ → UInt8
  parent : Option NodeIdx
  inUse : Bool
  createdTick : ℕ

/-- An entry of the table after `memset`. -/
def FsNode.zero : FsNode where
  name := .zero
  type := .unset
  size := 0
  data := fun _ => 0
  parent := some 0
  inUse := false
  createdTick := 0

structure FsFd where
  nodeIdx : Option NodeIdx
  offset : ℕ
  flags : ℕ
  inUse : Bool
  deriving DecidableEq

structure FsStat where
  type : NodeType
  size : ℕ
  createdTick : ℕ
  parent : Option NodeIdx
  deriving DecidableEq

structure FsState where
  nodes : NodeIdx → FsNode
  fdTable : FdIdx → FsFd
  currentDir : NodeIdx

namespace FsState

def setNode (s : FsState) (i : NodeIdx) (n : FsNode) : FsState :=
  { s with nodes := Function.update s.nodes i n }

def setFd (s : FsState) (fd : FdIdx) (f : FsFd) : FsState :=
  { s with fdTable := Function.update s.fdTable fd f }

@[simp] theorem setNode_self (s : FsState) (i : NodeIdx) (n : FsNode) :
    (s.setNode i n).nodes i = n := Function.update_self ..

@[simp] theorem setNode_ne (s : FsState) {i j : NodeIdx} (n : FsNode) (h : j ≠ i) :
    (s.setNode i n).nodes j = s.nodes j := Function.update_of_ne h ..

@[simp] theorem setNode_fdTable (s : FsState) (i : NodeIdx) (n : FsNode) :
    (s.setNode i n).fdTable = s.fdTable := rfl

@[simp] theorem setNode_currentDir (s : FsState) (i : NodeIdx) (n : FsNode) :
    (s.setNode i n).currentDir = s.currentDir := rfl

@[simp] theorem setFd_self (s : FsState) (fd : FdIdx) (f : FsFd) :
    (s.setFd fd f).fdTable fd = f := Function.update_self ..

@[simp] theorem setFd_ne (s : FsState) {fd fd' : FdIdx} (f : FsFd) (h : fd' ≠ fd) :
    (s.setFd fd f).fdTable fd' = s.fdTable fd' := Function.update_of_ne h ..

@[simp] theorem setFd_nodes (s : FsState) (fd : FdIdx) (f : FsFd) :
    (s.setFd fd f).nodes = s.nodes := rfl

@[simp] theorem setFd_currentDir (s : FsState) (fd : FdIdx) (f : FsFd) :
    (s.setFd fd f).currentDir = s.currentDir := rfl

@[simp] theorem setFd_setFd (s : FsState) (fd : FdIdx) (f g : FsFd) :
    (s.setFd fd f).setFd fd g = s.setFd fd g := by
  simp [setFd]

end FsState

/-! ## The table scans -/

def findFreeNode (s : FsState) : Option NodeIdx :=
  Fin.find? fun i => decide (i ≠ 0) && !(s.nodes i).inUse

/-- The scan of `find_node` with the directory as an argument. -/
def findNodeIn (s : FsState) (dir : NodeIdx) (name : CStr) : Option NodeIdx :=
  Fin.find? fun i => (s.nodes i).inUse && decide (strcmp (s.nodes i).name.bytes name.bytes = 0) &&
    decide ((s.nodes i).parent = some dir)

def findNode (s : FsState) (name : CStr) : Option NodeIdx := findNodeIn s s.currentDir name

def findFreeFd (s : FsState) : Option FdIdx := Fin.find? fun fd => !(s.fdTable fd).inUse

/-- Some node in use has `idx` for its parent. -/
def hasChild (s : FsState) (idx : NodeIdx) : Bool :=
  (Fin.find? fun i => (s.nodes i).inUse && decide ((s.nodes i).parent = some idx)).isSome

def hasFlag (flags mask : ℕ) : Bool := flags &&& mask != 0

theorem strcmp_name_iff (a : NameArray) (name : CStr) :
    strcmp a.bytes name.bytes = 0 ↔ a.str = name := by
  rw [strcmp_eq_zero, name.cString_bytes]
  exact ⟨fun h => CStr.ext_bytes h, fun h => h ▸ rfl⟩

theorem findFreeNode_some {s : FsState} {i : NodeIdx} (h : findFreeNode s = some i) :
    i ≠ 0 ∧ (s.nodes i).inUse = false := by
  simpa [findFreeNode] using (Fin.find?_eq_some_iff.mp h).1

theorem findFreeNode_none {s : FsState} :
    findFreeNode s = none ↔ ∀ i, i ≠ 0 → (s.nodes i).inUse = true := by
  simp [findFreeNode]

theorem findNodeIn_some {s : FsState} {dir i : NodeIdx} {name : CStr}
    (h : findNodeIn s dir name = some i) :
    (s.nodes i).inUse = true ∧ (s.nodes i).name.str = name ∧ (s.nodes i).parent = some dir := by
  have := (Fin.find?_eq_some_iff.mp h).1
  simpa [strcmp_name_iff, and_assoc] using this

theorem findNodeIn_none {s : FsState} {dir : NodeIdx} {name : CStr} :
    findNodeIn s dir name = none ↔ ∀ i, (s.nodes i).inUse = true →
      (s.nodes i).parent = some dir → (s.nodes i).name.str ≠ name := by
  rw [findNodeIn, Fin.find?_eq_none_iff]
  refine forall_congr' fun i => ?_
  simp only [Bool.and_eq_false_iff, decide_eq_false_iff_not, strcmp_name_iff]
  constructor
  · rintro ((h | h) | h) hu hp
    · simp [h] at hu
    · exact h
    · exact absurd hp h
  · intro h
    cases hu : (s.nodes i).inUse with
    | false => exact .inl (.inl rfl)
    | true =>
      by_cases hp : (s.nodes i).parent = some dir
      · exact .inl (.inr (h hu hp))
      · exact .inr hp

theorem findNodeIn_eq_some {s : FsState} {dir i : NodeIdx} {name : CStr}
    (hu : (s.nodes i).inUse = true) (hn : (s.nodes i).name.str = name)
    (hp : (s.nodes i).parent = some dir)
    (huniq : ∀ j, (s.nodes j).inUse = true → (s.nodes j).parent = some dir →
      (s.nodes j).name.str = name → j = i) :
    findNodeIn s dir name = some i := by
  cases hf : findNodeIn s dir name with
  | none => exact absurd hn (findNodeIn_none.mp hf i hu hp)
  | some j =>
    have hj := findNodeIn_some hf
    rw [huniq j hj.1 hj.2.2 hj.2.1]

theorem findFreeFd_some {s : FsState} {fd : FdIdx} (h : findFreeFd s = some fd) :
    (s.fdTable fd).inUse = false := by
  simpa [findFreeFd] using (Fin.find?_eq_some_iff.mp h).1

theorem hasChild_false {s : FsState} {idx : NodeIdx} :
    hasChild s idx = false ↔
      ∀ i, (s.nodes i).inUse = true → (s.nodes i).parent ≠ some idx := by
  simp [hasChild]

end MyMisu
