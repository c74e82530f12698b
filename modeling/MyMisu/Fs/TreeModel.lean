import MyMisu.Fs.Calls
import MyMisu.Lib.DirTree

/-!
# The filesystem as a tree

What the calls that take a name are for: operations on a tree of directories and files whose
contents are byte strings, with a bound on the number of nodes and on the length of a file.  No
slots, ticks or descriptors appear.
-/

namespace MyMisu

abbrev FileTree := DirTree CStr (List UInt8)

/-- The part of a reply that says something about the tree. -/
structure TreeReply where
  code : ℤ
  bytes : List UInt8
  stat : Option (NodeType × ℕ)

def TreeReply.ofCode (code : ℤ) : TreeReply := ⟨code, [], none⟩

def FsReply.view (r : FsReply) : TreeReply :=
  ⟨r.code, r.bytes, r.stat.map fun st => (st.type, st.size)⟩

namespace FileTree

open Classical in
/-- A new directory or a new empty file. -/
noncomputable def create (t : FileTree) (e : Entry (List UInt8)) (name : Option CStr) :
    ℤ × FileTree :=
  match name with
  | none => (Errno.einval.ret, t)
  | some name =>
    if name.bytes = [] then (Errno.einval.ret, t)
    else if fsMaxName ≤ name.bytes.length then (Errno.enametoolong.ret, t)
    else if hnew : t.lookup name = none then
      if t.count = fsMaxFiles - 1 then (Errno.enospc.ret, t) else (0, t.insert name e hnew)
    else (Errno.eexist.ret, t)

/-- Contents are cut to what a node holds. -/
def write (t : FileTree) (name : CStr) (buf : List UInt8) : ℤ × FileTree :=
  match t.lookup name with
  | none => (Errno.enoent.ret, t)
  | some .dir => (Errno.eisdir.ret, t)
  | some (.file _) =>
    ((buf.take (fsMaxData - 1)).length, t.rewrite name (buf.take (fsMaxData - 1)))

/-- At most `maxLen - 1` bytes and a NUL. -/
def read (t : FileTree) (name : CStr) (maxLen : ℕ) : ℤ × List UInt8 :=
  match t.lookup name with
  | none => (Errno.enoent.ret, [])
  | some .dir => (Errno.eisdir.ret, [])
  | some (.file b) => ((b.take (maxLen - 1)).length, b.take (maxLen - 1) ++ [0])

open Classical in
noncomputable def delete (t : FileTree) (name : CStr) : ℤ × FileTree :=
  match t.lookup name with
  | none => (Errno.enoent.ret, t)
  | some _ => if h : t.Leaf name then (0, t.erase name h) else (Errno.enotempty.ret, t)

def unlink (t : FileTree) (name : CStr) : ℤ × FileTree :=
  match hf : t.lookup name with
  | none => (Errno.enoent.ret, t)
  | some .dir => (Errno.eisdir.ret, t)
  -- nothing is below a file
  | some (.file _) => (0, t.erase name (t.leaf_of_not_dir (by rw [hf]; exact fun h => nomatch h)))

theorem unlink_none {t : FileTree} {name : CStr} (hf : t.lookup name = none) :
    t.unlink name = (Errno.enoent.ret, t) := by
  unfold unlink
  split <;> simp_all

theorem unlink_dir {t : FileTree} {name : CStr} (hf : t.lookup name = some .dir) :
    t.unlink name = (Errno.eisdir.ret, t) := by
  unfold unlink
  split <;> simp_all

theorem unlink_file {t : FileTree} {name : CStr} {b : List UInt8}
    (hf : t.lookup name = some (.file b)) (hleaf : t.Leaf name) :
    t.unlink name = (0, t.erase name hleaf) := by
  unfold unlink
  split <;> simp_all

open Classical in
noncomputable def rmdir (t : FileTree) (name : CStr) : ℤ × FileTree :=
  match t.lookup name with
  | none => (Errno.enoent.ret, t)
  | some (.file _) => (Errno.enotdir.ret, t)
  | some .dir => if h : t.Leaf name then (0, t.erase name h) else (Errno.enotempty.ret, t)

open Classical in
/-- `..` and `/` are words of the call, whatever names exist. -/
noncomputable def cd (t : FileTree) (name : CStr) : ℤ × FileTree :=
  if name = CStr.ofString ".." then (0, t.up)
  else if name = CStr.ofString "/" then (0, t.home)
  else if h : t.lookup name = some .dir then (0, t.chdir (name :: t.cwd) h)
  else if t.lookup name = none then (Errno.enoent.ret, t)
  else (Errno.enotdir.ret, t)

def stat (t : FileTree) (name : Option CStr) (out : Bool) : ℤ × Option (NodeType × ℕ) :=
  match name with
  | none => (Errno.efault.ret, none)
  | some name =>
    if out = false then (Errno.efault.ret, none)
    else
      match t.lookup name with
      | none => (Errno.enoent.ret, none)
      | some .dir => (0, some (.dir, 0))
      | some (.file b) => (0, some (.file, b.length))

end FileTree

/-- The calls that take a name and use no descriptor. -/
inductive NameOp
  | mkdir (tick : ℕ) (name : Option CStr)
  | createFile (tick : ℕ) (name : Option CStr)
  | writeFile (name : CStr) (buf : List UInt8)
  | readFile (name : CStr) (maxLen : ℕ) (hpos : 1 ≤ maxLen)
  | delete (name : CStr)
  | cd (name : CStr)
  | stat (name : Option CStr) (out : Bool)
  | unlink (name : CStr)
  | rmdir (name : CStr)

def NameOp.op : NameOp → FsOp
  | mkdir tick name => .mkdir tick name
  | createFile tick name => .createFile tick name
  | writeFile name buf => .writeFile name buf
  | readFile name maxLen _ => .readFile name maxLen
  | delete name => .delete name
  | cd name => .cd name
  | stat name out => .stat name out
  | unlink name => .unlink name
  | rmdir name => .rmdir name

/-- The tree operation a call stands for. -/
noncomputable def treeCall (t : FileTree) : NameOp → TreeReply × FileTree
  | .mkdir _ name => (t.create .dir name).map TreeReply.ofCode id
  | .createFile _ name => (t.create (.file []) name).map TreeReply.ofCode id
  | .writeFile name buf => (t.write name buf).map TreeReply.ofCode id
  | .readFile name maxLen _ => (⟨(t.read name maxLen).1, (t.read name maxLen).2, none⟩, t)
  | .delete name => (t.delete name).map TreeReply.ofCode id
  | .cd name => (t.cd name).map TreeReply.ofCode id
  | .stat name out => (⟨(t.stat name out).1, [], (t.stat name out).2⟩, t)
  | .unlink name => (t.unlink name).map TreeReply.ofCode id
  | .rmdir name => (t.rmdir name).map TreeReply.ofCode id

/-- Runs of the filesystem in which no descriptor is used. -/
def nameSystem : TransitionSystem FsState NameOp :=
  .ofFun (fun s => ∃ tick, s = fsInit tick) fun s op => fsExec s op.op

end MyMisu
