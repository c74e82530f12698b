import MyMisu.Fs.TreeModel

/-!
# A tree with open files

What the descriptors are for: an open file is a path with an offset and the flags it was opened
with, its bytes are those the path leads to, and all descriptors on one path see the same bytes.
Paths are from the root, so the working directory plays no part once a file is open.  No slots
appear, and no bytes behind the end of a file.
-/

namespace MyMisu

structure OpenFile where
  path : List CStr
  offset : ℕ
  flags : ℕ

@[ext] structure OpenTree where
  tree : FileTree
  file : FdIdx → Option OpenFile

namespace FileTree

/-- The bytes of the file a path leads to. -/
def content (t : FileTree) (p : List CStr) : List UInt8 :=
  match t.entry p with
  | some (.file b) => b
  | _ => []

theorem content_eq {t : FileTree} {p : List CStr} {b : List UInt8}
    (h : t.entry p = some (.file b)) : t.content p = b := by
  unfold content
  rw [h]

end FileTree

/-- `d` written over `b` from an offset on. -/
def overwrite (b : List UInt8) (off : ℕ) (d : List UInt8) : List UInt8 :=
  b.take off ++ d ++ b.drop (off + d.length)

namespace OpenTree

def setFile (t : OpenTree) (i : FdIdx) (f : Option OpenFile) : OpenTree :=
  { t with file := Function.update t.file i f }

/-- The open file of a descriptor number. -/
def fileOf (t : OpenTree) (fd : ℤ) : Option (FdIdx × OpenFile) :=
  (fdIndex fd).bind fun i => (t.file i).map fun f => (i, f)

/-- `O_TRUNC` empties the file for everyone. -/
def trunc (t : OpenTree) (p : List CStr) (flags : ℕ) : OpenTree :=
  if hasFlag flags oTrunc then { t with tree := t.tree.rewriteAt p [] } else t

/-- The lowest free descriptor is taken. -/
def bindFile (t : OpenTree) (p : List CStr) (flags : ℕ) : ℤ × OpenTree :=
  match Fin.find? fun i => (t.file i).isNone with
  | none => (Errno.emfile.ret, t)
  | some i =>
    (i.val, t.setFile i (some
      { path := p
        offset := if hasFlag flags oAppend then (t.tree.content p).length else 0
        flags := flags }))

/-- Without a free descriptor the file is truncated all the same. -/
def openPath (t : OpenTree) (p : List CStr) (flags : ℕ) : ℤ × OpenTree :=
  (t.trunc p flags).bindFile p flags

noncomputable def openFile (t : OpenTree) (name : Option CStr) (flags : ℕ) : ℤ × OpenTree :=
  match name with
  | none => (Errno.einval.ret, t)
  | some name =>
    if name.bytes = [] then (Errno.einval.ret, t)
    else
      match t.tree.lookup name with
      | some .dir => (Errno.eisdir.ret, t)
      | some (.file _) => t.openPath (name :: t.tree.cwd) flags
      | none =>
        if hasFlag flags oCreat then
          let (rc, tree) := t.tree.create (.file []) (some name)
          if rc < 0 then (rc, t) else { t with tree := tree }.openPath (name :: t.tree.cwd) flags
        else (Errno.enoent.ret, t)

def close (t : OpenTree) (fd : ℤ) : ℤ × OpenTree :=
  match t.fileOf fd with
  | none => (Errno.ebadf.ret, t)
  | some (i, _) => (0, t.setFile i none)

/-- The bytes from the offset on, at most `n` of them. -/
def read (t : OpenTree) (fd : ℤ) (buf : Bool) (n : ℕ) : ℤ × List UInt8 × OpenTree :=
  match t.fileOf fd with
  | none => (Errno.ebadf.ret, [], t)
  | some (i, f) =>
    if buf = false then (Errno.efault.ret, [], t)
    else if f.flags &&& 0x3 = oWronly then (Errno.eacces.ret, [], t)
    else
      let got := ((t.tree.content f.path).drop f.offset).take n
      (got.length, got, t.setFile i (some { f with offset := f.offset + got.length }))

/-- The bytes go over those at the offset, or behind the last one with `O_APPEND`, as far as a file
may grow. -/
def write (t : OpenTree) (fd : ℤ) (buf : Option (List UInt8)) : ℤ × OpenTree :=
  match t.fileOf fd with
  | none => (Errno.ebadf.ret, t)
  | some (i, f) =>
    match buf with
    | none => (Errno.efault.ret, t)
    | some buf =>
      if f.flags &&& 0x3 = oRdonly then (Errno.eacces.ret, t)
      else
        let b := t.tree.content f.path
        let off := if hasFlag f.flags oAppend then b.length else f.offset
        if fsMaxData - 1 ≤ off then
          (Errno.enospc.ret, t.setFile i (some { f with offset := off }))
        else
          let d := buf.take (fsMaxData - 1 - off)
          (d.length,
            { t with tree := t.tree.rewriteAt f.path (overwrite b off d) }.setFile i
              (some { f with offset := off + d.length }))

/-- An offset from the start, from the current offset or from the end. -/
def seek (t : OpenTree) (fd offset whence : ℤ) : ℤ × OpenTree :=
  match t.fileOf fd with
  | none => (Errno.ebadf.ret, t)
  | some (i, f) =>
    let base : Option ℕ :=
      if whence = seekSet then some 0
      else if whence = seekCur then some f.offset
      else if whence = seekEnd then some (t.tree.content f.path).length
      else none
    match base with
    | none => (Errno.einval.ret, t)
    | some base =>
      if 0 ≤ base + offset ∧ base + offset < fsMaxData then
        (base + offset, t.setFile i (some { f with offset := (base + offset).toNat }))
      else (Errno.einval.ret, t)

end OpenTree

/-- What a call that names a file does to the tree, whatever files are open. -/
def OpenTree.onTree (t : OpenTree) (r : TreeReply × FileTree) : TreeReply × OpenTree :=
  (r.1, { t with tree := r.2 })

/-- The operation a call stands for. -/
noncomputable def openCall (t : OpenTree) : FsOp → TreeReply × OpenTree
  | .mkdir _ name => t.onTree ((t.tree.create .dir name).map TreeReply.ofCode id)
  | .createFile _ name => t.onTree ((t.tree.create (.file []) name).map TreeReply.ofCode id)
  | .writeFile name buf => t.onTree ((t.tree.write name buf).map TreeReply.ofCode id)
  | .readFile name maxLen => (⟨(t.tree.read name maxLen).1, (t.tree.read name maxLen).2, none⟩, t)
  | .delete name => t.onTree ((t.tree.delete name).map TreeReply.ofCode id)
  | .cd name => t.onTree ((t.tree.cd name).map TreeReply.ofCode id)
  | .open _ name flags => (t.openFile name flags).map TreeReply.ofCode id
  | .close fd => (t.close fd).map TreeReply.ofCode id
  | .readFd fd buf n => (⟨(t.read fd buf n).1, (t.read fd buf n).2.1, none⟩, (t.read fd buf n).2.2)
  | .writeFd fd buf => (t.write fd buf).map TreeReply.ofCode id
  | .lseek fd offset whence => (t.seek fd offset whence).map TreeReply.ofCode id
  | .stat name out => (⟨(t.tree.stat name out).1, [], (t.tree.stat name out).2⟩, t)
  | .unlink name => t.onTree ((t.tree.unlink name).map TreeReply.ofCode id)
  | .rmdir name => t.onTree ((t.tree.rmdir name).map TreeReply.ofCode id)

end MyMisu
