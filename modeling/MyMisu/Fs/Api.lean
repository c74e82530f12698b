import MyMisu.Fs.State

/-!
# The filesystem calls

The functions of `fs.c`.  A call returns its `int` first and the new tables last; between them stand
the bytes or the record it stored through a pointer argument.  A `const char*` that the function
compares with NULL is an `Option CStr`, a buffer with its length is the list of its bytes, and
`tick` is what `timer_get_ticks` returns during the call.
-/

namespace MyMisu

/-- The part `fs_mkdir` and `fs_create_file` share: the checks on the name, the choice of a slot and
the fields stored in it.  `clear` is what the call does to the data bytes of the slot. -/
def createEntry (type : NodeType) (clear : (ℕ → UInt8) → ℕ → UInt8) (s : FsState) (tick : ℕ)
    (name : Option CStr) : ℤ × FsState :=
  match name with
  | none => (Errno.einval.ret, s)
  | some name =>
    if name.bytes = [] then (Errno.einval.ret, s)
    else if strlen name.bytes ≥ fsMaxName then (Errno.enametoolong.ret, s)
    else if (findNode s name).isSome then (Errno.eexist.ret, s)
    else
      match findFreeNode s with
      | none => (Errno.enospc.ret, s)
      | some idx =>
        let node := s.nodes idx
        (0, s.setNode idx
          { name := node.name.store name
            type := type
            size := 0
            data := clear node.data
            parent := some s.currentDir
            inUse := true
            createdTick := tick })

def fsMkdir (s : FsState) (tick : ℕ) (name : Option CStr) : ℤ × FsState :=
  createEntry .dir id s tick name

def fsCreateFile (s : FsState) (tick : ℕ) (name : Option CStr) : ℤ × FsState :=
  createEntry .file (fun data => Function.update data 0 0) s tick name

/-- `memcpy(data + off, src, len)` for a source of `len` bytes. -/
def memcpyAt (data : ℕ → UInt8) (off : ℕ) (src : List UInt8) : ℕ → UInt8 :=
  fun i => if off ≤ i ∧ i < off + src.length then src.getD (i - off) 0 else data i

/-- The `len` bytes from `data + off` on. -/
def bytesAt (data : ℕ → UInt8) (off len : ℕ) : List UInt8 :=
  (List.range len).map fun i => data (off + i)

def fsWriteFile (s : FsState) (name : CStr) (buf : List UInt8) : ℤ × FsState :=
  match findNode s name with
  | none => (Errno.enoent.ret, s)
  | some idx =>
    let node := s.nodes idx
    if node.type ≠ .file then (Errno.eisdir.ret, s)
    else
      let copyLen := if buf.length ≥ fsMaxData then fsMaxData - 1 else buf.length
      let data := Function.update (memcpyAt node.data 0 (buf.take copyLen)) copyLen 0
      (copyLen, s.setNode idx { node with data := data, size := copyLen })

def fsReadFile (s : FsState) (name : CStr) (maxLen : ℕ) : ℤ × List UInt8 :=
  match findNode s name with
  | none => (Errno.enoent.ret, [])
  | some idx =>
    let node := s.nodes idx
    if node.type ≠ .file then (Errno.eisdir.ret, [])
    else
      -- `max_len - 1` wraps for `max_len = 0`, which no caller passes
      let copyLen := if node.size ≥ maxLen then wrap32 (maxLen + (2 ^ 32 - 1)) else node.size
      (intOfU32 copyLen, bytesAt node.data 0 copyLen ++ [0])

/-- `(type == FS_TYPE_DIR) ? "DIR " : "FILE"`. -/
def typeStr (type : NodeType) : List UInt8 :=
  if type = .dir then (CStr.ofString "DIR ").bytes else (CStr.ofString "FILE").bytes

/-- One round of the loop of `fs_list`, on the count and the bytes written so far. -/
def listNode (s : FsState) (maxLen : ℕ) (out : ℤ × List UInt8) (i : NodeIdx) : ℤ × List UInt8 :=
  let node := s.nodes i
  if node.inUse = true ∧ node.parent = some s.currentDir then
    let nameLen := strlen node.name.bytes
    if out.2.length + 6 + nameLen + 1 < maxLen then
      (out.1 + 1,
        out.2 ++ typeStr node.type ++ (CStr.ofString "  ").bytes ++ node.name.bytes.take nameLen ++
          (CStr.ofString "\n").bytes)
    else out
  else out

/-- The directory name is ignored. -/
def fsList (s : FsState) (_dirName : CStr) (maxLen : ℕ) : ℤ × List UInt8 :=
  let out := (List.finRange fsMaxFiles).foldl (listNode s maxLen) (0, [])
  (out.1, out.2 ++ [0])

def fsDelete (s : FsState) (name : CStr) : ℤ × FsState :=
  match findNode s name with
  | none => (Errno.enoent.ret, s)
  | some idx =>
    if idx = 0 then (Errno.enoent.ret, s)
    else if (s.nodes idx).type = .dir ∧ hasChild s idx = true then (Errno.enotempty.ret, s)
    else (0, s.setNode idx { s.nodes idx with inUse := false })

def fsCd (s : FsState) (name : CStr) : ℤ × FsState :=
  if strcmp name.bytes (CStr.ofString "..").bytes = 0 then
    match (s.nodes s.currentDir).parent with
    | some parent => (0, { s with currentDir := parent })
    | none => (0, s)
  else if strcmp name.bytes (CStr.ofString "/").bytes = 0 then (0, { s with currentDir := 0 })
  else
    match findNode s name with
    | none => (Errno.enoent.ret, s)
    | some idx =>
      if (s.nodes idx).type ≠ .dir then (Errno.enotdir.ret, s)
      else (0, { s with currentDir := idx })

def fsPwd (s : FsState) : CStr := (s.nodes s.currentDir).name.str

/-! ## Descriptors -/

/-- The `O_TRUNC` block of `fs_open`. -/
def openTrunc (s : FsState) (idx : NodeIdx) (flags : ℕ) : FsState :=
  if hasFlag flags oTrunc then
    let node := s.nodes idx
    s.setNode idx { node with data := Function.update node.data 0 0, size := 0 }
  else s

/-- `fs_open` from the type check on, with the node resolved. -/
def openNode (s : FsState) (idx : NodeIdx) (flags : ℕ) : ℤ × FsState :=
  if (s.nodes idx).type ≠ .file then (Errno.eisdir.ret, s)
  else
    let s := openTrunc s idx flags
    match findFreeFd s with
    | none => (Errno.emfile.ret, s)
    | some fd =>
      (fd.val, s.setFd fd
        { nodeIdx := some idx
          offset := if hasFlag flags oAppend then (s.nodes idx).size else 0
          flags := flags
          inUse := true })

def fsOpen (s : FsState) (tick : ℕ) (name : Option CStr) (flags : ℕ) : ℤ × FsState :=
  match name with
  | none => (Errno.einval.ret, s)
  | some name =>
    if name.bytes = [] then (Errno.einval.ret, s)
    else
      match findNode s name with
      | some idx => openNode s idx flags
      | none =>
        if hasFlag flags oCreat then
          let (rc, s') := fsCreateFile s tick (some name)
          if rc < 0 then (rc, s')
          else
            match findNode s' name with
            | none => (Errno.eio.ret, s')
            | some idx => openNode s' idx flags
        else (Errno.enoent.ret, s)

/-- The range test on a descriptor number. -/
def fdIndex (fd : ℤ) : Option FdIdx :=
  if h : fd < 0 ∨ (fsMaxFds : ℤ) ≤ fd then none else some ⟨fd.toNat, by omega⟩

/-- A descriptor number that names an entry in use. -/
def openFd (s : FsState) (fd : ℤ) : Option FdIdx :=
  match fdIndex fd with
  | none => none
  | some i => if (s.fdTable i).inUse then some i else none

/-- `&fs_nodes[f->node_idx]`; an entry in use never holds -1. -/
def FsFd.node (f : FsFd) : NodeIdx := f.nodeIdx.getD 0

def fsClose (s : FsState) (fd : ℤ) : ℤ × FsState :=
  match openFd s fd with
  | none => (Errno.ebadf.ret, s)
  | some i => (0, s.setFd i { s.fdTable i with inUse := false, nodeIdx := none })

/-- `buf` tells whether the destination is a non-NULL pointer. -/
def fsReadFd (s : FsState) (fd : ℤ) (buf : Bool) (n : ℕ) : ℤ × List UInt8 × FsState :=
  match openFd s fd with
  | none => (Errno.ebadf.ret, [], s)
  | some i =>
    let f := s.fdTable i
    if buf = false then (Errno.efault.ret, [], s)
    else if f.flags &&& 0x3 = oWronly then (Errno.eacces.ret, [], s)
    else
      let node := s.nodes f.node
      if f.offset ≥ node.size then (0, [], s)
      else
        let avail := node.size - f.offset
        let toCopy := if n < avail then n else avail
        (toCopy, bytesAt node.data f.offset toCopy,
          s.setFd i { f with offset := f.offset + toCopy })

/-- `if (f->flags & O_APPEND) f->offset = node->size;` -/
def FsFd.writeStart (f : FsFd) (node : FsNode) : FsFd :=
  if hasFlag f.flags oAppend then { f with offset := node.size } else f

def fsWriteFd (s : FsState) (fd : ℤ) (buf : Option (List UInt8)) : ℤ × FsState :=
  match openFd s fd with
  | none => (Errno.ebadf.ret, s)
  | some i =>
    match buf with
    | none => (Errno.efault.ret, s)
    | some buf =>
      let f := s.fdTable i
      if f.flags &&& 0x3 = oRdonly then (Errno.eacces.ret, s)
      else
        let node := s.nodes f.node
        let f := f.writeStart node
        let s := s.setFd i f
        if f.offset ≥ fsMaxData - 1 then (Errno.enospc.ret, s)
        else
          let space := (fsMaxData - 1) - f.offset
          let toCopy := if buf.length < space then buf.length else space
          let offset := f.offset + toCopy
          let size := if offset > node.size then offset else node.size
          let data := Function.update (memcpyAt node.data f.offset (buf.take toCopy)) size 0
          (toCopy, (s.setFd i { f with offset := offset }).setNode f.node
            { node with data := data, size := size })

def fsLseek (s : FsState) (fd : ℤ) (offset whence : ℤ) : ℤ × FsState :=
  match openFd s fd with
  | none => (Errno.ebadf.ret, s)
  | some i =>
    let f := s.fdTable i
    let node := s.nodes f.node
    let newOff : Option ℤ :=
      if whence = seekSet then some offset
      else if whence = seekCur then some (wrapInt32 (intOfU32 f.offset + offset))
      else if whence = seekEnd then some (wrapInt32 (intOfU32 node.size + offset))
      else none
    match newOff with
    | none => (Errno.einval.ret, s)
    | some newOff =>
      if newOff < 0 then (Errno.einval.ret, s)
      else if newOff > (fsMaxData : ℤ) - 1 then (Errno.einval.ret, s)
      else (newOff, s.setFd i { f with offset := newOff.toNat })

/-- `out` tells whether the destination is a non-NULL pointer. -/
def fsStat (s : FsState) (name : Option CStr) (out : Bool) : ℤ × Option FsStat :=
  match name with
  | none => (Errno.efault.ret, none)
  | some name =>
    if out = false then (Errno.efault.ret, none)
    else
      match findNode s name with
      | none => (Errno.enoent.ret, none)
      | some idx =>
        let node := s.nodes idx
        (0, some
          { type := node.type
            size := node.size
            createdTick := node.createdTick
            parent := node.parent })

def fsUnlink (s : FsState) (name : CStr) : ℤ × FsState :=
  match findNode s name with
  | none => (Errno.enoent.ret, s)
  | some idx =>
    if idx = 0 then (Errno.enoent.ret, s)
    else if (s.nodes idx).type ≠ .file then (Errno.eisdir.ret, s)
    else (0, s.setNode idx { s.nodes idx with inUse := false })

def fsRmdir (s : FsState) (name : CStr) : ℤ × FsState :=
  match findNode s name with
  | none => (Errno.enoent.ret, s)
  | some idx =>
    if idx = 0 then (Errno.enoent.ret, s)
    else if (s.nodes idx).type ≠ .dir then (Errno.enotdir.ret, s)
    else if hasChild s idx = true then (Errno.enotempty.ret, s)
    else (0, s.setNode idx { s.nodes idx with inUse := false })

/-- `buf` tells whether the destination is a non-NULL pointer. -/
def fsGetcwd (s : FsState) (buf : Bool) (n : ℕ) : ℤ × List UInt8 :=
  if buf = false ∨ n = 0 then (Errno.efault.ret, [])
  else
    let name := (s.nodes s.currentDir).name.bytes
    let len := strlen name
    if len + 1 > n then (Errno.einval.ret, []) else (len, name.take (len + 1))

/-! ## Start-up -/

/-- `strcpy(fs_nodes[0].name, "/")` on the zeroed array. -/
def rootName : NameArray := ⟨strcpy NameArray.zero.bytes (CStr.ofString "/").bytes, by decide⟩

/-- The tables after the two `memset`s and with the root directory in slot 0. -/
def fsEmpty : FsState where
  nodes i :=
    if i = 0 then
      { FsNode.zero with
        name := rootName
        type := .dir
        parent := none
        inUse := true }
    else FsNode.zero
  fdTable _ := { nodeIdx := none, offset := 0, flags := 0, inUse := false }
  currentDir := 0

def welcome : CStr := .ofString
  "Welcome to MyMisu OS!\nThis is a simple ramdisk filesystem.\nType 'help' for commands.\n"

/-- `MYMISU_VERSION` of `version.h`. -/
def mymisuVersion : String := "v2.0.6"

def fsInit (tick : ℕ) : FsState :=
  let s := fsEmpty
  let s := (fsMkdir s tick (some (.ofString "home"))).2
  let s := (fsMkdir s tick (some (.ofString "bin"))).2
  let s := (fsMkdir s tick (some (.ofString "etc"))).2
  let s := (fsMkdir s tick (some (.ofString "tmp"))).2
  let s := (fsCreateFile s tick (some (.ofString "readme.txt"))).2
  let s := (fsWriteFile s (.ofString "readme.txt") welcome.bytes).2
  let s := (fsCreateFile s tick (some (.ofString "hostname"))).2
  let s := (fsWriteFile s (.ofString "hostname") (CStr.ofString "misu-pc").bytes).2
  let s := (fsCreateFile s tick (some (.ofString "version"))).2
  (fsWriteFile s (.ofString "version") (CStr.ofString ("MyMisu OS " ++ mymisuVersion)).bytes).2

end MyMisu
