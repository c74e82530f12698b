import MyMisu.CharArray
import MyMisu.Fs.Api
import MyMisu.Keyboard.State
import MyMisu.Numbers
import MyMisu.Vga.Console

/-!
# The shell's file commands

The functions of `shell.c` that work on files.  A command takes the tables and the strings in `argv`
and returns the tables and what it has the terminal do.  A local array is a list of its bytes, and a
store behind its end stops the command, since nothing is known of the state after it; so does a
`keyboard_getchar` for which there is no key.
-/

namespace MyMisu

def maxArgs : ℕ := 16

abbrev CmdResult := Except Stuck (FsState × List Console)

/-- What a command runs in: the ticks, the keys that will be pressed, how many nested calls there is
room for, the bytes left on the stack where an array is put, and the commands that are not modelled. -/
structure ShellEnv where
  tick : ℕ
  keys : List UInt8
  frames : ℕ
  junk (size : ℕ) : CharArray size
  other : FsState → List CStr → CmdResult

/-- `char data[size]; data[0]='\0';`. -/
def ShellEnv.emptyArray (env : ShellEnv) (size : ℕ) : Except Stuck (CharArray size) :=
  (env.junk size).store 0 0

/-- `fs_read_file(name, buf, max_len)` into an array. -/
def readInto {size : ℕ} (s : FsState) (name : CStr) (buf : CharArray size) (maxLen : ℕ) :
    Except Stuck (ℤ × CharArray size) := do
  let r := fsReadFile s name maxLen
  .ok (r.1, ← buf.storeAll 0 r.2)

/-- The loop that joins arguments in an array with spaces in between. -/
def catArgs {size : ℕ} (data : CharArray size) : List CStr → Except Stuck (CharArray size)
  | [] => .ok data
  | [w] => strcat data w
  | w :: ws => do
    let data ← strcat data w
    catArgs (← strcat data (.ofString " ")) ws

/-! ## The commands -/

/-- `if(ok){green}else{red}` and back to the usual colour. -/
def report (ok : Bool) (done failed : List UInt8) : List Console :=
  if ok then [.ink vgaGreen, .print done, .ink vgaLightGrey]
  else [.ink vgaLightRed, .print failed, .ink vgaLightGrey]

def usage (text : String) : List Console := [.print (ascii text)]

def cmdTouch (env : ShellEnv) (s : FsState) : List CStr → CmdResult
  | _ :: name :: _ =>
    let r := fsCreateFile s env.tick (some name)
    .ok (r.2, report (r.1 = 0) (ascii "  Created: " ++ name.bytes ++ [10]) (ascii "  Failed\n"))
  | _ => .ok (s, usage "  Usage: touch <file>\n")

def cmdMkdirShell (env : ShellEnv) (s : FsState) : List CStr → CmdResult
  | _ :: name :: _ =>
    let r := fsMkdir s env.tick (some name)
    .ok (r.2, report (r.1 = 0) (ascii "  Created: " ++ name.bytes ++ [10]) (ascii "  Failed\n"))
  | _ => .ok (s, usage "  Usage: mkdir <dir>\n")

def cmdRm (s : FsState) : List CStr → CmdResult
  | _ :: name :: _ =>
    let r := fsDelete s name
    .ok (r.2, report (r.1 = 0) (ascii "  Deleted: " ++ name.bytes ++ [10]) (ascii "  Failed\n"))
  | _ => .ok (s, usage "  Usage: rm <n>\n")

def cmdCd (s : FsState) : List CStr → CmdResult
  | _ :: name :: _ =>
    let r := fsCd s name
    .ok (r.2,
      if r.1 < 0 then
        [.ink vgaLightRed, .print (ascii "  No such dir: " ++ name.bytes ++ [10]), .ink vgaLightGrey]
      else [])
  | _ => .ok ((fsCd s (.ofString "/")).2, [])

def cmdCat (env : ShellEnv) (s : FsState) : List CStr → CmdResult
  | _ :: name :: _ => do
    let (r, buf) ← readInto s name (env.junk 4096) 4096
    if r < 0 then
      .ok (s, [.ink vgaLightRed, .print (ascii "  Not found: " ++ name.bytes ++ [10]),
        .ink vgaLightGrey])
    else
      .ok (s, [.ink vgaLightGrey, .print ([10] ++ buf.str.bytes ++ [10]), .ink vgaLightGrey])
  | _ => .ok (s, usage "  Usage: cat <file>\n")

def cmdWriteFile (env : ShellEnv) (s : FsState) : List CStr → CmdResult
  | _ :: name :: w :: ws => do
    let data ← env.emptyArray 1024
    let data ← catArgs data (w :: ws)
    let data ← strcat data (.ofString "\n")
    let r := fsWriteFile s name data.str.bytes
    .ok (r.2, report (¬ r.1 < 0) (ascii "  Wrote " ++ printInt r.1 ++ ascii " bytes\n")
      (ascii "  Not found (touch first)\n"))
  | _ => .ok (s, usage "  Usage: write <file> <text>\n")

def notesFile : CStr := .ofString "notes.txt"

def cmdNote (env : ShellEnv) (s : FsState) : List CStr → CmdResult
  | _ :: w :: ws => do
    let s := (fsCreateFile s env.tick (some notesFile)).2
    let data ← env.emptyArray 1024
    let data ← catArgs data (w :: ws)
    let data ← strcat data (.ofString "\n")
    let (el, ex) ← readInto s notesFile (env.junk 4096) 4096
    let text ← if el > 0 then do .ok (← strcat ex data.str).str else .ok data.str
    .ok ((fsWriteFile s notesFile text.bytes).2,
      [.ink vgaGreen, .print (ascii "  Saved!\n"), .ink vgaLightGrey])
  | _ => do
    let (r, buf) ← readInto s notesFile (env.junk 4096) 4096
    if r < 0 then .ok (s, [.print (ascii "  No notes\n")])
    else
      .ok (s, [.ink vgaWhite, .print (ascii "\n  Notes:\n"), .ink vgaLightGrey,
        .print (buf.str.bytes ++ [10])])

/-! ### The editor -/

structure Editor where
  buf : CharArray 4096
  buflen : ℕ

/-- `if(buflen<4094){buf[buflen++]=c;terminal_putchar(c);}`. -/
def Editor.append (e : Editor) (c : UInt8) : Except Stuck (Editor × List Console) :=
  if e.buflen < 4094 then do .ok (⟨← e.buf.store e.buflen c, e.buflen + 1⟩, [.putchar c])
  else .ok (e, [])

/-- A key other than ESC. -/
def Editor.key (e : Editor) (c : UInt8) : Except Stuck (Editor × List Console) :=
  if c = 8 then
    if e.buflen > 0 then .ok ({ e with buflen := e.buflen - 1 }, [.putchar 8]) else .ok (e, [])
  else if c = 10 then e.append 10
  else if 32 ≤ c ∧ c < 127 then e.append c
  else .ok (e, [])

/-- The `while(1)` of `cmd_edit`. -/
def editLoop (s : FsState) (name : CStr) (e : Editor) (out : List Console) : List UInt8 → CmdResult
  | [] => .error .waiting
  | c :: keys =>
    if c = keyEsc then do
      let buf ← e.buf.store e.buflen 0
      .ok ((fsWriteFile s name (buf.bytes.take e.buflen)).2,
        out ++ [.clear, .ink vgaGreen,
          .print (ascii "  Saved " ++ name.bytes ++ ascii " (" ++ printInt e.buflen ++ ascii " bytes)\n"),
          .ink vgaLightGrey])
    else do
      let (e, shown) ← e.key c
      editLoop s name e (out ++ shown) keys

def editTitle (name : CStr) : List UInt8 :=
  ascii "  EDIT: " ++ name.bytes ++
    ascii "  | ESC=save                                                  "

def cmdEdit (env : ShellEnv) (s : FsState) : List CStr → CmdResult
  | _ :: name :: _ => do
    let buf ← env.emptyArray 4096
    let (r, buf) ← readInto s name buf 4095
    let buflen := if r > 0 then r.toNat else 0
    let s := if r > 0 then s else (fsCreateFile s env.tick (some name)).2
    editLoop s name ⟨buf, buflen⟩
      ([.clear, .setcolor (vgaEntryColor vgaBlack vgaLightCyan), .print (editTitle name),
        .ink vgaLightGreen, .print [10]] ++ if buflen > 0 then [.print buf.str.bytes] else [])
      env.keys
  | _ => .ok (s, usage "  Usage: edit <file>\n")

/-! ### The tree -/

/-- The indent and the tree connector. -/
def treeConnector (depth : ℕ) : List Console :=
  List.replicate depth (Console.print (ascii "    ")) ++ [.ink vgaDarkGrey, .print (ascii "|-- ")]

/-- A round of the loop; `below` is the nested call for a directory. -/
def treePrintNode (nodes : NodeIdx → FsNode) (below : NodeIdx → Except Stuck (List Console))
    (dirIdx : NodeIdx) (depth : ℕ) (i : NodeIdx) : Except Stuck (List Console) :=
  let node := nodes i
  if node.inUse = false then .ok []
  else if node.parent ≠ some dirIdx then .ok []
  else if i = 0 then .ok []
  else if node.type = .dir then do
    .ok (treeConnector depth ++ [.ink vgaLightCyan, .print (node.name.str.bytes ++ ascii "/\n")] ++
      (← below i))
  else
    .ok (treeConnector depth ++ [.ink vgaLightGrey, .print node.name.str.bytes, .ink vgaDarkGrey,
      .print (ascii "  (" ++ printInt (intOfU32 node.size) ++ ascii " bytes)\n")])

/-- The call for `dirIdx`, with room for `frames` active calls, itself included. -/
def treePrintRecurse (nodes : NodeIdx → FsNode) : ℕ → NodeIdx → ℕ → Except Stuck (List Console)
  | 0, _, _ => .error .nesting
  | frames + 1, dirIdx, depth => do
    let blocks ← (List.finRange fsMaxFiles).mapM
      (treePrintNode nodes (fun i => treePrintRecurse nodes frames i (depth + 1)) dirIdx depth)
    .ok blocks.flatten

def cmdTree (frames : ℕ) (s : FsState) : CmdResult := do
  let tree ← treePrintRecurse s.nodes frames 0 1
  .ok (s, [.ink vgaLightCyan, .print (ascii "\n  /\n")] ++ tree ++ [.ink vgaLightGrey, .print [10]])

/-! ## The command line -/

/-- The loop that cuts the line from `tok` on into at most `args` more arguments. -/
def splitArgs : ℕ → List UInt8 → List CStr
  | 0, _ => []
  | args + 1, tok =>
    let tok := tok.dropWhile (· = space)
    if tok = [] then []
    else .ofBuffer (tok.takeWhile (· ≠ space)) :: splitArgs args (tok.dropWhile (· ≠ space)).tail

def executeCommand (env : ShellEnv) (s : FsState) (input : CStr) : CmdResult :=
  match splitArgs maxArgs input.bytes with
  | [] => .ok (s, [])
  | cmd :: args =>
    let is name := strcmp cmd.bytes (CStr.ofString name).bytes = 0
    let argv := cmd :: args
    if is "pwd" then .ok (s, [.print (ascii "  " ++ (fsPwd s).bytes ++ [10])])
    else if is "cd" then cmdCd s argv
    else if is "cat" then cmdCat env s argv
    else if is "touch" then cmdTouch env s argv
    else if is "write" then cmdWriteFile env s argv
    else if is "edit" then cmdEdit env s argv
    else if is "mkdir" then cmdMkdirShell env s argv
    else if is "rm" then cmdRm s argv
    else if is "tree" then cmdTree env.frames s
    else if is "note" then cmdNote env s argv
    else env.other s argv

end MyMisu
