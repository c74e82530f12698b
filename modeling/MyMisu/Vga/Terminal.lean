import MyMisu.CString
import MyMisu.Lib.CellArray
import MyMisu.Lib.TransitionSystem

/-!
# The text terminal

The static variables and functions of `vga.c`.  Video memory is an array of cells that records the
indices stored to.  A call that may show the pager prompt takes the key `keyboard_getchar` returns
there; a call that writes several characters takes one such key for each.
-/

namespace MyMisu

def vgaWidth : ℕ := 80
def vgaHeight : ℕ := 25

def vgaBlack : UInt8 := 0
def vgaGreen : UInt8 := 2
def vgaRed : UInt8 := 4
def vgaLightGrey : UInt8 := 7
def vgaDarkGrey : UInt8 := 8
def vgaLightBlue : UInt8 := 9
def vgaLightGreen : UInt8 := 10
def vgaLightCyan : UInt8 := 11
def vgaLightRed : UInt8 := 12
def vgaYellow : UInt8 := 14
def vgaWhite : UInt8 := 15

def vgaEntryColor (fg bg : UInt8) : UInt8 := fg ||| bg <<< 4

def vgaEntry (c color : UInt8) : UInt16 := c.toUInt16 ||| color.toUInt16 <<< 8

/-- `' '` -/
def space : UInt8 := 32

/-- `cursor` is the position last sent to the hardware by `terminal_update_cursor`. -/
structure Terminal where
  terminalRow : ℕ
  terminalColumn : ℕ
  terminalColor : UInt8
  terminalBuffer : CellArray UInt16
  pagerEnabled : Bool
  pagerLines : ℕ
  cursor : ℕ

namespace Terminal

def store (t : Terminal) (i : ℕ) (v : UInt16) : Terminal :=
  { t with terminalBuffer := t.terminalBuffer.store i v }

/-- The index of the cell under the cursor. -/
def index (t : Terminal) : ℕ := t.terminalRow * vgaWidth + t.terminalColumn

/-- `terminal_row++` with the column back at 0. -/
def newRow (t : Terminal) : Terminal :=
  { t with terminalColumn := 0, terminalRow := t.terminalRow + 1 }

end Terminal

def terminalUpdateCursor (t : Terminal) (x y : ℕ) : Terminal :=
  { t with cursor := (y * vgaWidth + x) % 2 ^ 16 }

@[simp] theorem terminalUpdateCursor_buffer (t : Terminal) (x y : ℕ) :
    (terminalUpdateCursor t x y).terminalBuffer = t.terminalBuffer := rfl

/-- The loop that blanks all cells. -/
def blankScreen (t : Terminal) : Terminal :=
  { t with
    terminalBuffer :=
      t.terminalBuffer.fillRows vgaWidth vgaHeight (vgaEntry space t.terminalColor) }

def terminalInitialize (t : Terminal) : Terminal :=
  let t := { t with
    terminalRow := 0
    terminalColumn := 0
    terminalColor := vgaEntryColor vgaLightGrey vgaBlack }
  terminalUpdateCursor (blankScreen t) 0 0

def terminalClear (t : Terminal) : Terminal :=
  let t := { t with terminalRow := 0, terminalColumn := 0, pagerLines := 0 }
  terminalUpdateCursor (blankScreen t) 0 0

def terminalSetcolor (t : Terminal) (color : UInt8) : Terminal := { t with terminalColor := color }

def terminalScroll (t : Terminal) : Terminal :=
  let buffer := t.terminalBuffer.rowsUp vgaWidth (vgaHeight - 1)
  { t with
    terminalBuffer :=
      buffer.fill ((vgaHeight - 1) * vgaWidth) vgaWidth fun _ => vgaEntry space t.terminalColor }

/-- `if (terminal_row >= VGA_HEIGHT) { terminal_scroll(); terminal_row = VGA_HEIGHT - 1; }` -/
def scrollIntoView (t : Terminal) : Terminal :=
  if t.terminalRow ≥ vgaHeight then { terminalScroll t with terminalRow := vgaHeight - 1 } else t

def pagerMsg : CStr := .ofString " -- Press any key for more, Q to stop -- "

/-- The prompt at the row of the cursor, and the row blank again after the key. -/
def pagerPrompt (t : Terminal) : Terminal :=
  let saved := t.terminalColor
  let t := scrollIntoView { t with terminalColor := vgaEntryColor vgaBlack vgaLightGrey }
  let buffer := t.terminalBuffer.fill t.index (strlen pagerMsg.bytes) fun i =>
    vgaEntry (pagerMsg.bytes.getD i 0) t.terminalColor
  let buffer := buffer.fill (t.terminalRow * vgaWidth) vgaWidth fun _ => vgaEntry space saved
  { t with
    terminalBuffer := buffer
    terminalColor := saved
    terminalColumn := 0
    pagerLines := 0 }

/-- What follows the branches of `terminal_putchar`. -/
def finishPutchar (t : Terminal) : Terminal :=
  let t := scrollIntoView t
  terminalUpdateCursor t t.terminalColumn t.terminalRow

/-- The branch for a newline; `q` and `Q` at the prompt end the call there. -/
def putNewline (t : Terminal) (key : UInt8) : Terminal :=
  let t := t.newRow
  if t.pagerEnabled then
    let t := { t with pagerLines := t.pagerLines + 1 }
    if t.pagerLines ≥ vgaHeight - 2 then
      let t := pagerPrompt t
      if key = 113 ∨ key = 81 then { t with pagerEnabled := false } else finishPutchar t
    else finishPutchar t
  else finishPutchar t

/-- `(n + 4) & ~3` -/
def nextTab (n : ℕ) : ℕ := (n + 4) % 2 ^ 32 &&& 0xFFFFFFFC

/-- The other branches of `terminal_putchar`, up to the repair behind them. -/
def putOther (t : Terminal) (c : UInt8) : Terminal :=
  if c = 13 then { t with terminalColumn := 0 }
  else if c = 9 then
    let t := { t with terminalColumn := nextTab t.terminalColumn }
    if t.terminalColumn ≥ vgaWidth then t.newRow else t
  else if c = 8 then
    if t.terminalColumn > 0 then
      let t := { t with terminalColumn := t.terminalColumn - 1 }
      t.store t.index (vgaEntry space t.terminalColor)
    else t
  else
    let t := t.store t.index (vgaEntry c t.terminalColor)
    let t := { t with terminalColumn := t.terminalColumn + 1 }
    if t.terminalColumn ≥ vgaWidth then t.newRow else t

def terminalPutchar (t : Terminal) (c key : UInt8) : Terminal :=
  if c = 10 then putNewline t key else finishPutchar (putOther t c)

def terminalPutcharColor (t : Terminal) (c color key : UInt8) : Terminal :=
  { terminalPutchar { t with terminalColor := color } c key with terminalColor := t.terminalColor }

def terminalWrite (t : Terminal) (data : List UInt8) (keys : ℕ → UInt8) : Terminal :=
  data.zipIdx.foldl (fun t ck => terminalPutchar t ck.1 (keys ck.2)) t

def terminalWritestring (t : Terminal) (str : CStr) (keys : ℕ → UInt8) : Terminal :=
  terminalWrite t str.bytes keys

def terminalEnablePager (t : Terminal) : Terminal := { t with pagerEnabled := true, pagerLines := 0 }

def terminalDisablePager (t : Terminal) : Terminal :=
  { t with pagerEnabled := false, pagerLines := 0 }

/-! ## Runs of the terminal -/

inductive TermOp
  | putchar (c key : UInt8)
  | putcharColor (c color key : UInt8)
  | write (data : List UInt8) (keys : ℕ → UInt8)
  | writestring (str : CStr) (keys : ℕ → UInt8)
  | clear
  | setcolor (color : UInt8)
  | enablePager
  | disablePager

def termExec (t : Terminal) : TermOp → Terminal
  | .putchar c key => terminalPutchar t c key
  | .putcharColor c color key => terminalPutcharColor t c color key
  | .write data keys => terminalWrite t data keys
  | .writestring str keys => terminalWritestring t str keys
  | .clear => terminalClear t
  | .setcolor color => terminalSetcolor t color
  | .enablePager => terminalEnablePager t
  | .disablePager => terminalDisablePager t

/-- The terminal from `terminal_initialize` on, whatever video memory held before. -/
def termSystem : TransitionSystem Terminal TermOp :=
  .ofFun (fun t => ∃ t₀, t₀.terminalBuffer.stored = [] ∧ t = terminalInitialize t₀) termExec

end MyMisu
