import MyMisu.Vga.Terminal

/-! Calls on the terminal, as the rest of the kernel makes them. -/

namespace MyMisu

/-- A call on the terminal; `print` is what `kprintf` writes. -/
inductive Console
  | setcolor (color : UInt8)
  | print (text : List UInt8)
  | putchar (c : UInt8)
  | clear
  deriving DecidableEq

/-- `terminal_setcolor(vga_entry_color(fg, VGA_BLACK))`. -/
def Console.ink (fg : UInt8) : Console := .setcolor (vgaEntryColor fg vgaBlack)

/-- What is printed, whatever the colour. -/
def Console.text : Console → List UInt8
  | .print text => text
  | .putchar c => [c]
  | .setcolor _ | .clear => []

/-- `c >= 32 && c < 127` -/
def IsPrintable (c : UInt8) : Prop := 32 ≤ c ∧ c < 127

instance (c : UInt8) : Decidable (IsPrintable c) := inferInstanceAs (Decidable (_ ∧ _))

end MyMisu
