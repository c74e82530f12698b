import MyMisu.CString
import MyMisu.Lib.RingBuffer

/-!
# The keyboard driver

The buffer and the modifier flags of `keyboard.c`, with the interrupt handler as a function of the
byte it reads from port 0x60.  A `char` is a byte; `keyboard_getchar` is split where an interrupt
may come, in `Keyboard.Queue`.
-/

namespace MyMisu

def kbBufferSize : ℕ := 256

def keyUp : UInt8 := 1
def keyDown : UInt8 := 2
def keyLeft : UInt8 := 3
def keyRight : UInt8 := 4
def keyEsc : UInt8 := 0x1B

structure Keyboard where
  kbBuffer : ℕ → UInt8
  kbRead : ℕ
  kbWrite : ℕ
  shiftPressed : Bool
  capsLock : Bool
  extended : Bool

namespace Keyboard

/-- The static variables before any interrupt. -/
def start : Keyboard where
  kbBuffer := fun _ => 0
  kbRead := 0
  kbWrite := 0
  shiftPressed := false
  capsLock := false
  extended := false

/-- The buffer as a ring. -/
def ring (kb : Keyboard) : RingBuffer UInt8 := ⟨kb.kbBuffer, kb.kbRead, kb.kbWrite⟩

end Keyboard

def ascii (s : String) : List UInt8 := (CStr.ofString s).bytes

def scancodeNormal : List UInt8 :=
  [0, 27] ++ ascii "1234567890-=" ++ [8, 9] ++ ascii "qwertyuiop[]" ++ [10, 0] ++
    ascii "asdfghjkl;'`" ++ [0] ++ ascii "\\zxcvbnm,./" ++ [0] ++ ascii "*" ++ [0] ++ ascii " "

def scancodeShift : List UInt8 :=
  [0, 27] ++ ascii "!@#$%^&*()_+" ++ [8, 9] ++ ascii "QWERTYUIOP\x7b\x7d" ++ [10, 0] ++
    ascii "ASDFGHJKL:\"~" ++ [0] ++ ascii "|ZXCVBNM<>?" ++ [0] ++ ascii "*" ++ [0] ++ ascii " "

def kbPush (kb : Keyboard) (c : UInt8) : Keyboard :=
  let next := (kb.kbWrite + 1) % kbBufferSize
  if next ≠ kb.kbRead then
    { kb with kbBuffer := Function.update kb.kbBuffer kb.kbWrite c, kbWrite := next }
  else kb

/-- The character of a make code, 0 for none; an entry behind the ones listed in a table is 0. -/
def scancodeChar (kb : Keyboard) (scancode : UInt8) : UInt8 :=
  let normal := scancodeNormal.getD scancode.toNat 0
  let useShift :=
    if kb.capsLock ∧ 97 ≤ normal ∧ normal ≤ 122 then !kb.shiftPressed else kb.shiftPressed
  if useShift then scancodeShift.getD scancode.toNat 0 else normal

def keyboardCallback (kb : Keyboard) (scancode : UInt8) : Keyboard :=
  if scancode = 0xE0 then { kb with extended := true }
  else if kb.extended then
    let kb := { kb with extended := false }
    if scancode &&& 0x80 ≠ 0 then kb
    else if scancode = 0x48 then kbPush kb keyUp
    else if scancode = 0x50 then kbPush kb keyDown
    else if scancode = 0x4B then kbPush kb keyLeft
    else if scancode = 0x4D then kbPush kb keyRight
    else kb
  else if scancode &&& 0x80 ≠ 0 then
    let released := scancode &&& 0x7F
    if released = 0x2A ∨ released = 0x36 then { kb with shiftPressed := false } else kb
  else if scancode = 0x2A ∨ scancode = 0x36 then { kb with shiftPressed := true }
  else if scancode = 0x3A then { kb with capsLock := !kb.capsLock }
  else if scancode = 0x01 then kbPush kb keyEsc
  else
    let c := scancodeChar kb scancode
    if c = 0 then kb else kbPush kb c

def keyboardHaschar (kb : Keyboard) : Bool := decide (kb.kbRead ≠ kb.kbWrite)

theorem kbPush_ring (kb : Keyboard) (c : UInt8) :
    (kbPush kb c).ring =
      if (kb.kbWrite + 1) % kbBufferSize ≠ kb.kbRead then kb.ring.put kbBufferSize c else kb.ring := by
  simp only [kbPush]
  split <;> rfl

/-- An interrupt stores at most one character, and that one is not NUL. -/
theorem keyboardCallback_cases (kb : Keyboard) (scancode : UInt8) :
    (keyboardCallback kb scancode).ring = kb.ring ∨
      ∃ kb' c, kb'.ring = kb.ring ∧ c ≠ 0 ∧ keyboardCallback kb scancode = kbPush kb' c := by
  unfold keyboardCallback
  by_cases hprefix : scancode = 0xE0
  · rw [if_pos hprefix]
    exact .inl rfl
  rw [if_neg hprefix]
  by_cases hext : kb.extended = true
  -- the arrow keys behind a prefix
  · rw [if_pos hext]
    simp only
    split_ifs
    · exact .inl rfl
    · exact .inr ⟨{ kb with extended := false }, keyUp, rfl, by decide, rfl⟩
    · exact .inr ⟨{ kb with extended := false }, keyDown, rfl, by decide, rfl⟩
    · exact .inr ⟨{ kb with extended := false }, keyLeft, rfl, by decide, rfl⟩
    · exact .inr ⟨{ kb with extended := false }, keyRight, rfl, by decide, rfl⟩
    · exact .inl rfl
  rw [if_neg hext]
  simp only
  split_ifs with _ _ _ _ _ hnul
  · exact .inl rfl
  · exact .inl rfl
  · exact .inl rfl
  · exact .inl rfl
  · exact .inr ⟨kb, keyEsc, rfl, by decide, rfl⟩
  · exact .inl rfl
  · exact .inr ⟨kb, scancodeChar kb scancode, rfl, hnul, rfl⟩

end MyMisu
