import MyMisu.CharArray
import MyMisu.Keyboard.State
import MyMisu.Vga.Console

/-!
# Lines typed into an array

The shell reads a line, a name or a password by storing characters in a local array one after the
other.  A typed line is the array with the index behind the last character; the reference is the
text, to which a printable character is appended while there is room and from which backspace takes
the last one away.
-/

namespace MyMisu

variable {size : ℕ}

/-- `char buf[size]; int len;` -/
structure Line (size : ℕ) where
  buf : CharArray size
  len : ℕ

namespace Line

/-- The characters typed so far. -/
def text (l : Line size) : List UInt8 := l.buf.bytes.take l.len

/-- `buf[len++] = c` -/
def push (l : Line size) (c : UInt8) : Except Stuck (Line size) := do
  .ok ⟨← l.buf.store l.len c, l.len + 1⟩

/-- `if(len>0){len--;terminal_putchar('\b');}` -/
def back (l : Line size) : Line size × List Console :=
  if l.len > 0 then ({ l with len := l.len - 1 }, [.putchar 8]) else (l, [])

/-- `buf[len]='\0'` -/
def close (l : Line size) : Except Stuck (CharArray size) := l.buf.store l.len 0

end Line

/-- What a key other than Enter makes of a text for which there is room for `cap` characters. -/
def typeKey (cap : ℕ) (text : List UInt8) (c : UInt8) : List UInt8 :=
  if c = 8 then text.dropLast
  else if text.length < cap ∧ IsPrintable c then text ++ [c]
  else text

/-- The line that keys type. -/
def typed (cap : ℕ) (keys : List UInt8) : List UInt8 := keys.foldl (typeKey cap) []

/-- A key other than Enter in a field of 31 characters, and what it shows. -/
def fieldKey (echo : UInt8 → UInt8) (l : Line 32) (c : UInt8) : Except Stuck (Line 32 × List Console) :=
  if c = 8 then .ok l.back
  else if l.len < 31 ∧ 32 ≤ c ∧ c < 127 then do .ok (← l.push c, [.putchar (echo c)])
  else .ok (l, [])

/-- The loop that reads a field, with what Enter shows: the array, the keys left and the output. -/
def readField (echo : UInt8 → UInt8) (enter : List Console) (l : Line 32) (out : List Console) :
    List UInt8 → Except Stuck (CharArray 32 × List UInt8 × List Console)
  | [] => .error .waiting
  | c :: keys =>
    if c = 10 then do .ok (← l.close, keys, out ++ enter)
    else do
      let (l, shown) ← fieldKey echo l c
      readField echo enter l (out ++ shown) keys

/-! ## The array against the text -/

namespace Line

variable {l : Line size}

theorem length_text (h : l.len ≤ size) : l.text.length = l.len := by
  rw [text, List.length_take, l.buf.length_eq, min_eq_left h]

theorem push_ok (h : l.len < size) (c : UInt8) :
    ∃ l', l.push c = .ok l' ∧ l'.len = l.len + 1 ∧ l'.text = l.text ++ [c] := by
  refine ⟨⟨l.buf.set l.len c, l.len + 1⟩, ?_, rfl, l.buf.take_set h c⟩
  rw [push, l.buf.store_ok h]
  rfl

theorem back_fst_len (l : Line size) : l.back.1.len = l.len - 1 := by
  unfold back
  split_ifs <;> simp only
  omega

theorem back_text (h : l.len ≤ size) : l.back.1.text = l.text.dropLast := by
  rw [List.dropLast_eq_take, length_text h]
  unfold back
  split_ifs with hpos
  · show l.buf.bytes.take (l.len - 1) = (l.buf.bytes.take l.len).take (l.len - 1)
    rw [List.take_take, min_eq_left (Nat.sub_le _ _)]
  · have hnil : l.text = [] := List.length_eq_zero_iff.mp (by rw [length_text h]; omega)
    show l.text = l.text.take (l.len - 1)
    rw [hnil, List.take_nil]

/-- The terminator stands behind the text. -/
theorem close_ok (h : l.len < size) (hnoNul : ∀ c ∈ l.text, c ≠ 0) :
    ∃ a, l.close = .ok a ∧ a.str.bytes = l.text :=
  ⟨l.buf.set l.len 0, l.buf.store_ok h 0, l.buf.str_set h rfl hnoNul⟩

end Line

theorem IsPrintable.ne_zero {c : UInt8} (h : IsPrintable c) : c ≠ 0 := by
  rintro rfl
  exact absurd h (by decide)

/-- The line in the array is the text, and there is room for `cap` characters and a terminator. -/
structure Line.Holds (l : Line size) (cap : ℕ) (chars : List UInt8) : Prop where
  text : l.text = chars
  len : l.len ≤ cap
  room : cap < size
  printable : ∀ c ∈ chars, IsPrintable c

namespace Line.Holds

variable {l : Line size} {cap : ℕ} {chars : List UInt8}

theorem length (h : l.Holds cap chars) : l.len = chars.length := by
  rw [← h.text, length_text (h.len.trans h.room.le)]

theorem empty (l : Line size) (hlen : l.len = 0) (hroom : cap < size) : l.Holds cap [] where
  text := by rw [Line.text, hlen, List.take_zero]
  len := by omega
  room := hroom
  printable := List.forall_mem_nil _

theorem push (h : l.Holds cap chars) (hlt : chars.length < cap) {c : UInt8} (hc : IsPrintable c) :
    ∃ l', l.push c = .ok l' ∧ l'.Holds cap (chars ++ [c]) := by
  have hlen := h.length
  obtain ⟨l', hrun, hlen', htext⟩ := l.push_ok (show l.len < size by have := h.room; omega) c
  refine ⟨l', hrun, ?_, by omega, h.room, ?_⟩
  · rw [htext, h.text]
  · rw [List.forall_mem_append, List.forall_mem_singleton]
    exact ⟨h.printable, hc⟩

theorem back (h : l.Holds cap chars) : l.back.1.Holds cap chars.dropLast where
  text := by rw [back_text (h.len.trans h.room.le), h.text]
  len := by
    rw [back_fst_len]
    exact (Nat.sub_le _ _).trans h.len
  room := h.room
  printable c hc := h.printable c (List.mem_of_mem_dropLast hc)

theorem close (h : l.Holds cap chars) : ∃ a, l.close = .ok a ∧ a.str.bytes = chars := by
  rw [← h.text]
  refine l.close_ok (h.len.trans_lt h.room) ?_
  rw [h.text]
  exact fun c hc => (h.printable c hc).ne_zero

end Line.Holds

variable {echo : UInt8 → UInt8} {enter : List Console} {l : Line 32} {chars keys : List UInt8}

theorem fieldKey_ok (h : l.Holds 31 chars) (c : UInt8) :
    ∃ l' shown, fieldKey echo l c = .ok (l', shown) ∧ l'.Holds 31 (typeKey 31 chars c) := by
  unfold fieldKey typeKey
  by_cases hback : c = 8
  · rw [if_pos hback, if_pos hback]
    exact ⟨_, _, rfl, h.back⟩
  rw [if_neg hback, if_neg hback, h.length]
  by_cases hroom : chars.length < 31 ∧ 32 ≤ c ∧ c < 127
  · obtain ⟨l', hrun, hl'⟩ := h.push hroom.1 hroom.2
    rw [if_pos hroom, if_pos (show chars.length < 31 ∧ IsPrintable c from hroom), hrun]
    exact ⟨l', _, rfl, hl'⟩
  · rw [if_neg hroom, if_neg (show ¬ (chars.length < 31 ∧ IsPrintable c) from hroom)]
    exact ⟨l, _, rfl, h⟩

/-- A field is read up to the first Enter. -/
theorem readField_ok (h : l.Holds 31 chars) (hkeys : 10 ∉ keys) (rest : List UInt8)
    (out : List Console) :
    ∃ a shown, readField echo enter l out (keys ++ 10 :: rest) = .ok (a, rest, shown) ∧
      a.str.bytes = keys.foldl (typeKey 31) chars := by
  induction keys generalizing l chars out with
  | nil =>
    obtain ⟨a, hclose, ha⟩ := h.close
    refine ⟨a, out ++ enter, ?_, ha⟩
    rw [List.nil_append, readField, if_pos rfl, hclose]
    rfl
  | cons c keys ih =>
    have hc : c ≠ 10 := fun heq => hkeys (heq ▸ List.mem_cons_self)
    obtain ⟨l', shown, hkey, hl'⟩ := fieldKey_ok h c
    obtain ⟨a, all, hrun, ha⟩ := ih hl' (fun hmem => hkeys (List.mem_cons_of_mem _ hmem)) (out ++ shown)
    refine ⟨a, all, ?_, ha⟩
    rw [List.cons_append, readField, if_neg hc, hkey]
    exact hrun

/-- Reading a field takes keys. -/
theorem readField_shorter {a : CharArray 32} {rest : List UInt8} {out shown : List Console}
    (h : readField echo enter l out keys = .ok (a, rest, shown)) : rest.length < keys.length := by
  induction keys generalizing l out with
  | nil => cases h
  | cons c keys ih =>
    rw [readField] at h
    split_ifs at h with hc
    · rcases hclose : l.close with e | b
      · rw [hclose] at h
        cases h
      · rw [hclose] at h
        cases h
        exact Nat.lt_succ_self _
    · rcases hkey : fieldKey echo l c with e | b
      · rw [hkey] at h
        cases h
      · rw [hkey] at h
        exact (ih h).trans (Nat.lt_succ_self _)

/-- Without an Enter the loop waits for keys. -/
theorem readField_waiting (h : l.Holds 31 chars) (hkeys : 10 ∉ keys) (out : List Console) :
    readField echo enter l out keys = .error .waiting := by
  induction keys generalizing l chars out with
  | nil => rfl
  | cons c keys ih =>
    have hc : c ≠ 10 := fun heq => hkeys (heq ▸ List.mem_cons_self)
    obtain ⟨l', shown, hkey, hl'⟩ := fieldKey_ok h c
    rw [readField, if_neg hc, hkey]
    exact ih hl' (fun hmem => hkeys (List.mem_cons_of_mem _ hmem)) (out ++ shown)

end MyMisu
