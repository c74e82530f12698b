import MyMisu.Interrupt.Dispatch
import MyMisu.Klog
import MyMisu.Lib.Hexadecimal

/-!
# Formatted output

`kprintf` of `kprintf.c` as an interpreter of format strings.  A format is meant as a row of pieces,
texts and values, and prints the texts as they are and the canonical numerals of the values; the
values can be read back from what is printed.
-/

namespace MyMisu

open Decimal

/-- What lies behind `...`: a pointer to a string or NULL, or a word. -/
inductive VarArg
  | str (s : Option CStr)
  | word (w : BitVec 32)

/-- What `print_uint` writes. -/
def printUint (value : ℕ) : List UInt8 :=
  (if value / 10 ≠ 0 then printUint (value / 10) else []) ++ [(48 + value % 10).toUInt8]
termination_by value
decreasing_by omega

/-- What `print_hex` writes. -/
def printHex (value : ℕ) : List UInt8 :=
  (if value / 16 ≠ 0 then printHex (value / 16) else []) ++
    [(ascii "0123456789abcdef").getD (value % 16) 0]
termination_by value
decreasing_by omega

/-- The `switch` over the character behind `%`: what it writes, and the arguments that are left.
`va_arg` on a missing argument, or on one of the other kind, is undefined. -/
def kprintfDirective (d : UInt8) (args : List VarArg) : Option (List UInt8 × List VarArg) :=
  if d = 115 then
    match args with
    | .str (some s) :: args => some (s.bytes, args)
    | .str none :: args => some (ascii "(null)", args)
    | _ => none
  else if d = 100 then
    match args with
    | .word w :: args => some (printInt w.toInt, args)
    | _ => none
  else if d = 117 then
    match args with
    | .word w :: args => some (printUint w.toNat, args)
    | _ => none
  else if d = 120 then
    match args with
    | .word w :: args => some (printHex w.toNat, args)
    | _ => none
  else if d = 99 then
    match args with
    | .word w :: args => some ([w.toNat.toUInt8], args)
    | _ => none
  else if d = 37 then some ([37], args)
  else some ([37, d], args)

/-- What `kprintf` writes. -/
def kprintf : List UInt8 → List VarArg → Option (List UInt8)
  | [], _ => some []
  -- a percent sign at the end has no character behind it
  | [c], _ => some [c]
  | c :: d :: fmt, args =>
    if c = 37 then
      match kprintfDirective d args with
      | none => none
      | some (shown, args) => (kprintf fmt args).map (shown ++ ·)
    else (kprintf (d :: fmt) args).map (c :: ·)

/-! ## Formats as they are meant -/

inductive Piece
  | text (t : List UInt8)
  | str (s : Option CStr)
  | int (v : ℤ)
  | uint (n : ℕ)
  | hex (n : ℕ)
  | char (c : UInt8)

namespace Piece

/-- A percent sign in a text is doubled. -/
def format : Piece → List UInt8
  | text t => t.flatMap fun c => if c = 37 then [37, 37] else [c]
  | str _ => ascii "%s"
  | int _ => ascii "%d"
  | uint _ => ascii "%u"
  | hex _ => ascii "%x"
  | char _ => ascii "%c"

def args : Piece → List VarArg
  | text _ => []
  | str s => [.str s]
  | int v => [.word (BitVec.ofInt 32 v)]
  | uint n => [.word (BitVec.ofNat 32 n)]
  | hex n => [.word (BitVec.ofNat 32 n)]
  | char c => [.word (BitVec.ofNat 32 c.toNat)]

def shown : Piece → List UInt8
  | text t => t
  | str (some s) => s.bytes
  | str none => ascii "(null)"
  | int v => intNumeral v
  | uint n => numeral n
  | hex n => hexNumeral n
  | char c => [c]

/-- The values of their types, but for the least `int`. -/
def Fits : Piece → Prop
  | int v => -2 ^ 31 < v ∧ v < 2 ^ 31
  | uint n => n < 2 ^ 32
  | hex n => n < 2 ^ 32
  | _ => True

instance : DecidablePred Fits
  | text _ | str _ | char _ => .isTrue trivial
  | int _ => inferInstanceAs (Decidable (_ ∧ _))
  | uint n | hex n => inferInstanceAs (Decidable (n < 2 ^ 32))

end Piece

/-! ## Numerals -/

theorem printUint_eq (n : ℕ) : printUint n = numeral n := by
  induction n using Nat.strong_induction_on with
  | _ n ih =>
  rw [printUint, numeral_eq]
  by_cases h : n < 10
  · rw [if_pos h, Nat.div_eq_of_lt h, Nat.mod_eq_of_lt h]
    rfl
  · rw [if_neg h, if_pos (by omega), ih (n / 10) (by omega)]
    rfl

theorem printHex_eq (n : ℕ) : printHex n = hexNumeral n := by
  have hdigit : ∀ d < 16, (ascii "0123456789abcdef").getD d 0 = hexDigit d := by decide
  induction n using Nat.strong_induction_on with
  | _ n ih =>
  rw [printHex, hexNumeral_eq, hdigit _ (Nat.mod_lt _ (by decide))]
  by_cases h : n < 16
  · rw [if_pos h, Nat.div_eq_of_lt h, Nat.mod_eq_of_lt h]
    rfl
  · rw [if_neg h, if_pos (by omega), ih (n / 16) (by omega)]

/-! ## What a format prints -/

variable {fmt : List UInt8} {as : List VarArg} {shown : List UInt8}

theorem kprintf_char {c : UInt8} (hc : c ≠ 37) (h : kprintf fmt as = some shown) :
    kprintf (c :: fmt) as = some (c :: shown) := by
  cases fmt with
  | nil =>
    cases h
    rfl
  | cons d fmt => rw [kprintf, if_neg hc, h, Option.map_some]

theorem kprintf_directive {d : UInt8} {as' : List VarArg} {s : List UInt8}
    (hd : kprintfDirective d as' = some (s, as)) (h : kprintf fmt as = some shown) :
    kprintf (37 :: d :: fmt) as' = some (s ++ shown) := by
  rw [kprintf, if_pos rfl, hd]
  simp only [h, Option.map_some]

theorem kprintf_text (t : List UInt8) (h : kprintf fmt as = some shown) :
    kprintf ((Piece.text t).format ++ fmt) as = some (t ++ shown) := by
  induction t with
  | nil => exact h
  | cons c t ih =>
    rw [Piece.format, List.flatMap_cons, List.append_assoc]
    by_cases hc : c = 37
    · rw [if_pos hc, hc]
      exact kprintf_directive (s := [37]) rfl ih
    · rw [if_neg hc]
      exact kprintf_char hc ih

/-- A piece prints what it is meant to, whatever follows. -/
theorem kprintf_piece {p : Piece} (hp : p.Fits) (h : kprintf fmt as = some shown) :
    kprintf (p.format ++ fmt) (p.args ++ as) = some (p.shown ++ shown) := by
  cases p with
  | text t => exact kprintf_text t h
  | str s =>
    cases s with
    | none => exact kprintf_directive rfl h
    | some s => exact kprintf_directive rfl h
  | int v =>
    have hword : (BitVec.ofInt 32 v).toInt = v := by
      obtain ⟨hlo, hhi⟩ := hp
      rw [BitVec.toInt_ofInt, Int.bmod_eq_of_le (by omega) (by omega)]
    have hprint := printInt_eq hp.1
    rw [← hword] at hprint
    exact (kprintf_directive rfl h).trans (by rw [hprint, hword]; rfl)
  | uint n =>
    have hword : (BitVec.ofNat 32 n).toNat = n := Nat.mod_eq_of_lt hp
    exact (kprintf_directive rfl h).trans (by rw [hword, printUint_eq]; rfl)
  | hex n =>
    have hword : (BitVec.ofNat 32 n).toNat = n := Nat.mod_eq_of_lt hp
    exact (kprintf_directive rfl h).trans (by rw [hword, printHex_eq]; rfl)
  | char c =>
    have hc := c.toNat_lt
    have hword : (BitVec.ofNat 32 c.toNat).toNat = c.toNat := Nat.mod_eq_of_lt (by omega)
    have hbyte : c.toNat.toUInt8 = c := UInt8.ofNat_toNat
    exact (kprintf_directive rfl h).trans (by rw [hword, hbyte]; rfl)

/-- So does a row of pieces. -/
theorem kprintf_row (ps : List Piece) (hps : ∀ p ∈ ps, p.Fits) (h : kprintf fmt as = some shown) :
    kprintf (ps.flatMap Piece.format ++ fmt) (ps.flatMap Piece.args ++ as) =
      some (ps.flatMap Piece.shown ++ shown) := by
  induction ps with
  | nil => exact h
  | cons p ps ih =>
    rw [List.forall_mem_cons] at hps
    simp only [List.flatMap_cons, List.append_assoc]
    exact kprintf_piece hps.1 (ih hps.2)

theorem kprintf_nil : kprintf [] [] = some [] := rfl

/-- A format of any texts and values prints the texts as they are, the strings and the characters, and
the canonical numerals of the values. -/
theorem kprintf_pieces (ps : List Piece) (hps : ∀ p ∈ ps, p.Fits) :
    kprintf (ps.flatMap Piece.format) (ps.flatMap Piece.args) = some (ps.flatMap Piece.shown) := by
  have hrow := kprintf_row ps hps kprintf_nil
  simp only [List.append_nil] at hrow
  exact hrow

theorem kprintf_pieces_report :
    kprintf (ascii "  100%% of %s: %d, 0x%x%c") [.str (some (.ofString "%d")), .word (-5), .word 255, .word 10] =
      some (ascii "  100% of %d: -5, 0xff\n") := by
  have hrow := kprintf_pieces [.text (ascii "  100% of "), .str (some (.ofString "%d")),
    .text (ascii ": "), .int (-5), .text (ascii ", 0x"), .hex 255, .char 10] (by decide)
  exact hrow

/-! ## Reading the values back -/

/-- The same text, or a value of the same kind. -/
def Piece.SameFormat : Piece → Piece → Prop
  | .text t, .text t' => t = t'
  | .int _, .int _ => True
  | .uint _, .uint _ => True
  | .hex _, .hex _ => True
  | .char _, .char _ => True
  | _, _ => False

/-- Nothing, or a text that does not start with a digit. -/
def StartsApart : List Piece → Prop
  | [] => True
  | .text (c :: _) :: _ => ¬ IsHexDigit c
  | _ => False

/-- Behind every number stands a text that does not continue it. -/
def Readable : List Piece → Prop
  | [] => True
  | .str _ :: _ => False
  | .text _ :: ps => Readable ps
  | .char _ :: ps => Readable ps
  | _ :: ps => StartsApart ps ∧ Readable ps

theorem StartsApart.delimits {ps : List Piece} (h : StartsApart ps) :
    Delimits (ps.flatMap Piece.shown) := by
  unfold StartsApart at h
  split at h
  · intro c hc
    cases hc
  · intro c hc
    obtain rfl : _ = c := Option.some.inj hc
    exact h
  · exact h.elim

theorem StartsApart.same {ps qs : List Piece} (h : StartsApart ps)
    (hsame : List.Forall₂ Piece.SameFormat ps qs) : StartsApart qs := by
  cases hsame with
  | nil => trivial
  | @cons p q ps qs hpq _ =>
    cases p with
    | text t =>
      cases q with
      | text t' =>
        obtain rfl : t = t' := hpq
        cases t with
        | nil => exact h.elim
        | cons c t => exact h
      | _ => exact hpq.elim
    | _ => exact h.elim

theorem shown_injective {ps qs : List Piece} (hsame : List.Forall₂ Piece.SameFormat ps qs)
    (hread : Readable ps) (h : ps.flatMap Piece.shown = qs.flatMap Piece.shown) : ps = qs := by
  induction hsame with
  | nil => rfl
  | @cons p q ps qs hpq hrest ih =>
    rw [List.flatMap_cons, List.flatMap_cons] at h
    cases p <;> cases q <;> try exact hpq.elim
    case text.text t t' =>
      obtain rfl : t = t' := hpq
      rw [ih hread (List.append_cancel_left h)]
    case int.int v w =>
      obtain ⟨rfl, hshown⟩ :=
        intNumeral_append_inj hread.1.delimits (hread.1.same hrest).delimits h
      rw [ih hread.2 hshown]
    case uint.uint m n =>
      obtain ⟨hnum, hshown⟩ := append_inj_of_delimits (isHexDigit_numeral m) (isHexDigit_numeral n)
        hread.1.delimits (hread.1.same hrest).delimits h
      rw [numeral_injective hnum, ih hread.2 hshown]
    case hex.hex m n =>
      obtain ⟨hnum, hshown⟩ := append_inj_of_delimits (isHexDigit_hexNumeral m)
        (isHexDigit_hexNumeral n) hread.1.delimits (hread.1.same hrest).delimits h
      rw [hexNumeral_injective hnum, ih hread.2 hshown]
    case char.char c d =>
      obtain ⟨rfl, hshown⟩ := List.cons.inj h
      rw [ih hread hshown]

/-- Different values print differently, as long as no text continues a number. -/
theorem kprintf_distinguishes {ps qs : List Piece} (hsame : List.Forall₂ Piece.SameFormat ps qs)
    (hread : Readable ps) (hps : ∀ p ∈ ps, p.Fits) (hqs : ∀ q ∈ qs, q.Fits) (hne : ps ≠ qs) :
    kprintf (ps.flatMap Piece.format) (ps.flatMap Piece.args) ≠
      kprintf (qs.flatMap Piece.format) (qs.flatMap Piece.args) := by
  have hp := kprintf_row ps hps kprintf_nil
  have hq := kprintf_row qs hqs kprintf_nil
  simp only [List.append_nil] at hp hq
  rw [hp, hq]
  exact fun h => hne (shown_injective hsame hread (Option.some.inj h))

theorem kprintf_distinguishes_report :
    kprintf (ascii "%d of %u, 0x%x") [.word 12, .word 34, .word 5] ≠
      kprintf (ascii "%d of %u, 0x%x") [.word 12, .word 3, .word 69] := by
  have hsame : List.Forall₂ Piece.SameFormat
      [.int 12, .text (ascii " of "), .uint 34, .text (ascii ", 0x"), .hex 5]
      [.int 12, .text (ascii " of "), .uint 3, .text (ascii ", 0x"), .hex 69] :=
    .cons trivial (.cons rfl (.cons trivial (.cons rfl (.cons trivial .nil))))
  have hspace : ¬ IsHexDigit 32 := by decide
  have hcomma : ¬ IsHexDigit 44 := by decide
  exact kprintf_distinguishes hsame ⟨hspace, hcomma, trivial, trivial⟩ (by decide) (by decide) (by simp)

/-! ## The formats of other modules -/

theorem ascii_toString (n : ℕ) : ascii (toString n) = numeral n := by
  have hchars : (toString n).toList = Nat.toDigits 10 n := Nat.toList_repr
  have hbytes : ascii (toString n) = cString (numeral n) := by
    show cString ((toString n).toList.map fun c => c.toNat.toUInt8) = _
    rw [hchars, numeral]
  rw [hbytes, cString_of_noNul]
  intro c hc hzero
  have hdigit := isDigit_numeral n c hc
  rw [hzero] at hdigit
  exact absurd hdigit (by decide)

/-- The message of a panic is what its format prints. -/
theorem kprintf_panicMsg {n : ℕ} (h : n < 32) :
    kprintf (ascii "\n  KERNEL PANIC: Exception %d  \n") [.word (BitVec.ofInt 32 n)] =
      some (panicMsg n) := by
  have hrow := kprintf_row [.text (ascii "\n  KERNEL PANIC: Exception "), .int n,
    .text (ascii "  \n")] (by simp [Piece.Fits]; omega) kprintf_nil
  rw [List.append_nil, List.append_nil, List.append_nil] at hrow
  rw [panicMsg, ascii_toString]
  exact hrow

/-- So is the time in a line of the log. -/
theorem kprintf_klogStamp {tick : ℕ} (h : tick < 2 ^ 32) :
    kprintf (ascii "%d.%d") [.word (BitVec.ofInt 32 (tick / 100 : ℕ)), .word (BitVec.ofInt 32 (tick % 100 : ℕ))] =
      some (klogStamp tick) := by
  have hrow := kprintf_row [.int (tick / 100 : ℕ), .text (ascii "."), .int (tick % 100 : ℕ)]
    (by simp [Piece.Fits]; omega) kprintf_nil
  unfold klogStamp
  rw [intOfU32_of_lt (by omega), intOfU32_of_lt (by omega), printInt_eq (by omega), printInt_eq (by omega)]
  refine hrow.trans ?_
  simp only [List.flatMap_cons, List.flatMap_nil, List.append_nil, List.append_assoc]
  rfl

end MyMisu
