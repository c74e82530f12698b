import MyMisu.Shell.Commands

/-!
# The calculator

`cmd_calc` parses, computes and prints in `int`, and of all that can go wrong it looks for a zero
divisor only.  What it shows is right as long as the result of the numbers the strings denote is an
`int` that can be printed; a quotient also depends on the operands themselves, which are cut to
32 bits first.
-/

namespace MyMisu

open Decimal

/-- The exception the processor raises at a division without a representable quotient. -/
def divideError : Fin 32 := ⟨0, by decide⟩

/-- `idiv` -/
def idiv (a b : ℤ) : Except (Fin 32) ℤ :=
  if b = 0 ∨ ¬ FitsInt32 (a.tdiv b) then .error divideError else .ok (a.tdiv b)

/-- What is shown of a result. -/
def calcReport (a : ℤ) (op : UInt8) (b r : ℤ) : List Console :=
  [.ink vgaLightGreen,
    .print (ascii "  " ++ printInt a ++ [space, op, space] ++ printInt b ++ ascii " = " ++
      printInt r ++ [10]),
    .ink vgaLightGrey]

/-- The error is the exception at the division. -/
def cmdCalc : List CStr → Except (Fin 32) (List Console)
  | _ :: n :: o :: m :: _ =>
    let a := atoi n.bytes
    let b := atoi m.bytes
    let op := o.bytes.headD 0
    if op = 43 then .ok (calcReport a op b (wrapInt32 (a + b)))
    else if op = 45 then .ok (calcReport a op b (wrapInt32 (a - b)))
    else if op = 42 then .ok (calcReport a op b (wrapInt32 (a * b)))
    else if op = 47 then
      if b = 0 then .ok [.print (ascii "  /0!\n")]
      else do .ok (calcReport a op b (← idiv a b))
    else .ok [.print (ascii "  Bad op\n"), .ink vgaLightGrey]
  | _ => .ok (usage "  calc <n> <op> <n>\n")

/-! ## What it should show -/

/-- The operators, and what they stand for. -/
inductive Operator
  | add | sub | mul | div
  deriving DecidableEq

namespace Operator

def char : Operator → UInt8
  | add => 43
  | sub => 45
  | mul => 42
  | div => 47

def eval : Operator → ℤ → ℤ → ℤ
  | add, a, b => a + b
  | sub, a, b => a - b
  | mul, a, b => a * b
  | div, a, b => a.tdiv b

end Operator

/-- One of the error texts is printed. -/
def ShowsError (out : List Console) : Prop :=
  .print (ascii "  calc <n> <op> <n>\n") ∈ out ∨ .print (ascii "  /0!\n") ∈ out ∨
    .print (ascii "  Bad op\n") ∈ out

/-- A line that ends in the canonical numeral of `v` is printed. -/
def ShowsResult (v : ℤ) (out : List Console) : Prop :=
  ∃ line, .print (line ++ ascii "= " ++ intNumeral v ++ [10]) ∈ out

/-- The calculator returns, with an error or with the result. -/
def CalcRight (v : ℤ) (ran : Except (Fin 32) (List Console)) : Prop :=
  ∃ out, ran = .ok out ∧ (ShowsError out ∨ ShowsResult v out)

/-! ## Reading the line -/

/-- The characters `print_int` can print. -/
theorem charOfInt_bounds {d : ℤ} (hlo : -10 < d) (hhi : d < 10) :
    39 ≤ charOfInt (48 + d) ∧ charOfInt (48 + d) ≤ 57 := by
  interval_cases d <;> decide

theorem tmod_ten (v : ℤ) : -10 < v.tmod 10 ∧ v.tmod 10 < 10 := by
  have habs : (v.tmod 10).natAbs = v.natAbs % 10 := Int.natAbs_tmod v 10
  omega

theorem printInt_bounds (v : ℤ) : ∀ c ∈ printInt v, 39 ≤ c ∧ c ≤ 57 := by
  fun_induction printInt v with
  | case1 v ih =>
    have hdigit := charOfInt_bounds (tmod_ten (absInt32 v)).1 (tmod_ten (absInt32 v)).2
    rw [List.forall_mem_append, List.forall_mem_append, List.forall_mem_singleton]
    refine ⟨⟨?_, ?_⟩, hdigit⟩
    · split_ifs <;> decide +kernel
    · split_ifs with h
      · exact ih h
      · exact List.forall_mem_nil _

/-- The text behind the last space. -/
theorem last_word_inj {xs ys us vs : List UInt8} (hu : space ∉ us) (hv : space ∉ vs)
    (h : xs ++ space :: us = ys ++ space :: vs) : us = vs := by
  have hlast : ∀ {ws : List UInt8} (zs), space ∉ ws →
      (zs ++ space :: ws).reverse.takeWhile (· ≠ space) = ws.reverse := by
    intro ws zs hws
    rw [List.reverse_append, List.reverse_cons, List.append_assoc, List.takeWhile_append_of_pos]
    · rw [List.singleton_append, List.takeWhile_cons_of_neg (by simp), List.append_nil]
    · intro c hc
      simpa using fun heq : c = space => hws (heq ▸ List.mem_reverse.mp hc)
  have hrev := congrArg (fun l => l.reverse.takeWhile (· ≠ space)) h
  simp only [hlast xs hu, hlast ys hv] at hrev
  exact List.reverse_injective hrev

theorem intNumeral_inj {v w : ℤ} (h : intNumeral v = intNumeral w) : v = w := by
  rw [← leadingInt_denotes (denotes_intNumeral v), h, leadingInt_denotes (denotes_intNumeral w)]

/-- The least `int` is printed with two signs. -/
theorem printInt_min : ∃ rest, printInt (-2 ^ 31) = 45 :: 45 :: rest := by
  have hmin : absInt32 (-2 ^ 31) = -2 ^ 31 := by decide
  rw [printInt, if_pos (by decide), hmin, if_pos (by decide), printInt, if_pos (by decide)]
  exact ⟨_, rfl⟩

theorem intNumeral_ne_two_signs (v : ℤ) (rest : List UInt8) : intNumeral v ≠ 45 :: 45 :: rest := by
  intro h
  have hminus : (45 : UInt8) ∈ numeral v.natAbs := by
    unfold intNumeral at h
    split_ifs at h
    · rw [(List.cons.inj h).2]
      exact List.mem_cons_self
    · rw [h]
      exact List.mem_cons_self
  exact absurd (isDigit_numeral _ _ hminus) (by decide)

theorem printInt_eq_iff {r v : ℤ} (hr : FitsInt32 r) :
    printInt r = intNumeral v ↔ r = v ∧ v ≠ -2 ^ 31 := by
  by_cases hmin : r = -2 ^ 31
  · obtain ⟨rest, hprint⟩ := printInt_min
    rw [hmin, hprint]
    exact ⟨fun h => absurd h.symm (intNumeral_ne_two_signs v rest), fun h => absurd h.1.symm h.2⟩
  · rw [printInt_eq (lt_of_le_of_ne hr.1 (Ne.symm hmin))]
    constructor
    · intro h
      have hrv := intNumeral_inj h
      exact ⟨hrv, hrv ▸ hmin⟩
    · rintro ⟨rfl, -⟩
      rfl

/-- What stands behind the last space of a report. -/
theorem calcReport_line {a b r : ℤ} {op : UInt8} {before word : List UInt8}
    (hmem : .print (before ++ space :: word) ∈ calcReport a op b r) (hword : space ∉ word) :
    word = printInt r ++ [10] := by
  have hspace : space ∉ printInt r ++ [10] := by
    rw [List.mem_append, not_or]
    exact ⟨fun h => absurd (printInt_bounds r _ h).1 (by decide), by decide⟩
  have hsplit : ascii "  " ++ printInt a ++ [space, op, space] ++ printInt b ++ ascii " = " ++
      printInt r ++ [10] = ascii "  " ++ printInt a ++ [space, op, space] ++ printInt b ++
      [space, 61] ++ space :: (printInt r ++ [10]) := by
    simp only [List.append_assoc]
    rfl
  simp only [calcReport, Console.ink, List.mem_cons, reduceCtorEq, Console.print.injEq,
    List.not_mem_nil, or_false, false_or] at hmem
  exact last_word_inj hword hspace (hmem.trans hsplit)

/-- The error texts end in other characters than `print_int` prints. -/
theorem not_showsError_calcReport (a b r : ℤ) (op : UInt8) : ¬ ShowsError (calcReport a op b r) := by
  have hends : ∀ {before word : List UInt8}, space ∉ word → ∀ {c : UInt8}, c ∈ word →
      ¬ (39 ≤ c ∧ c ≤ 57) → c ≠ 10 → .print (before ++ space :: word) ∉ calcReport a op b r := by
    intro before word hword c hc hrange hnewline hmem
    rw [calcReport_line hmem hword, List.mem_append, List.mem_singleton] at hc
    exact hrange (printInt_bounds r c (hc.resolve_right hnewline))
  rintro (h | h | h)
  · exact @hends (ascii "  calc <n> <op>") (ascii "<n>\n") (by decide) 60 (by decide) (by decide)
      (by decide) h
  · exact @hends (ascii " ") (ascii "/0!\n") (by decide) 33 (by decide) (by decide) (by decide) h
  · exact @hends (ascii "  Bad") (ascii "op\n") (by decide) 111 (by decide) (by decide) (by decide) h

theorem showsResult_calcReport {a b r v : ℤ} {op : UInt8} (hr : FitsInt32 r) :
    ShowsResult v (calcReport a op b r) ↔ r = v ∧ v ≠ -2 ^ 31 := by
  rw [← printInt_eq_iff hr]
  constructor
  · rintro ⟨line, hmem⟩
    have hsplit : line ++ ascii "= " ++ intNumeral v ++ [10] =
        line ++ [61] ++ space :: (intNumeral v ++ [10]) := by
      simp only [List.append_assoc]
      rfl
    have hspace : space ∉ intNumeral v ++ [10] := by
      rw [List.mem_append, not_or]
      exact ⟨fun h => absurd (intNumeral_bounds v _ h).1 (by decide), by decide⟩
    rw [hsplit] at hmem
    exact (List.append_cancel_right (calcReport_line hmem hspace)).symm
  · intro hprint
    refine ⟨ascii "  " ++ printInt a ++ [space, op, space] ++ printInt b ++ [space], ?_⟩
    have hsplit : ascii "  " ++ printInt a ++ [space, op, space] ++ printInt b ++ [space] ++
        ascii "= " = ascii "  " ++ printInt a ++ [space, op, space] ++ printInt b ++ ascii " = " := by
      simp only [List.append_assoc]
      rfl
    rw [hsplit, ← hprint]
    exact List.mem_cons_of_mem _ List.mem_cons_self

theorem calcRight_report {a b r v : ℤ} {op : UInt8} (hr : FitsInt32 r) :
    CalcRight v (.ok (calcReport a op b r)) ↔ r = v ∧ v ≠ -2 ^ 31 := by
  rw [← showsResult_calcReport hr]
  constructor
  · rintro ⟨out, hout, hright⟩
    cases hout
    exact hright.resolve_left (not_showsError_calcReport a b r op)
  · exact fun h => ⟨_, rfl, .inr h⟩

/-! ## Quotients -/

/-- `q` is the quotient of `a` by `b`, truncated toward zero: the rest is smaller than the divisor
and has the sign of the dividend. -/
def IsQuotient (a b q : ℤ) : Prop :=
  (a - q * b).natAbs < b.natAbs ∧ (0 ≤ a → 0 ≤ a - q * b) ∧ (a ≤ 0 → a - q * b ≤ 0)

theorem tdiv_eq_iff {a b q : ℤ} (hb : b ≠ 0) : a.tdiv b = q ↔ IsQuotient a b q := by
  have hrest : a - q * b + b * q = a := by ring
  have hmod : a.tdiv b = q ↔ a.tdiv b = q ∧ a.tmod b = a - q * b := by
    rw [iff_self_and, Int.tmod_def, mul_comm b]
    rintro rfl
    rfl
  unfold IsQuotient
  rcases lt_trichotomy a 0 with ha | rfl | ha
  · rw [hmod, Int.tdiv_tmod_unique' ha.le hb]
    omega
  · -- a rest of both signs is zero
    rw [Int.zero_tdiv, zero_sub, Int.natAbs_neg]
    constructor
    · rintro rfl
      simpa using hb
    · rintro ⟨-, hle, hge⟩
      have hmul : q * b = 0 := by omega
      exact ((mul_eq_zero.mp hmul).resolve_right hb).symm
  · rw [hmod, Int.tdiv_tmod_unique ha.le hb]
    omega

/-- Cutting a dividend to 32 bits changes its quotient by a divisor of 32 bits. -/
theorem tdiv_wrap_dividend {a b : ℤ} (hb : FitsInt32 b) (hne : b ≠ 0) :
    (wrapInt32 a).tdiv b = a.tdiv b ↔ FitsInt32 a := by
  constructor
  · intro h
    have ha := Int.tdiv_mul_add_tmod a b
    have hw := Int.tdiv_mul_add_tmod (wrapInt32 a) b
    have hra : (a.tmod b).natAbs = a.natAbs % b.natAbs := Int.natAbs_tmod a b
    have hrw : ((wrapInt32 a).tmod b).natAbs = (wrapInt32 a).natAbs % b.natAbs := Int.natAbs_tmod _ b
    have hlta := Nat.mod_lt a.natAbs (Int.natAbs_pos.mpr hne)
    have hltw := Nat.mod_lt (wrapInt32 a).natAbs (Int.natAbs_pos.mpr hne)
    -- the two differ by less than twice the divisor, and by a multiple of `2 ^ 32`
    rw [h] at hw
    obtain ⟨hlo, hhi⟩ := hb
    rw [← wrapInt32_eq_self_iff]
    unfold wrapInt32 at *
    omega
  · intro h
    rw [wrapInt32_of_fits h]

/-- A dividend of 32 bits and a divisor that is cut. -/
theorem tdiv_wrap_divisor {a b : ℤ} (ha : FitsInt32 a) (hb : ¬ FitsInt32 b) (hne : wrapInt32 b ≠ 0) :
    a.tdiv (wrapInt32 b) = a.tdiv b ↔ a.natAbs < (wrapInt32 b).natAbs := by
  obtain ⟨hlo, hhi⟩ := ha
  by_cases hmin : a = -2 ^ 31 ∧ b = 2 ^ 31
  · obtain ⟨rfl, rfl⟩ := hmin
    decide
  · have hzero : a.tdiv b = 0 := by
      rw [← Int.natAbs_eq_zero, Int.natAbs_tdiv]
      refine Nat.div_eq_of_lt ?_
      unfold FitsInt32 at hb
      omega
    rw [hzero, ← Int.natAbs_eq_zero, Int.natAbs_tdiv]
    exact Nat.div_eq_zero_iff_lt (Int.natAbs_pos.mpr hne)

/-- The operands cut to 32 bits have the quotient of the operands themselves. -/
def QuotientKept (a b : ℤ) : Prop :=
  if FitsInt32 b then FitsInt32 a
  else if FitsInt32 a then a.natAbs < (wrapInt32 b).natAbs
  else IsQuotient (wrapInt32 a) (wrapInt32 b) (a.tdiv b)

theorem tdiv_wrap_iff {a b : ℤ} (hne : wrapInt32 b ≠ 0) :
    (wrapInt32 a).tdiv (wrapInt32 b) = a.tdiv b ↔ QuotientKept a b := by
  unfold QuotientKept
  split_ifs with hb ha
  · rw [wrapInt32_of_fits hb] at hne ⊢
    exact tdiv_wrap_dividend hb hne
  · rw [wrapInt32_of_fits ha]
    exact tdiv_wrap_divisor ha hb hne
  · exact tdiv_eq_iff hne

/-! ## When it is right -/

/-- What `print_int` prints as it is. -/
def ShownExactly (v : ℤ) : Prop := -2 ^ 31 < v ∧ v < 2 ^ 31

instance (v : ℤ) : Decidable (ShownExactly v) := inferInstanceAs (Decidable (_ ∧ _))

theorem shownExactly_iff {v : ℤ} : FitsInt32 v ∧ v ≠ -2 ^ 31 ↔ ShownExactly v := by
  unfold FitsInt32 ShownExactly
  omega

def CalcExact (op : Operator) (a b : ℤ) : Prop :=
  if op = .div then 2 ^ 32 ∣ b ∨ ShownExactly (a.tdiv b) ∧ QuotientKept a b
  else ShownExactly (op.eval a b)

/-- The result of an operation on wrapped operands. -/
theorem calcRight_wrap {a b v : ℤ} {op : UInt8} :
    CalcRight v (.ok (calcReport a op b (wrapInt32 v))) ↔ ShownExactly v := by
  rw [calcRight_report (fits_wrapInt32 v), wrapInt32_eq_self_iff, shownExactly_iff]

theorem calcRight_div {a b : ℤ} {op : UInt8} (hne : wrapInt32 b ≠ 0) :
    CalcRight (a.tdiv b) (do
      .ok (calcReport (wrapInt32 a) op (wrapInt32 b) (← idiv (wrapInt32 a) (wrapInt32 b)))) ↔
      ShownExactly (a.tdiv b) ∧ QuotientKept a b := by
  rw [← tdiv_wrap_iff hne, ← shownExactly_iff]
  by_cases hfits : FitsInt32 ((wrapInt32 a).tdiv (wrapInt32 b))
  · have hidiv : idiv (wrapInt32 a) (wrapInt32 b) = .ok ((wrapInt32 a).tdiv (wrapInt32 b)) :=
      if_neg (not_or.mpr ⟨hne, not_not.mpr hfits⟩)
    rw [hidiv]
    refine (calcRight_report hfits).trans ⟨fun h => ?_, fun h => ⟨h.2, h.1.2⟩⟩
    rw [h.1] at hfits
    exact ⟨⟨hfits, h.2⟩, h.1⟩
  · have hidiv : idiv (wrapInt32 a) (wrapInt32 b) = .error divideError := if_pos (.inr hfits)
    rw [hidiv]
    constructor
    · rintro ⟨out, hout, -⟩
      cases hout
    · rintro ⟨⟨hv, -⟩, hkept⟩
      exact absurd (hkept ▸ hv) hfits

theorem calc_right_iff (op : Operator) (name n o m : CStr) (rest : List CStr) (a b : ℤ)
    (hn : Denotes n.bytes a) (hm : Denotes m.bytes b) (ho : o.bytes.head? = some op.char) :
    CalcRight (op.eval a b) (cmdCalc (name :: n :: o :: m :: rest)) ↔ CalcExact op a b := by
  have hop : o.bytes.headD 0 = op.char := by rw [List.headD_eq_head?_getD, ho, Option.getD_some]
  unfold cmdCalc CalcExact
  simp only [hop, atoi_denotes hn, atoi_denotes hm]
  cases op with
  | add =>
    rw [wrapInt32_add_left, wrapInt32_add_right]
    exact calcRight_wrap
  | sub =>
    rw [wrapInt32_sub]
    exact calcRight_wrap
  | mul =>
    rw [wrapInt32_mul_left, wrapInt32_mul_right]
    exact calcRight_wrap
  | div =>
    have hdvd : wrapInt32 b = 0 ↔ 2 ^ 32 ∣ b := by
      unfold wrapInt32
      omega
    rw [if_neg (by decide), if_neg (by decide), if_neg (by decide),
      if_pos (show Operator.div.char = 47 from rfl), ← hdvd]
    by_cases hzero : wrapInt32 b = 0
    · rw [if_pos hzero]
      exact iff_of_true ⟨_, rfl, .inl (.inr (.inl List.mem_cons_self))⟩ (.inl hzero)
    · rw [if_neg hzero, or_iff_right hzero]
      exact calcRight_div hzero

theorem calc_right_seven : CalcRight (-3)
    (cmdCalc [.ofString "calc", .ofString "7", .ofString "/", .ofString "-2"]) :=
  (calc_right_iff .div (.ofString "calc") (.ofString "7") (.ofString "/") (.ofString "-2") [] 7 (-2)
    (.plain (by decide +kernel) (by decide +kernel)) (@Denotes.minus [50] (by decide +kernel) (by decide +kernel)) (by decide +kernel)).mpr
    (by
      rw [CalcExact, if_pos rfl, QuotientKept, if_pos (by decide)]
      decide)

/-- The least `int` has no quotient by `-1`. -/
theorem calc_faults :
    ¬ ∀ (op : Operator) (name n o m : CStr) (rest : List CStr) (a b : ℤ), Denotes n.bytes a →
      Denotes m.bytes b → o.bytes.head? = some op.char →
      CalcRight (op.eval a b) (cmdCalc (name :: n :: o :: m :: rest)) := by
  intro hall
  have hminus : Denotes (CStr.ofString "-1").bytes (-1) :=
    @Denotes.minus [49] (by decide +kernel) (by decide +kernel)
  have hmin : Denotes (CStr.ofString "-2147483648").bytes (-2147483648) :=
    @Denotes.minus (ascii "2147483648") (by decide +kernel) (by decide +kernel)
  obtain ⟨out, hout, -⟩ := hall .div (.ofString "calc") (.ofString "-2147483648") (.ofString "/")
    (.ofString "-1") [] (-2147483648) (-1) hmin hminus (by decide)
  have hfault : cmdCalc [.ofString "calc", .ofString "-2147483648", .ofString "/",
      .ofString "-1"] = .error divideError := by decide +kernel
  rw [hfault] at hout
  cases hout

end MyMisu
