import MyMisu.CInt
import MyMisu.Lib.Decimal
import MyMisu.Vga.Terminal

/-!
# Numbers as text

`print_int` of `kprintf.c`, `pad_int` of `shell.c` and `atoi` of `string.c`.  They agree with each
other and with the canonical numeral on all of `int` but its least value, whose negation is no `int`.
-/

namespace MyMisu

open Decimal

/-- The conversion of an `int` to a `char`. -/
def charOfInt (x : ℤ) : UInt8 := (x % 256).toNat.toUInt8

/-- `-value` for negative values. -/
def absInt32 (value : ℤ) : ℤ := if value < 0 then wrapInt32 (-value) else value

theorem natAbs_absInt32_le (value : ℤ) : (absInt32 value).natAbs ≤ value.natAbs := by
  unfold absInt32 wrapInt32
  split_ifs <;> omega

/-- What `print_int` writes. -/
def printInt (value : ℤ) : List UInt8 :=
  (if value < 0 then [45] else []) ++
    (if (absInt32 value).tdiv 10 ≠ 0 then printInt ((absInt32 value).tdiv 10) else []) ++
      [charOfInt (48 + (absInt32 value).tmod 10)]
termination_by value.natAbs
decreasing_by
  have hle := natAbs_absInt32_le value
  have hdiv : ((absInt32 value).tdiv 10).natAbs = (absInt32 value).natAbs / 10 :=
    Int.natAbs_tdiv (absInt32 value) 10
  omega

/-- The loop of `pad_int` that stores the digits, with `room` bytes to go until `len` is 15. -/
def padDigits : (room : ℕ) → ℤ → List UInt8
  | 0, _ => []
  | room + 1, x => if x > 0 then charOfInt (48 + x.tmod 10) :: padDigits room (x.tdiv 10) else []

/-- What `pad_int` writes; its second loop reverses `buf`. -/
def padInt (v width : ℤ) : List UInt8 :=
  let buf := if v = 0 then [48] else padDigits 15 (absInt32 v) ++ if v < 0 then [45] else []
  buf.reverse ++ List.replicate (width - buf.length).toNat space

/-! ## `atoi` -/

/-- The loop over the digits. -/
def atoiLoop (result : ℤ) : List UInt8 → ℤ
  | [] => result
  | c :: str =>
    if IsDigit c then atoiLoop (wrapInt32 (wrapInt32 (result * 10) + (c.toNat - 48))) str
    else result

/-- The sign, and the string behind it. -/
def atoiSign : List UInt8 → ℤ × List UInt8
  | [] => (1, [])
  | c :: str => if c = 45 then (-1, str) else if c = 43 then (1, str) else (1, c :: str)

def atoi (str : List UInt8) : ℤ :=
  let (sign, str) := atoiSign (str.dropWhile (· = space))
  wrapInt32 (sign * atoiLoop 0 str)

/-- The values of the operations of the loop before they are wrapped. -/
def atoiLoopResults (result : ℤ) : List UInt8 → List ℤ
  | [] => []
  | c :: str =>
    if IsDigit c then
      let tens := result * 10
      let sum := wrapInt32 tens + (c.toNat - 48)
      tens :: sum :: atoiLoopResults (wrapInt32 sum) str
    else []

def atoiResults (str : List UInt8) : List ℤ :=
  let (sign, str) := atoiSign (str.dropWhile (· = space))
  atoiLoopResults 0 str ++ [sign * atoiLoop 0 str]

/-- The loop goes on from the last of its results. -/
theorem atoiLoop_results (result : ℤ) (str : List UInt8) :
    atoiLoop result str = ((atoiLoopResults result str).map wrapInt32).getLastD result := by
  induction str generalizing result with
  | nil => rfl
  | cons c str ih =>
    unfold atoiLoop atoiLoopResults
    split
    · rw [ih, List.map_cons, List.map_cons, List.getLastD_cons, List.getLastD_cons]
    · rfl

/-- What `atoi` returns is the last of its results, formed from what its loop comes to. -/
theorem atoi_results (str : List UInt8) :
    atoi str = ((atoiResults str).map wrapInt32).getLastD 0 := by
  unfold atoi atoiResults
  rw [List.map_append, List.map_singleton, List.getLastD_concat]

/-- The integer at the start of a string: spaces, a sign and as many digits as follow. -/
def leadingInt (str : List UInt8) : ℤ :=
  let (sign, str) := atoiSign (str.dropWhile (· = space))
  sign * ofDigits 0 (str.takeWhile IsDigit)

/-! ## Digits -/

theorem charOfInt_digit {n : ℕ} (h : n < 10) : charOfInt (48 + n) = digit n := by
  unfold charOfInt digit
  rw [Int.emod_eq_of_lt (by omega) (by omega)]
  rfl

theorem absInt32_of_nonneg {v : ℤ} (h : 0 ≤ v) : absInt32 v = v := if_neg (by omega)

/-- Every negative `int` but the least has its absolute value in range. -/
theorem absInt32_of_neg {v : ℤ} (hlo : -2 ^ 31 < v) (hneg : v < 0) : absInt32 v = v.natAbs := by
  rw [absInt32, if_pos hneg, wrapInt32_of_fits ⟨by omega, by omega⟩]
  omega

theorem tdiv_cast (n : ℕ) : (n : ℤ).tdiv 10 = (n / 10 : ℕ) := by
  rw [Int.tdiv_eq_ediv_of_nonneg (Int.natCast_nonneg n)]
  rfl

theorem charOfInt_tmod (n : ℕ) : charOfInt (48 + (n : ℤ).tmod 10) = digit (n % 10) := by
  rw [Int.tmod_eq_emod_of_nonneg (Int.natCast_nonneg n)]
  exact charOfInt_digit (Nat.mod_lt n (by decide))

theorem printInt_natCast (n : ℕ) : printInt n = numeral n := by
  induction n using Nat.strong_induction_on with
  | _ n ih =>
  rw [printInt, absInt32_of_nonneg (Int.natCast_nonneg n), if_neg (by omega), tdiv_cast,
    charOfInt_tmod, numeral_eq, List.nil_append]
  by_cases h : n < 10
  · rw [if_pos h, Nat.div_eq_of_lt h, Nat.mod_eq_of_lt h]
    rfl
  · rw [if_neg h, if_pos (by omega), ih (n / 10) (by omega)]

theorem printInt_eq {v : ℤ} (hlo : -2 ^ 31 < v) : printInt v = intNumeral v := by
  unfold intNumeral
  by_cases hneg : v < 0
  · -- behind the sign, the digits are those of the negated value
    have habs := printInt_natCast v.natAbs
    rw [printInt, absInt32_of_nonneg (Int.natCast_nonneg _), if_neg (by omega), List.nil_append] at habs
    rw [if_pos hneg, printInt, if_pos hneg, absInt32_of_neg hlo hneg, List.append_assoc, habs]
    rfl
  · rw [if_neg hneg]
    conv_lhs => rw [show v = (v.natAbs : ℤ) by omega]
    exact printInt_natCast _

theorem padDigits_natCast {room n : ℕ} (hroom : n < 10 ^ room) (hpos : 0 < n) :
    (padDigits room n).reverse = numeral n := by
  induction room generalizing n with
  | zero => omega
  | succ room ih =>
    rw [padDigits, if_pos (by omega), tdiv_cast, charOfInt_tmod, List.reverse_cons, numeral_eq]
    by_cases h : n < 10
    · have hstop : padDigits room ((n / 10 : ℕ) : ℤ) = [] := by
        rw [Nat.div_eq_of_lt h]
        cases room <;> rfl
      rw [if_pos h, hstop, Nat.mod_eq_of_lt h]
      rfl
    · rw [pow_succ] at hroom
      rw [if_neg h, ih (by omega) (by omega)]

theorem padInt_eq {v : ℤ} (hlo : -2 ^ 31 < v) (hhi : v < 2 ^ 31) (width : ℤ) :
    padInt v width =
      intNumeral v ++ List.replicate (width - (intNumeral v).length).toNat space := by
  have hbuf : (if v = 0 then [48] else padDigits 15 (absInt32 v) ++ if v < 0 then [45] else []).reverse =
      intNumeral v := by
    unfold intNumeral
    by_cases hzero : v = 0
    · rw [if_pos hzero, hzero]
      rfl
    rw [if_neg hzero, List.reverse_append]
    by_cases hneg : v < 0
    · rw [if_pos hneg, if_pos hneg, absInt32_of_neg hlo hneg, padDigits_natCast (by omega) (by omega)]
      rfl
    · have hcast : v = (v.natAbs : ℤ) := by omega
      rw [if_neg hneg, if_neg hneg, absInt32_of_nonneg (by omega)]
      conv_lhs => rw [hcast]
      rw [padDigits_natCast (by omega) (by omega)]
      rfl
  unfold padInt
  simp only
  rw [hbuf, ← List.length_reverse, hbuf]

/-! ## Parsing -/

theorem digitVal_cast {c : UInt8} (h : IsDigit c) : (c.toNat : ℤ) - 48 = digitVal c := by
  have hle : 48 ≤ c.toNat := h.1
  unfold digitVal
  omega

/-- The loop computes the number the digits denote, wrapped. -/
theorem atoiLoop_eq (r : ℕ) (str : List UInt8) :
    atoiLoop (wrapInt32 r) str = wrapInt32 (ofDigits r (str.takeWhile (IsDigit ·)) : ℕ) := by
  induction str generalizing r with
  | nil => rfl
  | cons c str ih =>
    rw [atoiLoop]
    by_cases hc : IsDigit c
    · rw [if_pos hc, digitVal_cast hc, List.takeWhile_cons_of_pos (by simpa using hc),
        wrapInt32_mul_left, wrapInt32_add_left]
      exact_mod_cast ih (r * 10 + digitVal c)
    · rw [if_neg hc, List.takeWhile_cons_of_neg (by simpa using hc)]
      rfl

theorem atoi_eq (str : List UInt8) : atoi str = wrapInt32 (leadingInt str) := by
  unfold atoi leadingInt
  simp only
  have hloop := atoiLoop_eq 0 (atoiSign (str.dropWhile (· = space))).2
  rw [Nat.cast_zero, wrapInt32_of_fits (by decide)] at hloop
  rw [hloop, wrapInt32_mul_right]

/-- Without digits beyond the greatest `int` no operation of the loop leaves the range. -/
theorem atoiLoopResults_fit {r : ℕ} {str : List UInt8}
    (h : ofDigits r (str.takeWhile (IsDigit ·)) < 2 ^ 31) :
    ∀ x ∈ atoiLoopResults r str, FitsInt32 x := by
  induction str generalizing r with
  | nil => exact fun x hx => absurd hx List.not_mem_nil
  | cons c str ih =>
    rw [atoiLoopResults]
    by_cases hc : IsDigit c
    · rw [List.takeWhile_cons_of_pos (by simpa using hc)] at h
      have hsum : r * 10 + digitVal c < 2 ^ 31 := (le_ofDigits _ _).trans_lt h
      have htens : FitsInt32 (r * 10) := ⟨by omega, by omega⟩
      have hfits : FitsInt32 (r * 10 + digitVal c) := ⟨by omega, by omega⟩
      simp only [if_pos hc, digitVal_cast hc, wrapInt32_of_fits htens, wrapInt32_of_fits hfits,
        List.forall_mem_cons]
      refine ⟨htens, hfits, ?_⟩
      exact_mod_cast ih h
    · rw [if_neg hc]
      exact fun x hx => absurd hx List.not_mem_nil

theorem takeWhile_isDigit {ds : List UInt8} (hds : ∀ c ∈ ds, IsDigit c) :
    ds.takeWhile (IsDigit ·) = ds := by
  rw [List.takeWhile_eq_self_iff]
  exact fun c hc => decide_eq_true (hds c hc)

theorem dropWhile_space {c : UInt8} (hc : c ≠ space) (str : List UInt8) :
    (c :: str).dropWhile (· = space) = c :: str :=
  List.dropWhile_cons_of_neg (by simpa using hc)

/-- A digit is no space and no sign. -/
theorem atoiSign_digits {ds : List UInt8} (hne : ds ≠ []) (hds : ∀ c ∈ ds, IsDigit c) :
    atoiSign (ds.dropWhile (· = space)) = (1, ds) := by
  obtain ⟨c, str, rfl⟩ := List.exists_cons_of_ne_nil hne
  have hc := hds c List.mem_cons_self
  have hspace : c ≠ space := by
    rintro rfl
    exact absurd hc (by decide)
  have hminus : c ≠ 45 := by
    rintro rfl
    exact absurd hc (by decide)
  have hplus : c ≠ 43 := by
    rintro rfl
    exact absurd hc (by decide)
  rw [dropWhile_space hspace, atoiSign, if_neg hminus, if_neg hplus]

theorem leadingInt_denotes {str : List UInt8} {v : ℤ} (h : Denotes str v) : leadingInt str = v := by
  unfold leadingInt
  cases h with
  | plain hne hds =>
    rw [atoiSign_digits hne hds]
    simp only [takeWhile_isDigit hds, one_mul]
  | @plus ds hne hds =>
    rw [dropWhile_space (by decide), show atoiSign (43 :: ds) = (1, ds) from rfl]
    simp only [takeWhile_isDigit hds, one_mul]
  | @minus ds hne hds =>
    rw [dropWhile_space (by decide), show atoiSign (45 :: ds) = (-1, ds) from rfl]
    simp only [takeWhile_isDigit hds, neg_one_mul]

theorem atoi_denotes {str : List UInt8} {v : ℤ} (h : Denotes str v) : atoi str = wrapInt32 v := by
  rw [atoi_eq, leadingInt_denotes h]

theorem atoiResults_fit {str : List UInt8} {v : ℤ} (h : Denotes str v) (hlo : -2 ^ 31 < v)
    (hhi : v < 2 ^ 31) : ∀ x ∈ atoiResults str, FitsInt32 x := by
  -- the digits denote the absolute value, whatever the sign
  have hdigits : ∀ {ds : List UInt8} (sign : ℤ), (sign = 1 ∨ sign = -1) → (∀ c ∈ ds, IsDigit c) →
      v = sign * ofDigits 0 ds → ∀ x ∈ atoiLoopResults 0 ds ++ [sign * atoiLoop 0 ds], FitsInt32 x := by
    intro ds sign hsign hds hv
    have hn : ofDigits 0 ds < 2 ^ 31 := by
      rcases hsign with rfl | rfl <;> omega
    have hloop := atoiLoop_eq 0 ds
    have hzero : wrapInt32 (0 : ℕ) = 0 := by decide
    rw [takeWhile_isDigit hds, hzero, wrapInt32_of_fits ⟨by omega, by omega⟩] at hloop
    rw [List.forall_mem_append, List.forall_mem_singleton, hloop, ← hv]
    refine ⟨?_, by omega, hhi⟩
    have hresults := @atoiLoopResults_fit 0 ds (by rwa [takeWhile_isDigit hds])
    rwa [Nat.cast_zero] at hresults
  unfold atoiResults
  cases h with
  | plain hne hds =>
    rw [atoiSign_digits hne hds]
    exact hdigits 1 (.inl rfl) hds (one_mul _).symm
  | @plus ds _ hds =>
    rw [dropWhile_space (by decide), show atoiSign (43 :: ds) = (1, ds) from rfl]
    exact hdigits 1 (.inl rfl) hds (one_mul _).symm
  | @minus ds _ hds =>
    rw [dropWhile_space (by decide), show atoiSign (45 :: ds) = (-1, ds) from rfl]
    exact hdigits (-1) (.inr rfl) hds (neg_one_mul _).symm

/-! ## The three agree -/

/-- `print_int` and `pad_int` write the canonical numeral of `v`, and `atoi` reads it back. -/
structure DecimalAgrees (v : ℤ) : Prop where
  printed : printInt v = intNumeral v
  padded : ∀ width, padInt v width =
    intNumeral v ++ List.replicate (width - (intNumeral v).length).toNat space
  parsed : atoi (intNumeral v) = v
  inRange : ∀ x ∈ atoiResults (intNumeral v), FitsInt32 x

/-- `pad_int` writes no digit of the least `int`. -/
theorem not_decimalAgrees_min : ¬ DecimalAgrees (-2 ^ 31) := by
  intro h
  have hpad := h.padded 0
  have hsign : padInt (-2 ^ 31) 0 = [45] := by decide
  have hnumeral : intNumeral (-2 ^ 31) = 45 :: numeral (2 ^ 31) := rfl
  rw [hsign, hnumeral, List.length_cons, Int.toNat_of_nonpos (by omega), List.replicate_zero,
    List.append_nil] at hpad
  exact numeral_ne_nil _ (List.cons.inj hpad).2.symm

theorem decimal_agrees_iff (v : ℤ) (hv : FitsInt32 v) : DecimalAgrees v ↔ v ≠ -2 ^ 31 := by
  obtain ⟨hlo, hhi⟩ := hv
  constructor
  · rintro h rfl
    exact not_decimalAgrees_min h
  · intro hne
    have hlt : -2 ^ 31 < v := lt_of_le_of_ne hlo hne.symm
    exact {
      printed := printInt_eq hlt
      padded := padInt_eq hlt hhi
      parsed := by rw [atoi_denotes (denotes_intNumeral v), wrapInt32_of_fits ⟨hlo, hhi⟩]
      inRange := atoiResults_fit (denotes_intNumeral v) hlt hhi }

theorem decimal_agrees_120 : DecimalAgrees (-120) :=
  (decimal_agrees_iff (-120) (by decide)).mpr (by decide)

theorem decimal_disagrees : ¬ ∀ v, FitsInt32 v → DecimalAgrees v :=
  fun hall => not_decimalAgrees_min (hall (-2 ^ 31) (by decide))

end MyMisu
