import Mathlib.Tactic

/-!
# Decimal numerals

Numerals as lists of ASCII bytes: the canonical numeral of a number, which is Lean's own, the number
that digits denote, and signed numerals in general.
-/

namespace Decimal

def IsDigit (c : UInt8) : Prop := 48 ≤ c ∧ c ≤ 57

instance (c : UInt8) : Decidable (IsDigit c) := inferInstanceAs (Decidable (_ ∧ _))

def digit (d : ℕ) : UInt8 := (48 + d).toUInt8

def digitVal (c : UInt8) : ℕ := c.toNat - 48

/-- The number that digits denote behind digits that denote `acc`. -/
def ofDigits (acc : ℕ) (ds : List UInt8) : ℕ := ds.foldl (fun acc c => acc * 10 + digitVal c) acc

/-- The canonical numeral. -/
def numeral (n : ℕ) : List UInt8 := (Nat.toDigits 10 n).map fun c => c.toNat.toUInt8

def intNumeral (v : ℤ) : List UInt8 := if v < 0 then 45 :: numeral v.natAbs else numeral v.natAbs

/-- Digits with an optional sign, and the number they denote. -/
inductive Denotes : List UInt8 → ℤ → Prop
  | plain {ds : List UInt8} : ds ≠ [] → (∀ c ∈ ds, IsDigit c) → Denotes ds (ofDigits 0 ds)
  | plus {ds : List UInt8} : ds ≠ [] → (∀ c ∈ ds, IsDigit c) → Denotes (43 :: ds) (ofDigits 0 ds)
  | minus {ds : List UInt8} : ds ≠ [] → (∀ c ∈ ds, IsDigit c) → Denotes (45 :: ds) (-ofDigits 0 ds)

theorem isDigit_digit {d : ℕ} (h : d < 10) : IsDigit (digit d) := by
  interval_cases d <;> decide

theorem digitVal_digit {d : ℕ} (h : d < 10) : digitVal (digit d) = d := by
  interval_cases d <;> rfl

theorem digitVal_le {c : UInt8} (h : IsDigit c) : digitVal c ≤ 9 := by
  have hle : c.toNat ≤ 57 := h.2
  unfold digitVal
  omega

theorem ofDigits_append (acc : ℕ) (xs ys : List UInt8) :
    ofDigits acc (xs ++ ys) = ofDigits (ofDigits acc xs) ys := List.foldl_append

theorem le_ofDigits (acc : ℕ) (ds : List UInt8) : acc ≤ ofDigits acc ds := by
  induction ds generalizing acc with
  | nil => exact le_rfl
  | cons c ds ih =>
    have hstep := ih (acc * 10 + digitVal c)
    show acc ≤ ofDigits (acc * 10 + digitVal c) ds
    omega

/-- The last digit apart. -/
theorem numeral_eq (n : ℕ) :
    numeral n = if n < 10 then [digit n] else numeral (n / 10) ++ [digit (n % 10)] := by
  have hchar : ∀ d < 10, (Nat.digitChar d).toNat.toUInt8 = digit d := by decide
  unfold numeral
  rw [Nat.toDigits_eq_if (by decide)]
  split_ifs with h
  · rw [List.map_singleton, hchar n h]
  · rw [List.map_append, List.map_singleton, hchar (n % 10) (Nat.mod_lt _ (by decide))]

theorem numeral_ne_nil (n : ℕ) : numeral n ≠ [] := by
  rw [numeral_eq]
  split_ifs
  · exact List.cons_ne_nil _ _
  · exact List.append_ne_nil_of_right_ne_nil _ (List.cons_ne_nil _ _)

theorem isDigit_numeral (n : ℕ) : ∀ c ∈ numeral n, IsDigit c := by
  induction n using Nat.strong_induction_on with
  | _ n ih =>
  rw [numeral_eq]
  split_ifs with h
  · rw [List.forall_mem_singleton]
    exact isDigit_digit h
  · rw [List.forall_mem_append, List.forall_mem_singleton]
    exact ⟨ih (n / 10) (by omega), isDigit_digit (Nat.mod_lt _ (by decide))⟩

theorem ofDigits_numeral (n : ℕ) : ofDigits 0 (numeral n) = n := by
  induction n using Nat.strong_induction_on with
  | _ n ih =>
  rw [numeral_eq]
  split_ifs with h
  · show 0 * 10 + digitVal (digit n) = n
    rw [digitVal_digit h, Nat.zero_mul, Nat.zero_add]
  · rw [ofDigits_append, ih (n / 10) (by omega)]
    show n / 10 * 10 + digitVal (digit (n % 10)) = n
    rw [digitVal_digit (Nat.mod_lt _ (by decide))]
    omega

theorem intNumeral_bounds (v : ℤ) : ∀ c ∈ intNumeral v, 45 ≤ c ∧ c ≤ 57 := by
  have hdigits : ∀ c ∈ numeral v.natAbs, 45 ≤ c ∧ c ≤ 57 := fun c hc =>
    ⟨UInt8.le_trans (by decide : (45 : UInt8) ≤ 48) (isDigit_numeral _ c hc).1,
      (isDigit_numeral _ c hc).2⟩
  unfold intNumeral
  split_ifs
  · exact List.forall_mem_cons.mpr ⟨by decide, hdigits⟩
  · exact hdigits

theorem Denotes.isDigit_tail {str : List UInt8} {v : ℤ} (h : Denotes str v) :
    ∀ c ∈ str.tail, IsDigit c := by
  cases h with
  | plain _ hds => exact fun c hc => hds c (List.mem_of_mem_tail hc)
  | plus _ hds => exact hds
  | minus _ hds => exact hds

theorem denotes_intNumeral (v : ℤ) : Denotes (intNumeral v) v := by
  unfold intNumeral
  split_ifs with h
  · have hv : v = -(ofDigits 0 (numeral v.natAbs) : ℤ) := by
      rw [ofDigits_numeral]
      omega
    conv_rhs => rw [hv]
    exact .minus (numeral_ne_nil _) (isDigit_numeral _)
  · have hv : v = (ofDigits 0 (numeral v.natAbs) : ℤ) := by
      rw [ofDigits_numeral]
      omega
    conv_rhs => rw [hv]
    exact .plain (numeral_ne_nil _) (isDigit_numeral _)

/-! ## Numbers without a sign, and fractions -/

/-- Digits, and the number they denote. -/
structure DenotesNat (ds : List UInt8) (n : ℕ) : Prop where
  ne_nil : ds ≠ []
  digits : ∀ c ∈ ds, IsDigit c
  value : ofDigits 0 ds = n

/-- Digits around a point, and the number they denote. -/
inductive DenotesFraction : List UInt8 → ℚ → Prop
  | point {ns fs : List UInt8} {n f : ℕ} :
    DenotesNat ns n → DenotesNat fs f → DenotesFraction (ns ++ 46 :: fs) (n + f / 10 ^ fs.length)

theorem denotesNat_numeral (n : ℕ) : DenotesNat (numeral n) n :=
  ⟨numeral_ne_nil n, isDigit_numeral n, ofDigits_numeral n⟩

theorem DenotesNat.notMem {ds : List UInt8} {n : ℕ} (h : DenotesNat ds n) {c : UInt8} (hc : ¬ IsDigit c) :
    c ∉ ds := fun hmem => hc (h.digits c hmem)

/-- A point stands in one place only. -/
theorem denotesFraction_numerals {n f : ℕ} {q : ℚ} :
    DenotesFraction (numeral n ++ 46 :: numeral f) q ↔ q = n + f / 10 ^ (numeral f).length := by
  constructor
  · intro h
    generalize htext : numeral n ++ 46 :: numeral f = text at h
    obtain @⟨ns, fs, m, g, hns, hfs⟩ := h
    have hpoint : ¬ IsDigit 46 := by decide
    obtain ⟨rfl, -, rfl⟩ := (List.append_cons_inj_of_notMem ((denotesNat_numeral n).notMem hpoint)
      ((denotesNat_numeral f).notMem hpoint)).mp htext
    rw [← hns.value, ← hfs.value, ofDigits_numeral, ofDigits_numeral]
  · rintro rfl
    exact .point (denotesNat_numeral n) (denotesNat_numeral f)

theorem numeral_of_lt_ten {n : ℕ} (h : n < 10) : numeral n = [digit n] := by
  rw [numeral_eq, if_pos h]

theorem numeral_of_lt_hundred {n : ℕ} (hlo : 10 ≤ n) (hhi : n < 100) :
    numeral n = [digit (n / 10), digit (n % 10)] := by
  rw [numeral_eq, if_neg (by omega), numeral_of_lt_ten (by omega)]
  rfl

end Decimal
