import MyMisu.Lib.Decimal

/-!
# Hexadecimal numerals

The canonical hexadecimal numeral of a number, with small letters, and the number it denotes.  A
numeral is told from what follows it as soon as that does not start with a digit.
-/

namespace Decimal

def IsHexDigit (c : UInt8) : Prop := IsDigit c ∨ 97 ≤ c ∧ c ≤ 102

instance (c : UInt8) : Decidable (IsHexDigit c) := inferInstanceAs (Decidable (_ ∨ _))

def hexDigit (d : ℕ) : UInt8 := if d < 10 then digit d else (87 + d).toUInt8

def hexDigitVal (c : UInt8) : ℕ := if c < 97 then digitVal c else c.toNat - 87

def ofHexDigits (acc : ℕ) (ds : List UInt8) : ℕ := ds.foldl (fun acc c => acc * 16 + hexDigitVal c) acc

/-- The canonical numeral. -/
def hexNumeral (n : ℕ) : List UInt8 := (Nat.toDigits 16 n).map fun c => c.toNat.toUInt8

theorem isHexDigit_hexDigit {d : ℕ} (h : d < 16) : IsHexDigit (hexDigit d) := by
  interval_cases d <;> decide

theorem hexDigitVal_hexDigit {d : ℕ} (h : d < 16) : hexDigitVal (hexDigit d) = d := by
  interval_cases d <;> rfl

/-- The last digit apart. -/
theorem hexNumeral_eq (n : ℕ) :
    hexNumeral n = if n < 16 then [hexDigit n] else hexNumeral (n / 16) ++ [hexDigit (n % 16)] := by
  have hchar : ∀ d < 16, (Nat.digitChar d).toNat.toUInt8 = hexDigit d := by decide
  unfold hexNumeral
  rw [Nat.toDigits_eq_if (by decide)]
  split_ifs with h
  · rw [List.map_singleton, hchar n h]
  · rw [List.map_append, List.map_singleton, hchar (n % 16) (Nat.mod_lt _ (by decide))]

theorem isHexDigit_hexNumeral (n : ℕ) : ∀ c ∈ hexNumeral n, IsHexDigit c := by
  induction n using Nat.strong_induction_on with
  | _ n ih =>
  rw [hexNumeral_eq]
  split_ifs with h
  · rw [List.forall_mem_singleton]
    exact isHexDigit_hexDigit h
  · rw [List.forall_mem_append, List.forall_mem_singleton]
    exact ⟨ih (n / 16) (by omega), isHexDigit_hexDigit (Nat.mod_lt _ (by decide))⟩

theorem ofHexDigits_hexNumeral (n : ℕ) : ofHexDigits 0 (hexNumeral n) = n := by
  induction n using Nat.strong_induction_on with
  | _ n ih =>
  rw [hexNumeral_eq]
  split_ifs with h
  · show 0 * 16 + hexDigitVal (hexDigit n) = n
    rw [hexDigitVal_hexDigit h, Nat.zero_mul, Nat.zero_add]
  · unfold ofHexDigits at ih ⊢
    rw [List.foldl_append, ih (n / 16) (by omega)]
    show n / 16 * 16 + hexDigitVal (hexDigit (n % 16)) = n
    rw [hexDigitVal_hexDigit (Nat.mod_lt _ (by decide))]
    omega

/-! ## Telling a numeral from what follows -/

/-- Nothing, or something that does not start with a digit. -/
def Delimits (rest : List UInt8) : Prop := ∀ c ∈ rest.head?, ¬ IsHexDigit c

/-- Digits are told from what follows them. -/
theorem append_inj_of_delimits {xs ys xr yr : List UInt8} (hx : ∀ c ∈ xs, IsHexDigit c)
    (hy : ∀ c ∈ ys, IsHexDigit c) (hxr : Delimits xr) (hyr : Delimits yr)
    (h : xs ++ xr = ys ++ yr) : xs = ys ∧ xr = yr := by
  have htake : ∀ {ds rest : List UInt8}, (∀ c ∈ ds, IsHexDigit c) → Delimits rest →
      (ds ++ rest).takeWhile (fun c => decide (IsHexDigit c)) = ds := by
    intro ds rest hds hrest
    rw [List.takeWhile_append_of_pos (fun c hc => decide_eq_true (hds c hc))]
    cases rest with
    | nil => rw [List.takeWhile_nil, List.append_nil]
    | cons c rest =>
      have hc : ¬ IsHexDigit c := hrest c rfl
      rw [List.takeWhile_cons_of_neg (by simpa using hc), List.append_nil]
  have hxs : xs = ys := by rw [← htake hx hxr, h, htake hy hyr]
  rw [hxs] at h
  exact ⟨hxs, List.append_cancel_left h⟩

theorem numeral_injective : Function.Injective numeral := by
  intro m n h
  rw [← ofDigits_numeral m, h, ofDigits_numeral]

theorem hexNumeral_injective : Function.Injective hexNumeral := by
  intro m n h
  rw [← ofHexDigits_hexNumeral m, h, ofHexDigits_hexNumeral]

theorem isHexDigit_numeral (n : ℕ) : ∀ c ∈ numeral n, IsHexDigit c :=
  fun c hc => .inl (isDigit_numeral n c hc)

/-- A sign is no digit, so it is told from the digits. -/
theorem intNumeral_append_inj {v w : ℤ} {xr yr : List UInt8} (hxr : Delimits xr) (hyr : Delimits yr)
    (h : intNumeral v ++ xr = intNumeral w ++ yr) : v = w ∧ xr = yr := by
  have hhead : ∀ n : ℕ, ∀ rest c xs, numeral n ++ rest = c :: xs → c ≠ 45 := by
    intro n rest c xs heq hc
    obtain ⟨d, ds, hds⟩ := List.exists_cons_of_ne_nil (numeral_ne_nil n)
    have hd : IsDigit d := isDigit_numeral n d (by rw [hds]; exact List.mem_cons_self)
    rw [hds, List.cons_append] at heq
    rw [(List.cons.inj heq).1, hc] at hd
    exact absurd hd (by decide)
  unfold intNumeral at h
  split_ifs at h with hv hw hw
  · rw [List.cons_append, List.cons_append, List.cons.injEq] at h
    obtain ⟨hnum, hrest⟩ :=
      append_inj_of_delimits (isHexDigit_numeral _) (isHexDigit_numeral _) hxr hyr h.2
    have habs := numeral_injective hnum
    exact ⟨by omega, hrest⟩
  · exact absurd rfl (hhead _ _ _ _ h.symm)
  · exact absurd rfl (hhead _ _ _ _ h)
  · obtain ⟨hnum, hrest⟩ :=
      append_inj_of_delimits (isHexDigit_numeral _) (isHexDigit_numeral _) hxr hyr h
    have habs := numeral_injective hnum
    exact ⟨by omega, hrest⟩

end Decimal
