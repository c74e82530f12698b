import Mathlib.Tactic

/-! C integer conversions: values of `uint32_t` are naturals below `2 ^ 32`, values of `int` and
`int32_t` are integers, and what the hardware wraps is wrapped here explicitly. -/

namespace MyMisu

/-- The value of a `uint32_t` after arithmetic. -/
def wrap32 (n : ℕ) : ℕ := n % 2 ^ 32

/-- The cast `(int) n` of a `uint32_t`. -/
def intOfU32 (n : ℕ) : ℤ := if n % 2 ^ 32 < 2 ^ 31 then (n % 2 ^ 32 : ℕ) else (n % 2 ^ 32 : ℕ) - 2 ^ 32

/-- The value of an `int32_t` after arithmetic. -/
def wrapInt32 (x : ℤ) : ℤ := (x + 2 ^ 31) % 2 ^ 32 - 2 ^ 31

/-- The cast `(uint32_t) x` of an `int`. -/
def u32OfInt (x : ℤ) : ℕ := (x % 2 ^ 32).toNat

def FitsInt32 (x : ℤ) : Prop := -2 ^ 31 ≤ x ∧ x < 2 ^ 31

instance (x : ℤ) : Decidable (FitsInt32 x) := inferInstanceAs (Decidable (_ ∧ _))

theorem wrap32_of_lt {n : ℕ} (h : n < 2 ^ 32) : wrap32 n = n := Nat.mod_eq_of_lt h

theorem intOfU32_of_lt {n : ℕ} (h : n < 2 ^ 31) : intOfU32 n = n := by
  rw [intOfU32, Nat.mod_eq_of_lt (by omega), if_pos h]

theorem wrapInt32_of_fits {x : ℤ} (h : FitsInt32 x) : wrapInt32 x = x := by
  obtain ⟨hlo, hhi⟩ := h
  rw [wrapInt32, Int.emod_eq_of_lt (by omega) (by omega)]
  omega

theorem fits_wrapInt32 (x : ℤ) : FitsInt32 (wrapInt32 x) := by
  unfold FitsInt32 wrapInt32
  omega

theorem wrapInt32_eq_self_iff {x : ℤ} : wrapInt32 x = x ↔ FitsInt32 x :=
  ⟨fun h => h ▸ fits_wrapInt32 x, wrapInt32_of_fits⟩

/-! Wrapped operands give the same wrapped result. -/

theorem wrapInt32_eq_bmod (x : ℤ) : wrapInt32 x = x.bmod (2 ^ 32) := by
  rw [wrapInt32, Int.bmod_def]
  split <;> omega

theorem wrapInt32_add_left (x y : ℤ) : wrapInt32 (wrapInt32 x + y) = wrapInt32 (x + y) := by
  simp only [wrapInt32_eq_bmod, Int.bmod_add_bmod]

theorem wrapInt32_mul_left (x y : ℤ) : wrapInt32 (wrapInt32 x * y) = wrapInt32 (x * y) := by
  simp only [wrapInt32_eq_bmod, Int.bmod_mul_bmod]

theorem wrapInt32_mul_right (x y : ℤ) : wrapInt32 (x * wrapInt32 y) = wrapInt32 (x * y) := by
  rw [mul_comm, wrapInt32_mul_left, mul_comm]

theorem wrapInt32_add_right (x y : ℤ) : wrapInt32 (x + wrapInt32 y) = wrapInt32 (x + y) := by
  rw [add_comm, wrapInt32_add_left, add_comm]

theorem wrapInt32_sub (x y : ℤ) : wrapInt32 (wrapInt32 x - wrapInt32 y) = wrapInt32 (x - y) := by
  simp only [wrapInt32_eq_bmod, Int.bmod_sub_bmod, Int.sub_bmod_bmod]

end MyMisu
