import Mathlib.Data.Finset.Card
import Mathlib.Data.Fintype.Basic
import Mathlib.Data.Fintype.Card
import Mathlib.Tactic

/-!
# Bitmaps

A set kept as the bits of `n` bytes: bit `i % 8` of byte `i / 8` stands for `i`.  The operations
work on the bytes with masks; the lemmas say what they do to the bits, to the number of set bits,
and what a scan for the first clear bit finds.
-/

abbrev Bitmap (n : ℕ) := Fin n → BitVec 8

namespace Bitmap

variable {n : ℕ}

def byteIdx (i : Fin (8 * n)) : Fin n := ⟨i.val / 8, by omega⟩

def mask (i : Fin (8 * n)) : BitVec 8 := 1#8 <<< (i.val % 8)

def set (b : Bitmap n) (i : Fin (8 * n)) : Bitmap n :=
  Function.update b (byteIdx i) (b (byteIdx i) ||| mask i)

def clear (b : Bitmap n) (i : Fin (8 * n)) : Bitmap n :=
  Function.update b (byteIdx i) (b (byteIdx i) &&& ~~~ mask i)

def test (b : Bitmap n) (i : Fin (8 * n)) : Bool := b (byteIdx i) &&& mask i != 0#8

theorem getLsbD_mask (i : Fin (8 * n)) (k : ℕ) : (mask i).getLsbD k = decide (i.val % 8 = k) := by
  have hi : i.val % 8 < 8 := Nat.mod_lt _ (by decide)
  unfold mask
  rw [← BitVec.twoPow_eq, BitVec.getLsbD_twoPow]
  simp [hi]

theorem test_eq (b : Bitmap n) (i : Fin (8 * n)) :
    b.test i = (b (byteIdx i)).getLsbD (i.val % 8) := by
  have hi : i.val % 8 < 8 := Nat.mod_lt _ (by decide)
  unfold test mask
  rw [← BitVec.twoPow_eq, BitVec.and_twoPow]
  cases (b (byteIdx i)).getLsbD (i.val % 8) with
  | false => rfl
  | true =>
    rw [if_pos rfl, bne_iff_ne]
    intro h0
    have hbit := congrArg (fun x => x.getLsbD (i.val % 8)) h0
    rw [BitVec.getLsbD_twoPow] at hbit
    simp [hi] at hbit

theorem mod_ne_of_byteIdx {i j : Fin (8 * n)} (h : byteIdx j = byteIdx i) (hne : j ≠ i) :
    i.val % 8 ≠ j.val % 8 := by
  intro hmod
  have hdiv : j.val / 8 = i.val / 8 := congrArg Fin.val h
  exact hne (Fin.ext (by omega))

theorem test_set (b : Bitmap n) (i j : Fin (8 * n)) :
    (b.set i).test j = (decide (j = i) || b.test j) := by
  rw [test_eq, test_eq]
  unfold set
  by_cases hbyte : byteIdx j = byteIdx i
  · rw [hbyte, Function.update_self, BitVec.getLsbD_or, getLsbD_mask]
    by_cases hj : j = i
    · simp [hj]
    · simp [hj, mod_ne_of_byteIdx hbyte hj]
  · have hj : j ≠ i := fun h => hbyte (h ▸ rfl)
    rw [Function.update_of_ne hbyte]
    simp [hj]

theorem test_clear (b : Bitmap n) (i j : Fin (8 * n)) :
    (b.clear i).test j = (decide (j ≠ i) && b.test j) := by
  have hmod : j.val % 8 < 8 := Nat.mod_lt _ (by decide)
  rw [test_eq, test_eq]
  unfold clear
  by_cases hbyte : byteIdx j = byteIdx i
  · rw [hbyte, Function.update_self, BitVec.getLsbD_and, BitVec.getLsbD_not, getLsbD_mask]
    by_cases hj : j = i
    · simp [hj]
    · simp [hj, hmod, mod_ne_of_byteIdx hbyte hj]
  · have hj : j ≠ i := fun h => hbyte (h ▸ rfl)
    rw [Function.update_of_ne hbyte]
    simp [hj]

theorem test_full {b : Bitmap n} {i : Fin (8 * n)} (h : b (byteIdx i) = 0xFF#8) :
    b.test i = true := by
  have hmod : i.val % 8 < 8 := Nat.mod_lt _ (by decide)
  rw [test_eq, h]
  generalize i.val % 8 = k at hmod
  interval_cases k <;> rfl

/-! ## Counting -/

/-- The set a bitmap stands for. -/
def toFinset (b : Bitmap n) : Finset (Fin (8 * n)) := Finset.univ.filter fun i => b.test i = true

def count (b : Bitmap n) : ℕ := b.toFinset.card

@[simp] theorem mem_toFinset {b : Bitmap n} {i : Fin (8 * n)} : i ∈ b.toFinset ↔ b.test i = true := by
  simp [toFinset]

theorem toFinset_set (b : Bitmap n) (i : Fin (8 * n)) : (b.set i).toFinset = insert i b.toFinset := by
  ext j
  rw [mem_toFinset, test_set, Finset.mem_insert, mem_toFinset, Bool.or_eq_true, decide_eq_true_iff]

theorem toFinset_clear (b : Bitmap n) (i : Fin (8 * n)) :
    (b.clear i).toFinset = b.toFinset.erase i := by
  ext j
  rw [mem_toFinset, test_clear, Finset.mem_erase, mem_toFinset, Bool.and_eq_true,
    decide_eq_true_iff]

theorem count_le (b : Bitmap n) : b.count ≤ 8 * n := by
  have h := Finset.card_le_univ b.toFinset
  rwa [Fintype.card_fin] at h

theorem count_set {b : Bitmap n} {i : Fin (8 * n)} (h : b.test i = false) :
    (b.set i).count = b.count + 1 := by
  unfold count
  rw [toFinset_set, Finset.card_insert_of_notMem (by rw [mem_toFinset, h]; decide)]

theorem count_clear {b : Bitmap n} {i : Fin (8 * n)} (h : b.test i = true) :
    (b.clear i).count + 1 = b.count := by
  unfold count
  rw [toFinset_clear, Finset.card_erase_add_one (mem_toFinset.mpr h)]

/-! ## The first clear bit -/

/-- Bit `k` of byte `i`. -/
def bitIdx (i : Fin n) (k : Fin 8) : Fin (8 * n) := ⟨i.val * 8 + k.val, by omega⟩

/-- The scan skips full bytes and looks at the bits of the others in order. -/
def firstClear (b : Bitmap n) : Option (Fin (8 * n)) :=
  (List.finRange n).findSome? fun i =>
    if b i ≠ 0xFF#8 then
      ((List.finRange 8).find? fun k => b i &&& (1#8 <<< k.val) == 0#8).map (bitIdx i)
    else none

theorem test_bitIdx (b : Bitmap n) (i : Fin n) (k : Fin 8) :
    b.test (bitIdx i k) = !(b i &&& (1#8 <<< k.val) == 0#8) := by
  have hbyte : byteIdx (bitIdx i k) = i := Fin.ext (by simp [byteIdx, bitIdx]; omega)
  have hmod : (bitIdx i k).val % 8 = k.val := by simp [bitIdx]
  unfold test mask
  rw [hbyte, hmod]
  rfl

theorem firstClear_some {b : Bitmap n} {i : Fin (8 * n)} (h : b.firstClear = some i) :
    b.test i = false := by
  have ⟨j, _, hj⟩ := List.exists_of_findSome?_eq_some h
  split at hj
  · have ⟨k, hk, hi⟩ := Option.map_eq_some_iff.mp hj
    have hclear := List.find?_some hk
    rw [← hi, test_bitIdx, hclear]
    rfl
  · cases hj

theorem mem_left_of_lt {l l' : List (Fin n)} {i j : Fin n} (h : List.finRange n = l ++ i :: l')
    (hj : j < i) : j ∈ l := by
  have hmem : j ∈ l ++ i :: l' := h ▸ List.mem_finRange j
  have hsorted : (l ++ i :: l').Pairwise (· < ·) := h ▸ List.pairwise_lt_finRange n
  have hright := (List.pairwise_cons.mp (List.pairwise_append.mp hsorted).2.1).1
  rcases List.mem_append.mp hmem with hl | hr
  · exact hl
  · rcases List.mem_cons.mp hr with heq | hr
    · omega
    · have hlt := hright j hr
      omega

theorem firstClear_least {b : Bitmap n} {i j : Fin (8 * n)} (h : b.firstClear = some i)
    (hj : j < i) : b.test j = true := by
  have ⟨l, a, l', hl, ha, hbefore⟩ := List.findSome?_eq_some_iff.mp h
  split at ha
  · have ⟨k, hk, hi⟩ := Option.map_eq_some_iff.mp ha
    have ⟨m, m', hm, hearlier⟩ := (List.find?_eq_some_iff_append.mp hk).2
    have hval : i.val = a.val * 8 + k.val := by rw [← hi]; rfl
    have hmod : j.val % 8 < 8 := Nat.mod_lt _ (by decide)
    have hidx : bitIdx (byteIdx j) ⟨j.val % 8, hmod⟩ = j :=
      Fin.ext (by simp [byteIdx, bitIdx]; omega)
    -- the bit is in an earlier byte, which was skipped, or earlier in the same byte
    by_cases hbyte : byteIdx j = a
    · have hdiv : j.val / 8 = a.val := congrArg Fin.val hbyte
      have hlt : (⟨j.val % 8, hmod⟩ : Fin 8) < k := by
        show j.val % 8 < k.val
        omega
      have htest := hearlier _ (mem_left_of_lt hm hlt)
      rw [← hidx, test_bitIdx, hbyte]
      exact htest
    · have hlt : byteIdx j < a := by
        have hne : j.val / 8 ≠ a.val := fun he => hbyte (Fin.ext he)
        show j.val / 8 < a.val
        omega
      have hskip := hbefore _ (mem_left_of_lt hl hlt)
      split at hskip
      · rw [Option.map_eq_none_iff, List.find?_eq_none] at hskip
        rw [← hidx, test_bitIdx,
          eq_false_of_ne_true (hskip ⟨j.val % 8, hmod⟩ (List.mem_finRange _))]
        rfl
      · next hfull => exact test_full (not_not.mp hfull)
  · cases ha

theorem firstClear_none {b : Bitmap n} (h : b.firstClear = none) (i : Fin (8 * n)) :
    b.test i = true := by
  have hbyte := List.findSome?_eq_none_iff.mp h (byteIdx i) (List.mem_finRange _)
  have hmod : i.val % 8 < 8 := Nat.mod_lt _ (by decide)
  have hidx : bitIdx (byteIdx i) ⟨i.val % 8, hmod⟩ = i :=
    Fin.ext (by simp [byteIdx, bitIdx]; omega)
  split at hbyte
  · rw [Option.map_eq_none_iff, List.find?_eq_none] at hbyte
    have hk := hbyte ⟨i.val % 8, hmod⟩ (List.mem_finRange _)
    rw [← hidx, test_bitIdx, eq_false_of_ne_true hk]
    rfl
  · next hfull => exact test_full (not_not.mp hfull)

theorem firstClear_eq_some {b : Bitmap n} {i : Fin (8 * n)} (hclear : b.test i = false)
    (hleast : ∀ j < i, b.test j = true) : b.firstClear = some i := by
  cases h : b.firstClear with
  | none =>
    rw [firstClear_none h i] at hclear
    cases hclear
  | some k =>
    have hk := firstClear_some h
    have hik : ¬ i < k := fun hlt => by
      rw [firstClear_least h hlt] at hclear
      cases hclear
    have hki : ¬ k < i := fun hlt => by
      rw [hleast k hlt] at hk
      cases hk
    rw [show k = i by omega]

end Bitmap
