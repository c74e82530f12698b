import Mathlib.Tactic

/-!
# Round-robin selection

A selector over `n` places that looks for the next ready place behind the current one and wraps
around.  The gap from the current place to a waiting one is what shrinks with every selection.
-/

namespace RoundRobin

variable {n : ℕ} {cur s t : Fin n}

/-- The number of steps from `cur` to `s`, at least one. -/
def gap (cur s : Fin n) : ℕ := if cur.val < s.val then s.val - cur.val else s.val + n - cur.val

theorem gap_pos (cur s : Fin n) : 1 ≤ gap cur s := by
  have hcur := cur.isLt
  unfold gap
  split <;> omega

theorem gap_le (cur s : Fin n) : gap cur s ≤ n := by
  have hs := s.isLt
  unfold gap
  split <;> omega

theorem gap_self (cur : Fin n) : gap cur cur = n := by
  unfold gap
  rw [if_neg (lt_irrefl _)]
  omega

theorem gap_lt (h : s ≠ cur) : gap cur s < n := by
  have hs := s.isLt
  have hne : s.val ≠ cur.val := fun he => h (Fin.ext he)
  unfold gap
  split <;> omega

/-- A place passed by lies between: its gaps to both ends add up. -/
theorem gap_add (hle : gap cur t ≤ gap cur s) (hne : t ≠ s) : gap cur t + gap t s = gap cur s := by
  have ht := t.isLt
  have hs := s.isLt
  have hval : t.val ≠ s.val := fun he => hne (Fin.ext he)
  unfold gap at hle ⊢
  split_ifs at hle ⊢ <;> omega

variable [NeZero n] {ready : Fin n → Bool}

/-- The place `i` steps behind `cur`. -/
def scan (cur : Fin n) (i : ℕ) : Fin n := ⟨(cur.val + i) % n, Nat.mod_lt _ (NeZero.pos n)⟩

/-- The first ready place behind `cur`, `cur` itself last. -/
def next (ready : Fin n → Bool) (cur : Fin n) : Option (Fin n) :=
  ((List.range' 1 n).map (scan cur)).find? ready

theorem scan_val (cur : Fin n) {i : ℕ} (hi : i ≤ n) :
    (scan cur i).val = if cur.val + i < n then cur.val + i else cur.val + i - n := by
  have hcur := cur.isLt
  show (cur.val + i) % n = _
  split
  · next hlt => exact Nat.mod_eq_of_lt hlt
  · next hge =>
    -- one turn at most
    rw [Nat.mod_eq_sub_mod (by omega)]
    exact Nat.mod_eq_of_lt (by omega)

theorem scan_gap (cur s : Fin n) : scan cur (gap cur s) = s := by
  have hs := s.isLt
  apply Fin.ext
  rw [scan_val cur (gap_le cur s)]
  unfold gap
  split <;> split <;> omega

theorem gap_scan (cur : Fin n) {i : ℕ} (hpos : 1 ≤ i) (hi : i ≤ n) : gap cur (scan cur i) = i := by
  have hcur := cur.isLt
  unfold gap
  rw [scan_val cur hi]
  split <;> split <;> omega

theorem next_eq_some (h : next ready cur = some t) :
    ready t = true ∧ ∀ s, ready s = true → gap cur t ≤ gap cur s := by
  unfold next at h
  rw [List.find?_map] at h
  have ⟨i, hi, hit⟩ := Option.map_eq_some_iff.mp h
  rw [List.find?_range'_eq_some] at hi
  have ⟨hready, hmem, hfirst⟩ := hi
  rw [List.mem_range'_1] at hmem
  rw [← hit]
  refine ⟨hready, fun s hs => ?_⟩
  rw [gap_scan cur hmem.1 (by omega)]
  by_contra hlt
  have hnot := hfirst (gap cur s) (gap_pos cur s) (by omega)
  rw [Function.comp, scan_gap, hs] at hnot
  cases hnot

theorem next_isSome (cur : Fin n) (h : ready s = true) : (next ready cur).isSome = true := by
  unfold next
  rw [List.find?_isSome]
  refine ⟨s, ?_, h⟩
  rw [List.mem_map]
  refine ⟨gap cur s, ?_, scan_gap cur s⟩
  rw [List.mem_range'_1]
  have hpos := gap_pos cur s
  have hle := gap_le cur s
  omega

/-- A selection passes a waiting place by only to come closer to it. -/
theorem gap_next (h : next ready cur = some t) (hs : ready s = true) (hne : t ≠ s) :
    gap t s < gap cur s := by
  have hadd := gap_add ((next_eq_some h).2 s hs) hne
  have hpos := gap_pos cur t
  omega

end RoundRobin
