import Mathlib.Tactic

/-!
# Arrays with a record of their stores

The cells of an array by index, unbounded, with the indices stored to so far.  A loop that fills a
range or copies one down changes that range only, and stores nowhere else.
-/

structure CellArray (α : Type*) where
  cell : ℕ → α
  stored : List ℕ

namespace CellArray

variable {α : Type*} {a : CellArray α} {b n j : ℕ}

def store (a : CellArray α) (i : ℕ) (v : α) : CellArray α where
  cell := Function.update a.cell i v
  stored := i :: a.stored

/-- `for (x = 0; x < n; x++) a[b + x] = v(x);` -/
def fill (a : CellArray α) (b n : ℕ) (v : ℕ → α) : CellArray α :=
  (List.range n).foldl (fun a x => a.store (b + x) (v x)) a

/-- `for (x = 0; x < n; x++) a[dst + x] = a[src + x];` -/
def copy (a : CellArray α) (dst src n : ℕ) : CellArray α :=
  (List.range n).foldl (fun a x => a.store (dst + x) (a.cell (src + x))) a

theorem fill_succ (v : ℕ → α) : a.fill b (n + 1) v = (a.fill b n v).store (b + n) (v n) := by
  rw [fill, List.range_succ, List.foldl_append]
  rfl

theorem copy_succ (dst src : ℕ) :
    a.copy dst src (n + 1) =
      (a.copy dst src n).store (dst + n) ((a.copy dst src n).cell (src + n)) := by
  rw [copy, List.range_succ, List.foldl_append]
  rfl

theorem cell_fill (v : ℕ → α) :
    (a.fill b n v).cell j = if b ≤ j ∧ j < b + n then v (j - b) else a.cell j := by
  induction n with
  | zero =>
    rw [if_neg (by omega)]
    rfl
  | succ n ih =>
    rw [fill_succ]
    show Function.update (a.fill b n v).cell (b + n) (v n) j = _
    by_cases hj : j = b + n
    · rw [hj, Function.update_self, if_pos (by omega), Nat.add_sub_cancel_left]
    · rw [Function.update_of_ne hj, ih]
      congr 1
      exact propext (by omega)

/-- A copy to lower indices reads only cells it has not stored to yet. -/
theorem cell_copy {dst src : ℕ} (hdown : dst ≤ src) :
    (a.copy dst src n).cell j =
      if dst ≤ j ∧ j < dst + n then a.cell (src + (j - dst)) else a.cell j := by
  induction n generalizing j with
  | zero =>
    rw [if_neg (by omega)]
    rfl
  | succ n ih =>
    rw [copy_succ]
    show Function.update (a.copy dst src n).cell (dst + n) ((a.copy dst src n).cell (src + n)) j = _
    by_cases hj : j = dst + n
    · rw [hj, Function.update_self, if_pos (by omega), ih, if_neg (by omega), Nat.add_sub_cancel_left]
    · rw [Function.update_of_ne hj, ih]
      congr 1
      exact propext (by omega)

theorem stored_fill (v : ℕ → α) {i : ℕ} (h : i ∈ (a.fill b n v).stored) :
    i ∈ a.stored ∨ b ≤ i ∧ i < b + n := by
  induction n with
  | zero => exact .inl h
  | succ n ih =>
    rw [fill_succ] at h
    rcases List.mem_cons.mp h with heq | hmem
    · exact .inr (by omega)
    · rcases ih hmem with hold | hnew
      · exact .inl hold
      · exact .inr (by omega)

theorem stored_copy {dst src i : ℕ} (h : i ∈ (a.copy dst src n).stored) :
    i ∈ a.stored ∨ dst ≤ i ∧ i < dst + n := by
  induction n with
  | zero => exact .inl h
  | succ n ih =>
    rw [copy_succ] at h
    rcases List.mem_cons.mp h with heq | hmem
    · exact .inr (by omega)
    · rcases ih hmem with hold | hnew
      · exact .inl hold
      · exact .inr (by omega)

/-! ## Rows -/

/-- `n` rows of `w` cells filled one after the other. -/
def fillRows (a : CellArray α) (w n : ℕ) (v : α) : CellArray α :=
  (List.range n).foldl (fun a y => a.fill (y * w) w fun _ => v) a

/-- The rows from 1 to `n` copied one row up, one after the other. -/
def rowsUp (a : CellArray α) (w n : ℕ) : CellArray α :=
  (List.range' 1 n).foldl (fun a y => a.copy ((y - 1) * w) (y * w) w) a

theorem fillRows_succ (w : ℕ) (v : α) :
    a.fillRows w (n + 1) v = (a.fillRows w n v).fill (n * w) w fun _ => v := by
  rw [fillRows, List.range_succ, List.foldl_append]
  rfl

theorem rowsUp_succ (w : ℕ) :
    a.rowsUp w (n + 1) = (a.rowsUp w n).copy (n * w) ((n + 1) * w) w := by
  rw [rowsUp, List.range'_1_concat, List.foldl_append, Nat.add_comm 1 n]
  rfl

theorem cell_fillRows (w : ℕ) (v : α) :
    (a.fillRows w n v).cell j = if j < n * w then v else a.cell j := by
  induction n with
  | zero =>
    rw [if_neg (by omega)]
    rfl
  | succ n ih =>
    have hrow : (n + 1) * w = n * w + w := by ring
    rw [fillRows_succ, cell_fill, ih, hrow]
    split
    · rw [if_pos (by omega)]
    · congr 1
      exact propext (by omega)

theorem cell_rowsUp (w : ℕ) :
    (a.rowsUp w n).cell j = if j < n * w then a.cell (j + w) else a.cell j := by
  induction n generalizing j with
  | zero =>
    rw [if_neg (by omega)]
    rfl
  | succ n ih =>
    have hrow : (n + 1) * w = n * w + w := by ring
    rw [rowsUp_succ, cell_copy (by omega), hrow, ih, ih]
    split
    -- a row not moved yet
    · rw [if_neg (by omega), if_pos (by omega)]
      congr 1
      omega
    · congr 1
      exact propext (by omega)

theorem stored_fillRows {w : ℕ} {v : α} {i : ℕ} (h : i ∈ (a.fillRows w n v).stored) :
    i ∈ a.stored ∨ i < n * w := by
  induction n with
  | zero => exact .inl h
  | succ n ih =>
    have hrow : (n + 1) * w = n * w + w := by ring
    rw [fillRows_succ] at h
    rcases stored_fill _ h with hmem | hnew
    · rcases ih hmem with hold | hlt
      · exact .inl hold
      · exact .inr (by omega)
    · exact .inr (by omega)

theorem stored_rowsUp {w i : ℕ} (h : i ∈ (a.rowsUp w n).stored) : i ∈ a.stored ∨ i < n * w := by
  induction n with
  | zero => exact .inl h
  | succ n ih =>
    have hrow : (n + 1) * w = n * w + w := by ring
    rw [rowsUp_succ] at h
    rcases stored_copy h with hmem | hnew
    · rcases ih hmem with hold | hlt
      · exact .inl hold
      · exact .inr (by omega)
    · exact .inr (by omega)

end CellArray
