import Mathlib.Tactic

/-!
# Ring buffers

A ring of `cap` cells with a read and a write index, where the writer stops one cell short of the
reader so that equal indices mean an empty ring.  The waiting items are the cells from the read
index round to the write index: a write appends one, a step of the read index takes the first away.
-/

structure RingBuffer (α : Type*) where
  cells : ℕ → α
  read : ℕ
  write : ℕ

namespace RingBuffer

variable {α : Type*} {cap : ℕ} {r : RingBuffer α}

structure InRange (cap : ℕ) (r : RingBuffer α) : Prop where
  read : r.read < cap
  write : r.write < cap

def count (cap : ℕ) (r : RingBuffer α) : ℕ := (r.write + cap - r.read) % cap

/-- What waits in the ring, oldest first. -/
def items (cap : ℕ) (r : RingBuffer α) : List α :=
  (List.range (r.count cap)).map fun k => r.cells ((r.read + k) % cap)

/-- A value stored behind the waiting ones. -/
def put (cap : ℕ) (r : RingBuffer α) (x : α) : RingBuffer α where
  cells := Function.update r.cells r.write x
  read := r.read
  write := (r.write + 1) % cap

/-- The first of the waiting values given up. -/
def skip (cap : ℕ) (r : RingBuffer α) : RingBuffer α :=
  { r with read := (r.read + 1) % cap }

@[simp] theorem put_read (x : α) : (r.put cap x).read = r.read := rfl

@[simp] theorem put_write (x : α) : (r.put cap x).write = (r.write + 1) % cap := rfl

@[simp] theorem skip_read : (r.skip cap).read = (r.read + 1) % cap := rfl

@[simp] theorem skip_write : (r.skip cap).write = r.write := rfl

/-- An index passes the end of the ring at most once. -/
theorem mod_cases {n : ℕ} (h : n < 2 * cap) :
    n < cap ∧ n % cap = n ∨ cap ≤ n ∧ n % cap = n - cap := by
  rcases lt_or_ge n cap with hlt | hge
  · exact .inl ⟨hlt, Nat.mod_eq_of_lt hlt⟩
  · exact .inr ⟨hge, by rw [Nat.mod_eq_sub_mod hge, Nat.mod_eq_of_lt (by omega)]⟩

theorem length_items : (r.items cap).length = r.count cap := by
  rw [items, List.length_map, List.length_range]

namespace InRange

theorem count_cases (h : r.InRange cap) :
    r.read ≤ r.write ∧ r.count cap = r.write - r.read ∨
      r.write < r.read ∧ r.count cap = r.write + cap - r.read := by
  have hr := h.read
  have hw := h.write
  have hmod := mod_cases (show r.write + cap - r.read < 2 * cap by omega)
  unfold count
  omega

theorem count_lt (h : r.InRange cap) : r.count cap < cap := Nat.mod_lt _ (by have := h.read; omega)

theorem count_eq_zero (h : r.InRange cap) : r.count cap = 0 ↔ r.read = r.write := by
  have hr := h.read
  have hcount := h.count_cases
  omega

/-- The writer has caught up with the reader when all cells but one are taken. -/
theorem full_iff (h : r.InRange cap) :
    (r.write + 1) % cap = r.read ↔ r.count cap = cap - 1 := by
  have hr := h.read
  have hw := h.write
  have hcount := h.count_cases
  have hnext := mod_cases (show r.write + 1 < 2 * cap by omega)
  omega

theorem put (h : r.InRange cap) (x : α) : (r.put cap x).InRange cap :=
  ⟨h.read, Nat.mod_lt _ (by have := h.read; omega)⟩

theorem skip (h : r.InRange cap) : (r.skip cap).InRange cap :=
  ⟨Nat.mod_lt _ (by have := h.read; omega), h.write⟩

theorem count_put (h : r.InRange cap) (hfull : (r.write + 1) % cap ≠ r.read) (x : α) :
    (r.put cap x).count cap = r.count cap + 1 := by
  have hr := h.read
  have hw := h.write
  have hcount := h.count_cases
  have hput := (h.put x).count_cases
  have hnext := mod_cases (show r.write + 1 < 2 * cap by omega)
  rw [put_read, put_write] at hput
  omega

theorem items_put (h : r.InRange cap) (hfull : (r.write + 1) % cap ≠ r.read) (x : α) :
    (r.put cap x).items cap = r.items cap ++ [x] := by
  have hr := h.read
  have hw := h.write
  have hcount := h.count_cases
  have hlt := h.count_lt
  have hnot : r.count cap ≠ cap - 1 := fun hn => hfull (h.full_iff.mpr hn)
  rw [items, h.count_put hfull, List.range_succ, List.map_append]
  congr 1
  -- the waiting cells are other than the one written
  · apply List.map_congr_left
    intro k hk
    have hk := List.mem_range.mp hk
    have hmod := mod_cases (show r.read + k < 2 * cap by omega)
    have hne : (r.read + k) % cap ≠ r.write := by omega
    exact Function.update_of_ne hne ..
  · have hmod := mod_cases (show r.read + r.count cap < 2 * cap by omega)
    have hend : (r.read + r.count cap) % cap = r.write := by omega
    show [Function.update r.cells r.write x ((r.read + r.count cap) % cap)] = [x]
    rw [hend, Function.update_self]

theorem count_skip (h : r.InRange cap) (hne : r.read ≠ r.write) :
    r.count cap = (r.skip cap).count cap + 1 := by
  have hr := h.read
  have hw := h.write
  have hcount := h.count_cases
  have hskip := h.skip.count_cases
  have hnext := mod_cases (show r.read + 1 < 2 * cap by omega)
  rw [skip_read, skip_write] at hskip
  omega

theorem items_skip (h : r.InRange cap) (hne : r.read ≠ r.write) :
    r.items cap = r.cells r.read :: (r.skip cap).items cap := by
  have hr := h.read
  have hlt := h.count_lt
  rw [items, h.count_skip hne, List.range_succ_eq_map, List.map_cons, List.map_map, items]
  congr 1
  · rw [Nat.add_zero, Nat.mod_eq_of_lt hr]
  · apply List.map_congr_left
    intro k hk
    have hk := List.mem_range.mp hk
    show r.cells ((r.read + (k + 1)) % cap) = r.cells (((r.read + 1) % cap + k) % cap)
    rw [Nat.mod_add_mod, Nat.add_assoc, Nat.add_comm 1 k]

end InRange

end RingBuffer
