import Mathlib.Tactic

/-!
# Rings that keep the newest

A ring of `cap` cells into which items are written one after the other, each over the oldest once the
ring is full.  From the number of items written and the place of the next one, the last `cap` items
are found again in the order in which they came.
-/

structure RecentRing (α : Type*) where
  cells : ℕ → α
  head : ℕ

namespace RecentRing

variable {α : Type*} {cap : ℕ} {r : RecentRing α} {xs : List α}

def push (cap : ℕ) (r : RecentRing α) (x : α) : RecentRing α where
  cells := Function.update r.cells r.head x
  head := (r.head + 1) % cap

/-- The ring after the items `xs`: the next cell is that of their number, and each of the last `cap`
of them is in the cell of its own number. -/
structure Holds (cap : ℕ) (r : RecentRing α) (xs : List α) : Prop where
  head : r.head = xs.length % cap
  cell : ∀ i (h : i < xs.length), xs.length ≤ i + cap → r.cells (i % cap) = xs[i]

/-- Where the oldest item is. -/
def start (cap : ℕ) (r : RecentRing α) (written : ℕ) : ℕ := if written < cap then 0 else r.head

theorem Holds.nil (hhead : r.head = 0) : r.Holds cap [] where
  head := by rw [hhead, List.length_nil, Nat.zero_mod]
  cell i h := absurd h (Nat.not_lt_zero i)

/-- Only the cells below `cap` count. -/
theorem Holds.congr {r' : RecentRing α} (h : r.Holds cap xs) (hhead : r'.head = r.head)
    (hcells : ∀ i < cap, r'.cells i = r.cells i) : r'.Holds cap xs where
  head := hhead.trans h.head
  cell i hi hrecent := by
    rw [hcells _ (Nat.mod_lt i (by omega))]
    exact h.cell i hi hrecent

theorem Holds.push (h : r.Holds cap xs) (x : α) :
    (r.push cap x).Holds cap (xs ++ [x]) where
  head := by
    show (r.head + 1) % cap = _
    rw [h.head, List.length_append, List.length_singleton, Nat.mod_add_mod]
  cell i hi hrecent := by
    rw [List.length_append, List.length_singleton] at hi hrecent
    show Function.update r.cells r.head x (i % cap) = _
    by_cases hlast : i = xs.length
    · subst hlast
      rw [← h.head, Function.update_self, List.getElem_concat_length rfl]
    · -- an item that is still kept has another cell than the new one
      have hne : i % cap ≠ r.head := by
        rw [h.head]
        intro heq
        have hdvd := (Nat.modEq_iff_dvd' (by omega)).mp heq
        have hzero := Nat.eq_zero_of_dvd_of_lt hdvd (by omega)
        omega
      rw [Function.update_of_ne hne, List.getElem_append_left (by omega)]
      exact h.cell i (by omega) (by omega)

/-- Reading the ring round from the oldest item gives the last `cap` items. -/
theorem Holds.read (h : r.Holds cap xs) :
    (List.range (min cap xs.length)).map (fun i => r.cells ((r.start cap xs.length + i) % cap)) =
      xs.drop (xs.length - cap) := by
  apply List.ext_getElem
  · rw [List.length_map, List.length_range, List.length_drop]
    omega
  intro i hi _
  rw [List.length_map, List.length_range] at hi
  rw [List.getElem_map, List.getElem_range, List.getElem_drop]
  -- the place of the oldest item is that of the number of items that are gone
  have hplace : (r.start cap xs.length + i) % cap = (xs.length - cap + i) % cap := by
    unfold start
    split_ifs with hfew
    · rw [Nat.sub_eq_zero_of_le hfew.le]
    · rw [h.head, Nat.mod_add_mod, show xs.length + i = xs.length - cap + i + cap by omega,
        Nat.add_mod_right]
  rw [hplace]
  exact h.cell (xs.length - cap + i) (by omega) (by omega)

end RecentRing
