import Mathlib.Tactic

/-!
# Keeping what fits

Items taken in order into a given room: an item that does not fit any more is skipped, and a later,
smaller one may still be taken.
-/

namespace List

variable {α : Type*} {size : α → ℕ}

def firstFit (size : α → ℕ) : ℕ → List α → List α
  | _, [] => []
  | room, a :: l =>
    if size a ≤ room then a :: firstFit size (room - size a) l else firstFit size room l

theorem firstFit_sublist (room : ℕ) (l : List α) : (firstFit size room l).Sublist l := by
  induction l generalizing room with
  | nil => exact .slnil
  | cons a l ih =>
    rw [firstFit]
    split
    · exact (ih _).cons_cons a
    · exact (ih _).cons a

theorem sum_firstFit_le (room : ℕ) (l : List α) : ((firstFit size room l).map size).sum ≤ room := by
  induction l generalizing room with
  | nil => exact Nat.zero_le _
  | cons a l ih =>
    rw [firstFit]
    split
    · next hfit =>
      rw [map_cons, sum_cons]
      have := ih (room - size a)
      omega
    · exact ih room

/-- Items that fit together are all taken, and what follows gets the room they leave. -/
theorem firstFit_append {room : ℕ} {xs : List α} (hfit : (xs.map size).sum ≤ room) (ys : List α) :
    firstFit size room (xs ++ ys) = xs ++ firstFit size (room - (xs.map size).sum) ys := by
  induction xs generalizing room with
  | nil => rfl
  | cons a xs ih =>
    rw [map_cons, sum_cons] at hfit
    rw [cons_append, firstFit, if_pos (by omega), ih (by omega), map_cons, sum_cons, cons_append,
      Nat.sub_sub]

theorem firstFit_eq_self_iff {room : ℕ} {l : List α} :
    firstFit size room l = l ↔ (l.map size).sum ≤ room := by
  constructor
  · intro hall
    rw [← hall]
    exact sum_firstFit_le room l
  · intro hfit
    have htaken := firstFit_append hfit []
    rwa [append_nil, firstFit, append_nil] at htaken

end List
