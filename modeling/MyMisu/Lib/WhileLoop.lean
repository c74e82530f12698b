import Mathlib.Tactic

/-!
# While loops

`whileLoop cond body fuel s` runs `while (cond s) s = body s` for at most `fuel` tests of the
condition; `none` means that the fuel ran out or that the body itself did not return.
-/

variable {σ : Type*}

def whileLoop (cond : σ → Bool) (body : σ → Option σ) : ℕ → σ → Option σ
  | 0, _ => none
  | fuel + 1, s => if cond s then (body s).bind (whileLoop cond body fuel) else some s

namespace WhileLoop

variable {cond : σ → Bool} {body : σ → Option σ}

theorem exit {s : σ} (h : cond s = false) (fuel : ℕ) :
    whileLoop cond body (fuel + 1) s = some s := by
  rw [whileLoop, if_neg (by simp [h])]

theorem enter {s s' : σ} (h : cond s = true) (hb : body s = some s') (fuel : ℕ) :
    whileLoop cond body (fuel + 1) s = whileLoop cond body fuel s' := by
  rw [whileLoop, if_pos h, hb, Option.bind_some]

/-- More fuel changes nothing for a loop that returns. -/
theorem mono {fuel fuel' : ℕ} (hle : fuel ≤ fuel') {s t : σ} (h : whileLoop cond body fuel s = some t) :
    whileLoop cond body fuel' s = some t := by
  induction fuel generalizing fuel' s with
  | zero => cases h
  | succ fuel ih =>
    obtain ⟨n, rfl⟩ := Nat.exists_eq_add_of_le' hle
    rw [← Nat.add_assoc]
    rw [whileLoop] at h ⊢
    split_ifs at h ⊢
    · obtain ⟨u, hu, hrest⟩ := Option.bind_eq_some_iff.mp h
      rw [hu]
      exact ih (by omega) hrest
    · exact h

/-! ## Coming back -/

/-- A walk comes back when it is where it has been before. -/
theorem iterate_of_comeback {α : Type*} {f : α → α} {a : α} {i n : ℕ} (hback : f^[i + n] a = f^[i] a)
    (k : ℕ) : f^[i + n + k] a = f^[i + k] a := by
  rw [Nat.add_comm, Function.iterate_add_apply, hback, ← Function.iterate_add_apply, Nat.add_comm]

/-- A walk stays for ever in a finite set just when it comes back within it. -/
theorem forall_iterate_iff {α : Type*} {f : α → α} {P : α → Prop} (hfinite : {a | P a}.Finite) (a : α) :
    (∀ k, P (f^[k] a)) ↔ ∃ i n, 0 < n ∧ (∀ k < i + n, P (f^[k] a)) ∧ f^[i + n] a = f^[i] a := by
  constructor
  · intro h
    obtain ⟨i, -, j, -, hne, heq⟩ := Set.infinite_univ.exists_ne_map_eq_of_mapsTo
      (f := fun k => f^[k] a) (fun k _ => h k) hfinite
    rcases Nat.lt_or_gt_of_ne hne with hlt | hlt
    · refine ⟨i, j - i, by omega, fun k _ => h k, ?_⟩
      rw [Nat.add_sub_cancel' hlt.le]
      exact heq.symm
    · refine ⟨j, i - j, by omega, fun k _ => h k, ?_⟩
      rw [Nat.add_sub_cancel' hlt.le]
      exact heq
  · rintro ⟨i, n, hpos, hin, hback⟩ k
    induction k using Nat.strong_induction_on with
    | _ k ih =>
    by_cases hk : k < i + n
    · exact hin k hk
    · -- one turn less
      obtain ⟨m, rfl⟩ := Nat.exists_eq_add_of_le (Nat.le_of_not_lt hk)
      rw [iterate_of_comeback hback]
      exact ih (i + m) (by omega)

end WhileLoop
