import Mathlib.Tactic
import MyMisu.Lib.TransitionSystem

/-!
# Machines that reply

A machine answers each operation and moves on.  Two machines whose states stay related while their
answers agree give the same answers to every list of operations, as long as each operation is
allowed in the state it is called in.
-/

namespace Replies

variable {σ τ α ρ ρ' : Type*}

/-- The answers to a list of operations. -/
def replies (call : σ → α → ρ × σ) : σ → List α → List ρ
  | _, [] => []
  | s, a :: ops => (call s a).1 :: replies call (call s a).2 ops

/-- The state behind a list of operations. -/
def final (call : σ → α → ρ × σ) (s : σ) (ops : List α) : σ :=
  ops.foldl (fun s a => (call s a).2) s

/-- Every operation meets the guard in the state it is called in. -/
def Allowed (guard : σ → α → Prop) (call : σ → α → ρ × σ) : σ → List α → Prop
  | _, [] => True
  | s, a :: ops => guard s a ∧ Allowed guard call (call s a).2 ops

instance Allowed.decidable {guard : σ → α → Prop} [∀ s a, Decidable (guard s a)]
    (call : σ → α → ρ × σ) : ∀ s ops, Decidable (Allowed guard call s ops)
  | _, [] => inferInstanceAs (Decidable True)
  | s, a :: ops =>
    have : Decidable (Allowed guard call (call s a).2 ops) := Allowed.decidable call _ ops
    inferInstanceAs (Decidable (guard s a ∧ Allowed guard call (call s a).2 ops))

theorem final_cons (call : σ → α → ρ × σ) (s : σ) (a : α) (ops : List α) :
    final call s (a :: ops) = final call (call s a).2 ops := rfl

/-- An allowed list of operations is a run of the guarded system. -/
theorem reach_foldl {guard : σ → α → Prop} {init : σ → Prop} {exec : σ → α → σ} {s : σ}
    (h : (TransitionSystem.ofFun init exec).Reach guard s) {ops : List α}
    (hops : Allowed guard (fun s a => ((), exec s a)) s ops) :
    (TransitionSystem.ofFun init exec).Reach guard (ops.foldl exec s) := by
  induction ops generalizing s with
  | nil => exact h
  | cons a ops ih => exact ih (.step h hops.1 rfl) hops.2

section Simulation

variable {R : σ → τ → Prop} {guard : σ → α → Prop} {call : σ → α → ρ × σ} {call' : τ → α → ρ' × τ}
  {view : ρ → ρ'}
  (hstep : ∀ s t a, R s t → guard s a → view (call s a).1 = (call' t a).1 ∧ R (call s a).2 (call' t a).2)

include hstep

theorem replies_of_simulation {s : σ} {t : τ} (h : R s t) {ops : List α}
    (hops : Allowed guard call s ops) : (replies call s ops).map view = replies call' t ops := by
  induction ops generalizing s t with
  | nil => rfl
  | cons a ops ih =>
    have hnext := hstep s t a h hops.1
    unfold replies
    rw [List.map_cons, hnext.1, ih hnext.2 hops.2]

theorem final_of_simulation {s : σ} {t : τ} (h : R s t) {ops : List α}
    (hops : Allowed guard call s ops) : R (final call s ops) (final call' t ops) := by
  induction ops generalizing s t with
  | nil => exact h
  | cons a ops ih =>
    rw [final_cons, final_cons]
    exact ih (hstep s t a h hops.1).2 hops.2

end Simulation

end Replies
