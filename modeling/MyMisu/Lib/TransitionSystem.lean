import Mathlib.Tactic

/-!
# Transition systems

Labelled transition systems, the states their runs reach, and the rule that an invariant kept by
each step holds of each reachable state.  A *guard* restricts which steps a run may take.
-/

structure TransitionSystem (σ α : Type*) where
  init : σ → Prop
  step : σ → α → σ → Prop

namespace TransitionSystem

variable {σ α : Type*}

/-- The system of a total step function. -/
def ofFun (init : σ → Prop) (exec : σ → α → σ) : TransitionSystem σ α where
  init := init
  step s a s' := s' = exec s a

/-- The system of a step function that some labels do not apply to. -/
def ofPartial (init : σ → Prop) (exec : σ → α → Option σ) : TransitionSystem σ α where
  init := init
  step s a s' := exec s a = some s'

/-- States reached by runs each of whose steps satisfies the guard in the state it starts from. -/
inductive Reach (T : TransitionSystem σ α) (guard : σ → α → Prop) : σ → Prop
  | init {s : σ} : T.init s → Reach T guard s
  | step {s s' : σ} {a : α} : Reach T guard s → guard s a → T.step s a s' → Reach T guard s'

/-- Reachability by arbitrary runs. -/
abbrev Reachable (T : TransitionSystem σ α) : σ → Prop := T.Reach fun _ _ => True

theorem Reachable.next {T : TransitionSystem σ α} {s s' : σ} {a : α} (h : T.Reachable s)
    (hstep : T.step s a s') : T.Reachable s' :=
  .step h trivial hstep

theorem Reach.mono {T : TransitionSystem σ α} {g g' : σ → α → Prop} (hg : ∀ s a, g s a → g' s a)
    {s : σ} (h : T.Reach g s) : T.Reach g' s := by
  induction h with
  | init hs => exact .init hs
  | step _ ha hs ih => exact .step ih (hg _ _ ha) hs

/-- The invariant rule, with the reachability of the source state at hand in the step. -/
theorem Reach.invariant {T : TransitionSystem σ α} {g : σ → α → Prop} {I : σ → Prop}
    (hinit : ∀ s, T.init s → I s)
    (hstep : ∀ s a s', T.Reach g s → I s → g s a → T.step s a s' → I s')
    {s : σ} (h : T.Reach g s) : I s := by
  induction h with
  | init hs => exact hinit _ hs
  | step hr ha hs ih => exact hstep _ _ _ hr ih ha hs

theorem Reachable.foldl {init : σ → Prop} {exec : σ → α → σ} {s : σ}
    (h : (ofFun init exec).Reachable s) (ops : List α) :
    (ofFun init exec).Reachable (ops.foldl exec s) := by
  induction ops generalizing s with
  | nil => exact h
  | cons a ops ih => exact ih (h.next rfl)

/-- Some steps, one after the other. -/
def Steps (T : TransitionSystem σ α) : σ → σ → Prop := Relation.ReflTransGen fun s s' => ∃ a, T.step s a s'

theorem Reachable.steps {T : TransitionSystem σ α} {s s' : σ} (h : T.Reachable s)
    (hsteps : T.Steps s s') : T.Reachable s' := by
  induction hsteps with
  | refl => exact h
  | tail _ hstep ih =>
    have ⟨_, ha⟩ := hstep
    exact ih.next ha

theorem Steps.one {T : TransitionSystem σ α} {s s' : σ} {a : α} (h : T.step s a s') :
    T.Steps s s' := .single ⟨a, h⟩

/-- A component of a system whose every step takes some steps of the component's own. -/
theorem Reach.component {τ β : Type*} {T : TransitionSystem σ α} {U : TransitionSystem τ β}
    {g : σ → α → Prop} {f : σ → τ} (hinit : ∀ s, T.init s → U.Reachable (f s))
    (hstep : ∀ s a s', g s a → T.step s a s' → U.Steps (f s) (f s')) {s : σ} (h : T.Reach g s) :
    U.Reachable (f s) :=
  h.invariant hinit fun _ _ _ _ hs ha ht => hs.steps (hstep _ _ _ ha ht)

/-- A step function cut to the steps the guard allows. -/
def guarded (g : σ → α → Prop) [∀ s a, Decidable (g s a)] (exec : σ → α → Option σ) (s : σ) (a : α) :
    Option σ :=
  if g s a then exec s a else none

theorem Reach.foldlM {g : σ → α → Prop} [∀ s a, Decidable (g s a)] {init : σ → Prop}
    {exec : σ → α → Option σ} {s s' : σ} (h : (ofPartial init exec).Reach g s) {ops : List α}
    (hrun : ops.foldlM (guarded g exec) s = some s') : (ofPartial init exec).Reach g s' := by
  induction ops generalizing s with
  | nil =>
    cases hrun
    exact h
  | cons a ops ih =>
    rw [List.foldlM_cons] at hrun
    have ⟨t, ht, hrest⟩ := Option.bind_eq_some_iff.mp hrun
    have ⟨hg, hstep⟩ := Option.ite_none_right_eq_some.mp ht
    exact ih (.step h hg hstep) hrest

/-- The same for a guard on the labels alone. -/
theorem Reach.foldlM_labels {g : α → Prop} {init : σ → Prop} {exec : σ → α → Option σ} {s s' : σ}
    (h : (ofPartial init exec).Reach (fun _ a => g a) s) {ops : List α} (hops : ∀ a ∈ ops, g a)
    (hrun : ops.foldlM exec s = some s') : (ofPartial init exec).Reach (fun _ a => g a) s' := by
  induction ops generalizing s with
  | nil =>
    cases hrun
    exact h
  | cons a ops ih =>
    rw [List.foldlM_cons] at hrun
    have ⟨t, ht, hrest⟩ := Option.bind_eq_some_iff.mp hrun
    have hstep : (ofPartial init exec).Reach (fun _ a => g a) t :=
      .step h (hops a List.mem_cons_self) ht
    exact ih hstep (fun b hb => hops b (List.mem_cons_of_mem a hb)) hrest

end TransitionSystem
