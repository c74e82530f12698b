import Mathlib.Data.Fintype.Card
import Mathlib.Tactic

/-!
# Parent-pointer trees

A tree kept as a table of nodes with a parent pointer each: a predicate says which nodes are alive
and every alive node but the root points at an alive node.  Slots of the table may be reused in
any order, so the pointers alone bound nothing; acyclicity is the existence of a rank that falls
along each pointer.  Nodes also carry a label, and when the children of a node have different
labels a node is the same thing as the path of labels that leads to it.
-/

variable {α L : Type*}

structure ParentTree (alive : α → Prop) (parent : α → Option α) (root : α) : Prop where
  root_alive : alive root
  root_parent : parent root = none
  root_unique : ∀ {i}, alive i → parent i = none → i = root
  parent_alive : ∀ {i p}, alive i → parent i = some p → alive p
  ranked : ∃ rank : α → ℕ, ∀ i p, alive i → parent i = some p → rank p < rank i

/-- The ancestor `n` steps above a node. -/
def climb (parent : α → Option α) : ℕ → α → Option α
  | 0, i => some i
  | n + 1, i => (parent i).bind (climb parent n)

/-- `PathTo alive parent label root p i`: the labels `p`, innermost first, lead from the root to the
alive node `i`. -/
inductive PathTo (alive : α → Prop) (parent : α → Option α) (label : α → L) (root : α) :
    List L → α → Prop
  | root : PathTo alive parent label root [] root
  | child {p : List L} {d i : α} : PathTo alive parent label root p d → alive i →
      parent i = some d → PathTo alive parent label root (label i :: p) i

namespace ParentTree

variable {alive alive' : α → Prop} {parent parent' : α → Option α} {label label' : α → L}
  {root : α}

theorem climb_add (m n : ℕ) (i : α) :
    climb parent (m + n) i = (climb parent m i).bind (climb parent n) := by
  induction m generalizing i with
  | zero => simp [climb]
  | succ m ih =>
    rw [Nat.succ_add, climb, climb]
    cases parent i with
    | none => rfl
    | some p => exact ih p

theorem climb_alive (h : ParentTree alive parent root) {n : ℕ} {i j : α} (hi : alive i)
    (hc : climb parent n i = some j) : alive j := by
  induction n generalizing i with
  | zero => exact Option.some.inj hc ▸ hi
  | succ n ih =>
    rw [climb] at hc
    obtain ⟨p, hp, hc⟩ := Option.bind_eq_some_iff.mp hc
    exact ih (h.parent_alive hi hp) hc

theorem climb_rank (h : ParentTree alive parent root) {rank : α → ℕ}
    (hrank : ∀ i p, alive i → parent i = some p → rank p < rank i) {n : ℕ} {i j : α}
    (hi : alive i) (hc : climb parent n i = some j) : rank j + n ≤ rank i := by
  induction n generalizing i with
  | zero => simp [Option.some.inj hc]
  | succ n ih =>
    rw [climb] at hc
    obtain ⟨p, hp, hc⟩ := Option.bind_eq_some_iff.mp hc
    have := ih (h.parent_alive hi hp) hc
    have := hrank i p hi hp
    omega

theorem climb_ne_self (h : ParentTree alive parent root) {n : ℕ} {i : α} (hi : alive i)
    (hn : 0 < n) : climb parent n i ≠ some i := by
  intro hc
  obtain ⟨rank, hrank⟩ := h.ranked
  have := h.climb_rank hrank hi hc
  omega

theorem exists_climb_root (h : ParentTree alive parent root) {i : α} (hi : alive i) :
    ∃ n, climb parent n i = some root := by
  obtain ⟨rank, hrank⟩ := h.ranked
  induction hr : rank i using Nat.strong_induction_on generalizing i with
  | h r ih =>
    cases hp : parent i with
    | none => exact ⟨0, by rw [climb, h.root_unique hi hp]⟩
    | some p =>
      obtain ⟨n, hn⟩ := ih (rank p) (hr ▸ hrank i p hi hp) (h.parent_alive hi hp) rfl
      exact ⟨n + 1, by rw [climb, hp, Option.bind_some, hn]⟩

theorem climb_lt_card [Fintype α] (h : ParentTree alive parent root) {i j : α} {n : ℕ}
    (hi : alive i) (hn : climb parent n i = some j) : n < Fintype.card α := by
  obtain ⟨rank, hrank⟩ := h.ranked
  have hmid : ∀ k : Fin (n + 1), ∃ x, climb parent k i = some x := by
    intro k
    rw [show n = k + (n - k) by omega, climb_add] at hn
    obtain ⟨x, hx, -⟩ := Option.bind_eq_some_iff.mp hn
    exact ⟨x, hx⟩
  choose x hx using hmid
  have hlt : ∀ k m : Fin (n + 1), k < m → rank (x m) < rank (x k) := by
    intro k m hkm
    have hm := hx m
    rw [show (m : ℕ) = k + (m - k) by omega, climb_add, hx k, Option.bind_some] at hm
    have := h.climb_rank hrank (h.climb_alive hi (hx k)) hm
    omega
  have hinj : Function.Injective x := by
    intro k m hkm
    rcases lt_trichotomy k m with hlt' | rfl | hlt'
    · have := hlt k m hlt'; rw [hkm] at this; omega
    · rfl
    · have := hlt m k hlt'; rw [hkm] at this; omega
  have := Fintype.card_le_of_injective x hinj
  rw [Fintype.card_fin] at this
  omega

/-- Following parents from an alive node ends at the root in fewer steps than there are nodes. -/
theorem climb_root [Fintype α] (h : ParentTree alive parent root) {i : α} (hi : alive i) :
    ∃ n < Fintype.card α, climb parent n i = some root := by
  obtain ⟨n, hn⟩ := h.exists_climb_root hi
  exact ⟨n, h.climb_lt_card hi hn, hn⟩

theorem congr (h : ParentTree alive parent root) (halive : ∀ i, alive' i ↔ alive i)
    (hparent : ∀ i, parent' i = parent i) : ParentTree alive' parent' root := by
  rwa [show alive' = alive from funext fun i => propext (halive i),
    show parent' = parent from funext hparent]

theorem insert (h : ParentTree alive parent root) {i d : α} (hi : ¬ alive i) (hd : alive d)
    (halive : ∀ j, alive' j ↔ j = i ∨ alive j) (hnew : parent' i = some d)
    (hold : ∀ j, j ≠ i → parent' j = parent j) : ParentTree alive' parent' root := by
  classical
  have hne : ∀ {j}, alive j → j ≠ i := fun hj he => hi (he ▸ hj)
  obtain ⟨rank, hrank⟩ := h.ranked
  refine ⟨(halive _).mpr (.inr h.root_alive), ?_, ?_, ?_, ?_⟩
  · rw [hold root (hne h.root_alive), h.root_parent]
  · intro j hj hp
    rcases (halive j).mp hj with rfl | hj
    · rw [hnew] at hp; cases hp
    · exact h.root_unique hj (hold j (hne hj) ▸ hp)
  · intro j p hj hp
    rcases (halive j).mp hj with rfl | hj
    · rw [hnew] at hp
      exact (halive p).mpr (.inr (Option.some.inj hp ▸ hd))
    · exact (halive p).mpr (.inr (h.parent_alive hj (hold j (hne hj) ▸ hp)))
  -- no alive node points at the free slot, so any rank above the parent's will do for it
  · refine ⟨fun j => if j = i then rank d + 1 else rank j, fun j p hj hp => ?_⟩
    rcases (halive j).mp hj with rfl | hj
    · rw [hnew] at hp
      obtain rfl := Option.some.inj hp
      simp [hne hd]
    · rw [hold j (hne hj)] at hp
      simp only [if_neg (hne hj), if_neg (hne (h.parent_alive hj hp))]
      exact hrank j p hj hp

theorem remove (h : ParentTree alive parent root) {i : α} (hroot : i ≠ root)
    (hleaf : ∀ j, alive j → parent j ≠ some i) (halive : ∀ j, alive' j ↔ j ≠ i ∧ alive j)
    (hparent : ∀ j, parent' j = parent j) : ParentTree alive' parent' root := by
  obtain ⟨rank, hrank⟩ := h.ranked
  refine ⟨(halive _).mpr ⟨hroot.symm, h.root_alive⟩, by rw [hparent, h.root_parent], ?_, ?_,
    rank, ?_⟩
  · intro j hj hp
    exact h.root_unique ((halive j).mp hj).2 (hparent j ▸ hp)
  · intro j p hj hp
    rw [hparent] at hp
    have hj := ((halive j).mp hj).2
    exact (halive p).mpr ⟨fun he => hleaf j hj (he ▸ hp), h.parent_alive hj hp⟩
  · intro j p hj hp
    exact hrank j p ((halive j).mp hj).2 (hparent j ▸ hp)

/-! ## Paths of labels -/

theorem pathTo_alive (h : ParentTree alive parent root) {p : List L} {i : α}
    (hp : PathTo alive parent label root p i) : alive i := by
  cases hp with
  | root => exact h.root_alive
  | child _ hi _ => exact hi

theorem pathTo_nil {i : α} : PathTo alive parent label root [] i ↔ i = root := by
  constructor
  · intro hp; cases hp; rfl
  · rintro rfl; exact .root

theorem pathTo_cons {n : L} {p : List L} {i : α} :
    PathTo alive parent label root (n :: p) i ↔
      label i = n ∧ alive i ∧ ∃ d, parent i = some d ∧ PathTo alive parent label root p d := by
  constructor
  · intro hp
    cases hp with
    | child hd hi hpar => exact ⟨rfl, hi, _, hpar, hd⟩
  · rintro ⟨rfl, hi, d, hpar, hd⟩
    exact .child hd hi hpar

theorem exists_pathTo (h : ParentTree alive parent root) (label : α → L) {i : α} (hi : alive i) :
    ∃ p, PathTo alive parent label root p i := by
  obtain ⟨n, hn⟩ := h.exists_climb_root hi
  induction n generalizing i with
  | zero => exact ⟨[], Option.some.inj hn ▸ .root⟩
  | succ n ih =>
    rw [climb] at hn
    obtain ⟨d, hd, hn⟩ := Option.bind_eq_some_iff.mp hn
    obtain ⟨p, hp⟩ := ih (h.parent_alive hi hd) hn
    exact ⟨label i :: p, .child hp hi hd⟩

theorem pathTo_unique (h : ParentTree alive parent root) {p q : List L} {i : α}
    (hp : PathTo alive parent label root p i) (hq : PathTo alive parent label root q i) :
    p = q := by
  induction hp generalizing q with
  | root =>
    cases hq with
    | root => rfl
    | child _ _ hpar => rw [h.root_parent] at hpar; cases hpar
  | child _ _ hpar ih =>
    cases hq with
    | root => rw [h.root_parent] at hpar; cases hpar
    | child hd _ hpar' =>
      rw [hpar] at hpar'
      obtain rfl := Option.some.inj hpar'
      rw [ih hd]

theorem pathTo_functional
    (hsib : ∀ i j, alive i → alive j → parent i = parent j → label i = label j → i = j)
    {p : List L} {i j : α} (hi : PathTo alive parent label root p i)
    (hj : PathTo alive parent label root p j) : i = j := by
  induction p generalizing i j with
  | nil => rw [pathTo_nil.mp hi, pathTo_nil.mp hj]
  | cons n p ih =>
    obtain ⟨hli, hai, d, hdi, hpi⟩ := pathTo_cons.mp hi
    obtain ⟨hlj, haj, e, hej, hpj⟩ := pathTo_cons.mp hj
    obtain rfl := ih hpi hpj
    exact hsib i j hai haj (hdi.trans hej.symm) (hli.trans hlj.symm)

theorem pathTo_climb {p : List L} {i : α} (hp : PathTo alive parent label root p i) :
    climb parent p.length i = some root := by
  induction hp with
  | root => rfl
  | child _ _ hpar ih => rw [List.length_cons, climb, hpar, Option.bind_some, ih]

theorem pathTo_length_lt [Fintype α] (h : ParentTree alive parent root) {p : List L} {i : α}
    (hp : PathTo alive parent label root p i) : p.length < Fintype.card α :=
  h.climb_lt_card (h.pathTo_alive hp) (pathTo_climb hp)

/-- Inserting a leaf adds its own path and no other. -/
theorem pathTo_insert_iff (h : ParentTree alive parent root) {i d : α} (hi : ¬ alive i)
    {q : List L} (hq : PathTo alive parent label root q d)
    (halive : ∀ j, alive' j ↔ j = i ∨ alive j) (hnew : parent' i = some d)
    (hold : ∀ j, j ≠ i → parent' j = parent j) (hlabel : ∀ j, j ≠ i → label' j = label j)
    {p : List L} {j : α} :
    PathTo alive' parent' label' root p j ↔
      (p = label' i :: q ∧ j = i) ∨ PathTo alive parent label root p j := by
  have hne : ∀ {j}, alive j → j ≠ i := fun hj he => hi (he ▸ hj)
  have hkeep : ∀ {p j}, PathTo alive parent label root p j →
      -- no path goes through the new leaf, so the old ones stay as they are
      PathTo alive' parent' label' root p j := by
    intro p j hp
    induction hp with
    | root => exact .root
    | @child p e j _ hj hpar ih =>
      rw [← hlabel j (hne hj)]
      exact .child ih ((halive j).mpr (.inr hj)) (hold j (hne hj) ▸ hpar)
  constructor
  · intro hp
    induction hp with
    | root => exact .inr .root
    | @child p e j _ hj hpar ih =>
      rcases (halive j).mp hj with rfl | hj
      -- the last step goes to the leaf itself, or to a child that was there before
      · rw [hnew] at hpar
        obtain rfl := Option.some.inj hpar
        rcases ih with ⟨-, rfl⟩ | ih
        · exact absurd (h.pathTo_alive hq) hi
        · exact .inl ⟨by rw [h.pathTo_unique ih hq], rfl⟩
      · rw [hold j (hne hj)] at hpar
        rcases ih with ⟨-, rfl⟩ | ih
        · exact absurd (h.parent_alive hj hpar) hi
        · rw [hlabel j (hne hj)]
          exact .inr (.child ih hj hpar)
  · rintro (⟨rfl, rfl⟩ | hp)
    · exact .child (hkeep hq) ((halive j).mpr (.inl rfl)) hnew
    · exact hkeep hp

/-- Removing a leaf removes its own path and no other. -/
theorem pathTo_remove_iff {i : α} (hroot : i ≠ root)
    (hleaf : ∀ j, alive j → parent j ≠ some i) (halive : ∀ j, alive' j ↔ j ≠ i ∧ alive j)
    (hparent : ∀ j, parent' j = parent j) (hlabel : ∀ j, label' j = label j)
    {p : List L} {j : α} :
    PathTo alive' parent' label' root p j ↔ j ≠ i ∧ PathTo alive parent label root p j := by
  constructor
  · intro hp
    induction hp with
    | root => exact ⟨hroot.symm, .root⟩
    | @child p d j _ hj hpar ih =>
      obtain ⟨hji, hj⟩ := (halive j).mp hj
      rw [hlabel]
      exact ⟨hji, .child ih.2 hj (hparent j ▸ hpar)⟩
  · rintro ⟨hji, hp⟩
    induction hp with
    | root => exact .root
    | @child p d j hd hj hpar ih =>
      rw [← hlabel]
      have hdi : d ≠ i := fun he => hleaf j hj (he ▸ hpar)
      exact .child (ih hdi) ((halive j).mpr ⟨hji, hj⟩) (hparent j ▸ hpar)

end ParentTree
