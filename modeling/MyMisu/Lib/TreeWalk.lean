import MyMisu.Lib.ParentTree

/-!
# Walking a parent-pointer tree in preorder

The lines of a depth-first walk below a node, each a node with its depth.  The walk goes a given
number of levels down.  Every node below appears once, and the line of a node stands in the block of
its parent: between the two all lines are deeper than the parent.
-/

namespace ParentTree

variable {α : Type*} {alive : α → Prop} {parent : α → Option α} {root : α}

/-- The lines below `d`, where the children of `d` have depth `depth`. -/
def preorder (children : α → List α) : ℕ → ℕ → α → List (ℕ × α)
  | 0, _, _ => []
  | levels + 1, depth, d =>
    (children d).flatMap fun i => (depth, i) :: preorder children levels (depth + 1) i

/-- `children` enumerates the children of a node. -/
structure ChildLists (alive : α → Prop) (parent : α → Option α) (children : α → List α) : Prop where
  mem : ∀ i d, i ∈ children d ↔ alive i ∧ parent i = some d
  nodup : ∀ d, (children d).Nodup

variable {children : α → List α}

theorem preorder_leaf {levels depth : ℕ} {d : α} (hleaf : children d = []) :
    preorder children levels depth d = [] := by
  cases levels with
  | zero => rfl
  | succ levels => rw [preorder, hleaf, List.flatMap_nil]

theorem climb_succ_eq_some {n : ℕ} {i d : α} :
    climb parent (n + 1) i = some d ↔ ∃ c, climb parent n i = some c ∧ parent c = some d := by
  rw [climb_add n 1, Option.bind_eq_some_iff]
  have hone : ∀ c, climb parent 1 c = parent c := fun c => by
    rw [climb]
    cases parent c <;> rfl
  simp only [hone]

/-- The nodes of the walk are those whose way up leads to `d` within its levels. -/
theorem mem_preorder (h : ParentTree alive parent root) (hc : ChildLists alive parent children)
    {levels depth n : ℕ} {d i : α} :
    (n, i) ∈ preorder children levels depth d ↔
      ∃ k < levels, n = depth + k ∧ alive i ∧ climb parent (k + 1) i = some d := by
  induction levels generalizing depth d with
  | zero =>
    rw [preorder]
    exact iff_of_false List.not_mem_nil fun ⟨k, hk, _⟩ => absurd hk (Nat.not_lt_zero k)
  | succ levels ih =>
    rw [preorder, List.mem_flatMap]
    constructor
    · rintro ⟨c, hcd, hline⟩
      have ⟨hu, hp⟩ := (hc.mem c d).mp hcd
      rcases List.mem_cons.mp hline with heq | hbelow
      · obtain ⟨rfl, rfl⟩ := Prod.mk.inj heq
        exact ⟨0, Nat.succ_pos _, rfl, hu, climb_succ_eq_some.mpr ⟨i, rfl, hp⟩⟩
      · obtain ⟨k, hk, hn, hi, hclimb⟩ := ih.mp hbelow
        exact ⟨k + 1, by omega, by omega, hi, climb_succ_eq_some.mpr ⟨c, hclimb, hp⟩⟩
    · rintro ⟨k, hk, hn, hi, hclimb⟩
      -- the last step up comes from a child of `d`
      obtain ⟨c, hupto, hp⟩ := climb_succ_eq_some.mp hclimb
      refine ⟨c, (hc.mem c d).mpr ⟨h.climb_alive hi hupto, hp⟩, ?_⟩
      cases k with
      | zero =>
        obtain rfl := Option.some.inj hupto
        rw [hn]
        exact List.mem_cons_self
      | succ k => exact List.mem_cons_of_mem _ (ih.mpr ⟨k, by omega, by omega, hi, hupto⟩)

/-- Different numbers of steps up lead to different nodes. -/
theorem climb_inj (h : ParentTree alive parent root) {i d : α} (hi : alive i) {m n : ℕ}
    (hm : climb parent m i = some d) (hn : climb parent n i = some d) : m = n := by
  have hle : ∀ {m n : ℕ}, climb parent m i = some d → climb parent n i = some d → n ≤ m := by
    intro m n hm hn
    by_contra hlt
    have hsum : m + (n - m) = n := by omega
    rw [← hsum, climb_add, hm] at hn
    exact h.climb_ne_self (h.climb_alive hi hm) (by omega) hn
  exact le_antisymm (hle hn hm) (hle hm hn)

theorem nodup_preorder (h : ParentTree alive parent root) (hc : ChildLists alive parent children)
    (levels depth : ℕ) (d : α) : ((preorder children levels depth d).map Prod.snd).Nodup := by
  induction levels generalizing depth d with
  | zero => exact List.nodup_nil
  | succ levels ih =>
    rw [preorder, List.map_flatMap, List.nodup_flatMap]
    have hbelow : ∀ c i, i ∈ (preorder children levels (depth + 1) c).map Prod.snd →
        ∃ k, alive i ∧ climb parent (k + 1) i = some c := by
      intro c i hi
      obtain ⟨⟨n, j⟩, hj, rfl⟩ := List.mem_map.mp hi
      obtain ⟨k, -, -, hu, hclimb⟩ := (h.mem_preorder hc).mp hj
      exact ⟨k, hu, hclimb⟩
    refine ⟨fun c hcd => ?_, (hc.nodup d).imp_of_mem ?_⟩
    · rw [List.map_cons, List.nodup_cons]
      refine ⟨fun hself => ?_, ih (depth + 1) c⟩
      obtain ⟨k, hu, hclimb⟩ := hbelow c c hself
      exact h.climb_ne_self hu (Nat.succ_pos k) hclimb
    · intro a b had hbd hab i hia hib
      have hpa := ((hc.mem a d).mp had).2
      have hpb := ((hc.mem b d).mp hbd).2
      have hup : ∀ c, i ∈ ((depth, c) :: preorder children levels (depth + 1) c).map Prod.snd →
          c ∈ children d → ∃ k, alive i ∧ climb parent k i = some c := by
        intro c hi hcd
        rw [List.map_cons] at hi
        rcases List.mem_cons.mp hi with rfl | hi
        · exact ⟨0, ((hc.mem _ d).mp hcd).1, rfl⟩
        · obtain ⟨k, hu, hclimb⟩ := hbelow c i hi
          exact ⟨k + 1, hu, hclimb⟩
      obtain ⟨m, hu, hma⟩ := hup a hia had
      obtain ⟨n, -, hnb⟩ := hup b hib hbd
      -- both ways up reach `d` after the same number of steps, so they pass the same child of it
      have hmn := h.climb_inj hu (climb_succ_eq_some.mpr ⟨a, hma, hpa⟩)
        (climb_succ_eq_some.mpr ⟨b, hnb, hpb⟩)
      rw [Nat.succ.inj hmn, hnb] at hma
      exact hab (Option.some.inj hma).symm

/-! ## Blocks -/

/-- Each line of a child of `top` has depth `depth`; every other line follows the line of its
parent, one level up, with only deeper lines in between. -/
def InBlocks (parent : α → Option α) (top : α) (depth : ℕ) (lines : List (ℕ × α)) : Prop :=
  ∀ before n i after, lines = before ++ (n, i) :: after → ∃ p, parent i = some p ∧
    (p = top ∧ n = depth ∨
      ∃ m start between, before = start ++ (m, p) :: between ∧ n = m + 1 ∧ ∀ x ∈ between, n ≤ x.1)

theorem InBlocks.nil {top : α} {depth : ℕ} : InBlocks parent top depth [] := by
  intro before n i after heq
  cases before <;> cases heq

theorem InBlocks.append {top : α} {depth : ℕ} {xs ys : List (ℕ × α)}
    (hx : InBlocks parent top depth xs) (hy : InBlocks parent top depth ys) :
    InBlocks parent top depth (xs ++ ys) := by
  intro before n i after heq
  rcases List.append_eq_append_iff.mp heq with ⟨mid, hbefore, hys⟩ | ⟨mid, hxs, hafter⟩
  · obtain ⟨p, hp, hplace⟩ := hy mid n i after hys
    refine ⟨p, hp, hplace.imp_right ?_⟩
    rintro ⟨m, start, between, hmid, hn, hdeep⟩
    exact ⟨m, xs ++ start, between, by rw [hbefore, hmid, List.append_assoc], hn, hdeep⟩
  · cases mid with
    | nil =>
      -- the first line of `ys` has nothing before it there, so its parent is `top`
      rw [List.nil_append] at hafter
      rw [List.append_nil] at hxs
      obtain ⟨p, hp, hplace⟩ := hy [] n i after hafter.symm
      refine ⟨p, hp, hplace.imp_right ?_⟩
      rintro ⟨m, start, between, hmid, -, -⟩
      cases start <;> cases hmid
    | cons x mid =>
      obtain ⟨rfl, -⟩ := List.cons.inj hafter
      exact hx before n i mid hxs

/-- The block of a child of `top`: its line and the walk below it. -/
theorem InBlocks.cons {top c : α} {depth : ℕ} {lines : List (ℕ × α)} (hc : parent c = some top)
    (hbelow : InBlocks parent c (depth + 1) lines) (hdeep : ∀ x ∈ lines, depth + 1 ≤ x.1) :
    InBlocks parent top depth ((depth, c) :: lines) := by
  intro before n i after heq
  cases before with
  | nil =>
    obtain ⟨hline, -⟩ := List.cons.inj heq
    obtain ⟨rfl, rfl⟩ := Prod.mk.inj hline
    exact ⟨top, hc, .inl ⟨rfl, rfl⟩⟩
  | cons x before =>
    obtain ⟨rfl, hlines⟩ := List.cons.inj heq
    obtain ⟨p, hp, hplace⟩ := hbelow before n i after hlines
    refine ⟨p, hp, .inr ?_⟩
    rcases hplace with ⟨rfl, hn⟩ | ⟨m, start, between, hbefore, hn, hbetween⟩
    · refine ⟨depth, [], before, rfl, hn, fun y hy => ?_⟩
      rw [hn]
      exact hdeep y (by rw [hlines]; exact List.mem_append_left _ hy)
    · exact ⟨m, (depth, c) :: start, between, by rw [hbefore, List.cons_append], hn, hbetween⟩

theorem inBlocks_preorder (h : ParentTree alive parent root) (hc : ChildLists alive parent children)
    (levels depth : ℕ) (d : α) : InBlocks parent d depth (preorder children levels depth d) := by
  induction levels generalizing depth d with
  | zero => exact .nil
  | succ levels ih =>
    have hall : ∀ l : List α, (∀ c ∈ l, c ∈ children d) → InBlocks parent d depth
        (l.flatMap fun i => (depth, i) :: preorder children levels (depth + 1) i) := by
      intro l hl
      induction l with
      | nil => exact .nil
      | cons c l ihl =>
        rw [List.flatMap_cons]
        have hp := ((hc.mem c d).mp (hl c List.mem_cons_self)).2
        refine .append (.cons hp (ih (depth + 1) c) ?_)
          (ihl fun b hb => hl b (List.mem_cons_of_mem _ hb))
        rintro ⟨n, i⟩ hline
        obtain ⟨k, -, rfl, -⟩ := (h.mem_preorder hc).mp hline
        show depth + 1 ≤ depth + 1 + k
        omega
    exact hall _ fun c hcd => hcd

end ParentTree
