import Mathlib.Data.Set.Card
import Mathlib.Tactic

/-!
# Trees of directories and files

A finite tree of named directories and files with a working directory.  A path is the list of the
names on it, innermost first, so the directory of `n :: p` is `p`.  The structure carries what makes
it a tree, and its operations keep that: names are added, rewritten and erased in the working
directory, and the working directory moves to a directory.
-/

variable {L B : Type*}

inductive Entry (B : Type*)
  | dir
  | file (content : B)

namespace Entry

/-- The entry with other contents, for a file. -/
def write (b : B) : Entry B → Entry B
  | dir => dir
  | file _ => file b

@[simp] theorem write_eq_dir {b : B} {e : Entry B} : e.write b = dir ↔ e = dir := by
  cases e <;> simp [write]

end Entry

@[ext] structure DirTree (L B : Type*) where
  entry : List L → Option (Entry B)
  cwd : List L
  root : entry [] = some .dir
  parents : ∀ n p, entry (n :: p) ≠ none → entry p = some .dir
  cwdDir : entry cwd = some .dir
  finite : {p | entry p ≠ none}.Finite

namespace DirTree

theorem cons_ne_self (n : L) (p : List L) : n :: p ≠ p := by
  intro h
  have := congrArg List.length h
  simp at this

/-- What a name in the working directory stands for. -/
def lookup (t : DirTree L B) (n : L) : Option (Entry B) := t.entry (n :: t.cwd)

/-- Nothing is below the name. -/
def Leaf (t : DirTree L B) (n : L) : Prop := ∀ m, t.entry (m :: n :: t.cwd) = none

/-- The number of nodes besides the root. -/
noncomputable def count (t : DirTree L B) : ℕ := {p | p ≠ [] ∧ t.entry p ≠ none}.ncard

theorem leaf_of_not_dir {t : DirTree L B} {n : L} (h : t.lookup n ≠ some .dir) : t.Leaf n := by
  intro m
  by_contra hm
  exact h (t.parents m _ hm)

variable [DecidableEq L]

/-- A new name in the working directory. -/
def insert (t : DirTree L B) (n : L) (e : Entry B) (hnew : t.lookup n = none) : DirTree L B where
  entry := Function.update t.entry (n :: t.cwd) (some e)
  cwd := t.cwd
  root := by rw [Function.update_of_ne (List.cons_ne_nil n t.cwd).symm, t.root]
  parents := by
    intro m p hm
    by_cases hp : m :: p = n :: t.cwd
    · rw [(List.cons.inj hp).2, Function.update_of_ne (cons_ne_self n t.cwd).symm, t.cwdDir]
    · rw [Function.update_of_ne hp] at hm
      have hdir := t.parents m p hm
      -- the new path led nowhere, so it is not `p`
      have hne : p ≠ n :: t.cwd := by
        intro he
        rw [he, show t.entry (n :: t.cwd) = none from hnew] at hdir
        cases hdir
      rw [Function.update_of_ne hne, hdir]
  cwdDir := by rw [Function.update_of_ne (cons_ne_self n t.cwd).symm, t.cwdDir]
  finite := by
    apply (t.finite.insert (n :: t.cwd)).subset
    intro p hp
    by_cases hpn : p = n :: t.cwd
    · exact Or.inl hpn
    · rw [Set.mem_ofPred_eq, Function.update_of_ne hpn] at hp
      exact Or.inr hp

/-- The file of that name gets other contents; a directory stays one. -/
def rewrite (t : DirTree L B) (n : L) (b : B) : DirTree L B where
  entry p := if p = n :: t.cwd then (t.entry p).map (Entry.write b) else t.entry p
  cwd := t.cwd
  root := by rw [if_neg (List.cons_ne_nil n t.cwd).symm, t.root]
  parents := by
    intro m p hm
    have hm' : t.entry (m :: p) ≠ none := by
      split at hm
      · simpa using hm
      · exact hm
    rw [t.parents m p hm']
    split <;> rfl
  cwdDir := by rw [if_neg (cons_ne_self n t.cwd).symm, t.cwdDir]
  finite := by
    apply t.finite.subset
    intro p hp
    rw [Set.mem_ofPred_eq] at hp ⊢
    split at hp
    · simpa using hp
    · exact hp

/-- The file a path leads to gets other contents, wherever the working directory is. -/
def rewriteAt (t : DirTree L B) (p : List L) (b : B) : DirTree L B where
  entry q := if q = p then (t.entry q).map (Entry.write b) else t.entry q
  cwd := t.cwd
  root := by rw [t.root]; split <;> rfl
  parents := by
    intro m q hm
    have hm' : t.entry (m :: q) ≠ none := by
      split at hm
      · simpa using hm
      · exact hm
    rw [t.parents m q hm']
    split <;> rfl
  cwdDir := by rw [t.cwdDir]; split <;> rfl
  finite := by
    apply t.finite.subset
    intro q hq
    rw [Set.mem_ofPred_eq] at hq ⊢
    split at hq
    · simpa using hq
    · exact hq

/-- A name with nothing below it goes away. -/
def erase (t : DirTree L B) (n : L) (hleaf : t.Leaf n) : DirTree L B where
  entry := Function.update t.entry (n :: t.cwd) none
  cwd := t.cwd
  root := by rw [Function.update_of_ne (List.cons_ne_nil n t.cwd).symm, t.root]
  parents := by
    intro m p hm
    have hmp : m :: p ≠ n :: t.cwd := by
      intro he
      rw [he, Function.update_self] at hm
      exact hm rfl
    rw [Function.update_of_ne hmp] at hm
    have hp : p ≠ n :: t.cwd := by
      intro he
      rw [he] at hm
      exact hm (hleaf m)
    rw [Function.update_of_ne hp, t.parents m p hm]
  cwdDir := by rw [Function.update_of_ne (cons_ne_self n t.cwd).symm, t.cwdDir]
  finite := by
    apply t.finite.subset
    intro p hp
    by_cases hpn : p = n :: t.cwd
    · rw [Set.mem_ofPred_eq, hpn, Function.update_self] at hp
      exact absurd rfl hp
    · rwa [Set.mem_ofPred_eq, Function.update_of_ne hpn] at hp

omit [DecidableEq L] in
theorem tail_dir (t : DirTree L B) {p : List L} (h : t.entry p = some .dir) :
    t.entry p.tail = some .dir := by
  cases p with
  | nil => exact h
  | cons n p => exact t.parents n p (by rw [h]; exact Option.some_ne_none _)

def chdir (t : DirTree L B) (p : List L) (h : t.entry p = some .dir) : DirTree L B :=
  { t with cwd := p, cwdDir := h }

/-- The directory above the working directory; the root is above itself. -/
def up (t : DirTree L B) : DirTree L B := t.chdir t.cwd.tail (t.tail_dir t.cwdDir)

def home (t : DirTree L B) : DirTree L B := t.chdir [] t.root

end DirTree
