import Mathlib.Tactic

/-!
# Transducers

A machine that reads symbols one by one, changes its mode and may emit a symbol for each.  A code
gives every symbol a word; when the word of each symbol brings the machine back to its mode and
emits that symbol, what it emits for a coded text is the text.
-/

namespace Transducer

variable {μ α β : Type*}

/-- The mode behind a word. -/
def after (step : μ → α → μ × Option β) (m : μ) (word : List α) : μ :=
  word.foldl (fun m a => (step m a).1) m

/-- What is emitted for a word. -/
def output (step : μ → α → μ × Option β) : μ → List α → List β
  | _, [] => []
  | m, a :: word => (step m a).2.toList ++ output step (step m a).1 word

variable (step : μ → α → μ × Option β) (m : μ)

theorem after_append (v w : List α) : after step m (v ++ w) = after step (after step m v) w :=
  List.foldl_append

theorem output_append (v w : List α) :
    output step m (v ++ w) = output step m v ++ output step (after step m v) w := by
  induction v generalizing m with
  | nil => rfl
  | cons a v ih =>
    rw [List.cons_append, output, ih, output, List.append_assoc]
    rfl

theorem output_prefix {v w : List α} (h : v <+: w) : output step m v <+: output step m w := by
  obtain ⟨more, rfl⟩ := h
  rw [output_append]
  exact List.prefix_append _ _

theorem output_singleton (a : α) : output step m [a] = (step m a).2.toList := List.append_nil _

/-- A coded text is read back. -/
theorem output_code {code : β → List α} {text : List β}
    (hcode : ∀ b ∈ text, after step m (code b) = m ∧ output step m (code b) = [b]) :
    output step m (text.flatMap code) = text := by
  induction text with
  | nil => rfl
  | cons b text ih =>
    have ⟨hmode, hout⟩ := hcode b List.mem_cons_self
    rw [List.flatMap_cons, output_append, hmode, hout,
      ih fun b' hb' => hcode b' (List.mem_cons_of_mem b hb')]
    rfl

end Transducer
