import MyMisu.CString

/-!
# Arrays of characters

A local or static array is the list of its bytes, and a store behind its end stops the program, since
nothing is known of the state after it.
-/

namespace MyMisu

/-- Why a function does not return. -/
inductive Stuck
  /-- A load or a store outside an array. -/
  | overrun
  /-- No key to read. -/
  | waiting
  /-- More nested calls than there is room for. -/
  | nesting
  deriving DecidableEq

/-- `char a[size]`. -/
structure CharArray (size : ℕ) where
  bytes : List UInt8
  length_eq : bytes.length = size

namespace CharArray

variable {size : ℕ}

def set (a : CharArray size) (i : ℕ) (c : UInt8) : CharArray size :=
  ⟨a.bytes.set i c, List.length_set.trans a.length_eq⟩

/-- `a[i] = c`. -/
def store (a : CharArray size) (i : ℕ) (c : UInt8) : Except Stuck (CharArray size) :=
  if i < size then .ok (a.set i c) else .error .overrun

/-- Stores from `a[i]` on. -/
def storeAll (a : CharArray size) : ℕ → List UInt8 → Except Stuck (CharArray size)
  | _, [] => .ok a
  | i, c :: cs => do storeAll (← a.store i c) (i + 1) cs

/-- The string in the array. -/
def str (a : CharArray size) : CStr := .ofBuffer a.bytes

/-- The string in the array, which has to end there. -/
def load (a : CharArray size) : Except Stuck CStr := if 0 ∈ a.bytes then .ok a.str else .error .overrun

/-- The string in the array ends there, and is the text. -/
def HasText (a : CharArray size) (text : List UInt8) : Prop := 0 ∈ a.bytes ∧ a.str.bytes = text

/-- `strcpy(a, src)` -/
def strcpy (a : CharArray size) (src : CStr) : Except Stuck (CharArray size) :=
  a.storeAll 0 (src.bytes ++ [0])

end CharArray

def strcat {size : ℕ} (dest : CharArray size) (src : CStr) : Except Stuck (CharArray size) :=
  dest.storeAll (strlen dest.bytes) (src.bytes ++ [0])

variable {size : ℕ}

/-- A loop none of whose rounds stops. -/
theorem mapM_ok {α β ε : Type} {f : α → Except ε β} {g : α → β} {l : List α}
    (h : ∀ a ∈ l, f a = .ok (g a)) : l.mapM f = .ok (l.map g) := by
  induction l with
  | nil => rfl
  | cons a l ih =>
    rw [List.mapM_cons, h a List.mem_cons_self, ih fun b hb => h b (List.mem_cons_of_mem _ hb)]
    rfl

/-! ## Storing in an array -/

theorem CharArray.take_set (a : CharArray size) {i : ℕ} (hi : i < size) (c : UInt8) :
    (a.set i c).bytes.take (i + 1) = a.bytes.take i ++ [c] := by
  have hlen := a.length_eq
  have htake : (a.bytes.take i).length = i := by
    rw [List.length_take]
    omega
  show (a.bytes.set i c).take (i + 1) = _
  rw [List.take_set, List.take_add_one, List.getElem?_eq_getElem (by omega), Option.toList_some,
    List.set_append_right _ _ htake.le, htake, Nat.sub_self, List.set_cons_zero]

theorem CharArray.store_ok (a : CharArray size) {i : ℕ} (hi : i < size) (c : UInt8) :
    a.store i c = .ok (a.set i c) := if_pos hi

/-- The string that ends where a NUL is stored. -/
theorem CharArray.str_set (a : CharArray size) {i : ℕ} (hi : i < size) {cs : List UInt8}
    (htake : a.bytes.take i = cs) (hnoNul : ∀ c ∈ cs, c ≠ 0) : (a.set i 0).str.bytes = cs := by
  have hsplit : (a.set i 0).bytes = cs ++ 0 :: (a.set i 0).bytes.drop (i + 1) := by
    have happend := (List.take_append_drop (i + 1) (a.set i 0).bytes).symm
    rwa [a.take_set hi, htake, List.append_assoc, List.singleton_append] at happend
  show cString (a.set i 0).bytes = cs
  rw [hsplit]
  exact cString_append_nul hnoNul _

theorem CharArray.storeAll_ok (a : CharArray size) {i : ℕ} {cs : List UInt8}
    (hroom : i + cs.length ≤ size) :
    ∃ b, a.storeAll i cs = .ok b ∧ b.bytes = a.bytes.take i ++ cs ++ a.bytes.drop (i + cs.length) := by
  induction cs generalizing a i with
  | nil => exact ⟨a, rfl, by simp⟩
  | cons c cs ih =>
    rw [List.length_cons] at hroom
    obtain ⟨b, hrun, hb⟩ := ih (a.set i c) (show i + 1 + cs.length ≤ size by omega)
    refine ⟨b, ?_, ?_⟩
    · unfold CharArray.storeAll CharArray.store
      rw [if_pos (by omega)]
      exact hrun
    · have hdrop : (a.set i c).bytes.drop (i + 1 + cs.length) = a.bytes.drop (i + (cs.length + 1)) := by
        show (a.bytes.set i c).drop _ = _
        rw [List.drop_set_of_lt (by omega), show i + 1 + cs.length = i + (cs.length + 1) by omega]
      rw [hb, a.take_set (by omega), hdrop, List.length_cons, List.append_assoc (a.bytes.take i),
        List.singleton_append]

theorem CharArray.storeAll_overrun (a : CharArray size) {i : ℕ} {cs : List UInt8}
    (hover : size < i + cs.length) (hi : i ≤ size) : a.storeAll i cs = .error .overrun := by
  induction cs generalizing a i with
  | nil =>
    rw [List.length_nil] at hover
    omega
  | cons c cs ih =>
    rw [List.length_cons] at hover
    unfold CharArray.storeAll CharArray.store
    by_cases hlt : i < size
    · rw [if_pos hlt]
      exact ih (a.set i c) (by omega) (by omega)
    · rw [if_neg hlt]
      rfl

/-- A string that is shorter than the array ends there. -/
theorem CharArray.hasText_of_length_lt {a : CharArray size} {text : List UInt8} (h : a.str.bytes = text)
    (hlt : text.length < size) : a.HasText text := by
  refine ⟨?_, h⟩
  by_contra hend
  have hall : cString a.bytes = a.bytes := cString_of_noNul fun b hb heq => hend (heq ▸ hb)
  have hlen := a.length_eq
  rw [← hall, show cString a.bytes = text from h] at hlen
  omega

theorem CharArray.HasText.load {a : CharArray size} {text : List UInt8} (h : a.HasText text) :
    ∃ cmd, a.load = .ok cmd ∧ cmd.bytes = text := ⟨a.str, if_pos h.1, h.2⟩

theorem CharArray.HasText.length_lt {a : CharArray size} {text : List UInt8} (h : a.HasText text) :
    text.length < size := by
  obtain ⟨hend, rfl⟩ := h
  have hlen := a.length_eq
  have hsub := List.takeWhile_sublist (fun b : UInt8 => decide (b ≠ 0)) (l := a.bytes)
  refine (hsub.length_le.trans hlen.le).lt_of_ne fun heq => ?_
  -- else no byte of the array would end the string
  have hall := hsub.eq_of_length (heq.trans hlen.symm)
  have := List.takeWhile_eq_self_iff.mp hall 0 hend
  simp at this

theorem CharArray.strcpy_ok (a : CharArray size) (src : CStr) (hroom : src.bytes.length < size) :
    ∃ b, a.strcpy src = .ok b ∧ b.HasText src.bytes ∧ b.bytes.take src.bytes.length = src.bytes := by
  obtain ⟨b, hrun, hb⟩ := a.storeAll_ok (show 0 + (src.bytes ++ [0]).length ≤ size by
    rw [List.length_append, List.length_singleton]
    omega)
  rw [List.take_zero, List.nil_append, List.append_assoc] at hb
  refine ⟨b, hrun, ⟨?_, ?_⟩, ?_⟩
  · rw [hb]
    simp
  · show cString b.bytes = _
    rw [hb]
    exact cString_append_nul src.noNul _
  · rw [hb, List.take_left]

theorem strcat_ok (dest : CharArray size) (src : CStr)
    (hroom : dest.str.bytes.length + src.bytes.length < size) :
    ∃ b, strcat dest src = .ok b ∧ b.str.bytes = dest.str.bytes ++ src.bytes := by
  have hstrlen : strlen dest.bytes = dest.str.bytes.length := strlen_eq _
  obtain ⟨b, hrun, hb⟩ := dest.storeAll_ok (show strlen dest.bytes + (src.bytes ++ [0]).length ≤ size by
    rw [hstrlen, List.length_append, List.length_singleton]
    omega)
  refine ⟨b, hrun, ?_⟩
  have hprefix : dest.bytes.take (strlen dest.bytes) = dest.str.bytes := take_strlen _
  have hnoNul : ∀ c ∈ dest.str.bytes ++ src.bytes, c ≠ 0 := by
    intro c hc
    rcases List.mem_append.mp hc with hc | hc
    · exact dest.str.noNul c hc
    · exact src.noNul c hc
  show cString b.bytes = _
  rw [hb, hprefix, ← List.append_assoc, List.append_assoc, List.singleton_append]
  exact cString_append_nul hnoNul _

/-- The terminator, at the latest, is stored behind the end. -/
theorem strcat_overrun (dest : CharArray size) (src : CStr)
    (hover : size ≤ dest.str.bytes.length + src.bytes.length) :
    strcat dest src = .error .overrun := by
  have hstrlen : strlen dest.bytes = dest.str.bytes.length := strlen_eq _
  have hle : dest.str.bytes.length ≤ size := by
    have := (List.takeWhile_sublist (fun b : UInt8 => decide (b ≠ 0)) (l := dest.bytes)).length_le
    rw [dest.length_eq] at this
    exact this
  -- the text itself may still fit
  unfold strcat
  refine dest.storeAll_overrun ?_ (by omega)
  rw [hstrlen, List.length_append, List.length_singleton]
  omega

end MyMisu
