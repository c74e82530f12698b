import Mathlib.Data.List.TakeWhile
import Mathlib.Tactic

/-!
# C strings

The functions of `string.c` on buffers.  A buffer is the list of bytes from a pointer on; reading
past its end gives a NUL, which happens only for buffers that are not terminated, and the
invariants of the callers exclude those.  A `CStr` is what a `const char*` argument denotes: the
bytes before the terminator.
-/

namespace MyMisu

structure CStr where
  bytes : List UInt8
  noNul : ∀ b ∈ bytes, b ≠ 0
  deriving DecidableEq

/-- The string that a terminated buffer holds. -/
def cString (buf : List UInt8) : List UInt8 := buf.takeWhile (· ≠ 0)

theorem cString_ne_zero (buf : List UInt8) : ∀ b ∈ cString buf, b ≠ 0 := by
  intro b hb
  simpa using List.mem_takeWhile_imp hb

def CStr.ofBuffer (buf : List UInt8) : CStr := ⟨cString buf, cString_ne_zero buf⟩

/-- A string literal of the source. -/
def CStr.ofString (s : String) : CStr := .ofBuffer (s.toList.map fun c => c.toNat.toUInt8)

theorem CStr.ext_bytes {a b : CStr} (h : a.bytes = b.bytes) : a = b := by
  cases a; cases b; simpa using h

def strlen : List UInt8 → ℕ
  | [] => 0
  | c :: s => if c = 0 then 0 else strlen s + 1

def strcmp : List UInt8 → List UInt8 → ℤ
  | [], b => 0 - (b.headD 0).toNat
  | x :: a, b =>
    if x ≠ 0 ∧ x = b.headD 0 then strcmp a b.tail else x.toNat - (b.headD 0).toNat

def strcpy : List UInt8 → List UInt8 → List UInt8
  | [], _ => []
  | _ :: d, [] => 0 :: d
  | _ :: d, c :: s => if c = 0 then 0 :: d else c :: strcpy d s

def strncpy : List UInt8 → List UInt8 → ℕ → List UInt8
  | [], _, _ => []
  | d, _, 0 => d
  | _ :: d, [], n + 1 => 0 :: strncpy d [] n
  | _ :: d, c :: s, n + 1 => if c = 0 then 0 :: strncpy d [] n else c :: strncpy d s n

@[simp] theorem cString_nil : cString [] = [] := rfl

theorem cString_cons (c : UInt8) (s : List UInt8) :
    cString (c :: s) = if c = 0 then [] else c :: cString s := by
  by_cases hc : c = 0 <;> simp [cString, hc]

theorem strlen_eq (buf : List UInt8) : strlen buf = (cString buf).length := by
  induction buf with
  | nil => rfl
  | cons c s ih =>
    rw [strlen, cString_cons]
    split
    · rfl
    · rw [ih, List.length_cons]

theorem take_strlen (buf : List UInt8) : buf.take (strlen buf) = cString buf := by
  rw [strlen_eq]
  exact (List.prefix_iff_eq_take.mp (List.takeWhile_prefix _)).symm

theorem cString_append_nul {s : List UInt8} (h : ∀ b ∈ s, b ≠ 0) (rest : List UInt8) :
    cString (s ++ 0 :: rest) = s := by
  induction s with
  | nil => simp [cString_cons]
  | cons c s ih =>
    have hc : c ≠ 0 := h c (by simp)
    rw [List.cons_append, cString_cons, if_neg hc, ih fun b hb => h b (by simp [hb])]

theorem cString_append {s : List UInt8} (h : ∀ b ∈ s, b ≠ 0) (rest : List UInt8) :
    cString (s ++ rest) = s ++ cString rest :=
  List.takeWhile_append_of_pos (by simpa using h)

/-- Nothing behind a NUL belongs to the string. -/
theorem cString_append_of_mem {s : List UInt8} (h : 0 ∈ s) (rest : List UInt8) :
    cString (s ++ rest) = cString s := by
  induction s with
  | nil => cases h
  | cons c s ih =>
    rw [List.cons_append, cString_cons, cString_cons]
    by_cases hc : c = 0
    · rw [if_pos hc, if_pos hc]
    · rw [if_neg hc, if_neg hc, ih ((List.mem_cons.mp h).resolve_left (Ne.symm hc))]

/-- The string is found in any stretch of the buffer that covers it. -/
theorem cString_take {buf : List UInt8} {n : ℕ} (h : (cString buf).length ≤ n) :
    cString (buf.take n) = cString buf := by
  induction buf generalizing n with
  | nil => rw [List.take_nil]
  | cons c s ih =>
    rw [cString_cons] at h ⊢
    cases n with
    | zero =>
      rw [List.take_zero, cString_nil]
      exact (List.length_eq_zero_iff.mp (Nat.le_zero.mp h)).symm
    | succ n =>
      rw [List.take_succ_cons, cString_cons]
      by_cases hc : c = 0
      · rw [if_pos hc, if_pos hc]
      · rw [if_neg hc, List.length_cons] at h
        rw [if_neg hc, if_neg hc, ih (by omega)]

theorem cString_of_noNul {s : List UInt8} (h : ∀ b ∈ s, b ≠ 0) : cString s = s := by
  rw [cString, List.takeWhile_eq_self_iff]
  exact fun b hb => by simpa using h b hb

theorem cString_terminator {buf : List UInt8} (h : (cString buf).length < buf.length) :
    buf[(cString buf).length]? = some 0 := by
  induction buf with
  | nil => cases h
  | cons c s ih =>
    rw [cString_cons] at h ⊢
    by_cases hc : c = 0
    · simp [hc]
    · rw [if_neg hc, List.length_cons, List.length_cons] at h
      rw [if_neg hc, List.length_cons, List.getElem?_cons_succ]
      exact ih (by omega)

@[simp] theorem CStr.cString_bytes (name : CStr) : cString name.bytes = name.bytes :=
  cString_of_noNul name.noNul

@[simp] theorem CStr.strlen_bytes (name : CStr) : strlen name.bytes = name.bytes.length := by
  rw [strlen_eq, name.cString_bytes]

theorem strcmp_eq_zero (a b : List UInt8) : strcmp a b = 0 ↔ cString a = cString b := by
  induction a generalizing b with
  | nil =>
    cases b with
    | nil => simp [strcmp]
    | cons y b =>
      by_cases hy : y = 0
      · simp [strcmp, cString_cons, hy]
      · have : y.toNat ≠ 0 := fun h => hy (UInt8.toNat_inj.mp h)
        -- the shorter string ends first, and a byte that is no NUL is compared with one
        simp [strcmp, cString_cons, hy]
        omega
  | cons x a ih =>
    cases b with
    | nil =>
      by_cases hx : x = 0
      · simp [strcmp, cString_cons, hx]
      · have : x.toNat ≠ 0 := fun h => hx (UInt8.toNat_inj.mp h)
        simp [strcmp, cString_cons, hx]
        omega
    | cons y b =>
      have hdiff : x ≠ y → (x.toNat : ℤ) - y.toNat ≠ 0 := by
        intro h
        have : x.toNat ≠ y.toNat := fun h' => h (UInt8.toNat_inj.mp h')
        omega
      rw [strcmp, List.headD_cons, List.tail_cons, cString_cons, cString_cons]
      -- the comparison goes on only while the bytes are equal and no NUL
      by_cases hx : x = 0
      · by_cases hy : y = 0
        · simp [hx, hy]
        · have := hdiff (by rw [hx]; exact Ne.symm hy)
          simp only [hx, hy] at this ⊢
          simpa using this
      · by_cases hxy : x = y
        · subst hxy
          simp [hx, ih]
        · have := hdiff hxy
          by_cases hy : y = 0 <;> simp [hx, hxy, hy] <;> simpa [hy] using this

theorem strcmp_bytes_iff (a b : CStr) : strcmp a.bytes b.bytes = 0 ↔ a = b := by
  rw [strcmp_eq_zero, a.cString_bytes, b.cString_bytes]
  exact ⟨CStr.ext_bytes, congrArg CStr.bytes⟩

theorem strncpy_length (d s : List UInt8) (n : ℕ) : (strncpy d s n).length = d.length := by
  induction d generalizing s n with
  | nil => rfl
  | cons x d ih =>
    cases n with
    | zero => rfl
    | succ n =>
      cases s with
      | nil => rw [strncpy, List.length_cons, List.length_cons, ih]
      | cons c s => rw [strncpy]; split <;> rw [List.length_cons, List.length_cons, ih]

theorem strncpy_eq {d s : List UInt8} {n : ℕ} (hs : ∀ b ∈ s, b ≠ 0) (hsn : s.length ≤ n)
    (hnd : n ≤ d.length) :
    strncpy d s n = s ++ List.replicate (n - s.length) 0 ++ d.drop n := by
  induction d generalizing s n with
  | nil =>
    have hn : n = 0 := by simpa using hnd
    have hs' : s = [] := List.length_eq_zero_iff.mp (by omega)
    simp [strncpy, hn, hs']
  | cons x d ih =>
    cases n with
    | zero =>
      have hs' : s = [] := List.length_eq_zero_iff.mp (by omega)
      simp [strncpy, hs']
    | succ n =>
      have hnd' : n ≤ d.length := by simpa using hnd
      cases s with
      | nil =>
        -- the source has ended: the rest of the bound is padding
        rw [strncpy, ih (by simp) (by simp) hnd']
        simp [List.replicate_succ]
      | cons c s =>
        have hc : c ≠ 0 := hs c (by simp)
        have hsn' : s.length ≤ n := by simpa using hsn
        rw [strncpy, if_neg hc, ih (fun b hb => hs b (by simp [hb])) hsn' hnd']
        simp

end MyMisu
