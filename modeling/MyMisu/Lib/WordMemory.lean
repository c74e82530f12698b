import Mathlib.Tactic
import Mathlib.Order.CompletePartialOrder

/-!
# Words in a byte memory

A memory of bytes with 32-bit addresses that wrap, its little-endian words, and the runs of words a
stack growing downward consists of.  Everything is stated over sets of addresses: what a store
leaves alone is agreement (`Set.EqOn`) outside the bytes it writes.
-/

namespace WordMemory

abbrev Word := BitVec 32

abbrev Mem := Word → BitVec 8

/-- The `n` bytes from `a` on. -/
def bytes (a : Word) (n : ℕ) : Set Word := {x | (x - a).toNat < n}

def Mem.readWord (m : Mem) (a : Word) : Word := m (a + 3) ++ (m (a + 2) ++ (m (a + 1) ++ m a))

def Mem.writeWord (m : Mem) (a v : Word) : Mem := fun x =>
  if (x - a).toNat < 4 then v.extractLsb' (8 * (x - a).toNat) 8 else m x

variable {m m' : Mem} {a b x : Word} {n k : ℕ}

/-! ## Ranges -/

@[simp] theorem mem_bytes : x ∈ bytes a n ↔ (x - a).toNat < n := Iff.rfl

theorem bytes_subset (h : (b - a).toNat + n ≤ k) : bytes b n ⊆ bytes a k := by
  intro x hx
  have hsum : (x - a).toNat ≤ (x - b).toNat + (b - a).toNat := by
    rw [show x - a = (x - b) + (b - a) by bv_omega, BitVec.toNat_add]
    exact Nat.mod_le _ _
  simp only [mem_bytes] at *
  omega

theorem bytes_disjoint (hab : n ≤ (b - a).toNat) (hba : k ≤ (a - b).toNat) :
    Disjoint (bytes a n) (bytes b k) := by
  refine Set.disjoint_left.mpr ?_
  intro x hx hx'
  simp only [mem_bytes] at *
  bv_omega

/-- Ranges of numbers below the end of the memory. -/
theorem bytes_ofNat_disjoint {i j : ℕ} (hi : i + n ≤ 2 ^ 32) (hj : j + k ≤ 2 ^ 32)
    (h : i + n ≤ j ∨ j + k ≤ i) :
    Disjoint (bytes (BitVec.ofNat 32 i) n) (bytes (BitVec.ofNat 32 j) k) := by
  refine Set.disjoint_left.mpr ?_
  intro x hx hx'
  simp only [mem_bytes] at hx hx'
  bv_omega

/-! ## One word -/

theorem byte_mem (i : Word) (hi : i.toNat < n) : a + i ∈ bytes a n := by
  rw [mem_bytes, show a + i - a = i by bv_omega]
  exact hi

theorem readWord_congr (h : Set.EqOn m m' (bytes a 4)) : m.readWord a = m'.readWord a := by
  have h0 : m a = m' a := by simpa using h (byte_mem 0 (by decide))
  rw [Mem.readWord, Mem.readWord, h0, h (byte_mem 1 (by decide)), h (byte_mem 2 (by decide)),
    h (byte_mem 3 (by decide))]

theorem writeWord_byte (m : Mem) (a v : Word) (i : Word) (hi : i.toNat < 4) :
    m.writeWord a v (a + i) = v.extractLsb' (8 * i.toNat) 8 := by
  have hsub : a + i - a = i := by bv_omega
  rw [Mem.writeWord, hsub, if_pos hi]

theorem readWord_writeWord_self (m : Mem) (a v : Word) : (m.writeWord a v).readWord a = v := by
  have h0 : m.writeWord a v a = v.extractLsb' 0 8 := by
    simpa using writeWord_byte m a v 0 (by decide)
  rw [Mem.readWord, h0, writeWord_byte m a v 1 (by decide), writeWord_byte m a v 2 (by decide),
    writeWord_byte m a v 3 (by decide)]
  show v.extractLsb' 24 8 ++ (v.extractLsb' 16 8 ++ (v.extractLsb' 8 8 ++ v.extractLsb' 0 8)) = v
  rw [BitVec.extractLsb'_append_extractLsb'_eq_extractLsb' (by decide),
    BitVec.extractLsb'_append_extractLsb'_eq_extractLsb' (by decide),
    BitVec.extractLsb'_append_extractLsb'_eq_extractLsb' (by decide)]
  exact BitVec.extractLsb'_eq_self

theorem writeWord_eqOn (m : Mem) (a v : Word) : Set.EqOn (m.writeWord a v) m (bytes a 4)ᶜ := by
  intro x hx
  rw [Set.mem_compl_iff, mem_bytes] at hx
  exact if_neg hx

theorem writeWord_eqOn_of_disjoint {s : Set Word} (v : Word) (h : Disjoint s (bytes a 4)) :
    Set.EqOn (m.writeWord a v) m s :=
  (writeWord_eqOn m a v).mono h.subset_compl_right

/-! ## A stack growing downward -/

/-- `*(--sp) = w` -/
def push (s : Mem × Word) (w : Word) : Mem × Word := (s.1.writeWord (s.2 - 4) w, s.2 - 4)

def pushAll (s : Mem × Word) (ws : List Word) : Mem × Word := ws.foldl push s

theorem pushAll_cons (s : Mem × Word) (w : Word) (ws : List Word) :
    pushAll s (w :: ws) = pushAll (push s w) ws := rfl

theorem pushAll_append (s : Mem × Word) (ws ws' : List Word) :
    pushAll s (ws ++ ws') = pushAll (pushAll s ws) ws' := List.foldl_append

theorem pushAll_snd (s : Mem × Word) (ws : List Word) :
    (pushAll s ws).2 = s.2 - BitVec.ofNat 32 (4 * ws.length) := by
  induction ws generalizing s with
  | nil => simp [pushAll]
  | cons w ws ih =>
    rw [pushAll_cons, ih, List.length_cons]
    show s.2 - 4 - _ = _
    bv_omega

/-- The bytes a sequence of pushes writes. -/
def pushed (sp : Word) (n : ℕ) : Set Word := bytes (sp - BitVec.ofNat 32 (4 * n)) (4 * n)

theorem pushAll_eqOn (s : Mem × Word) (ws : List Word) :
    Set.EqOn (pushAll s ws).1 s.1 (pushed s.2 ws.length)ᶜ := by
  induction ws generalizing s with
  | nil => exact fun _ _ => rfl
  | cons w ws ih =>
    intro x hx
    have hlater : x ∉ pushed (s.2 - 4) ws.length := by
      refine fun h => hx (bytes_subset ?_ h)
      rw [List.length_cons]
      bv_omega
    have hfirst : x ∉ bytes (s.2 - 4) 4 := by
      refine fun h => hx (bytes_subset ?_ h)
      rw [List.length_cons]
      bv_omega
    rw [pushAll_cons, ih (push s w) hlater]
    exact writeWord_eqOn _ _ _ hfirst

/-- The words pushed are found again, the last one at the stack pointer. -/
theorem pushAll_read (s : Mem × Word) (ws : List Word) (hroom : 4 * ws.length ≤ 2 ^ 32)
    {i : ℕ} (hi : i < ws.length) :
    (pushAll s ws).1.readWord (s.2 - BitVec.ofNat 32 (4 * (i + 1))) = ws[i] := by
  induction ws generalizing s i with
  | nil => cases hi
  | cons w ws ih =>
    rw [List.length_cons] at hroom hi
    rw [pushAll_cons]
    cases i with
    | zero =>
      -- the later pushes write below the first one
      have hbelow : Disjoint (bytes (s.2 - 4) 4) (pushed (s.2 - 4) ws.length) := by
        refine Set.disjoint_left.mpr ?_
        intro x hx hx'
        simp only [pushed, mem_bytes] at hx hx'
        bv_omega
      have hkept := (pushAll_eqOn (push s w) ws).mono hbelow.subset_compl_right
      exact (readWord_congr hkept).trans (readWord_writeWord_self _ _ _)
    | succ i =>
      have hrest := ih (push s w) (by omega) (i := i) (by omega)
      rw [List.getElem_cons_succ, ← hrest]
      congr 1
      show _ = s.2 - 4 - _
      bv_omega

end WordMemory
