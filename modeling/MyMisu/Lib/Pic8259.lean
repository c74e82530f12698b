import Mathlib.Data.List.TakeWhile
import Mathlib.Tactic

/-!
# The 8259A interrupt controller

Two controllers in cascade, edge triggered and fully nested: the initialisation words, the mask, the
end of an interrupt, and the two pulses by which a processor acknowledges an interrupt.  What the
software sets up is kept apart from the requests of the devices.  Rotating priorities, polling and
the special modes are left out.
-/

namespace Pic8259

/-- A controller has lines, so that there are numerals for them. -/
instance lines_neZero : NeZero 8 := ⟨by decide⟩

/-- What the next write to the data port is taken for. -/
inductive Expects
  | mask | icw2 | icw3 | icw4
  deriving DecidableEq

@[ext] structure Setup where
  inService : Fin 8 → Bool
  masked : Fin 8 → Bool
  base : BitVec 8
  cascade : BitVec 8
  mode : BitVec 8
  single : Bool
  fourth : Bool
  expects : Expects

structure Chip where
  requests : Fin 8 → Bool
  setup : Setup

/-- The line of the highest priority. -/
def highest (lines : Fin 8 → Bool) : Option (Fin 8) := (List.finRange 8).find? fun i => lines i

namespace Setup

def quiet (s : Setup) : Prop := ∀ i, s.inService i = false

/-- The end of the interrupt of the highest priority. -/
def endOfInterrupt (s : Setup) : Setup :=
  match highest s.inService with
  | some i => { s with inService := Function.update s.inService i false }
  | none => s

/-- A write to the command port. -/
def command (s : Setup) (v : BitVec 8) : Setup :=
  if v.getLsbD 4 then
    -- the first initialisation word
    { inService := fun _ => false, masked := fun _ => false, base := s.base, cascade := 0, mode := 0,
      single := v.getLsbD 1, fourth := v.getLsbD 0, expects := .icw2 }
  else if v.getLsbD 3 then s
  else if v.extractLsb' 5 3 = 1 then s.endOfInterrupt
  else if v.extractLsb' 5 3 = 3 then
    { s with inService := fun i => s.inService i && i.val != (v.extractLsb' 0 3).toNat }
  else s

/-- A write to the data port. -/
def data (s : Setup) (v : BitVec 8) : Setup :=
  let last := if s.fourth then .icw4 else .mask
  match s.expects with
  | .icw2 => { s with base := v &&& 0xF8, expects := if s.single then last else .icw3 }
  | .icw3 => { s with cascade := v, expects := last }
  | .icw4 => { s with mode := v, expects := .mask }
  | .mask => { s with masked := fun i => v.getLsbD i }

/-- The controller takes an interrupt for ended when it is acknowledged. -/
def autoEnd (s : Setup) : Bool := s.mode.getLsbD 1

def begin (s : Setup) (i : Fin 8) : Setup :=
  if s.autoEnd then s else { s with inService := Function.update s.inService i true }

end Setup

namespace Chip

/-- A write to the command port.  The first initialisation word forgets the requests. -/
def command (c : Chip) (v : BitVec 8) : Chip where
  requests := fun i => c.requests i && !v.getLsbD 4
  setup := c.setup.command v

def data (c : Chip) (v : BitVec 8) : Chip := { c with setup := c.setup.data v }

def setLine (c : Chip) (i : Fin 8) (b : Bool) : Chip :=
  { c with requests := Function.update c.requests i b }

/-- The request that is passed on: no line of the same or a higher priority is in service. -/
def next (c : Chip) : Option (Fin 8) :=
  ((List.finRange 8).takeWhile fun i => !c.setup.inService i).find? fun i =>
    c.requests i && !c.setup.masked i

/-- The answer to an acknowledgement; line 7 when the request has gone. -/
def acknowledge (c : Chip) : Fin 8 × Chip :=
  match c.next with
  | some i => (i, { c.setLine i false with setup := c.setup.begin i })
  | none => (7, c)

end Chip

/-- A master, and a slave at its line 2. -/
structure Pair where
  master : Chip
  slave : Chip

/-- A line of the pair; line 2 of the master is no device's. -/
inductive Line
  | master (i : Fin 8) (h : i ≠ 2)
  | slave (j : Fin 8)
  deriving DecidableEq

namespace Line

/-- The input of the master behind which the line is. -/
def input : Line → Fin 8
  | master i _ => i
  | slave _ => 2

/-- The place in the order of the priorities, 0 for the highest. -/
def rank : Line → ℕ
  | master i _ => if i.val < 2 then i.val else i.val + 7
  | slave j => j.val + 2

end Line

namespace Pair

def setLine (p : Pair) (n : Line) (b : Bool) : Pair :=
  match n with
  | .master i _ => { p with master := p.master.setLine i b }
  | .slave j => { p with slave := p.slave.setLine j b }

def requested (p : Pair) : Line → Bool
  | .master i _ => p.master.requests i
  | .slave j => p.slave.requests j

/-- The master with the output of the slave at its line 2. -/
def wired (p : Pair) : Chip := p.master.setLine 2 p.slave.next.isSome

/-- The first pulse: the master chooses a line. -/
def pulse (p : Pair) : Fin 8 × Pair :=
  let (i, master) := p.wired.acknowledge
  (i, { p with master })

/-- The second pulse: the vector comes from the slave when the line is a slave's, and from the
master otherwise.  Nobody drives the bus when the slave does not have the line's identity. -/
def vector (p : Pair) (i : Fin 8) : BitVec 8 × Pair :=
  if p.master.setup.cascade.getLsbD i then
    if (p.slave.setup.cascade.extractLsb' 0 3).toNat = i then
      let (j, slave) := p.slave.acknowledge
      (p.slave.setup.base + BitVec.ofNat 8 j, { p with slave })
    else (0xFF, p)
  else (p.master.setup.base + BitVec.ofNat 8 i, p)

end Pair

/-! ## Priorities -/

theorem highest_eq_some {lines : Fin 8 → Bool} {i : Fin 8} (h : highest lines = some i) :
    lines i = true ∧ ∀ j, lines j = true → i ≤ j := by
  unfold highest at h
  refine ⟨by simpa using List.find?_some h, fun j hj => ?_⟩
  obtain ⟨-, before, after, hsplit, hbefore⟩ := List.find?_eq_some_iff_append.mp h
  have hsorted : (List.finRange 8).Pairwise (· < ·) := List.pairwise_lt_finRange 8
  have hmem : j ∈ before ++ i :: after := hsplit ▸ List.mem_finRange j
  rw [hsplit, List.pairwise_append, List.pairwise_cons] at hsorted
  rcases List.mem_append.mp hmem with hin | hin
  · -- no line in front of the one found is set
    have := hbefore j hin
    simp [hj] at this
  · rcases List.mem_cons.mp hin with rfl | hin
    · exact le_rfl
    · exact (hsorted.2.1.1 j hin).le

theorem highest_eq_none {lines : Fin 8 → Bool} (h : highest lines = none) (j : Fin 8) :
    lines j = false := by
  have := List.find?_eq_none.mp h j (List.mem_finRange j)
  simpa using this

/-- With at most one line in service, its end leaves none. -/
theorem Setup.endOfInterrupt_eq {s : Setup} {i : Fin 8} (h : ∀ j, s.inService j = true → j = i) :
    s.endOfInterrupt = { s with inService := fun _ => false } := by
  unfold endOfInterrupt
  split
  · next k hk =>
    have hik := h k (highest_eq_some hk).1
    congr 1
    ext j
    rw [Function.update_apply]
    split_ifs with hjk
    · rfl
    · have := mt (h j) (by omega)
      simpa using this
  · next hk =>
    have hnone : s.inService = fun _ => false := funext (highest_eq_none hk)
    rw [← hnone]

theorem Setup.command_eoi (s : Setup) : s.command 0x20 = s.endOfInterrupt := rfl

theorem Chip.next_quiet {c : Chip} (h : c.setup.quiet) :
    c.next = highest fun i => c.requests i && !c.setup.masked i := by
  have hall : (List.finRange 8).takeWhile (fun i => !c.setup.inService i) = List.finRange 8 := by
    apply List.takeWhile_eq_self_iff.mpr
    intro i _
    simp only [h i, Bool.not_false]
  rw [next, hall, highest]

/-- An acknowledged line is the only one in service. -/
theorem Chip.acknowledge_setup {c : Chip} (h : c.setup.quiet) (hend : c.setup.autoEnd = false) :
    ∃ f, (∀ j, f j = true → j = c.acknowledge.1) ∧
      c.acknowledge.2.setup = { c.setup with inService := f } := by
  unfold acknowledge
  cases hnext : c.next with
  | none => exact ⟨c.setup.inService, fun j hj => absurd hj (by simp [h j]), rfl⟩
  | some i =>
    have hbegin : c.setup.begin i =
        { c.setup with inService := Function.update c.setup.inService i true } := by
      rw [Setup.begin, if_neg (by simp [hend])]
    refine ⟨_, ?_, hbegin⟩
    intro j hj
    by_contra hne
    rw [Function.update_of_ne hne, h j] at hj
    cases hj

/-- A request stays until it is answered. -/
theorem Chip.acknowledge_requests {c : Chip} {i : Fin 8} (hi : c.requests i = true)
    (hne : i ≠ c.acknowledge.1) : c.acknowledge.2.requests i = true := by
  unfold acknowledge at hne ⊢
  cases hnext : c.next with
  | none => exact hi
  | some k =>
    rw [hnext] at hne
    show Function.update c.requests k false i = true
    rw [Function.update_of_ne hne, hi]

/-- No request of a lower priority is answered. -/
theorem Chip.acknowledge_le {c : Chip} (h : c.setup.quiet) {i : Fin 8} (hi : c.requests i = true)
    (hmask : c.setup.masked i = false) : c.acknowledge.1 ≤ i := by
  have hwants : (c.requests i && !c.setup.masked i) = true := by rw [hi, hmask]; rfl
  unfold acknowledge
  rw [Chip.next_quiet h]
  cases hnext : highest fun i => c.requests i && !c.setup.masked i with
  | none =>
    rw [highest_eq_none hnext i] at hwants
    cases hwants
  | some k => exact (highest_eq_some hnext).2 i hwants

theorem Chip.next_isSome {c : Chip} (h : c.setup.quiet) {i : Fin 8} (hi : c.requests i = true)
    (hmask : c.setup.masked i = false) : c.next.isSome = true := by
  have hwants : (c.requests i && !c.setup.masked i) = true := by rw [hi, hmask]; rfl
  rw [Chip.next_quiet h]
  cases hnext : highest fun i => c.requests i && !c.setup.masked i with
  | none =>
    rw [highest_eq_none hnext i] at hwants
    cases hwants
  | some k => rfl

theorem Pair.requested_setLine_ne {p : Pair} {m n : Line} (h : m ≠ n) (b : Bool) :
    (p.setLine m b).requested n = p.requested n := by
  cases m <;> cases n
  · exact Function.update_of_ne (fun heq => h (by congr 1; exact heq.symm)) _ _
  · rfl
  · rfl
  · exact Function.update_of_ne (fun heq => h (by rw [heq])) _ _

theorem Pair.requested_setLine_self (p : Pair) (n : Line) (b : Bool) :
    (p.setLine n b).requested n = b := by
  cases n <;> exact Function.update_self ..

/-- A request is on the input of the master that leads to its line. -/
theorem Pair.wired_requests {p : Pair} {n : Line} (hn : p.requested n = true)
    (hquiet : p.slave.setup.quiet) (hmask : ∀ j, p.slave.setup.masked j = false) :
    p.wired.requests n.input = true := by
  cases n with
  | master i h => exact (Function.update_of_ne h _ _).trans hn
  | slave j =>
    show Function.update p.master.requests 2 p.slave.next.isSome 2 = true
    rw [Function.update_self, Chip.next_isSome hquiet hn (hmask j)]

/-- Priorities at the master come before those at the slave. -/
theorem Line.rank_lt {m n : Line} (h : m.input < n.input) : m.rank < n.rank := by
  cases m <;> cases n <;> simp only [Line.input, Fin.lt_def] at h <;> simp only [Line.rank] <;> grind

end Pic8259
