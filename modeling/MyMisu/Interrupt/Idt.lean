import MyMisu.Lib.X86

/-!
# Interrupt gates and handlers

The interrupt descriptor table of `idt.c` with the gates `idt_init` installs, and the table of
handlers with what the start of `kernel_main` registers.  Where the linker puts the stubs of `isr.s`
is a parameter.
-/

namespace MyMisu

open WordMemory

/-- The stubs of `isr.s`. -/
inductive Stub
  | isr (n : Fin 32)
  | irq (n : Fin 16)
  deriving DecidableEq

/-- The addresses of the stubs; two stubs do not start at one address. -/
structure Symbols where
  addr : Stub → Word
  injective : Function.Injective addr

/-- `struct idt_entry` -/
structure IdtEntry where
  baseLow : BitVec 16
  sel : BitVec 16
  always0 : BitVec 8
  flags : BitVec 8
  baseHigh : BitVec 16

namespace IdtEntry

/-- An entry after `memset`. -/
def zero : IdtEntry := ⟨0, 0, 0, 0, 0⟩

/-- The address the CPU enters. -/
def base (e : IdtEntry) : Word := e.baseHigh ++ e.baseLow

end IdtEntry

abbrev Idt := BitVec 8 → IdtEntry

/-- The fields `idt_set_gate` stores. -/
def IdtEntry.gate (base : Word) (sel : BitVec 16) (flags : BitVec 8) : IdtEntry where
  baseLow := base.extractLsb' 0 16
  baseHigh := base.extractLsb' 16 16
  sel := sel
  always0 := 0
  flags := flags

def idtSetGate (idt : Idt) (num : BitVec 8) (base : Word) (sel : BitVec 16) (flags : BitVec 8) :
    Idt :=
  Function.update idt num (.gate base sel flags)

inductive Handler
  | syscallHandler | timerCallback | keyboardCallback
  deriving DecidableEq

/-- `interrupt_handlers`, where `none` is NULL. -/
abbrev Handlers := BitVec 8 → Option Handler

def registerInterruptHandler (handlers : Handlers) (n : BitVec 8) (handler : Handler) : Handlers :=
  Function.update handlers n (some handler)

/-- The two tables of `idt.c`. -/
structure Interrupts where
  idt : Idt
  handlers : Handlers

def isrVector (n : Fin 32) : BitVec 8 := BitVec.ofNat 8 n.val

def irqVector (n : Fin 16) : BitVec 8 := BitVec.ofNat 8 (32 + n.val)

/-- Calls of `idt_set_gate(num, stub, 0x08, 0x8E)`, one for each index. -/
def setGates {ι : Type*} (num : ι → BitVec 8) (base : ι → Word) (idt : Idt) (is : List ι) : Idt :=
  is.foldl (fun idt i => idtSetGate idt (num i) (base i) 0x08 0x8E) idt

/-- The gates 0 to 31 of the exceptions and 32 to 47 of the hardware interrupts. -/
def idtInit (sym : Symbols) : Interrupts where
  idt := setGates irqVector (fun n => sym.addr (.irq n))
    (setGates isrVector (fun n => sym.addr (.isr n)) (fun _ => .zero) (List.finRange 32))
    (List.finRange 16)
  handlers := fun _ => none

def syscallInit (t : Interrupts) : Interrupts :=
  { t with handlers := registerInterruptHandler t.handlers 128 .syscallHandler }

def timerInit (t : Interrupts) : Interrupts :=
  { t with handlers := registerInterruptHandler t.handlers 32 .timerCallback }

def keyboardInit (t : Interrupts) : Interrupts :=
  { t with handlers := registerInterruptHandler t.handlers 33 .keyboardCallback }

/-- The tables from `sti` in `kernel_main` on; nothing writes to them later. -/
def kernelInterrupts (sym : Symbols) : Interrupts :=
  keyboardInit (timerInit (syscallInit (idtInit sym)))

/-! ## What is in the tables -/

theorem gate_base (base : Word) (sel : BitVec 16) (flags : BitVec 8) :
    (IdtEntry.gate base sel flags).base = base := by
  show base.extractLsb' 16 16 ++ base.extractLsb' 0 16 = base
  rw [BitVec.extractLsb'_append_extractLsb'_eq_extractLsb' (by decide)]
  exact BitVec.extractLsb'_eq_self

section Gates

variable {ι : Type*} {num : ι → BitVec 8} {base : ι → Word} {idt : Idt} {is : List ι}

theorem setGates_other {v : BitVec 8} (h : ∀ i ∈ is, num i ≠ v) :
    setGates num base idt is v = idt v := by
  induction is generalizing idt with
  | nil => rfl
  | cons i is ih =>
    have hrest : ∀ j ∈ is, num j ≠ v := fun j hj => h j (List.mem_cons_of_mem i hj)
    have hi : num i ≠ v := h i (List.mem_cons_self ..)
    show setGates num base (idtSetGate idt (num i) (base i) 0x08 0x8E) is v = idt v
    rw [ih hrest, idtSetGate, Function.update_of_ne (Ne.symm hi)]

theorem setGates_mem (hnum : Function.Injective num) (hnodup : is.Nodup) {i : ι} (hi : i ∈ is) :
    setGates num base idt is (num i) = .gate (base i) 0x08 0x8E := by
  induction is generalizing idt with
  | nil => cases hi
  | cons j is ih =>
    have ⟨hj, hrest⟩ := List.nodup_cons.mp hnodup
    show setGates num base (idtSetGate idt (num j) (base j) 0x08 0x8E) is (num i) = _
    rcases List.mem_cons.mp hi with rfl | hi
    · -- no later call stores to the same entry
      have hlater : ∀ k ∈ is, num k ≠ num i := fun k hk heq => hj (hnum heq ▸ hk)
      rw [setGates_other hlater, idtSetGate, Function.update_self]
    · exact ih hrest hi

end Gates

variable {sym : Symbols}

theorem isrVector_toNat (n : Fin 32) : (isrVector n).toNat = n.val := by
  rw [isrVector, BitVec.toNat_ofNat]
  omega

theorem irqVector_toNat (n : Fin 16) : (irqVector n).toNat = 32 + n.val := by
  rw [irqVector, BitVec.toNat_ofNat]
  omega

theorem isrVector_injective : Function.Injective isrVector := by
  intro n m h
  have hval := congrArg BitVec.toNat h
  rw [isrVector_toNat, isrVector_toNat] at hval
  exact Fin.ext hval

theorem irqVector_injective : Function.Injective irqVector := by
  intro n m h
  have hval := congrArg BitVec.toNat h
  rw [irqVector_toNat, irqVector_toNat] at hval
  exact Fin.ext (Nat.add_left_cancel hval)

theorem kernelInterrupts_idt :
    (kernelInterrupts sym).idt =
      setGates irqVector (fun n => sym.addr (.irq n))
        (setGates isrVector (fun n => sym.addr (.isr n)) (fun _ => .zero) (List.finRange 32))
        (List.finRange 16) := rfl

/-- Every exception has the gate of its own stub. -/
theorem kernelInterrupts_isr (n : Fin 32) :
    (kernelInterrupts sym).idt (isrVector n) = .gate (sym.addr (.isr n)) 0x08 0x8E := by
  have hirq : ∀ i ∈ List.finRange 16, irqVector i ≠ isrVector n := by
    intro i _ h
    have hval := congrArg BitVec.toNat h
    rw [irqVector_toNat, isrVector_toNat] at hval
    omega
  -- the gates of the hardware interrupts come later, at other numbers
  rw [kernelInterrupts_idt, setGates_other hirq]
  exact setGates_mem isrVector_injective (List.nodup_finRange 32) (List.mem_finRange n)

/-- Every hardware interrupt has the gate of its own stub. -/
theorem kernelInterrupts_irq (n : Fin 16) :
    (kernelInterrupts sym).idt (irqVector n) = .gate (sym.addr (.irq n)) 0x08 0x8E := by
  rw [kernelInterrupts_idt]
  exact setGates_mem irqVector_injective (List.nodup_finRange 16) (List.mem_finRange n)

/-- No gate is installed from vector 48 on. -/
theorem kernelInterrupts_none {v : BitVec 8} (h : 48 ≤ v.toNat) :
    (kernelInterrupts sym).idt v = .zero := by
  have hirq : ∀ i ∈ List.finRange 16, irqVector i ≠ v := by
    intro i _ heq
    rw [← heq, irqVector_toNat] at h
    omega
  have hisr : ∀ i ∈ List.finRange 32, isrVector i ≠ v := by
    intro i _ heq
    rw [← heq, isrVector_toNat] at h
    omega
  rw [kernelInterrupts_idt, setGates_other hirq, setGates_other hisr]

/-- No exception has a handler. -/
theorem kernelInterrupts_unhandled (n : Fin 32) :
    (kernelInterrupts sym).handlers (isrVector n) = none := by
  have hne : ∀ v : BitVec 8, 32 ≤ v.toNat → isrVector n ≠ v := by
    intro v hv h
    rw [← h, isrVector_toNat] at hv
    omega
  show Function.update (Function.update (Function.update (fun _ => none) (128 : BitVec 8) _)
    (32 : BitVec 8) _) (33 : BitVec 8) _ _ = _
  rw [Function.update_of_ne (hne 33 (by decide)), Function.update_of_ne (hne 32 (by decide)),
    Function.update_of_ne (hne 128 (by decide))]

end MyMisu
