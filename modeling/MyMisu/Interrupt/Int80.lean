import MyMisu.Interrupt.Dispatch
import MyMisu.Vga.Bounds

/-!
# `int 0x80`

The numbers the stubs push are the ones the handlers find in `registers_t`, so an exception nobody
has registered a handler for ends in a panic.  No gate is installed for vector 128: the instruction
raises a general protection fault, and that is such an exception.
-/

namespace MyMisu

open WordMemory X86

variable {sym : Symbols} {env : SysEnv} {others : OtherHandlers} {c : Core}

/-! ## What the stubs leave on the stack -/

/-- A stub pushes its number, then the registers, the data segment and the pointer to all that. -/
theorem stubEnter_stack (c : Core) (s : Stub) :
    ∃ (saved : Reg → Word) (ds esp : Word), (∀ r, r ≠ .esp → saved r = c.cpu.gpr r) ∧
      ds.extractLsb' 0 16 = c.seg .ds ∧
      (stubEnter c s).cpu.stack =
        pushAll (pushAll c.cpu.stack s.dummy) (s.number :: pushadOrder.map saved ++ [ds, esp]) := by
  -- after the number, the registers and the data segment, and before the pointer
  let c₁ := c.cli.run ((s.dummy ++ [s.number]).map .pushImm)
  let c₂ := c₁.run [.pushad]
  let c₃ := (c₂.setAx (c₂.seg .ds)).run [.push .eax]
  let c₄ := (c₃.setAx 0x10).setSegs
  let ds := (c₂.setAx (c₂.seg .ds)).cpu.gpr .eax
  have hnumber : c₁.cpu.stack = pushAll c.cpu.stack (s.dummy ++ [s.number]) := pushImms_stack _ _
  have hregs : c₂.cpu.stack = pushAll c₁.cpu.stack (pushadOrder.map c₁.cpu.gpr) :=
    pushWords_stack _ _
  have hds : c₃.cpu.stack = pushAll c₂.cpu.stack [ds] := by
    have hax : (c₂.setAx (c₂.seg .ds)).cpu.stack = c₂.cpu.stack := setReg_stack (by decide) _
    rw [← hax]
    exact pushWords_stack _ _
  have hesp : (stubEnter c s).cpu.stack = pushAll c₃.cpu.stack [c₄.cpu.gpr .esp] := by
    have hax : c₄.cpu.stack = c₃.cpu.stack := setReg_stack (by decide) _
    rw [← hax]
    exact pushWords_stack _ _
  refine ⟨c₁.cpu.gpr, ds, c₄.cpu.gpr .esp, ?_, ?_, ?_⟩
  · intro r hr
    exact pushImms_gpr hr
  · have hlow : ds = (c₂.cpu.gpr .eax).extractLsb' 16 16 ++ c₂.seg .ds := setReg_self _ _ _
    rw [hlow, BitVec.extractLsb'_append_eq_of_add_le (by decide)]
    exact BitVec.extractLsb'_eq_self
  · rw [hesp, hds, hregs, hnumber, ← pushAll_append, ← pushAll_append, ← pushAll_append,
      ← pushAll_append]
    simp only [List.append_assoc, List.cons_append, List.nil_append]

/-- The handler finds the number of the stub in `registers_t`. -/
theorem stubEnter_intNo (c : Core) (s : Stub) :
    intNo (stubEnter c s).cpu.mem (regsPtr (stubEnter c s)) = s.number := by
  obtain ⟨saved, ds, esp, -, -, hstack⟩ := stubEnter_stack c s
  generalize pushAll c.cpu.stack s.dummy = st at hstack
  generalize hwords : s.number :: pushadOrder.map saved ++ [ds, esp] = words at hstack
  have hlength : words.length = 11 := by
    rw [← hwords]
    rfl
  have hmem : (stubEnter c s).cpu.mem = (pushAll st words).1 := congrArg Prod.fst hstack
  have hesp : (stubEnter c s).cpu.gpr .esp = st.2 - BitVec.ofNat 32 (4 * 11) := by
    have hsnd := congrArg Prod.snd hstack
    rw [pushAll_snd, hlength] at hsnd
    exact hsnd
  -- the number is the first of the eleven words
  have hread := pushAll_read st words (by omega) (i := 0) (by omega)
  have haddr : st.2 - BitVec.ofNat 32 (4 * 11) + 4 + 36 = st.2 - BitVec.ofNat 32 (4 * (0 + 1)) := by
    bv_omega
  rw [intNo, regsPtr, hesp, hmem, haddr, hread]
  simp only [← hwords, List.cons_append, List.getElem_cons_zero]

theorem stubAt_addr (s : Stub) : stubAt sym (sym.addr s) = some s := by
  unfold stubAt
  have hmem : s ∈ Stub.all := by
    cases s with
    | isr n => exact List.mem_append_left _ (List.mem_map_of_mem (List.mem_finRange n))
    | irq n => exact List.mem_append_right _ (List.mem_map_of_mem (List.mem_finRange n))
  cases hfound : Stub.all.find? fun s' => sym.addr s' = sym.addr s with
  | none =>
    have habsent := List.find?_eq_none.mp hfound s hmem
    simp at habsent
  | some s' =>
    have heq : sym.addr s' = sym.addr s := by simpa using List.find?_some hfound
    rw [sym.injective heq]

/-! ## Exceptions nobody handles -/

theorem setWidth_number (n : Fin 32) : (Stub.isr n).number.setWidth 8 = isrVector n := by
  apply BitVec.eq_of_toNat_eq
  rw [isrVector_toNat, Stub.number, BitVec.toNat_setWidth, BitVec.toNat_ofNat]
  omega

/-- An exception ends in the loop of the panic, whatever the registers and the memory hold. -/
theorem exception_halts (sym : Symbols) (env : SysEnv) (others : OtherHandlers) (c : Core)
    (n : Fin 32) :
    ∃ c', callHandler (kernelInterrupts sym) env others (.isr n) (stubEnter c (.isr n)) =
      .halted c' := by
  have hlt : (Stub.isr n).number.toNat < 32 := by
    have hn := n.isLt
    simp only [Stub.number, BitVec.toNat_ofNat]
    omega
  simp only [callHandler, stubEnter_intNo, setWidth_number, kernelInterrupts_unhandled, if_pos hlt]
  exact ⟨_, rfl⟩

theorem gateFault_gate (base : Word) : gateFault (.gate base 0x08 0x8E) = none := by
  simp [gateFault, IdtEntry.gate]

theorem gateFault_zero : gateFault .zero = some 13 := rfl

/-- A vector without a gate raises a general protection fault, which enters its own stub. -/
theorem softwareInt_none {v : BitVec 8} (hv : 48 ≤ v.toNat) (sym : Symbols) (c : Core) :
    ∃ c', softwareInt (kernelInterrupts sym).idt c v = some c' ∧
      c'.cpu.eip = sym.addr (.isr 13) := by
  simp only [softwareInt, kernelInterrupts_none hv, gateFault_zero, kernelInterrupts_isr,
    gateFault_gate]
  exact ⟨_, rfl, gate_base _ _ _⟩

theorem interrupt_none {v : BitVec 8} (hv : 48 ≤ v.toNat) (sym : Symbols) (env : SysEnv)
    (others : OtherHandlers) (c : Core) :
    ∃ c', interrupt sym (kernelInterrupts sym) env others c v = .halted c' := by
  obtain ⟨c₁, hint, heip⟩ := softwareInt_none hv sym c
  simp only [interrupt, runStub, hint, heip, stubAt_addr]
  exact exception_halts sym env others c₁ 13

/-! ## The system call interrupt -/

/-- The interrupt is what the direct call of the function that `eax` selects would have been: it
reaches `syscall_handler`, and comes back with the state of the direct call, apart from the stack
below `esp`, with its result in `eax` and all other registers as they were. -/
def AgreesWithDirectCall (sym : Symbols) (t : Interrupts) (env : SysEnv) (others : OtherHandlers)
    (c : Core) : Prop :=
  let reg := c.cpu.gpr
  match syscallSwitch env c.sys (reg .eax) (reg .ebx) (reg .ecx) (reg .edx) with
  | none => interrupt sym t env others c 128 = .unfinished .syscallHandler
  | some (r, s) =>
    ∃ c', interrupt sym t env others c 128 = .returned (some .syscallHandler) c' ∧
      c'.files = s.fs ∧ c'.kernel = s.kernel ∧ c'.terminal = s.terminal ∧ c'.tick = s.tick ∧
      Set.EqOn c'.cpu.mem s.mem (pushed (reg .esp) 15)ᶜ ∧
      c'.cpu.gpr .eax = BitVec.ofInt 32 r ∧ ∀ q, q ≠ .eax → c'.cpu.gpr q = reg q

/-- From no state of the kernel does `int 0x80` agree with the direct call: it ends in the panic of
exception 13. -/
theorem int80_never_agrees (sym : Symbols) (env : SysEnv) (others : OtherHandlers) (c : Core) :
    (∃ c', interrupt sym (kernelInterrupts sym) env others c 128 = .halted c') ∧
      ¬ AgreesWithDirectCall sym (kernelInterrupts sym) env others c := by
  obtain ⟨c', hhalt⟩ := interrupt_none (show 48 ≤ (128 : BitVec 8).toNat by decide) sym env others c
  refine ⟨⟨c', hhalt⟩, fun hagrees => ?_⟩
  simp only [AgreesWithDirectCall] at hagrees
  -- whether the direct call returns or not, the interrupt does neither
  split at hagrees
  · rw [hhalt] at hagrees
    cases hagrees
  · obtain ⟨c'', hreturned, -⟩ := hagrees
    rw [hhalt] at hreturned
    cases hreturned

/-- Stubs of 16 bytes, one after the other. -/
def stubRow : Stub → Word
  | .isr n => BitVec.ofNat 32 (0x100000 + 16 * n.val)
  | .irq n => BitVec.ofNat 32 (0x100200 + 16 * n.val)

theorem stubRow_injective : Function.Injective stubRow := by
  intro s s' h
  have hval := congrArg BitVec.toNat h
  cases s <;> cases s' <;> simp only [stubRow, BitVec.toNat_ofNat] at hval
  · exact congrArg Stub.isr (Fin.ext (by omega))
  · omega
  · omega
  · exact congrArg Stub.irq (Fin.ext (by omega))

def stubsInARow : Symbols := ⟨stubRow, stubRow_injective⟩

/-- The kernel after its initialisation, with `SYS_UPTIME` in `eax`. -/
def askUptime : Core where
  cpu := { gpr := fun r => if r = .eax then 100 else 0x90000, eip := 0x101000, mem := fun _ => 0,
           reads := [] }
  eflags := Core.interruptFlag
  cs := 0x08
  seg := fun _ => 0x10
  files := fsInit 0
  kernel := processInit { bitmap := fun _ => 0xFF#8, totalPages := maxPages, usedPages := maxPages }
  terminal := terminalInitialize .zero
  tick := 5

theorem int80_uptime_halts :
    ¬ ∀ (sym : Symbols) (env : SysEnv) (others : OtherHandlers) (c : Core),
      AgreesWithDirectCall sym (kernelInterrupts sym) env others c := by
  intro h
  let env : SysEnv := ⟨fun _ => 0, fun _ => 0, 0⟩
  have hagrees := h stubsInARow env (fun _ _ _ => none) askUptime
  obtain ⟨c', hhalt⟩ := interrupt_none (show 48 ≤ (128 : BitVec 8).toNat by decide) stubsInARow env
    (fun _ _ _ => none) askUptime
  have huptime : syscallSwitch env askUptime.sys (askUptime.cpu.gpr .eax) (askUptime.cpu.gpr .ebx)
      (askUptime.cpu.gpr .ecx) (askUptime.cpu.gpr .edx) = some (5, askUptime.sys) := rfl
  simp only [AgreesWithDirectCall, huptime, hhalt] at hagrees
  obtain ⟨c'', hreturned, -⟩ := hagrees
  cases hreturned

end MyMisu
