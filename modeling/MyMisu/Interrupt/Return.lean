import MyMisu.Interrupt.Int80

/-!
# Returning from an interrupt

The second half of a stub takes from the stack what the processor and the first half have put there.
An interrupt whose handler leaves this frame alone goes unnoticed by the code it interrupts, but for
what the handler does to memory and to the kernel's variables.
-/

namespace MyMisu

open WordMemory X86

variable {sym : Symbols} {env : SysEnv} {others : OtherHandlers} {c c₁ : Core} {s : Stub} {r : Reg}

/-! ## The second half of a stub -/

/-- The stub after `pop %eax`. -/
def popAx (c : Core) : Core := c.run [.addImm .esp 4, .pop .eax]

theorem popAx_mem (c : Core) : (popAx c).cpu.mem = c.cpu.mem :=
  popSlot_mem (c.cpu.setReg .esp (c.cpu.gpr .esp + 4)) .eax

theorem popAx_esp (c : Core) : (popAx c).cpu.gpr .esp = c.cpu.gpr .esp + 8 := by
  have hpop := popSlot_esp (c.cpu.setReg .esp (c.cpu.gpr .esp + 4)) .eax
  rw [setReg_self] at hpop
  refine hpop.trans ?_
  bv_omega

theorem popAx_eax (c : Core) :
    (popAx c).cpu.gpr .eax = c.cpu.mem.readWord (c.cpu.gpr .esp + 4) := by
  have hpop := popSlot_self (s := c.cpu.setReg .esp (c.cpu.gpr .esp + 4)) (r := .eax) (by decide)
  rw [setReg_self] at hpop
  exact hpop

/-- The stub in front of `iret`. -/
def beforeIret (c : Core) : Core := ((popAx c).setSegs.run [.popad, .addImm .esp 8]).sti

theorem beforeIret_cpu (c : Core) :
    (beforeIret c).cpu = (X86.exec (popAx c).cpu .popad).setReg .esp
      ((X86.exec (popAx c).cpu .popad).gpr .esp + 8) := rfl

theorem beforeIret_mem (c : Core) : (beforeIret c).cpu.mem = c.cpu.mem := by
  rw [beforeIret_cpu, setReg_mem, popad_mem, popAx_mem]

theorem beforeIret_esp (c : Core) : (beforeIret c).cpu.gpr .esp = c.cpu.gpr .esp + 48 := by
  rw [beforeIret_cpu, setReg_self, popad_esp, popAx_esp]
  bv_omega

theorem beforeIret_gpr (c : Core) (hr : r ≠ .esp) :
    (beforeIret c).cpu.gpr r = c.cpu.mem.readWord (c.cpu.gpr .esp + 8 + r.frameOffset) := by
  rw [beforeIret_cpu, setReg_other hr, popad_gpr hr, popAx_mem, popAx_esp]

theorem iret_gpr (c : Core) :
    c.iret.cpu.gpr = (c.cpu.setReg .esp (c.cpu.gpr .esp + 12)).gpr := rfl

/-- What the second half of a stub reads, counted from the stack pointer it starts with. -/
structure StubLeaves (c d : Core) : Prop where
  gpr : ∀ r, r ≠ .esp → d.cpu.gpr r = c.cpu.mem.readWord (c.cpu.gpr .esp + 8 + r.frameOffset)
  esp : d.cpu.gpr .esp = c.cpu.gpr .esp + 60
  eip : d.cpu.eip = c.cpu.mem.readWord (c.cpu.gpr .esp + 48)
  cs : d.cs = (c.cpu.mem.readWord (c.cpu.gpr .esp + 52)).extractLsb' 0 16
  eflags : d.eflags = c.cpu.mem.readWord (c.cpu.gpr .esp + 56)
  seg : ∀ g, d.seg g = (c.cpu.mem.readWord (c.cpu.gpr .esp + 4)).extractLsb' 0 16
  mem : d.cpu.mem = c.cpu.mem

theorem stubLeave_reads (c : Core) : StubLeaves c (stubLeave c) := by
  have hiret : stubLeave c = (beforeIret c).iret := rfl
  have hesp := beforeIret_esp c
  rw [hiret]
  constructor
  case gpr =>
    intro r hr
    rw [iret_gpr, setReg_other hr, beforeIret_gpr c hr]
  case esp =>
    rw [iret_gpr, setReg_self, hesp]
    bv_omega
  case eip =>
    show (beforeIret c).cpu.mem.readWord ((beforeIret c).cpu.gpr .esp) = _
    rw [beforeIret_mem, hesp]
  case cs =>
    show ((beforeIret c).cpu.mem.readWord ((beforeIret c).cpu.gpr .esp + 4)).extractLsb' 0 16 = _
    rw [beforeIret_mem, hesp, show c.cpu.gpr .esp + 48 + 4 = c.cpu.gpr .esp + 52 by bv_omega]
  case eflags =>
    show (beforeIret c).cpu.mem.readWord ((beforeIret c).cpu.gpr .esp + 8) = _
    rw [beforeIret_mem, hesp, show c.cpu.gpr .esp + 48 + 8 = c.cpu.gpr .esp + 56 by bv_omega]
  case seg =>
    intro g
    show ((popAx c).cpu.gpr .eax).extractLsb' 0 16 = _
    rw [popAx_eax]
  case mem => exact beforeIret_mem c

/-! ## The frame -/

/-- The words on the stack when the handler is called, in the order of their pushes. -/
def interruptFrame (c : Core) (number : Word) (saved : Reg → Word) (ds esp : Word) : List Word :=
  [c.eflags, c.cs.setWidth 32, c.cpu.eip, 0, number] ++ pushadOrder.map saved ++ [ds, esp]

/-- A hardware interrupt when its handler is called. -/
def entered (sym : Symbols) (c : Core) (n : Fin 16) : Core :=
  stubEnter (enterGate c (.gate (sym.addr (.irq n)) 0x08 0x8E) c.cpu.eip []) (.irq n)

theorem entered_stack (sym : Symbols) (c : Core) (n : Fin 16) :
    ∃ (saved : Reg → Word) (ds esp : Word), (∀ r, r ≠ .esp → saved r = c.cpu.gpr r) ∧
      ds.extractLsb' 0 16 = c.seg .ds ∧
      (entered sym c n).cpu.stack =
        pushAll c.cpu.stack (interruptFrame c (Stub.irq n).number saved ds esp) := by
  let gate := enterGate c (.gate (sym.addr (.irq n)) 0x08 0x8E) c.cpu.eip []
  have hgate : gate.cpu.stack = pushAll c.cpu.stack [c.eflags, c.cs.setWidth 32, c.cpu.eip] :=
    pushWords_stack _ _
  obtain ⟨saved, ds, esp, hsaved, hds, hstack⟩ := stubEnter_stack gate (.irq n)
  refine ⟨saved, ds, esp, fun r hr => (hsaved r hr).trans (setReg_other hr _), hds, ?_⟩
  refine hstack.trans ?_
  rw [hgate, ← pushAll_append, ← pushAll_append]
  rfl

/-- What a handler has to leave alone: the stack pointer and the frame above its argument. -/
structure FrameKept (c d : Core) : Prop where
  esp : d.cpu.gpr .esp = c.cpu.gpr .esp
  mem : Set.EqOn d.cpu.mem c.cpu.mem (bytes (c.cpu.gpr .esp + 4) 56)

/-- The words of the frame after the handler, all but its argument, counted from the stack pointer of the
interrupted code. -/
theorem frame_read {frame : List Word} (hlength : frame.length = 15) {d : Core} {st : Mem × Word}
    (hstack : d.cpu.stack = pushAll st frame) (hkept : FrameKept d c₁) {i : ℕ} (hi : i < 14)
    {a : Word} (ha : a = c₁.cpu.gpr .esp + BitVec.ofNat 32 (4 * (14 - i))) :
    c₁.cpu.mem.readWord a = frame[i] := by
  have hesp : d.cpu.gpr .esp = st.2 - BitVec.ofNat 32 (4 * 15) := by
    have hsnd := congrArg Prod.snd hstack
    rw [pushAll_snd, hlength] at hsnd
    exact hsnd
  have hmem : d.cpu.mem = (pushAll st frame).1 := congrArg Prod.fst hstack
  have hread := pushAll_read st frame (by omega) (i := i) (by omega)
  have haddr : a = st.2 - BitVec.ofNat 32 (4 * (i + 1)) := by
    rw [ha, hkept.esp, hesp]
    bv_omega
  -- the word is in the part of the stack the handler leaves alone
  have hin : bytes a 4 ⊆ bytes (d.cpu.gpr .esp + 4) 56 := by
    obtain ⟨j, hj⟩ : ∃ j, 14 - i = j + 1 := ⟨13 - i, by omega⟩
    have hoff : a - (d.cpu.gpr .esp + 4) = BitVec.ofNat 32 (4 * j) := by
      rw [ha, hkept.esp, hj, Nat.mul_succ, BitVec.ofNat_add]
      generalize BitVec.ofNat 32 (4 * j) = off
      bv_omega
    apply bytes_subset
    rw [hoff, BitVec.toNat_ofNat]
    omega
  rw [readWord_congr (hkept.mem.mono hin), hmem, haddr, hread]

/-! ## Hardware interrupts -/

/-- The interrupted code cannot tell that it was interrupted from its registers. -/
structure Unnoticed (c d : Core) : Prop where
  gpr : ∀ r, d.cpu.gpr r = c.cpu.gpr r
  eip : d.cpu.eip = c.cpu.eip
  cs : d.cs = c.cs
  eflags : d.eflags = c.eflags
  ds : ∀ g, d.seg g = c.seg .ds

/-- The second half of the stub gives back what the interrupt has saved. -/
theorem stubLeave_unnoticed (sym : Symbols) (c : Core) (n : Fin 16)
    (hkept : FrameKept (entered sym c n) c₁) : Unnoticed c (stubLeave c₁) := by
  obtain ⟨saved, ds, esp, hsaved, hds, hstack⟩ := entered_stack sym c n
  have hleave := stubLeave_reads c₁
  have hesp : c₁.cpu.gpr .esp = c.cpu.gpr .esp - 60 := by
    have hsnd := congrArg Prod.snd hstack
    rw [pushAll_snd] at hsnd
    exact hkept.esp.trans hsnd
  constructor
  case gpr =>
    intro r
    by_cases hr : r = .esp
    · rw [hr, hleave.esp, hesp]
      bv_omega
    · -- `popa` takes the registers in the reverse of the order of their pushes
      have hidx : popadOrder.idxOf r < 8 := by cases r <;> decide
      have hread := frame_read rfl hstack hkept (i := 12 - popadOrder.idxOf r) (by omega)
        (a := c₁.cpu.gpr .esp + 8 + r.frameOffset)
        (by rw [Reg.frameOffset]; bv_omega)
      rw [hleave.gpr r hr, hread, ← hsaved r hr]
      cases r <;> rfl
  case eip =>
    rw [hleave.eip,
      frame_read rfl hstack hkept (i := 2) (a := c₁.cpu.gpr .esp + 48) (by decide) rfl]
    rfl
  case cs =>
    rw [hleave.cs,
      frame_read rfl hstack hkept (i := 1) (a := c₁.cpu.gpr .esp + 52) (by decide) rfl]
    -- the selector was pushed as a whole word
    show (c.cs.setWidth 32).extractLsb' 0 16 = c.cs
    rw [BitVec.extractLsb'_setWidth_of_le (by decide), BitVec.extractLsb'_eq_self]
  case eflags =>
    rw [hleave.eflags,
      frame_read rfl hstack hkept (i := 0) (a := c₁.cpu.gpr .esp + 56) (by decide) rfl]
    rfl
  case ds =>
    intro g
    rw [hleave.seg g,
      frame_read rfl hstack hkept (i := 13) (a := c₁.cpu.gpr .esp + 4) (by decide) rfl, ← hds]
    rfl

/-- `syscall_handler` is not registered for a hardware interrupt. -/
theorem kernelInterrupts_irq_handler (n : Fin 16) :
    (kernelInterrupts sym).handlers (irqVector n) ≠ some .syscallHandler := by
  have hne : irqVector n ≠ 128 := by
    intro h
    have hval := congrArg BitVec.toNat h
    have h128 : (128 : BitVec 8).toNat = 128 := rfl
    rw [irqVector_toNat, h128] at hval
    omega
  show Function.update (Function.update (Function.update (fun _ => none) (128 : BitVec 8) _)
    (32 : BitVec 8) _) (33 : BitVec 8) _ _ ≠ _
  simp only [Function.update_apply, if_neg hne]
  split_ifs <;> simp

theorem setWidth_irqNumber (n : Fin 16) : (Stub.irq n).number.setWidth 8 = irqVector n := by
  apply BitVec.eq_of_toNat_eq
  rw [irqVector_toNat, Stub.number, BitVec.toNat_setWidth, BitVec.toNat_ofNat]
  omega

theorem hardwareInterrupt_eq (n : Fin 16) :
    hardwareInterrupt sym (kernelInterrupts sym) env others c n =
      callHandler (kernelInterrupts sym) env others (.irq n) (entered sym c n) := by
  unfold hardwareInterrupt runStub
  rw [kernelInterrupts_irq]
  have heip : (enterGate c (.gate (sym.addr (.irq n)) 0x08 0x8E) c.cpu.eip []).cpu.eip =
      sym.addr (.irq n) := gate_base _ _ _
  rw [heip, stubAt_addr]
  rfl

/-- A hardware interrupt that comes back leaves the registers of the interrupted code as they were,
if the handlers of the timer and the keyboard leave the frame on the stack alone. -/
theorem hardwareInterrupt_unnoticed
    (hothers : ∀ h regs c c', others h regs c = some c' → FrameKept c c') (n : Fin 16)
    {handler : Option Handler} {d : Core}
    (hreturned : hardwareInterrupt sym (kernelInterrupts sym) env others c n =
      .returned handler d) :
    Unnoticed c d := by
  have hsys := @kernelInterrupts_irq_handler sym n
  have hintNo : intNo (entered sym c n).cpu.mem (regsPtr (entered sym c n)) = _ :=
    stubEnter_intNo _ (.irq n)
  rw [hardwareInterrupt_eq] at hreturned
  simp only [callHandler, hintNo, setWidth_irqNumber] at hreturned
  cases hhandler : (kernelInterrupts sym).handlers (irqVector n) with
  | none =>
    rw [hhandler] at hreturned
    -- nothing happens between the halves of the stub
    cases hreturned
    exact stubLeave_unnoticed sym c n ⟨rfl, fun _ _ => rfl⟩
  | some h =>
    have hne : h ≠ .syscallHandler := fun heq => hsys (heq ▸ hhandler)
    simp only [hhandler, runHandler, if_neg hne] at hreturned
    cases hran : others h (regsPtr (entered sym c n)) (entered sym c n) with
    | none =>
      rw [hran] at hreturned
      cases hreturned
    | some c₁ =>
      rw [hran] at hreturned
      cases hreturned
      exact stubLeave_unnoticed sym c n (hothers _ _ _ _ hran)

theorem hardwareInterrupt_unnoticed_timer :
    Unnoticed askUptime (stubLeave (entered stubsInARow askUptime 0)) := by
  let env : SysEnv := ⟨fun _ => 0, fun _ => 0, 0⟩
  have hreturned : hardwareInterrupt stubsInARow (kernelInterrupts stubsInARow) env
      (fun _ _ c => some c) askUptime 0 =
        .returned (some .timerCallback) (stubLeave (entered stubsInARow askUptime 0)) := by
    have hhandler : (kernelInterrupts stubsInARow).handlers (irqVector 0) = some .timerCallback := rfl
    have hintNo : intNo (entered stubsInARow askUptime 0).cpu.mem
        (regsPtr (entered stubsInARow askUptime 0)) = _ := stubEnter_intNo _ (.irq 0)
    rw [hardwareInterrupt_eq]
    simp only [callHandler, hintNo, setWidth_irqNumber, hhandler]
    rfl
  apply hardwareInterrupt_unnoticed _ 0 hreturned
  intro h regs c c' hran
  cases hran
  exact ⟨rfl, fun _ _ => rfl⟩

end MyMisu
