import MyMisu.Interrupt.Idt
import MyMisu.Keyboard.State
import MyMisu.Syscall.Api

/-!
# From an interrupt to its handler

What the CPU does at an `int` instruction, the entry and exit code of `isr.s`, and `isr_handler` and
`irq_handler` of `idt.c`.  The handlers other than `syscall_handler` are a parameter.
-/

namespace MyMisu

open WordMemory X86

inductive Seg
  | ds | es | fs | gs
  deriving DecidableEq

/-- The processor and the static variables of the kernel. -/
structure Core where
  cpu : X86.Cpu
  eflags : Word
  cs : BitVec 16
  seg : Seg → BitVec 16
  files : FsState
  kernel : Kernel
  terminal : Terminal
  tick : ℕ

namespace Core

def sys (c : Core) : SysState where
  fs := c.files
  kernel := c.kernel
  terminal := c.terminal
  tick := c.tick
  mem := c.cpu.mem

def withSys (c : Core) (s : SysState) : Core :=
  { c with
    cpu := { c.cpu with mem := s.mem }
    files := s.fs
    kernel := s.kernel
    terminal := s.terminal
    tick := s.tick }

def run (c : Core) (code : List Instr) : Core := { c with cpu := X86.run c.cpu code }

/-- The lower half of `eax`. -/
def setAx (c : Core) (v : BitVec 16) : Core :=
  { c with cpu := c.cpu.setReg .eax ((c.cpu.gpr .eax).extractLsb' 16 16 ++ v) }

/-- `mov %ax, %ds` and the same for `es`, `fs` and `gs`. -/
def setSegs (c : Core) : Core :=
  { c with seg := fun _ => (c.cpu.gpr .eax).extractLsb' 0 16 }

/-- The interrupt flag of `eflags`. -/
def interruptFlag : Word := 0x200

def cli (c : Core) : Core := { c with eflags := c.eflags &&& ~~~interruptFlag }

def sti (c : Core) : Core := { c with eflags := c.eflags ||| interruptFlag }

def iret (c : Core) : Core :=
  let sp := c.cpu.gpr .esp
  { c with
    cpu := { c.cpu.setReg .esp (sp + 12) with eip := c.cpu.mem.readWord sp }
    cs := (c.cpu.mem.readWord (sp + 4)).extractLsb' 0 16
    eflags := c.cpu.mem.readWord (sp + 8) }

end Core

/-! ## The processor -/

/-- What is raised instead of entering through an entry of the table: a general protection fault if
it is no interrupt or trap gate, a segment fault if it is not present. -/
def gateFault (e : IdtEntry) : Option (Fin 32) :=
  if e.flags &&& 0x1F ≠ 0x0E ∧ e.flags &&& 0x1F ≠ 0x0F then some 13
  else if e.flags &&& 0x80 = 0 then some 11
  else none

/-- Entering through a gate, with the address to return to and the error code of an exception. -/
def enterGate (c : Core) (e : IdtEntry) (eip : Word) (errorCode : List Word) : Core :=
  let frame := [c.eflags, c.cs.setWidth 32, eip] ++ errorCode
  -- an interrupt gate clears the interrupt flag, a trap gate does not
  let flags := if e.flags &&& 0x1F = 0x0E then c.eflags &&& ~~~Core.interruptFlag else c.eflags
  { c with
    cpu := { c.cpu.pushWords frame with eip := e.base }
    cs := e.sel
    eflags := flags }

/-- `int v`, an instruction of two bytes; `none` when the processor shuts down.  An exception points
back at the instruction, and its error code names the entry at fault. -/
def softwareInt (idt : Idt) (c : Core) (v : BitVec 8) : Option Core :=
  match gateFault (idt v) with
  | none => some (enterGate c (idt v) (c.cpu.eip + 2) [])
  | some n =>
    match gateFault (idt (isrVector n)) with
    | none => some (enterGate c (idt (isrVector n)) c.cpu.eip [v.setWidth 32 <<< 3 ||| 2])
    | some _ =>
      -- the second fault turns the first into a double fault
      match gateFault (idt (isrVector 8)) with
      | none => some (enterGate c (idt (isrVector 8)) c.cpu.eip [0])
      | some _ => none

/-! ## The stubs -/

def Stub.all : List Stub := (List.finRange 32).map .isr ++ (List.finRange 16).map .irq

/-- The stub at an address. -/
def stubAt (sym : Symbols) (a : Word) : Option Stub := Stub.all.find? fun s => sym.addr s = a

/-- The exceptions defined by `ISR_ERRCODE`. -/
def hasErrorCode (n : Fin 32) : Bool := n.val ∈ [8, 10, 11, 12, 13, 14, 17, 30]

/-- The dummy error code a stub pushes unless the CPU has pushed one. -/
def Stub.dummy : Stub → List Word
  | .isr n => if hasErrorCode n then [] else [0]
  | .irq _ => [0]

/-- The number a stub pushes. -/
def Stub.number : Stub → Word
  | .isr n => BitVec.ofNat 32 n.val
  | .irq n => BitVec.ofNat 32 (32 + n.val)

/-- A stub and the first half of `isr_common` or `irq_common`, up to the call. -/
def stubEnter (c : Core) (s : Stub) : Core :=
  let c := c.cli
  let c := c.run ((s.dummy ++ [s.number]).map .pushImm)
  let c := c.run [.pushad]
  -- `mov %ds, %ax` leaves the upper half of the word that is pushed
  let c := (c.setAx (c.seg .ds)).run [.push .eax]
  let c := (c.setAx 0x10).setSegs
  c.run [.push .esp]

/-- The `registers_t*` the handler is called with: the stack pointer before it was pushed. -/
def regsPtr (c : Core) : Word := c.cpu.gpr .esp + 4

/-- The second half. -/
def stubLeave (c : Core) : Core :=
  let c := c.run [.addImm .esp 4, .pop .eax]
  let c := c.setSegs
  let c := c.run [.popad, .addImm .esp 8]
  c.sti.iret

/-! ## The handlers -/

/-- `regs->eax` and the other general registers. -/
def savedReg (mem : Mem) (regs : Word) (r : Reg) : Word := mem.readWord (regs + 4 + r.frameOffset)

/-- `regs->int_no` -/
def intNo (mem : Mem) (regs : Word) : Word := mem.readWord (regs + 36)

/-- `none` when the call it selects does not return. -/
def syscallHandler (env : SysEnv) (regs : Word) (c : Core) : Option Core :=
  let reg := savedReg c.cpu.mem regs
  (syscallSwitch env c.sys (reg .eax) (reg .ebx) (reg .ecx) (reg .edx)).map fun (r, s) =>
    -- to where `popa` takes `eax` from
    let c := c.withSys s
    { c with cpu := c.cpu.store (regs + 4 + Reg.eax.frameOffset) (BitVec.ofInt 32 r) }

/-- What the other handlers do. -/
abbrev OtherHandlers := Handler → Word → Core → Option Core

def runHandler (env : SysEnv) (others : OtherHandlers) (h : Handler) (regs : Word) (c : Core) :
    Option Core :=
  if h = .syscallHandler then syscallHandler env regs c else others h regs c

/-- `"\n  KERNEL PANIC: Exception %d  \n"` -/
def panicMsg (n : ℕ) : List UInt8 :=
  ascii "\n  KERNEL PANIC: Exception " ++ ascii (toString n) ++ ascii "  \n"

def panicScreen (env : SysEnv) (t : Terminal) (n : ℕ) : Terminal :=
  let t := terminalSetcolor t (vgaEntryColor vgaWhite vgaRed)
  let t := terminalWrite t (panicMsg n) env.keys
  terminalSetcolor t (vgaEntryColor vgaLightGrey vgaBlack)

/-- How an interrupt ends. -/
inductive Outcome
  /-- Back at the interrupted code, with the handler that was called. -/
  | returned (handler : Option Handler) (c : Core)
  /-- The handler does not return. -/
  | unfinished (handler : Handler)
  /-- The loop `for(;;) hlt` after a panic. -/
  | halted (c : Core)
  /-- The processor has shut down, or runs what is no stub. -/
  | lost

/-- `isr_handler` for an exception and `irq_handler` for a hardware interrupt, and the way back.
What `irq_handler` sends to the interrupt controllers is left out. -/
def callHandler (t : Interrupts) (env : SysEnv) (others : OtherHandlers) (s : Stub) (c : Core) :
    Outcome :=
  let regs := regsPtr c
  let n := intNo c.cpu.mem regs
  match t.handlers (n.setWidth 8), s with
  | some h, _ =>
    match runHandler env others h regs c with
    | some c => .returned (some h) (stubLeave c)
    | none => .unfinished h
  | none, .isr _ =>
    if n.toNat < 32 then .halted { c with terminal := panicScreen env c.terminal n.toNat }
    else .returned none (stubLeave c)
  | none, .irq _ => .returned none (stubLeave c)

/-- From the start of a stub until the interrupted code goes on. -/
def runStub (sym : Symbols) (t : Interrupts) (env : SysEnv) (others : OtherHandlers) (c : Core) :
    Outcome :=
  match stubAt sym c.cpu.eip with
  | none => .lost
  | some s => callHandler t env others s (stubEnter c s)

/-- `int v` -/
def interrupt (sym : Symbols) (t : Interrupts) (env : SysEnv) (others : OtherHandlers) (c : Core)
    (v : BitVec 8) : Outcome :=
  match softwareInt t.idt c v with
  | none => .lost
  | some c => runStub sym t env others c

/-- Hardware interrupt `n`, taken in front of the next instruction. -/
def hardwareInterrupt (sym : Symbols) (t : Interrupts) (env : SysEnv) (others : OtherHandlers)
    (c : Core) (n : Fin 16) : Outcome :=
  runStub sym t env others (enterGate c (t.idt (irqVector n)) c.cpu.eip [])

end MyMisu
