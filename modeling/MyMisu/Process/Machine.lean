import MyMisu.Lib.TransitionSystem
import MyMisu.Pmm.MemoryMap
import MyMisu.Process.State

/-!
# The machine that runs the processes

The kernel's tables together with the CPU: the execution on it and the interrupt flag.  A step is one
call made by the execution on the CPU or one timer interrupt; a `context_switch` saves that
execution in the entry `schedule` names and loads another one, which goes on in its own way.
-/

namespace MyMisu

/-! ## The interrupt flag -/

/-- The instructions of the stubs that change the flag. -/
inductive FlagInstr
  | cli | sti | iret

/-- The flag after a piece of code, with the flag `iret` pops. -/
def runFlags (eflags : Bool) (code : List FlagInstr) (flag : Bool) : Bool :=
  code.foldl (fun _ i =>
    match i with
    | .cli => false
    | .sti => true
    | .iret => eflags) flag

/-- `irq0` up to the call of `irq_handler`. -/
def irqEntry : List FlagInstr := [.cli]

/-- `irq_common` from the return of `irq_handler` on. -/
def irqExit : List FlagInstr := [.sti, .iret]

/-- `process_entry_wrapper` up to the call of the entry function. -/
def wrapperStart : List FlagInstr := [.sti]

/-! ## Machines -/

structure Cpu where
  ctx : Context
  flag : Bool
  deriving DecidableEq

/-- A call of `context_switch`: the process whose entry it wrote and the execution it saved there,
the process whose entry it read and the execution it loaded. -/
structure SwitchEvent where
  written : ℕ
  saved : ℕ
  selected : ℕ
  loaded : Option ℕ
  deriving DecidableEq

/-- `cpu` is `none` after a switch to a stack pointer that was never saved. -/
structure Machine where
  kern : Kernel
  cpu : Option Cpu
  log : List SwitchEvent

inductive Label
  | create (tick : ℕ) (name : CStr) (fn : ℕ)
  /-- The timer interrupt inside a time slice, here also with the flag clear. -/
  | tick (now : ℕ)
  /-- The timer interrupt at the end of a time slice. -/
  | timer (now : ℕ)
  | yield
  | sleep (now ticks : ℕ)
  | terminate (pid : ℕ)
  | sysExit
  | sysKill (pid : ℤ)
  /-- The entry function returns into `process_entry_wrapper`. -/
  | taskReturn

/-- `process_entry_wrapper` up to the call of the entry function, or up to its endless loop. -/
def wrapperEnter (k : Kernel) (ctx : Context) : Kernel × Context :=
  match processGetCurrent k with
  | none => (k, { ctx with self := none, returned := true })
  | some p =>
    if (k.table p).entry = 0 then
      (processReturned k p, { ctx with self := some p, returned := true })
    else (k, { ctx with self := some p, returned := false })

/-- The loaded execution goes on. -/
def Saved.load (sv : Saved) (k : Kernel) (flag : Bool) : Kernel × Cpu :=
  match sv.resume with
  | .entry => ((wrapperEnter k sv.ctx).1, ⟨(wrapperEnter k sv.ctx).2, runFlags flag wrapperStart flag⟩)
  | .call => (k, ⟨sv.ctx, flag⟩)
  | .irq eflags => (k, ⟨sv.ctx, runFlags eflags irqExit flag⟩)

/-- `mov [eax], esp` with the saved stack pointer of the entry in `eax`. -/
def Kernel.saveAt (k : Kernel) (i : Slot) (sv : Saved) : Kernel :=
  k.setProc i { k.table i with savedEsp := some sv }

/-- `context_switch`: `how` is the way the outgoing execution will go on. -/
def contextSwitch (log : List SwitchEvent) (k : Kernel) (cpu : Cpu) (sw : Switch) (how : Resume) :
    Machine :=
  let loaded := (k.table sw.next).savedEsp
  let k' := k.saveAt sw.cur ⟨cpu.ctx, how⟩
  let log := ⟨(k.table sw.cur).serial, cpu.ctx.task, (k.table sw.next).serial,
    loaded.map fun sv => sv.ctx.task⟩ :: log
  match loaded with
  | none => { kern := k', cpu := none, log := log }
  | some sv => { kern := (sv.load k' cpu.flag).1, cpu := some (sv.load k' cpu.flag).2, log := log }

namespace Machine

/-- A call from the code of a process that ends in `schedule`. -/
def callSchedule (m : Machine) (cpu : Cpu) (r : Kernel × Option Switch) : Machine :=
  match r.2 with
  | none => { m with kern := r.1 }
  | some sw => contextSwitch m.log r.1 cpu sw .call

/-- The timer interrupt with its call of `schedule`. -/
def irqSchedule (m : Machine) (cpu : Cpu) (now : ℕ) : Machine :=
  let flag := runFlags cpu.flag irqEntry cpu.flag
  let r := schedule (processTick m.kern now)
  match r.2 with
  | none => { m with kern := r.1, cpu := some { cpu with flag := runFlags cpu.flag irqExit flag } }
  | some sw => contextSwitch m.log r.1 { cpu with flag := flag } sw (.irq cpu.flag)

/-- One step of the execution on the CPU.  After its entry function has returned a task only yields. -/
def exec (m : Machine) (a : Label) : Option Machine :=
  match m.cpu with
  | none => none
  | some cpu =>
    match a with
    | .tick now => some { m with kern := processTick m.kern now }
    | .timer now => some (m.irqSchedule cpu now)
    | .yield => some (m.callSchedule cpu (processYield m.kern))
    | a =>
      if cpu.ctx.returned then none
      else
        match a with
        | .create tick name fn => some { m with kern := (processCreateKernel m.kern tick name fn).2 }
        | .sleep now ticks => some (m.callSchedule cpu (processSleep m.kern now ticks))
        | .terminate pid => some { m with kern := (processTerminate m.kern pid).2 }
        | .sysExit => some { m with kern := (sysExit m.kern).2 }
        | .sysKill pid => some { m with kern := (sysKill m.kern pid).2 }
        | .taskReturn =>
          cpu.ctx.self.map fun p =>
            { m with
              kern := processReturned m.kern p
              cpu := some { cpu with ctx := { cpu.ctx with returned := true } } }
        | _ => none

/-- The shell runs on the boot stack, with interrupts enabled. -/
def start (pmm : Pmm) : Machine where
  kern := processSetSchedulingEnabled (processInit pmm) true
  cpu := some
    { ctx := { task := 1, stack := .boot, self := none, returned := false }
      flag := true }
  log := []

end Machine

/-- The machine from `process_init` on, with scheduling enabled, on any of the given allocators. -/
def machineSystem (boot : Pmm → Prop) : TransitionSystem Machine Label :=
  .ofPartial (fun m => ∃ pmm, boot pmm ∧ m = Machine.start pmm) Machine.exec

/-- Four pages at the second megabyte. -/
def fourPagesMap : List MmapEntry := [⟨20, 0x200000, 0x4000, 1⟩]

def fourPages : Pmm := pmmBoot (bootInfo 640 3072 fourPagesMap) 0x120000 fourPagesMap

def demoName : CStr := CStr.ofString "counter"

end MyMisu
