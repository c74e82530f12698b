import MyMisu.Fs.State
import MyMisu.Pmm.State

/-!
# The process table

The functions of `process.c` on the table, with the page allocator they use.  A `saved_esp` stands
for the context on the stack it points into: whose execution that is, and how it goes on when the
stack pointer is loaded again.
-/

namespace MyMisu

abbrev maxProcesses : ℕ := 16

instance : NeZero maxProcesses := ⟨by decide⟩

abbrev Slot := Fin maxProcesses

inductive ProcState
  | unused | running | ready | blocked | terminated
  deriving DecidableEq, Repr

/-- The stack a context lives on: the one `boot.s` reserves, or a page of the allocator. -/
inductive Stack
  | boot
  | page (addr : ℕ)
  deriving DecidableEq

/-- How a saved context goes on: at the start of `process_entry_wrapper`, by returning from the call
of `schedule` it made, or by returning from the timer interrupt, which pops the saved flags. -/
inductive Resume
  | entry
  | call
  | irq (eflags : Bool)
  deriving DecidableEq

/-- An execution: the process it was started as, counting creations, its stack, the local `p` of its
`process_entry_wrapper`, and whether its entry function has returned. -/
structure Context where
  task : ℕ
  stack : Stack
  self : Option Slot
  returned : Bool
  deriving DecidableEq

structure Saved where
  ctx : Context
  resume : Resume
  deriving DecidableEq

/-- `process_t` without the fields nothing reads (`esp`, `eip`, `page_directory`); `serial` numbers
the creations and is no field of the source. -/
structure Process where
  serial : ℕ
  pid : ℕ
  name : NameArray
  state : ProcState
  savedEsp : Option Saved
  kstack : ℕ
  priority : ℕ
  ticksUsed : ℕ
  createdTick : ℕ
  wakeTick : ℕ
  entry : ℕ
  inUse : Bool

/-- An entry of the table after `memset`. -/
def Process.zero : Process where
  serial := 0
  pid := 0
  name := .zero
  state := .unused
  savedEsp := none
  kstack := 0
  priority := 0
  ticksUsed := 0
  createdTick := 0
  wakeTick := 0
  entry := 0
  inUse := false

/-- The static variables of `process.c` and `pmm.c`; `created` numbers the next creation. -/
structure Kernel where
  table : Slot → Process
  currentPid : ℕ
  nextPid : ℕ
  schedulingEnabled : Bool
  pmm : Pmm
  created : ℕ

namespace Kernel

def setProc (k : Kernel) (i : Slot) (p : Process) : Kernel :=
  { k with table := Function.update k.table i p }

@[simp] theorem setProc_self (k : Kernel) (i : Slot) (p : Process) : (k.setProc i p).table i = p :=
  Function.update_self ..

@[simp] theorem setProc_ne (k : Kernel) {i j : Slot} (p : Process) (h : j ≠ i) :
    (k.setProc i p).table j = k.table j :=
  Function.update_of_ne h ..

@[simp] theorem setProc_currentPid (k : Kernel) (i : Slot) (p : Process) :
    (k.setProc i p).currentPid = k.currentPid := rfl

@[simp] theorem setProc_pmm (k : Kernel) (i : Slot) (p : Process) :
    (k.setProc i p).pmm = k.pmm := rfl

end Kernel

def processInit (pmm : Pmm) : Kernel where
  table i :=
    if i = 0 then
      { Process.zero with
        name := ⟨strcpy NameArray.zero.bytes (CStr.ofString "kernel").bytes, by decide⟩
        state := .running
        inUse := true }
    else if i = 1 then
      { Process.zero with
        serial := 1
        pid := 1
        name := ⟨strcpy NameArray.zero.bytes (CStr.ofString "shell").bytes, by decide⟩
        state := .running
        priority := 1
        inUse := true }
    else .zero
  currentPid := 1
  nextPid := 2
  schedulingEnabled := false
  pmm := pmm
  created := 2

def processSetSchedulingEnabled (k : Kernel) (enabled : Bool) : Kernel :=
  { k with schedulingEnabled := enabled }

def findSlotByPid (k : Kernel) (pid : ℕ) : Option Slot :=
  Fin.find? fun i => (k.table i).inUse && decide ((k.table i).pid = pid)

def findUnusedSlot (k : Kernel) : Option Slot := Fin.find? fun i => !(k.table i).inUse

/-- The frame built on a new stack: the first switch to it returns into `process_entry_wrapper`. -/
def entryFrame (task stack : ℕ) : Saved where
  ctx := { task := task, stack := .page stack, self := none, returned := false }
  resume := .entry

/-- The entry a creation fills in. -/
def newProcess (k : Kernel) (old : NameArray) (tick : ℕ) (name : CStr) (fn stack : ℕ) : Process where
  serial := k.created
  pid := k.nextPid
  name := old.store name
  state := .ready
  savedEsp := some (entryFrame k.created stack)
  kstack := stack
  priority := 1
  ticksUsed := 0
  createdTick := tick
  wakeTick := 0
  entry := fn
  inUse := true

def processCreateKernel (k : Kernel) (tick : ℕ) (name : CStr) (fn : ℕ) : ℤ × Kernel :=
  match findUnusedSlot k with
  | none => (-1, k)
  | some slot =>
    let (stack, pmm) := pmmAllocPage k.pmm
    if stack = 0 then (-1, { k with pmm := pmm })
    else
      (intOfU32 k.nextPid,
        { k.setProc slot (newProcess k (k.table slot).name tick name fn stack) with
          nextPid := wrap32 (k.nextPid + 1)
          pmm := pmm
          created := k.created + 1 })

/-- The entry a creation without a stack fills in; `saved_esp` keeps what the slot held. -/
def newStacklessProcess (k : Kernel) (old : Process) (tick : ℕ) (name : CStr) (priority : ℕ) :
    Process where
  serial := k.created
  pid := k.nextPid
  name := old.name.store name
  state := .ready
  savedEsp := old.savedEsp
  kstack := 0
  priority := priority
  ticksUsed := 0
  createdTick := tick
  wakeTick := 0
  entry := 0
  inUse := true

def processCreate (k : Kernel) (tick : ℕ) (name : CStr) (priority : ℕ) : ℤ × Kernel :=
  match findUnusedSlot k with
  | none => (-1, k)
  | some slot =>
    (intOfU32 k.nextPid,
      { k.setProc slot (newStacklessProcess k (k.table slot) tick name priority) with
        nextPid := wrap32 (k.nextPid + 1)
        created := k.created + 1 })

def processTerminate (k : Kernel) (pid : ℕ) : ℤ × Kernel :=
  match findSlotByPid k pid with
  | none => (-1, k)
  | some slot =>
    if pid ≤ 1 then (-1, k)
    else
      let p := k.table slot
      (0,
        { k.setProc slot { p with state := .terminated, inUse := false, kstack := 0 } with
          pmm := if p.kstack ≠ 0 then pmmFreePage k.pmm p.kstack else k.pmm })

def processGetCurrentPid (k : Kernel) : ℕ := k.currentPid

/-- The slot `process_get_current` points to. -/
def processGetCurrent (k : Kernel) : Option Slot := findSlotByPid k k.currentPid

/-- `proc_table[slot].ticks_used++` for the current process. -/
def countTick (k : Kernel) : Kernel :=
  match findSlotByPid k k.currentPid with
  | none => k
  | some slot =>
    k.setProc slot { k.table slot with ticksUsed := wrap32 ((k.table slot).ticksUsed + 1) }

/-- A sleeper whose time has come. -/
def Process.wake (p : Process) (now : ℕ) : Process :=
  if p.inUse = true ∧ p.state = .blocked ∧ p.wakeTick ≠ 0 ∧ now ≥ p.wakeTick then
    { p with state := .ready, wakeTick := 0 }
  else p

def processTick (k : Kernel) (now : ℕ) : Kernel :=
  { countTick k with table := fun i => ((countTick k).table i).wake now }

/-! ## The scheduler -/

/-- `context_switch(&proc_table[cur].saved_esp, proc_table[next].saved_esp)` -/
structure Switch where
  cur : Slot
  next : Slot
  deriving DecidableEq

/-- `(cur_slot + i) % MAX_PROCESSES` -/
def scanSlot (cur : Slot) (i : ℕ) : Slot := ⟨(cur.val + i) % maxProcesses, Nat.mod_lt _ (by decide)⟩

def isReady (k : Kernel) (i : Slot) : Bool :=
  (k.table i).inUse && decide ((k.table i).state = .ready)

def nextReady (k : Kernel) (cur : Slot) : Option Slot :=
  ((List.range' 1 maxProcesses).map (scanSlot cur)).find? (isReady k)

/-- `cur_slot` -/
def curSlot (k : Kernel) : Slot := (findSlotByPid k k.currentPid).getD 0

/-- The transitions of the two states and of `current_pid`. -/
def Kernel.handOver (k : Kernel) (sw : Switch) : Kernel :=
  let c := k.table sw.cur
  let k := k.setProc sw.cur { c with state := if c.state = .running then .ready else c.state }
  let k := k.setProc sw.next { k.table sw.next with state := .running }
  { k with currentPid := (k.table sw.next).pid }

/-- `schedule` up to its call of `context_switch`, with the arguments of that call. -/
def schedule (k : Kernel) : Kernel × Option Switch :=
  if k.schedulingEnabled = false then (k, none)
  else
    match nextReady k (curSlot k) with
    | none => (k, none)
    | some next =>
      if next = curSlot k then (k, none)
      else (k.handOver ⟨curSlot k, next⟩, some ⟨curSlot k, next⟩)

/-- The busy wait of the pids 0 and 1 leaves the table alone. -/
def processSleep (k : Kernel) (now ticks : ℕ) : Kernel × Option Switch :=
  match findSlotByPid k k.currentPid with
  | none => (k, none)
  | some slot =>
    if k.currentPid ≤ 1 then (k, none)
    else
      schedule (k.setProc slot
        { k.table slot with state := .blocked, wakeTick := wrap32 (now + ticks) })

def processYield (k : Kernel) : Kernel × Option Switch := schedule k

/-- What `process_entry_wrapper` does to the entry `p` points to once the task has returned. -/
def processReturned (k : Kernel) (p : Slot) : Kernel :=
  k.setProc p { k.table p with state := .terminated, inUse := false }

/-! ## System calls -/

def sysExit (k : Kernel) : ℤ × Kernel :=
  if processGetCurrentPid k > 1 then (0, (processTerminate k (processGetCurrentPid k)).2) else (0, k)

def sysKill (k : Kernel) (pid : ℤ) : ℤ × Kernel :=
  if pid ≤ 1 then (Errno.eperm.ret, k) else (0, (processTerminate k (u32OfInt pid)).2)

end MyMisu
