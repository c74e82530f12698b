import MyMisu.Process.Serials
import MyMisu.Process.Stacks
import MyMisu.Process.Statements

/-!
# The timer inside `schedule`

`schedule` stores `current_pid` one statement before `context_switch` changes the stack.  A timer
interrupt between the two takes the process that is selected for the one on the CPU; in front of all
other statements the process with the current pid is the one whose stack the CPU is on, unless that
process has ended and is not in the table any more.
-/

namespace MyMisu

/-! ## Histories -/

/-- The statements with the last stack pointer saved for each process, by its serial. -/
structure Traced where
  run : Interleaved CallAt
  lastSaved : ℕ → Option Saved

/-- `context_switch` saves a stack pointer of the execution on the CPU. -/
def Traced.exec (t : Traced) (a : StmtLabel) : Option Traced :=
  (t.run.exec a).map fun s =>
    { run := s
      lastSaved :=
        match t.run.switches a with
        | none => t.lastSaved
        | some e => Function.update t.lastSaved e.cpu.ctx.task (some ⟨e.cpu.ctx, e.how⟩) }

/-- `context_switch` writes the entry of the process whose stack the CPU is on, and loads the last
stack pointer saved for the process with the current pid. -/
structure SwitchSafe (lastSaved : ℕ → Option Saved) (e : SwitchCall) : Prop where
  task : (e.kern.table e.sw.cur).serial = e.cpu.ctx.task
  stack : (e.kern.table e.sw.cur).stack = e.cpu.ctx.stack
  current : findSlotByPid e.kern e.kern.currentPid = some e.sw.next
  loaded : ∃ sv, (e.kern.table e.sw.next).savedEsp = some sv ∧
    lastSaved (e.kern.table e.sw.next).serial = some sv

/-- The step makes no other calls of `context_switch`. -/
def SafeStep (t : Traced) (a : StmtLabel) : Prop :=
  ∀ e, t.run.switches a = some e → SwitchSafe t.lastSaved e

/-- No time slice ends between the store of `current_pid` and `context_switch` with a process other
than the selected one ready. -/
def OutsideWindow (t : Traced) (a : StmtLabel) : Prop :=
  a = .timer → (switchAt t.run.code).isSome = true → ¬ t.run.Preempts

/-- A slice that ends does not end between `current_pid` and `context_switch`. -/
theorem OutsideWindow.noSwitch {t : Traced} (h : OutsideWindow t .timer) (hp : t.run.Preempts) :
    switchAt t.run.code = none := by
  rw [← Option.not_isSome_iff_eq_none]
  exact fun hwindow => h rfl hwindow hp

/-- An entry in use is that of the process on the CPU. -/
def Traced.HasEntry (t : Traced) : Prop :=
  ∃ i c, t.run.machine.cpu = some c ∧ (t.run.machine.kern.table i).inUse = true ∧
    (t.run.machine.kern.table i).serial = c.ctx.task

/-- The step calls `context_switch`. -/
def Traced.CallsSwitch (t : Traced) : StmtLabel → Prop
  | .next => (switchAt t.run.code).isSome = true
  | .timer => t.run.Preempts
  | .yield | .sleep _ => False

/-- The step is no interrupt in the window, and no process that has ended is switched out. -/
structure Undisturbed (t : Traced) (a : StmtLabel) : Prop where
  window : OutsideWindow t a
  entry : t.CallsSwitch a → t.HasEntry

/-- The entry of a process that waits for the CPU. -/
structure Waiting (lastSaved : ℕ → Option Saved) (p : Process) : Prop where
  last : ∀ sv, p.savedEsp = some sv → lastSaved p.serial = some sv ∧
    sv.ctx.task = p.serial ∧ sv.ctx.stack = p.stack ∧ (sv.resume = .entry → p.entry ≠ 0)
  unsaved : p.savedEsp = none → p.state = .running

/-- The process in slot `me` is on the CPU and the others wait. -/
structure Residents (k : Kernel) (lastSaved : ℕ → Option Saved) (me : Slot) : Prop where
  inUse : (k.table me).inUse = true
  pids : ∀ i j, (k.table i).inUse = true → (k.table j).inUse = true →
    (k.table i).pid = (k.table j).pid → i = j
  serials : ∀ i j, (k.table i).inUse = true → (k.table j).inUse = true →
    (k.table i).serial = (k.table j).serial → i = j
  waiting : ∀ i, (k.table i).inUse = true → i ≠ me → Waiting lastSaved (k.table i)

/-- The context is that of the process. -/
structure Context.Of (ctx : Context) (p : Process) : Prop where
  task : ctx.task = p.serial
  stack : ctx.stack = p.stack

/-- The process on the CPU is in the table, and nobody waits inside a call. -/
structure Traced.Settled (t : Traced) : Prop where
  parked : ∀ i, t.run.parked i = none
  residents : ∃ me c, t.run.machine.cpu = some c ∧
    c.ctx.Of (t.run.machine.kern.table me) ∧
    t.run.machine.kern.currentPid = (t.run.machine.kern.table me).pid ∧
    Residents t.run.machine.kern t.lastSaved me

/-- The process on the CPU is not in the table any more, but pid 0 is, whose slot `schedule` takes
then. -/
structure Traced.Ended (t : Traced) : Prop where
  noEntry : ¬ t.HasEntry
  kernel : (t.run.machine.kern.table 0).inUse = true

/-- No call of `schedule` or `process_sleep` has begun. -/
structure Traced.Start (t : Traced) : Prop where
  code : t.run.code = none
  process : t.Settled ∨ t.Ended

def tracedSystem : TransitionSystem Traced StmtLabel := .ofPartial Traced.Start Traced.exec

/-! ## The locals -/

/-- The process can be switched to. -/
def Selectable (k : Kernel) (i : Slot) : Prop :=
  (k.table i).inUse = true ∧ (k.table i).savedEsp.isSome = true

/-- A switch from the process in slot `me` to another one. -/
structure SwitchFrom (k : Kernel) (me : Slot) (sw : Switch) : Prop where
  cur : sw.cur = me
  next : Selectable k sw.next
  ne : sw.next ≠ me

/-- The locals of `schedule` in the process in slot `me`. -/
def SchedAt.Locals (k : Kernel) (me : Slot) : SchedAt → Prop
  | .enabled | .findCur => True
  | .defaultCur cur => cur = some me
  | .scan cur _ => cur = me
  | .found cur next => cur = me ∧ ∀ i, next = some i → i ≠ me → Selectable k i
  | .same sw => sw.cur = me ∧ (sw.next ≠ me → Selectable k sw.next)
  | .test sw | .setReady sw | .setRunning sw | .oldPid sw | .setCurrent sw | .switch sw =>
    SwitchFrom k me sw

/-- The locals of a process in `schedule` or `process_sleep`. -/
def CallAt.Locals (k : Kernel) (me : Slot) : CallAt → Prop
  | .sched p => p.Locals k me
  | .sleep _ .findSlot | .sleep _ .start | .sleep _ (.wait _) => True
  | .sleep _ (.test slot) => slot = some me
  | .sleep _ (.block slot) | .sleep _ (.setWake slot) => slot = me

/-- A saved execution is not between the store of `current_pid` and `context_switch`. -/
def ParkedAt (k : Kernel) (i : Slot) (q : Option CallAt) : Prop :=
  switchAt q = none ∧ ∀ p, q = some p → p.Locals k i

/-- The slot of the current pid: in front of `context_switch` that of the process selected. -/
def currentAt (me : Slot) (q : Option CallAt) : Slot :=
  match switchAt q with
  | some sw => sw.next
  | none => me

/-- The invariant, for the process in slot `me` on the CPU. -/
structure Orderly (t : Traced) (me : Slot) : Prop where
  cpu : ∃ c, t.run.machine.cpu = some c ∧ c.ctx.Of (t.run.machine.kern.table me)
  residents : Residents t.run.machine.kern t.lastSaved me
  current : t.run.machine.kern.currentPid =
    (t.run.machine.kern.table (currentAt me t.run.code)).pid
  locals : ∀ p, t.run.code = some p → p.Locals t.run.machine.kern me
  parked : ∀ i, (t.run.machine.kern.table i).inUse = true → i ≠ me →
    ParkedAt t.run.machine.kern i (t.run.parked i)

variable {k k' : Kernel} {me i : Slot} {lastSaved : ℕ → Option Saved}

theorem Selectable.owner (howner : (k.table i).SameOwner (k'.table i)) (h : Selectable k i) :
    Selectable k' i := by
  constructor
  · rw [howner.inUse]
    exact h.1
  · rw [howner.savedEsp]
    exact h.2

theorem SwitchFrom.mono {sw : Switch} (hsel : ∀ i, Selectable k i → Selectable k' i)
    (h : SwitchFrom k me sw) : SwitchFrom k' me sw :=
  ⟨h.cur, hsel _ h.next, h.ne⟩

theorem CallAt.Locals.mono {p : CallAt} (hsel : ∀ i, Selectable k i → Selectable k' i)
    (h : p.Locals k me) : p.Locals k' me := by
  cases p with
  | sleep ticks p => cases p <;> exact h
  | sched p =>
    cases p with
    | enabled | findCur | defaultCur | scan => exact h
    | found cur next => exact ⟨h.1, fun i hi hne => hsel i (h.2 i hi hne)⟩
    | same sw => exact ⟨h.1, fun hne => hsel _ (h.2 hne)⟩
    | test sw | setReady sw | setRunning sw | oldPid sw | setCurrent sw | switch sw =>
      exact SwitchFrom.mono hsel h

theorem ParkedAt.mono {q : Option CallAt} (hsel : ∀ i, Selectable k i → Selectable k' i)
    (h : ParkedAt k i q) : ParkedAt k' i q :=
  ⟨h.1, fun p hp => (h.2 p hp).mono hsel⟩

/-! ## Statements -/

/-- The owners stay, and of the processes that wait the running ones run on. -/
structure Quiet (k k' : Kernel) (me : Slot) : Prop where
  owner : ∀ i, (k.table i).SameOwner (k'.table i)
  running : ∀ i, i ≠ me → (k.table i).state = .running → (k'.table i).state = .running

namespace Quiet

theorem refl (k : Kernel) (me : Slot) : Quiet k k me := ⟨fun _ => .refl _, fun _ _ h => h⟩

theorem setProc {p : Process} (howner : (k.table i).SameOwner p)
    (hrun : i ≠ me → (k.table i).state = .running → p.state = .running) :
    Quiet k (k.setProc i p) me where
  owner j := howner.setProc j
  running j hj hstate := by
    by_cases hji : j = i
    · rw [hji, Kernel.setProc_self]
      rw [hji] at hj hstate
      exact hrun hj hstate
    · rw [Kernel.setProc_ne _ _ hji]
      exact hstate

theorem processTick (k : Kernel) (now : ℕ) (me : Slot) : Quiet k (processTick k now) me where
  owner i := processTick_sameOwner k now i
  running i _ hstate := by
    show (((countTick k).table i).wake now).state = .running
    have hcount : ((countTick k).table i).state = .running := by
      rw [countTick_state, hstate]
    rw [wake_state (by rw [hcount]; decide), hcount]

theorem handOver (k : Kernel) (sw : Switch) (hne : sw.next ≠ sw.cur) :
    Quiet k (k.handOver sw) sw.cur where
  owner i := handOver_sameOwner k sw hne i
  running _ hi hstate := handOver_running k hi hstate

theorem trans {k'' : Kernel} (h : Quiet k k' me) (h' : Quiet k' k'' me) : Quiet k k'' me :=
  ⟨fun i => (h.owner i).trans (h'.owner i), fun i hi hstate => h'.running i hi (h.running i hi hstate)⟩

theorem selectable (h : Quiet k k' me) (i : Slot) (hi : Selectable k i) : Selectable k' i :=
  hi.owner (h.owner i)

end Quiet

theorem Residents.quiet (h : Residents k lastSaved me) (hk : Quiet k k' me) :
    Residents k' lastSaved me where
  inUse := by
    rw [(hk.owner me).inUse]
    exact h.inUse
  pids := Kernel.TellsApart.mono (f := Process.pid) h.pids fun i hi =>
    ⟨(hk.owner i).used hi, (hk.owner i).pid⟩
  serials := Kernel.TellsApart.mono (f := Process.serial) h.serials fun i hi =>
    ⟨(hk.owner i).used hi, (hk.owner i).serial⟩
  waiting i hi hne := by
    rw [(hk.owner i).inUse] at hi
    have hwait := h.waiting i hi hne
    constructor
    · intro sv hsv
      rw [(hk.owner i).savedEsp] at hsv
      rw [(hk.owner i).serial, (hk.owner i).stack, (hk.owner i).entry]
      exact hwait.last sv hsv
    · intro hsv
      rw [(hk.owner i).savedEsp] at hsv
      exact hk.running i hne (hwait.unsaved hsv)

theorem Residents.find (h : Residents k lastSaved me) (hi : (k.table i).inUse = true)
    (hcur : k.currentPid = (k.table i).pid) : findSlotByPid k k.currentPid = some i := by
  have ⟨j, hj⟩ := Option.isSome_iff_exists.mp (findSlotByPid_isSome hi hcur.symm)
  have ⟨huse, hpid⟩ := findSlotByPid_some hj
  rw [hj, h.pids j i huse hi (hpid.trans hcur)]

/-- What a statement does in the process in slot `me`. -/
structure StmtDone (k : Kernel) (me : Slot) (r : Kernel × Option CallAt) : Prop where
  quiet : Quiet k r.1 me
  current : r.1.currentPid = (r.1.table (currentAt me r.2)).pid
  locals : ∀ p, r.2 = some p → p.Locals r.1 me

theorem StmtDone.next {p : CallAt} (hk : Quiet k k' me) (hcur : k'.currentPid = (k.table me).pid)
    (hat : switchAt (some p) = none) (hp : p.Locals k me) : StmtDone k me (k', some p) where
  quiet := hk
  current := by
    unfold currentAt
    simp only [hat]
    rw [(hk.owner me).pid]
    exact hcur
  locals q hq := by
    cases hq
    exact hp.mono hk.selectable

section Statements

variable (hfind : findSlotByPid k k.currentPid = some me)

include hfind

theorem stmtDone_return : StmtDone k me (k, none) where
  quiet := .refl k me
  current := (findSlotByPid_some hfind).2.symm
  locals _ hp := by cases hp

theorem stmtDone_keep {p : CallAt} (hat : switchAt (some p) = none) (hp : p.Locals k me) :
    StmtDone k me (k, some p) :=
  .next (.refl k me) (findSlotByPid_some hfind).2.symm hat hp

theorem schedStmt_done {p : SchedAt} (hp : p.Locals k me)
    (hready : ∀ i, isReady k i = true → i ≠ me → Selectable k i)
    (hat : switchAt (some (.sched p)) = none) (tick : ℕ) :
    StmtDone k me (callStmt k tick (.sched p)) := by
  have hcur := (findSlotByPid_some hfind).2.symm
  cases p with
  | enabled =>
    by_cases hoff : k.schedulingEnabled = false
    · simp only [callStmt, schedStmt, hoff, if_true, Option.map_none]
      exact stmtDone_return hfind
    · simp only [callStmt, schedStmt]
      rw [if_neg hoff]
      exact stmtDone_keep hfind rfl trivial
  | findCur => exact stmtDone_keep hfind rfl hfind
  | defaultCur cur =>
    have hcur : cur = some me := hp
    have hslot : cur.getD 0 = me := by rw [hcur, Option.getD_some]
    exact stmtDone_keep hfind rfl hslot
  | scan cur i =>
    by_cases hi : i ≤ maxProcesses
    -- s is only a candidate until the test of in_use and state; a READY one has been switched out
    · by_cases hsel : isReady k (scanSlot cur i) = true
      · simp only [callStmt, schedStmt, hi, hsel, if_true, Option.map_some]
        refine stmtDone_keep hfind rfl ⟨hp, fun j hj hne => ?_⟩
        cases hj
        exact hready _ hsel hne
      · simp only [callStmt, schedStmt, hi, hsel, if_true, Bool.false_eq_true, if_false,
          Option.map_some]
        exact stmtDone_keep hfind rfl hp
    · simp only [callStmt, schedStmt, hi, if_false, Option.map_some]
      exact stmtDone_keep hfind rfl ⟨hp, fun j hj => by cases hj⟩
  | found cur next =>
    cases next with
    | none => exact stmtDone_return hfind
    | some next => exact stmtDone_keep hfind rfl ⟨hp.1, hp.2 next rfl⟩
  | same sw =>
    -- if (next_slot == cur_slot) return;
    by_cases hne : sw.next = sw.cur
    · simp only [callStmt, schedStmt, hne, if_true, Option.map_none]
      exact stmtDone_return hfind
    · simp only [callStmt, schedStmt, hne, if_false, Option.map_some]
      rw [hp.1] at hne
      exact stmtDone_keep hfind rfl ⟨hp.1, hp.2 hne, hne⟩
  | test sw =>
    by_cases hrun : (k.table sw.cur).state = .running
    · simp only [callStmt, schedStmt, hrun, if_true, Option.map_some]
      exact stmtDone_keep hfind rfl hp
    · simp only [callStmt, schedStmt, hrun, if_false, Option.map_some]
      exact stmtDone_keep hfind rfl hp
  | setReady sw =>
    -- the process on the CPU does not wait
    exact .next (.setProc ⟨rfl, rfl, rfl, rfl, rfl, rfl⟩ fun hne => absurd hp.cur hne) hcur rfl hp
  | setRunning sw => exact .next (.setProc ⟨rfl, rfl, rfl, rfl, rfl, rfl⟩ fun _ _ => rfl) hcur rfl hp
  | oldPid sw => exact stmtDone_keep hfind rfl hp
  | setCurrent sw =>
    -- here the current pid becomes that of the process selected
    have hsw : SwitchFrom k me sw := hp
    refine ⟨⟨fun _ => .refl _, fun _ _ h => h⟩, rfl, ?_⟩
    intro q hq
    cases hq
    exact ⟨hsw.cur, hsw.next, hsw.ne⟩
  | switch sw => cases hat

theorem sleepStmt_done {p : SleepAt} {ticks : ℕ} (hp : (CallAt.sleep ticks p).Locals k me)
    (tick : ℕ) : StmtDone k me (callStmt k tick (.sleep ticks p)) := by
  have hcur := (findSlotByPid_some hfind).2.symm
  cases p with
  | findSlot => exact stmtDone_keep hfind rfl hfind
  | test slot =>
    have hslot : slot = some me := hp
    rw [hslot]
    by_cases hpid : k.currentPid ≤ 1
    · simp only [callStmt, sleepStmt, hpid, if_true]
      exact stmtDone_keep hfind rfl trivial
    · simp only [callStmt, sleepStmt, hpid, if_false]
      exact stmtDone_keep hfind rfl rfl
  | start => exact stmtDone_keep hfind rfl trivial
  | wait start =>
    by_cases hwait : loopWaits start tick ticks
    · simp only [callStmt, sleepStmt, hwait, if_true]
      exact stmtDone_keep hfind rfl trivial
    · simp only [callStmt, sleepStmt, hwait, if_false]
      exact stmtDone_return hfind
  | block slot =>
    exact .next (.setProc ⟨rfl, rfl, rfl, rfl, rfl, rfl⟩ fun hne => absurd hp hne) hcur rfl hp
  | setWake slot => exact .next (.setProc ⟨rfl, rfl, rfl, rfl, rfl, rfl⟩ fun _ h => h) hcur rfl trivial

end Statements

/-! ## Switches -/

theorem saveAt_fields (k : Kernel) (i j : Slot) (sv : Saved) :
    ((k.saveAt i sv).table j).inUse = (k.table j).inUse ∧
      ((k.saveAt i sv).table j).pid = (k.table j).pid ∧
      ((k.saveAt i sv).table j).serial = (k.table j).serial := by
  unfold Kernel.saveAt
  by_cases hj : j = i
  · rw [hj, Kernel.setProc_self]
    exact ⟨rfl, rfl, rfl⟩
  · rw [Kernel.setProc_ne _ _ hj]
    exact ⟨rfl, rfl, rfl⟩

theorem Selectable.saveAt {sv : Saved} {j : Slot} (h : Selectable k i) :
    Selectable (k.saveAt j sv) i := by
  refine ⟨by rw [(saveAt_fields k j i sv).1, h.1], ?_⟩
  unfold Kernel.saveAt
  by_cases hi : i = j
  · rw [hi, Kernel.setProc_self]
    rfl
  · rw [Kernel.setProc_ne _ _ hi]
    exact h.2

/-- The call of `context_switch` is made by the process in slot `me`, which goes on at `back`. -/
structure Leaves (s : Interleaved CallAt) (lastSaved : ℕ → Option Saved) (me : Slot)
    (e : SwitchCall) (back : Option CallAt) : Prop where
  residents : Residents e.kern lastSaved me
  ctx : e.cpu.ctx.Of (e.kern.table me)
  switch : SwitchFrom e.kern me e.sw
  current : e.kern.currentPid = (e.kern.table e.sw.next).pid
  how : e.how ≠ .entry
  back : ParkedAt e.kern me back
  parked : ∀ i, (e.kern.table i).inUse = true → i ≠ me → ParkedAt e.kern i (s.parked i)

namespace Leaves

variable {s : Interleaved CallAt} {e : SwitchCall} {back : Option CallAt}

/-- The entry of the process selected. -/
theorem selected (h : Leaves s lastSaved me e back) :
    ∃ sv, (e.kern.table e.sw.next).savedEsp = some sv ∧
      lastSaved (e.kern.table e.sw.next).serial = some sv ∧
      sv.ctx.Of (e.kern.table e.sw.next) ∧
      (sv.resume = .entry → (e.kern.table e.sw.next).entry ≠ 0) := by
  have ⟨huse, hsome⟩ := h.switch.next
  have ⟨sv, hsv⟩ := Option.isSome_iff_exists.mp hsome
  have ⟨hlast, htask, hstack, hentry⟩ := (h.residents.waiting _ huse h.switch.ne).last sv hsv
  exact ⟨sv, hsv, hlast, ⟨htask, hstack⟩, hentry⟩

theorem safe (h : Leaves s lastSaved me e back) : SwitchSafe lastSaved e where
  task := by rw [h.switch.cur, h.ctx.task]
  stack := by rw [h.switch.cur, h.ctx.stack]
  current := h.residents.find h.switch.next.1 h.current
  loaded := by
    have ⟨sv, hsv, hlast, _⟩ := h.selected
    exact ⟨sv, hsv, hlast⟩

/-- The stack pointer saved is the last one of the process that leaves, and those of the others are
left alone. -/
theorem residents_saveAt (h : Leaves s lastSaved me e back) :
    Residents (e.kern.saveAt me ⟨e.cpu.ctx, e.how⟩)
      (Function.update lastSaved e.cpu.ctx.task (some ⟨e.cpu.ctx, e.how⟩)) e.sw.next where
  inUse := by
    unfold Kernel.saveAt
    rw [Kernel.setProc_ne _ _ h.switch.ne]
    exact h.switch.next.1
  pids := Kernel.TellsApart.mono (f := Process.pid) h.residents.pids fun i hi =>
    ⟨(saveAt_fields ..).1.symm.trans hi, (saveAt_fields ..).2.1⟩
  serials := Kernel.TellsApart.mono (f := Process.serial) h.residents.serials fun i hi =>
    ⟨(saveAt_fields ..).1.symm.trans hi, (saveAt_fields ..).2.2⟩
  waiting i hi hne := by
    rw [(saveAt_fields ..).1] at hi
    by_cases hme : i = me
    · rw [hme]
      unfold Kernel.saveAt
      rw [Kernel.setProc_self]
      -- the process that leaves: its frame has just been stored
      constructor
      · intro sv hsv
        rw [← Option.some.inj hsv]
        refine ⟨?_, h.ctx.task, h.ctx.stack, fun hentry => absurd hentry h.how⟩
        show Function.update _ _ _ (e.kern.table me).serial = _
        rw [h.ctx.task, Function.update_self]
      · intro hsv
        cases hsv
    -- another process: serials tell the two apart, so neither its frame nor its record moves
    · have hother : (e.kern.table i).serial ≠ e.cpu.ctx.task := by
        rw [h.ctx.task]
        exact fun hserial => hme (h.residents.serials i me hi h.residents.inUse hserial)
      have hwait := h.residents.waiting i hi hme
      unfold Kernel.saveAt
      rw [Kernel.setProc_ne _ _ hme]
      refine ⟨fun sv hsv => ?_, hwait.unsaved⟩
      rw [Function.update_of_ne hother]
      exact hwait.last sv hsv

/-- `process_entry_wrapper` finds the process it was started for, with an entry function. -/
theorem machine (h : Leaves s lastSaved me e back) :
    (s.switchTo e back).machine.kern = e.kern.saveAt me ⟨e.cpu.ctx, e.how⟩ ∧
      ∃ c, (s.switchTo e back).machine.cpu = some c ∧ c.ctx.Of (e.kern.table e.sw.next) := by
  have ⟨sv, hsv, _, hof, hentry⟩ := h.selected
  have ⟨hkern, hcpu⟩ := contextSwitch_saved s.machine.log e.cpu e.how hsv
  rw [h.switch.cur] at hkern hcpu
  constructor
  · apply hkern.trans
    apply load_kernel
    intro hresume p hp
    -- at its first switch the wrapper looks up current_pid, which is the pid of the new process
    have hnext : findSlotByPid (e.kern.saveAt me ⟨e.cpu.ctx, e.how⟩) e.kern.currentPid =
        some e.sw.next := by
      apply h.residents_saveAt.find h.residents_saveAt.inUse
      rw [(saveAt_fields ..).2.1]
      exact h.current
    have hpnext : p = e.sw.next := Option.some.inj (hp.symm.trans hnext)
    rw [hpnext]
    unfold Kernel.saveAt
    rw [Kernel.setProc_ne _ _ h.switch.ne]
    exact hentry hresume
  · have ⟨htask, hstack⟩ := load_task sv (e.kern.saveAt me ⟨e.cpu.ctx, e.how⟩) e.cpu.flag
    exact ⟨_, hcpu, ⟨htask.trans hof.task, hstack.trans hof.stack⟩⟩

/-- The position the process selected goes on at. -/
theorem resumed (h : Leaves s lastSaved me e back) :
    ParkedAt e.kern e.sw.next (s.switchTo e back).code := by
  have ⟨sv, hsv, _⟩ := h.selected
  show ParkedAt e.kern e.sw.next (s.resumed e.sw.next (e.kern.table e.sw.next).savedEsp)
  rw [hsv]
  show ParkedAt e.kern e.sw.next (if sv.resume = .entry then none else s.parked e.sw.next)
  split
  · exact ⟨rfl, fun p hp => by cases hp⟩
  -- a first switch goes to the wrapper, a later one to where schedule was called
  · exact h.parked e.sw.next h.switch.next.1 h.switch.ne

theorem orderly (h : Leaves s lastSaved me e back) :
    Orderly
      { run := s.switchTo e back
        lastSaved := Function.update lastSaved e.cpu.ctx.task (some ⟨e.cpu.ctx, e.how⟩) }
      e.sw.next := by
  have ⟨hkern, c, hcpu, hof⟩ := h.machine
  have hsel (i : Slot) (hi : Selectable e.kern i) :
      Selectable (e.kern.saveAt me ⟨e.cpu.ctx, e.how⟩) i := hi.saveAt
  have hcode := h.resumed.mono hsel
  constructor
  · refine ⟨c, hcpu, ?_⟩
    show c.ctx.Of ((s.switchTo e back).machine.kern.table e.sw.next)
    rw [hkern]
    unfold Kernel.saveAt
    rw [Kernel.setProc_ne _ _ h.switch.ne]
    exact hof
  · show Residents (s.switchTo e back).machine.kern _ _
    rw [hkern]
    exact h.residents_saveAt
  · show (s.switchTo e back).machine.kern.currentPid =
      ((s.switchTo e back).machine.kern.table (currentAt e.sw.next (s.switchTo e back).code)).pid
    rw [hkern, (saveAt_fields ..).2.1]
    unfold currentAt
    simp only [hcode.1]
    exact h.current
  · intro p hp
    show p.Locals (s.switchTo e back).machine.kern e.sw.next
    rw [hkern]
    exact hcode.2 p hp
  · intro i hi hne
    change ((s.switchTo e back).machine.kern.table i).inUse = true at hi
    show ParkedAt (s.switchTo e back).machine.kern i ((s.switchTo e back).parked i)
    rw [hkern] at hi ⊢
    rw [(saveAt_fields ..).1] at hi
    show ParkedAt _ i (Function.update (Function.update s.parked e.sw.cur back) e.sw.next none i)
    rw [Function.update_of_ne hne, h.switch.cur]
    -- the one that leaves is parked where it stands, the others stay where they were
    by_cases hme : i = me
    · rw [hme, Function.update_self]
      exact h.back.mono hsel
    · rw [Function.update_of_ne hme]
      exact (h.parked i hi hme).mono hsel

end Leaves

/-! ## Steps -/

theorem Residents.ready (h : Residents k lastSaved me) (hi : isReady k i = true) (hne : i ≠ me) :
    Selectable k i := by
  have ⟨huse, hstate⟩ := isReady_iff.mp hi
  refine ⟨huse, ?_⟩
  cases hsv : (k.table i).savedEsp with
  | none =>
    have hrun := (h.waiting i huse hne).unsaved hsv
    rw [hstate] at hrun
    cases hrun
  | some sv => rfl

theorem Context.Of.owner {ctx : Context} (howner : (k.table i).SameOwner (k'.table i))
    (h : ctx.Of (k.table i)) : ctx.Of (k'.table i) :=
  ⟨h.task.trans howner.serial.symm, h.stack.trans howner.stack.symm⟩

namespace Orderly

variable {t t' : Traced} {a : StmtLabel} {c : Cpu} {e : SwitchCall}

theorem ctx (h : Orderly t me) (hcpu : t.run.machine.cpu = some c) :
    c.ctx.Of (t.run.machine.kern.table me) := by
  have ⟨c', hcpu', hof⟩ := h.cpu
  rw [hcpu] at hcpu'
  cases hcpu'
  exact hof

/-- The slot of the current pid. -/
theorem currentAt_inUse (h : Orderly t me) :
    (t.run.machine.kern.table (currentAt me t.run.code)).inUse = true := by
  unfold currentAt
  cases hat : switchAt t.run.code with
  | none => exact h.residents.inUse
  | some sw => exact (h.locals _ (Interleaved.switchAt_eq_some hat)).next.1

theorem timerKernel (h : Orderly t me) : Residents t.run.timerKernel t.lastSaved me ∧
    curSlot t.run.timerKernel = currentAt me t.run.code := by
  have hquiet := Quiet.processTick t.run.machine.kern (wrap32 (t.run.tick + 1)) me
  have hres : Residents t.run.timerKernel t.lastSaved me := h.residents.quiet hquiet
  have howner := hquiet.owner (currentAt me t.run.code)
  have hfind : findSlotByPid t.run.timerKernel t.run.timerKernel.currentPid =
      some (currentAt me t.run.code) := by
    apply hres.find
    · exact howner.inUse.trans h.currentAt_inUse
    · rw [show (t.run.timerKernel.table _).pid = _ from howner.pid, ← h.current]
      exact (processTick_keeps _ _).currentPid
  refine ⟨hres, ?_⟩
  unfold curSlot
  rw [hfind, Option.getD_some]

theorem leaves_next {sw : Switch} (h : Orderly t me) (hcpu : t.run.machine.cpu = some c)
    (hcode : t.run.code = some (.sched (.switch sw))) :
    Leaves t.run t.lastSaved me ⟨t.run.machine.kern, c, sw, .call⟩ none where
  residents := h.residents
  ctx := h.ctx hcpu
  switch := h.locals _ hcode
  current := by
    have hcur := h.current
    rw [hcode] at hcur
    exact hcur
  how := by
    intro hhow
    cases hhow
  back := ⟨rfl, fun p hp => by cases hp⟩
  parked := h.parked

/-- The interrupt takes the process on the CPU for what it is. -/
theorem leaves_timer (h : Orderly t me) (hcpu : t.run.machine.cpu = some c)
    (hat : switchAt t.run.code = none) (he : t.run.timerSwitch c = some e) :
    Leaves t.run.ticked t.lastSaved me e t.run.code := by
  have ⟨hres, hcur⟩ := h.timerKernel
  have hcur : curSlot t.run.timerKernel = me := by
    rw [hcur]
    unfold currentAt
    simp only [hat]
  have ⟨next, hnext, hne, he⟩ := Interleaved.timerSwitch_some he
  rw [hcur] at hnext hne he
  have htick := Quiet.processTick t.run.machine.kern (wrap32 (t.run.tick + 1)) me
  have hover := Quiet.handOver t.run.timerKernel ⟨me, next⟩ hne
  have hquiet : Quiet t.run.machine.kern (t.run.timerKernel.handOver ⟨me, next⟩) me :=
    htick.trans hover
  rw [he]
  exact {
    residents := hres.quiet hover
    ctx := (h.ctx hcpu).owner (hquiet.owner me)
    switch := ⟨rfl, hover.selectable _ (hres.ready (nextReady_isReady hnext) hne), hne⟩
    current := by
      rw [handOver_currentPid t.run.timerKernel ⟨me, next⟩ hne]
      exact (hover.owner next).pid.symm
    how := by
      intro hhow
      cases hhow
    back := ⟨hat, fun p hp => (h.locals p hp).mono hquiet.selectable⟩
    parked := by
      intro i hi hi'
      apply (h.parked i _ hi').mono hquiet.selectable
      rw [← (hquiet.owner i).inUse]
      exact hi }

/-- In the window the interrupt writes the entry of the process that is selected. -/
theorem not_safe_timer {sw : Switch} (h : Orderly t me) (hcpu : t.run.machine.cpu = some c)
    (hat : switchAt t.run.code = some sw) (he : t.run.timerSwitch c = some e) :
    ¬ SwitchSafe t.lastSaved e := by
  intro hsafe
  have hsw : SwitchFrom t.run.machine.kern me sw :=
    h.locals _ (Interleaved.switchAt_eq_some hat)
  have ⟨hres, hcur⟩ := h.timerKernel
  have hcur : curSlot t.run.timerKernel = sw.next := by
    rw [hcur]
    unfold currentAt
    simp only [hat]
  have ⟨next, hnext, hne, he⟩ := Interleaved.timerSwitch_some he
  rw [hcur] at hne he
  have htask := hsafe.task
  -- schedule saves in the entry of current_pid, but the context is still that of me
  rw [he] at htask
  have hserial := (handOver_sameOwner t.run.timerKernel ⟨sw.next, next⟩ hne sw.next).serial
  have htick := (processTick_sameOwner t.run.machine.kern (wrap32 (t.run.tick + 1)) sw.next).serial
  apply hsw.ne
  apply h.residents.serials _ _ hsw.next.1 h.residents.inUse
  rw [← (h.ctx hcpu).task, ← htick]
  exact hserial.symm.trans htask

theorem stmt {p : CallAt} (h : Orderly t me) (hp : t.run.code = some p)
    (hat : switchAt t.run.code = none) :
    Orderly { t with run := t.run.stmt p } me := by
  have hcur := h.current
  unfold currentAt at hcur
  simp only [hat] at hcur
  have hfind := h.residents.find h.residents.inUse hcur
  have hlocals := h.locals p hp
  rw [hp] at hat
  -- the invariant is kept by the statements of schedule and by those of process_sleep
  have hdone : StmtDone t.run.machine.kern me (callStmt t.run.machine.kern t.run.tick p) := by
    cases p with
    | sched p => exact schedStmt_done hfind hlocals (fun i => h.residents.ready) hat _
    | sleep ticks p => exact sleepStmt_done hfind hlocals _
  have ⟨c, hcpu, hof⟩ := h.cpu
  exact {
    cpu := ⟨c, hcpu, hof.owner (hdone.quiet.owner me)⟩
    residents := h.residents.quiet hdone.quiet
    current := hdone.current
    locals := hdone.locals
    parked := by
      intro i hi hne
      apply (h.parked i _ hne).mono hdone.quiet.selectable
      rw [← (hdone.quiet.owner i).inUse]
      exact hi }

theorem ticked (h : Orderly t me) : Orderly { t with run := t.run.ticked } me := by
  have hquiet := Quiet.processTick t.run.machine.kern (wrap32 (t.run.tick + 1)) me
  have ⟨c, hcpu, hof⟩ := h.cpu
  exact {
    cpu := ⟨c, hcpu, hof.owner (hquiet.owner me)⟩
    residents := h.residents.quiet hquiet
    current := by
      rw [show ({ t with run := t.run.ticked } : Traced).run.machine.kern.currentPid = _ from
        (processTick_keeps _ _).currentPid, h.current]
      exact (hquiet.owner _).pid.symm
    locals := fun p hp => (h.locals p hp).mono hquiet.selectable
    parked := by
      intro i hi hne
      apply (h.parked i _ hne).mono hquiet.selectable
      rw [← (hquiet.owner i).inUse]
      exact hi }

theorem call {p : CallAt} (h : Orderly t me) (hcode : t.run.code = none)
    (hat : switchAt (some p) = none) (hp : p.Locals t.run.machine.kern me) :
    Orderly { t with run := { t.run with code := some p } } me where
  cpu := h.cpu
  residents := h.residents
  current := by
    have hcur := h.current
    unfold currentAt at hcur ⊢
    rw [hcode] at hcur
    simp only [hat]
    exact hcur
  locals q hq := by
    cases hq
    exact hp
  parked := h.parked

theorem hasEntry (h : Orderly t me) : t.HasEntry := by
  have ⟨c, hcpu, hof⟩ := h.cpu
  exact ⟨me, c, hcpu, h.residents.inUse, hof.task.symm⟩

theorem step (h : Orderly t me) (hg : OutsideWindow t a) (hstep : t.exec a = some t') :
    ∃ me', Orderly t' me' := by
  have ⟨s, hs, ht⟩ := Option.map_eq_some_iff.mp hstep
  have ⟨c, hcpu, hmoves⟩ := Interleaved.exec_moves hs
  rw [Interleaved.switches_eq hcpu] at ht
  rw [← ht]
  cases hmoves with
  | yield hcode => exact ⟨me, h.call hcode rfl trivial⟩
  | sleep hcode => exact ⟨me, h.call hcode rfl trivial⟩
  | stmt hp hat =>
    have hnone : t.run.nextSwitch c = none := by
      unfold Interleaved.nextSwitch
      rw [hat, Option.map_none]
    simp only [hnone]
    exact ⟨me, h.stmt hp hat⟩
  | @switch sw hcode =>
    have hsome : t.run.nextSwitch c = some ⟨t.run.machine.kern, c, sw, .call⟩ := by
      unfold Interleaved.nextSwitch
      rw [hcode]
      rfl
    simp only [hsome]
    exact ⟨sw.next, (h.leaves_next hcpu hcode).orderly⟩
  | tick hp =>
    simp only [Interleaved.timerSwitch_eq_none hp]
    exact ⟨me, h.ticked⟩
  | @preempt e hflag hp he =>
    simp only [he]
    exact ⟨e.sw.next, (h.leaves_timer hcpu (hg.noSwitch hp) he).orderly⟩

/-- A step makes safe switches if and only if it is no interrupt in the window. -/
theorem safe_iff_window (h : Orderly t me) (hstep : t.exec a = some t') :
    SafeStep t a ↔ OutsideWindow t a := by
  have ⟨s, hs, _⟩ := Option.map_eq_some_iff.mp hstep
  unfold SafeStep
  rcases Interleaved.switches_cases hs with ⟨hnone, hquiet⟩ | ⟨c, sw, hcpu, ha, hcode, hsome⟩ |
    ⟨c, e, hcpu, ha, hp, he, hsome⟩
  · rw [hnone]
    exact iff_of_true (fun e he => by cases he) fun ha _ => hquiet ha
  · rw [hsome, ha]
    refine iff_of_true (fun e he => ?_) (fun ha => by cases ha)
    cases he
    exact (h.leaves_next hcpu hcode).safe
  · rw [hsome, ha]
    constructor
    · intro hsafe _ hwindow
      have ⟨sw, hat⟩ := Option.isSome_iff_exists.mp hwindow
      exact absurd (hsafe e rfl) (h.not_safe_timer hcpu hat he)
    · intro hg e' he'
      cases he'
      exact (h.leaves_timer hcpu (hg.noSwitch hp) he).safe

theorem safe_iff (h : Orderly t me) (hstep : t.exec a = some t') :
    SafeStep t a ↔ Undisturbed t a := by
  constructor
  · intro hsafe
    exact ⟨(h.safe_iff_window hstep).mp hsafe, fun _ => h.hasEntry⟩
  · intro hg
    exact (h.safe_iff_window hstep).mpr hg.window

end Orderly

theorem Traced.Settled.orderly {t : Traced} (h : t.Settled) (hcode : t.run.code = none) :
    ∃ me, Orderly t me := by
  have ⟨me, c, hcpu, hof, hcur, hres⟩ := h.residents
  refine ⟨me, ⟨c, hcpu, hof⟩, hres, ?_, ?_, ?_⟩
  · rw [hcode]
    exact hcur
  · intro p hp
    rw [hcode] at hp
    cases hp
  · intro i _ _
    rw [h.parked i]
    exact ⟨rfl, fun p hp => by cases hp⟩

end MyMisu
