import MyMisu.Process.Interleaving
import MyMisu.Process.Sleep

/-!
# `schedule` and `process_sleep`, statement by statement

A process that calls `process_yield` or `process_sleep` runs them with interrupts enabled, so the
timer may interrupt it in front of every statement.  Without interrupts the statements come to what
`schedule` and `process_sleep` do as whole calls.
-/

namespace MyMisu

/-! ## The statements -/

/-- `proc_table[i].state = state` -/
def Kernel.setState (k : Kernel) (i : Slot) (state : ProcState) : Kernel :=
  k.setProc i { k.table i with state := state }

/-- The statements of `schedule`, each with the locals that are used from it on. -/
inductive SchedAt
  /-- `if (!scheduling_enabled) return;` -/
  | enabled
  /-- `int cur_slot = find_slot_by_pid(current_pid);` -/
  | findCur
  /-- `if (cur_slot < 0) cur_slot = 0;` -/
  | defaultCur (cur : Option Slot)
  /-- One turn of the loop over the table. -/
  | scan (cur : Slot) (i : ℕ)
  /-- `if (next_slot < 0) return;` -/
  | found (cur : Slot) (next : Option Slot)
  /-- `if (next_slot == cur_slot) return;` -/
  | same (sw : Switch)
  /-- `if (proc_table[cur_slot].state == PROC_RUNNING)` -/
  | test (sw : Switch)
  /-- `proc_table[cur_slot].state = PROC_READY;` -/
  | setReady (sw : Switch)
  /-- `proc_table[next_slot].state = PROC_RUNNING;` -/
  | setRunning (sw : Switch)
  /-- `uint32_t old_pid = current_pid;` -/
  | oldPid (sw : Switch)
  /-- `current_pid = proc_table[next_slot].pid;` -/
  | setCurrent (sw : Switch)
  /-- `context_switch(&proc_table[cur_slot].saved_esp, proc_table[next_slot].saved_esp);` -/
  | switch (sw : Switch)
  deriving DecidableEq

/-- The statements of `process_sleep` in front of its call of `schedule`. -/
inductive SleepAt
  /-- `int slot = find_slot_by_pid(current_pid);` -/
  | findSlot
  /-- `if (slot < 0 || current_pid <= 1)` -/
  | test (slot : Option Slot)
  /-- `uint32_t start = timer_get_ticks();` -/
  | start
  /-- One turn of the busy wait. -/
  | wait (start : ℕ)
  /-- `proc_table[slot].state = PROC_BLOCKED;` -/
  | block (slot : Slot)
  /-- `proc_table[slot].wake_tick = timer_get_ticks() + ticks;` -/
  | setWake (slot : Slot)
  deriving DecidableEq

inductive CallAt
  | sched (p : SchedAt)
  | sleep (ticks : ℕ) (p : SleepAt)
  deriving DecidableEq

/-- A statement of `schedule`, with the one that comes next.  The call of `context_switch`, which is
the last one, is left to the machine. -/
def schedStmt (k : Kernel) : SchedAt → Kernel × Option SchedAt
  | .enabled => (k, if k.schedulingEnabled = false then none else some .findCur)
  | .findCur => (k, some (.defaultCur (findSlotByPid k k.currentPid)))
  | .defaultCur cur => (k, some (.scan (cur.getD 0) 1))
  | .scan cur i =>
    if i ≤ maxProcesses then
      if isReady k (scanSlot cur i) = true then (k, some (.found cur (some (scanSlot cur i))))
      else (k, some (.scan cur (i + 1)))
    else (k, some (.found cur none))
  | .found cur next => (k, next.map fun next => .same ⟨cur, next⟩)
  | .same sw => (k, if sw.next = sw.cur then none else some (.test sw))
  | .test sw =>
    (k, if (k.table sw.cur).state = .running then some (.setReady sw) else some (.setRunning sw))
  | .setReady sw => (k.setState sw.cur .ready, some (.setRunning sw))
  | .setRunning sw => (k.setState sw.next .running, some (.oldPid sw))
  | .oldPid sw => (k, some (.setCurrent sw))
  | .setCurrent sw => ({ k with currentPid := (k.table sw.next).pid }, some (.switch sw))
  | .switch _ => (k, none)

instance (start now ticks : ℕ) : Decidable (loopWaits start now ticks) :=
  inferInstanceAs (Decidable (_ < _))

def sleepStmt (k : Kernel) (tick ticks : ℕ) : SleepAt → Kernel × Option CallAt
  | .findSlot => (k, some (.sleep ticks (.test (findSlotByPid k k.currentPid))))
  | .test none => (k, some (.sleep ticks .start))
  | .test (some slot) =>
    (k, some (.sleep ticks (if k.currentPid ≤ 1 then .start else .block slot)))
  | .start => (k, some (.sleep ticks (.wait tick)))
  | .wait start => (k, if loopWaits start tick ticks then some (.sleep ticks (.wait start)) else none)
  | .block slot => (k.setState slot .blocked, some (.sleep ticks (.setWake slot)))
  | .setWake slot =>
    (k.setProc slot { k.table slot with wakeTick := wrap32 (tick + ticks) }, some (.sched .enabled))

def callStmt (k : Kernel) (tick : ℕ) : CallAt → Kernel × Option CallAt
  | .sched p => ((schedStmt k p).1, (schedStmt k p).2.map .sched)
  | .sleep ticks p => sleepStmt k tick ticks p

/-! ## Runs -/

inductive StmtLabel
  /-- A call of `process_yield`. -/
  | yield
  /-- A call of `process_sleep`. -/
  | sleep (ticks : ℕ)
  /-- The next statement. -/
  | next
  /-- The timer interrupt. -/
  | timer

/-- The call of `context_switch` the position is in front of. -/
def switchAt : Option CallAt → Option Switch
  | some (.sched (.switch sw)) => some sw
  | _ => none

namespace Interleaved

/-- The next statement, apart from a call of `context_switch`. -/
def stmt (s : Interleaved CallAt) (p : CallAt) : Interleaved CallAt :=
  { s with
    machine := { s.machine with kern := (callStmt s.machine.kern s.tick p).1 }
    code := (callStmt s.machine.kern s.tick p).2 }

/-- The call of `context_switch` the next statement is. -/
def nextSwitch (s : Interleaved CallAt) (c : Cpu) : Option SwitchCall :=
  (switchAt s.code).map fun sw => { kern := s.machine.kern, cpu := c, sw := sw, how := .call }

def next (s : Interleaved CallAt) (c : Cpu) : Option (Interleaved CallAt) :=
  match s.nextSwitch c with
  | some e => some (s.switchTo e none)
  | none => s.code.map s.stmt

/-- One step.  Outside `schedule` and `process_sleep` the process is in its own code, from which it
calls them; after its entry function has returned it only yields. -/
def exec (s : Interleaved CallAt) (a : StmtLabel) : Option (Interleaved CallAt) :=
  match s.machine.cpu with
  | none => none
  | some c =>
    match a with
    | .yield => if s.code = none then some { s with code := some (.sched .enabled) } else none
    | .sleep ticks =>
      if s.code = none ∧ c.ctx.returned = false then
        some { s with code := some (.sleep ticks .findSlot) }
      else none
    | .next => s.next c
    | .timer => if c.flag = true then some (s.timer c) else none

/-- The call of `context_switch` a step makes. -/
def switches (s : Interleaved CallAt) (a : StmtLabel) : Option SwitchCall :=
  match s.machine.cpu, a with
  | some c, .next => s.nextSwitch c
  | some c, .timer => s.timerSwitch c
  | _, _ => none

/-- What a step does. -/
inductive Moves (s : Interleaved CallAt) (c : Cpu) : StmtLabel → Interleaved CallAt → Prop
  | yield : s.code = none → Moves s c .yield { s with code := some (.sched .enabled) }
  | sleep {ticks : ℕ} : s.code = none →
      Moves s c (.sleep ticks) { s with code := some (.sleep ticks .findSlot) }
  | stmt {p : CallAt} : s.code = some p → switchAt s.code = none → Moves s c .next (s.stmt p)
  | switch {sw : Switch} : s.code = some (.sched (.switch sw)) →
      Moves s c .next (s.switchTo ⟨s.machine.kern, c, sw, .call⟩ none)
  | tick : ¬ s.Preempts → Moves s c .timer s.ticked
  | preempt {e : SwitchCall} : c.flag = true → s.Preempts → s.timerSwitch c = some e →
      Moves s c .timer (s.ticked.switchTo e s.code)

variable {s s' : Interleaved CallAt} {c : Cpu} {a : StmtLabel}

theorem switchAt_eq_some {p : Option CallAt} {sw : Switch} (h : switchAt p = some sw) :
    p = some (.sched (.switch sw)) := by
  unfold switchAt at h
  split at h
  · cases h
    rfl
  · cases h

theorem switches_eq (hcpu : s.machine.cpu = some c) :
    s.switches a =
      match a with
      | .next => s.nextSwitch c
      | .timer => s.timerSwitch c
      | .yield | .sleep _ => none := by
  unfold switches
  rw [hcpu]
  cases a <;> rfl

theorem exec_moves (h : s.exec a = some s') :
    ∃ c, s.machine.cpu = some c ∧ s.Moves c a s' := by
  unfold exec at h
  cases hcpu : s.machine.cpu with
  | none =>
    rw [hcpu] at h
    cases h
  | some c =>
    rw [hcpu] at h
    refine ⟨c, rfl, ?_⟩
    cases a with
    | yield =>
      have ⟨hcode, hs⟩ := Option.ite_none_right_eq_some.mp h
      cases hs
      exact .yield hcode
    | sleep ticks =>
      have ⟨hcode, hs⟩ := Option.ite_none_right_eq_some.mp h
      cases hs
      exact .sleep hcode.1
    | next =>
      -- a statement of the source, unless the call of context_switch is reached
      change s.next c = some s' at h
      unfold next nextSwitch at h
      cases hat : switchAt s.code with
      | some sw =>
        rw [hat] at h
        cases h
        exact .switch (switchAt_eq_some hat)
      | none =>
        rw [hat] at h
        have ⟨p, hp, hs⟩ := Option.map_eq_some_iff.mp h
        rw [← hs]
        exact .stmt hp hat
    | timer =>
      have ⟨hflag, hs⟩ := Option.ite_none_right_eq_some.mp h
      cases hs
      -- the interrupt ends a slice or not; only in the first case schedule may switch
      unfold timer
      cases hsw : s.timerSwitch c with
      | none =>
        apply Moves.tick
        rw [← timerSwitch_isSome_iff (c := c), hsw]
        exact Bool.false_ne_true
      | some e =>
        apply Moves.preempt hflag _ hsw
        rw [← timerSwitch_isSome_iff (c := c), hsw]
        rfl

/-- The calls of `context_switch` that steps make: at the end of `schedule`, and in the timer interrupt
when it preempts. -/
theorem switches_cases (h : s.exec a = some s') :
    s.switches a = none ∧ (a = .timer → ¬ s.Preempts) ∨
      (∃ c sw, s.machine.cpu = some c ∧ a = .next ∧ s.code = some (.sched (.switch sw)) ∧
        s.switches a = some ⟨s.machine.kern, c, sw, .call⟩) ∨
      ∃ c e, s.machine.cpu = some c ∧ a = .timer ∧ s.Preempts ∧ s.timerSwitch c = some e ∧
        s.switches a = some e := by
  have ⟨c, hcpu, hmoves⟩ := exec_moves h
  rw [switches_eq hcpu]
  cases hmoves with
  | yield hcode => exact .inl ⟨rfl, fun ha => by cases ha⟩
  | sleep hcode => exact .inl ⟨rfl, fun ha => by cases ha⟩
  | stmt hp hat =>
    left
    refine ⟨?_, fun ha => by cases ha⟩
    show (switchAt s.code).map _ = none
    rw [hat, Option.map_none]
  | @switch sw hcode =>
    right
    left
    refine ⟨c, sw, hcpu, rfl, hcode, ?_⟩
    show (switchAt s.code).map _ = _
    rw [hcode]
    rfl
  | tick hp => exact .inl ⟨timerSwitch_eq_none hp, fun _ => hp⟩
  | @preempt e hflag hp he => exact .inr (.inr ⟨c, e, hcpu, rfl, hp, he, he⟩)

end Interleaved

/-! ## Without interrupts -/

/-- The statements of one execution with no interrupt between them. -/
def Uninterrupted (tick : ℕ) : Kernel × Option CallAt → Kernel × Option CallAt → Prop :=
  Relation.ReflTransGen fun x y =>
    ∃ p, x.2 = some p ∧ switchAt x.2 = none ∧ callStmt x.1 tick p = y

namespace Uninterrupted

variable {tick : ℕ} {k k' : Kernel} {p : CallAt} {q : Option CallAt} {z : Kernel × Option CallAt}

theorem refl : Uninterrupted tick z z := Relation.ReflTransGen.refl

theorem head (hat : switchAt (some p) = none) (hstep : callStmt k tick p = (k', q))
    (h : Uninterrupted tick (k', q) z) : Uninterrupted tick (k, some p) z :=
  Relation.ReflTransGen.head ⟨p, rfl, hat, hstep⟩ h

/-- The loop finds the first ready process of the rest of the scan. -/
theorem scan (k : Kernel) (tick : ℕ) (cur : Slot) {i n : ℕ} (hn : i + n = maxProcesses + 1) :
    Uninterrupted tick (k, some (.sched (.scan cur i)))
      (k, some (.sched (.found cur (((List.range' i n).map (scanSlot cur)).find? (isReady k))))) := by
  induction n generalizing i with
  | zero =>
    -- all sixteen distances have been tried
    have hi : ¬ i ≤ maxProcesses := by omega
    apply head rfl _ refl
    simp only [callStmt, schedStmt, hi, if_false, Option.map_some]
    rfl
  | succ n ih =>
    have hi : i ≤ maxProcesses := by omega
    rw [List.range'_succ, List.map_cons]
    by_cases hready : isReady k (scanSlot cur i) = true
    · rw [List.find?_cons_of_pos hready]
      apply head rfl _ refl
      simp only [callStmt, schedStmt, hi, hready, if_true, Option.map_some]
    · rw [List.find?_cons_of_neg hready]
      apply head rfl _ (ih (i := i + 1) (by omega))
      simp only [callStmt, schedStmt, hi, hready, if_true, Bool.false_eq_true, if_false,
        Option.map_some]

/-- The two states and `current_pid` are stored in front of `context_switch`. -/
theorem handOver (k : Kernel) (tick : ℕ) (sw : Switch) :
    Uninterrupted tick (k, some (.sched (.test sw)))
      (k.handOver sw, some (.sched (.switch sw))) := by
  have hstores (k : Kernel) : Uninterrupted tick (k, some (.sched (.setRunning sw)))
      ({ k.setState sw.next .running with
          currentPid := ((k.setState sw.next .running).table sw.next).pid },
        some (.sched (.switch sw))) :=
    head rfl rfl (head rfl rfl (head rfl rfl refl))
  by_cases hrun : (k.table sw.cur).state = .running
  -- the current process becomes READY only if it was RUNNING; a sleeper stays BLOCKED
  · have hset : k.handOver sw =
        { (k.setState sw.cur .ready).setState sw.next .running with
          currentPid := (((k.setState sw.cur .ready).setState sw.next .running).table sw.next).pid } := by
      unfold Kernel.handOver Kernel.setState
      simp only [hrun, if_true]
    rw [hset]
    have htest : callStmt k tick (.sched (.test sw)) = (k, some (.sched (.setReady sw))) := by
      simp only [callStmt, schedStmt, hrun, if_true, Option.map_some]
    exact head rfl htest (head rfl rfl (hstores (k.setState sw.cur .ready)))
  -- handOver stores the state it found, and the source stores nothing
  · have hkeep : k.setProc sw.cur { k.table sw.cur with state := (k.table sw.cur).state } = k := by
      show { k with table := Function.update k.table sw.cur (k.table sw.cur) } = k
      rw [Function.update_eq_self]
    have hset : k.handOver sw =
        { k.setState sw.next .running with
          currentPid := ((k.setState sw.next .running).table sw.next).pid } := by
      unfold Kernel.handOver Kernel.setState
      simp only [hrun, if_false, hkeep]
    rw [hset]
    have htest : callStmt k tick (.sched (.test sw)) = (k, some (.sched (.setRunning sw))) := by
      simp only [callStmt, schedStmt, hrun, if_false, Option.map_some]
    exact head rfl htest (hstores k)

/-- The statements of `schedule` come to `schedule`. -/
theorem schedule (k : Kernel) (tick : ℕ) :
    Uninterrupted tick (k, some (.sched .enabled))
      ((schedule k).1, (schedule k).2.map fun sw => .sched (.switch sw)) := by
  by_cases hon : k.schedulingEnabled = false
  · have hret : MyMisu.schedule k = (k, none) := by
      unfold MyMisu.schedule
      rw [if_pos hon]
    rw [hret]
    apply head rfl _ refl
    simp only [callStmt, schedStmt, hon, if_true, Option.map_none]
  · -- to the end of the loop
    have hscan : Uninterrupted tick (k, some (.sched .enabled))
        (k, some (.sched (.found (curSlot k) (nextReady k (curSlot k))))) := by
      have hgo : callStmt k tick (.sched .enabled) = (k, some (.sched .findCur)) := by
        show (k, Option.map CallAt.sched (if k.schedulingEnabled = false then _ else _)) = _
        rw [if_neg hon, Option.map_some]
      exact head rfl hgo (head rfl rfl (head rfl rfl (scan k tick (curSlot k) (by rfl))))
    apply Relation.ReflTransGen.trans hscan
    rcases schedule_cases k with hret | ⟨next, -, hnext, hne, hret⟩
    · rw [hret]
      cases hnext : nextReady k (curSlot k) with
      | none => exact head rfl rfl refl
      | some next =>
        have hsame : next = curSlot k := by
          by_contra hne
          rw [schedule_switch (eq_true_of_ne_false hon) hnext hne] at hret
          cases (Prod.mk.inj hret).2
        have hsame' : callStmt k tick (.sched (.same ⟨curSlot k, next⟩)) = (k, none) := by
          simp only [callStmt, schedStmt, hsame, if_true, Option.map_none]
        exact head rfl rfl (head rfl hsame' refl)
    · rw [hret, hnext]
      have hother : callStmt k tick (.sched (.same ⟨curSlot k, next⟩)) =
          (k, some (.sched (.test ⟨curSlot k, next⟩))) := by
        simp only [callStmt, schedStmt, hne, if_false, Option.map_some]
      exact head rfl rfl (head rfl hother (handOver k tick ⟨curSlot k, next⟩))

/-- A process above pid 1 goes to sleep as in `processSleep`. -/
theorem sleep {slot : Slot} (hslot : findSlotByPid k k.currentPid = some slot)
    (hpid : 1 < k.currentPid) (tick ticks : ℕ) :
    Uninterrupted tick (k, some (.sleep ticks .findSlot))
      ((processSleep k tick ticks).1,
        (processSleep k tick ticks).2.map fun sw => .sched (.switch sw)) := by
  have hle : ¬ k.currentPid ≤ 1 := by omega
  have hstore : (k.setState slot .blocked).setProc slot
      { (k.setState slot .blocked).table slot with wakeTick := wrap32 (tick + ticks) } =
      k.setProc slot { k.table slot with state := .blocked, wakeTick := wrap32 (tick + ticks) } := by
    unfold Kernel.setState
    rw [Kernel.setProc_self]
    show { k with table := Function.update (Function.update k.table slot _) slot _ } = _
    rw [Function.update_idem]
    rfl
  unfold processSleep
  rw [hslot]
  simp only [hle, if_false]
  rw [← hstore]
  have hfind : callStmt k tick (.sleep ticks .findSlot) =
      (k, some (.sleep ticks (.test (some slot)))) := by
    simp only [callStmt, sleepStmt, hslot]
  have htest : callStmt k tick (.sleep ticks (.test (some slot))) =
      (k, some (.sleep ticks (.block slot))) := by
    simp only [callStmt, sleepStmt, hle, if_false]
  exact head rfl hfind (head rfl htest (head rfl rfl (head rfl rfl (schedule _ tick))))

end Uninterrupted

namespace Interleaved

variable {s : Interleaved CallAt} {c : Cpu}

/-- Statements in a row, with no interrupt. -/
def RunsTo : Interleaved CallAt → Interleaved CallAt → Prop :=
  Relation.ReflTransGen fun s s' => s.exec .next = some s'

theorem runsTo_of_uninterrupted (hcpu : s.machine.cpu = some c) {x : Kernel × Option CallAt}
    (h : Uninterrupted s.tick (s.machine.kern, s.code) x) :
    s.RunsTo { s with machine := { s.machine with kern := x.1 }, code := x.2 } := by
  induction h with
  | refl => exact .refl
  | tail _ hlast ih =>
    have ⟨p, hp, hat, hstep⟩ := hlast
    apply Relation.ReflTransGen.tail ih
    rw [hp] at hat
    unfold exec next nextSwitch stmt
    simp only [hcpu, hp, hat, hstep, Option.map_none, Option.map_some]

/-- A call whose statements come to `r` without interrupts is the whole call of the machine. -/
theorem runsTo_callSchedule (hcpu : s.machine.cpu = some c) {r : Kernel × Option Switch}
    (h : Uninterrupted s.tick (s.machine.kern, s.code)
      (r.1, r.2.map fun sw => .sched (.switch sw))) :
    ∃ s', s.RunsTo s' ∧ s'.machine = s.machine.callSchedule c r ∧ s'.tick = s.tick ∧
      s'.sliceCounter = s.sliceCounter := by
  have hrun := runsTo_of_uninterrupted hcpu h
  unfold Machine.callSchedule
  cases hsw : r.2 with
  | none =>
    rw [hsw] at hrun
    exact ⟨_, hrun, rfl, rfl, rfl⟩
  | some sw =>
    rw [hsw] at hrun
    let s₁ : Interleaved CallAt :=
      { s with machine := { s.machine with kern := r.1 }, code := some (.sched (.switch sw)) }
    have hswitch : s₁.exec .next = some (s₁.switchTo ⟨r.1, c, sw, .call⟩ none) := by
      unfold exec next nextSwitch switchAt
      simp only [s₁, hcpu, Option.map_some]
    exact ⟨_, Relation.ReflTransGen.tail hrun hswitch, rfl, rfl, rfl⟩

/-- Without interrupts `process_yield` is one step of the machine. -/
theorem yield_runsTo (hcpu : s.machine.cpu = some c) (hcode : s.code = none) :
    ∃ s₁ s₂, s.exec .yield = some s₁ ∧ s₁.RunsTo s₂ ∧
      s.machine.exec .yield = some s₂.machine := by
  have ⟨s', hrun, hmachine, _⟩ :=
    runsTo_callSchedule (s := { s with code := some (.sched .enabled) }) hcpu
      (.schedule s.machine.kern s.tick)
  refine ⟨_, s', ?_, hrun, ?_⟩
  · unfold exec
    simp only [hcpu, hcode, if_true]
  · rw [hmachine]
    unfold Machine.exec
    simp only [hcpu]
    rfl

/-- Without interrupts the `process_sleep` of a process above pid 1 is one step of the machine. -/
theorem sleep_runsTo {slot : Slot} (hcpu : s.machine.cpu = some c) (hcode : s.code = none)
    (hreturned : c.ctx.returned = false)
    (hslot : findSlotByPid s.machine.kern s.machine.kern.currentPid = some slot)
    (hpid : 1 < s.machine.kern.currentPid) (ticks : ℕ) :
    ∃ s₁ s₂, s.exec (.sleep ticks) = some s₁ ∧ s₁.RunsTo s₂ ∧
      s.machine.exec (.sleep s.tick ticks) = some s₂.machine := by
  have ⟨s', hrun, hmachine, _⟩ :=
    runsTo_callSchedule (s := { s with code := some (.sleep ticks .findSlot) }) hcpu
      (.sleep hslot hpid s.tick ticks)
  refine ⟨_, s', ?_, hrun, ?_⟩
  · unfold exec
    simp only [hcpu, hcode, hreturned, and_self, if_true]
  · rw [hmachine]
    unfold Machine.exec
    simp only [hcpu, hreturned, Bool.false_eq_true, if_false]

/-- A process that has been created and switched to. -/
def demoRuns : Option Machine := [.create 0 demoName 1, .yield].foldlM Machine.exec (.start fourPages)

theorem demoRuns_current : demoRuns.any (fun m => m.cpu.any (fun c => !c.ctx.returned) &&
    (findSlotByPid m.kern m.kern.currentPid).isSome && decide (1 < m.kern.currentPid)) = true := by
  decide +kernel

theorem sleep_runsTo_demo :
    ∃ m s₁ s₂, demoRuns = some m ∧ (m.interleaved 0 0).exec (.sleep 5) = some s₁ ∧ s₁.RunsTo s₂ ∧
      m.exec (.sleep 0 5) = some s₂.machine := by
  obtain ⟨m, hm, hrun⟩ := (Option.any_eq_true _ _).mp demoRuns_current
  simp only [Bool.and_eq_true, decide_eq_true_iff] at hrun
  obtain ⟨⟨hcpu, hslot⟩, hpid⟩ := hrun
  obtain ⟨c, hc, hreturned⟩ := (Option.any_eq_true _ _).mp hcpu
  obtain ⟨slot, hslot⟩ := Option.isSome_iff_exists.mp hslot
  obtain ⟨s₁, s₂, hcall, hruns, hexec⟩ :=
    sleep_runsTo (s := m.interleaved 0 0) hc rfl (by simpa using hreturned) hslot hpid 5
  exact ⟨m, s₁, s₂, hm, hcall, hruns, hexec⟩

end Interleaved

end MyMisu
