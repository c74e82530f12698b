import MyMisu.Process.Scheduler

/-!
# The timer between statements

The kernel with the timer of `timer.c`, at the grain of single statements.  A function that is run
statement by statement has a type of positions, the statements with the locals they go on with; an
execution that `context_switch` saves keeps its position with its stack pointer.
-/

namespace MyMisu

/-- `TIME_SLICE_TICKS` -/
abbrev timeSliceTicks : ℕ := 10

/-- The kernel in front of a statement: `tick` and `slice_counter`, the position of the execution on
the CPU, and those of the executions saved in the entries.  No position stands for code that is not
run statement by statement. -/
structure Interleaved (γ : Type) where
  machine : Machine
  tick : ℕ
  sliceCounter : ℕ
  code : Option γ
  parked : Slot → Option γ

/-- The machine between two calls. -/
def Machine.interleaved {γ : Type} (m : Machine) (tick sliceCounter : ℕ) : Interleaved γ where
  machine := m
  tick := tick
  sliceCounter := sliceCounter
  code := none
  parked _ := none

/-- A call of `context_switch`: the table and the CPU it is made on, its arguments, and the way the
outgoing execution will go on. -/
structure SwitchCall where
  kern : Kernel
  cpu : Cpu
  sw : Switch
  how : Resume

namespace Interleaved

variable {γ : Type}

/-- The position a loaded stack pointer goes on at. -/
def resumed (s : Interleaved γ) (i : Slot) : Option Saved → Option γ
  | some sv => if sv.resume = .entry then none else s.parked i
  | none => none

/-- `context_switch`: `back` is where the outgoing execution will go on.  A position is gone once its
stack pointer has been loaded. -/
def switchTo (s : Interleaved γ) (e : SwitchCall) (back : Option γ) : Interleaved γ :=
  { s with
    machine := contextSwitch s.machine.log e.kern e.cpu e.sw e.how
    code := s.resumed e.sw.next (e.kern.table e.sw.next).savedEsp
    parked := Function.update (Function.update s.parked e.sw.cur back) e.sw.next none }

/-! ## The timer interrupt -/

/-- `slice_counter >= TIME_SLICE_TICKS` after the increment. -/
def SliceEnds (s : Interleaved γ) : Prop := wrap32 (s.sliceCounter + 1) ≥ timeSliceTicks

instance (s : Interleaved γ) : Decidable s.SliceEnds := inferInstanceAs (Decidable (_ ≥ _))

/-- The table after `process_tick`. -/
def timerKernel (s : Interleaved γ) : Kernel := processTick s.machine.kern (wrap32 (s.tick + 1))

/-- `timer_callback` up to the end of the time slice. -/
def ticked (s : Interleaved γ) : Interleaved γ :=
  { s with
    machine := { s.machine with kern := s.timerKernel }
    tick := wrap32 (s.tick + 1)
    sliceCounter := if s.SliceEnds then 0 else wrap32 (s.sliceCounter + 1) }

/-- The call of `schedule` that `timer_callback` makes: the table it finds. -/
def timerSchedules (s : Interleaved γ) : Option Kernel :=
  if s.SliceEnds ∧ s.timerKernel.schedulingEnabled = true then some s.timerKernel else none

/-- The call of `context_switch` in `timer_callback`, with interrupts disabled. -/
def timerSwitch (s : Interleaved γ) (c : Cpu) : Option SwitchCall :=
  s.timerSchedules.bind fun k =>
    (schedule k).2.map fun sw =>
      { kern := (schedule k).1
        cpu := { c with flag := runFlags c.flag irqEntry c.flag }
        sw := sw
        how := .irq c.flag }

/-- The timer interrupt in front of the statement. -/
def timer (s : Interleaved γ) (c : Cpu) : Interleaved γ :=
  match s.timerSwitch c with
  | none => s.ticked
  | some e => s.ticked.switchTo e s.code

/-- A whole call, with no interrupt in it, that ends with the given result of `schedule`. -/
def call (s : Interleaved γ) (c : Cpu) (r : Kernel × Option Switch) : Interleaved γ :=
  match r.2 with
  | none => { s with machine := { s.machine with kern := r.1 } }
  | some sw => s.switchTo { kern := r.1, cpu := c, sw := sw, how := .call } none

/-- The interrupt ends a time slice, and a process other than the current one is ready. -/
def Preempts (s : Interleaved γ) : Prop :=
  s.SliceEnds ∧ s.timerKernel.schedulingEnabled = true ∧
    ∃ i, isReady s.timerKernel i = true ∧ i ≠ curSlot s.timerKernel

instance (s : Interleaved γ) : Decidable s.Preempts := inferInstanceAs (Decidable (_ ∧ _))

end Interleaved

/-! ## When `schedule` switches -/

theorem schedule_switches_iff (k : Kernel) :
    (schedule k).2.isSome = true ↔
      k.schedulingEnabled = true ∧ ∃ i, isReady k i = true ∧ i ≠ curSlot k := by
  constructor
  · intro hsome
    rcases schedule_cases k with h | ⟨next, hon, hnext, hne, -⟩
    · rw [h] at hsome
      cases hsome
    · exact ⟨hon, next, nextReady_isReady hnext, hne⟩
  · rintro ⟨hon, i, hready, hi⟩
    have ⟨next, hnext⟩ := Option.isSome_iff_exists.mp (RoundRobin.next_isSome (curSlot k) hready)
    have hle := (RoundRobin.next_eq_some hnext).2 i hready
    have hlt := RoundRobin.gap_lt hi
    -- the scan comes to the current slot last
    have hne : next ≠ curSlot k := by
      intro he
      rw [he, RoundRobin.gap_self] at hle
      omega
    rw [schedule_switch hon hnext hne]
    rfl

theorem contextSwitch_saved {k : Kernel} {sw : Switch} {sv : Saved} (log : List SwitchEvent)
    (c : Cpu) (how : Resume) (h : (k.table sw.next).savedEsp = some sv) :
    (contextSwitch log k c sw how).kern = (sv.load (k.saveAt sw.cur ⟨c.ctx, how⟩) c.flag).1 ∧
      (contextSwitch log k c sw how).cpu =
        some (sv.load (k.saveAt sw.cur ⟨c.ctx, how⟩) c.flag).2 := by
  unfold contextSwitch
  rw [h]
  exact ⟨rfl, rfl⟩

namespace Interleaved

variable {γ : Type} {s : Interleaved γ} {c : Cpu} {e : SwitchCall}

theorem call_machine (s : Interleaved γ) (c : Cpu) (r : Kernel × Option Switch) :
    (s.call c r).machine = s.machine.callSchedule c r := by
  unfold call Machine.callSchedule
  cases r.2 <;> rfl

theorem timerSwitch_isSome_iff : (s.timerSwitch c).isSome = true ↔ s.Preempts := by
  unfold timerSwitch timerSchedules Preempts
  by_cases hon : s.SliceEnds ∧ s.timerKernel.schedulingEnabled = true
  · rw [if_pos hon, Option.bind_some, Option.isSome_map, schedule_switches_iff]
    simp only [hon, true_and]
  · rw [if_neg hon]
    constructor
    · intro hsome
      cases hsome
    · rintro ⟨hends, hen, -⟩
      exact absurd ⟨hends, hen⟩ hon

theorem timerSwitch_eq_none (h : ¬ s.Preempts) : s.timerSwitch c = none := by
  rw [← timerSwitch_isSome_iff (c := c)] at h
  exact Option.not_isSome_iff_eq_none.mp h

theorem timerSwitch_some (h : s.timerSwitch c = some e) :
    ∃ next, nextReady s.timerKernel (curSlot s.timerKernel) = some next ∧
      next ≠ curSlot s.timerKernel ∧
      e = { kern := s.timerKernel.handOver ⟨curSlot s.timerKernel, next⟩
            cpu := ⟨c.ctx, false⟩
            sw := ⟨curSlot s.timerKernel, next⟩
            how := .irq c.flag } := by
  have ⟨k, hk, hmap⟩ := Option.bind_eq_some_iff.mp h
  have ⟨_, hkern⟩ := Option.ite_none_right_eq_some.mp hk
  rw [← Option.some.inj hkern] at hmap
  have ⟨sw, hsw, he⟩ := Option.map_eq_some_iff.mp hmap
  rcases schedule_cases s.timerKernel with hrun | ⟨next, -, hnext, hne, hrun⟩
  · rw [hrun] at hsw
    cases hsw
  · rw [hrun] at hsw he
    cases hsw
    exact ⟨next, hnext, hne, he.symm⟩

/-- At the end of a slice the machine does what `Machine.exec` does on `timer`, and what it does on
`tick` before that. -/
theorem timer_machine (hcpu : s.machine.cpu = some c) :
    (s.SliceEnds → s.timerKernel.schedulingEnabled = true →
      (s.timer c).machine = s.machine.irqSchedule c (wrap32 (s.tick + 1))) ∧
    (¬ s.SliceEnds → (s.timer c).machine = { s.machine with kern := s.timerKernel }) := by
  constructor
  · intro hends hon
    unfold timer timerSwitch timerSchedules
    rw [if_pos ⟨hends, hon⟩, Option.bind_some]
    unfold Machine.irqSchedule
    rcases schedule_cases s.timerKernel with hrun | ⟨next, -, -, -, hrun⟩
    · have hrun' : schedule (processTick s.machine.kern (wrap32 (s.tick + 1))) = _ := hrun
      rw [hrun, hrun']
      show Machine.mk s.timerKernel s.machine.cpu s.machine.log = _
      rw [hcpu]
      rfl
    · have hrun' : schedule (processTick s.machine.kern (wrap32 (s.tick + 1))) = _ := hrun
      rw [hrun, hrun']
      rfl
  · intro hends
    have hnone : s.timerSwitch c = none := timerSwitch_eq_none fun hp => hends hp.1
    unfold timer
    rw [hnone]
    rfl

end Interleaved

end MyMisu
