import MyMisu.Process.Fairness
import MyMisu.Process.Interleaving
import MyMisu.Process.Serials
import MyMisu.Process.Sleep

/-!
# How long a process waits

`timer_callback` with its time slices.  Ten times the gap in the round, less the ticks of the slice
that have passed, falls with every timer interrupt while a process is ready, so that it runs within
15 slices; a sleeper runs not before its ticks are over and within 15 slices from then on.
-/

namespace MyMisu

/-- The clock and `slice_counter`. -/
structure Sliced where
  clock : Clocked
  slice : ℕ

namespace Sliced

abbrev kern (s : Sliced) : Kernel := s.clock.kern

def timerCallback (s : Sliced) : Sliced :=
  let clock := clockExec s.clock .timer
  let slice := wrap32 (s.slice + 1)
  if slice ≥ timeSliceTicks then
    { clock := if clock.kern.schedulingEnabled then clockExec clock .schedule else clock
      slice := 0 }
  else { clock := clock, slice := slice }

def exec (s : Sliced) : ClockOp → Sliced
  | .timer => s.timerCallback
  | op => { s with clock := clockExec s.clock op }

def run (s : Sliced) (ops : List ClockOp) : Sliced := ops.foldl exec s

end Sliced

/-- Scheduling is enabled somewhere in a time slice. -/
def slicedSystem : TransitionSystem Sliced ClockOp :=
  .ofFun (fun s => s.clock.tick < 2 ^ 32 ∧ s.slice < timeSliceTicks ∧
    ∃ pmm, s.kern = processSetSchedulingEnabled (processInit pmm) true) Sliced.exec

/-- Nobody terminates the current process. -/
def SparesOnCpu (s : Sliced) : ClockOp → Prop
  | .terminate pid => pid ≠ s.kern.currentPid
  | _ => True

/-- No call of the run terminates the process `pid` or the one that is current then. -/
def SparesThrough (pid : ℕ) (s : Sliced) : List ClockOp → Prop
  | [] => True
  | op :: ops => SparesOnCpu s op ∧ op ≠ .terminate pid ∧ SparesThrough pid (s.exec op) ops

/-- The process is on the CPU. -/
structure RunsAs (k : Kernel) (i : Slot) (pid : ℕ) : Prop where
  current : k.currentPid = pid
  inUse : (k.table i).inUse = true
  state : (k.table i).state = .running
  pid : (k.table i).pid = pid

/-! ## Calls of the clock as calls of the scheduler -/

def ClockOp.toSched (tick : ℕ) : ClockOp → SchedOp
  | .timer => .tick (wrap32 (tick + 1))
  | .create name fn => .create tick name fn
  | .terminate pid => .terminate pid
  | .schedule => .schedule
  | .sleep ticks => .sleep tick ticks

theorem clockExec_kern (c : Clocked) (op : ClockOp) :
    (clockExec c op).kern = schedExec c.kern (op.toSched c.tick) := by
  cases op <;> rfl

theorem SparesOnCpu.sched {s : Sliced} {op : ClockOp} (h : SparesOnCpu s op) :
    SparesRunning s.kern (op.toSched s.clock.tick) := by
  cases op with
  | terminate pid => exact h
  | _ => trivial

/-! ## One call while a process is ready -/

section Ready

variable {k : Kernel} {c i : Slot} {pid : ℕ}

theorem ReadyAs.kept (h : ReadyAs k i pid) (op : SchedOp) (hkill : op ≠ .terminate pid) :
    ((schedExec k op).table i).inUse = true ∧ ((schedExec k op).table i).pid = pid := by
  have hsame : ∀ {k' : Kernel}, (k.table i).SameOwner (k'.table i) →
      (k'.table i).inUse = true ∧ (k'.table i).pid = pid :=
    fun howner => ⟨howner.inUse.trans h.inUse, howner.pid.trans h.pid⟩
  cases op with
  | create tick name fn =>
    show ((processCreateKernel k tick name fn).2.table i).inUse = true ∧
      ((processCreateKernel k tick name fn).2.table i).pid = pid
    rcases processCreateKernel_spec k tick name fn with ⟨pmm, hrun⟩ | ⟨slot, hslot, hrun⟩
    · rw [hrun]
      exact ⟨h.inUse, h.pid⟩
    · rw [hrun, Kernel.spawn_ne _ _ _ _ (ne_of_findUnusedSlot hslot h.inUse)]
      exact ⟨h.inUse, h.pid⟩
  | terminate q =>
    show ((processTerminate k q).2.table i).inUse = true ∧
      ((processTerminate k q).2.table i).pid = pid
    rcases processTerminate_spec k q with hrun | ⟨slot, pmm, hslot, -, hrun⟩
    · rw [hrun]
      exact ⟨h.inUse, h.pid⟩
    · have hne : i ≠ slot := by
        intro he
        have hpid := (findSlotByPid_some hslot).2
        rw [← he, h.pid] at hpid
        exact hkill (congrArg SchedOp.terminate hpid.symm)
      rw [hrun]
      show ((k.setProc slot _).table i).inUse = true ∧ ((k.setProc slot _).table i).pid = pid
      rw [Kernel.setProc_ne _ _ hne]
      exact ⟨h.inUse, h.pid⟩
  | tick now => exact hsame (processTick_sameOwner k now i)
  | schedule => exact hsame (schedule_sameOwner k i)
  | sleep now ticks => exact hsame (processSleep_sameOwner k now ticks i)

/-- `schedule` takes a ready process to the CPU or leaves it ready. -/
theorem schedule_ready (h : (k.table i).state = .ready) (hi : i ≠ curSlot k) :
    ((schedule k).1.table i).state = .ready ∨ ((schedule k).1.table i).state = .running := by
  rcases schedule_cases k with hrun | ⟨next, -, -, -, hrun⟩
  · rw [hrun]
    exact .inl h
  · rw [hrun]
    by_cases hnext : i = next
    · right
      rw [hnext]
      exact handOver_state_next k ⟨curSlot k, next⟩
    · left
      rw [handOver_ne k ⟨curSlot k, next⟩ hi hnext]
      exact h

theorem ReadyAs.state_kept (h : ReadyAs k i pid) (hc : Scheduled k c) {op : SchedOp}
    (hkill : op ≠ .terminate pid) :
    ((schedExec k op).table i).state = .ready ∨ ((schedExec k op).table i).state = .running := by
  have hi : i ≠ curSlot k := by
    rw [hc.curSlot]
    exact h.ne_current hc
  cases op with
  | create tick name fn =>
    show ((processCreateKernel k tick name fn).2.table i).state = _ ∨
      ((processCreateKernel k tick name fn).2.table i).state = _
    rcases processCreateKernel_spec k tick name fn with ⟨pmm, hrun⟩ | ⟨slot, hslot, hrun⟩
    · rw [hrun]
      exact .inl h.state
    · rw [hrun, Kernel.spawn_ne _ _ _ _ (ne_of_findUnusedSlot hslot h.inUse)]
      exact .inl h.state
  | terminate q =>
    show ((processTerminate k q).2.table i).state = _ ∨ ((processTerminate k q).2.table i).state = _
    rcases processTerminate_spec k q with hrun | ⟨slot, pmm, hslot, -, hrun⟩
    · rw [hrun]
      exact .inl h.state
    · have hne : i ≠ slot := by
        intro he
        have hpid := (findSlotByPid_some hslot).2
        rw [← he, h.pid] at hpid
        exact hkill (congrArg SchedOp.terminate hpid.symm)
      left
      rw [hrun]
      show ((k.setProc slot _).table i).state = .ready
      rw [Kernel.setProc_ne _ _ hne]
      exact h.state
  | tick now =>
    left
    rcases processTick_state k now i with he | ⟨hblocked, -⟩
    · exact he.trans h.state
    · rw [h.state] at hblocked
      cases hblocked
  | schedule => exact schedule_ready h.state hi
  | sleep now ticks =>
    show ((processSleep k now ticks).1.table i).state = _ ∨
      ((processSleep k now ticks).1.table i).state = _
    unfold processSleep
    cases hslot : findSlotByPid k k.currentPid with
    | none => exact .inl h.state
    | some slot =>
      have hcur : curSlot k = slot := by rw [curSlot, hslot, Option.getD_some]
      have hslotc : slot = c := hcur.symm.trans hc.curSlot
      simp only
      split
      · exact .inl h.state
      -- the sleeper blocks its own entry and stays the current process until the switch
      · have howner : (k.table c).SameOwner
            { k.table c with state := .blocked, wakeTick := wrap32 (now + ticks) } :=
          ⟨rfl, rfl, rfl, rfl, rfl, rfl⟩
        rw [hslotc]
        apply schedule_ready
        · rw [Kernel.setProc_ne _ _ (h.ne_current hc)]
          exact h.state
        · rw [(hc.block howner).curSlot]
          exact h.ne_current hc

theorem ReadyAs.tick (h : ReadyAs k i pid) (now : ℕ) : ReadyAs (processTick k now) i pid := by
  have ⟨huse, hpid⟩ := h.kept (.tick now) SchedOp.noConfusion
  refine ⟨huse, hpid, ?_⟩
  rcases processTick_state k now i with he | ⟨hblocked, -⟩
  · exact he.trans h.state
  · rw [h.state] at hblocked
    cases hblocked

/-- A call leaves the process ready, no further from its turn and nearer by every switch, or takes it
to the CPU. -/
theorem ReadyAs.exec (h : ReadyAs k i pid) (hc : Scheduled k c) {op : SchedOp}
    (hop : SparesRunning k op) (hkill : op ≠ .terminate pid)
    (hfew : (schedExec k op).created < 2 ^ 32) :
    ∃ c', Scheduled (schedExec k op) c' ∧
      (RunsAs (schedExec k op) i pid ∨
        ReadyAs (schedExec k op) i pid ∧ RoundRobin.gap c' i ≤ RoundRobin.gap c i ∧
          (op.schedules k = true → RoundRobin.gap c' i < RoundRobin.gap c i)) := by
  have ⟨huse, hpid⟩ := h.kept op hkill
  have hi := h.ne_current hc
  have hiready : isReady k i = true := isReady_iff.mpr ⟨h.inUse, h.state⟩
  have hruns : Scheduled (schedExec k op) i → RunsAs (schedExec k op) i pid :=
    fun hs => ⟨hs.current.2.symm.trans hpid, huse, hs.runs, hpid⟩
  rcases h.state_kept hc hkill with hready | hrun
  · have hnext : ReadyAs (schedExec k op) i pid := ⟨huse, hpid, hready⟩
    rcases hc.call_cases hop hfew with ⟨-, hs, hidle⟩ | ⟨k', next, -, hother, hnextReady, -, -, hs⟩
    · refine ⟨c, hs, .inr ⟨hnext, le_rfl, fun hcalls => ?_⟩⟩
      -- a call of `schedule` that does not switch has found nobody ready
      rw [hidle hcalls i hi] at hiready
      cases hiready
    · have hready' : isReady k' i = true := by
        rw [isReady_iff, hother i hi]
        exact ⟨h.inUse, h.state⟩
      have hne : next ≠ i := by
        intro he
        rw [← he, hs.runs] at hready
        cases hready
      have hgap := RoundRobin.gap_next hnextReady hready' hne
      exact ⟨next, hs, .inr ⟨hnext, hgap.le, fun _ => hgap⟩⟩
  · have ⟨c', hs⟩ := hc.exec hop hfew
    refine ⟨c', hs, .inl ?_⟩
    rcases hs.running i hrun with he | hzero
    · exact hruns (he ▸ hs)
    -- slot 0 is never ready
    · exact absurd hzero (hc.ready_ne hiready)

end Ready

/-! ## One step with its time slice -/

/-- The invariant of the runs. -/
structure SlicedRuns (s : Sliced) (c : Slot) : Prop where
  sched : Scheduled s.kern c
  slice : s.slice < timeSliceTicks
  tick : s.clock.tick < 2 ^ 32

namespace SlicedRuns

variable {s : Sliced} {c i : Slot} {pid : ℕ}

/-- The timer inside a slice and at its end. -/
theorem timerCallback_cases (h : SlicedRuns s c) :
    (s.slice + 1 < timeSliceTicks ∧
        s.timerCallback = { clock := clockExec s.clock .timer, slice := s.slice + 1 }) ∨
      (s.slice + 1 = timeSliceTicks ∧ s.timerCallback =
        { clock := clockExec (clockExec s.clock .timer) .schedule, slice := 0 }) := by
  have hslice : s.slice < 10 := h.slice
  have henabled : (clockExec s.clock .timer).kern.schedulingEnabled = true :=
    (h.sched.tick _).enabled
  unfold Sliced.timerCallback
  simp only [wrap32_of_lt (show s.slice + 1 < 2 ^ 32 by omega), henabled, if_true]
  by_cases hend : s.slice + 1 < timeSliceTicks
  · exact .inl ⟨hend, if_neg (not_le.mpr hend)⟩
  · have hle := not_lt.mp hend
    exact .inr ⟨le_antisymm h.slice hle, if_pos hle⟩

theorem clock_tick_lt (h : SlicedRuns s c) (op : ClockOp) : (clockExec s.clock op).tick < 2 ^ 32 := by
  cases op with
  | timer => exact Nat.mod_lt _ (by decide)
  | _ => exact h.tick

theorem exec (h : SlicedRuns s c) {op : ClockOp} (hop : SparesOnCpu s op)
    (hfew : (s.exec op).kern.created < 2 ^ 32) : ∃ c', SlicedRuns (s.exec op) c' := by
  by_cases htimer : op = .timer
  · rw [htimer] at hfew ⊢
    have htick : Scheduled (clockExec s.clock .timer).kern c := h.sched.tick _
    have hlt := h.clock_tick_lt .timer
    show ∃ c', SlicedRuns s.timerCallback c'
    change s.timerCallback.kern.created < 2 ^ 32 at hfew
    rcases h.timerCallback_cases with ⟨hslice, hrun⟩ | ⟨-, hrun⟩
    · rw [hrun]
      exact ⟨c, htick, hslice, hlt⟩
    · rw [hrun] at hfew ⊢
      have ⟨c', hs⟩ := htick.exec (show SparesRunning _ .schedule from trivial) hfew
      exact ⟨c', hs, Nat.succ_pos _, hlt⟩
  · have hrun : s.exec op = { s with clock := clockExec s.clock op } := by
      cases op with
      | timer => exact absurd rfl htimer
      | _ => rfl
    rw [hrun] at hfew ⊢
    change (clockExec s.clock op).kern.created < 2 ^ 32 at hfew
    rw [clockExec_kern] at hfew
    have ⟨c', hs⟩ := h.sched.exec hop.sched hfew
    refine ⟨c', ?_, h.slice, h.clock_tick_lt op⟩
    show Scheduled (clockExec s.clock op).kern c'
    rw [clockExec_kern]
    exact hs

/-- Ten times the gap to the waiting process, less the ticks of the slice, falls by one with every
timer interrupt and rises with no call. -/
theorem wait (h : SlicedRuns s c) (hready : ReadyAs s.kern i pid) {op : ClockOp}
    (hop : SparesOnCpu s op) (hkill : op ≠ .terminate pid)
    (hfew : (s.exec op).kern.created < 2 ^ 32) :
    ∃ c', SlicedRuns (s.exec op) c' ∧
      (RunsAs (s.exec op).kern i pid ∨ ReadyAs (s.exec op).kern i pid ∧
        10 * RoundRobin.gap c' i + s.slice + ticksOf [op] ≤
          10 * RoundRobin.gap c i + (s.exec op).slice) := by
  by_cases htimer : op = .timer
  · rw [htimer] at hfew ⊢
    have hsched : Scheduled (clockExec s.clock .timer).kern c := h.sched.tick _
    have hnext : ReadyAs (clockExec s.clock .timer).kern i pid := hready.tick _
    have hlt := h.clock_tick_lt .timer
    change s.timerCallback.kern.created < 2 ^ 32 at hfew
    show ∃ c', SlicedRuns s.timerCallback c' ∧ (RunsAs s.timerCallback.kern i pid ∨
      ReadyAs s.timerCallback.kern i pid ∧ 10 * RoundRobin.gap c' i + s.slice + 1 ≤
        10 * RoundRobin.gap c i + s.timerCallback.slice)
    rcases h.timerCallback_cases with ⟨hslice, hrun⟩ | ⟨hslice, hrun⟩
    · rw [hrun]
      exact ⟨c, ⟨hsched, hslice, hlt⟩, .inr ⟨hnext, le_rfl⟩⟩
    -- the slice ends, and `schedule` brings the turn at least one place nearer
    · rw [hrun] at hfew ⊢
      have ⟨c', hs, hcase⟩ := hnext.exec hsched (show SparesRunning _ .schedule from trivial)
        SchedOp.noConfusion hfew
      refine ⟨c', ⟨hs, Nat.succ_pos _, hlt⟩, ?_⟩
      rcases hcase with hruns | ⟨hnext', -, hgap⟩
      · exact .inl hruns
      · have hgap := hgap rfl
        have hten : s.slice + 1 = 10 := hslice
        exact .inr ⟨hnext', by show 10 * _ + s.slice + 1 ≤ 10 * _ + 0; omega⟩
  · have hrun : s.exec op = { s with clock := clockExec s.clock op } := by
      cases op with
      | timer => exact absurd rfl htimer
      | _ => rfl
    have hticks : ticksOf [op] = 0 := by
      cases op with
      | timer => exact absurd rfl htimer
      | _ => rfl
    have hkill' : op.toSched s.clock.tick ≠ .terminate pid := by
      cases op with
      | terminate q => exact fun he => hkill (congrArg ClockOp.terminate (SchedOp.terminate.inj he))
      | _ => exact SchedOp.noConfusion
    rw [hrun] at hfew ⊢
    change (clockExec s.clock op).kern.created < 2 ^ 32 at hfew
    rw [clockExec_kern] at hfew
    have ⟨c', hs, hcase⟩ := hready.exec h.sched hop.sched hkill' hfew
    refine ⟨c', ⟨?_, h.slice, h.clock_tick_lt op⟩, ?_⟩
    · show Scheduled (clockExec s.clock op).kern c'
      rw [clockExec_kern]
      exact hs
    · show RunsAs (clockExec s.clock op).kern i pid ∨ ReadyAs (clockExec s.clock op).kern i pid ∧ _
      rw [clockExec_kern]
      rcases hcase with hruns | ⟨hnext, hgap, -⟩
      · exact .inl hruns
      · exact .inr ⟨hnext, by rw [hticks]; show 10 * _ + s.slice + 0 ≤ 10 * _ + s.slice; omega⟩

end SlicedRuns

/-! ## Runs -/

theorem Sliced.run_cons (s : Sliced) (op : ClockOp) (ops : List ClockOp) :
    s.run (op :: ops) = (s.exec op).run ops := rfl

theorem clockExec_created (c : Clocked) (op : ClockOp) :
    c.kern.created ≤ (clockExec c op).kern.created := by
  rw [clockExec_kern]
  exact schedExec_created c.kern _

theorem exec_created (s : Sliced) (op : ClockOp) : s.kern.created ≤ (s.exec op).kern.created := by
  by_cases htimer : op = .timer
  · rw [htimer]
    have htick := clockExec_created s.clock .timer
    have hsched := clockExec_created (clockExec s.clock .timer) .schedule
    show s.kern.created ≤ s.timerCallback.kern.created
    unfold Sliced.timerCallback
    simp only
    split
    · split
      · exact htick.trans hsched
      · exact htick
    · exact htick
  · cases op with
    | timer => exact absurd rfl htimer
    | _ => exact clockExec_created s.clock _

theorem run_created (s : Sliced) (ops : List ClockOp) : s.kern.created ≤ (s.run ops).kern.created := by
  induction ops generalizing s with
  | nil => exact le_rfl
  | cons op ops ih => exact (exec_created s op).trans (ih (s.exec op))

theorem ticksOf_cons (op : ClockOp) (ops : List ClockOp) :
    ticksOf (op :: ops) = ticksOf [op] + ticksOf ops := by
  unfold ticksOf
  rw [← List.countP_append]
  rfl

namespace SlicedRuns

variable {s : Sliced} {c i : Slot} {pid : ℕ}

/-- Along a run the process gets to the CPU, or it is ready all the time at the cost of its distance. -/
theorem wait_run {ops : List ClockOp} (h : SlicedRuns s c) (hready : ReadyAs s.kern i pid)
    (hops : SparesThrough pid s ops) (hfew : (s.run ops).kern.created < 2 ^ 32) :
    (∃ n, n ≤ ops.length ∧ RunsAs (s.run (ops.take n)).kern i pid) ∨
      ∃ c', SlicedRuns (s.run ops) c' ∧ ReadyAs (s.run ops).kern i pid ∧
        10 * RoundRobin.gap c' i + s.slice + ticksOf ops ≤
          10 * RoundRobin.gap c i + (s.run ops).slice := by
  induction ops generalizing s c with
  | nil => exact .inr ⟨c, h, hready, le_rfl⟩
  | cons op ops ih =>
    have ⟨hop, hkill, hrest⟩ := hops
    rw [Sliced.run_cons] at hfew
    have hle := run_created (s.exec op) ops
    have ⟨c', h', hcase⟩ := h.wait hready hop hkill (by omega)
    rcases hcase with hruns | ⟨hready', hgap⟩
    · exact .inl ⟨1, by simp, hruns⟩
    · rcases ih h' hready' hrest hfew with ⟨n, hn, hruns⟩ | ⟨c'', h'', hready'', hgap'⟩
      · exact .inl ⟨n + 1, Nat.succ_le_succ hn, hruns⟩
      · refine .inr ⟨c'', h'', hready'', ?_⟩
        rw [ticksOf_cons, Sliced.run_cons]
        omega

/-- A ready process runs before the end of the 15th slice. -/
theorem runs_in_time {ops : List ClockOp} (h : SlicedRuns s c) (hready : ReadyAs s.kern i pid)
    (hops : SparesThrough pid s ops) (hfew : (s.run ops).kern.created < 2 ^ 32)
    (hlong : 150 ≤ s.slice + ticksOf ops) :
    ∃ n, n ≤ ops.length ∧ RunsAs (s.run (ops.take n)).kern i pid := by
  rcases h.wait_run hready hops hfew with hruns | ⟨c', h', hready', hgap⟩
  · exact hruns
  · have hpos := RoundRobin.gap_pos c' i
    have hlt : RoundRobin.gap c i < 16 := RoundRobin.gap_lt (hready.ne_current h.sched)
    have hslice : (s.run ops).slice < 10 := h'.slice
    omega

/-! ## A sleeper -/

theorem asleep_ne_current (h : SlicedRuns s c) {w : ℕ} (hs : Asleep s.kern i pid w) :
    s.kern.currentPid ≠ pid := by
  intro he
  -- the current process is in one slot, and running there
  have hi : i = c := by
    apply h.sched.pids i c hs.inUse h.sched.current.1
    rw [hs.pid, h.sched.current.2, he]
  have hstate := hs.state
  rw [hi, h.sched.runs] at hstate
  cases hstate

/-- A call of others. -/
theorem asleep_call (h : SlicedRuns s c) {w : ℕ} (hs : Asleep s.kern i pid w) {op : ClockOp}
    (hkill : op ≠ .terminate pid) (htimer : op ≠ .timer) :
    Asleep (s.exec op).kern i pid w ∧ (s.exec op).clock.tick = s.clock.tick := by
  have halone : LeavesAlone pid s.clock op := by
    cases op with
    | terminate q => exact fun he => hkill (congrArg ClockOp.terminate he)
    | sleep ticks => exact h.asleep_ne_current hs
    | _ => trivial
  cases op with
  | timer => exact absurd rfl htimer
  | _ => exact hs.call halone htimer

/-- A timer interrupt before the sleeper's. -/
theorem asleep_early (h : SlicedRuns s c) {w : ℕ} (hs : Asleep s.kern i pid w)
    (hw : s.clock.tick + 1 < w) (hlt : w < 2 ^ 32) :
    Asleep (s.exec .timer).kern i pid w ∧ (s.exec .timer).clock.tick = s.clock.tick + 1 := by
  have hnow : wrap32 (s.clock.tick + 1) = s.clock.tick + 1 := wrap32_of_lt (by omega)
  have hnext : Asleep (clockExec s.clock .timer).kern i pid w :=
    hs.tick_early _ (.inr (by rw [hnow]; exact hw))
  show Asleep s.timerCallback.kern i pid w ∧ s.timerCallback.clock.tick = _
  rcases h.timerCallback_cases with ⟨-, hrun⟩ | ⟨-, hrun⟩
  · rw [hrun]
    exact ⟨hnext, hnow⟩
  · rw [hrun]
    exact ⟨hnext.schedule, hnow⟩

/-- The sleeper's own timer interrupt makes it ready, and `schedule` may take it at once. -/
theorem asleep_due (h : SlicedRuns s c) (hs : Asleep s.kern i pid (s.clock.tick + 1))
    (hlt : s.clock.tick + 1 < 2 ^ 32) (hfew : (s.exec .timer).kern.created < 2 ^ 32) :
    ∃ c', SlicedRuns (s.exec .timer) c' ∧
      (RunsAs (s.exec .timer).kern i pid ∨ ReadyAs (s.exec .timer).kern i pid) := by
  have hnow : wrap32 (s.clock.tick + 1) = s.clock.tick + 1 := wrap32_of_lt hlt
  have howner := processTick_sameOwner s.kern (wrap32 (s.clock.tick + 1)) i
  have hready : ReadyAs (clockExec s.clock .timer).kern i pid := by
    refine ⟨howner.inUse.trans hs.inUse, howner.pid.trans hs.pid, ?_⟩
    exact hs.tick_due (Nat.succ_ne_zero _) hnow.ge
  have hsched : Scheduled (clockExec s.clock .timer).kern c := h.sched.tick _
  have htick := h.clock_tick_lt .timer
  change s.timerCallback.kern.created < 2 ^ 32 at hfew
  show ∃ c', SlicedRuns s.timerCallback c' ∧
    (RunsAs s.timerCallback.kern i pid ∨ ReadyAs s.timerCallback.kern i pid)
  rcases h.timerCallback_cases with ⟨hslice, hrun⟩ | ⟨-, hrun⟩
  · rw [hrun]
    exact ⟨c, ⟨hsched, hslice, htick⟩, .inr hready⟩
  · rw [hrun] at hfew ⊢
    have ⟨c', hs', hcase⟩ := hready.exec hsched (show SparesRunning _ .schedule from trivial)
      SchedOp.noConfusion hfew
    exact ⟨c', ⟨hs', Nat.succ_pos _, htick⟩, hcase.imp id fun hcase => hcase.1⟩

/-- `m` ticks in front of its wake-up a sleeper sleeps through every shorter run. -/
theorem asleep_run {ops : List ClockOp} {m : ℕ} (h : SlicedRuns s c)
    (hs : Asleep s.kern i pid (s.clock.tick + m)) (hlt : s.clock.tick + m < 2 ^ 32)
    (hops : SparesThrough pid s ops) (hfew : (s.run ops).kern.created < 2 ^ 32)
    (hshort : ticksOf ops < m) :
    (∃ c', SlicedRuns (s.run ops) c') ∧
      Asleep (s.run ops).kern i pid ((s.run ops).clock.tick + (m - ticksOf ops)) := by
  induction ops generalizing s c m with
  | nil => exact ⟨⟨c, h⟩, hs⟩
  | cons op ops ih =>
    have ⟨hop, hkill, hrest⟩ := hops
    rw [ticksOf_cons] at hshort ⊢
    rw [Sliced.run_cons] at hfew ⊢
    have hle := run_created (s.exec op) ops
    have ⟨c', h'⟩ := h.exec hop (by omega)
    by_cases htimer : op = .timer
    · rw [htimer] at h' hrest hfew ⊢
      have hone : ticksOf [ClockOp.timer] = 1 := rfl
      rw [htimer, hone] at hshort
      have ⟨hs', htick⟩ := h.asleep_early hs (by omega) hlt
      rw [show s.clock.tick + m = (s.exec .timer).clock.tick + (m - 1) by omega] at hs' hlt
      have hrun := ih h' hs' hlt hrest hfew (by omega)
      rw [hone, show m - (1 + ticksOf ops) = m - 1 - ticksOf ops by omega]
      exact hrun
    · have hzero : ticksOf [op] = 0 := by
        cases op with
        | timer => exact absurd rfl htimer
        | _ => rfl
      have ⟨hs', htick⟩ := h.asleep_call hs hkill htimer
      rw [← htick] at hs' hlt
      rw [hzero, Nat.zero_add] at hshort ⊢
      exact ih h' hs' hlt hrest hfew hshort

/-- Its ticks over, a sleeper runs within 15 slices. -/
theorem asleep_runs_in_time {ops : List ClockOp} {m : ℕ} (h : SlicedRuns s c)
    (hs : Asleep s.kern i pid (s.clock.tick + m)) (hpos : 0 < m) (hlt : s.clock.tick + m < 2 ^ 32)
    (hops : SparesThrough pid s ops) (hfew : (s.run ops).kern.created < 2 ^ 32)
    (hlong : m + 150 ≤ ticksOf ops) :
    ∃ n, n ≤ ops.length ∧ RunsAs (s.run (ops.take n)).kern i pid := by
  induction ops generalizing s c m with
  | nil => exact absurd hlong (by show ¬ m + 150 ≤ 0; omega)
  | cons op ops ih =>
    have ⟨hop, hkill, hrest⟩ := hops
    rw [ticksOf_cons] at hlong
    rw [Sliced.run_cons] at hfew
    have hle := run_created (s.exec op) ops
    by_cases htimer : op = .timer
    · rw [htimer] at hop hrest hfew hle ⊢
      have hone : ticksOf [ClockOp.timer] = 1 := rfl
      rw [htimer, hone] at hlong
      by_cases hdue : m = 1
      -- this interrupt wakes it, and 150 more are enough
      · rw [hdue] at hs hlt hlong
        have ⟨c', h', hcase⟩ := h.asleep_due hs hlt (by omega)
        rcases hcase with hruns | hready
        · exact ⟨1, by simp, hruns⟩
        · have ⟨n, hn, hruns⟩ := h'.runs_in_time hready hrest hfew (by omega)
          exact ⟨n + 1, Nat.succ_le_succ hn, hruns⟩
      · have ⟨c', h'⟩ := h.exec hop (by omega)
        have ⟨hs', htick⟩ := h.asleep_early hs (by omega) hlt
        rw [show s.clock.tick + m = (s.exec .timer).clock.tick + (m - 1) by omega] at hs' hlt
        have ⟨n, hn, hruns⟩ := ih h' hs' (by omega) hlt hrest hfew (by omega)
        exact ⟨n + 1, Nat.succ_le_succ hn, hruns⟩
    · have hzero : ticksOf [op] = 0 := by
        cases op with
        | timer => exact absurd rfl htimer
        | _ => rfl
      have ⟨c', h'⟩ := h.exec hop (by omega)
      have ⟨hs', htick⟩ := h.asleep_call hs hkill htimer
      rw [← htick] at hs' hlt
      have ⟨n, hn, hruns⟩ := ih h' hs' hpos hlt hrest hfew (by omega)
      exact ⟨n + 1, Nat.succ_le_succ hn, hruns⟩

theorem reach (hr : slicedSystem.Reach SparesOnCpu s) (hfew : s.kern.created < 2 ^ 32) :
    ∃ c, SlicedRuns s c := by
  have hinv : s.kern.created < 2 ^ 32 → ∃ c, SlicedRuns s c := by
    apply hr.invariant
    · intro s ⟨htick, hslice, pmm, hkern⟩ _
      refine ⟨1, ?_, hslice, htick⟩
      rw [hkern]
      exact .processInit pmm
    · intro s op s' _ ih hop hstep hfew
      have hs' : s' = s.exec op := hstep
      rw [hs'] at hfew ⊢
      have hle := exec_created s op
      have ⟨c, hc⟩ := ih (by omega)
      exact hc.exec hop hfew
  exact hinv hfew

end SlicedRuns

/-- What `process_sleep(ticks)` promises its caller, the process `pid` in slot `i`, from the state it
leaves on. -/
structure SleepsInTime (s : Sliced) (i : Slot) (pid ticks : ℕ) (ops : List ClockOp) : Prop where
  asleep : ticksOf ops < ticks →
    ((s.run ops).kern.table i).state = .blocked ∧ (s.run ops).kern.currentPid ≠ pid
  runs : ticks + 150 ≤ ticksOf ops → ∃ n, n ≤ ops.length ∧ RunsAs (s.run (ops.take n)).kern i pid

/-- A sleeper that nobody kills is off the CPU until its ticks are over, and on it again within the 150
timer interrupts behind them, whatever the others call. -/
theorem sleep_latency (s : Sliced) (hr : slicedSystem.Reach SparesOnCpu s)
    (hpid : 1 < s.kern.currentPid) (ticks : ℕ) (hpos : 0 < ticks)
    (hsum : s.clock.tick + ticks < 2 ^ 32) (ops : List ClockOp)
    (hops : SparesThrough s.kern.currentPid (s.exec (.sleep ticks)) ops)
    (hfew : ((s.exec (.sleep ticks)).run ops).kern.creations < 2 ^ 32 - 2) :
    SleepsInTime (s.exec (.sleep ticks)) (curSlot s.kern) s.kern.currentPid ticks ops := by
  unfold Kernel.creations at hfew
  have hle := exec_created s (.sleep ticks)
  have hle' := run_created (s.exec (.sleep ticks)) ops
  have ⟨c, hc⟩ := SlicedRuns.reach hr (by omega)
  have ⟨c', hc'⟩ := hc.exec (show SparesOnCpu s (.sleep ticks) from trivial) (by omega)
  have hslot : findSlotByPid s.kern s.kern.currentPid = some (curSlot s.kern) := by
    have hsome := findSlotByPid_isSome hc.sched.current.1 hc.sched.current.2
    unfold curSlot
    rw [← Option.some_get hsome, Option.getD_some]
  have hsleep := asleep_sleepAt hslot hpid s.clock.tick ticks
  rw [wrap32_of_lt hsum] at hsleep
  have hs : Asleep (s.exec (.sleep ticks)).kern (curSlot s.kern) s.kern.currentPid
    ((s.exec (.sleep ticks)).clock.tick + ticks) := hsleep
  constructor
  · intro hshort
    have ⟨⟨c'', h''⟩, hs''⟩ := hc'.asleep_run hs hsum hops (by omega) hshort
    exact ⟨hs''.state, h''.asleep_ne_current hs''⟩
  · intro hlong
    exact hc'.asleep_runs_in_time hs hpos hsum hops (by omega) hlong

/-- Four ticks into a slice. -/
def slicedStart : Sliced := { clock := { kern := schedStart, tick := 0 }, slice := 4 }

/-- The first process created runs. -/
def firstRuns : Sliced := (slicedStart.exec (.create demoName 1)).exec .schedule

theorem firstRuns_reach : slicedSystem.Reach SparesOnCpu firstRuns := by
  have hstart : slicedSystem.Reach SparesOnCpu slicedStart :=
    .init ⟨by decide, by decide, fourPages, rfl⟩
  have hcreate : slicedSystem.Reach SparesOnCpu (slicedStart.exec (.create demoName 1)) :=
    .step (a := .create demoName 1) hstart trivial rfl
  exact .step (a := .schedule) hcreate trivial rfl

/-- It sleeps for three ticks; the shell creates another process and kills it. -/
def otherCalls : List ClockOp := [.timer, .create demoName 1, .timer, .terminate 3]

theorem Sliced.run_append (s : Sliced) (ops ops' : List ClockOp) :
    s.run (ops ++ ops') = (s.run ops).run ops' := List.foldl_append

theorem SparesThrough.append {pid : ℕ} {s : Sliced} {ops ops' : List ClockOp}
    (h : SparesThrough pid s ops) (h' : SparesThrough pid (s.run ops) ops') :
    SparesThrough pid s (ops ++ ops') := by
  induction ops generalizing s with
  | nil => exact h'
  | cons op ops ih => exact ⟨h.1, h.2.1, ih h.2.2 h'⟩

theorem timers_spare (pid : ℕ) (s : Sliced) (n : ℕ) : SparesThrough pid s (.replicate n .timer) := by
  induction n generalizing s with
  | zero => trivial
  | succ n ih => exact ⟨trivial, ClockOp.noConfusion, ih _⟩

theorem timer_created (s : Sliced) : (s.exec .timer).kern.created = s.kern.created := by
  have htick : (clockExec s.clock .timer).kern.created = s.kern.created := processTick_created s.kern _
  have hsched : (clockExec (clockExec s.clock .timer) .schedule).kern.created = s.kern.created :=
    (schedule_created _).trans htick
  show s.timerCallback.kern.created = _
  unfold Sliced.timerCallback
  simp only
  split
  · split
    · exact hsched
    · exact htick
  · exact htick

theorem timers_created (s : Sliced) (n : ℕ) :
    (s.run (.replicate n .timer)).kern.created = s.kern.created := by
  induction n generalizing s with
  | zero => rfl
  | succ n ih => exact (ih _).trans (timer_created s)

/-- And 152 timer interrupts more. -/
def lateCalls : List ClockOp := otherCalls ++ .replicate 152 .timer

theorem otherCalls_spare :
    SparesThrough firstRuns.kern.currentPid (firstRuns.exec (.sleep 3)) otherCalls :=
  ⟨trivial, ClockOp.noConfusion, trivial, ClockOp.noConfusion, trivial, ClockOp.noConfusion,
    by show 3 ≠ _; decide +kernel,
    fun he => absurd (ClockOp.terminate.inj he) (by decide +kernel), trivial⟩

theorem lateCalls_spare :
    SparesThrough firstRuns.kern.currentPid (firstRuns.exec (.sleep 3)) lateCalls :=
  otherCalls_spare.append (timers_spare _ _ 152)

theorem late_created {ops : List ClockOp} {n : ℕ} (hops : ops = otherCalls ++ .replicate n .timer) :
    ((firstRuns.exec (.sleep 3)).run ops).kern.created = 4 := by
  rw [hops, Sliced.run_append, timers_created]
  decide +kernel

theorem creations_lt {k : Kernel} {n : ℕ} (hpos : 2 < n) (h : k.created < n) : k.creations < n - 2 := by
  unfold Kernel.creations
  omega

theorem late_few {ops : List ClockOp} {n : ℕ} (hops : ops = otherCalls ++ .replicate n .timer) :
    ((firstRuns.exec (.sleep 3)).run ops).kern.creations < 2 ^ 32 - 2 := by
  apply creations_lt (by decide)
  rw [late_created hops]
  decide

theorem lateCalls_ticks : ticksOf lateCalls = 154 := by
  unfold ticksOf lateCalls
  rw [List.countP_append, List.countP_replicate]
  rfl

/-- The process sleeps through the first calls and is on the CPU again before the last. -/
theorem sleep_latency_three_ticks : firstRuns.kern.currentPid = 2 ∧
    (((firstRuns.exec (.sleep 3)).run otherCalls).kern.table (curSlot firstRuns.kern)).state = .blocked ∧
    ∃ n, n ≤ lateCalls.length ∧ RunsAs ((firstRuns.exec (.sleep 3)).run (lateCalls.take n)).kern
      (curSlot firstRuns.kern) firstRuns.kern.currentPid := by
  have hearly := sleep_latency firstRuns firstRuns_reach (by decide +kernel) 3 (by decide)
    (by decide +kernel) otherCalls otherCalls_spare (late_few (n := 0) rfl)
  have hlate := sleep_latency firstRuns firstRuns_reach (by decide +kernel) 3 (by decide)
    (by decide +kernel) lateCalls lateCalls_spare (late_few lateCalls.eq_1)
  exact ⟨by decide +kernel, (hearly.asleep (by decide)).1, hlate.runs (by rw [lateCalls_ticks]; decide)⟩

end MyMisu
