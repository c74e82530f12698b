import MyMisu.Process.Scheduler

/-!
# How long a sleeper sleeps

The clock of `timer.c` beside the table.  A sleeper's wake-up is an absolute tick compared with `>=`,
and 0 stands for none, so the elapsed-time loops, which subtract, and `process_sleep` agree only while
the sum does not wrap.
-/

namespace MyMisu

/-! ## The clock -/

/-- `tick` of `timer.c` and the table. -/
structure Clocked where
  kern : Kernel
  tick : ℕ

inductive ClockOp
  /-- `timer_callback` up to the time slice: `tick++; process_tick();` -/
  | timer
  | create (name : CStr) (fn : ℕ)
  | terminate (pid : ℕ)
  | schedule
  | sleep (ticks : ℕ)

def clockExec (c : Clocked) : ClockOp → Clocked
  | .timer => { kern := processTick c.kern (wrap32 (c.tick + 1)), tick := wrap32 (c.tick + 1) }
  | .create name fn => { c with kern := (processCreateKernel c.kern c.tick name fn).2 }
  | .terminate pid => { c with kern := (processTerminate c.kern pid).2 }
  | .schedule => { c with kern := (schedule c.kern).1 }
  | .sleep ticks => { c with kern := (processSleep c.kern c.tick ticks).1 }

def Clocked.run (c : Clocked) (ops : List ClockOp) : Clocked := ops.foldl clockExec c

/-- The number of timer interrupts. -/
def ticksOf (ops : List ClockOp) : ℕ :=
  ops.countP fun op => match op with | .timer => true | _ => false

/-- Nobody kills the process, and the sleeps are those of others. -/
def LeavesAlone (pid : ℕ) (c : Clocked) : ClockOp → Prop
  | .terminate q => q ≠ pid
  | .sleep _ => c.kern.currentPid ≠ pid
  | _ => True

def LeftAlone (pid : ℕ) (c : Clocked) : List ClockOp → Prop
  | [] => True
  | op :: ops => LeavesAlone pid c op ∧ LeftAlone pid (clockExec c op) ops

/-- `timer_get_ticks() - start < ticks`, the condition of the loops of `sys_sleep` and of
`process_sleep` for the pids 0 and 1. -/
def loopWaits (start now ticks : ℕ) : Prop := wrap32 (now + 2 ^ 32 - start) < ticks

/-- After `process_sleep(ticks)` at tick `start`. -/
def sleepAt (k : Kernel) (start ticks : ℕ) : Clocked where
  kern := (processSleep k start ticks).1
  tick := start

/-- The sleeper in slot `i` is blocked as long as the loops wait and made ready when they end. -/
structure SleepsExactly (k : Kernel) (i : Slot) (start ticks : ℕ) : Prop where
  blocked : ∀ ops, LeftAlone k.currentPid (sleepAt k start ticks) ops → ticksOf ops < ticks →
    (((sleepAt k start ticks).run ops).kern.table i).state = .blocked ∧
      loopWaits start ((sleepAt k start ticks).run ops).tick ticks
  woken : ∀ ops, LeftAlone k.currentPid (sleepAt k start ticks) ops → ticksOf ops + 1 = ticks →
    (((sleepAt k start ticks).run (ops ++ [.timer])).kern.table i).state = .ready ∧
      ¬ loopWaits start ((sleepAt k start ticks).run (ops ++ [.timer])).tick ticks

/-! ## A sleeper -/

/-- The entry of a sleeper. -/
structure Asleep (k : Kernel) (i : Slot) (pid wakeTick : ℕ) : Prop where
  inUse : (k.table i).inUse = true
  pid : (k.table i).pid = pid
  state : (k.table i).state = .blocked
  wakeTick : (k.table i).wakeTick = wakeTick

namespace Asleep

variable {k k' : Kernel} {i : Slot} {pid w now : ℕ}

theorem congr (h : Asleep k i pid w) (htable : k'.table i = k.table i) : Asleep k' i pid w := by
  constructor
  · rw [htable, h.inUse]
  · rw [htable, h.pid]
  · rw [htable, h.state]
  · rw [htable, h.wakeTick]

/-- `schedule` selects ready processes, and the current one keeps a state other than running. -/
theorem schedule (h : Asleep k i pid w) : Asleep (schedule k).1 i pid w := by
  rcases schedule_cases k with hrun | ⟨next, -, hnext, hne, hrun⟩
  · rw [hrun]
    exact h
  · rw [hrun]
    have hready := (isReady_iff.mp (nextReady_isReady hnext)).2
    have hin : i ≠ next := by
      intro he
      rw [← he, h.state] at hready
      cases hready
    by_cases hcur : i = curSlot k
    · have howner := handOver_sameOwner k ⟨curSlot k, next⟩ hne i
      have hstate := h.state
      apply h.congr
      unfold Kernel.handOver
      simp only [Kernel.setProc_ne _ _ hin, ← hcur, Kernel.setProc_self, hstate]
      rw [if_neg (by decide), ← hstate]
    · exact h.congr (handOver_ne k ⟨curSlot k, next⟩ hcur hin)

theorem countTick (h : Asleep k i pid w) : Asleep (countTick k) i pid w := by
  unfold MyMisu.countTick
  cases findSlotByPid k k.currentPid with
  | none => exact h
  | some slot =>
    by_cases hi : i = slot
    · constructor
      · rw [hi, Kernel.setProc_self, ← hi]
        exact h.inUse
      · rw [hi, Kernel.setProc_self, ← hi]
        exact h.pid
      · rw [hi, Kernel.setProc_self, ← hi]
        exact h.state
      · rw [hi, Kernel.setProc_self, ← hi]
        exact h.wakeTick
    · exact h.congr (Kernel.setProc_ne _ _ hi)

/-- Before its tick a sleeper stays asleep. -/
theorem tick_early (h : Asleep k i pid w) (now : ℕ) (hearly : w = 0 ∨ now < w) :
    Asleep (processTick k now) i pid w := by
  have hc := h.countTick
  apply hc.congr
  show ((MyMisu.countTick k).table i).wake now = (MyMisu.countTick k).table i
  unfold Process.wake
  rw [if_neg]
  rintro ⟨-, -, hne, hge⟩
  rw [hc.wakeTick] at hne hge
  omega

/-- From its tick on it is woken. -/
theorem tick_due (h : Asleep k i pid w) (hw : w ≠ 0) (hdue : w ≤ now) :
    ((processTick k now).table i).state = .ready := by
  have hc := h.countTick
  show (((MyMisu.countTick k).table i).wake now).state = .ready
  unfold Process.wake
  rw [if_pos]
  rw [hc.inUse, hc.state, hc.wakeTick]
  exact ⟨rfl, rfl, hw, hdue⟩

theorem other (h : Asleep k i pid w) {slot : Slot} {q : ℕ} (hslot : findSlotByPid k q = some slot)
    (hq : q ≠ pid) : i ≠ slot := by
  intro he
  have hpid := (findSlotByPid_some hslot).2
  rw [← he, h.pid] at hpid
  exact hq hpid.symm

/-- The calls of others leave a sleeper asleep. -/
theorem call {c : Clocked} {op : ClockOp} (h : Asleep c.kern i pid w) (hop : LeavesAlone pid c op)
    (hcall : op ≠ .timer) : Asleep (clockExec c op).kern i pid w ∧ (clockExec c op).tick = c.tick := by
  cases op with
  | timer => exact absurd rfl hcall
  | create name fn =>
    refine ⟨?_, rfl⟩
    show Asleep (processCreateKernel c.kern c.tick name fn).2 i pid w
    rcases processCreateKernel_spec c.kern c.tick name fn with ⟨pmm, hrun⟩ | ⟨slot, hslot, hrun⟩
    · rw [hrun]
      exact h.congr rfl
    · rw [hrun]
      exact h.congr (Kernel.spawn_ne _ _ _ _ (ne_of_findUnusedSlot hslot h.inUse))
  | terminate q =>
    refine ⟨?_, rfl⟩
    show Asleep (processTerminate c.kern q).2 i pid w
    rcases processTerminate_spec c.kern q with hrun | ⟨slot, pmm, hslot, -, hrun⟩
    · rw [hrun]
      exact h
    · rw [hrun]
      exact h.congr (Kernel.setProc_ne _ _ (h.other hslot hop))
  | schedule => exact ⟨h.schedule, rfl⟩
  | sleep ticks =>
    refine ⟨?_, rfl⟩
    show Asleep (processSleep c.kern c.tick ticks).1 i pid w
    unfold processSleep
    cases hslot : findSlotByPid c.kern c.kern.currentPid with
    | none => exact h
    | some slot =>
      simp only
      split
      · exact h
      · apply Asleep.schedule
        -- pid 0 and 1 wait busily, and another sleeper blocks its own entry
        exact h.congr (Kernel.setProc_ne _ _ (h.other hslot hop))

/-- Through a run none of whose ticks is the sleeper's it stays asleep; `m` ticks have passed
before. -/
theorem run {c : Clocked} {start m : ℕ} {ops : List ClockOp} (h : Asleep c.kern i pid w)
    (htick : c.tick = wrap32 (start + m)) (halone : LeftAlone pid c ops)
    (hearly : ∀ l, m < l → l ≤ m + ticksOf ops → w = 0 ∨ wrap32 (start + l) < w) :
    Asleep (c.run ops).kern i pid w ∧ (c.run ops).tick = wrap32 (start + (m + ticksOf ops)) := by
  induction ops generalizing c m with
  -- on the calls; m counts the ticks so far, and only a tick can wake the sleeper
  | nil => exact ⟨h, htick⟩
  | cons op ops ih =>
    have ⟨hop, halone⟩ := halone
    show Asleep ((clockExec c op).run ops).kern i pid w ∧ ((clockExec c op).run ops).tick = _
    by_cases htimer : op = .timer
    · rw [htimer] at halone ⊢
      have hcount : ticksOf (op :: ops) = ticksOf ops + 1 := by
        rw [htimer]
        exact List.countP_cons_of_pos rfl
      have hnext : wrap32 (c.tick + 1) = wrap32 (start + (m + 1)) := by
        rw [htick]
        exact Nat.mod_add_mod _ _ _
      have hnow : w = 0 ∨ wrap32 (c.tick + 1) < w := by
        rw [hnext]
        exact hearly (m + 1) (by omega) (by omega)
      have hrun := ih (c := clockExec c .timer) (m := m + 1) (h.tick_early _ hnow) hnext halone
        fun l hlo hhi => hearly l (by omega) (by omega)
      rw [show m + ticksOf (.timer :: ops) = m + 1 + ticksOf ops by rw [← htimer]; omega]
      exact hrun
    · have hcount : ticksOf (op :: ops) = ticksOf ops := by
        apply List.countP_cons_of_neg
        cases op with
        | timer => exact absurd rfl htimer
        | _ => exact Bool.false_ne_true
      have ⟨h', htick'⟩ := h.call hop htimer
      rw [hcount] at hearly ⊢
      exact ih h' (htick'.trans htick) halone hearly

end Asleep

theorem asleep_sleepAt {k : Kernel} {i : Slot} (hslot : findSlotByPid k k.currentPid = some i)
    (hpid : 1 < k.currentPid) (start ticks : ℕ) :
    Asleep (sleepAt k start ticks).kern i k.currentPid (wrap32 (start + ticks)) := by
  have ⟨huse, hcur⟩ := findSlotByPid_some hslot
  show Asleep (processSleep k start ticks).1 i _ _
  unfold processSleep
  rw [hslot]
  simp only [if_neg (show ¬ k.currentPid ≤ 1 by omega)]
  apply Asleep.schedule
  constructor
  · rw [Kernel.setProc_self]
    exact huse
  · rw [Kernel.setProc_self]
    exact hcur
  · rw [Kernel.setProc_self]
  · rw [Kernel.setProc_self]

/-! ## Wrap-around -/

theorem run_timer (c : Clocked) (ops : List ClockOp) :
    c.run (ops ++ [.timer]) = clockExec (c.run ops) .timer := List.foldl_append

theorem elapsed_ticks {start m : ℕ} (hstart : start < 2 ^ 32) (hm : m < 2 ^ 32) :
    wrap32 (wrap32 (start + m) + 2 ^ 32 - start) = m := by
  unfold wrap32
  omega

/-- The wake-up is in front of all ticks but the last of the sleep. -/
theorem wakeTick_last {start ticks l : ℕ} (hn : ticks < 2 ^ 32)
    (h : start + ticks < 2 ^ 32 ∨ start + 1 = 2 ^ 32 ∧ 2 ≤ ticks) (hpos : 0 < l) (hl : l < ticks) :
    wrap32 (start + l) < wrap32 (start + ticks) := by
  unfold wrap32
  omega

theorem leftAlone_timers (pid : ℕ) (c : Clocked) (m : ℕ) :
    LeftAlone pid c (List.replicate m .timer) := by
  induction m generalizing c with
  | zero => trivial
  | succ m ih => exact ⟨trivial, ih _⟩

theorem ticksOf_timers (m : ℕ) : ticksOf (List.replicate m .timer) = m := by
  unfold ticksOf
  rw [List.countP_replicate]
  rfl

section Sleeper

variable {k : Kernel} {i : Slot} {start ticks : ℕ} (hslot : findSlotByPid k k.currentPid = some i)
  (hpid : 1 < k.currentPid) (hstart : start < 2 ^ 32) (hn : ticks < 2 ^ 31)

include hslot hpid hstart hn

theorem sleepsExactly (h : start + ticks < 2 ^ 32 ∨ start + 1 = 2 ^ 32 ∧ 2 ≤ ticks) :
    SleepsExactly k i start ticks := by
  have hasleep := asleep_sleepAt hslot hpid start ticks
  have htick : (sleepAt k start ticks).tick = wrap32 (start + 0) := (wrap32_of_lt hstart).symm
  constructor
  · intro ops halone hops
    have ⟨hrun, hnow⟩ := hasleep.run htick halone fun l hlo hhi =>
      .inr (wakeTick_last (by omega) h hlo (by omega))
    refine ⟨hrun.state, ?_⟩
    unfold loopWaits
    rw [hnow, elapsed_ticks hstart (by omega)]
    omega
  · intro ops halone hops
    have ⟨hrun, hnow⟩ := hasleep.run htick halone fun l hlo hhi =>
      .inr (wakeTick_last (by omega) h hlo (by omega))
    have hlast : wrap32 (((sleepAt k start ticks).run ops).tick + 1) = wrap32 (start + ticks) := by
      rw [hnow, show start + ticks = start + (0 + ticksOf ops) + 1 by omega]
      exact Nat.mod_add_mod _ _ _
    rw [run_timer]
    constructor
    · -- the sum has not wrapped to 0, which would mean no wake-up
      have hw : wrap32 (start + ticks) ≠ 0 := by
        unfold wrap32
        omega
      exact hrun.tick_due hw hlast.ge
    · unfold loopWaits
      rw [show (clockExec ((sleepAt k start ticks).run ops) .timer).tick = _ from hlast,
        elapsed_ticks hstart (by omega)]
      omega

theorem not_sleepsExactly (hpos : 1 ≤ ticks)
    (h : ¬ (start + ticks < 2 ^ 32 ∨ start + 1 = 2 ^ 32 ∧ 2 ≤ ticks)) :
    ¬ SleepsExactly k i start ticks := by
  intro hsleep
  have hasleep := asleep_sleepAt hslot hpid start ticks
  have htick : (sleepAt k start ticks).tick = wrap32 (start + 0) := (wrap32_of_lt hstart).symm
  by_cases hzero : start + ticks = 2 ^ 32
  · -- the sum wraps to 0: the sleeper is never woken
    have hw : wrap32 (start + ticks) = 0 := by rw [hzero]; rfl
    rw [hw] at hasleep
    have hcount := ticksOf_timers (ticks - 1)
    have hready := (hsleep.woken (List.replicate (ticks - 1) .timer) (leftAlone_timers _ _ _)
      (by omega)).1
    rw [run_timer] at hready
    have ⟨hrun, _⟩ := hasleep.run htick (leftAlone_timers k.currentPid _ (ticks - 1))
      fun _ _ _ => .inl rfl
    have hstill := hrun.tick_early
      (wrap32 (((sleepAt k start ticks).run (List.replicate (ticks - 1) .timer)).tick + 1)) (.inl rfl)
    have hstate := hstill.state
    change ((processTick _ _).table i).state = .ready at hready
    rw [hready] at hstate
    cases hstate
  · -- the sum wraps to a tick that has passed: the next timer interrupt wakes the sleeper
    have hstate := (hsleep.blocked [.timer] ⟨trivial, trivial⟩ (by show 1 < ticks; omega)).1
    have hw : wrap32 (start + ticks) ≠ 0 := by
      unfold wrap32
      omega
    have hdue : wrap32 (start + ticks) ≤ wrap32 (start + 1) := by
      unfold wrap32
      omega
    have hready := hasleep.tick_due hw hdue
    change ((processTick (sleepAt k start ticks).kern (wrap32 (start + 1))).table i).state = .blocked
      at hstate
    rw [hready] at hstate
    cases hstate

end Sleeper

/-- A sleep is exact if and only if its end does not wrap, or it starts at the last tick before the
wrap and is longer than one tick. -/
theorem sleeps_exactly_iff (k : Kernel) (i : Slot) (hslot : findSlotByPid k k.currentPid = some i)
    (hpid : 1 < k.currentPid) (start ticks : ℕ) (hstart : start < 2 ^ 32) (hpos : 1 ≤ ticks)
    (hn : ticks < 2 ^ 31) :
    SleepsExactly k i start ticks ↔ start + ticks < 2 ^ 32 ∨ start + 1 = 2 ^ 32 ∧ 2 ≤ ticks := by
  constructor
  · intro hsleep
    by_contra h
    exact not_sleepsExactly hslot hpid hstart hn hpos h hsleep
  · exact sleepsExactly hslot hpid hstart hn

theorem sleeps_exactly_ten_ticks :
    SleepsExactly firstSwitch 2 100 10 ↔ 100 + 10 < 2 ^ 32 ∨ 100 + 1 = 2 ^ 32 ∧ 2 ≤ 10 :=
  sleeps_exactly_iff firstSwitch 2 (by decide +kernel) (by decide +kernel) 100 10 (by decide)
    (by decide) (by decide)

/-- Five ticks before the wrap a sleep of ten ticks ends at the next one. -/
theorem sleep_ends_early_before_wrap :
    ¬ ∀ k i, findSlotByPid k k.currentPid = some i → 1 < k.currentPid →
      ∀ start ticks, start < 2 ^ 32 → 1 ≤ ticks → ticks < 2 ^ 31 → SleepsExactly k i start ticks := by
  intro hall
  have hsleep := hall firstSwitch 2 (by decide +kernel) (by decide +kernel) (2 ^ 32 - 5) 10
    (by decide) (by decide) (by decide)
  have hstate := (hsleep.blocked [.timer] ⟨trivial, trivial⟩ (by decide)).1
  revert hstate
  decide +kernel

end MyMisu
