import MyMisu.Lib.RoundRobin
import MyMisu.Process.Machine
import MyMisu.Process.Table

/-!
# Who runs

The calls of `process.c` as atomic steps on the table.  The current process is the one that is
running, and the shell is ready whenever it is not the current process, so that a sleeper always
finds somebody to switch to.
-/

namespace MyMisu

/-! ## Runs of the scheduler -/

/-- `schedule` is also `process_yield`. -/
inductive SchedOp
  | create (tick : ℕ) (name : CStr) (fn : ℕ)
  | terminate (pid : ℕ)
  | tick (now : ℕ)
  | schedule
  | sleep (now ticks : ℕ)

/-- A call with the switch it makes. -/
def schedCall (k : Kernel) : SchedOp → Kernel × Option Switch
  | .create tick name fn => ((processCreateKernel k tick name fn).2, none)
  | .terminate pid => ((processTerminate k pid).2, none)
  | .tick now => (processTick k now, none)
  | .schedule => schedule k
  | .sleep now ticks => processSleep k now ticks

def schedExec (k : Kernel) (op : SchedOp) : Kernel := (schedCall k op).1

/-- The table from `process_init` on, with scheduling enabled. -/
def schedSystem : TransitionSystem Kernel SchedOp :=
  .ofFun (fun k => ∃ pmm, k = processSetSchedulingEnabled (processInit pmm) true) schedExec

/-- The call gets to `schedule`. -/
def SchedOp.schedules (k : Kernel) : SchedOp → Bool
  | .schedule => true
  | .sleep _ _ => (processGetCurrent k).isSome && decide (1 < k.currentPid)
  | _ => false

/-- Nobody terminates the current process. -/
def SparesRunning (k : Kernel) : SchedOp → Prop
  | .terminate pid => pid ≠ k.currentPid
  | _ => True

/-- The number of processes created since `process_init`. -/
def Kernel.creations (k : Kernel) : ℕ := k.created - 2

/-- The current pid names one entry, which alone is running, apart from slot 0. -/
structure CurrentRuns (k : Kernel) : Prop where
  current : ∃! i, (k.table i).inUse = true ∧ (k.table i).pid = k.currentPid
  running : ∀ i, (k.table i).inUse = true → (k.table i).pid = k.currentPid →
    (k.table i).state = .running
  others : ∀ i, (k.table i).state = .running →
    ((k.table i).inUse = true ∧ (k.table i).pid = k.currentPid) ∨ i = 0
  shell : 1 < k.currentPid →
    (k.table 1).inUse = true ∧ (k.table 1).pid = 1 ∧ (k.table 1).state = .ready

/-- A sleeper hands the CPU to another process and is left blocked. -/
def SleepSwitches (k : Kernel) : Prop :=
  1 < k.currentPid → ∀ now ticks, ∃ sw, (processSleep k now ticks).2 = some sw ∧
    (k.table sw.cur).pid = k.currentPid ∧ sw.next ≠ sw.cur ∧
    ((processSleep k now ticks).1.table sw.cur).state = .blocked ∧
    ((processSleep k now ticks).1.table sw.next).state = .running ∧
    (processSleep k now ticks).1.currentPid = (k.table sw.next).pid

/-! ## What the calls do -/

variable {k : Kernel} {c i : Slot}

theorem nextReady_eq (k : Kernel) (cur : Slot) :
    nextReady k cur = RoundRobin.next (isReady k) cur := rfl

theorem processCreateKernel_spec (k : Kernel) (tick : ℕ) (name : CStr) (fn : ℕ) :
    (∃ pmm, (processCreateKernel k tick name fn).2 = { k with pmm := pmm }) ∨
      ∃ slot, findUnusedSlot k = some slot ∧
        (processCreateKernel k tick name fn).2 = k.spawn slot tick name fn := by
  unfold processCreateKernel
  cases hslot : findUnusedSlot k with
  | none => exact .inl ⟨k.pmm, rfl⟩
  | some slot =>
    by_cases hstack : (pmmAllocPage k.pmm).1 = 0
    · left
      simp only [hstack, if_true]
      exact ⟨_, rfl⟩
    · right
      simp only [hstack, if_false]
      exact ⟨slot, rfl, rfl⟩

/-- The entry `process_terminate` leaves. -/
def Process.terminated (p : Process) : Process :=
  { p with state := .terminated, inUse := false, kstack := 0 }

theorem processTerminate_spec (k : Kernel) (pid : ℕ) :
    (processTerminate k pid).2 = k ∨
      ∃ slot pmm, findSlotByPid k pid = some slot ∧ 1 < pid ∧
        (processTerminate k pid).2 =
          { k.setProc slot (k.table slot).terminated with pmm := pmm } := by
  unfold processTerminate
  cases hslot : findSlotByPid k pid with
  | none => exact .inl rfl
  | some slot =>
    by_cases hpid : pid ≤ 1
    · exact .inl (by simp only [hpid, if_true])
    · right
      simp only [hpid, if_false]
      exact ⟨slot, _, rfl, by omega, rfl⟩

theorem wake_ready {p : Process} {now : ℕ} :
    (p.wake now).state = p.state ∨ p.state = .blocked ∧ (p.wake now).state = .ready := by
  unfold Process.wake
  split
  · next h => exact .inr ⟨h.2.1, rfl⟩
  · exact .inl rfl

theorem countTick_state (k : Kernel) (i : Slot) :
    ((countTick k).table i).state = (k.table i).state := by
  unfold countTick
  cases findSlotByPid k k.currentPid with
  | none => rfl
  | some slot =>
    by_cases hi : i = slot
    · rw [hi, Kernel.setProc_self]
    · rw [Kernel.setProc_ne _ _ hi]

/-- The clock wakes sleepers and changes no other state. -/
theorem processTick_state (k : Kernel) (now : ℕ) (i : Slot) :
    ((processTick k now).table i).state = (k.table i).state ∨
      (k.table i).state = .blocked ∧ ((processTick k now).table i).state = .ready := by
  have h : (((countTick k).table i).wake now).state = ((countTick k).table i).state ∨ _ := wake_ready
  rw [countTick_state] at h
  exact h

theorem countTick_rest (k : Kernel) : (countTick k).nextPid = k.nextPid ∧
    (countTick k).schedulingEnabled = k.schedulingEnabled ∧ (countTick k).created = k.created := by
  unfold countTick
  cases findSlotByPid k k.currentPid with
  | none => exact ⟨rfl, rfl, rfl⟩
  | some slot => exact ⟨rfl, rfl, rfl⟩

theorem handOver_state_cur (k : Kernel) (sw : Switch) (hne : sw.next ≠ sw.cur) :
    ((k.handOver sw).table sw.cur).state =
      if (k.table sw.cur).state = .running then .ready else (k.table sw.cur).state := by
  unfold Kernel.handOver
  simp only [Kernel.setProc_ne _ _ hne.symm, Kernel.setProc_self]

theorem handOver_state_next (k : Kernel) (sw : Switch) :
    ((k.handOver sw).table sw.next).state = .running := by
  unfold Kernel.handOver
  simp only [Kernel.setProc_self]

theorem handOver_ne (k : Kernel) (sw : Switch) (hcur : i ≠ sw.cur) (hnext : i ≠ sw.next) :
    (k.handOver sw).table i = k.table i := by
  unfold Kernel.handOver
  simp only [Kernel.setProc_ne _ _ hnext, Kernel.setProc_ne _ _ hcur]

/-! ## The invariant -/

/-- The entries of the kernel, the shell and the current process, which is in slot `c` and may have
stopped running. -/
structure TableRuns (k : Kernel) (c : Slot) : Prop where
  enabled : k.schedulingEnabled = true
  kernelProc : (k.table 0).inUse = true ∧ (k.table 0).pid = 0 ∧ (k.table 0).state = .running
  shellProc : (k.table 1).inUse = true ∧ (k.table 1).pid = 1
  shellReady : c ≠ 1 → (k.table 1).state = .ready
  current : (k.table c).inUse = true ∧ (k.table c).pid = k.currentPid
  notKernel : c ≠ 0
  running : ∀ i, (k.table i).state = .running → i = c ∨ i = 0
  pids : ∀ i j, (k.table i).inUse = true → (k.table j).inUse = true →
    (k.table i).pid = (k.table j).pid → i = j
  fresh : ∀ i, (k.table i).inUse = true → (k.table i).pid < k.nextPid
  nextPid : k.nextPid = k.created

namespace TableRuns

theorem curSlot (h : TableRuns k c) : curSlot k = c := by
  have hsome := findSlotByPid_isSome h.current.1 h.current.2
  have ⟨huse, hpid⟩ := curSlot_inUse hsome
  exact h.pids _ c huse h.current.1 (hpid.trans h.current.2.symm)

theorem ne_one (h : TableRuns k c) (hpid : 1 < k.currentPid) : c ≠ 1 := by
  intro hc
  have hcur := h.current.2
  rw [hc, h.shellProc.2] at hcur
  omega

theorem ready_ne (h : TableRuns k c) (hi : isReady k i = true) : i ≠ 0 := by
  intro hi0
  rw [hi0, isReady_iff, h.kernelProc.2.2] at hi
  cases hi.2

/-- The next process takes over; the last one may be blocked, but not the shell. -/
theorem handOver (h : TableRuns k c) {next : Slot} (hready : isReady k next = true) (hne : next ≠ c)
    (hshell : c = 1 → (k.table c).state = .running) :
    TableRuns (k.handOver ⟨c, next⟩) next ∧
      ((k.handOver ⟨c, next⟩).table next).state = .running := by
  have ⟨huse, hstate⟩ := isReady_iff.mp hready
  have hzero := h.ready_ne hready
  have howner := handOver_sameOwner k ⟨c, next⟩ hne
  have hcur := handOver_state_cur k ⟨c, next⟩ hne
  refine ⟨⟨h.enabled, ?_, ?_, ?_, ?_, hzero, ?_, ?_, ?_, h.nextPid⟩, handOver_state_next k ⟨c, next⟩⟩
  · rw [handOver_ne k ⟨c, next⟩ h.notKernel.symm hzero.symm]
    exact h.kernelProc
  · rw [(howner 1).inUse, (howner 1).pid]
    exact h.shellProc
  · intro hone
    by_cases hc : c = 1
    · -- the shell was running until now
      have hrun := hshell hc
      subst hc
      rw [hcur]
      exact if_pos hrun
    · rw [handOver_ne k ⟨c, next⟩ (Ne.symm hc) (Ne.symm hone)]
      exact h.shellReady hc
  · rw [(howner next).inUse, (howner next).pid]
    exact ⟨huse, (handOver_currentPid k ⟨c, next⟩ hne).symm⟩
  · intro i hi
    by_cases hnext : i = next
    · exact .inl hnext
    · by_cases hic : i = c
      · rw [hic, hcur] at hi
        split at hi
        · cases hi
        · contradiction
      · rw [handOver_ne k ⟨c, next⟩ hic hnext] at hi
        exact .inr ((h.running i hi).resolve_left hic)
  · exact Kernel.TellsApart.mono (f := Process.pid) h.pids fun i hi =>
      ⟨(howner i).used hi, (howner i).pid⟩
  · intro i hi
    rw [(howner i).pid]
    exact h.fresh i ((howner i).used hi)

theorem spawn (h : TableRuns k c) (hfew : k.created + 1 < 2 ^ 32) {slot : Slot}
    (hslot : findUnusedSlot k = some slot) (tick : ℕ) (name : CStr) (fn : ℕ) :
    TableRuns (k.spawn slot tick name fn) c := by
  have hne : ∀ i, (k.table i).inUse = true → i ≠ slot := fun i hi => ne_of_findUnusedSlot hslot hi
  have hnext : wrap32 (k.nextPid + 1) = k.created + 1 := by
    rw [h.nextPid]
    exact Nat.mod_eq_of_lt hfew
  refine ⟨h.enabled, ?_, ?_, ?_, ?_, h.notKernel, ?_, ?_, ?_, hnext⟩
  · rw [Kernel.spawn_ne _ _ _ _ (hne 0 h.kernelProc.1)]
    exact h.kernelProc
  · rw [Kernel.spawn_ne _ _ _ _ (hne 1 h.shellProc.1)]
    exact h.shellProc
  · rw [Kernel.spawn_ne _ _ _ _ (hne 1 h.shellProc.1)]
    exact h.shellReady
  · rw [Kernel.spawn_ne _ _ _ _ (hne c h.current.1)]
    exact h.current
  · intro i hi
    by_cases his : i = slot
    · rw [his, Kernel.spawn_self] at hi
      cases hi
    · rw [Kernel.spawn_ne _ _ _ _ his] at hi
      exact h.running i hi
  · apply Kernel.TellsApart.spawn (f := Process.pid) h.pids
    intro i hi
    -- the new pid is larger than those in use
    rw [Kernel.spawn_self]
    exact (h.fresh i hi).ne
  · intro i hi
    -- below next_pid: 2 ^ 32 creations have not been made, so the counter has not wrapped
    show ((k.spawn slot tick name fn).table i).pid < wrap32 (k.nextPid + 1)
    rw [hnext, ← h.nextPid]
    by_cases his : i = slot
    · rw [his, Kernel.spawn_self]
      exact Nat.lt_succ_self k.nextPid
    · rw [Kernel.spawn_ne _ _ _ _ his] at hi ⊢
      exact Nat.lt_succ_of_lt (h.fresh i hi)

theorem terminate (h : TableRuns k c) {slot : Slot} (hpid : 1 < (k.table slot).pid)
    (hother : slot ≠ c) (pmm : Pmm) :
    TableRuns { k.setProc slot (k.table slot).terminated with pmm := pmm } c := by
  have hzero : (0 : Slot) ≠ slot := by
    intro he
    -- pid > 1 spares the kernel and the shell
    rw [← he, h.kernelProc.2.1] at hpid
    omega
  have hone : (1 : Slot) ≠ slot := by
    intro he
    rw [← he, h.shellProc.2] at hpid
    omega
  have hkeep : ∀ i, ((k.setProc slot (k.table slot).terminated).table i).inUse = true →
      i ≠ slot := fun i hi => Kernel.ne_of_inUse_setProc rfl hi
  refine ⟨h.enabled, ?_, ?_, ?_, ?_, h.notKernel, ?_, ?_, ?_, h.nextPid⟩
  · show ((k.setProc slot (k.table slot).terminated).table 0).inUse = true ∧ _
    rw [Kernel.setProc_ne _ _ hzero]
    exact h.kernelProc
  · show ((k.setProc slot (k.table slot).terminated).table 1).inUse = true ∧ _
    rw [Kernel.setProc_ne _ _ hone]
    exact h.shellProc
  · show c ≠ 1 → ((k.setProc slot (k.table slot).terminated).table 1).state = _
    rw [Kernel.setProc_ne _ _ hone]
    exact h.shellReady
  · show ((k.setProc slot (k.table slot).terminated).table c).inUse = true ∧ _
    rw [Kernel.setProc_ne _ _ hother.symm]
    exact h.current
  · intro i hi
    change ((k.setProc slot (k.table slot).terminated).table i).state = .running at hi
    -- the terminated entry is left in state TERMINATED, not RUNNING
    by_cases his : i = slot
    · rw [his, Kernel.setProc_self] at hi
      cases hi
    · rw [Kernel.setProc_ne _ _ his] at hi
      exact h.running i hi
  · apply Kernel.TellsApart.mono (f := Process.pid) h.pids
    intro i hi
    have his := hkeep i hi
    change ((k.setProc slot (k.table slot).terminated).table i).inUse = true at hi
    show _ ∧ ((k.setProc slot (k.table slot).terminated).table i).pid = _
    rw [Kernel.setProc_ne _ _ his] at hi ⊢
    exact ⟨hi, rfl⟩
  · intro i hi
    have his := hkeep i hi
    change ((k.setProc slot (k.table slot).terminated).table i).inUse = true at hi
    change ((k.setProc slot (k.table slot).terminated).table i).pid < k.nextPid
    rw [Kernel.setProc_ne _ _ his] at hi ⊢
    exact h.fresh i hi

/-- Owners stay, and states change from blocked to ready only. -/
theorem wake {k' : Kernel} (h : TableRuns k c) (howner : ∀ i, (k.table i).SameOwner (k'.table i))
    (hstate : ∀ i, (k'.table i).state = (k.table i).state ∨
      (k.table i).state = .blocked ∧ (k'.table i).state = .ready)
    (hpid : k'.currentPid = k.currentPid) (hnext : k'.nextPid = k.nextPid)
    (henabled : k'.schedulingEnabled = k.schedulingEnabled) (hcreated : k'.created = k.created) :
    TableRuns k' c where
  enabled := henabled.trans h.enabled
  kernelProc := by
    rw [(howner 0).inUse, (howner 0).pid]
    -- the kernel's entry is RUNNING for good, and only a BLOCKED process is woken
    refine ⟨h.kernelProc.1, h.kernelProc.2.1, ?_⟩
    rcases hstate 0 with he | ⟨hb, -⟩
    · exact he.trans h.kernelProc.2.2
    · rw [h.kernelProc.2.2] at hb
      cases hb
  shellProc := by
    rw [(howner 1).inUse, (howner 1).pid]
    exact h.shellProc
  shellReady hc := by
    rcases hstate 1 with he | ⟨-, hr⟩
    · exact he.trans (h.shellReady hc)
    · exact hr
  current := by
    rw [(howner c).inUse, (howner c).pid, hpid]
    exact h.current
  notKernel := h.notKernel
  running i hi := by
    rcases hstate i with he | ⟨-, hr⟩
    · exact h.running i (he.symm.trans hi)
    · rw [hr] at hi
      cases hi
  pids := Kernel.TellsApart.mono (f := Process.pid) h.pids fun i hi =>
    ⟨(howner i).used hi, (howner i).pid⟩
  fresh i hi := by
    rw [(howner i).pid, hnext]
    exact h.fresh i ((howner i).used hi)
  nextPid := by rw [hnext, hcreated, h.nextPid]

/-- The current process stops running. -/
theorem block (h : TableRuns k c) {p : Process} (howner : (k.table c).SameOwner p) :
    TableRuns (k.setProc c p) c where
  enabled := h.enabled
  kernelProc := by
    rw [Kernel.setProc_ne _ _ h.notKernel.symm]
    exact h.kernelProc
  shellProc := by
    -- only the state of the current entry changes, and nothing asks what it is
    rw [(howner.setProc 1).inUse, (howner.setProc 1).pid]
    exact h.shellProc
  shellReady hc := by
    rw [Kernel.setProc_ne _ _ hc.symm]
    exact h.shellReady hc
  current := by
    rw [(howner.setProc c).inUse, (howner.setProc c).pid]
    exact h.current
  notKernel := h.notKernel
  running i hi := by
    by_cases hic : i = c
    · exact .inl hic
    · rw [Kernel.setProc_ne _ _ hic] at hi
      exact h.running i hi
  pids := Kernel.TellsApart.mono (f := Process.pid) h.pids fun i hi =>
    ⟨(howner.setProc i).used hi, (howner.setProc i).pid⟩
  fresh i hi := by
    rw [(howner.setProc i).pid]
    exact h.fresh i ((howner.setProc i).used hi)
  nextPid := h.nextPid

theorem schedule_cases (h : TableRuns k c) :
    (schedule k = (k, none) ∧ ∀ i, i ≠ c → isReady k i = false) ∨
      ∃ next, RoundRobin.next (isReady k) c = some next ∧ next ≠ c ∧
        schedule k = (k.handOver ⟨c, next⟩, some ⟨c, next⟩) := by
  have hcur := h.curSlot
  cases hnext : RoundRobin.next (isReady k) c with
  | none =>
    left
    constructor
    · rcases MyMisu.schedule_cases k with hrun | ⟨next, -, hsome, -, -⟩
      · exact hrun
      · rw [hcur, nextReady_eq, hnext] at hsome
        cases hsome
    · intro i _
      by_contra hready
      have hsome := RoundRobin.next_isSome c (eq_true_of_ne_false hready)
      rw [hnext] at hsome
      cases hsome
  | some next =>
    by_cases hne : next = c
    · left
      constructor
      · rcases MyMisu.schedule_cases k with hrun | ⟨next', -, hsome, hne', -⟩
        · exact hrun
        · rw [hcur, nextReady_eq, hnext] at hsome
          rw [hcur, ← Option.some.inj hsome] at hne'
          exact absurd hne hne'
      · -- the scan is back at the current slot, so it has passed all others
        intro i hi
        by_contra hready
        have hle := (RoundRobin.next_eq_some hnext).2 i (eq_true_of_ne_false hready)
        have hlt := RoundRobin.gap_lt hi
        rw [hne, RoundRobin.gap_self] at hle
        omega
    · right
      have hcurNext : nextReady k (MyMisu.curSlot k) = some next := by
        rw [hcur, nextReady_eq, hnext]
      have hrun := schedule_switch h.enabled hcurNext (by rw [hcur]; exact hne)
      rw [hcur] at hrun
      exact ⟨next, rfl, hne, hrun⟩

/-- With a ready process other than the current one `schedule` switches. -/
theorem schedule_switches (h : TableRuns k c) (hready : isReady k i = true) (hi : i ≠ c) :
    ∃ next, RoundRobin.next (isReady k) c = some next ∧ next ≠ c ∧
      schedule k = (k.handOver ⟨c, next⟩, some ⟨c, next⟩) := by
  rcases h.schedule_cases with ⟨-, hnone⟩ | hsome
  · rw [hnone i hi] at hready
    cases hready
  · exact hsome

end TableRuns

/-- The table with the current process in slot `c`, running. -/
structure Scheduled (k : Kernel) (c : Slot) : Prop extends TableRuns k c where
  runs : (k.table c).state = .running

namespace Scheduled

theorem processInit (pmm : Pmm) :
    Scheduled (processSetSchedulingEnabled (processInit pmm) true) 1 where
  enabled := rfl
  kernelProc := ⟨rfl, rfl, rfl⟩
  shellProc := ⟨rfl, rfl⟩
  shellReady h := absurd rfl h
  current := ⟨rfl, rfl⟩
  notKernel := by decide
  running i hi := by
    by_contra hne
    push Not at hne
    change ((MyMisu.processInit pmm).table i).state = .running at hi
    unfold MyMisu.processInit at hi
    simp only [hne.1, hne.2, if_false] at hi
    cases hi
  pids i j hi hj hpid := by
    have hbooti := @processInit_booted i pmm hi
    have hbootj := @processInit_booted j pmm hj
    apply Fin.ext
    rw [← hbooti.pid, ← hbootj.pid]
    exact hpid
  fresh i hi := by
    have hboot := @processInit_booted i pmm hi
    show ((MyMisu.processInit pmm).table i).pid < 2
    rw [hboot.pid]
    exact Nat.lt_succ_of_le hboot.slot
  nextPid := rfl
  runs := rfl

/-- The sleeper's entry, and the switch that `process_sleep` makes. -/
theorem sleep_switches (h : Scheduled k c) (hpid : 1 < k.currentPid) (now ticks : ℕ) :
    ∃ k' next, k' = k.setProc c
        { k.table c with state := .blocked, wakeTick := wrap32 (now + ticks) } ∧
      TableRuns k' c ∧ RoundRobin.next (isReady k') c = some next ∧ next ≠ c ∧
      processSleep k now ticks = (k'.handOver ⟨c, next⟩, some ⟨c, next⟩) := by
  have howner : (k.table c).SameOwner
      { k.table c with state := .blocked, wakeTick := wrap32 (now + ticks) } :=
    ⟨rfl, rfl, rfl, rfl, rfl, rfl⟩
  have hblocked := h.block howner
  have hone := h.ne_one hpid
  -- the shell is ready
  have hshell : isReady (k.setProc c
      { k.table c with state := .blocked, wakeTick := wrap32 (now + ticks) }) 1 = true := by
    rw [isReady_iff, Kernel.setProc_ne _ _ hone.symm]
    exact ⟨h.shellProc.1, h.shellReady hone⟩
  obtain ⟨next, hnext, hne, hrun⟩ := hblocked.schedule_switches hshell hone.symm
  refine ⟨_, next, rfl, hblocked, hnext, hne, ?_⟩
  have hslot : findSlotByPid k k.currentPid = some c := by
    have hsome := findSlotByPid_isSome h.current.1 h.current.2
    have hcur := h.curSlot
    unfold MyMisu.curSlot at hcur
    rw [← Option.some_get hsome] at hcur ⊢
    rw [Option.getD_some] at hcur
    rw [hcur]
  unfold processSleep
  rw [hslot]
  simp only [if_neg (show ¬ k.currentPid ≤ 1 by omega)]
  exact hrun

theorem create (h : Scheduled k c) {tick : ℕ} {name : CStr} {fn : ℕ}
    (hfew : (processCreateKernel k tick name fn).2.created < 2 ^ 32) :
    Scheduled (processCreateKernel k tick name fn).2 c := by
  rcases processCreateKernel_spec k tick name fn with ⟨pmm, hrun⟩ | ⟨slot, hslot, hrun⟩
  · rw [hrun]
    exact { h with }
  · rw [hrun] at hfew ⊢
    refine ⟨h.spawn hfew hslot tick name fn, ?_⟩
    rw [Kernel.spawn_ne _ _ _ _ (ne_of_findUnusedSlot hslot h.current.1)]
    exact h.runs

theorem terminateOther (h : Scheduled k c) {pid : ℕ} (hne : pid ≠ k.currentPid) :
    Scheduled (processTerminate k pid).2 c := by
  rcases processTerminate_spec k pid with hrun | ⟨slot, pmm, hslot, hpid, hrun⟩
  · rw [hrun]
    exact h
  · rw [hrun]
    have ⟨_, hslotPid⟩ := findSlotByPid_some hslot
    have hother : slot ≠ c := by
      intro he
      rw [he, h.current.2] at hslotPid
      exact hne hslotPid.symm
    refine ⟨h.terminate (by omega) hother pmm, ?_⟩
    show ((k.setProc slot (k.table slot).terminated).table c).state = .running
    rw [Kernel.setProc_ne _ _ hother.symm]
    exact h.runs

theorem tick (h : Scheduled k c) (now : ℕ) : Scheduled (processTick k now) c := by
  have ⟨hnext, henabled, hcreated⟩ := countTick_rest k
  have htable : TableRuns (processTick k now) c :=
    h.wake (processTick_sameOwner k now) (processTick_state k now) (processTick_keeps k now).currentPid
      hnext henabled hcreated
  refine ⟨htable, ?_⟩
  -- the process on the CPU is RUNNING, so it is not among those woken
  rcases processTick_state k now c with he | ⟨hb, -⟩
  · exact he.trans h.runs
  · rw [h.runs] at hb
    cases hb

/-- A call leaves the current process in its slot, or it is a switch to the next ready process.  In
between `process_sleep` has changed the current entry only. -/
theorem call_cases (h : Scheduled k c) {op : SchedOp} (hop : SparesRunning k op)
    (hfew : (schedExec k op).created < 2 ^ 32) :
    ((schedCall k op).2 = none ∧ Scheduled (schedExec k op) c ∧
        (op.schedules k = true → ∀ i, i ≠ c → isReady k i = false)) ∨
      ∃ k' next, op.schedules k = true ∧ (∀ i, i ≠ c → k'.table i = k.table i) ∧
        RoundRobin.next (isReady k') c = some next ∧ next ≠ c ∧
        (schedCall k op).2 = some ⟨c, next⟩ ∧ Scheduled (schedExec k op) next := by
  cases op with
  | create tick name fn =>
    exact .inl ⟨rfl, h.create hfew, fun hno => absurd hno Bool.false_ne_true⟩
  | terminate pid =>
    exact .inl ⟨rfl, h.terminateOther hop, fun hno => absurd hno Bool.false_ne_true⟩
  | tick now =>
    exact .inl ⟨rfl, h.tick now, fun hno => absurd hno Bool.false_ne_true⟩
  | schedule =>
    show ((MyMisu.schedule k).2 = none ∧ Scheduled (MyMisu.schedule k).1 c ∧ _) ∨
      ∃ k' next, _ ∧ _ ∧ _ ∧ _ ∧ (MyMisu.schedule k).2 = _ ∧ Scheduled (MyMisu.schedule k).1 next
    rcases h.schedule_cases with ⟨hrun, hnone⟩ | ⟨next, hnext, hne, hrun⟩
    · rw [hrun]
      exact .inl ⟨rfl, h, fun _ => hnone⟩
    · rw [hrun]
      have hready := (RoundRobin.next_eq_some hnext).1
      have ⟨htable, hruns⟩ := h.handOver hready hne fun _ => h.runs
      exact .inr ⟨k, next, rfl, fun _ _ => rfl, hnext, hne, rfl, htable, hruns⟩
  | sleep now ticks =>
    show ((processSleep k now ticks).2 = none ∧ Scheduled (processSleep k now ticks).1 c ∧ _) ∨
      ∃ k' next, _ ∧ _ ∧ _ ∧ _ ∧ (processSleep k now ticks).2 = _ ∧
        Scheduled (processSleep k now ticks).1 next
    by_cases hpid : 1 < k.currentPid
    · obtain ⟨k', next, hk', htable, hnext, hne, hrun⟩ := h.sleep_switches hpid now ticks
      have hready := (RoundRobin.next_eq_some hnext).1
      have ⟨htable', hruns⟩ := htable.handOver hready hne fun hc => absurd hc (h.ne_one hpid)
      have hcalls : (SchedOp.sleep now ticks).schedules k = true := by
        show ((processGetCurrent k).isSome && decide (1 < k.currentPid)) = true
        rw [show (processGetCurrent k).isSome = true from
          findSlotByPid_isSome h.current.1 h.current.2, decide_eq_true hpid]
        rfl
      rw [hrun]
      refine .inr ⟨k', next, hcalls, fun i hi => ?_, hnext, hne, rfl, htable', hruns⟩
      rw [hk', Kernel.setProc_ne _ _ hi]
    · -- pid 1 waits without touching the table
      have hrun : processSleep k now ticks = (k, none) := by
        unfold processSleep
        split
        · rfl
        · rw [if_pos (by omega)]
      rw [hrun]
      refine .inl ⟨rfl, h, fun hcalls => ?_⟩
      rw [SchedOp.schedules, decide_eq_false hpid, Bool.and_false] at hcalls
      cases hcalls

theorem exec (h : Scheduled k c) {op : SchedOp} (hop : SparesRunning k op)
    (hfew : (schedExec k op).created < 2 ^ 32) : ∃ c', Scheduled (schedExec k op) c' := by
  rcases h.call_cases hop hfew with ⟨-, hc, -⟩ | ⟨_, next, -, -, -, -, -, hc⟩
  · exact ⟨c, hc⟩
  · exact ⟨next, hc⟩

theorem currentRuns (h : Scheduled k c) : CurrentRuns k where
  current := by
    refine ⟨c, h.current, ?_⟩
    rintro i ⟨hi, hpid⟩
    exact h.pids i c hi h.current.1 (hpid.trans h.current.2.symm)
  running i hi hpid := by
    rw [h.pids i c hi h.current.1 (hpid.trans h.current.2.symm)]
    exact h.runs
  others i hi := by
    rcases h.running i hi with hic | hzero
    · rw [hic]
      exact .inl h.current
    · exact .inr hzero
  shell hpid := ⟨h.shellProc.1, h.shellProc.2, h.shellReady (h.ne_one hpid)⟩

theorem sleepSwitches (h : Scheduled k c) : SleepSwitches k := by
  intro hpid now ticks
  obtain ⟨k', next, hk', htable, hnext, hne, hrun⟩ := h.sleep_switches hpid now ticks
  have howner : (k.table next).SameOwner (k'.table next) := by
    rw [hk', Kernel.setProc_ne _ _ hne]
    exact .refl _
  have hstate : (k'.table c).state = .blocked := by rw [hk', Kernel.setProc_self]
  rw [hrun]
  refine ⟨⟨c, next⟩, rfl, h.current.2, hne, ?_, handOver_state_next k' ⟨c, next⟩, ?_⟩
  · rw [handOver_state_cur k' ⟨c, next⟩ hne, hstate]
    rfl
  · rw [handOver_currentPid k' ⟨c, next⟩ hne]
    exact howner.pid

end Scheduled

theorem schedule_created (k : Kernel) : (schedule k).1.created = k.created := by
  rcases schedule_cases k with hrun | ⟨next, -, -, -, hrun⟩
  · rw [hrun]
  · rw [hrun]
    rfl

theorem schedExec_created (k : Kernel) (op : SchedOp) : k.created ≤ (schedExec k op).created := by
  cases op with
  | create tick name fn =>
    show k.created ≤ (processCreateKernel k tick name fn).2.created
    rcases processCreateKernel_spec k tick name fn with ⟨pmm, hrun⟩ | ⟨slot, -, hrun⟩
    · rw [hrun]
    · rw [hrun]
      exact Nat.le_succ k.created
  | terminate pid =>
    show k.created ≤ (processTerminate k pid).2.created
    rcases processTerminate_spec k pid with hrun | ⟨slot, pmm, -, -, hrun⟩
    · rw [hrun]
    · rw [hrun]
      rfl
  | tick now => exact (countTick_rest k).2.2.ge
  | schedule => exact (schedule_created k).ge
  | sleep now ticks =>
    show k.created ≤ (processSleep k now ticks).1.created
    unfold processSleep
    split
    · exact le_rfl
    · split
      · exact le_rfl
      · rw [schedule_created]
        rfl

theorem Scheduled.reach (h : schedSystem.Reach SparesRunning k) (hfew : k.creations < 2 ^ 32 - 2) :
    ∃ c, Scheduled k c := by
  have hinv : k.created < 2 ^ 32 → ∃ c, Scheduled k c := by
    apply h.invariant
    · intro k hk _
      have ⟨pmm, hk⟩ : ∃ pmm, k = processSetSchedulingEnabled (MyMisu.processInit pmm) true := hk
      rw [hk]
      exact ⟨1, .processInit pmm⟩
    · intro k op k' _ ih hop hstep hfew
      have hk' : k' = schedExec k op := hstep
      rw [hk'] at hfew ⊢
      -- the earlier states have seen no more creations
      have hle := schedExec_created k op
      have ⟨c, hc⟩ := ih (by omega)
      exact hc.exec hop hfew
  unfold Kernel.creations at hfew
  exact hinv (by omega)

/-- The scheduler's invariant, and what sleeping rests on it. -/
theorem current_runs_and_sleep_switches (k : Kernel) (h : schedSystem.Reach SparesRunning k)
    (hfew : k.creations < 2 ^ 32 - 2) : CurrentRuns k ∧ SleepSwitches k := by
  have ⟨c, hc⟩ := Scheduled.reach h hfew
  exact ⟨hc.currentRuns, hc.sleepSwitches⟩

def schedStart : Kernel := processSetSchedulingEnabled (processInit fourPages) true

def oneCreated : Kernel := schedExec schedStart (.create 0 demoName 1)

/-- The new process runs. -/
def firstSwitch : Kernel := schedExec oneCreated .schedule

theorem firstSwitch_reach : schedSystem.Reach SparesRunning firstSwitch := by
  have hstart : schedSystem.Reach SparesRunning schedStart := .init ⟨fourPages, rfl⟩
  have hcreate : schedSystem.Reach SparesRunning oneCreated :=
    .step (a := .create 0 demoName 1) hstart trivial rfl
  exact .step (a := .schedule) hcreate trivial rfl

theorem firstSwitch_current_runs :
    firstSwitch.currentPid = 2 ∧ CurrentRuns firstSwitch ∧ SleepSwitches firstSwitch :=
  ⟨by decide +kernel,
    current_runs_and_sleep_switches firstSwitch firstSwitch_reach (by decide +kernel)⟩

end MyMisu
