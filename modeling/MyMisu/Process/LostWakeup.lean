import MyMisu.Process.Statements

/-!
# Sleepers without a wake-up

`process_sleep` stores `BLOCKED` one statement before the wake tick.  A process that is switched out
between the two stays blocked with the wake tick 0, for which `process_tick` never makes it ready.
-/

namespace MyMisu

/-! ## Lost wake-ups -/

/-- The process is blocked, and `process_tick` never wakes it. -/
def Process.Lost (p : Process) : Prop := p.inUse = true ∧ p.state = .blocked ∧ p.wakeTick = 0

instance (p : Process) : Decidable p.Lost := inferInstanceAs (Decidable (_ ∧ _))

/-- No process is lost when the step switches. -/
def NoLostWakeup (s : Interleaved CallAt) (a : StmtLabel) : Prop :=
  ∀ e, s.switches a = some e → ∀ i, ¬ (e.kern.table i).Lost

/-- The argument and the local `slot` of `process_sleep` in front of the store of the wake tick. -/
def wakeStoreAt : Option CallAt → Option (ℕ × Slot)
  | some (.sleep ticks (.setWake slot)) => some (ticks, slot)
  | _ => none

/-- The wake tick is later than the current one, in front of the wrap of the clock. -/
def WakeInRange (s : Interleaved CallAt) : StmtLabel → Prop
  | .next => ∀ w ∈ wakeStoreAt s.code, 1 ≤ w.1 ∧ s.tick + w.1 < 2 ^ 32
  | _ => True

/-- No time slice ends between the two stores of `process_sleep` with another process ready, while
the wake tick is 0. -/
def OutsideStores (s : Interleaved CallAt) : StmtLabel → Prop
  | .timer => ∀ w ∈ wakeStoreAt s.code, (s.machine.kern.table w.2).Lost → ¬ s.Preempts
  | _ => True

/-- No call of `schedule` or `process_sleep` has begun, and no process is lost. -/
structure NoneLost (s : Interleaved CallAt) : Prop where
  code : s.code = none
  table : ∀ i, ¬ (s.machine.kern.table i).Lost

def sleepSystem : TransitionSystem (Interleaved CallAt) StmtLabel :=
  .ofPartial NoneLost Interleaved.exec

/-! ## The invariant -/

/-- Only the process that is about to store its wake tick is lost. -/
def LostOnlyAtStore (s : Interleaved CallAt) : Prop :=
  ∀ i, (s.machine.kern.table i).Lost → ∃ ticks, wakeStoreAt s.code = some (ticks, i)

variable {k k' : Kernel} {i : Slot}

/-- Every process lost in the second table was lost in the first. -/
def LosesNone (k k' : Kernel) : Prop := ∀ i, (k'.table i).Lost → (k.table i).Lost

namespace LosesNone

theorem refl (k : Kernel) : LosesNone k k := fun _ h => h

theorem trans {k'' : Kernel} (h : LosesNone k k') (h' : LosesNone k' k'') : LosesNone k k'' :=
  fun i hi => h i (h' i hi)

theorem setProc {p : Process} (hp : p.Lost → (k.table i).Lost) : LosesNone k (k.setProc i p) := by
  intro j hj
  by_cases hji : j = i
  · rw [hji, Kernel.setProc_self] at hj
    rw [hji]
    exact hp hj
  · rw [Kernel.setProc_ne _ _ hji] at hj
    exact hj

theorem setState {state : ProcState} (hstate : state ≠ .blocked) :
    LosesNone k (k.setState i state) :=
  setProc fun hp => absurd hp.2.1 hstate

theorem countTick (k : Kernel) : LosesNone k (countTick k) := by
  unfold MyMisu.countTick
  cases findSlotByPid k k.currentPid with
  | none => exact refl k
  | some slot => exact setProc fun hp => hp

theorem processTick (k : Kernel) (now : ℕ) : LosesNone k (processTick k now) := by
  intro i hi
  change (((MyMisu.countTick k).table i).wake now).Lost at hi
  unfold Process.wake at hi
  split at hi
  · cases hi.2.1
  · exact countTick k i hi

theorem handOver (k : Kernel) (sw : Switch) : LosesNone k (k.handOver sw) := by
  have hcur : LosesNone k (k.setProc sw.cur
      { k.table sw.cur with
        state := if (k.table sw.cur).state = .running then .ready else (k.table sw.cur).state }) := by
    apply setProc
    rintro ⟨huse, hstate, hwake⟩
    by_cases hrun : (k.table sw.cur).state = .running
    · simp only [hrun, if_true] at hstate
      cases hstate
    · simp only [hrun, if_false] at hstate
      exact ⟨huse, hstate, hwake⟩
  exact hcur.trans (setProc fun hp => by cases hp.2.1)

theorem contextSwitch (log : List SwitchEvent) (k : Kernel) (c : Cpu) (sw : Switch) (how : Resume) :
    LosesNone k (contextSwitch log k c sw how).kern := by
  have hsave (sv : Saved) : LosesNone k (k.saveAt sw.cur sv) := setProc fun hp => hp
  have hreturned (k : Kernel) (p : Slot) : LosesNone k (processReturned k p) :=
    setProc fun hp => by cases hp.1
  unfold MyMisu.contextSwitch
  cases (k.table sw.next).savedEsp with
  | none => exact hsave _
  | some sv =>
    apply (hsave ⟨c.ctx, how⟩).trans
    simp only
    unfold Saved.load
    cases sv.resume with
    | call => exact refl _
    | irq eflags => exact refl _
    | entry =>
      show LosesNone _ (wrapperEnter _ sv.ctx).1
      unfold wrapperEnter
      split
      · exact refl _
      · split
        · exact hreturned _ _
        · exact refl _

/-- `BLOCKED` is stored by `process_sleep` only, and the wake tick it stores is not 0. -/
theorem callStmt {p : CallAt} {tick : ℕ} (k : Kernel)
    (hblock : ∀ ticks slot, p ≠ .sleep ticks (.block slot))
    (hwake : ∀ ticks slot, p = .sleep ticks (.setWake slot) → 1 ≤ ticks ∧ tick + ticks < 2 ^ 32) :
    LosesNone k (callStmt k tick p).1 := by
  cases p with
  | sched p =>
    cases p with
    | setReady sw => exact setState (by decide)
    | setRunning sw => exact setState (by decide)
    | setCurrent sw => exact refl k
    | scan cur i =>
      show LosesNone k (schedStmt k (.scan cur i)).1
      unfold schedStmt
      simp only
      split
      · split <;> exact refl k
      · exact refl k
    | enabled | findCur | defaultCur | found | same | test | oldPid | switch => exact refl k
  | sleep ticks p =>
    cases p with
    | block slot => exact absurd rfl (hblock ticks slot)
    | setWake slot =>
      have ⟨hpos, hlt⟩ := hwake ticks slot rfl
      apply setProc
      -- a tick of 0 would lose the sleeper; n ≥ 1 without wrap-around rules that out
      rintro ⟨-, -, hzero⟩
      change wrap32 (tick + ticks) = 0 at hzero
      rw [wrap32_of_lt hlt] at hzero
      omega
    | test slot => cases slot <;> exact refl k
    | findSlot | start | wait => exact refl k

end LosesNone

theorem LosesNone.timerSwitch {s : Interleaved CallAt} {c : Cpu} {e : SwitchCall}
    (he : s.timerSwitch c = some e) : LosesNone s.machine.kern e.kern := by
  have ⟨next, _, _, heq⟩ := Interleaved.timerSwitch_some he
  rw [heq]
  exact (LosesNone.processTick _ _).trans (.handOver _ _)

theorem wakeStoreAt_eq_some {q : Option CallAt} {ticks : ℕ} (h : wakeStoreAt q = some (ticks, i)) :
    q = some (.sleep ticks (.setWake i)) := by
  unfold wakeStoreAt at h
  split at h
  · cases h
    rfl
  · cases h

/-- A lost process is neither woken nor selected. -/
theorem Process.Lost.preempted (h : (k.table i).Lost) (now : ℕ) :
    ((schedule (processTick k now)).1.table i).Lost := by
  have hasleep : Asleep k i (k.table i).pid 0 := ⟨h.1, rfl, h.2.1, h.2.2⟩
  have hafter := (hasleep.tick_early now (.inl rfl)).schedule
  exact ⟨hafter.inUse, hafter.state, hafter.wakeTick⟩

namespace LostOnlyAtStore

variable {s s' : Interleaved CallAt} {a : StmtLabel} {c : Cpu}

/-- In front of every other statement no process is lost. -/
theorem none_lost (h : LostOnlyAtStore s) (hcode : wakeStoreAt s.code = none) :
    ∀ i, ¬ (s.machine.kern.table i).Lost := by
  intro i hi
  have ⟨ticks, hstore⟩ := h i hi
  rw [hcode] at hstore
  cases hstore

/-- When an interrupt outside the two stores switches, no process is lost. -/
theorem none_lost_timer (h : LostOnlyAtStore s) (hg : OutsideStores s .timer) (hp : s.Preempts) :
    ∀ i, ¬ (s.machine.kern.table i).Lost := by
  intro i hi
  have ⟨ticks, hstore⟩ := h i hi
  exact hg (ticks, i) hstore hi hp

theorem of_none (h : ∀ i, ¬ (s.machine.kern.table i).Lost) : LostOnlyAtStore s :=
  fun i hi => absurd hi (h i)

theorem stmt {p : CallAt} (h : LostOnlyAtStore s) (hp : s.code = some p)
    (hwake : WakeInRange s .next) : LostOnlyAtStore (s.stmt p) := by
  by_cases hblock : ∃ ticks slot, p = .sleep ticks (.block slot)
  · have ⟨ticks, slot, hblock⟩ := hblock
    rw [hblock] at hp ⊢
    have hnone := h.none_lost (by rw [hp]; rfl)
    intro i hi
    by_cases hslot : i = slot
    · rw [hslot]
      -- the store of BLOCKED loses the sleeper, and the next statement stores its wake tick
      exact ⟨ticks, rfl⟩
    · change ((s.machine.kern.setState slot .blocked).table i).Lost at hi
      unfold Kernel.setState at hi
      rw [Kernel.setProc_ne _ _ hslot] at hi
      exact absurd hi (hnone i)
  -- every other store loses nobody, that of a wake tick within range included
  · have hrange (ticks : ℕ) (slot : Slot) (he : p = .sleep ticks (.setWake slot)) :
        1 ≤ ticks ∧ s.tick + ticks < 2 ^ 32 := by
      apply hwake (ticks, slot)
      rw [hp, he]
      rfl
    have hlose : LosesNone s.machine.kern (s.stmt p).machine.kern :=
      LosesNone.callStmt s.machine.kern (fun ticks slot he => hblock ⟨ticks, slot, he⟩) hrange
    intro i hi
    have ⟨ticks, hstore⟩ := h i (hlose i hi)
    -- the statement is the store of the wake tick of the process
    have hslot : p = .sleep ticks (.setWake i) := by
      have hcode := wakeStoreAt_eq_some hstore
      rw [hp] at hcode
      exact Option.some.inj hcode
    have ⟨hpos, hlt⟩ := hrange ticks i hslot
    rw [hslot] at hi
    have hzero : ((s.machine.kern.setProc i
        { s.machine.kern.table i with wakeTick := wrap32 (s.tick + ticks) }).table i).wakeTick = 0 :=
      hi.2.2
    rw [Kernel.setProc_self] at hzero
    change wrap32 (s.tick + ticks) = 0 at hzero
    rw [wrap32_of_lt hlt] at hzero
    omega

theorem step (h : LostOnlyAtStore s) (hwake : WakeInRange s a) (hg : OutsideStores s a)
    (hstep : s.exec a = some s') : LostOnlyAtStore s' := by
  have ⟨c, hcpu, hmoves⟩ := Interleaved.exec_moves hstep
  cases hmoves with
  | yield hcode => exact of_none (h.none_lost (by rw [hcode]; rfl))
  | sleep hcode => exact of_none (h.none_lost (by rw [hcode]; rfl))
  | stmt hp hat => exact h.stmt hp hwake
  | @switch sw hcode =>
    have hnone := h.none_lost (by rw [hcode]; rfl)
    apply of_none
    intro i hi
    exact hnone i (LosesNone.contextSwitch s.machine.log s.machine.kern c sw .call i hi)
  | tick hp =>
    intro i hi
    exact h i (LosesNone.processTick s.machine.kern (wrap32 (s.tick + 1)) i hi)
  | @preempt e hflag hp he =>
    apply of_none
    intro i hi
    have hlost := LosesNone.contextSwitch s.machine.log e.kern e.cpu e.sw e.how i hi
    exact h.none_lost_timer hg hp i (LosesNone.timerSwitch he i hlost)

/-- A step that loses a sleeper is an interrupt between the two stores, and the other way round. -/
theorem noLostWakeup_iff (h : LostOnlyAtStore s) (hstep : s.exec a = some s') :
    NoLostWakeup s a ↔ OutsideStores s a := by
  unfold NoLostWakeup
  rcases Interleaved.switches_cases hstep with ⟨hnone, hquiet⟩ | ⟨c, sw, -, ha, hcode, hsome⟩ |
    ⟨c, e, -, ha, hp, he, hsome⟩
  · rw [hnone]
    refine iff_of_true (fun e he => by cases he) ?_
    cases a with
    | timer => exact fun _ _ _ => hquiet rfl
    | _ => trivial
  · rw [hsome, ha]
    refine iff_of_true (fun e he => ?_) trivial
    cases he
    exact h.none_lost (by rw [hcode]; rfl)
  · rw [hsome, ha]
    constructor
    · intro hnone w _ hlost
      have ⟨next, hnext, hne, heq⟩ := Interleaved.timerSwitch_some he
      have hrun := schedule_switch hp.2.1 hnext hne
      have hafter : ((schedule s.timerKernel).1.table w.2).Lost := hlost.preempted _
      rw [hrun] at hafter
      have hnot := hnone e rfl w.2
      rw [heq] at hnot
      exact absurd hafter hnot
    · intro hg e' he' i hi
      cases he'
      exact h.none_lost_timer hg hp i (LosesNone.timerSwitch he i hi)

end LostOnlyAtStore

/-- In a run whose interrupts keep out of the two stores so far, a step loses no sleeper if and only
if it is no interrupt between them either. -/
theorem no_lost_wakeup_outside_stores (s : Interleaved CallAt)
    (h : sleepSystem.Reach (fun s a => WakeInRange s a ∧ OutsideStores s a) s) (a : StmtLabel)
    (s' : Interleaved CallAt) (hstep : s.exec a = some s') :
    NoLostWakeup s a ↔ OutsideStores s a := by
  have hinv : LostOnlyAtStore s := by
    apply h.invariant
    · intro s hs
      exact .of_none hs.table
    · intro s a s' _ hs hg hstep
      exact hs.step hg.1 hg.2 hstep
  exact hinv.noLostWakeup_iff hstep

instance (s : Interleaved CallAt) (a : StmtLabel) : Decidable (WakeInRange s a) :=
  match a with
  | .next => inferInstanceAs (Decidable (∀ w ∈ _, _))
  | .yield | .sleep _ | .timer => .isTrue trivial

instance (s : Interleaved CallAt) (a : StmtLabel) : Decidable (OutsideStores s a) :=
  match a with
  | .timer => inferInstanceAs (Decidable (∀ w ∈ _, _))
  | .yield | .sleep _ | .next => .isTrue trivial

/-- A task that the shell has started and yielded to is on the CPU, and then come the statements. -/
theorem sleepSystem_reach_of_run {g : Interleaved CallAt → StmtLabel → Prop}
    [∀ s a, Decidable (g s a)] {stmts : List StmtLabel} {tick sliceCounter : ℕ}
    {p : Interleaved CallAt → Bool}
    (h : ([.create 0 demoName 1, .yield].foldlM Machine.exec (.start fourPages)).any (fun m =>
      decide (∀ i, ¬ (m.kern.table i).Lost) &&
        (stmts.foldlM (TransitionSystem.guarded g Interleaved.exec)
          (m.interleaved tick sliceCounter)).any p) = true) :
    ∃ s, sleepSystem.Reach g s ∧ p s = true := by
  have ⟨m, _, hm⟩ := (Option.any_eq_true _ _).mp h
  rw [Bool.and_eq_true] at hm
  have ⟨s, hs, hp⟩ := (Option.any_eq_true _ _).mp hm.2
  exact ⟨s, .foldlM (.init ⟨rfl, of_decide_eq_true hm.1⟩) hs, hp⟩

/-- A task goes to sleep, and the slice ends in front of the first store. -/
theorem no_lost_wakeup_in_front_of_stores :
    ∃ s, sleepSystem.Reach (fun s a => WakeInRange s a ∧ OutsideStores s a) s ∧
      (s.switches .timer).isSome = true ∧ NoLostWakeup s .timer := by
  have hrun : ([.create 0 demoName 1, .yield].foldlM Machine.exec (.start fourPages)).any (fun m =>
      decide (∀ i, ¬ (m.kern.table i).Lost) &&
        ([.sleep 5, .next, .next].foldlM
          (TransitionSystem.guarded (fun s a => WakeInRange s a ∧ OutsideStores s a)
            Interleaved.exec) (m.interleaved 100 9)).any fun s =>
              (s.switches .timer).isSome && (s.exec .timer).isSome &&
                decide (OutsideStores s .timer)) = true := by
    decide +kernel
  have ⟨s, hreach, hs⟩ := sleepSystem_reach_of_run hrun
  rw [Bool.and_eq_true, Bool.and_eq_true] at hs
  have ⟨s', hs'⟩ := Option.isSome_iff_exists.mp hs.1.2
  exact ⟨s, hreach, hs.1.1,
    (no_lost_wakeup_outside_stores s hreach .timer s' hs').mpr (of_decide_eq_true hs.2)⟩

/-- A task goes to sleep for five ticks, and the slice ends between the two stores. -/
theorem sleeper_lost_between_stores :
    ¬ ∀ s, sleepSystem.Reach WakeInRange s → ∀ a s', s.exec a = some s' → NoLostWakeup s a := by
  intro hall
  have hrun : ([.create 0 demoName 1, .yield].foldlM Machine.exec (.start fourPages)).any (fun m =>
      decide (∀ i, ¬ (m.kern.table i).Lost) &&
        ([.sleep 5, .next, .next, .next].foldlM
          (TransitionSystem.guarded WakeInRange Interleaved.exec) (m.interleaved 100 9)).any fun s =>
            (s.exec .timer).isSome && (s.switches .timer).any fun e =>
              decide (e.kern.table 2).Lost) = true := by
    decide +kernel
  have ⟨s, hreach, hs⟩ := sleepSystem_reach_of_run hrun
  rw [Bool.and_eq_true] at hs
  have ⟨s', hs'⟩ := Option.isSome_iff_exists.mp hs.1
  have ⟨e, he, hlost⟩ := (Option.any_eq_true _ _).mp hs.2
  exact hall s hreach .timer s' hs' e he 2 (of_decide_eq_true hlost)

end MyMisu
