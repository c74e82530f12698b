import MyMisu.Process.Orderly

/-!
# When `schedule` is safe against the timer

A process that has ended is not found in the table, so `schedule` takes slot 0 for the current one,
and no call of `context_switch` from there is safe.  With the invariant of the processes in the table
this says of every step whether its calls are safe.
-/

namespace MyMisu

/-! ## After the end of the process -/

variable {k k' : Kernel}

/-- The current slot among the locals of `schedule` is in use. -/
def SchedAt.CurInUse (k : Kernel) : SchedAt → Prop
  | .enabled | .findCur => True
  | .defaultCur cur => ∀ i, cur = some i → (k.table i).inUse = true
  | .scan cur _ | .found cur _ => (k.table cur).inUse = true
  | .same sw | .test sw | .setReady sw | .setRunning sw | .oldPid sw | .setCurrent sw | .switch sw =>
    (k.table sw.cur).inUse = true

def CallAt.CurInUse (k : Kernel) : CallAt → Prop
  | .sched p => p.CurInUse k
  | .sleep _ _ => True

theorem CallAt.CurInUse.owner {p : CallAt} (howner : ∀ i, (k.table i).SameOwner (k'.table i))
    (h : p.CurInUse k) : p.CurInUse k' := by
  cases p with
  | sleep ticks p => trivial
  | sched p =>
    cases p with
    | enabled | findCur => trivial
    | defaultCur cur => exact fun i hi => (howner i).inUse.trans (h i hi)
    | scan | found | same | test | setReady | setRunning | oldPid | setCurrent | switch =>
      exact (howner _).inUse.trans h

theorem setState_sameOwner (k : Kernel) (i : Slot) (state : ProcState) (j : Slot) :
    (k.table j).SameOwner ((k.setState i state).table j) := by
  have howner : (k.table i).SameOwner { k.table i with state := state } :=
    ⟨rfl, rfl, rfl, rfl, rfl, rfl⟩
  exact howner.setProc j

theorem callStmt_sameOwner (k : Kernel) (tick : ℕ) (p : CallAt) (i : Slot) :
    (k.table i).SameOwner ((callStmt k tick p).1.table i) := by
  cases p with
  | sched p =>
    cases p with
    | setReady sw => exact setState_sameOwner k sw.cur .ready i
    | setRunning sw => exact setState_sameOwner k sw.next .running i
    | scan cur n =>
      show (k.table i).SameOwner ((schedStmt k (.scan cur n)).1.table i)
      unfold schedStmt
      simp only
      split
      · split <;> exact .refl _
      · exact .refl _
    | enabled | findCur | defaultCur | found | same | test | oldPid | setCurrent | switch =>
      exact .refl _
  | sleep ticks p =>
    cases p with
    | block slot => exact setState_sameOwner k slot .blocked i
    | setWake slot =>
      have howner : (k.table slot).SameOwner
          { k.table slot with wakeTick := wrap32 (tick + ticks) } := ⟨rfl, rfl, rfl, rfl, rfl, rfl⟩
      exact howner.setProc i
    | test slot => cases slot <;> exact .refl _
    | findSlot | start | wait => exact .refl _

/-- `schedule` takes a slot in use for the current one, at the worst that of pid 0. -/
theorem schedStmt_curInUse {p q : SchedAt} (hzero : (k.table 0).inUse = true) (h : p.CurInUse k)
    (hq : (schedStmt k p).2 = some q) : q.CurInUse k := by
  cases p with
  | enabled =>
    cases (Option.ite_none_left_eq_some.mp hq).2
    trivial
  | findCur =>
    cases hq
    intro i hi
    exact (findSlotByPid_some hi).1
  | defaultCur cur =>
    cases hq
    cases cur with
    | none => exact hzero
    | some i => exact h i rfl
  | scan cur n =>
    unfold schedStmt at hq
    simp only at hq
    split at hq
    · split at hq
      · cases hq
        exact h
      · cases hq
        exact h
    · cases hq
      exact h
  | found cur next =>
    have ⟨i, _, hi⟩ := Option.map_eq_some_iff.mp hq
    rw [← hi]
    exact h
  | same sw =>
    cases (Option.ite_none_left_eq_some.mp hq).2
    exact h
  | test sw =>
    unfold schedStmt at hq
    simp only at hq
    split at hq
    · cases hq
      exact h
    · cases hq
      exact h
  | setReady | setRunning | oldPid | setCurrent =>
    cases hq
    exact h
  | switch sw => cases hq

theorem callStmt_curInUse {tick : ℕ} {p q : CallAt} (hzero : (k.table 0).inUse = true)
    (h : p.CurInUse k) (hq : (callStmt k tick p).2 = some q) : q.CurInUse k := by
  cases p with
  | sched p =>
    have ⟨q', hq', he⟩ := Option.map_eq_some_iff.mp hq
    rw [← he]
    exact schedStmt_curInUse hzero h hq'
  | sleep ticks p =>
    cases p with
    | test slot => cases slot <;> cases hq <;> trivial
    | wait start =>
      change (if loopWaits start tick ticks then some _ else none) = some q at hq
      split at hq
      · cases hq
        trivial
      · cases hq
    | findSlot | start | block | setWake =>
      cases hq
      trivial

theorem Traced.callsSwitch_iff (t : Traced) {s : Interleaved CallAt} {a : StmtLabel}
    (h : t.run.exec a = some s) : t.CallsSwitch a ↔ (t.run.switches a).isSome = true := by
  have ⟨c, hcpu, _⟩ := Interleaved.exec_moves h
  rw [Interleaved.switches_eq hcpu]
  cases a with
  | next =>
    show _ ↔ (t.run.nextSwitch c).isSome = true
    unfold Interleaved.nextSwitch
    rw [Option.isSome_map]
    rfl
  | timer => exact Interleaved.timerSwitch_isSome_iff.symm
  | yield | sleep ticks => exact iff_of_false id Bool.false_ne_true

/-- The invariant from the end of the process on. -/
structure Departed (t : Traced) : Prop where
  ended : t.Ended
  cur : ∀ p, t.run.code = some p → p.CurInUse t.run.machine.kern

namespace Departed

variable {t t' : Traced} {a : StmtLabel} {c : Cpu} {e : SwitchCall}

/-- A step that leaves the owners and the process on the CPU alone. -/
theorem keep {s : Interleaved CallAt} (h : Departed t)
    (howner : ∀ i, (t.run.machine.kern.table i).SameOwner (s.machine.kern.table i))
    (hcpu : s.machine.cpu = t.run.machine.cpu)
    (hcur : ∀ p, s.code = some p → p.CurInUse s.machine.kern) :
    Departed { t with run := s } where
  ended := {
    noEntry := by
      rintro ⟨i, c, hc, hi, hserial⟩
      apply h.ended.noEntry
      change s.machine.cpu = some c at hc
      change (s.machine.kern.table i).inUse = true at hi
      change (s.machine.kern.table i).serial = c.ctx.task at hserial
      rw [hcpu] at hc
      exact ⟨i, c, hc, (howner i).used hi, (howner i).serial.symm.trans hserial⟩
    kernel := (howner 0).inUse.trans h.ended.kernel }
  cur := hcur

theorem not_safe (h : Departed t) (hcpu : t.run.machine.cpu = some c) (hctx : e.cpu.ctx = c.ctx)
    (howner : ∀ i, (t.run.machine.kern.table i).SameOwner (e.kern.table i))
    (hcur : (e.kern.table e.sw.cur).inUse = true) : ¬ SwitchSafe t.lastSaved e := by
  intro hsafe
  have htask := hsafe.task
  rw [hctx, (howner _).serial] at htask
  exact h.ended.noEntry ⟨e.sw.cur, c, hcpu, (howner _).used hcur, htask⟩

/-- The timer saves in a slot in use, too. -/
theorem not_safe_timer (h : Departed t) (hcpu : t.run.machine.cpu = some c)
    (he : t.run.timerSwitch c = some e) : ¬ SwitchSafe t.lastSaved e := by
  have ⟨next, _, hne, he⟩ := Interleaved.timerSwitch_some he
  have htick : ∀ i, (t.run.machine.kern.table i).SameOwner (t.run.timerKernel.table i) :=
    fun i => processTick_sameOwner t.run.machine.kern (wrap32 (t.run.tick + 1)) i
  have hover := handOver_sameOwner t.run.timerKernel ⟨curSlot t.run.timerKernel, next⟩ hne
  rw [he]
  apply h.not_safe hcpu rfl fun i => (htick i).trans (hover i)
  show ((t.run.timerKernel.handOver _).table (curSlot t.run.timerKernel)).inUse = true
  rw [(hover _).inUse]
  cases hfind : findSlotByPid t.run.timerKernel t.run.timerKernel.currentPid with
  | none =>
    have hslot : curSlot t.run.timerKernel = 0 := by
      unfold curSlot
      rw [hfind]
      rfl
    rw [hslot, (htick 0).inUse]
    exact h.ended.kernel
  | some i =>
    have hslot : curSlot t.run.timerKernel = i := by
      unfold curSlot
      rw [hfind]
      rfl
    rw [hslot]
    exact (findSlotByPid_some hfind).1

theorem step (h : Departed t) (hg : t.CallsSwitch a → t.HasEntry) (hstep : t.exec a = some t') :
    Departed t' := by
  have ⟨s, hs, ht⟩ := Option.map_eq_some_iff.mp hstep
  have ⟨c, hcpu, hmoves⟩ := Interleaved.exec_moves hs
  have hnone : ¬ t.CallsSwitch a := fun hcalls => h.ended.noEntry (hg hcalls)
  rw [Interleaved.switches_eq hcpu] at ht
  rw [← ht]
  cases hmoves with
  | yield hcode =>
    refine h.keep (fun _ => .refl _) rfl fun p hp => ?_
    cases hp
    trivial
  | sleep hcode =>
    refine h.keep (fun _ => .refl _) rfl fun p hp => ?_
    cases hp
    trivial
  | @stmt p hp hat =>
    have hno : t.run.nextSwitch c = none := by
      unfold Interleaved.nextSwitch
      rw [hat, Option.map_none]
    simp only [hno]
    have howner := callStmt_sameOwner t.run.machine.kern t.run.tick p
    refine h.keep howner rfl fun q hq => ?_
    exact (callStmt_curInUse h.ended.kernel (h.cur p hp) hq).owner howner
  | @switch sw hcode =>
    apply absurd _ hnone
    show (switchAt t.run.code).isSome = true
    rw [hcode]
    rfl
  | tick hp =>
    simp only [Interleaved.timerSwitch_eq_none hp]
    have howner := processTick_sameOwner t.run.machine.kern (wrap32 (t.run.tick + 1))
    exact h.keep howner rfl fun p hp => (h.cur p hp).owner howner
  | preempt hflag hp he => exact absurd hp hnone

/-- No switch away from a process that has ended is safe. -/
theorem safe_iff (h : Departed t) (hstep : t.exec a = some t') :
    SafeStep t a ↔ Undisturbed t a := by
  have ⟨s, hs, _⟩ := Option.map_eq_some_iff.mp hstep
  unfold SafeStep
  rcases Interleaved.switches_cases hs with ⟨hnone, hquiet⟩ | ⟨c, sw, hcpu, ha, hcode, hsome⟩ |
    ⟨c, e, hcpu, ha, hp, he, hsome⟩
  · rw [hnone]
    refine iff_of_true (fun e he => by cases he) ⟨fun ha _ => hquiet ha, fun hcalls => ?_⟩
    rw [t.callsSwitch_iff hs, hnone] at hcalls
    cases hcalls
  · rw [hsome, ha]
    refine iff_of_false (fun hsafe => ?_) (fun hg => ?_)
    · have hcur : (t.run.machine.kern.table sw.cur).inUse = true := h.cur _ hcode
      exact h.not_safe hcpu rfl (fun _ => .refl _) hcur (hsafe _ rfl)
    · apply h.ended.noEntry (hg.entry _)
      show (switchAt t.run.code).isSome = true
      rw [hcode]
      rfl
  · rw [hsome, ha]
    refine iff_of_false (fun hsafe => ?_) (fun hg => ?_)
    · exact h.not_safe_timer hcpu he (hsafe e rfl)
    · exact h.ended.noEntry (hg.entry hp)

end Departed

/-! ## Whole calls before -/

/-- The entry of the process of a creation. -/
def slotOfSerial (k : Kernel) (serial : ℕ) : Option Slot :=
  Fin.find? fun i => (k.table i).inUse && decide ((k.table i).serial = serial)

theorem slotOfSerial_eq (h : Serials k) (hi : (k.table i).inUse = true) :
    slotOfSerial k (k.table i).serial = some i := by
  have hsome : (slotOfSerial k (k.table i).serial).isSome = true := by
    apply Fin.isSome_find?_of_eq_true (i := i)
    rw [hi]
    simp
  have ⟨j, hj⟩ := Option.isSome_iff_exists.mp hsome
  have hjs := Fin.eq_true_of_find?_eq_some hj
  rw [Bool.and_eq_true, decide_eq_true_iff] at hjs
  rw [hj, h.distinct j i hjs.1 hi hjs.2]

/-- The start of the statements on a machine that whole calls have led to. -/
def Machine.traced (m : Machine) (tick sliceCounter : ℕ) : Traced where
  run := m.interleaved tick sliceCounter
  lastSaved serial := (slotOfSerial m.kern serial).bind fun i => (m.kern.table i).savedEsp

/-- The statements may start in every state that whole calls reach in which no process has ended
itself. -/
theorem Machine.traced_start {image : KernelImage} {m : Machine}
    (h : (machineSystem image.Boot).Reach (fun m a => StackCall a ∧ SparesCurrent m a) m)
    (hcpu : m.cpu.isSome = true) (tick sliceCounter : ℕ) : (m.traced tick sliceCounter).Start := by
  have hown := OnOwnStack.reach h
  have hserials := Serials.reach (h.mono fun _ _ _ => trivial)
  have ⟨c, hc⟩ := Option.isSome_iff_exists.mp hcpu
  have ⟨huse, hpid⟩ := curSlot_inUse hown.current
  have hwaiting (i : Slot) (hi : (m.kern.table i).inUse = true) :
      Waiting (m.traced tick sliceCounter).lastSaved (m.kern.table i) := by
    constructor
    · intro sv hsv
      have ⟨hstack, hentry⟩ := hown.table.saved i sv hi hsv
      refine ⟨?_, hown.owned.table.saved i sv hi hsv, hstack, hentry⟩
      show (slotOfSerial m.kern (m.kern.table i).serial).bind _ = some sv
      rw [slotOfSerial_eq hserials hi, Option.bind_some, hsv]
    · intro hsv
      exact (hown.owned.table.unsaved i hi hsv).2
  refine ⟨rfl, .inl ⟨fun _ => rfl, curSlot m.kern, c, hc, ?_, hpid.symm, ?_⟩⟩
  · exact ⟨(hown.owned.own.executing c _ hc huse hpid).symm, hown.stack c _ hc huse hpid⟩
  · exact ⟨huse, hown.owned.table.pids, hserials.distinct, fun i hi _ => hwaiting i hi⟩

/-- In a run whose interrupts keep out of the window so far, and in which no process that has ended
has been switched out, a step makes safe switches if and only if that holds of it, too. -/
theorem schedule_safe_outside_window (t : Traced) (h : tracedSystem.Reach Undisturbed t)
    (a : StmtLabel) (t' : Traced) (hstep : t.exec a = some t') :
    SafeStep t a ↔ Undisturbed t a := by
  have hinv : (∃ me, Orderly t me) ∨ Departed t := by
    apply h.invariant
    · intro s hs
      rcases hs.process with hsettled | hended
      · exact .inl (hsettled.orderly hs.code)
      · refine .inr ⟨hended, fun p hp => ?_⟩
        rw [hs.code] at hp
        cases hp
    · intro s a s' _ hs hg hstep
      rcases hs with ⟨me, hs⟩ | hs
      · exact .inl (hs.step hg.window hstep)
      · exact .inr (hs.step hg.entry hstep)
  rcases hinv with ⟨me, hinv⟩ | hinv
  · exact hinv.safe_iff hstep
  · exact hinv.safe_iff hstep

instance (t : Traced) (a : StmtLabel) : Decidable (OutsideWindow t a) :=
  match a with
  | .timer =>
    decidable_of_iff ((switchAt t.run.code).isSome = true → ¬ t.run.Preempts)
      ⟨fun h _ => h, fun h => h rfl⟩
  | .yield | .sleep _ | .next => .isTrue fun h => by cases h

instance (t : Traced) (a : StmtLabel) : Decidable (t.CallsSwitch a) :=
  match a with
  | .next => inferInstanceAs (Decidable (_ = true))
  | .timer => inferInstanceAs (Decidable t.run.Preempts)
  | .yield | .sleep _ => .isFalse id

instance (t : Traced) : Decidable t.HasEntry :=
  match hcpu : t.run.machine.cpu with
  | none =>
    .isFalse fun ⟨_, _, hc, _⟩ => by
      rw [hcpu] at hc
      cases hc
  | some c =>
    decidable_of_iff (∃ i, (t.run.machine.kern.table i).inUse = true ∧
        (t.run.machine.kern.table i).serial = c.ctx.task)
      ⟨fun ⟨i, hi⟩ => ⟨i, c, hcpu, hi⟩, fun ⟨i, c', hc, hi⟩ => by
        rw [hcpu] at hc
        cases hc
        exact ⟨i, hi⟩⟩

instance (t : Traced) (a : StmtLabel) : Decidable (Undisturbed t a) :=
  decidable_of_iff (OutsideWindow t a ∧ (t.CallsSwitch a → t.HasEntry))
    ⟨fun h => ⟨h.1, h.2⟩, fun h => ⟨h.window, h.entry⟩⟩

/-- The first task returns from its entry function, and has ended then. -/
example : ([.create 0 demoName 1, .yield, .taskReturn].foldlM Machine.exec (.start fourPages)).any
    (fun m => decide (¬ (m.traced 0 9).HasEntry) && (m.kern.table 0).inUse) = true := by
  decide +kernel

/-- The machine runs whole calls, and then statements from a tick of the clock on. -/
theorem Traced.reach_of_run {g : Traced → StmtLabel → Prop} [∀ t a, Decidable (g t a)]
    {calls : List Label} {stmts : List StmtLabel} {tick sliceCounter : ℕ} {p : Traced → Bool}
    (h : (calls.foldlM (TransitionSystem.guarded (fun m a => StackCall a ∧ SparesCurrent m a)
      Machine.exec) (.start fourPages)).any (fun m => m.cpu.isSome &&
        (stmts.foldlM (TransitionSystem.guarded g Traced.exec) (m.traced tick sliceCounter)).any p) =
      true) :
    ∃ t, tracedSystem.Reach g t ∧ p t = true := by
  have ⟨m, hreach, hm⟩ := Machine.reach_of_run smallKernel.Boot smallKernel_boot h
  rw [Bool.and_eq_true] at hm
  have ⟨t, ht, hp⟩ := (Option.any_eq_true _ _).mp hm.2
  exact ⟨t, .foldlM (.init (Machine.traced_start hreach hm.1 tick sliceCounter)) ht, hp⟩

/-- The statements of a `process_yield` up to `context_switch`, when the next slot is ready. -/
def yieldToSwitch : List StmtLabel := .yield :: List.replicate 11 .next

/-- The shell yields to the first of two tasks, and the slice ends in front of the store of
`current_pid`. -/
theorem schedule_safe_in_front_of_store :
    ∃ t, tracedSystem.Reach Undisturbed t ∧
      (t.run.switches .timer).isSome = true ∧ SafeStep t .timer := by
  have hrun : ([.create 0 demoName 1, .create 0 demoName 1].foldlM
      (TransitionSystem.guarded (fun m a => StackCall a ∧ SparesCurrent m a) Machine.exec)
      (.start fourPages)).any (fun m => m.cpu.isSome &&
        (yieldToSwitch.dropLast.foldlM
          (TransitionSystem.guarded Undisturbed Traced.exec) (m.traced 0 9)).any
            fun t => (t.run.switches .timer).isSome && (t.exec .timer).isSome &&
              decide (Undisturbed t .timer)) = true := by
    decide +kernel
  have ⟨t, hreach, ht⟩ := Traced.reach_of_run hrun
  rw [Bool.and_eq_true, Bool.and_eq_true] at ht
  have ⟨t', ht'⟩ := Option.isSome_iff_exists.mp ht.1.2
  exact ⟨t, hreach, ht.1.1,
    (schedule_safe_outside_window t hreach .timer t' ht').mpr (of_decide_eq_true ht.2)⟩

/-- The shell yields to the first of two tasks, and the slice ends in the window: the shell is saved
in the entry of that task. -/
theorem shell_saved_in_selected_entry :
    ¬ ∀ t, tracedSystem.Reachable t → ∀ a t', t.exec a = some t' → SafeStep t a := by
  intro hall
  have hrun : ([.create 0 demoName 1, .create 0 demoName 1].foldlM
      (TransitionSystem.guarded (fun m a => StackCall a ∧ SparesCurrent m a) Machine.exec)
      (.start fourPages)).any (fun m => m.cpu.isSome &&
        (yieldToSwitch.foldlM
          (TransitionSystem.guarded (fun _ _ => True) Traced.exec) (m.traced 0 9)).any
            fun t => (t.exec .timer).isSome && (t.run.switches .timer).any fun e =>
              decide ((e.kern.table e.sw.cur).serial ≠ e.cpu.ctx.task)) = true := by
    decide +kernel
  have ⟨t, hreach, ht⟩ := Traced.reach_of_run hrun
  rw [Bool.and_eq_true] at ht
  have ⟨t', ht'⟩ := Option.isSome_iff_exists.mp ht.1
  have ⟨e, he, hne⟩ := (Option.any_eq_true _ _).mp ht.2
  exact of_decide_eq_true hne (hall t hreach .timer t' ht' e he).task

end MyMisu
