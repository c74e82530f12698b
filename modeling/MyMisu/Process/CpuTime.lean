import MyMisu.Process.Ownership
import MyMisu.Process.Serials

/-!
# CPU time

`process_tick` charges a timer interrupt to the entry of the current pid.  That entry is the one of
the execution on the CPU, so `ticks_used`, which `ps` and `top` show, is the time a process has had.
-/

namespace MyMisu

/-- A machine, and the tasks the timer has found on the CPU, the last one first. -/
structure Metered where
  machine : Machine
  found : List ℕ

/-- The timer interrupts. -/
def Label.ticks : Label → Bool
  | .tick _ => true
  | .timer _ => true
  | _ => false

def Metered.exec (t : Metered) (a : Label) : Option Metered :=
  (t.machine.exec a).map fun m =>
    { machine := m
      found := (if a.ticks then (t.machine.cpu.map fun c => c.ctx.task).toList else []) ++ t.found }

def meteredSystem (boot : Pmm → Prop) : TransitionSystem Metered Label :=
  .ofPartial (fun t => t.found = [] ∧ ∃ pmm, boot pmm ∧ t.machine = .start pmm) Metered.exec

/-! ## Who is charged -/

/-- No entry is charged. -/
def Kernel.SameTicks (k k' : Kernel) : Prop := ∀ i, (k'.table i).ticksUsed = (k.table i).ticksUsed

variable {k k' k'' : Kernel} {m m' : Machine} {a : Label}

namespace Kernel.SameTicks

theorem refl (k : Kernel) : k.SameTicks k := fun _ => rfl

theorem trans (h : k.SameTicks k') (h' : k'.SameTicks k'') : k.SameTicks k'' :=
  fun i => (h' i).trans (h i)

theorem setProc {slot : Slot} {p : Process} (h : p.ticksUsed = (k.table slot).ticksUsed) :
    k.SameTicks (k.setProc slot p) := by
  intro i
  by_cases hi : i = slot
  · rw [hi, Kernel.setProc_self, h]
  · rw [Kernel.setProc_ne _ _ hi]

theorem handOver (k : Kernel) (sw : Switch) : k.SameTicks (k.handOver sw) := by
  have hcur : k.SameTicks (k.setProc sw.cur
      { k.table sw.cur with
        state := if (k.table sw.cur).state = .running then .ready else (k.table sw.cur).state }) :=
    setProc rfl
  exact hcur.trans (setProc rfl)

theorem load (sv : Saved) (k : Kernel) (flag : Bool) : k.SameTicks (sv.load k flag).1 := by
  unfold Saved.load
  cases sv.resume with
  | entry =>
    show k.SameTicks (wrapperEnter k sv.ctx).1
    unfold wrapperEnter
    cases processGetCurrent k with
    | none => exact refl k
    | some p =>
      simp only
      split
      · exact setProc rfl
      · exact refl k
  | call => exact refl k
  | irq eflags => exact refl k

theorem contextSwitch (log : List SwitchEvent) (k : Kernel) (c : Cpu) (sw : Switch) (how : Resume) :
    k.SameTicks (MyMisu.contextSwitch log k c sw how).kern := by
  have hsave : k.SameTicks (k.saveAt sw.cur ⟨c.ctx, how⟩) := setProc rfl
  unfold MyMisu.contextSwitch
  cases (k.table sw.next).savedEsp with
  | none => exact hsave
  | some sv => exact hsave.trans (load sv _ c.flag)

theorem schedule (k : Kernel) : k.SameTicks (MyMisu.schedule k).1 := by
  rcases schedule_cases k with hrun | ⟨next, -, -, -, hrun⟩
  · rw [hrun]
    exact refl k
  · rw [hrun]
    exact handOver k _

theorem processSleep (k : Kernel) (now ticks : ℕ) :
    k.SameTicks (MyMisu.processSleep k now ticks).1 := by
  unfold MyMisu.processSleep
  cases findSlotByPid k k.currentPid with
  | none => exact refl k
  | some slot =>
    have hblock : k.SameTicks (k.setProc slot
        { k.table slot with state := .blocked, wakeTick := wrap32 (now + ticks) }) := setProc rfl
    simp only
    split
    · exact refl k
    · exact hblock.trans (schedule _)

theorem processTerminate (k : Kernel) (pid : ℕ) : k.SameTicks (MyMisu.processTerminate k pid).2 := by
  rcases processTerminate_spec k pid with hrun | ⟨slot, pmm, -, -, hrun⟩
  · rw [hrun]
    exact refl k
  · rw [hrun]
    exact setProc rfl

theorem callSchedule {c : Cpu} {r : Kernel × Option Switch} (h : k.SameTicks r.1) :
    k.SameTicks (m.callSchedule c r).kern := by
  unfold Machine.callSchedule
  cases r.2 with
  | none => exact h
  | some sw => exact h.trans (contextSwitch m.log r.1 c sw .call)

theorem irqSchedule (m : Machine) (c : Cpu) (now : ℕ) :
    (processTick m.kern now).SameTicks (m.irqSchedule c now).kern := by
  unfold Machine.irqSchedule
  generalize processTick m.kern now = k
  have hsched := schedule k
  cases hsw : (MyMisu.schedule k).2 with
  | none =>
    simp only [hsw]
    exact hsched
  | some sw =>
    simp only [hsw]
    exact hsched.trans (contextSwitch m.log (MyMisu.schedule k).1 _ sw (.irq c.flag))

end Kernel.SameTicks

/-- One interrupt more for the current process. -/
theorem processTick_ticksUsed (k : Kernel) (now : ℕ)
    (hpids : ∀ i j, (k.table i).inUse = true → (k.table j).inUse = true →
      (k.table i).pid = (k.table j).pid → i = j) {i : Slot} (hi : (k.table i).inUse = true) :
    ((processTick k now).table i).ticksUsed =
      if (k.table i).pid = k.currentPid then wrap32 ((k.table i).ticksUsed + 1)
      else (k.table i).ticksUsed := by
  have hwake : ((processTick k now).table i).ticksUsed = ((countTick k).table i).ticksUsed := by
    show (((countTick k).table i).wake now).ticksUsed = _
    unfold Process.wake
    split <;> rfl
  rw [hwake]
  unfold countTick
  cases hslot : findSlotByPid k k.currentPid with
  | none =>
    have hne : (k.table i).pid ≠ k.currentPid := by
      intro hpid
      have hfound := findSlotByPid_isSome hi hpid
      rw [hslot] at hfound
      cases hfound
    rw [if_neg hne]
  | some slot =>
    obtain ⟨huse, hpid⟩ := findSlotByPid_some hslot
    by_cases his : i = slot
    · rw [his, Kernel.setProc_self, if_pos hpid]
    · -- another entry has another pid
      have hne : (k.table i).pid ≠ k.currentPid := fun h => his (hpids i slot hi huse (h.trans hpid.symm))
      rw [Kernel.setProc_ne _ _ his, if_neg hne]

/-- A step charges the current process at a timer interrupt and nobody otherwise. -/
theorem Machine.exec_charges (h : m.exec a = some m') :
    (a.ticks = true ∧ ∃ now, (processTick m.kern now).SameTicks m'.kern) ∨
      a.ticks = false ∧ (m.kern.SameTicks m'.kern ∨
        ∃ slot tick name fn, m' = { m with kern := m.kern.spawn slot tick name fn }) := by
  obtain ⟨c, hcpu, hmoves⟩ := Machine.exec_moves h
  cases hmoves with
  | tick now => exact .inl ⟨rfl, now, .refl _⟩
  | timer now => exact .inl ⟨rfl, now, .irqSchedule m c now⟩
  | yield => exact .inr ⟨rfl, .inl (.callSchedule (.schedule m.kern))⟩
  | create tick name fn =>
    refine .inr ⟨rfl, ?_⟩
    rcases processCreateKernel_spec m.kern tick name fn with ⟨pmm, hrun⟩ | ⟨slot, hslot, hrun⟩
    · rw [hrun]
      exact .inl (.refl _)
    · rw [hrun, ← hcpu]
      exact .inr ⟨slot, tick, name, fn, rfl⟩
  | sleep now ticks => exact .inr ⟨rfl, .inl (.callSchedule (.processSleep m.kern now ticks))⟩
  | terminate pid => exact .inr ⟨rfl, .inl (.processTerminate m.kern pid)⟩
  | sysExit =>
    refine .inr ⟨rfl, .inl ?_⟩
    show m.kern.SameTicks (MyMisu.sysExit m.kern).2
    unfold MyMisu.sysExit
    split
    · exact .processTerminate m.kern _
    · exact .refl _
  | sysKill pid =>
    refine .inr ⟨rfl, .inl ?_⟩
    show m.kern.SameTicks (MyMisu.sysKill m.kern pid).2
    unfold MyMisu.sysKill
    split
    · exact .refl _
    · exact .processTerminate m.kern _
  | taskReturn hself => exact .inr ⟨rfl, .inl (.setProc rfl)⟩

/-! ## Runs -/

theorem Effect.entries {c : Cpu} (h : Effect m c a m') :
    (∀ i, (m'.kern.table i).inUse = true → (m.kern.table i).inUse = true ∧
      (m'.kern.table i).serial = (m.kern.table i).serial ∧
        (m'.kern.table i).pid = (m.kern.table i).pid) ∨
      a.ticks = false ∧
        ∃ slot tick name fn, m' = { m with kern := m.kern.spawn slot tick name fn } := by
  cases h with
  | keep hkeep _ _ _ _ =>
    exact .inl fun i hi => ⟨hkeep.inUse hi, (hkeep.owner i hi).serial, (hkeep.owner i hi).pid⟩
  | @spawn tick fn name slot ha _ _ => exact .inr ⟨ha ▸ rfl, slot, tick, name, fn, rfl⟩
  | @switch k c' how next hkeep _ _ _ _ hne =>
    refine .inl fun i hi => ?_
    obtain ⟨k', hswitched, hload⟩ := contextSwitch_keeps (k := k) m.log c' how hne
    have hi' := hload.inUse hi
    rw [hswitched.inUse] at hi'
    refine ⟨hkeep.inUse hi', ?_, ?_⟩
    · rw [(hload.owner i hi).serial, hswitched.serial, (hkeep.owner i hi').serial]
    · rw [(hload.owner i hi).pid, hswitched.pid, (hkeep.owner i hi').pid]

/-- The task on the CPU is an older one than the next creation, and an entry it is the process of
has the current pid. -/
structure TaskCurrent (m : Machine) (c : Cpu) : Prop where
  created : c.ctx.task < m.kern.created
  current : ∀ i, (m.kern.table i).inUse = true → (m.kern.table i).serial = c.ctx.task →
    (m.kern.table i).pid = m.kern.currentPid

/-- The switch loads the task of the entry whose pid becomes the current one. -/
theorem TaskCurrent.switch {c : Cpu} {log : List SwitchEvent} {how : Resume} {next : Slot}
    (hdistinct : ∀ i j, (k.table i).inUse = true → (k.table j).inUse = true →
      (k.table i).serial = (k.table j).serial → i = j)
    (htable : TableOwned k) (hnext : nextReady k (curSlot k) = some next) (hne : next ≠ curSlot k)
    (hbelow : (k.table next).serial < k.created) {c' : Cpu}
    (hc' : (contextSwitch log (k.handOver ⟨curSlot k, next⟩) c ⟨curSlot k, next⟩ how).cpu = some c') :
    TaskCurrent (contextSwitch log (k.handOver ⟨curSlot k, next⟩) c ⟨curSlot k, next⟩ how) c' := by
  have hready := nextReady_isReady hnext
  have hnextUse := (isReady_iff.mp hready).1
  obtain ⟨sv, hsv, hown⟩ := htable.ready hready
  have hsw := switched k ⟨curSlot k, next⟩ ⟨c.ctx, how⟩ hne
  have htask := (load_task sv ((k.handOver ⟨curSlot k, next⟩).saveAt (curSlot k) ⟨c.ctx, how⟩) c.flag).1
  have hload := load_keeps sv ((k.handOver ⟨curSlot k, next⟩).saveAt (curSlot k) ⟨c.ctx, how⟩) c.flag
  have hcreated := contextSwitch_created log (k.handOver ⟨curSlot k, next⟩) c ⟨curSlot k, next⟩ how
  have hcpu : c'.ctx.task = (k.table next).serial := by
    rw [contextSwitch_handOver log c how hne hsv] at hc'
    rw [← Option.some.inj hc', htask, hown]
  constructor
  · rw [hcreated, hcpu]
    exact hbelow
  · intro i hi hserial
    rw [contextSwitch_handOver log c how hne hsv] at hi hserial ⊢
    have hi' := hload.inUse hi
    rw [hsw.inUse] at hi'
    have hsame : (k.table i).serial = (k.table next).serial := by
      rw [← hcpu, ← hserial, (hload.owner i hi).serial, hsw.serial]
    show ((sv.load _ c.flag).1.table i).pid = (sv.load _ c.flag).1.currentPid
    rw [(hload.owner i hi).pid, hsw.pid, hload.currentPid, hsw.currentPid,
      hdistinct i next hi' hnextUse hsame]

theorem TaskCurrent.step (howned : Owned m) (hserials : Serials m.kern)
    (h : ∀ c, m.cpu = some c → TaskCurrent m c) (hstep : m.exec a = some m') :
    ∀ c, m'.cpu = some c → TaskCurrent m' c := by
  have hcreated := Machine.exec_created hstep
  obtain ⟨c₀, hcpu, heffect⟩ := Machine.exec_effect hstep
  have h₀ := h c₀ hcpu
  intro c hc
  cases heffect with
  | keep hkeep _ htask _ _ =>
    cases hc
    refine ⟨htask ▸ lt_of_lt_of_le h₀.created hcreated, fun i hi hserial => ?_⟩
    show _ = _
    rw [(hkeep.owner i hi).pid, hkeep.currentPid]
    exact h₀.current i (hkeep.inUse hi) ((hkeep.owner i hi).serial.symm.trans (hserial.trans htask))
  | @spawn tick fn name slot _ _ _ =>
    obtain rfl : c₀ = c := Option.some.inj (hcpu.symm.trans hc)
    refine ⟨lt_of_lt_of_le h₀.created hcreated, fun i hi hserial => ?_⟩
    change ((m.kern.spawn slot tick name fn).table i).inUse = true at hi
    change ((m.kern.spawn slot tick name fn).table i).serial = c₀.ctx.task at hserial
    show ((m.kern.spawn slot tick name fn).table i).pid = m.kern.currentPid
    by_cases his : i = slot
    · rw [his, Kernel.spawn_self] at hserial
      -- the new process is of a later creation
      exact absurd hserial h₀.created.ne'
    · rw [Kernel.spawn_ne _ _ _ _ his] at hi hserial ⊢
      exact h₀.current i hi hserial
  | @switch k c' how next hkeep howner hroute _ hnext hne =>
    have hnextUse := (isReady_iff.mp (nextReady_isReady hnext)).1
    have hbelow : (k.table next).serial < k.created := by
      have hk := contextSwitch_created m.log (k.handOver ⟨curSlot k, next⟩) c' ⟨curSlot k, next⟩ how
      rw [hk] at hcreated
      rw [(howner next).serial]
      exact lt_of_lt_of_le (hserials.below next (hkeep.inUse hnextUse)) hcreated
    have hdistinct := Kernel.TellsApart.mono (f := Process.serial) hserials.distinct
      fun i hi => ⟨hkeep.inUse hi, (howner i).serial⟩
    exact TaskCurrent.switch hdistinct (howned.table.keeps hkeep) hnext hne hbelow hc

/-- The invariant of the runs. -/
structure Metered.Inv (t : Metered) : Prop where
  owned : Owned t.machine
  serials : Serials t.machine.kern
  task : ∀ c, t.machine.cpu = some c → TaskCurrent t.machine c
  found : ∀ n ∈ t.found, n < t.machine.kern.created
  ticks : ∀ i, (t.machine.kern.table i).inUse = true →
    (t.machine.kern.table i).ticksUsed = wrap32 (t.found.count (t.machine.kern.table i).serial)

theorem wrap32_succ (n : ℕ) : wrap32 (wrap32 n + 1) = wrap32 (n + 1) := by
  unfold wrap32
  omega

theorem Metered.Inv.start (pmm : Pmm) : Metered.Inv ⟨Machine.start pmm, []⟩ where
  owned := .start pmm
  serials := .start pmm
  task := by
    intro c hc
    cases hc
    refine ⟨show 1 < 2 by decide, fun i hi hserial => ?_⟩
    have hboot := Machine.start_booted hi
    rw [hboot.serial] at hserial
    rw [hboot.pid, hserial]
    rfl
  found := fun n hn => absurd hn List.not_mem_nil
  ticks := by
    intro i hi
    have hzero : ((Machine.start pmm).kern.table i).ticksUsed = 0 := by
      show ((processInit pmm).table i).ticksUsed = 0
      simp only [processInit]
      split_ifs <;> rfl
    rw [hzero, List.count_nil]
    rfl

/-- A new process has had no time yet. -/
theorem Metered.Inv.spawn_ticks {t : Metered} (h : t.Inv) (slot : Slot) (tick : ℕ) (name : CStr)
    (fn : ℕ) {i : Slot} (hi : ((t.machine.kern.spawn slot tick name fn).table i).inUse = true) :
    ((t.machine.kern.spawn slot tick name fn).table i).ticksUsed =
      wrap32 (t.found.count ((t.machine.kern.spawn slot tick name fn).table i).serial) := by
  by_cases his : i = slot
  · have hnever : t.found.count t.machine.kern.created = 0 := by
      apply List.count_eq_zero_of_not_mem
      intro hmem
      exact absurd (h.found _ hmem) (lt_irrefl _)
    rw [his, Kernel.spawn_self]
    show 0 = wrap32 (t.found.count t.machine.kern.created)
    rw [hnever]
    rfl
  · rw [Kernel.spawn_ne _ _ _ _ his] at hi ⊢
    exact h.ticks i hi

theorem Metered.Inv.ticks_step {t : Metered} (h : t.Inv) (hexec : t.machine.exec a = some m')
    {c : Cpu} (hcpu : t.machine.cpu = some c) (heffect : Effect t.machine c a m') {i : Slot}
    (hi : (m'.kern.table i).inUse = true) :
    (m'.kern.table i).ticksUsed =
      wrap32 (((if a.ticks then [c.ctx.task] else []) ++ t.found).count (m'.kern.table i).serial) := by
  rcases heffect.entries with hentries | ⟨ha, slot, tick, name, fn, rfl⟩
  · obtain ⟨huse, hserial, hpid⟩ := hentries i hi
    rcases Machine.exec_charges hexec with ⟨ha, now, hsame⟩ | ⟨ha, hsame | ⟨slot, tick, name, fn, rfl⟩⟩
    · -- the current entry is the one of the task on the CPU
      have hcurrent : (t.machine.kern.table i).pid = t.machine.kern.currentPid ↔
          c.ctx.task = (t.machine.kern.table i).serial :=
        ⟨fun hcur => (h.owned.own.executing c i hcpu huse hcur).symm,
          fun htask => (h.task c hcpu).current i huse htask.symm⟩
      rw [hsame i, processTick_ticksUsed _ now h.owned.table.pids huse, hserial, if_pos ha,
        List.singleton_append, List.count_cons, h.ticks i huse]
      simp only [hcurrent, beq_iff_eq]
      split_ifs
      · exact wrap32_succ _
      · rfl
    · rw [hsame i, hserial, ha]
      exact h.ticks i huse
    · rw [ha]
      exact h.spawn_ticks slot tick name fn hi
  · rw [ha]
    exact h.spawn_ticks slot tick name fn hi

theorem Metered.Inv.step {t t' : Metered} (h : t.Inv) (hg : KeepsOwners t.machine a)
    (hstep : t.exec a = some t') : t'.Inv := by
  obtain ⟨m', hexec, rfl⟩ := Option.map_eq_some_iff.mp hstep
  have hcreated := Machine.exec_created hexec
  obtain ⟨c, hcpu, heffect⟩ := Machine.exec_effect hexec
  rw [hcpu, Option.map_some, Option.toList_some]
  refine ⟨h.owned.step hg hexec, h.serials.step hexec,
    TaskCurrent.step h.owned h.serials h.task hexec, ?_, fun i hi => h.ticks_step hexec hcpu heffect hi⟩
  intro n hn
  rcases List.mem_append.mp hn with hn | hn
  · have hnt : n = c.ctx.task := by
      split at hn
      · exact List.mem_singleton.mp hn
      · cases hn
    rw [hnt]
    exact lt_of_lt_of_le (h.task c hcpu).created hcreated
  · exact lt_of_lt_of_le (h.found n hn) hcreated

theorem Metered.Inv.reach {boot : Pmm → Prop} {t : Metered}
    (h : (meteredSystem boot).Reach (fun t a => KeepsOwners t.machine a) t) : t.Inv := by
  apply h.invariant
  · intro s hs
    obtain ⟨machine, found⟩ := s
    obtain ⟨rfl, pmm, -, rfl⟩ := hs
    exact .start pmm
  · intro s a s' _ hs hg hstep
    exact hs.step hg hstep

/-- `ticks_used` of a process is the number of timer interrupts that have found it on the CPU. -/
theorem ticks_used_counts (boot : Pmm → Prop) (t : Metered)
    (h : (meteredSystem boot).Reach (fun t a => KeepsOwners t.machine a) t) (i : Slot)
    (hi : (t.machine.kern.table i).inUse = true) :
    (t.machine.kern.table i).ticksUsed = wrap32 (t.found.count (t.machine.kern.table i).serial) := by
  have hinv := Metered.Inv.reach h
  exact hinv.ticks i hi

/-- Allowed steps, one after the other, on four pages. -/
def meterRun (as : List Label) : Option Metered :=
  as.foldlM (TransitionSystem.guarded (fun t a => KeepsOwners t.machine a) Metered.exec)
    ⟨.start fourPages, []⟩

theorem meterRun_reach {as : List Label} {t : Metered} (h : meterRun as = some t) :
    (meteredSystem (· = fourPages)).Reach (fun t a => KeepsOwners t.machine a) t :=
  .foldlM (.init ⟨rfl, fourPages, rfl, rfl⟩) h

/-- The shell creates a process and yields to it; the timer finds the new process twice, then the
shell once. -/
def threeTicks : List Label := [.create 0 demoName 1, .yield, .tick 1, .timer 2, .tick 3]

theorem threeTicks_run : (meterRun threeTicks).any (fun t =>
    (t.machine.kern.table 2).inUse && decide (t.found = [1, 2, 2])) = true := by
  decide +kernel

theorem ticks_used_counts_three :
    ∃ t, meterRun threeTicks = some t ∧ t.found = [1, 2, 2] ∧ (t.machine.kern.table 2).ticksUsed =
      wrap32 (t.found.count (t.machine.kern.table 2).serial) := by
  obtain ⟨t, hrun, ht⟩ := (Option.any_eq_true _ _).mp threeTicks_run
  rw [Bool.and_eq_true, decide_eq_true_iff] at ht
  exact ⟨t, hrun, ht.2, ticks_used_counts (· = fourPages) t (meterRun_reach hrun) 2 ht.1⟩

end MyMisu
