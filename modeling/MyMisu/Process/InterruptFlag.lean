import MyMisu.Process.Steps

/-!
# The interrupt flag across switches

`context_switch` saves no flags.  An execution that was interrupted gets its flags back from the
stack, and a new one sets the flag itself; one that called `schedule` goes on with the flag of the
execution it is loaded by, which is clear inside the timer interrupt.
-/

namespace MyMisu

/-- The code of a process runs with interrupts enabled. -/
def FlagSet (m : Machine) : Prop := ∀ c, m.cpu = some c → c.flag = true

/-- The timer interrupt does not switch to a process that has called `schedule` itself. -/
def ResumesInterrupted (m : Machine) : Label → Prop
  | .timer now =>
    ∀ next, (processTick m.kern now).schedulingEnabled = true →
      nextReady (processTick m.kern now) (curSlot (processTick m.kern now)) = some next →
      next ≠ curSlot (processTick m.kern now) →
      ((processTick m.kern now).table next).savedEsp.map Saved.resume ≠ some .call
  | _ => True

/-- The flags an interrupt has saved were set. -/
def SavedFlags (k : Kernel) : Prop :=
  ∀ i sv, (k.table i).inUse = true → (k.table i).savedEsp = some sv → sv.resume ≠ .irq false

structure Interruptible (m : Machine) : Prop where
  flag : FlagSet m
  saved : SavedFlags m.kern

variable {k k' : Kernel} {m m' : Machine}

namespace SavedFlags

theorem keeps (h : SavedFlags k) (hk : k.Keeps k') : SavedFlags k' := by
  intro i sv hi hsv
  rw [(hk.owner i hi).savedEsp] at hsv
  exact h i sv (hk.inUse hi) hsv

theorem spawn (h : SavedFlags k) (slot : Slot) (tick fn : ℕ) (name : CStr) :
    SavedFlags (k.spawn slot tick name fn) := by
  intro i sv hi hsv
  by_cases his : i = slot
  · rw [his, Kernel.spawn_self] at hsv
    rw [← Option.some.inj hsv]
    show Resume.entry ≠ .irq false
    decide
  · rw [Kernel.spawn_ne _ _ _ _ his] at hi hsv
    exact h i sv hi hsv

theorem switch (h : SavedFlags k) {sw : Switch} {sv : Saved} (hk : k.Switched sw sv k')
    (hsv : sv.resume ≠ .irq false) : SavedFlags k' := by
  intro i sv' hi hsv'
  by_cases hcur : i = sw.cur
  · rw [hcur, hk.cur.savedEsp] at hsv'
    rw [← Option.some.inj hsv']
    exact hsv
  · rw [hk.inUse] at hi
    rw [(hk.other i hcur).savedEsp] at hsv'
    exact h i sv' hi hsv'

end SavedFlags

/-- The flag of a loaded execution: set by the wrapper, left alone by `schedule`'s callers, popped by
`iret`. -/
theorem load_flag (sv : Saved) (k : Kernel) (flag : Bool) :
    (sv.load k flag).2.flag =
      match sv.resume with
      | .entry => true
      | .call => flag
      | .irq eflags => eflags := by
  unfold Saved.load
  cases sv.resume <;> rfl

theorem load_flag_set {sv : Saved} {flag : Bool} (hirq : sv.resume ≠ .irq false)
    (hcall : sv.resume = .call → flag = true) (k : Kernel) : (sv.load k flag).2.flag = true := by
  rw [load_flag]
  cases hresume : sv.resume with
  | entry => rfl
  | call => exact hcall hresume
  | irq eflags =>
    cases eflags with
    | true => rfl
    | false => exact absurd hresume hirq

theorem Interruptible.switch {c : Cpu} {how : Resume} {next : Slot} (log : List SwitchEvent)
    (h : SavedFlags k) (hnext : nextReady k (curSlot k) = some next) (hne : next ≠ curSlot k)
    (hhow : how ≠ .irq false)
    (hcall : ∀ sv, (k.table next).savedEsp = some sv → sv.resume = .call → c.flag = true) :
    Interruptible (contextSwitch log (k.handOver ⟨curSlot k, next⟩) c ⟨curSlot k, next⟩ how) := by
  have hsw := switched k ⟨curSlot k, next⟩ ⟨c.ctx, how⟩ hne
  have huse := (isReady_iff.mp (nextReady_isReady hnext)).1
  cases hsv : (k.table next).savedEsp with
  | none =>
    -- nothing was ever saved there
    have hnone : ((k.handOver ⟨curSlot k, next⟩).table next).savedEsp = none := by
      rw [(handOver_sameOwner k ⟨curSlot k, next⟩ hne next).savedEsp, hsv]
    unfold contextSwitch
    simp only [hnone]
    refine ⟨?_, h.switch hsw hhow⟩
    intro c' hc'
    cases hc'
  | some sv =>
    rw [contextSwitch_handOver log c how hne hsv]
    refine ⟨?_, (h.switch hsw hhow).keeps (load_keeps _ _ _)⟩
    intro c' hc'
    cases hc'
    exact load_flag_set (h next sv huse hsv) (hcall sv hsv) _

theorem Interruptible.step {a : Label} (h : Interruptible m) (hg : ResumesInterrupted m a)
    (hstep : m.exec a = some m') : Interruptible m' := by
  have ⟨c, hcpu, heffect⟩ := Machine.exec_effect hstep
  have hflag := h.flag c hcpu
  cases heffect with
  | keep hkeep _ _ _ hsame =>
    refine ⟨?_, h.saved.keeps hkeep⟩
    intro c' hc'
    cases hc'
    rw [hsame, hflag]
  | spawn _ _ _ => exact ⟨h.flag, h.saved.spawn _ _ _ _⟩
  | @switch k c' how next hkeep _ hroute hon hnext hne =>
    have hsaved := h.saved.keeps hkeep
    cases a with
    | yield =>
      have ⟨_, hc', hhow⟩ := hroute
      rw [hc', hhow]
      exact .switch m.log hsaved hnext hne (by decide) fun _ _ _ => hflag
    | sleep now ticks =>
      have ⟨_, hc', hhow⟩ := hroute
      rw [hc', hhow]
      exact .switch m.log hsaved hnext hne (by decide) fun _ _ _ => hflag
    | timer now =>
      have ⟨hk, _, hhow⟩ := hroute
      rw [hhow, hflag]
      apply Interruptible.switch m.log hsaved hnext hne (by decide)
      intro sv hsv hcall
      rw [hk] at hon hnext hne hsv
      apply absurd _ (hg next hon hnext hne)
      rw [hsv, Option.map_some, hcall]
    | _ => exact hroute.elim

theorem Interruptible.start (pmm : Pmm) : Interruptible (Machine.start pmm) where
  flag := by
    intro c hc
    cases hc
    rfl
  saved := by
    intro i sv hi hsv
    rw [(Machine.start_booted hi).savedEsp] at hsv
    cases hsv

theorem irqSchedule_switch {now : ℕ} {sw : Switch} (c : Cpu)
    (h : schedule (processTick m.kern now) = (k, some sw)) :
    m.irqSchedule c now = contextSwitch m.log k ⟨c.ctx, false⟩ sw (.irq c.flag) := by
  unfold Machine.irqSchedule
  rw [h]
  rfl

/-- A process that has called `schedule` itself goes on with interrupts disabled when the timer
interrupt switches to it. -/
theorem timer_clears_flag {now : ℕ} {c : Cpu} (hcpu : m.cpu = some c)
    (hg : ¬ ResumesInterrupted m (.timer now)) (hstep : m.exec (.timer now) = some m') :
    ¬ FlagSet m' := by
  intro hflag
  apply hg
  intro next hon hnext hne hresume
  have ⟨sv, hsv, hcall⟩ := Option.map_eq_some_iff.mp hresume
  have hm' : m' = m.irqSchedule c now := by
    have ⟨c', hcpu', hmoves⟩ := Machine.exec_moves hstep
    cases hmoves
    rw [Option.some.inj (hcpu.symm.trans hcpu')]
  rw [irqSchedule_switch c (schedule_switch hon hnext hne),
    contextSwitch_handOver m.log _ _ hne hsv] at hm'
  have hset := hflag _ (congrArg Machine.cpu hm')
  rw [load_flag, hcall] at hset
  cases hset

/-- Interrupts stay enabled in every run in which the timer interrupt never switches to a process
that has called `schedule` itself, and the first such switch disables them. -/
theorem flag_set_while_interrupted_resumed (boot : Pmm → Prop) (m : Machine)
    (h : (machineSystem boot).Reach ResumesInterrupted m) :
    FlagSet m ∧ ∀ now c m', m.cpu = some c → ¬ ResumesInterrupted m (.timer now) →
      m.exec (.timer now) = some m' → ¬ FlagSet m' := by
  have hinv : Interruptible m := by
    apply h.invariant
    · intro s hs
      have ⟨pmm, _, hs⟩ := hs
      rw [hs]
      exact .start pmm
    · intro s a s' _ hs hg hstep
      exact hs.step hg hstep
  exact ⟨hinv.flag, fun now c m' hcpu hg hstep => timer_clears_flag hcpu hg hstep⟩

instance (m : Machine) (a : Label) : Decidable (ResumesInterrupted m a) :=
  match a with
  | .timer now =>
    inferInstanceAs (Decidable (∀ next, (processTick m.kern now).schedulingEnabled = true →
      nextReady (processTick m.kern now) (curSlot (processTick m.kern now)) = some next →
      next ≠ curSlot (processTick m.kern now) →
      ((processTick m.kern now).table next).savedEsp.map Saved.resume ≠ some .call))
  | .create _ _ _ | .tick _ | .yield | .sleep _ _ | .terminate _ | .sysExit | .sysKill _
  | .taskReturn => .isTrue trivial

/-- The timer starts a task and goes back from it, and the shell yields to the task. -/
theorem flag_set_three_switches :
    ∃ m, (machineSystem (· = fourPages)).Reach ResumesInterrupted m ∧ m.log.length = 3 ∧
      FlagSet m := by
  have hrun : ([.create 0 demoName 1, .timer 1, .timer 2, .yield].foldlM
      (TransitionSystem.guarded ResumesInterrupted Machine.exec) (.start fourPages)).any
        (fun m => decide (m.log.length = 3)) = true := by
    decide +kernel
  have ⟨m, hreach, hlog⟩ := Machine.reach_of_run (· = fourPages) rfl hrun
  exact ⟨m, hreach, of_decide_eq_true hlog,
    (flag_set_while_interrupted_resumed (· = fourPages) m hreach).1⟩

/-- A task that the timer has started yields, and the timer switches back to it. -/
theorem yielded_task_resumed_without_interrupts :
    ¬ ∀ boot m, (machineSystem boot).Reachable m → FlagSet m := by
  intro hall
  have hrun : ([.create 0 demoName 1, .timer 1, .yield, .timer 2].foldlM
      (TransitionSystem.guarded (fun _ _ => True) Machine.exec) (.start fourPages)).any
        (fun m => m.cpu.any fun c => !c.flag) = true := by
    decide +kernel
  have ⟨m, hreach, hclear⟩ := Machine.reach_of_run (· = fourPages) rfl hrun
  have ⟨c, hc, hflag⟩ := (Option.any_eq_true _ _).mp hclear
  rw [hall (· = fourPages) m hreach c hc] at hflag
  cases hflag

end MyMisu
