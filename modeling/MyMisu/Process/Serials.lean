import MyMisu.Process.Scheduler
import MyMisu.Process.Steps

/-!
# The serials of the processes

`serial` numbers the creations, so it tells a process from all others, whatever the pids do.
-/

namespace MyMisu

variable {k k' : Kernel}

/-- The serials number the creations. -/
structure Serials (k : Kernel) : Prop where
  below : ∀ i, (k.table i).inUse = true → (k.table i).serial < k.created
  distinct : ∀ i j, (k.table i).inUse = true → (k.table j).inUse = true →
    (k.table i).serial = (k.table j).serial → i = j

theorem Serials.of_serial (h : Serials k) (hcreated : k.created ≤ k'.created)
    (hi : ∀ i, (k'.table i).inUse = true →
      (k.table i).inUse = true ∧ (k'.table i).serial = (k.table i).serial) : Serials k' where
  below i huse := by
    have ⟨huse', hserial⟩ := hi i huse
    rw [hserial]
    exact lt_of_lt_of_le (h.below i huse') hcreated
  distinct := Kernel.TellsApart.mono (f := Process.serial) h.distinct hi

theorem Serials.spawn {slot : Slot} (h : Serials k) (tick fn : ℕ) (name : CStr) :
    Serials (k.spawn slot tick name fn) := by
  have hcreated : (k.spawn slot tick name fn).created = k.created + 1 := rfl
  constructor
  · intro i hi
    rw [hcreated]
    by_cases his : i = slot
    · rw [his, Kernel.spawn_self]
      exact Nat.lt_succ_self k.created
    · rw [Kernel.spawn_ne _ _ _ _ his] at hi ⊢
      exact Nat.lt_succ_of_lt (h.below i hi)
  · apply Kernel.TellsApart.spawn (f := Process.serial) h.distinct
    intro i hi
    -- an older process has a smaller serial
    rw [Kernel.spawn_self]
    exact (h.below i hi).ne

/-- After a switch the wrapper may end a process that has no entry function. -/
theorem contextSwitch_keeps (log : List SwitchEvent) (c : Cpu) (how : Resume) {cur next : Slot}
    (hne : next ≠ cur) :
    ∃ k', k.Switched ⟨cur, next⟩ ⟨c.ctx, how⟩ k' ∧
      k'.Keeps (contextSwitch log (k.handOver ⟨cur, next⟩) c ⟨cur, next⟩ how).kern := by
  refine ⟨_, switched k ⟨cur, next⟩ ⟨c.ctx, how⟩ hne, ?_⟩
  unfold contextSwitch
  cases ((k.handOver ⟨cur, next⟩).table next).savedEsp with
  | none => exact .refl _
  | some sv => exact load_keeps sv _ c.flag

theorem contextSwitch_created (log : List SwitchEvent) (k : Kernel) (c : Cpu) (sw : Switch)
    (how : Resume) : (contextSwitch log k c sw how).kern.created = k.created := by
  unfold contextSwitch
  cases (k.table sw.next).savedEsp with
  | none => rfl
  | some sv =>
    simp only
    unfold Saved.load
    cases sv.resume with
    | call => rfl
    | irq eflags => rfl
    | entry =>
      show (wrapperEnter _ sv.ctx).1.created = k.created
      unfold wrapperEnter
      split
      · rfl
      · split <;> rfl

theorem callSchedule_created (m : Machine) (c : Cpu) (r : Kernel × Option Switch) :
    (m.callSchedule c r).kern.created = r.1.created := by
  unfold Machine.callSchedule
  cases r.2 with
  | none => rfl
  | some sw => exact contextSwitch_created m.log r.1 c sw .call

theorem processTick_created (k : Kernel) (now : ℕ) : (processTick k now).created = k.created := by
  show (countTick k).created = k.created
  unfold countTick
  cases findSlotByPid k k.currentPid <;> rfl

theorem Machine.exec_created {m m' : Machine} {a : Label} (h : m.exec a = some m') :
    m.kern.created ≤ m'.kern.created := by
  have ⟨c, _, hmoves⟩ := Machine.exec_moves h
  cases hmoves with
  | tick now => exact (processTick_created m.kern now).ge
  | timer now =>
    -- process_tick and schedule create nobody; what is left is the switch, which keeps the counter
    unfold Machine.irqSchedule
    have hsched := schedule_created (processTick m.kern now)
    rw [processTick_created] at hsched
    cases hsw : (schedule (processTick m.kern now)).2 with
    | none =>
      simp only [hsw]
      exact hsched.ge
    | some sw =>
      simp only [hsw]
      rw [contextSwitch_created, hsched]
  | yield =>
    rw [callSchedule_created]
    exact (schedule_created m.kern).ge
  | create tick name fn => exact schedExec_created m.kern (.create tick name fn)
  | sleep now ticks =>
    rw [callSchedule_created]
    exact schedExec_created m.kern (.sleep now ticks)
  | terminate pid => exact schedExec_created m.kern (.terminate pid)
  | sysExit =>
    -- both branches of sys_exit: terminate and return, or return at once
    show m.kern.created ≤ (MyMisu.sysExit m.kern).2.created
    unfold MyMisu.sysExit
    split
    · exact schedExec_created m.kern (.terminate (processGetCurrentPid m.kern))
    · exact le_refl _
  | sysKill pid =>
    show m.kern.created ≤ (MyMisu.sysKill m.kern pid).2.created
    unfold MyMisu.sysKill
    split
    · exact le_refl _
    · exact schedExec_created m.kern (.terminate (u32OfInt pid))
  | taskReturn _ => exact le_refl _

theorem Serials.step {m m' : Machine} {a : Label} (h : Serials m.kern) (hstep : m.exec a = some m') :
    Serials m'.kern := by
  have hcreated := Machine.exec_created hstep
  have ⟨c, _, heffect⟩ := Machine.exec_effect hstep
  cases heffect with
  | keep hkeep _ _ _ _ =>
    exact h.of_serial hcreated fun i hi => ⟨hkeep.inUse hi, (hkeep.owner i hi).serial⟩
  | spawn _ _ _ => exact h.spawn _ _ _
  | @switch k c' how next hkeep _ _ _ _ hne =>
    apply h.of_serial hcreated
    intro i hi
    have ⟨k', hswitched, hload⟩ := contextSwitch_keeps (k := k) m.log c' how hne
    have hi' := hload.inUse hi
    rw [hswitched.inUse] at hi'
    refine ⟨hkeep.inUse hi', ?_⟩
    rw [(hload.owner i hi).serial, hswitched.serial, (hkeep.owner i hi').serial]

theorem Serials.start (pmm : Pmm) : Serials (Machine.start pmm).kern where
  below i hi := by
    have hboot := Machine.start_booted hi
    rw [hboot.serial]
    exact Nat.lt_succ_of_le hboot.slot
  distinct i j hi hj heq := by
    rw [(Machine.start_booted hi).serial, (Machine.start_booted hj).serial] at heq
    exact Fin.ext heq

/-- In every run the processes in use are of different creations. -/
theorem Serials.reach {boot : Pmm → Prop} {m : Machine} (h : (machineSystem boot).Reachable m) :
    Serials m.kern := by
  apply TransitionSystem.Reach.invariant _ _ h
  · intro s hs
    have ⟨pmm, _, hs⟩ := hs
    rw [hs]
    exact .start pmm
  · intro s a s' _ hs _ hstep
    exact hs.step hstep

end MyMisu
