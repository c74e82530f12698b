import MyMisu.Process.Machine
import MyMisu.Process.Table

/-!
# Steps of the machine

Every step of the machine is one of three: a call that keeps the processes, apart from the one it
ends, a creation, and a switch.
-/

namespace MyMisu

/-! ## Switches -/

/-- The table after a switch: the saved context is that of the process switched from, the owners are
otherwise left alone, and the process switched to is the current one. -/
structure Kernel.Switched (k : Kernel) (sw : Switch) (sv : Saved) (k' : Kernel) : Prop where
  cur : { k.table sw.cur with savedEsp := some sv }.SameOwner (k'.table sw.cur)
  other : ∀ i, i ≠ sw.cur → (k.table i).SameOwner (k'.table i)
  running : ∀ i, i ≠ sw.cur → (k.table i).state = .running → (k'.table i).state = .running
  currentPid : k'.currentPid = (k.table sw.next).pid
  pmm : k'.pmm = k.pmm

namespace Kernel.Switched

variable {k k' : Kernel} {sw : Switch} {sv : Saved}

theorem serial (h : k.Switched sw sv k') (i : Slot) : (k'.table i).serial = (k.table i).serial := by
  by_cases hi : i = sw.cur
  · rw [hi, h.cur.serial]
  · exact (h.other i hi).serial

theorem pid (h : k.Switched sw sv k') (i : Slot) : (k'.table i).pid = (k.table i).pid := by
  by_cases hi : i = sw.cur
  · rw [hi, h.cur.pid]
  · exact (h.other i hi).pid

theorem kstack (h : k.Switched sw sv k') (i : Slot) : (k'.table i).kstack = (k.table i).kstack := by
  by_cases hi : i = sw.cur
  · rw [hi, h.cur.kstack]
  · exact (h.other i hi).kstack

theorem entry (h : k.Switched sw sv k') (i : Slot) : (k'.table i).entry = (k.table i).entry := by
  by_cases hi : i = sw.cur
  · rw [hi, h.cur.entry]
  · exact (h.other i hi).entry

theorem inUse (h : k.Switched sw sv k') (i : Slot) : (k'.table i).inUse = (k.table i).inUse := by
  by_cases hi : i = sw.cur
  · rw [hi, h.cur.inUse]
  · exact (h.other i hi).inUse

theorem stack (h : k.Switched sw sv k') (i : Slot) : (k'.table i).stack = (k.table i).stack := by
  unfold Process.stack
  rw [h.kstack]

end Kernel.Switched

theorem switched (k : Kernel) (sw : Switch) (sv : Saved) (hne : sw.next ≠ sw.cur) :
    k.Switched sw sv ((k.handOver sw).saveAt sw.cur sv) where
  cur := by
    have howner := handOver_sameOwner k sw hne sw.cur
    unfold Kernel.saveAt
    rw [Kernel.setProc_self]
    exact ⟨howner.serial, howner.pid, rfl, howner.kstack, howner.entry, howner.inUse⟩
  other i hi := by
    unfold Kernel.saveAt
    rw [Kernel.setProc_ne _ _ hi]
    exact handOver_sameOwner k sw hne i
  running i hi hrun := by
    unfold Kernel.saveAt
    rw [Kernel.setProc_ne _ _ hi]
    exact handOver_running k hi hrun
  currentPid := handOver_currentPid k sw hne
  pmm := rfl

theorem wrapperEnter_keeps (k : Kernel) (ctx : Context) : k.Keeps (wrapperEnter k ctx).1 := by
  unfold wrapperEnter
  cases processGetCurrent k with
  | none => exact .refl k
  | some p =>
    by_cases hentry : (k.table p).entry = 0
    · simp only [hentry, if_true]
      exact processReturned_keeps k p
    · simp only [hentry, if_false]
      exact .refl k

theorem wrapperEnter_task (k : Kernel) (ctx : Context) :
    (wrapperEnter k ctx).2.task = ctx.task ∧ (wrapperEnter k ctx).2.stack = ctx.stack := by
  unfold wrapperEnter
  cases processGetCurrent k with
  | none => exact ⟨rfl, rfl⟩
  | some p =>
    by_cases hentry : (k.table p).entry = 0
    · simp only [hentry, if_true]
      exact ⟨trivial, trivial⟩
    · simp only [hentry, if_false]
      exact ⟨trivial, trivial⟩

theorem load_kernel (sv : Saved) (k : Kernel)
    (h : sv.resume = .entry → ∀ p, processGetCurrent k = some p → (k.table p).entry ≠ 0)
    (flag : Bool) : (sv.load k flag).1 = k := by
  unfold Saved.load
  cases hresume : sv.resume with
  | entry =>
    show (wrapperEnter k sv.ctx).1 = k
    unfold wrapperEnter
    cases hcur : processGetCurrent k with
    | none => rfl
    | some p =>
      have hentry := h hresume p hcur
      simp only [hentry, if_false]
  | call => rfl
  | irq eflags => rfl

theorem load_keeps (sv : Saved) (k : Kernel) (flag : Bool) : k.Keeps (sv.load k flag).1 := by
  unfold Saved.load
  cases sv.resume with
  | entry => exact wrapperEnter_keeps k sv.ctx
  | call => exact .refl k
  | irq eflags => exact .refl k

theorem load_task (sv : Saved) (k : Kernel) (flag : Bool) :
    (sv.load k flag).2.ctx.task = sv.ctx.task ∧ (sv.load k flag).2.ctx.stack = sv.ctx.stack := by
  unfold Saved.load
  cases sv.resume with
  | entry => exact wrapperEnter_task k sv.ctx
  | call => exact ⟨rfl, rfl⟩
  | irq eflags => exact ⟨rfl, rfl⟩

theorem contextSwitch_handOver {k : Kernel} {sw : Switch} {sv : Saved} (log : List SwitchEvent)
    (c : Cpu) (how : Resume) (hne : sw.next ≠ sw.cur) (h : (k.table sw.next).savedEsp = some sv) :
    contextSwitch log (k.handOver sw) c sw how =
      { kern := (sv.load ((k.handOver sw).saveAt sw.cur ⟨c.ctx, how⟩) c.flag).1
        cpu := some (sv.load ((k.handOver sw).saveAt sw.cur ⟨c.ctx, how⟩) c.flag).2
        log := ⟨(k.table sw.cur).serial, c.ctx.task, (k.table sw.next).serial,
          some sv.ctx.task⟩ :: log } := by
  have hnext := handOver_sameOwner k sw hne sw.next
  unfold contextSwitch
  simp only [hnext.savedEsp, hnext.serial, (handOver_sameOwner k sw hne sw.cur).serial, h,
    Option.map_some]

/-! ## Steps -/

/-- The call ends the process in the slot. -/
def Ends (m : Machine) (c : Cpu) (i : Slot) : Label → Prop
  | .terminate pid => 1 < pid ∧ findSlotByPid m.kern pid = some i
  | .sysExit => 1 < m.kern.currentPid ∧ findSlotByPid m.kern m.kern.currentPid = some i
  | .sysKill pid => 1 < pid ∧ findSlotByPid m.kern (u32OfInt pid) = some i
  | .taskReturn => c.ctx.self = some i
  | _ => False

/-- How a call gets to `schedule`: the kernel it finds there, the CPU, and how the execution it
switches from will go on. -/
def Schedules (m : Machine) (c : Cpu) (k : Kernel) (c' : Cpu) (how : Resume) : Label → Prop
  | .yield => k = m.kern ∧ c' = c ∧ how = .call
  | .sleep _ _ => (processGetCurrent k).isSome = true ∧ c' = c ∧ how = .call
  | .timer now => k = processTick m.kern now ∧ c' = ⟨c.ctx, false⟩ ∧ how = .irq c.flag
  | _ => False

/-- What one step does to a machine with the given CPU. -/
inductive Effect (m : Machine) (c : Cpu) (a : Label) : Machine → Prop
  | keep {k : Kernel} {c' : Cpu} : m.kern.Keeps k →
      (∀ i, (m.kern.table i).inUse = true → (k.table i).inUse = false → Ends m c i a) →
      c'.ctx.task = c.ctx.task → c'.ctx.stack = c.ctx.stack → c'.flag = c.flag →
      Effect m c a { kern := k, cpu := some c', log := m.log }
  | spawn {tick fn : ℕ} {name : CStr} {slot : Slot} : a = .create tick name fn →
      findUnusedSlot m.kern = some slot → (pmmAllocPage m.kern.pmm).1 ≠ 0 →
      Effect m c a { m with kern := m.kern.spawn slot tick name fn }
  | switch {k : Kernel} {c' : Cpu} {how : Resume} {next : Slot} : m.kern.Keeps k →
      (∀ i, (m.kern.table i).SameOwner (k.table i)) → Schedules m c k c' how a →
      k.schedulingEnabled = true → nextReady k (curSlot k) = some next → next ≠ curSlot k →
      Effect m c a (contextSwitch m.log (k.handOver ⟨curSlot k, next⟩) c' ⟨curSlot k, next⟩ how)

namespace Effect

variable {m m' : Machine} {c : Cpu} {a : Label} {k : Kernel}

theorem kernel (hkeep : m.kern.Keeps k)
    (hends : ∀ i, (m.kern.table i).inUse = true → (k.table i).inUse = false → Ends m c i a) :
    Effect m c a { kern := k, cpu := some c, log := m.log } :=
  .keep hkeep hends rfl rfl rfl

theorem sameOwners (hkeep : m.kern.Keeps k)
    (howner : ∀ i, (m.kern.table i).SameOwner (k.table i)) :
    Effect m c a { kern := k, cpu := some c, log := m.log } := by
  apply kernel hkeep
  intro i hi hnot
  rw [(howner i).inUse, hi] at hnot
  cases hnot

theorem callSchedule (hcpu : m.cpu = some c) (hkeep : m.kern.Keeps k)
    (howner : ∀ i, (m.kern.table i).SameOwner (k.table i)) (hroute : Schedules m c k c .call a) :
    Effect m c a (m.callSchedule c (schedule k)) := by
  rcases schedule_cases k with h | ⟨next, hon, hnext, hne, h⟩
  · rw [h, Machine.callSchedule, hcpu]
    exact sameOwners hkeep howner
  · rw [h]
    exact switch hkeep howner hroute hon hnext hne

theorem irqSchedule (now : ℕ) :
    Effect m c (.timer now) (m.irqSchedule c now) := by
  have hkeep := processTick_keeps m.kern now
  have howner := processTick_sameOwner m.kern now
  unfold Machine.irqSchedule
  rcases schedule_cases (processTick m.kern now) with h | ⟨next, hon, hnext, hne, h⟩
  · -- the flags popped at the end are those the interrupt found
    rw [h]
    exact sameOwners hkeep howner
  · rw [h]
    exact switch hkeep howner ⟨rfl, rfl, rfl⟩ hon hnext hne

theorem sleep (hcpu : m.cpu = some c) (now ticks : ℕ) :
    Effect m c (.sleep now ticks) (m.callSchedule c (processSleep m.kern now ticks)) := by
  unfold processSleep
  cases hslot : findSlotByPid m.kern m.kern.currentPid with
  | none =>
    rw [Machine.callSchedule, hcpu]
    exact sameOwners (.refl _) fun _ => .refl _
  | some slot =>
    have ⟨huse, hslotPid⟩ := findSlotByPid_some hslot
    by_cases hpid : m.kern.currentPid ≤ 1
    · simp only [hpid, if_true]
      rw [Machine.callSchedule, hcpu]
      exact sameOwners (.refl _) fun _ => .refl _
    · simp only [hpid, if_false]
      have howner : (m.kern.table slot).SameOwner
          { m.kern.table slot with state := .blocked, wakeTick := wrap32 (now + ticks) } :=
        ⟨rfl, rfl, rfl, rfl, rfl, rfl⟩
      apply callSchedule hcpu
      · -- the sleeper is not pid 0 or 1
        apply Kernel.Keeps.setProc howner
        intro hle
        omega
      · exact howner.setProc
      · refine ⟨?_, rfl, rfl⟩
        apply findSlotByPid_isSome (i := slot)
        · rw [Kernel.setProc_self]
          exact huse
        · rw [Kernel.setProc_self]
          exact hslotPid

theorem create (hcpu : m.cpu = some c) (tick fn : ℕ) (name : CStr) :
    Effect m c (.create tick name fn)
      { kern := (processCreateKernel m.kern tick name fn).2, cpu := some c, log := m.log } := by
  rcases processCreateKernel_cases m.kern tick name fn with ⟨hkeep, htable⟩ | ⟨slot, hslot, hne, h⟩
  · apply sameOwners hkeep
    intro i
    rw [htable]
    exact .refl _
  · rw [h, ← hcpu]
    exact spawn rfl hslot hne

theorem terminate (pid : ℕ)
    (hends : ∀ i, 1 < pid → findSlotByPid m.kern pid = some i → Ends m c i a) :
    Effect m c a
      { kern := (processTerminate m.kern pid).2, cpu := some c, log := m.log } := by
  rcases processTerminate_cases m.kern pid with h | ⟨slot, hslot, hpid, _, hkeep, hother⟩
  · rw [h]
    exact sameOwners (.refl _) fun _ => .refl _
  · apply kernel hkeep
    intro i hi hnot
    by_cases his : i = slot
    · rw [his]
      exact hends slot hpid hslot
    · rw [hother i his, hi] at hnot
      cases hnot

theorem taskReturn (p : Slot) (hself : c.ctx.self = some p) :
    Effect m c .taskReturn
      { m with
        kern := processReturned m.kern p
        cpu := some { c with ctx := { c.ctx with returned := true } } } := by
  refine keep (processReturned_keeps m.kern p) ?_ rfl rfl rfl
  intro i hi hnot
  by_cases hip : i = p
  · rw [hip]
    exact hself
  · unfold processReturned at hnot
    rw [Kernel.setProc_ne _ _ hip, hi] at hnot
    cases hnot

end Effect

/-- What a step does. -/
inductive Machine.Moves (m : Machine) (c : Cpu) : Label → Machine → Prop
  | tick (now : ℕ) :
      Moves m c (.tick now) { kern := processTick m.kern now, cpu := some c, log := m.log }
  | timer (now : ℕ) : Moves m c (.timer now) (m.irqSchedule c now)
  | yield : Moves m c .yield (m.callSchedule c (processYield m.kern))
  | create (tick : ℕ) (name : CStr) (fn : ℕ) :
      Moves m c (.create tick name fn)
        { kern := (processCreateKernel m.kern tick name fn).2, cpu := some c, log := m.log }
  | sleep (now ticks : ℕ) :
      Moves m c (.sleep now ticks) (m.callSchedule c (processSleep m.kern now ticks))
  | terminate (pid : ℕ) :
      Moves m c (.terminate pid)
        { kern := (processTerminate m.kern pid).2, cpu := some c, log := m.log }
  | sysExit :
      Moves m c .sysExit { kern := (sysExit m.kern).2, cpu := some c, log := m.log }
  | sysKill (pid : ℤ) :
      Moves m c (.sysKill pid) { kern := (sysKill m.kern pid).2, cpu := some c, log := m.log }
  | taskReturn {p : Slot} : c.ctx.self = some p →
      Moves m c .taskReturn
        { m with
          kern := processReturned m.kern p
          cpu := some { c with ctx := { c.ctx with returned := true } } }

theorem Machine.exec_moves {m m' : Machine} {a : Label} (h : m.exec a = some m') :
    ∃ c, m.cpu = some c ∧ m.Moves c a m' := by
  unfold Machine.exec at h
  cases hcpu : m.cpu with
  | none =>
    rw [hcpu] at h
    cases h
  | some c =>
    rw [hcpu] at h
    refine ⟨c, rfl, ?_⟩
    cases a with
    | tick now =>
      cases h
      exact .tick now
    | timer now =>
      cases h
      exact .timer now
    | yield =>
      cases h
      exact .yield
    | create tick name fn =>
      cases (Option.ite_none_left_eq_some.mp h).2
      exact .create tick name fn
    | sleep now ticks =>
      cases (Option.ite_none_left_eq_some.mp h).2
      exact .sleep now ticks
    | terminate pid =>
      cases (Option.ite_none_left_eq_some.mp h).2
      exact .terminate pid
    | sysExit =>
      cases (Option.ite_none_left_eq_some.mp h).2
      exact .sysExit
    | sysKill pid =>
      cases (Option.ite_none_left_eq_some.mp h).2
      exact .sysKill pid
    | taskReturn =>
      have ⟨p, hself, h⟩ := Option.map_eq_some_iff.mp (Option.ite_none_left_eq_some.mp h).2
      cases h
      exact .taskReturn hself

theorem Machine.exec_effect {m m' : Machine} {a : Label} (h : m.exec a = some m') :
    ∃ c, m.cpu = some c ∧ Effect m c a m' := by
  have ⟨c, hcpu, hmoves⟩ := Machine.exec_moves h
  refine ⟨c, hcpu, ?_⟩
  cases hmoves with
  | tick now => exact .sameOwners (processTick_keeps m.kern now) (processTick_sameOwner m.kern now)
  | timer now => exact .irqSchedule now
  | yield => exact .callSchedule hcpu (.refl _) (fun _ => .refl _) ⟨rfl, rfl, rfl⟩
  | create tick name fn => exact .create hcpu tick fn name
  | sleep now ticks => exact .sleep hcpu now ticks
  | terminate pid =>
    apply Effect.terminate
    intro i hpid hi
    exact ⟨hpid, hi⟩
  | sysExit =>
    unfold MyMisu.sysExit
    split
    · next hpid =>
      apply Effect.terminate
      intro i _ hi
      exact ⟨hpid, hi⟩
    · exact .sameOwners (.refl _) fun _ => .refl _
  | sysKill pid =>
    unfold MyMisu.sysKill
    split
    · exact .sameOwners (.refl _) fun _ => .refl _
    · next hpid =>
      apply Effect.terminate
      intro i _ hi
      exact ⟨by omega, hi⟩
  | @taskReturn p hself => exact .taskReturn p hself

/-- A run of allowed steps, by computation. -/
theorem Machine.reach_of_run {g : Machine → Label → Prop} [∀ m a, Decidable (g m a)] {pmm : Pmm}
    {as : List Label} {p : Machine → Bool} (boot : Pmm → Prop) (hboot : boot pmm)
    (h : (as.foldlM (TransitionSystem.guarded g Machine.exec) (.start pmm)).any p = true) :
    ∃ m, (machineSystem boot).Reach g m ∧ p m = true := by
  have ⟨m, hm, hp⟩ := (Option.any_eq_true _ _).mp h
  exact ⟨m, .foldlM (.init ⟨pmm, hboot, rfl⟩) hm, hp⟩

theorem Machine.start_booted {pmm : Pmm} {i : Slot}
    (hi : ((Machine.start pmm).kern.table i).inUse = true) :
    Process.Booted i ((Machine.start pmm).kern.table i) :=
  @processInit_booted i pmm hi

end MyMisu
