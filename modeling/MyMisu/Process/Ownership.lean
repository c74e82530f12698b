import MyMisu.Process.Steps

/-!
# Whose context an entry holds

`schedule` saves the execution on the CPU in the entry of the current pid, and in slot 0 when no
entry in use has that pid.  As long as it finds the entry, and as long as the pids in use are
distinct, every context stays under its own process.
-/

namespace MyMisu

/-- Every switch saves the execution under its own process and loads the own execution of the
process it selects, and the execution on the CPU is under no other entry. -/
structure OwnContexts (m : Machine) : Prop where
  saved : ∀ e ∈ m.log, e.written = e.saved
  loaded : ∀ e ∈ m.log, e.loaded = some e.selected
  executing : ∀ c i, m.cpu = some c → (m.kern.table i).inUse = true →
    (m.kern.table i).pid = m.kern.currentPid → (m.kern.table i).serial = c.ctx.task

/-- The next pid is neither in use nor that of the execution on the CPU. -/
def FreshPid (k : Kernel) : Prop :=
  k.nextPid ≠ k.currentPid ∧ ∀ i, (k.table i).inUse = true → (k.table i).pid ≠ k.nextPid

/-- The current pid is in use, or `schedule` has nobody to switch to from slot 0. -/
def CurrentKept (k : Kernel) : Prop :=
  (processGetCurrent k).isSome = true ∨ ∀ i, i ≠ 0 → isReady k i = false

/-- A creation that succeeds does not repeat a pid, and `schedule` is not called with the current
process out of use and another one ready. -/
def KeepsOwners (m : Machine) : Label → Prop
  | .create _ _ _ =>
    (findUnusedSlot m.kern).isSome = true → (pmmAllocPage m.kern.pmm).1 ≠ 0 → FreshPid m.kern
  | .yield => CurrentKept m.kern
  | .timer now => CurrentKept (processTick m.kern now)
  | _ => True

/-! ## The invariant -/

/-- Pids in use are distinct, saved contexts belong to the process of the entry, and only the pids
0 and 1 may have none, while they are running. -/
structure TableOwned (k : Kernel) : Prop where
  pids : ∀ i j, (k.table i).inUse = true → (k.table j).inUse = true →
    (k.table i).pid = (k.table j).pid → i = j
  saved : ∀ i sv, (k.table i).inUse = true → (k.table i).savedEsp = some sv →
    sv.ctx.task = (k.table i).serial
  unsaved : ∀ i, (k.table i).inUse = true → (k.table i).savedEsp = none →
    (k.table i).pid ≤ 1 ∧ (k.table i).state = .running

structure Owned (m : Machine) : Prop where
  table : TableOwned m.kern
  own : OwnContexts m

/-- The execution of the task is under no other entry. -/
def Executes (k : Kernel) (task : ℕ) : Prop :=
  ∀ i, (k.table i).inUse = true → (k.table i).pid = k.currentPid → (k.table i).serial = task

variable {k k' : Kernel} {m m' : Machine}

namespace TableOwned

theorem keeps (h : TableOwned k) (hk : k.Keeps k') : TableOwned k' where
  pids := Kernel.TellsApart.mono (f := Process.pid) h.pids fun i hi =>
    ⟨hk.inUse hi, (hk.owner i hi).pid⟩
  saved i sv hi hsv := by
    rw [(hk.owner i hi).savedEsp] at hsv
    rw [(hk.owner i hi).serial]
    exact h.saved i sv (hk.inUse hi) hsv
  unsaved i hi hsv := by
    rw [(hk.owner i hi).savedEsp] at hsv
    have ⟨hpid, hrun⟩ := h.unsaved i (hk.inUse hi) hsv
    rw [(hk.owner i hi).pid]
    exact ⟨hpid, hk.running i hi hpid hrun⟩

theorem ready (h : TableOwned k) {i : Slot} (hi : isReady k i = true) :
    ∃ sv, (k.table i).savedEsp = some sv ∧ sv.ctx.task = (k.table i).serial := by
  have ⟨huse, hstate⟩ := isReady_iff.mp hi
  cases hsv : (k.table i).savedEsp with
  | none =>
    have hrun := (h.unsaved i huse hsv).2
    rw [hstate] at hrun
    cases hrun
  | some sv => exact ⟨sv, rfl, h.saved i sv huse hsv⟩

theorem spawn (h : TableOwned k) (hfresh : FreshPid k) {slot : Slot} (tick fn : ℕ) (name : CStr) :
    TableOwned (k.spawn slot tick name fn) where
  pids := by
    apply Kernel.TellsApart.spawn (f := Process.pid) h.pids
    intro i hi
    rw [Kernel.spawn_self]
    exact hfresh.2 i hi
  saved i sv hi hsv := by
    by_cases his : i = slot
    · rw [his, Kernel.spawn_self] at hsv ⊢
      rw [← Option.some.inj hsv]
      rfl
    · rw [Kernel.spawn_ne _ _ _ _ his] at hi hsv ⊢
      exact h.saved i sv hi hsv
  unsaved i hi hsv := by
    by_cases his : i = slot
    · rw [his, Kernel.spawn_self] at hsv
      cases hsv
    · rw [Kernel.spawn_ne _ _ _ _ his] at hi hsv ⊢
      exact h.unsaved i hi hsv

theorem switch (h : TableOwned k) {sw : Switch} {sv : Saved} (hk : k.Switched sw sv k')
    (hsv : sv.ctx.task = (k.table sw.cur).serial) : TableOwned k' where
  pids := Kernel.TellsApart.mono (f := Process.pid) h.pids fun i hi =>
    ⟨(hk.inUse i).symm.trans hi, hk.pid i⟩
  saved i sv' hi hsv' := by
    rw [hk.inUse] at hi
    rw [hk.serial]
    by_cases hcur : i = sw.cur
    · rw [hcur, hk.cur.savedEsp] at hsv'
      rw [hcur, ← Option.some.inj hsv', hsv]
    · rw [(hk.other i hcur).savedEsp] at hsv'
      exact h.saved i sv' hi hsv'
  unsaved i hi hsv' := by
    rw [hk.inUse] at hi
    by_cases hcur : i = sw.cur
    · rw [hcur, hk.cur.savedEsp] at hsv'
      cases hsv'
    · rw [(hk.other i hcur).savedEsp] at hsv'
      have ⟨hpid, hrun⟩ := h.unsaved i hi hsv'
      rw [hk.pid]
      exact ⟨hpid, hk.running i hcur hrun⟩

end TableOwned

theorem Executes.keeps {task : ℕ} (h : Executes k task) (hk : k.Keeps k') : Executes k' task := by
  intro i hi hpid
  rw [(hk.owner i hi).pid, hk.currentPid] at hpid
  rw [(hk.owner i hi).serial]
  exact h i (hk.inUse hi) hpid

theorem TableOwned.executes_switch {sw : Switch} {sv : Saved} (h : TableOwned k)
    (hk : k.Switched sw sv k') (hnext : (k.table sw.next).inUse = true) :
    Executes k' (k.table sw.next).serial := by
  intro i hi hpid
  rw [hk.inUse] at hi
  rw [hk.pid, hk.currentPid] at hpid
  rw [hk.serial, h.pids i sw.next hi hnext hpid]

theorem OwnContexts.executes (h : OwnContexts m) {c : Cpu} (hcpu : m.cpu = some c) :
    Executes m.kern c.ctx.task :=
  fun i hi hpid => h.executing c i hcpu hi hpid

/-! ## Steps -/

/-- With the current process kept, the entry `schedule` switches from is in use. -/
theorem curSlot_of_kept {next : Slot} (h : CurrentKept k) (hnext : nextReady k (curSlot k) = some next)
    (hne : next ≠ curSlot k) : (processGetCurrent k).isSome = true := by
  rcases h with h | h
  · exact h
  · cases hcur : processGetCurrent k with
    | some slot => rfl
    | none =>
      have hzero : curSlot k = 0 := by
        unfold curSlot
        unfold processGetCurrent at hcur
        rw [hcur, Option.getD_none]
      rw [hzero] at hne
      have hready := nextReady_isReady hnext
      rw [h next hne] at hready
      cases hready

theorem current_of_schedules {c c' : Cpu} {a : Label} {how : Resume} {next : Slot}
    (hg : KeepsOwners m a) (hroute : Schedules m c k c' how a)
    (hnext : nextReady k (curSlot k) = some next) (hne : next ≠ curSlot k) :
    (processGetCurrent k).isSome = true := by
  cases a with
  | yield => exact curSlot_of_kept (hroute.1 ▸ hg) hnext hne
  | timer now => exact curSlot_of_kept (hroute.1 ▸ hg) hnext hne
  | sleep now ticks => exact hroute.1
  | _ => exact hroute.elim

theorem Schedules.ctx {c c' : Cpu} {a : Label} {how : Resume} (h : Schedules m c k c' how a) :
    c'.ctx = c.ctx := by
  cases a with
  | yield => rw [h.2.1]
  | timer now => rw [h.2.1]
  | sleep now ticks => rw [h.2.1]
  | _ => exact h.elim

theorem Owned.switch {c : Cpu} {how : Resume} {next : Slot} {log : List SwitchEvent}
    (htable : TableOwned k) (hexec : Executes k c.ctx.task)
    (hcur : (processGetCurrent k).isSome = true)
    (hlog : ∀ e ∈ log, e.written = e.saved ∧ e.loaded = some e.selected)
    (hnext : nextReady k (curSlot k) = some next) (hne : next ≠ curSlot k) :
    Owned (contextSwitch log (k.handOver ⟨curSlot k, next⟩) c ⟨curSlot k, next⟩ how) := by
  have hready := nextReady_isReady hnext
  have hnextUse := (isReady_iff.mp hready).1
  have ⟨huse, hpid⟩ := curSlot_inUse hcur
  have hserial := hexec (curSlot k) huse hpid
  have ⟨sv, hsv, hown⟩ := htable.ready hready
  have hsw := switched k ⟨curSlot k, next⟩ ⟨c.ctx, how⟩ hne
  have hkeep := load_keeps sv ((k.handOver ⟨curSlot k, next⟩).saveAt (curSlot k) ⟨c.ctx, how⟩) c.flag
  have htask := (load_task sv ((k.handOver ⟨curSlot k, next⟩).saveAt (curSlot k) ⟨c.ctx, how⟩) c.flag).1
  rw [contextSwitch_handOver log c how hne hsv]
  have hlog' : ∀ e ∈ (⟨(k.table (curSlot k)).serial, c.ctx.task, (k.table next).serial,
      some sv.ctx.task⟩ : SwitchEvent) :: log, e.written = e.saved ∧ e.loaded = some e.selected := by
    intro e he
    rcases List.mem_cons.mp he with rfl | he
    · exact ⟨hserial, congrArg some hown⟩
    · exact hlog e he
  refine ⟨(htable.switch hsw hserial.symm).keeps hkeep, fun e he => (hlog' e he).1,
    fun e he => (hlog' e he).2, ?_⟩
  intro c' i hc' hi hpid'
  cases hc'
  rw [htask, hown]
  exact (htable.executes_switch hsw hnextUse).keeps hkeep i hi hpid'

theorem Owned.step {a : Label} (h : Owned m) (hg : KeepsOwners m a) (hstep : m.exec a = some m') :
    Owned m' := by
  have ⟨c, hcpu, heffect⟩ := Machine.exec_effect hstep
  have hexec := h.own.executes hcpu
  cases heffect with
  | keep hkeep _ htask _ _ =>
    refine ⟨h.table.keeps hkeep, h.own.saved, h.own.loaded, ?_⟩
    intro c' i hc' hi hpid
    cases hc'
    rw [htask]
    exact hexec.keeps hkeep i hi hpid
  | @spawn tick fn name slot ha hslot hstack =>
    rw [ha] at hg
    have hfresh := hg (by rw [hslot]; rfl) hstack
    refine ⟨h.table.spawn hfresh tick fn name, h.own.saved, h.own.loaded, ?_⟩
    intro c' i hc' hi hpid
    by_cases his : i = slot
    · rw [his] at hpid
      -- the new entry has a fresh pid, so the one on the CPU is an older entry
      change ((m.kern.spawn slot tick name fn).table slot).pid = m.kern.currentPid at hpid
      rw [Kernel.spawn_self] at hpid
      exact absurd hpid hfresh.1
    · change ((m.kern.spawn slot tick name fn).table i).inUse = true at hi
      change ((m.kern.spawn slot tick name fn).table i).pid = m.kern.currentPid at hpid
      change ((m.kern.spawn slot tick name fn).table i).serial = c'.ctx.task
      rw [Kernel.spawn_ne _ _ _ _ his] at hi hpid ⊢
      exact h.own.executing c' i hc' hi hpid
  | switch hkeep howner hroute _ hnext hne =>
    have hcur := current_of_schedules hg hroute hnext hne
    -- schedule saves in the entry of current_pid; the condition says that it is there
    have hctx := hroute.ctx
    apply Owned.switch (h.table.keeps hkeep) _ hcur _ hnext hne
    · rw [hctx]
      exact hexec.keeps hkeep
    · exact fun e he => ⟨h.own.saved e he, h.own.loaded e he⟩

theorem Owned.start (pmm : Pmm) : Owned (Machine.start pmm) where
  table := {
    pids := by
      intro i j hi hj hpid
      have hbooti := Machine.start_booted hi
      have hbootj := Machine.start_booted hj
      apply Fin.ext
      rw [← hbooti.pid, ← hbootj.pid]
      exact hpid
    saved := by
      intro i sv hi hsv
      rw [(Machine.start_booted hi).savedEsp] at hsv
      cases hsv
    unsaved := by
      intro i hi _
      have hboot := Machine.start_booted hi
      refine ⟨?_, hboot.state⟩
      rw [hboot.pid]
      exact hboot.slot }
  own := {
    saved := fun e he => absurd he List.not_mem_nil
    loaded := fun e he => absurd he List.not_mem_nil
    executing := by
      intro c i hcpu hi hpid
      have hboot := Machine.start_booted hi
      cases hcpu
      rw [hboot.pid] at hpid
      rw [hboot.serial, hpid]
      rfl }

/-- Contexts stay under their own process in every run that meets the condition. -/
theorem contexts_owned_while_current_kept (boot : Pmm → Prop) (m : Machine)
    (h : (machineSystem boot).Reach KeepsOwners m) : OwnContexts m := by
  have hinv : Owned m := by
    apply h.invariant
    · intro s hs
      have ⟨pmm, _, hs⟩ := hs
      rw [hs]
      exact .start pmm
    · intro s a s' _ hs hg hstep
      exact hs.step hg hstep
  exact hinv.own

instance : DecidablePred FreshPid := fun _ => inferInstanceAs (Decidable (_ ∧ _))

instance : DecidablePred CurrentKept := fun _ => inferInstanceAs (Decidable (_ ∨ _))

instance (m : Machine) (a : Label) : Decidable (KeepsOwners m a) :=
  match a with
  | .create _ _ _ => inferInstanceAs (Decidable (_ → _ → FreshPid m.kern))
  | .yield => inferInstanceAs (Decidable (CurrentKept m.kern))
  | .timer now => inferInstanceAs (Decidable (CurrentKept (processTick m.kern now)))
  | .tick _ | .sleep _ _ | .terminate _ | .sysExit | .sysKill _ | .taskReturn => .isTrue trivial

/-- Two switches, to a new process and back from it. -/
theorem contexts_owned_two_switches :
    ∃ m, (machineSystem (· = fourPages)).Reach KeepsOwners m ∧ m.log.length = 2 ∧
      OwnContexts m := by
  have hrun : ([.create 0 demoName 1, .yield, .timer 1].foldlM
      (TransitionSystem.guarded KeepsOwners Machine.exec) (.start fourPages)).any
        (fun m => decide (m.log.length = 2)) = true := by
    decide +kernel
  have ⟨m, hreach, hlog⟩ := Machine.reach_of_run (· = fourPages) rfl hrun
  exact ⟨m, hreach, of_decide_eq_true hlog,
    contexts_owned_while_current_kept (· = fourPages) m hreach⟩

/-- A task returns and yields: `schedule` saves its execution in slot 0. -/
theorem returned_task_saved_in_slot_zero :
    ¬ ∀ boot m, (machineSystem boot).Reachable m → OwnContexts m := by
  intro hall
  have hrun : ([.create 0 demoName 1, .yield, .taskReturn, .yield].foldlM
      (TransitionSystem.guarded (fun _ _ => True) Machine.exec) (.start fourPages)).any
        (fun m => m.log.any fun e => decide (e.written ≠ e.saved)) = true := by
    decide +kernel
  have ⟨m, hreach, hlog⟩ := Machine.reach_of_run (· = fourPages) rfl hrun
  have ⟨e, he, hne⟩ := List.any_eq_true.mp hlog
  exact of_decide_eq_true hne ((hall (· = fourPages) m hreach).saved e he)

end MyMisu
