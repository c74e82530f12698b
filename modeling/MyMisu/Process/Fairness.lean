import MyMisu.Process.Scheduler

/-!
# Waiting for the CPU

A process that stays ready is selected in its turn: each call of `schedule` selects a process that
stands before it in the round, at a smaller gap than the one before, whatever else is created,
killed, blocked or woken in between.
-/

namespace MyMisu

/-- The entry of a ready process. -/
structure ReadyAs (k : Kernel) (i : Slot) (pid : ℕ) : Prop where
  inUse : (k.table i).inUse = true
  pid : (k.table i).pid = pid
  state : (k.table i).state = .ready

/-- The process is ready before each of the calls, so none but the last one selects it. -/
def WaitsThrough (i : Slot) (pid : ℕ) (k : Kernel) : List SchedOp → Prop
  | [] => True
  | op :: ops => ReadyAs k i pid ∧ WaitsThrough i pid (schedExec k op) ops

/-- No call of the run terminates the process that is current then. -/
def SparesRunningThrough (k : Kernel) : List SchedOp → Prop
  | [] => True
  | op :: ops => SparesRunning k op ∧ SparesRunningThrough (schedExec k op) ops

/-- The number of calls that get to `schedule`. -/
def scheduleCalls (k : Kernel) : List SchedOp → ℕ
  | [] => 0
  | op :: ops => (if op.schedules k then 1 else 0) + scheduleCalls (schedExec k op) ops

/-- Each call that gets to `schedule` switches to a process. -/
def EveryCallSwitches (k : Kernel) : List SchedOp → Prop
  | [] => True
  | op :: ops => (op.schedules k = true → (schedCall k op).2.isSome = true) ∧
      EveryCallSwitches (schedExec k op) ops

/-- The processes switched to, by slot and pid. -/
def selections (k : Kernel) : List SchedOp → List (Slot × ℕ)
  | [] => []
  | op :: ops =>
    match (schedCall k op).2 with
    | none => selections (schedExec k op) ops
    | some sw => (sw.next, (k.table sw.next).pid) :: selections (schedExec k op) ops

/-- The turn of a waiting process. -/
structure ServedInTurn (pid : ℕ) (k : Kernel) (ops : List SchedOp) : Prop where
  switches : EveryCallSwitches k ops
  once : ((selections k ops).map Prod.snd).Nodup
  bound : scheduleCalls k ops ≤ 15
  served : scheduleCalls k ops = 15 → pid ∈ (selections k ops).map Prod.snd

/-! ## Processes keep their slots -/

variable {k : Kernel} {c i : Slot} {pid : ℕ}

theorem Kernel.Keeps.origin {k' : Kernel} (h : k.Keeps k') {j : Slot}
    (hj : (k'.table j).inUse = true) :
    (k.table j).inUse = true ∧ (k.table j).pid = (k'.table j).pid :=
  ⟨h.inUse hj, (h.owner j hj).pid.symm⟩

theorem schedule_sameOwner (k : Kernel) (j : Slot) :
    (k.table j).SameOwner ((schedule k).1.table j) := by
  rcases schedule_cases k with hrun | ⟨next, -, -, hne, hrun⟩
  · rw [hrun]
    exact .refl _
  · rw [hrun]
    exact handOver_sameOwner k ⟨curSlot k, next⟩ hne j

theorem processSleep_sameOwner (k : Kernel) (now ticks : ℕ) (j : Slot) :
    (k.table j).SameOwner ((processSleep k now ticks).1.table j) := by
  unfold processSleep
  split
  · exact .refl _
  · next slot _ =>
    split
    · exact .refl _
    · have howner : (k.table slot).SameOwner
          { k.table slot with state := .blocked, wakeTick := wrap32 (now + ticks) } :=
        ⟨rfl, rfl, rfl, rfl, rfl, rfl⟩
      exact (howner.setProc j).trans (schedule_sameOwner _ j)

/-- An entry in use holds the process it held before the call, or one with a new pid. -/
theorem schedExec_origin (k : Kernel) (op : SchedOp) {j : Slot}
    (hj : ((schedExec k op).table j).inUse = true) (hold : ((schedExec k op).table j).pid < k.nextPid) :
    (k.table j).inUse = true ∧ (k.table j).pid = ((schedExec k op).table j).pid := by
  have hsame : ∀ {k' : Kernel}, (k.table j).SameOwner (k'.table j) → (k'.table j).inUse = true →
      (k.table j).inUse = true ∧ (k.table j).pid = (k'.table j).pid :=
    fun howner hu => ⟨howner.inUse ▸ hu, howner.pid.symm⟩
  cases op with
  | create tick name fn =>
    change ((processCreateKernel k tick name fn).2.table j).inUse = true at hj
    change ((processCreateKernel k tick name fn).2.table j).pid < k.nextPid at hold
    show _ ∧ _ = ((processCreateKernel k tick name fn).2.table j).pid
    rcases processCreateKernel_spec k tick name fn with ⟨pmm, hrun⟩ | ⟨slot, -, hrun⟩
    · rw [hrun] at hj ⊢
      exact ⟨hj, rfl⟩
    · rw [hrun] at hj hold ⊢
      by_cases hjs : j = slot
      · rw [hjs, Kernel.spawn_self] at hold
        exact absurd hold (lt_irrefl k.nextPid)
      · rw [Kernel.spawn_ne _ _ _ _ hjs] at hj ⊢
        exact ⟨hj, rfl⟩
  | terminate q =>
    rcases processTerminate_cases k q with hrun | ⟨_, -, -, -, hkeeps, -⟩
    · change ((processTerminate k q).2.table j).inUse = true at hj
      show _ ∧ _ = ((processTerminate k q).2.table j).pid
      rw [hrun] at hj ⊢
      exact ⟨hj, rfl⟩
    · exact hkeeps.origin hj
  | tick now => exact (processTick_keeps k now).origin hj
  | schedule => exact hsame (schedule_sameOwner k j) hj
  | sleep now ticks => exact hsame (processSleep_sameOwner k now ticks j) hj

/-! ## The run -/

theorem ReadyAs.ne_current (h : ReadyAs k i pid) (hc : Scheduled k c) : i ≠ c := by
  intro he
  have hstate := h.state
  rw [he, hc.runs] at hstate
  cases hstate

theorem foldl_created (ops : List SchedOp) (k : Kernel) :
    k.created ≤ (ops.foldl schedExec k).created := by
  induction ops generalizing k with
  | nil => exact le_rfl
  | cons op ops ih => exact (schedExec_created k op).trans (ih (schedExec k op))

/-- Induction over a run through which a process waits: a call leaves the current slot alone, or it
selects the waiting process and ends the run, or it selects one that stands before it. -/
theorem waiting_induction {motive : Kernel → Slot → List SchedOp → Prop}
    (nil : ∀ k c, motive k c [])
    (stay : ∀ k c op ops, Scheduled k c → (schedCall k op).2 = none → op.schedules k = false →
      Scheduled (schedExec k op) c → motive (schedExec k op) c ops → motive k c (op :: ops))
    (select : ∀ k c op, Scheduled k c → ReadyAs k i pid → op.schedules k = true →
      (schedCall k op).2 = some ⟨c, i⟩ → motive k c [op])
    (pass : ∀ k c op ops next, Scheduled k c → op.schedules k = true →
      (schedCall k op).2 = some ⟨c, next⟩ → (k.table next).inUse = true →
      RoundRobin.gap next i < RoundRobin.gap c i → Scheduled (schedExec k op) next →
      motive (schedExec k op) next ops → motive k c (op :: ops))
    {ops : List SchedOp} (hc : Scheduled k c) (hops : SparesRunningThrough k ops)
    (hfew : (ops.foldl schedExec k).created < 2 ^ 32) (hwait : WaitsThrough i pid k ops) :
    motive k c ops := by
  induction ops generalizing k c with
  | nil => exact nil k c
  | cons op ops ih =>
    have ⟨hop, hops⟩ := hops
    have ⟨hready, hwait⟩ := hwait
    have hle := foldl_created ops (schedExec k op)
    have hfew' : (schedExec k op).created < 2 ^ 32 := lt_of_le_of_lt hle hfew
    have hi := hready.ne_current hc
    rcases hc.call_cases hop hfew' with ⟨hnone, hc', hidle⟩ |
      ⟨k', next, hcalls, hother, hnext, hne, hsome, hc'⟩
    · apply stay k c op ops hc hnone _ hc' (ih hc' hops hfew hwait)
      by_contra hcalls
      have hno := hidle (eq_true_of_ne_false hcalls) i hi
      rw [isReady_iff.mpr ⟨hready.inUse, hready.state⟩] at hno
      cases hno
    · have hready' : isReady k' i = true := by
        rw [isReady_iff, hother i hi]
        exact ⟨hready.inUse, hready.state⟩
      by_cases hni : next = i
      · rw [hni] at hsome hc'
        -- the process runs now, so the run ends here
        cases ops with
        | nil => exact select k c op hc hready hcalls hsome
        | cons op' ops =>
          have hstate := hwait.1.state
          rw [hc'.runs] at hstate
          cases hstate
      · have huse := (isReady_iff.mp (RoundRobin.next_eq_some hnext).1).1
        rw [hother next hne] at huse
        exact pass k c op ops next hc hcalls hsome huse (RoundRobin.gap_next hnext hready' hni) hc'
          (ih hc' hops hfew hwait)

section Run

variable {ops : List SchedOp} (hc : Scheduled k c) (hops : SparesRunningThrough k ops)
  (hfew : (ops.foldl schedExec k).created < 2 ^ 32) (hwait : WaitsThrough i pid k ops)

include hc hops hfew hwait

theorem every_call_switches : EveryCallSwitches k ops := by
  apply waiting_induction (motive := fun k _ ops => EveryCallSwitches k ops) _ _ _ _ hc hops hfew hwait
  · intro k c
    trivial
  · intro k c op ops _ _ hcalls _ ih
    refine ⟨fun h => ?_, ih⟩
    rw [hcalls] at h
    cases h
  · intro k c op _ _ _ hsome
    refine ⟨fun _ => ?_, trivial⟩
    rw [hsome]
    rfl
  · intro k c op ops next _ _ hsome _ _ _ ih
    refine ⟨fun _ => ?_, ih⟩
    rw [hsome]
    rfl

theorem scheduleCalls_eq : scheduleCalls k ops = (selections k ops).length := by
  apply waiting_induction (motive := fun k _ ops => scheduleCalls k ops = (selections k ops).length)
    _ _ _ _ hc hops hfew hwait
  · intro k c
    rfl
  · intro k c op ops _ hnone hcalls _ ih
    unfold scheduleCalls selections
    rw [hcalls, hnone, ih]
    exact Nat.zero_add _
  · intro k c op _ _ hcalls hsome
    unfold scheduleCalls selections
    rw [hcalls, hsome]
    rfl
  · intro k c op ops next _ hcalls hsome _ _ _ ih
    unfold scheduleCalls selections
    rw [hcalls, hsome, ih]
    exact Nat.add_comm _ _

/-- The gap to the waiting process bounds the number of selections. -/
theorem selections_bound : (selections k ops).length ≤ RoundRobin.gap c i ∧
    (pid ∉ (selections k ops).map Prod.snd → (selections k ops).length < RoundRobin.gap c i) := by
  apply waiting_induction (motive := fun k c ops => (selections k ops).length ≤ RoundRobin.gap c i ∧
    (pid ∉ (selections k ops).map Prod.snd → (selections k ops).length < RoundRobin.gap c i))
    _ _ _ _ hc hops hfew hwait
  · intro k c
    exact ⟨Nat.zero_le _, fun _ => RoundRobin.gap_pos c i⟩
  · intro k c op ops _ hnone _ _ ih
    unfold selections
    rw [hnone]
    exact ih
  · intro k c op _ hready _ hsome
    unfold selections
    rw [hsome]
    refine ⟨RoundRobin.gap_pos c i, fun hnot => absurd ?_ hnot⟩
    rw [List.map_cons, hready.pid]
    exact List.mem_cons_self
  · intro k c op ops next _ _ hsome _ hgap _ ih
    unfold selections
    rw [hsome]
    simp only [List.length_cons, List.map_cons, List.mem_cons, not_or]
    refine ⟨by omega, fun hnot => ?_⟩
    have hlt := ih.2 hnot.2
    omega

end Run

/-- The processes selected stand before the waiting one in the round, and those that existed at the
start are in the slots they had then. -/
def SelectedBefore (i : Slot) (k : Kernel) (c : Slot) (ops : List SchedOp) : Prop :=
  ∀ s ∈ selections k ops, (s.1 = i ∨ RoundRobin.gap s.1 i < RoundRobin.gap c i) ∧
    (s.2 < k.nextPid → (k.table s.1).inUse = true ∧ (k.table s.1).pid = s.2)

/-- A selection after the call was in its slot before it. -/
theorem origin_of_exec {op : SchedOp} {c' : Slot} (hc : Scheduled k c)
    (hc' : Scheduled (schedExec k op) c') {s : Slot × ℕ}
    (hold : s.2 < (schedExec k op).nextPid →
      ((schedExec k op).table s.1).inUse = true ∧ ((schedExec k op).table s.1).pid = s.2)
    (hlt : s.2 < k.nextPid) : (k.table s.1).inUse = true ∧ (k.table s.1).pid = s.2 := by
  have hle := schedExec_created k op
  rw [← hc.nextPid, ← hc'.nextPid] at hle
  have ⟨huse, hpid⟩ := hold (by omega)
  have ⟨huse', hpid'⟩ := schedExec_origin k op huse (by omega)
  exact ⟨huse', hpid'.trans hpid⟩

/-- Nobody is selected twice: the gaps shrink, and a process does not change its slot. -/
theorem selections_nodup {ops : List SchedOp} (hc : Scheduled k c)
    (hops : SparesRunningThrough k ops) (hfew : (ops.foldl schedExec k).created < 2 ^ 32)
    (hwait : WaitsThrough i pid k ops) : ((selections k ops).map Prod.snd).Nodup := by
  suffices h : SelectedBefore i k c ops ∧ ((selections k ops).map Prod.snd).Nodup from h.2
  apply waiting_induction (motive := fun k c ops =>
    SelectedBefore i k c ops ∧ ((selections k ops).map Prod.snd).Nodup) _ _ _ _ hc hops hfew hwait
  · intro k c
    exact ⟨fun s hs => absurd hs List.not_mem_nil, List.nodup_nil⟩
  · intro k c op ops hc hnone _ hc' ih
    have hsel : selections k (op :: ops) = selections (schedExec k op) ops := by
      rw [selections, hnone]
    unfold SelectedBefore
    rw [hsel]
    refine ⟨fun s hs => ?_, ih.2⟩
    have ⟨hgap, hold⟩ := ih.1 s hs
    exact ⟨hgap, origin_of_exec hc hc' hold⟩
  · intro k c op hc hready _ hsome
    have hsel : selections k [op] = [(i, (k.table i).pid)] := by
      rw [selections, hsome]
      rfl
    unfold SelectedBefore
    rw [hsel]
    refine ⟨fun s hs => ?_, List.nodup_singleton _⟩
    rw [List.mem_singleton.mp hs]
    exact ⟨.inl rfl, fun _ => ⟨hready.inUse, rfl⟩⟩
  · intro k c op ops next hc _ hsome huse hgap hc' ih
    have hsel : selections k (op :: ops) =
        (next, (k.table next).pid) :: selections (schedExec k op) ops := by
      rw [selections, hsome]
    have hlater : ∀ s ∈ selections (schedExec k op) ops, s.1 ≠ next := by
      intro s hs he
      have hself := RoundRobin.gap_self i
      have hle := RoundRobin.gap_le c i
      rcases (ih.1 s hs).1 with hsi | hlt
      · rw [← he, hsi, hself] at hgap
        omega
      · rw [he] at hlt
        exact absurd hlt (lt_irrefl _)
    have hold : ∀ s ∈ selections (schedExec k op) ops, s.2 < k.nextPid →
        (k.table s.1).inUse = true ∧ (k.table s.1).pid = s.2 :=
      fun s hs => origin_of_exec hc hc' (ih.1 s hs).2
    unfold SelectedBefore
    rw [hsel]
    constructor
    · intro s hs
      rcases List.mem_cons.mp hs with hs | hs
      · rw [hs]
        exact ⟨.inr hgap, fun _ => ⟨huse, rfl⟩⟩
      · refine ⟨?_, hold s hs⟩
        rcases (ih.1 s hs).1 with hsi | hlt
        · exact .inl hsi
        · exact .inr (hlt.trans hgap)
    · rw [List.map_cons, List.nodup_cons]
      refine ⟨fun hmem => ?_, ih.2⟩
      -- a later selection of the same pid would be in the same slot
      have ⟨s, hs, hpid⟩ := List.mem_map.mp hmem
      have ⟨huse', hpid'⟩ := hold s hs (by rw [hpid]; exact hc.fresh next huse)
      exact hlater s hs (hc.pids s.1 next huse' huse (hpid'.trans hpid))

/-- Round-robin fairness. -/
theorem served_in_turn (k : Kernel) (h : schedSystem.Reach SparesRunning k) (ops : List SchedOp)
    (hops : SparesRunningThrough k ops) (hfew : (ops.foldl schedExec k).creations < 2 ^ 32 - 2)
    (i : Slot) (pid : ℕ) (hwait : WaitsThrough i pid k ops) : ServedInTurn pid k ops := by
  have hle := foldl_created ops k
  unfold Kernel.creations at hfew
  have hfew' : (ops.foldl schedExec k).created < 2 ^ 32 := by omega
  have hstart : k.creations < 2 ^ 32 - 2 := by
    unfold Kernel.creations
    omega
  have ⟨c, hc⟩ := Scheduled.reach h hstart
  have hcalls := scheduleCalls_eq hc hops hfew' hwait
  have ⟨hlen, hstrict⟩ := selections_bound hc hops hfew' hwait
  cases ops with
  | nil =>
    refine ⟨trivial, List.nodup_nil, Nat.zero_le _, fun h => ?_⟩
    cases h
  | cons op ops =>
    have hgap : RoundRobin.gap c i < 16 := RoundRobin.gap_lt (hwait.1.ne_current hc)
    refine ⟨every_call_switches hc hops hfew' hwait, selections_nodup hc hops hfew' hwait, ?_, ?_⟩
    · omega
    · intro hfull
      by_contra hnot
      have hlt := hstrict hnot
      omega

instance (k : Kernel) (i : Slot) (pid : ℕ) : Decidable (ReadyAs k i pid) :=
  decidable_of_iff ((k.table i).inUse = true ∧ (k.table i).pid = pid ∧ (k.table i).state = .ready)
    ⟨fun h => ⟨h.1, h.2.1, h.2.2⟩, fun h => ⟨h.inUse, h.pid, h.state⟩⟩

instance decidableWaitsThrough (i : Slot) (pid : ℕ) :
    ∀ k ops, Decidable (WaitsThrough i pid k ops)
  | _, [] => .isTrue trivial
  | k, op :: ops =>
    have := decidableWaitsThrough i pid (schedExec k op) ops
    inferInstanceAs (Decidable (_ ∧ _))

/-- The shell waits while the process 2 goes to sleep and a new process 3 has its turn. -/
def shellWaits : List SchedOp := [.tick 1, .create 1 demoName 1, .sleep 1 5, .schedule]

theorem served_in_turn_shell :
    (selections firstSwitch shellWaits).map Prod.snd = [3, 1] ∧
      ServedInTurn 1 firstSwitch shellWaits :=
  ⟨by decide +kernel,
    served_in_turn firstSwitch firstSwitch_reach shellWaits ⟨trivial, trivial, trivial, trivial, trivial⟩
      (by decide +kernel) 1 1 (by decide +kernel)⟩

end MyMisu
