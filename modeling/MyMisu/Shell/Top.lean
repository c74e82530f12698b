import MyMisu.Process.CpuTime
import MyMisu.Shell.Commands

/-!
# The process list of `top`

`cmd_top` shows for each process how much `ticks_used` has grown since the last refresh, doubled, as a
percentage: there are to be 50 timer interrupts from one refresh to the next.  The table is taken to be
read at one moment.
-/

namespace MyMisu

/-- What `pad_str` writes. -/
def padStr (str : List UInt8) (width : ℤ) : List UInt8 :=
  str ++ List.replicate (width - str.length).toNat space

/-- `cpu_pct`, on unsigned numbers. -/
def cpuPct (prev now : ℕ) : ℕ :=
  let delta := wrap32 (now + (2 ^ 32 - prev))
  let cpuPct := wrap32 (delta * 2)
  if cpuPct > 100 then 100 else cpuPct

/-- `st` and `stcolor` -/
def topState : ProcState → List UInt8 × UInt8
  | .running => (ascii "RUNNING", vgaLightGreen)
  | .ready => (ascii "READY", vgaLightCyan)
  | .blocked => (ascii "BLOCKED", vgaYellow)
  | .terminated => (ascii "TERMINATED", vgaLightRed)
  | .unused => (ascii "UNUSED", vgaDarkGrey)

/-- The line of a process. -/
def topLine (p : Process) (cpuPct : ℕ) : List Console :=
  [.print (ascii "  "), .ink vgaLightCyan, .print (padInt (intOfU32 p.pid) 6), .ink vgaWhite,
    .print (padStr p.name.str.bytes 18), .ink (topState p.state).2, .print (padStr (topState p.state).1 12),
    .ink (if cpuPct ≥ 50 then vgaLightRed else if cpuPct ≥ 20 then vgaYellow else vgaLightGreen),
    .print (padInt cpuPct 4), .print (ascii "%   "), .ink vgaLightGrey,
    .print (printInt (intOfU32 p.ticksUsed) ++ [10])]

/-- The list of `cmd_top`; `prevTicks` is what `ticks_used` was at the last refresh. -/
def topList (k : Kernel) (prevTicks : Slot → ℕ) : List Console :=
  (List.finRange maxProcesses).flatMap fun i =>
    if (k.table i).inUse then topLine (k.table i) (cpuPct (prevTicks i) (k.table i).ticksUsed) else []

/-- The difference of two counts, although both are kept in 32 bits. -/
theorem cpuPct_eq (n : ℕ) {k : ℕ} (hk : k < 2 ^ 31) :
    cpuPct (wrap32 n) (wrap32 (n + k)) = min 100 (2 * k) := by
  have hdelta : wrap32 (wrap32 (n + k) + (2 ^ 32 - wrap32 n)) = k := by
    -- also when the counter has come round in between
    unfold wrap32
    omega
  unfold cpuPct
  simp only
  rw [hdelta, wrap32_of_lt (by omega)]
  split <;> omega

/-! ## From one refresh to the next -/

/-- Allowed steps, one after the other. -/
def Metered.run (t : Metered) (as : List Label) : Option Metered :=
  as.foldlM (TransitionSystem.guarded (fun t a => KeepsOwners t.machine a) Metered.exec) t

/-- The tasks the timer has found since `t`, the last one first. -/
def Metered.foundSince (t t' : Metered) : List ℕ := t'.found.take (t'.found.length - t.found.length)

theorem Metered.foundSince_append {t t' : Metered} {as : List Label} (hrun : t.run as = some t') :
    t'.found = t.foundSince t' ++ t.found := by
  suffices h : ∃ new, t'.found = new ++ t.found by
    obtain ⟨new, hnew⟩ := h
    unfold foundSince
    rw [hnew, List.length_append, Nat.add_sub_cancel, List.take_left]
  induction as generalizing t with
  | nil =>
    cases hrun
    exact ⟨[], rfl⟩
  | cons a as ih =>
    unfold Metered.run at hrun
    rw [List.foldlM_cons] at hrun
    obtain ⟨s, hs, hrest⟩ := Option.bind_eq_some_iff.mp hrun
    obtain ⟨new, hfound⟩ := ih hrest
    obtain ⟨-, hstep⟩ := Option.ite_none_right_eq_some.mp hs
    obtain ⟨m', -, rfl⟩ := Option.map_eq_some_iff.mp hstep
    -- the step has put its own finding, if any, in front
    rw [hfound, ← List.append_assoc]
    exact ⟨_, rfl⟩

/-- How often some different tasks are among the ones found, taken together. -/
theorem sum_count {s : Finset Slot} {f : Slot → ℕ} (hf : Set.InjOn f s) (l : List ℕ) :
    ∑ i ∈ s, l.count (f i) = l.countP fun n => ∃ i ∈ s, f i = n := by
  induction l with
  | nil => simp
  | cons n l ih =>
    -- at most one of the different tasks is the one in front
    have hone : ∑ i ∈ s, (if n = f i then 1 else 0) = if ∃ i ∈ s, f i = n then 1 else 0 := by
      by_cases hn : ∃ i ∈ s, f i = n
      · rw [if_pos hn]
        obtain ⟨i, hi, rfl⟩ := hn
        have hother : ∀ j ∈ s, j ≠ i → (if f i = f j then 1 else 0) = 0 :=
          fun j hj hji => if_neg fun hij => hji (hf hj hi hij.symm)
        rw [Finset.sum_eq_single_of_mem i hi hother, if_pos rfl]
      · rw [if_neg hn]
        apply Finset.sum_eq_zero
        intro i hi
        exact if_neg fun hni => hn ⟨i, hi, hni.symm⟩
    simp only [List.count_cons, beq_iff_eq, Finset.sum_add_distrib, ih, hone, List.countP_cons,
      decide_eq_true_eq]

/-- The entry is of one process at both moments. -/
structure Stays (t t' : Metered) (i : Slot) : Prop where
  before : (t.machine.kern.table i).inUse = true
  after : (t'.machine.kern.table i).inUse = true
  same : (t.machine.kern.table i).serial = (t'.machine.kern.table i).serial

instance (t t' : Metered) : DecidablePred (Stays t t') := fun i =>
  decidable_of_iff
    ((t.machine.kern.table i).inUse = true ∧ (t'.machine.kern.table i).inUse = true ∧
      (t.machine.kern.table i).serial = (t'.machine.kern.table i).serial)
    ⟨fun h => ⟨h.1, h.2.1, h.2.2⟩, fun h => ⟨h.before, h.after, h.same⟩⟩

/-- The percentage shown for an entry. -/
def percentShown (t t' : Metered) (i : Slot) : ℕ :=
  cpuPct (t.machine.kern.table i).ticksUsed (t'.machine.kern.table i).ticksUsed

/-- How often the process of an entry has been found since `t`. -/
def timesFound (t t' : Metered) (i : Slot) : ℕ := (t.foundSince t').count (t'.machine.kern.table i).serial

section Refresh

variable {boot : Pmm → Prop} {t t' : Metered} {as : List Label}

theorem percentShown_eq (h : t.Inv) (h' : t'.Inv) (hrun : t.run as = some t')
    (hshort : (t.foundSince t').length < 2 ^ 31) {i : Slot} (hi : Stays t t' i) :
    percentShown t t' i = min 100 (2 * timesFound t t' i) := by
  have hle : timesFound t t' i ≤ (t.foundSince t').length := List.count_le_length
  unfold percentShown
  rw [h.ticks i hi.before, h'.ticks i hi.after, hi.same, Metered.foundSince_append hrun,
    List.count_append, Nat.add_comm]
  exact cpuPct_eq _ (lt_of_le_of_lt hle hshort)

/-- What the processes that stay have been found, in all. -/
theorem sum_timesFound (h' : t'.Inv) :
    ∑ i with Stays t t' i, timesFound t t' i = (t.foundSince t').countP fun n =>
      ∃ i ∈ Finset.univ.filter (Stays t t'), (t'.machine.kern.table i).serial = n := by
  apply sum_count
  intro i hi j hj heq
  exact h'.serials.distinct i j (Finset.mem_filter.mp hi).2.after (Finset.mem_filter.mp hj).2.after heq

/-- What the list shows when it has been refreshed at `t`, before. -/
theorem topList_eq (h : t.Inv) (h' : t'.Inv) (hrun : t.run as = some t')
    (hshort : (t.foundSince t').length < 2 ^ 31) :
    topList t'.machine.kern (fun i => (t.machine.kern.table i).ticksUsed) =
      (List.finRange maxProcesses).flatMap fun i =>
        if (t'.machine.kern.table i).inUse then
          topLine (t'.machine.kern.table i)
            (if Stays t t' i then min 100 (2 * timesFound t t' i) else percentShown t t' i)
        else [] := by
  unfold topList
  congr 1
  funext i
  by_cases hi : Stays t t' i
  · rw [if_pos hi, ← percentShown_eq h h' hrun hshort hi]
    rfl
  · rw [if_neg hi]
    rfl

theorem sum_percentShown_le (h : t.Inv) (h' : t'.Inv) (hrun : t.run as = some t')
    (hshort : (t.foundSince t').length < 2 ^ 31) :
    ∑ i with Stays t t' i, percentShown t t' i ≤ 2 * (t.foundSince t').length := by
  calc ∑ i with Stays t t' i, percentShown t t' i
      ≤ ∑ i with Stays t t' i, 2 * timesFound t t' i := by
        apply Finset.sum_le_sum
        intro i hi
        rw [percentShown_eq h h' hrun hshort (Finset.mem_filter.mp hi).2]
        omega
    _ = 2 * (t.foundSince t').countP _ := by rw [← Finset.mul_sum, sum_timesFound h']
    _ ≤ 2 * (t.foundSince t').length := Nat.mul_le_mul_left 2 List.countP_le_length

theorem sum_percentShown_eq (h : t.Inv) (h' : t'.Inv) (hrun : t.run as = some t')
    (hfew : (t.foundSince t').length ≤ 50)
    (hall : ∀ n ∈ t.foundSince t', ∃ i, Stays t t' i ∧ (t'.machine.kern.table i).serial = n) :
    ∑ i with Stays t t' i, percentShown t t' i = 2 * (t.foundSince t').length := by
  -- nobody is found more than 50 times, so that no percentage is cut
  have hexact : ∀ i ∈ Finset.univ.filter (Stays t t'),
      percentShown t t' i = 2 * timesFound t t' i := by
    intro i hi
    have hle : timesFound t t' i ≤ (t.foundSince t').length := List.count_le_length
    rw [percentShown_eq h h' hrun (by omega) (Finset.mem_filter.mp hi).2]
    omega
  rw [Finset.sum_congr rfl hexact, ← Finset.mul_sum, sum_timesFound h', List.countP_eq_length.mpr]
  intro n hn
  obtain ⟨i, hi, hserial⟩ := hall n hn
  apply decide_eq_true
  exact ⟨i, Finset.mem_filter.mpr ⟨Finset.mem_univ i, hi⟩, hserial⟩

/-- The percentages of the list.  A process that has been there at the last refresh has twice the number
of timer interrupts since then that have found it on the CPU, at most 100.  Together these are at most
twice the number of timer interrupts, and exactly that if there have been no more than 50 and each of
them has found one of these processes. -/
theorem top_percentages (h : (meteredSystem boot).Reach (fun t a => KeepsOwners t.machine a) t)
    (hrun : t.run as = some t') (hshort : (t.foundSince t').length < 2 ^ 31) :
    topList t'.machine.kern (fun i => (t.machine.kern.table i).ticksUsed) =
      ((List.finRange maxProcesses).flatMap fun i =>
        if (t'.machine.kern.table i).inUse then
          topLine (t'.machine.kern.table i)
            (if Stays t t' i then min 100 (2 * timesFound t t' i) else percentShown t t' i)
        else []) ∧
    ∑ i with Stays t t' i, percentShown t t' i ≤ 2 * (t.foundSince t').length ∧
    ((t.foundSince t').length ≤ 50 →
      (∀ n ∈ t.foundSince t', ∃ i, Stays t t' i ∧ (t'.machine.kern.table i).serial = n) →
      ∑ i with Stays t t' i, percentShown t t' i = 2 * (t.foundSince t').length) := by
  have hinv := Metered.Inv.reach h
  have hinv' := Metered.Inv.reach (h.foldlM hrun)
  exact ⟨topList_eq hinv hinv' hrun hshort, sum_percentShown_le hinv hinv' hrun hshort,
    sum_percentShown_eq hinv hinv' hrun⟩

end Refresh

/-- The shell creates a process and yields to it. -/
def untilRefresh : List Label := [.create 0 demoName 1, .yield]

/-- The timer finds the process twice, then the shell once. -/
def sinceRefresh : List Label := [.tick 1, .timer 2, .tick 3]

theorem sinceRefresh_run : (meterRun untilRefresh).any (fun t => (t.run sinceRefresh).any fun t' =>
    decide (t.foundSince t' = [1, 2, 2]) &&
      decide (∀ n ∈ t.foundSince t', ∃ i, Stays t t' i ∧ (t'.machine.kern.table i).serial = n)) = true := by
  decide +kernel

theorem top_percentages_three : ∃ t t', meterRun untilRefresh = some t ∧ t.run sinceRefresh = some t' ∧
    t.foundSince t' = [1, 2, 2] ∧ ∑ i with Stays t t' i, percentShown t t' i = 6 := by
  obtain ⟨t, hrun, hsince⟩ := (Option.any_eq_true _ _).mp sinceRefresh_run
  obtain ⟨t', hrun', hfound⟩ := (Option.any_eq_true _ _).mp hsince
  rw [Bool.and_eq_true, decide_eq_true_iff, decide_eq_true_iff] at hfound
  have hlength : (t.foundSince t').length = 3 := by rw [hfound.1]; rfl
  have hsum := (top_percentages (meterRun_reach hrun) hrun' (by omega)).2.2 (by omega) hfound.2
  rw [hlength] at hsum
  exact ⟨t, t', hrun, hrun', hfound.1, hsum⟩

end MyMisu
