import MyMisu.Process.Scheduler

/-!
# Distinct pids

A creation takes its pid from a counter of 32 bits that no call checks against the pids in use.
While the counter is below 2^31 and names nobody, pids stay distinct and the result of a creation
is the pid; behind that point both fail.
-/

namespace MyMisu

inductive PidOp
  | createKernel (tick : ℕ) (name : CStr) (fn : ℕ)
  | create (tick : ℕ) (name : CStr) (priority : ℕ)
  | terminate (pid : ℕ)
  | schedule
  | setScheduling (enabled : Bool)

/-- A call with its result, 0 where the function returns nothing. -/
def pidCall (k : Kernel) : PidOp → ℤ × Kernel
  | .createKernel tick name fn => processCreateKernel k tick name fn
  | .create tick name priority => processCreate k tick name priority
  | .terminate pid => processTerminate k pid
  | .schedule => (0, (schedule k).1)
  | .setScheduling enabled => (0, processSetSchedulingEnabled k enabled)

def pidExec (k : Kernel) (op : PidOp) : Kernel := (pidCall k op).2

def pidSystem : TransitionSystem Kernel PidOp :=
  .ofFun (fun k => ∃ pmm, k = processInit pmm) pidExec

/-- The call is a creation that fills a slot. -/
def PidOp.fills (k : Kernel) : PidOp → Prop
  | .createKernel _ _ _ => (findUnusedSlot k).isSome = true ∧ (pmmAllocPage k.pmm).1 ≠ 0
  | .create _ _ _ => (findUnusedSlot k).isSome = true
  | _ => False

/-- Pids in use are distinct, and 0 and 1 are those of the kernel and the shell. -/
structure PidsUnique (k : Kernel) : Prop where
  distinct : ∀ i j, (k.table i).inUse = true → (k.table j).inUse = true →
    (k.table i).pid = (k.table j).pid → i = j
  kernelSlot : findSlotByPid k 0 = some 0
  shellSlot : findSlotByPid k 1 = some 1

/-- The next pid is an `int` and is not in use. -/
def NextPidGood (k : Kernel) : Prop :=
  k.nextPid < 2 ^ 31 ∧ ∀ i, (k.table i).inUse = true → (k.table i).pid ≠ k.nextPid

/-- A creation that fills a slot finds a good next pid. -/
def CreatesGood (k : Kernel) (op : PidOp) : Prop := op.fills k → NextPidGood k

variable {k k' : Kernel}

/-! ## What the calls do -/

/-- A creation that fills a slot returns the next pid, and the other slots stay. -/
structure Fills (k : Kernel) (slot : Slot) (r : ℤ × Kernel) : Prop where
  unused : findUnusedSlot k = some slot
  result : r.1 = intOfU32 k.nextPid
  self : (r.2.table slot).inUse = true ∧ (r.2.table slot).pid = k.nextPid
  others : ∀ i, i ≠ slot → r.2.table i = k.table i
  nextPid : r.2.nextPid = wrap32 (k.nextPid + 1)

theorem processCreate_fills {slot : Slot} (hslot : findUnusedSlot k = some slot) (tick : ℕ)
    (name : CStr) (priority : ℕ) : Fills k slot (processCreate k tick name priority) := by
  unfold processCreate
  rw [hslot]
  refine ⟨hslot, rfl, ?_, fun i hi => Kernel.setProc_ne _ _ hi, rfl⟩
  show ((k.setProc slot _).table slot).inUse = true ∧ ((k.setProc slot _).table slot).pid = k.nextPid
  rw [Kernel.setProc_self]
  exact ⟨rfl, rfl⟩

theorem processCreateKernel_fills {slot : Slot} (hslot : findUnusedSlot k = some slot)
    (hstack : (pmmAllocPage k.pmm).1 ≠ 0) (tick : ℕ) (name : CStr) (fn : ℕ) :
    Fills k slot (processCreateKernel k tick name fn) := by
  unfold processCreateKernel
  rw [hslot]
  simp only [hstack, if_false]
  refine ⟨hslot, rfl, ?_, fun i hi => Kernel.setProc_ne _ _ hi, rfl⟩
  show ((k.setProc slot _).table slot).inUse = true ∧ ((k.setProc slot _).table slot).pid = k.nextPid
  rw [Kernel.setProc_self]
  exact ⟨rfl, rfl⟩

theorem PidOp.fills_spec {op : PidOp} (h : op.fills k) : ∃ slot, Fills k slot (pidCall k op) := by
  cases op with
  | createKernel tick name fn =>
    have ⟨slot, hslot⟩ := Option.isSome_iff_exists.mp h.1
    exact ⟨slot, processCreateKernel_fills hslot h.2 tick name fn⟩
  | create tick name priority =>
    have ⟨slot, hslot⟩ := Option.isSome_iff_exists.mp h
    exact ⟨slot, processCreate_fills hslot tick name priority⟩
  | terminate pid => exact h.elim
  | schedule => exact h.elim
  | setScheduling enabled => exact h.elim

/-- The processes in use had their pids before, and only pids above 1 are gone. -/
structure KeepsPids (k k' : Kernel) : Prop where
  inUse : ∀ i, (k'.table i).inUse = true → (k.table i).inUse = true ∧ (k'.table i).pid = (k.table i).pid
  kept : ∀ i, (k.table i).inUse = true → (k.table i).pid ≤ 1 → (k'.table i).inUse = true
  nextPid : k'.nextPid = k.nextPid

theorem KeepsPids.ofTable (htable : k'.table = k.table) (hnext : k'.nextPid = k.nextPid) :
    KeepsPids k k' where
  inUse i hi := by
    rw [htable] at hi ⊢
    exact ⟨hi, rfl⟩
  kept i hi _ := by rwa [htable]
  nextPid := hnext

theorem processTerminate_keepsPids (k : Kernel) (pid : ℕ) :
    KeepsPids k (processTerminate k pid).2 := by
  rcases processTerminate_spec k pid with h | ⟨slot, pmm, hslot, hpid, h⟩
  · rw [h]
    exact .ofTable rfl rfl
  · rw [h]
    have hfound := findSlotByPid_some hslot
    constructor
    · intro i hi
      have hne : i ≠ slot := Kernel.ne_of_inUse_setProc rfl hi
      show _ ∧ ((k.setProc slot _).table i).pid = _
      change ((k.setProc slot _).table i).inUse = true at hi
      rw [Kernel.setProc_ne _ _ hne] at hi ⊢
      exact ⟨hi, rfl⟩
    · intro i hi hle
      have hne : i ≠ slot := by
        intro his
        rw [his, hfound.2] at hle
        omega
      show ((k.setProc slot _).table i).inUse = true
      rwa [Kernel.setProc_ne _ _ hne]
    · rfl

theorem schedule_keepsPids (k : Kernel) : KeepsPids k (schedule k).1 := by
  rcases schedule_cases k with h | ⟨next, -, -, hne, h⟩
  · rw [h]
    exact .ofTable rfl rfl
  · rw [h]
    have howner := handOver_sameOwner k ⟨curSlot k, next⟩ hne
    constructor
    · intro i hi
      exact ⟨(howner i).used hi, (howner i).pid⟩
    · intro i hi _
      rwa [(howner i).inUse]
    · rfl

theorem pidExec_cases (k : Kernel) (op : PidOp) : op.fills k ∨ KeepsPids k (pidExec k op) := by
  cases op with
  | createKernel tick name fn =>
    by_cases hfill : PidOp.fills k (.createKernel tick name fn)
    · exact .inl hfill
    · right
      show KeepsPids k (processCreateKernel k tick name fn).2
      unfold processCreateKernel
      cases hslot : findUnusedSlot k with
      | none => exact .ofTable rfl rfl
      | some slot =>
        have hstack : (pmmAllocPage k.pmm).1 = 0 := by
          by_contra hne
          exact hfill ⟨by rw [hslot]; rfl, hne⟩
        simp only [hstack, if_true]
        exact .ofTable rfl rfl
  | create tick name priority =>
    cases hslot : findUnusedSlot k with
    | none =>
      right
      show KeepsPids k (processCreate k tick name priority).2
      unfold processCreate
      rw [hslot]
      exact .ofTable rfl rfl
    | some slot =>
      left
      show (findUnusedSlot k).isSome = true
      rw [hslot]
      rfl
  | terminate pid => exact .inr (processTerminate_keepsPids k pid)
  | schedule => exact .inr (schedule_keepsPids k)
  | setScheduling enabled => exact .inr (.ofTable rfl rfl)

/-! ## The invariant -/

/-- With distinct pids a lookup finds the entry that has the pid. -/
theorem findSlotByPid_of_distinct
    (hdistinct : ∀ i j, (k.table i).inUse = true → (k.table j).inUse = true →
      (k.table i).pid = (k.table j).pid → i = j)
    {i : Slot} {pid : ℕ} (hi : (k.table i).inUse = true ∧ (k.table i).pid = pid) :
    findSlotByPid k pid = some i := by
  have ⟨j, hj⟩ := Option.isSome_iff_exists.mp (findSlotByPid_isSome hi.1 hi.2)
  have hfound := findSlotByPid_some hj
  rw [hj, hdistinct j i hfound.1 hi.1 (hfound.2.trans hi.2.symm)]

namespace PidsUnique

theorem init (pmm : Pmm) : PidsUnique (processInit pmm) := by
  have hdistinct : ∀ i j, ((processInit pmm).table i).inUse = true →
      ((processInit pmm).table j).inUse = true →
      ((processInit pmm).table i).pid = ((processInit pmm).table j).pid → i = j := by
    intro i j hi hj heq
    rw [(processInit_booted hi).pid, (processInit_booted hj).pid] at heq
    exact Fin.ext heq
  exact ⟨hdistinct, findSlotByPid_of_distinct hdistinct ⟨rfl, rfl⟩,
    findSlotByPid_of_distinct hdistinct ⟨rfl, rfl⟩⟩

theorem keep (h : PidsUnique k) (hk : KeepsPids k k') : PidsUnique k' := by
  have hdistinct := Kernel.TellsApart.mono (f := Process.pid) h.distinct hk.inUse
  have hentry : ∀ {i pid}, pid ≤ 1 → findSlotByPid k pid = some i →
      (k'.table i).inUse = true ∧ (k'.table i).pid = pid := by
    intro i pid hle hfind
    have hfound := findSlotByPid_some hfind
    have huse := hk.kept i hfound.1 (by rw [hfound.2]; exact hle)
    exact ⟨huse, (hk.inUse i huse).2.trans hfound.2⟩
  exact ⟨hdistinct, findSlotByPid_of_distinct hdistinct (hentry zero_le_one h.kernelSlot),
    findSlotByPid_of_distinct hdistinct (hentry le_rfl h.shellSlot)⟩

theorem fill (h : PidsUnique k) {slot : Slot} {r : ℤ × Kernel} (hr : Fills k slot r)
    (hgood : NextPidGood k) : PidsUnique r.2 := by
  have hdistinct : ∀ i j, (r.2.table i).inUse = true → (r.2.table j).inUse = true →
      (r.2.table i).pid = (r.2.table j).pid → i = j := by
    intro i j hi hj heq
    by_cases his : i = slot
    · by_cases hjs : j = slot
      · rw [his, hjs]
      · rw [hr.others j hjs] at hj heq
        rw [his, hr.self.2] at heq
        exact absurd heq.symm (hgood.2 j hj)
    · rw [hr.others i his] at hi heq
      by_cases hjs : j = slot
      · rw [hjs, hr.self.2] at heq
        exact absurd heq (hgood.2 i hi)
      · rw [hr.others j hjs] at hj heq
        exact h.distinct i j hi hj heq
  have hentry : ∀ {i pid}, findSlotByPid k pid = some i →
      (r.2.table i).inUse = true ∧ (r.2.table i).pid = pid := by
    intro i pid hfind
    have hfound := findSlotByPid_some hfind
    rw [hr.others i (ne_of_findUnusedSlot hr.unused hfound.1)]
    exact hfound
  exact ⟨hdistinct, findSlotByPid_of_distinct hdistinct (hentry h.kernelSlot),
    findSlotByPid_of_distinct hdistinct (hentry h.shellSlot)⟩

end PidsUnique

theorem intOfU32_nonneg_iff {n : ℕ} (h : n < 2 ^ 32) : 0 ≤ intOfU32 n ↔ n < 2 ^ 31 := by
  unfold intOfU32
  rw [Nat.mod_eq_of_lt h]
  split <;> omega

/-- Over one creation, the condition is exact. -/
theorem creation_good_iff (h : PidsUnique k) (hnext : k.nextPid < 2 ^ 32) {op : PidOp}
    (hop : op.fills k) :
    (PidsUnique (pidExec k op) ∧ 0 ≤ (pidCall k op).1) ↔ NextPidGood k := by
  have ⟨slot, hr⟩ := PidOp.fills_spec hop
  constructor
  · intro ⟨hunique, hnonneg⟩
    rw [hr.result, intOfU32_nonneg_iff hnext] at hnonneg
    refine ⟨hnonneg, fun i hi hpid => ?_⟩
    -- the old holder of the pid is in another slot than the new one
    have hne := ne_of_findUnusedSlot hr.unused hi
    have hi' : ((pidExec k op).table i).inUse = true ∧ ((pidExec k op).table i).pid = k.nextPid := by
      show ((pidCall k op).2.table i).inUse = true ∧ _
      rw [pidExec, hr.others i hne]
      exact ⟨hi, hpid⟩
    exact hne (hunique.distinct i slot hi'.1 hr.self.1 (hi'.2.trans hr.self.2.symm))
  · intro hgood
    refine ⟨h.fill hr hgood, ?_⟩
    rw [hr.result, intOfU32_nonneg_iff hnext]
    exact hgood.1

theorem pidSystem_inv (h : pidSystem.Reach CreatesGood k) : PidsUnique k ∧ k.nextPid < 2 ^ 32 := by
  refine h.invariant (I := fun k => PidsUnique k ∧ k.nextPid < 2 ^ 32) (fun k hk => ?_)
    (fun k op k' _ ⟨hunique, hnext⟩ hgood hstep => ?_)
  · have ⟨pmm, hk⟩ : ∃ pmm, k = processInit pmm := hk
    rw [hk]
    refine ⟨.init pmm, ?_⟩
    show 2 < 2 ^ 32
    decide
  · have hstep : k' = pidExec k op := hstep
    rw [hstep]
    by_cases hop : op.fills k
    · have ⟨slot, hr⟩ := PidOp.fills_spec hop
      refine ⟨hunique.fill hr (hgood hop), ?_⟩
      show (pidCall k op).2.nextPid < 2 ^ 32
      rw [hr.nextPid]
      exact Nat.mod_lt _ (by decide)
    · have hkeep := (pidExec_cases k op).resolve_left hop
      refine ⟨hunique.keep hkeep, ?_⟩
      rwa [hkeep.nextPid]

/-- In a run whose creations find a good next pid, pids are unique in every state reached; and from
there a creation keeps them so and returns a non-negative pid exactly when it finds one too. -/
theorem pids_unique_while_counter_good (k : Kernel) (h : pidSystem.Reach CreatesGood k) :
    PidsUnique k ∧ ∀ op : PidOp, op.fills k →
      ((PidsUnique (pidExec k op) ∧ 0 ≤ (pidCall k op).1) ↔ NextPidGood k) := by
  have ⟨hunique, hnext⟩ := pidSystem_inv h
  exact ⟨hunique, fun op hop => creation_good_iff hunique hnext hop⟩

/-- One creation after `process_init`. -/
theorem pids_unique_one_created : PidsUnique (pidExec (processInit fourPages) (.create 0 demoName 1)) := by
  have hgood : NextPidGood (processInit fourPages) := by
    refine ⟨show 2 < 2 ^ 31 by decide, fun i hi hpid => ?_⟩
    have hbooted := processInit_booted hi
    have hle := hbooted.slot
    rw [hbooted.pid] at hpid
    have hpid : i.val = 2 := hpid
    omega
  exact (pids_unique_while_counter_good _
    (.step (.init ⟨fourPages, rfl⟩) (fun _ => hgood) rfl)).1

/-! ## Where the counter leads -/

theorem processTerminate_table {slot : Slot} {pid : ℕ} (hfind : findSlotByPid k pid = some slot)
    (hpid : 1 < pid) :
    (processTerminate k pid).2.table = Function.update k.table slot (k.table slot).terminated := by
  unfold processTerminate
  rw [hfind]
  simp only [if_neg (not_le.mpr hpid)]
  rfl

/-- Only the kernel and the shell are in use, and `n` is the next pid. -/
structure OnlyBooted (k : Kernel) (n : ℕ) : Prop where
  kernelProc : (k.table 0).inUse = true ∧ (k.table 0).pid = 0
  shellProc : (k.table 1).inUse = true ∧ (k.table 1).pid = 1
  others : ∀ i, i ≠ 0 → i ≠ 1 → (k.table i).inUse = false
  nextPid : k.nextPid = n

namespace OnlyBooted

variable {n : ℕ}

theorem init (pmm : Pmm) : OnlyBooted (processInit pmm) 2 := by
  refine ⟨⟨rfl, rfl⟩, ⟨rfl, rfl⟩, fun i h0 h1 => ?_, rfl⟩
  show (if i = 0 then _ else if i = 1 then _ else Process.zero).inUse = false
  rw [if_neg h0, if_neg h1]
  rfl

theorem unused (h : OnlyBooted k n) : ∃ slot, findUnusedSlot k = some slot ∧ slot ≠ 0 ∧ slot ≠ 1 := by
  have hsome : (findUnusedSlot k).isSome = true := by
    apply Fin.isSome_find?_of_eq_true (i := 2)
    rw [h.others 2 (by decide) (by decide)]
    rfl
  have ⟨slot, hslot⟩ := Option.isSome_iff_exists.mp hsome
  exact ⟨slot, hslot, (ne_of_findUnusedSlot hslot h.kernelProc.1).symm,
    (ne_of_findUnusedSlot hslot h.shellProc.1).symm⟩

theorem not_pid (h : OnlyBooted k n) (hn : 1 < n) (i : Slot) :
    ¬ ((k.table i).inUse = true ∧ (k.table i).pid = n) := by
  rintro ⟨hi, hpid⟩
  by_cases h0 : i = 0
  · rw [h0, h.kernelProc.2] at hpid
    omega
  · by_cases h1 : i = 1
    · rw [h1, h.shellProc.2] at hpid
      omega
    · rw [h.others i h0 h1] at hi
      cases hi

/-- The process created is found by its pid. -/
theorem find_created (h : OnlyBooted k n) (hn : 1 < n) {slot : Slot} {r : ℤ × Kernel}
    (hr : Fills k slot r) : findSlotByPid r.2 n = some slot := by
  have hself := hr.self
  rw [h.nextPid] at hself
  have ⟨i, hi⟩ := Option.isSome_iff_exists.mp (findSlotByPid_isSome hself.1 hself.2)
  have hfound := findSlotByPid_some hi
  have his : i = slot := by
    by_contra hne
    rw [hr.others i hne] at hfound
    exact h.not_pid hn i hfound
  rw [hi, his]

/-- A process created and terminated leaves nothing but the counter one up. -/
theorem round (h : OnlyBooted k n) (hn : 1 < n) :
    OnlyBooted (pidExec (pidExec k (.create 0 demoName 1)) (.terminate n)) (wrap32 (n + 1)) := by
  have ⟨slot, hslot, hzero, hone⟩ := h.unused
  have hr := processCreate_fills hslot 0 demoName 1
  have hend : (processTerminate (processCreate k 0 demoName 1).2 n).2.table =
      Function.update (processCreate k 0 demoName 1).2.table slot
        ((processCreate k 0 demoName 1).2.table slot).terminated :=
    processTerminate_table (h.find_created hn hr) hn
  have hkept : ∀ i, i ≠ slot →
      (processTerminate (processCreate k 0 demoName 1).2 n).2.table i = k.table i := by
    intro i hi
    rw [hend, Function.update_of_ne hi, hr.others i hi]
  show OnlyBooted (processTerminate (processCreate k 0 demoName 1).2 n).2 _
  constructor
  · rw [hkept 0 hzero.symm]
    exact h.kernelProc
  · rw [hkept 1 hone.symm]
    exact h.shellProc
  · intro i h0 h1
    by_cases his : i = slot
    · rw [hend, his, Function.update_self]
      rfl
    · rw [hkept i his]
      exact h.others i h0 h1
  · rw [(processTerminate_keepsPids _ n).nextPid, hr.nextPid, h.nextPid]

theorem reachable (hlow : 2 ≤ n) : n < 2 ^ 32 → ∃ k, pidSystem.Reachable k ∧ OnlyBooted k n := by
  -- on the rounds made
  induction n, hlow using Nat.le_induction with
  | base => exact fun _ => ⟨processInit fourPages, .init ⟨fourPages, rfl⟩, .init fourPages⟩
  | succ n hle ih =>
    intro hlt
    have ⟨k, hk, hbooted⟩ := ih (by omega)
    have hround := hbooted.round (by omega)
    rw [wrap32_of_lt hlt] at hround
    exact ⟨_, (hk.next rfl).next rfl, hround⟩

end OnlyBooted

/-- After 2^31 - 2 creations the next one returns a negative number, and after 2^32 - 2 a process
gets the pid of the kernel. -/
theorem pid_counter_wraps :
    (∃ k, pidSystem.Reachable k ∧ ∃ op, PidOp.fills k op ∧ (pidCall k op).1 < 0) ∧
      ∃ k, pidSystem.Reachable k ∧ ¬ PidsUnique k := by
  constructor
  · have ⟨k, hk, hbooted⟩ := OnlyBooted.reachable (n := 2 ^ 31) (by decide) (by decide)
    have ⟨slot, hslot, _⟩ := hbooted.unused
    refine ⟨k, hk, .create 0 demoName 1, Option.isSome_iff_exists.mpr ⟨slot, hslot⟩, ?_⟩
    show (processCreate k 0 demoName 1).1 < 0
    rw [(processCreate_fills hslot 0 demoName 1).result, hbooted.nextPid]
    decide
  · have ⟨k, hk, hbooted⟩ := OnlyBooted.reachable (n := 2 ^ 32 - 1) (by decide) (by decide)
    have hround := hbooted.round (by decide)
    have hwrap : wrap32 (2 ^ 32 - 1 + 1) = 0 := by decide
    rw [hwrap] at hround
    have hk' : pidSystem.Reachable (pidExec (pidExec k (.create 0 demoName 1))
        (.terminate (2 ^ 32 - 1))) := (hk.next rfl).next rfl
    generalize pidExec (pidExec k (.create 0 demoName 1)) (.terminate (2 ^ 32 - 1)) = k' at hround hk'
    have ⟨slot, hslot, hzero, _⟩ := hround.unused
    have hr := processCreate_fills hslot 0 demoName 1
    refine ⟨pidExec k' (.create 0 demoName 1), hk'.next rfl, fun hunique => ?_⟩
    have hkernel := findSlotByPid_some hunique.kernelSlot
    have hself := hr.self
    rw [hround.nextPid] at hself
    exact hzero (hunique.distinct slot 0 hself.1 hkernel.1 (hself.2.trans hkernel.2.symm))

end MyMisu
