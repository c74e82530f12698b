import MyMisu.Process.Fairness
import MyMisu.Process.Interleaving
import MyMisu.Process.StackLedger

/-!
# The publication of a new process

`process_create_kernel`, statement by statement.  It stores `in_use` before the initial frame is built
and its address stored in `saved_esp`; in between the new process counts as ready, with the stack
pointer of the process that had the slot before.
-/

namespace MyMisu

/-! ## The statements -/

/-- The arguments of `process_create_kernel`. -/
structure NewTask where
  name : CStr
  fn : ℕ

/-- The stores of `process_create_kernel`, in their order. -/
inductive FillAt
  /-- `proc_table[slot].pid = next_pid++;` -/
  | pid
  /-- `strncpy(proc_table[slot].name, name, PROC_NAME_LEN - 1);` -/
  | name
  /-- `proc_table[slot].name[PROC_NAME_LEN - 1] = '\0';` -/
  | nameEnd
  | state
  | priority
  | ticksUsed
  | createdTick
  | wakeTick
  | kstack
  | entry
  | inUse
  /-- `uint32_t* sp = (uint32_t*)(stack + KSTACK_SIZE);` -/
  | sp
  /-- `*(--sp) = (uint32_t)process_entry_wrapper;` -/
  | ret
  /-- One turn of the loop that zeroes the registers. -/
  | reg (i : ℕ)
  /-- `proc_table[slot].saved_esp = (uint32_t)sp;` -/
  | savedEsp
  /-- `klog(KLOG_INFO, "process spawned");` -/
  | log
  deriving DecidableEq

/-- The statements of `process_create_kernel`, each with the locals that are used from it on. -/
inductive CreateAt
  /-- One turn of the search for an unused entry. -/
  | scan (i : ℕ)
  /-- `if (slot < 0) return -1;` -/
  | found (slot : Option Slot)
  /-- `uint32_t stack = pmm_alloc_page();` -/
  | alloc (slot : Slot)
  /-- `if (!stack) return -1;` -/
  | test (slot : Slot) (stack : ℕ)
  | fill (slot : Slot) (stack : ℕ) (p : FillAt)
  deriving DecidableEq

/-- What a store makes of the entry; the frame on the stack is `entryFrame`. -/
def FillAt.store (k : Kernel) (tick : ℕ) (t : NewTask) (stack : ℕ) (p : Process) : FillAt → Process
  | .pid => { p with serial := k.created, pid := k.nextPid }
  | .name =>
    { p with
      name :=
        { bytes := strncpy p.name.bytes t.name.bytes (fsMaxName - 1)
          size := by rw [strncpy_length, p.name.size] } }
  | .nameEnd =>
    { p with
      name :=
        { bytes := p.name.bytes.set (fsMaxName - 1) 0
          size := by rw [List.length_set, p.name.size] } }
  | .state => { p with state := .ready }
  | .priority => { p with priority := 1 }
  | .ticksUsed => { p with ticksUsed := 0 }
  | .createdTick => { p with createdTick := tick }
  | .wakeTick => { p with wakeTick := 0 }
  | .kstack => { p with kstack := stack }
  | .entry => { p with entry := t.fn }
  | .inUse => { p with inUse := true }
  | .savedEsp => { p with savedEsp := some (entryFrame p.serial stack) }
  | .sp | .ret | .reg _ | .log => p

/-- The store that comes next. -/
def FillAt.next : FillAt → Option FillAt
  | .pid => some .name
  | .name => some .nameEnd
  | .nameEnd => some .state
  | .state => some .priority
  | .priority => some .ticksUsed
  | .ticksUsed => some .createdTick
  | .createdTick => some .wakeTick
  | .wakeTick => some .kstack
  | .kstack => some .entry
  | .entry => some .inUse
  | .inUse => some .sp
  | .sp => some .ret
  | .ret => some (.reg 0)
  | .reg i => if i < 8 then some (.reg (i + 1)) else some .savedEsp
  | .savedEsp => some .log
  | .log => none

/-- The counters change with the store of the pid. -/
def FillAt.count (k : Kernel) : FillAt → Kernel
  | .pid => { k with nextPid := wrap32 (k.nextPid + 1), created := k.created + 1 }
  | _ => k

/-- A statement, with the one that comes next. -/
def createStmt (k : Kernel) (tick : ℕ) (t : NewTask) : CreateAt → Kernel × Option CreateAt
  | .scan i =>
    if h : i < maxProcesses then
      if (k.table ⟨i, h⟩).inUse = false then (k, some (.found (some ⟨i, h⟩)))
      else (k, some (.scan (i + 1)))
    else (k, some (.found none))
  | .found slot => (k, slot.map .alloc)
  | .alloc slot =>
    ({ k with pmm := (pmmAllocPage k.pmm).2 }, some (.test slot (pmmAllocPage k.pmm).1))
  | .test slot stack => (k, if stack = 0 then none else some (.fill slot stack .pid))
  | .fill slot stack p =>
    (p.count (k.setProc slot (p.store k tick t stack (k.table slot))),
      p.next.map (.fill slot stack))

/-! ## Without interrupts -/

-- the scan of the bitmap stays folded when tables are compared
attribute [local irreducible] pmmAllocPage Bitmap.firstClear

/-- The statements of a creation with no interrupt between them. -/
def CreateRuns (tick : ℕ) (t : NewTask) :
    Kernel × Option CreateAt → Kernel × Option CreateAt → Prop :=
  Relation.ReflTransGen fun x y => ∃ p, x.2 = some p ∧ createStmt x.1 tick t p = y

namespace CreateRuns

variable {tick : ℕ} {t : NewTask} {k k' : Kernel} {p : CreateAt} {q : Option CreateAt}
  {z : Kernel × Option CreateAt} {slot : Slot} {stack : ℕ}

theorem head (hstep : createStmt k tick t p = (k', q)) (h : CreateRuns tick t (k', q) z) :
    CreateRuns tick t (k, some p) z :=
  Relation.ReflTransGen.head ⟨p, rfl, hstep⟩ h

theorem refl : CreateRuns tick t z z := Relation.ReflTransGen.refl

/-- The loop finds the first unused entry. -/
theorem scan {i n : ℕ} (hn : i + n = maxProcesses)
    (hused : ∀ j : Slot, j.val < i → (k.table j).inUse = true) :
    CreateRuns tick t (k, some (.scan i)) (k, some (.found (findUnusedSlot k))) := by
  induction n generalizing i with
  | zero =>
    -- n is the number of entries the loop has still to look at
    have hend : ¬ i < maxProcesses := by omega
    have hnone : findUnusedSlot k = none := by
      apply Fin.find?_eq_none_iff.mpr
      intro j
      have hj := j.isLt
      rw [hused j (by omega)]
      rfl
    rw [hnone]
    apply head _ refl
    unfold createStmt
    simp only [hend, dif_neg, not_false_eq_true]
  | succ n ih =>
    have hlt : i < maxProcesses := by omega
    by_cases hunused : (k.table ⟨i, hlt⟩).inUse = false
    · have hfirst : findUnusedSlot k = some ⟨i, hlt⟩ := by
        apply Fin.find?_eq_some_iff.mpr
        refine ⟨by rw [hunused]; rfl, fun j hj => ?_⟩
        rw [hused j hj]
        rfl
      rw [hfirst]
      apply head _ refl
      unfold createStmt
      simp only [hlt, hunused, dif_pos, if_true]
    · have huse := eq_true_of_ne_false hunused
      refine head ?_ (ih (i := i + 1) (by omega) fun j hj => ?_)
      · unfold createStmt
        simp only [hlt, huse, dif_pos, Bool.true_eq_false, if_false]
      · by_cases hji : j.val = i
        · rw [show j = ⟨i, hlt⟩ from Fin.ext hji]
          exact huse
        · exact hused j (by omega)

/-- A store into an entry of which others have been stored before. -/
theorem fill {e : Process} {f : FillAt} (hf : f ≠ .pid)
    (h : CreateRuns tick t
      (k.setProc slot (f.store k tick t stack e), f.next.map (.fill slot stack)) z) :
    CreateRuns tick t (k.setProc slot e, some (.fill slot stack f)) z := by
  have hstep : createStmt (k.setProc slot e) tick t (.fill slot stack f) =
      (k.setProc slot (f.store k tick t stack e), f.next.map (.fill slot stack)) := by
    -- only the store of the pid reads next_pid and counts it up
    have hcount (k : Kernel) : f.count k = k := by
      cases f with
      | pid => exact absurd rfl hf
      | _ => rfl
    have hstore : f.store (k.setProc slot e) tick t stack e = f.store k tick t stack e := by
      cases f with
      | pid => exact absurd rfl hf
      | _ => rfl
    unfold createStmt
    simp only [hcount, Kernel.setProc_self, hstore]
    show ({ k with table := Function.update (Function.update k.table slot e) slot _ }, _) = _
    rw [Function.update_idem]
    rfl
  exact head hstep h

/-- The loop that zeroes the registers leaves the entry alone. -/
theorem registers {e : Process} {i n : ℕ} (hn : i + n = 8)
    (h : CreateRuns tick t (k.setProc slot e, some (.fill slot stack .savedEsp)) z) :
    CreateRuns tick t (k.setProc slot e, some (.fill slot stack (.reg i))) z := by
  induction n generalizing i with
  | zero =>
    have hi : ¬ i < 8 := by omega
    apply fill FillAt.noConfusion
    simp only [FillAt.next, hi, if_false]
    exact h
  | succ n ih =>
    have hi : i < 8 := by omega
    apply fill FillAt.noConfusion
    simp only [FillAt.next, hi, if_true]
    exact ih (by omega)

/-- The stores fill in the entry as `newProcess` does. -/
theorem stores (k : Kernel) (tick : ℕ) (t : NewTask) (slot : Slot) (stack : ℕ) :
    CreateRuns tick t (k, some (.fill slot stack .pid))
      ({ k.setProc slot (newProcess k (k.table slot).name tick t.name t.fn stack) with
          nextPid := wrap32 (k.nextPid + 1)
          created := k.created + 1 }, none) := by
  let k₁ : Kernel := { k with nextPid := wrap32 (k.nextPid + 1), created := k.created + 1 }
  have hfill (e : Process) (f : FillAt) (hf : f ≠ .pid) {z : Kernel × Option CreateAt}
      (h : CreateRuns tick t
        (k₁.setProc slot (f.store k₁ tick t stack e), f.next.map (.fill slot stack)) z) :
      CreateRuns tick t (k₁.setProc slot e, some (.fill slot stack f)) z := fill hf h
  apply head rfl
  apply hfill _ .name (by decide)
  apply hfill _ .nameEnd (by decide)
  apply hfill _ .state (by decide)
  apply hfill _ .priority (by decide)
  apply hfill _ .ticksUsed (by decide)
  apply hfill _ .createdTick (by decide)
  apply hfill _ .wakeTick (by decide)
  apply hfill _ .kstack (by decide)
  apply hfill _ .entry (by decide)
  apply hfill _ .inUse (by decide)
  apply hfill _ .sp (by decide)
  apply hfill _ .ret (by decide)
  apply registers (n := 8) (by rfl)
  apply hfill _ .savedEsp (by decide)
  apply hfill _ .log (by decide)
  exact refl

/-- The statements of `process_create_kernel` come to `processCreateKernel`. -/
theorem create (k : Kernel) (tick : ℕ) (t : NewTask) :
    CreateRuns tick t (k, some (.scan 0)) ((processCreateKernel k tick t.name t.fn).2, none) := by
  apply Relation.ReflTransGen.trans (scan (n := maxProcesses) (by rfl) fun j hj => by omega)
  unfold processCreateKernel
  cases hslot : findUnusedSlot k with
  | none => exact head rfl refl
  | some slot =>
    apply head rfl
    apply head rfl
    by_cases hstack : (pmmAllocPage k.pmm).1 = 0
    · simp only [hstack, if_true]
      exact head rfl refl
    · have htest : createStmt { k with pmm := (pmmAllocPage k.pmm).2 } tick t
          (.test slot (pmmAllocPage k.pmm).1) =
            ({ k with pmm := (pmmAllocPage k.pmm).2 },
              some (.fill slot (pmmAllocPage k.pmm).1 .pid)) := by
        simp only [createStmt, hstack, if_false]
      simp only [hstack, if_false]
      exact head htest (stores _ tick t slot _)

end CreateRuns

/-! ## Runs -/

/-- The creation is run statement by statement, the other processes make whole calls. -/
inductive CreateLabel
  /-- The next statement of the creation. -/
  | next
  /-- The timer interrupt. -/
  | timer
  /-- A whole call of `process_yield`. -/
  | yield
  /-- A whole call of `process_sleep`. -/
  | sleep (ticks : ℕ)

namespace Interleaved

def createExec (t : NewTask) (s : Interleaved CreateAt) (a : CreateLabel) :
    Option (Interleaved CreateAt) :=
  match s.machine.cpu with
  | none => none
  | some c =>
    match a with
    | .next =>
      s.code.map fun p =>
        { s with
          machine := { s.machine with kern := (createStmt s.machine.kern s.tick t p).1 }
          code := (createStmt s.machine.kern s.tick t p).2 }
    | .timer => if c.flag = true then some (s.timer c) else none
    | .yield => if s.code = none then some (s.call c (processYield s.machine.kern)) else none
    | .sleep ticks =>
      if s.code = none ∧ c.ctx.returned = false then
        some (s.call c (processSleep s.machine.kern s.tick ticks))
      else none

/-- Without interrupts the creation is one step of the machine. -/
theorem create_runsTo {s : Interleaved CreateAt} {c : Cpu} (t : NewTask)
    (hcpu : s.machine.cpu = some c) (hcode : s.code = some (.scan 0))
    (hreturned : c.ctx.returned = false) :
    ∃ s', Relation.ReflTransGen (fun s s' => s.createExec t .next = some s') s s' ∧
      s'.code = none ∧ s.machine.exec (.create s.tick t.name t.fn) = some s'.machine := by
  have hlift (x : Kernel × Option CreateAt)
      (h : CreateRuns s.tick t (s.machine.kern, s.code) x) :
      Relation.ReflTransGen (fun s s' => s.createExec t .next = some s') s
        { s with machine := { s.machine with kern := x.1 }, code := x.2 } := by
    induction h with
    | refl => exact .refl
    | tail _ hlast ih =>
      have ⟨p, hp, hstep⟩ := hlast
      apply Relation.ReflTransGen.tail ih
      unfold createExec
      simp only [hcpu, hp, hstep, Option.map_some]
  have hcreate := CreateRuns.create s.machine.kern s.tick t
  rw [← hcode] at hcreate
  refine ⟨_, hlift _ hcreate, rfl, ?_⟩
  unfold Machine.exec
  simp only [hcpu, hreturned, Bool.false_eq_true, if_false]

/-- The shell in front of the search for an unused entry. -/
def creatingFirst : Interleaved CreateAt :=
  { (Machine.start fourPages).interleaved 0 0 with code := some (.scan 0) }

theorem create_runsTo_first :
    ∃ s', Relation.ReflTransGen (fun s s' => s.createExec ⟨demoName, 1⟩ .next = some s') creatingFirst s' ∧
      s'.code = none ∧ creatingFirst.machine.exec (.create 0 demoName 1) = some s'.machine :=
  create_runsTo ⟨demoName, 1⟩ (s := creatingFirst) rfl rfl rfl

/-- The table on which the step calls `schedule`. -/
def schedules (s : Interleaved CreateAt) : CreateLabel → Option Kernel
  | .next => none
  | .timer => s.timerSchedules
  | .yield => scheduledIn s.machine.kern .yield
  | .sleep ticks => scheduledIn s.machine.kern (.sleep s.tick ticks)

end Interleaved

/-- The shell is about to call `process_create_kernel`, on any table, with interrupts enabled. -/
structure CreationStarts (s : Interleaved CreateAt) : Prop where
  cpu : s.machine.cpu.map Cpu.flag = some true
  code : s.code = some (.scan 0)
  parked : ∀ i, s.parked i = none

def creationSystem (t : NewTask) : TransitionSystem (Interleaved CreateAt) CreateLabel :=
  .ofPartial CreationStarts (Interleaved.createExec t)

/-! ## The new slot -/

/-- The slot a creation has chosen and not yet stored `in_use` of. -/
def hiddenSlot : CreateAt → Option Slot
  | .found slot => slot
  | .alloc slot | .test slot _ => some slot
  | .fill slot _ p =>
    match p with
    | .pid | .name | .nameEnd | .state | .priority | .ticksUsed | .createdTick | .wakeTick | .kstack
    | .entry | .inUse => some slot
    | .sp | .ret | .reg _ | .savedEsp | .log => none
  | .scan _ => none

/-- The slot that is in use while its frame is being built. -/
def exposedSlot : CreateAt → Option Slot
  | .fill slot _ p =>
    match p with
    | .sp | .ret | .reg _ | .savedEsp => some slot
    | _ => none
  | _ => none

namespace Interleaved

/-- The creation, on the CPU or switched out, is at the position. -/
def At (s : Interleaved CreateAt) (p : CreateAt) : Prop := s.code = some p ∨ ∃ i, s.parked i = some p

/-- The slot is chosen, and the initial frame is not yet stored in its `saved_esp`. -/
def Unbuilt (s : Interleaved CreateAt) (slot : Slot) : Prop :=
  ∃ p, s.At p ∧ (hiddenSlot p = some slot ∨ exposedSlot p = some slot)

/-- `schedule` does not select the new slot before its frame is stored. -/
def Publishes (s : Interleaved CreateAt) (a : CreateLabel) : Prop :=
  ∀ k, s.schedules a = some k → k.schedulingEnabled = true →
    ∀ slot, s.Unbuilt slot → nextReady k (curSlot k) ≠ some slot

/-- Between the stores of `in_use` and of `saved_esp`, `schedule` finds another ready process in front
of the new one in the round-robin order. -/
def Shielded (s : Interleaved CreateAt) (a : CreateLabel) : Prop :=
  ∀ k, s.schedules a = some k → k.schedulingEnabled = true →
    ∀ p slot, s.At p → exposedSlot p = some slot → isReady k slot = true →
      ∃ i, isReady k i = true ∧
        RoundRobin.gap (curSlot k) i < RoundRobin.gap (curSlot k) slot

end Interleaved

/-! ## What the steps keep -/

variable {k k' : Kernel} {t : NewTask} {slot : Slot}

/-- Unused entries stay unused. -/
def KeepsUnused (k k' : Kernel) : Prop :=
  ∀ i, (k.table i).inUse = false → (k'.table i).inUse = false

theorem KeepsUnused.of_owner (h : ∀ i, (k.table i).SameOwner (k'.table i)) : KeepsUnused k k' :=
  fun i hi => (h i).inUse.trans hi

theorem KeepsUnused.of_keeps (h : k.Keeps k') : KeepsUnused k k' := by
  intro i hi
  by_contra hne
  have huse := h.inUse (eq_true_of_ne_false hne)
  rw [hi] at huse
  cases huse

theorem KeepsUnused.trans {k'' : Kernel} (h : KeepsUnused k k') (h' : KeepsUnused k' k'') :
    KeepsUnused k k'' := fun i hi => h' i (h i hi)

theorem KeepsUnused.contextSwitch (log : List SwitchEvent) (k : Kernel) (c : Cpu) (sw : Switch)
    (how : Resume) : KeepsUnused k (contextSwitch log k c sw how).kern := by
  have hsave (sv : Saved) : KeepsUnused k (k.saveAt sw.cur sv) :=
    by
      intro i hi
      unfold Kernel.saveAt
      -- the save touches saved_esp of the entry switched from, and nothing of the others
      by_cases hcur : i = sw.cur
      · rw [hcur] at hi
        rw [hcur, Kernel.setProc_self]
        exact hi
      · rw [Kernel.setProc_ne _ _ hcur]
        exact hi
  unfold MyMisu.contextSwitch
  cases (k.table sw.next).savedEsp with
  | none => exact hsave _
  | some sv => exact (hsave ⟨c.ctx, how⟩).trans (.of_keeps (load_keeps sv _ c.flag))

/-- A store other than that of `in_use` leaves `in_use` alone. -/
theorem FillAt.store_inUse {tick stack : ℕ} {p : Process} {q : FillAt} (hq : q ≠ .inUse) :
    (q.store k tick t stack p).inUse = p.inUse := by
  cases q with
  | inUse => exact absurd rfl hq
  | _ => rfl

theorem FillAt.count_table (q : FillAt) (k : Kernel) : (q.count k).table = k.table := by
  cases q <;> rfl

/-- What is hidden after a store was hidden before it, and the store is not that of `in_use`: the stores
come in one order. -/
theorem FillAt.hidden_next {tick stack : ℕ} {chosen : Slot} {f : FillAt} {q : CreateAt}
    (hq : (createStmt k tick t (.fill chosen stack f)).2 = some q) (hslot : hiddenSlot q = some slot) :
    f ≠ .inUse ∧ hiddenSlot (.fill chosen stack f) = some chosen ∧ slot = chosen := by
  have hf : f ≠ .inUse := by
    intro hf
    -- after the store of in_use comes the frame, and there the slot is not hidden any more
    rw [hf] at hq
    cases hq
    cases hslot
  refine ⟨hf, ?_⟩
  have ⟨f', hf', hfill⟩ := Option.map_eq_some_iff.mp hq
  rw [← hfill] at hslot
  cases f with
  | inUse => exact absurd rfl hf
  | reg i =>
    simp only [FillAt.next] at hf'
    split at hf' <;> cases hf' <;> cases hslot
  | _ => cases hf' <;> cases hslot <;> exact ⟨rfl, rfl⟩

/-- The slot of the creation stays unused up to the store of `in_use`. -/
theorem createStmt_hidden {tick : ℕ} {p q : CreateAt}
    (h : ∀ slot, hiddenSlot p = some slot → (k.table slot).inUse = false)
    (hq : (createStmt k tick t p).2 = some q) (hslot : hiddenSlot q = some slot) :
    ((createStmt k tick t p).1.table slot).inUse = false := by
  cases p with
  | scan i =>
    unfold createStmt at hq ⊢
    simp only at hq ⊢
    split at hq
    · split at hq
      -- the only step that picks a slot, and it has just read in_use as 0
      · next hi hunused =>
        cases hq
        cases hslot
        rw [dif_pos hi, if_pos hunused]
        exact hunused
      · cases hq
        cases hslot
    · cases hq
      cases hslot
  | found chosen =>
    cases chosen with
    | none => cases hq
    | some chosen =>
      cases hq
      exact h slot hslot
  | alloc chosen =>
    cases hq
    exact h slot hslot
  | test chosen stack =>
    -- if (!stack) return -1: the slot is left as it was found
    change (if stack = 0 then none else some (CreateAt.fill chosen stack .pid)) = some q at hq
    split at hq
    · cases hq
    · cases hq
      exact h slot hslot
  | fill chosen stack f =>
    have ⟨hf, hnow, hsame⟩ := FillAt.hidden_next hq hslot
    show ((f.count (k.setProc chosen (f.store k tick t stack (k.table chosen)))).table slot).inUse = _
    rw [FillAt.count_table, hsame, Kernel.setProc_self, FillAt.store_inUse hf]
    exact h chosen hnow

/-! ## The invariant -/

/-- There is one creation, and up to the store of `in_use` its slot is unused. -/
structure Creating (s : Interleaved CreateAt) : Prop where
  parked : ∀ i, (s.parked i).isSome = true → s.code = none ∧
    ∀ j, (s.parked j).isSome = true → j = i
  hidden : ∀ p slot, s.At p → hiddenSlot p = some slot →
    (s.machine.kern.table slot).inUse = false

namespace Creating

variable {s s' : Interleaved CreateAt} {a : CreateLabel} {c : Cpu} {e : SwitchCall}

/-- While the creation is on the CPU no other is switched out. -/
theorem alone {p : CreateAt} (h : Creating s) (hp : s.code = some p) (i : Slot) :
    s.parked i = none := by
  by_contra hne
  have hcode := (h.parked i (Option.isSome_iff_ne_none.mpr hne)).1
  rw [hp] at hcode
  cases hcode

theorem quiet (h : Creating s) (hk : KeepsUnused s.machine.kern s'.machine.kern)
    (hcode : s'.code = s.code) (hparked : s'.parked = s.parked) : Creating s' where
  parked i hi := by
    rw [hparked] at hi ⊢
    rw [hcode]
    exact h.parked i hi
  hidden p slot hp hslot := by
    apply hk
    apply h.hidden p slot _ hslot
    unfold Interleaved.At at hp ⊢
    rw [← hcode, ← hparked]
    exact hp

theorem stmt {p : CreateAt} (h : Creating s) (hp : s.code = some p) :
    Creating
      { s with
        machine := { s.machine with kern := (createStmt s.machine.kern s.tick t p).1 }
        code := (createStmt s.machine.kern s.tick t p).2 } where
  parked i hi := by
    change (s.parked i).isSome = true at hi
    rw [h.alone hp i] at hi
    cases hi
  hidden q slot hq hslot := by
    rcases hq with hcode | ⟨i, hi⟩
    · exact createStmt_hidden (fun slot => h.hidden p slot (.inl hp)) hcode hslot
    · change s.parked i = some q at hi
      rw [h.alone hp i] at hi
      cases hi

/-- The creation is on the CPU, where it is parked when it is switched out, or among the others. -/
theorem at_of_switchTo {p : CreateAt} (hp : (s.switchTo e s.code).At p) : s.At p := by
  rcases hp with hcode | ⟨i, hi⟩
  · -- it goes on
    change s.resumed e.sw.next (e.kern.table e.sw.next).savedEsp = some p at hcode
    unfold Interleaved.resumed at hcode
    split at hcode
    · exact .inr ⟨e.sw.next, (Option.ite_none_left_eq_some.mp hcode).2⟩
    · cases hcode
  · change Function.update (Function.update s.parked e.sw.cur s.code) e.sw.next none i = some p at hi
    -- the entry switched to is emptied last, so it is asked about first
    by_cases hnext : i = e.sw.next
    · rw [hnext, Function.update_self] at hi
      cases hi
    · rw [Function.update_of_ne hnext] at hi
      by_cases hcur : i = e.sw.cur
      · rw [hcur, Function.update_self] at hi
        exact .inl hi
      · rw [Function.update_of_ne hcur] at hi
        exact .inr ⟨i, hi⟩

theorem resumed_none {o : Option Saved} {i : Slot} (hi : s.parked i = none) :
    s.resumed i o = none := by
  unfold Interleaved.resumed
  split
  · rw [hi, ite_self]
  · rfl

/-- Where a creation is parked after a switch. -/
theorem parked_switchTo (h : Creating s) {i : Slot}
    (hi : ((s.switchTo e s.code).parked i).isSome = true) :
    i ≠ e.sw.next ∧ (s.code.isSome = true ∧ i = e.sw.cur ∨
      s.code = none ∧ (s.parked i).isSome = true) := by
  change (Function.update (Function.update s.parked e.sw.cur s.code) e.sw.next none i).isSome =
    true at hi
  have hnext : i ≠ e.sw.next := by
    intro he
    rw [he, Function.update_self] at hi
    cases hi
  rw [Function.update_of_ne hnext] at hi
  refine ⟨hnext, ?_⟩
  by_cases hcur : i = e.sw.cur
  · rw [hcur, Function.update_self] at hi
    exact .inl ⟨hi, hcur⟩
  · rw [Function.update_of_ne hcur] at hi
    exact .inr ⟨(h.parked i hi).1, hi⟩

theorem switchTo (h : Creating s) (hk : KeepsUnused s.machine.kern e.kern) :
    Creating (s.switchTo e s.code) where
  parked i hi := by
    have ⟨hnext, hplace⟩ := h.parked_switchTo hi
    have hlast : s.parked e.sw.next = none := by
      -- one creation in the whole system: where it is parked is where it is on the CPU next
      rcases hplace with ⟨hcode, -⟩ | ⟨-, hparked⟩
      · have ⟨p, hp⟩ := Option.isSome_iff_exists.mp hcode
        exact h.alone hp e.sw.next
      · by_contra hne
        exact hnext ((h.parked i hparked).2 e.sw.next (Option.isSome_iff_ne_none.mpr hne)).symm
    refine ⟨resumed_none hlast, fun j hj => ?_⟩
    have ⟨_, hplace'⟩ := h.parked_switchTo hj
    rcases hplace with ⟨hcode, hcur⟩ | ⟨hcode, hparked⟩
    · rcases hplace' with ⟨-, hcur'⟩ | ⟨hcode', -⟩
      · rw [hcur', hcur]
      · rw [hcode'] at hcode
        cases hcode
    · rcases hplace' with ⟨hcode', -⟩ | ⟨-, hparked'⟩
      · rw [hcode] at hcode'
        cases hcode'
      · exact (h.parked i hparked).2 j hparked'
  hidden p slot hp hslot := by
    apply (hk.trans (.contextSwitch s.machine.log e.kern e.cpu e.sw e.how))
    exact h.hidden p slot (at_of_switchTo hp) hslot

/-- The table that `schedule` finds. -/
theorem schedules_sameOwner (hk : s.schedules a = some k) (i : Slot) :
    (s.machine.kern.table i).SameOwner (k.table i) := by
  cases a with
  | next => cases hk
  | timer =>
    have ⟨_, hkern⟩ := Option.ite_none_right_eq_some.mp hk
    rw [← Option.some.inj hkern]
    exact processTick_sameOwner _ _ i
  | yield =>
    rw [← Option.some.inj hk]
    exact .refl _
  | sleep ticks => exact (scheduledIn_sleep hk).1 i

theorem call (h : Creating s) (hcode : s.code = none) (c : Cpu) {r : Kernel × Option Switch}
    (hk : KeepsUnused s.machine.kern r.1) : Creating (s.call c r) := by
  unfold Interleaved.call
  cases r.2 with
  | none => exact h.quiet hk rfl rfl
  | some sw =>
    have hswitch := h.switchTo (e := ⟨r.1, c, sw, .call⟩) hk
    rw [hcode] at hswitch
    exact hswitch

theorem timer (h : Creating s) (c : Cpu) : Creating (s.timer c) := by
  have htick : KeepsUnused s.machine.kern s.timerKernel :=
    .of_owner (processTick_sameOwner s.machine.kern _)
  have hticked : Creating s.ticked := h.quiet htick rfl rfl
  unfold Interleaved.timer
  cases he : s.timerSwitch c with
  | none => exact hticked
  | some e =>
    have ⟨next, _, hne, heq⟩ := Interleaved.timerSwitch_some he
    apply hticked.switchTo
    -- process_tick has run, and the switch takes the creation off the CPU where it stands
    rw [heq]
    exact .of_owner (handOver_sameOwner s.timerKernel ⟨curSlot s.timerKernel, next⟩ hne)

theorem step (h : Creating s) (hstep : s.createExec t a = some s') : Creating s' := by
  unfold Interleaved.createExec at hstep
  cases hcpu : s.machine.cpu with
  | none =>
    rw [hcpu] at hstep
    cases hstep
  | some c =>
    rw [hcpu] at hstep
    cases a with
    | next =>
      have ⟨p, hp, hs⟩ := Option.map_eq_some_iff.mp hstep
      rw [← hs]
      exact h.stmt hp
    | timer =>
      cases (Option.ite_none_right_eq_some.mp hstep).2
      exact h.timer c
    | yield =>
      have ⟨hcode, hs⟩ := Option.ite_none_right_eq_some.mp hstep
      cases hs
      exact h.call hcode c (.of_owner (schedule_sameOwner s.machine.kern))
    | sleep ticks =>
      have ⟨hcode, hs⟩ := Option.ite_none_right_eq_some.mp hstep
      cases hs
      exact h.call hcode.1 c (.of_owner (processSleep_sameOwner s.machine.kern s.tick ticks))

/-- The new slot is not selected if and only if another ready process comes in front of it while it
is exposed; before that it is unused. -/
theorem publishes_iff (h : Creating s) (a : CreateLabel) : s.Publishes a ↔ s.Shielded a := by
  constructor
  · intro hpub k hk hon p slot hp hslot hready
    have hnot := hpub k hk hon slot ⟨p, hp, .inr hslot⟩
    have ⟨i, hi⟩ := Option.isSome_iff_exists.mp (RoundRobin.next_isSome (curSlot k) hready)
    have hne : i ≠ slot := by
      intro he
      rw [he] at hi
      exact hnot hi
    have ⟨hiReady, hleast⟩ := RoundRobin.next_eq_some hi
    -- the scan passes the winner before it comes round to the slot
    have hadd := RoundRobin.gap_add (hleast slot hready) hne
    have hpos := RoundRobin.gap_pos i slot
    exact ⟨i, hiReady, by omega⟩
  · intro hshield k hk hon slot ⟨p, hp, hslot⟩ hsel
    have hready := nextReady_isReady hsel
    rcases hslot with hhidden | hexposed
    -- hidden: in_use is still 0, and schedule reads that first
    · have hunused := h.hidden p slot hp hhidden
      rw [← (schedules_sameOwner hk slot).inUse, (isReady_iff.mp hready).1] at hunused
      cases hunused
    · have ⟨i, hi, hlt⟩ := hshield k hk hon p slot hp hexposed hready
      have hle := (RoundRobin.next_eq_some hsel).2 i hi
      omega

end Creating

/-- In every state of every run, `schedule` selects the new slot before its frame is stored if and
only if it finds the slot exposed, ready and in front of all other ready processes. -/
theorem published_after_frame_iff_shielded (t : NewTask) (s : Interleaved CreateAt)
    (h : (creationSystem t).Reachable s) (a : CreateLabel) : s.Publishes a ↔ s.Shielded a := by
  have hinv : Creating s := by
    apply TransitionSystem.Reach.invariant _ _ h
    · intro s hs
      constructor
      · intro i hi
        rw [hs.parked i] at hi
        cases hi
      · intro p slot hp hslot
        rcases hp with hcode | ⟨i, hi⟩
        · rw [hs.code] at hcode
          cases hcode
          cases hslot
        · rw [hs.parked i] at hi
          cases hi
    · intro s a s' _ hs _ hstep
      exact hs.step hstep
  exact hinv.publishes_iff a

/-- The shell creates a task at the end of a slice, after the given whole calls. -/
theorem creationSystem_reach_of_run {t : NewTask} {calls : List Label} {n : ℕ}
    {p : Interleaved CreateAt → Bool}
    (h : (calls.foldlM Machine.exec (.start fourPages)).any (fun m =>
      decide (m.cpu.map Cpu.flag = some true) &&
        ((List.replicate n CreateLabel.next).foldlM
          (TransitionSystem.guarded (fun _ _ => True) (Interleaved.createExec t))
          { (m.interleaved 100 9 : Interleaved CreateAt) with code := some (.scan 0) }).any p) =
      true) :
    ∃ s, (creationSystem t).Reachable s ∧ p s = true := by
  have ⟨m, _, hm⟩ := (Option.any_eq_true _ _).mp h
  rw [Bool.and_eq_true] at hm
  have ⟨s, hs, hp⟩ := (Option.any_eq_true _ _).mp hm.2
  exact ⟨s, .foldlM (.init ⟨of_decide_eq_true hm.1, rfl, fun _ => rfl⟩) hs, hp⟩

def demoTask : NewTask := ⟨demoName, 1⟩

/-- An older task is ready in slot 2 when the slice ends with slot 3 exposed. -/
theorem published_behind_older_task :
    ∃ s, (creationSystem demoTask).Reachable s ∧ s.code.bind exposedSlot = some 3 ∧
      (s.schedules .timer).isSome = true ∧ s.Publishes .timer := by
  have hrun : ([.create 0 demoName 1].foldlM Machine.exec (.start fourPages)).any (fun m =>
      decide (m.cpu.map Cpu.flag = some true) &&
        ((List.replicate 18 CreateLabel.next).foldlM
          (TransitionSystem.guarded (fun _ _ => True) (Interleaved.createExec demoTask))
          { (m.interleaved 100 9 : Interleaved CreateAt) with code := some (.scan 0) }).any fun s =>
            decide (s.code.bind exposedSlot = some 3) && decide (∀ i, s.parked i = none) &&
              (s.schedules .timer).any fun k => isReady k 2 && decide (curSlot k = 1)) = true := by
    decide +kernel
  have ⟨s, hreach, hs⟩ := creationSystem_reach_of_run hrun
  rw [Bool.and_eq_true, Bool.and_eq_true] at hs
  have ⟨⟨hcode, hparked⟩, hsched⟩ := hs
  have hcode := of_decide_eq_true hcode
  have ⟨k, hk, hready⟩ := (Option.any_eq_true _ _).mp hsched
  rw [Bool.and_eq_true, decide_eq_true_iff] at hready
  refine ⟨s, hreach, hcode, by rw [hk]; rfl,
    (published_after_frame_iff_shielded demoTask s hreach .timer).mpr ?_⟩
  intro k' hk' _ p slot hp hslot _
  rcases hp with hp | ⟨i, hi⟩
  · rw [hp, Option.bind_some, hslot] at hcode
    -- the only creation is the one on the CPU; from the shell in slot 1 slot 2 comes before slot 3
    rw [Option.some.inj (hk'.symm.trans hk), Option.some.inj hcode]
    refine ⟨2, hready.1, ?_⟩
    rw [hready.2]
    decide
  · rw [of_decide_eq_true hparked i] at hi
    cases hi

/-- A killed task had slot 2, and the slice ends when it is exposed again. -/
theorem exposed_slot_selected :
    ¬ ∀ t s, (creationSystem t).Reachable s → ∀ a s', s.createExec t a = some s' →
      s.Publishes a := by
  intro hall
  have hrun : ([.create 0 demoName 1, .yield, .yield, .sysKill 2].foldlM Machine.exec
      (.start fourPages)).any (fun m =>
        decide (m.cpu.map Cpu.flag = some true) &&
          ((List.replicate 17 CreateLabel.next).foldlM
            (TransitionSystem.guarded (fun _ _ => True) (Interleaved.createExec demoTask))
            { (m.interleaved 100 9 : Interleaved CreateAt) with code := some (.scan 0) }).any fun s =>
              decide (s.code = some (.fill 2 0x200000 .sp)) &&
                (s.createExec demoTask .timer).isSome && (s.schedules .timer).any fun k =>
                  k.schedulingEnabled && decide (nextReady k (curSlot k) = some 2)) = true := by
    decide +kernel
  have ⟨s, hreach, hs⟩ := creationSystem_reach_of_run hrun
  rw [Bool.and_eq_true, Bool.and_eq_true] at hs
  have ⟨⟨hcode, hexec⟩, hsched⟩ := hs
  have ⟨s', hs'⟩ := Option.isSome_iff_exists.mp hexec
  have ⟨k, hk, hsel⟩ := (Option.any_eq_true _ _).mp hsched
  rw [Bool.and_eq_true, decide_eq_true_iff] at hsel
  have hunbuilt : s.Unbuilt 2 := ⟨_, .inl (of_decide_eq_true hcode), .inr rfl⟩
  exact hall demoTask s hreach .timer s' hs' k hk hsel.1 2 hunbuilt hsel.2

end MyMisu
