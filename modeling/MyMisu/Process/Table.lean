import MyMisu.Pmm.FreedPages
import MyMisu.Process.State

/-!
# Steps on the process table

What each function of `process.c` does to the table.  Apart from a creation and a switch, a call
changes states and clocks and takes entries out of use, and an entry that stays in use keeps its
owner: the process it belongs to, the context saved there and its stack.
-/

namespace MyMisu

variable {k k' : Kernel} {i j : Slot}

/-! ## Lookups -/

theorem findSlotByPid_some {pid : ℕ} (h : findSlotByPid k pid = some i) :
    (k.table i).inUse = true ∧ (k.table i).pid = pid := by
  have hi := Fin.eq_true_of_find?_eq_some h
  rw [Bool.and_eq_true, decide_eq_true_iff] at hi
  exact hi

theorem findSlotByPid_isSome {pid : ℕ} (hi : (k.table i).inUse = true)
    (hpid : (k.table i).pid = pid) : (findSlotByPid k pid).isSome = true := by
  apply Fin.isSome_find?_of_eq_true (i := i)
  rw [hi, hpid]
  simp

/-- The entry a creation takes is that of no process. -/
theorem ne_of_findUnusedSlot {slot : Slot} (h : findUnusedSlot k = some slot)
    (hi : (k.table i).inUse = true) : i ≠ slot := by
  intro his
  have hunused := Fin.eq_true_of_find?_eq_some h
  rw [← his, hi] at hunused
  cases hunused

theorem isReady_iff : isReady k i = true ↔ (k.table i).inUse = true ∧ (k.table i).state = .ready := by
  unfold isReady
  rw [Bool.and_eq_true, decide_eq_true_iff]

theorem nextReady_isReady {cur : Slot} (h : nextReady k cur = some i) : isReady k i = true :=
  List.find?_some h

theorem curSlot_inUse (h : (processGetCurrent k).isSome = true) :
    (k.table (curSlot k)).inUse = true ∧ (k.table (curSlot k)).pid = k.currentPid := by
  have ⟨slot, hslot⟩ := Option.isSome_iff_exists.mp h
  have hcur : curSlot k = slot := by
    unfold curSlot
    unfold processGetCurrent at hslot
    rw [hslot, Option.getD_some]
  rw [hcur]
  exact findSlotByPid_some hslot

/-! ## Pages -/

theorem pmmAllocPage_used {p : Pmm} {page : Page} (h : p.testBit page = true) :
    (pmmAllocPage p).2.testBit page = true := by
  unfold pmmAllocPage
  cases p.bitmap.firstClear with
  | none => exact h
  | some free =>
    show (p.take free).testBit page = true
    rw [testBit_take, h, Bool.or_true]

theorem pmmAllocPage_fresh {p : Pmm} (h : (pmmAllocPage p).1 ≠ 0) :
    ∃ page : Page, (pmmAllocPage p).1 = page.val * pageSize ∧ p.testBit page = false ∧
      (pmmAllocPage p).2.testBit page = true := by
  unfold pmmAllocPage at *
  cases hfree : p.bitmap.firstClear with
  | none =>
    rw [hfree] at h
    exact absurd rfl h
  | some page =>
    refine ⟨page, rfl, Bitmap.firstClear_some hfree, ?_⟩
    show (p.take page).testBit page = true
    rw [testBit_take]
    simp

theorem pmmFreePage_used {p : Pmm} {page : Page} (addr : ℕ) (h : p.testBit page = true) :
    (pmmFreePage p addr).testBit page = true ∨ addr / pageSize = page.val := by
  unfold pmmFreePage
  split
  · next hlt =>
    split
    · by_cases hpage : page = ⟨addr / pageSize, hlt⟩
      · exact .inr (congrArg Fin.val hpage).symm
      · rw [testBit_give, h]
        simp [hpage]
    · exact .inl h
  · exact .inl h

/-! ## Owners -/

/-- The stack a process executes on. -/
def Process.stack (p : Process) : Stack := if p.kstack = 0 then .boot else .page p.kstack

theorem Kernel.ne_of_inUse_setProc {p : Process} (hp : p.inUse = false)
    (hj : ((k.setProc i p).table j).inUse = true) : j ≠ i := by
  intro h
  rw [h, Kernel.setProc_self, hp] at hj
  cases hj

/-- The entries belong to one process, with one saved context and one stack. -/
structure Process.SameOwner (p q : Process) : Prop where
  serial : q.serial = p.serial
  pid : q.pid = p.pid
  savedEsp : q.savedEsp = p.savedEsp
  kstack : q.kstack = p.kstack
  entry : q.entry = p.entry
  inUse : q.inUse = p.inUse

namespace Process.SameOwner

theorem refl (p : Process) : p.SameOwner p := ⟨rfl, rfl, rfl, rfl, rfl, rfl⟩

theorem trans {p q r : Process} (h : p.SameOwner q) (h' : q.SameOwner r) : p.SameOwner r where
  serial := h'.serial.trans h.serial
  pid := h'.pid.trans h.pid
  savedEsp := h'.savedEsp.trans h.savedEsp
  kstack := h'.kstack.trans h.kstack
  entry := h'.entry.trans h.entry
  inUse := h'.inUse.trans h.inUse

theorem stack {p q : Process} (h : p.SameOwner q) : q.stack = p.stack := by
  unfold Process.stack
  rw [h.kstack]

theorem setProc {p : Process} (h : (k.table i).SameOwner p) (j : Slot) :
    (k.table j).SameOwner ((k.setProc i p).table j) := by
  by_cases hj : j = i
  · rw [hj, Kernel.setProc_self]
    exact h
  · rw [Kernel.setProc_ne _ _ hj]
    exact .refl _

end Process.SameOwner

/-- The processes of the second table are processes of the first.  The pids 0 and 1 go on running,
and a page is given back only with the process whose stack it was. -/
structure Kernel.Keeps (k k' : Kernel) : Prop where
  owner : ∀ i, (k'.table i).inUse = true → (k.table i).SameOwner (k'.table i)
  running : ∀ i, (k'.table i).inUse = true → (k.table i).pid ≤ 1 → (k.table i).state = .running →
    (k'.table i).state = .running
  currentPid : k'.currentPid = k.currentPid
  used : ∀ page, k.pmm.testBit page = true → k'.pmm.testBit page = true ∨
    ∃ i, (k.table i).inUse = true ∧ (k'.table i).inUse = false ∧
      (k.table i).kstack / pageSize = page.val

namespace Kernel.Keeps

theorem refl (k : Kernel) : k.Keeps k where
  owner _ _ := .refl _
  running _ _ _ h := h
  currentPid := rfl
  used _ h := .inl h

theorem inUse (h : k.Keeps k') (hi : (k'.table i).inUse = true) : (k.table i).inUse = true := by
  rw [← (h.owner i hi).inUse, hi]

theorem setProc {p : Process} (howner : (k.table i).SameOwner p)
    (hrunning : (k.table i).pid ≤ 1 → (k.table i).state = .running → p.state = .running) :
    k.Keeps (k.setProc i p) where
  owner j _ := howner.setProc j
  running j _ hpid hrun := by
    by_cases hj : j = i
    · rw [hj] at hpid hrun
      rw [hj, Kernel.setProc_self]
      exact hrunning hpid hrun
    · rw [Kernel.setProc_ne _ _ hj]
      exact hrun
  currentPid := rfl
  used _ h := .inl h

theorem withPmm {pmm : Pmm} (h : ∀ page, k.pmm.testBit page = true → pmm.testBit page = true) :
    k.Keeps { k with pmm := pmm } where
  owner _ _ := .refl _
  running _ _ _ hrun := hrun
  currentPid := rfl
  used page hpage := .inl (h page hpage)

/-- An entry taken out of use, and perhaps its stack given back. -/
theorem retire {p : Process} {pmm : Pmm} (hp : p.inUse = false)
    (hpmm : ∀ page, k.pmm.testBit page = true → pmm.testBit page = true ∨
      (k.table i).inUse = true ∧ (k.table i).kstack / pageSize = page.val) :
    k.Keeps { k.setProc i p with pmm := pmm } where
  owner j hj := by
    have hne : j ≠ i := Kernel.ne_of_inUse_setProc hp hj
    show (k.table j).SameOwner ((k.setProc i p).table j)
    rw [Kernel.setProc_ne _ _ hne]
    exact .refl _
  running j hj _ hrun := by
    have hne : j ≠ i := Kernel.ne_of_inUse_setProc hp hj
    show ((k.setProc i p).table j).state = .running
    rw [Kernel.setProc_ne _ _ hne]
    exact hrun
  currentPid := rfl
  used page hpage := by
    rcases hpmm page hpage with h | ⟨hi, hstack⟩
    · exact .inl h
    · right
      refine ⟨i, hi, ?_, hstack⟩
      show ((k.setProc i p).table i).inUse = false
      rw [Kernel.setProc_self, hp]

end Kernel.Keeps

/-- No two processes in use have the same value. -/
def Kernel.TellsApart {β : Type*} (k : Kernel) (f : Process → β) : Prop :=
  ∀ i j, (k.table i).inUse = true → (k.table j).inUse = true → f (k.table i) = f (k.table j) → i = j

theorem Kernel.TellsApart.mono {β : Type*} {f : Process → β} (h : k.TellsApart f)
    (hk : ∀ i, (k'.table i).inUse = true →
      (k.table i).inUse = true ∧ f (k'.table i) = f (k.table i)) : k'.TellsApart f := by
  intro i j hi hj heq
  have ⟨hi', hfi⟩ := hk i hi
  have ⟨hj', hfj⟩ := hk j hj
  rw [hfi, hfj] at heq
  exact h i j hi' hj' heq

theorem Process.SameOwner.used {p q : Process} (h : p.SameOwner q) (hq : q.inUse = true) :
    p.inUse = true := by
  rw [← h.inUse, hq]

/-! ## The table at boot -/

/-- The entries of the kernel and the shell. -/
structure Process.Booted (i : Slot) (p : Process) : Prop where
  slot : i.val ≤ 1
  pid : p.pid = i.val
  serial : p.serial = i.val
  state : p.state = .running
  savedEsp : p.savedEsp = none
  kstack : p.kstack = 0

theorem processInit_booted {pmm : Pmm} (hi : ((processInit pmm).table i).inUse = true) :
    Process.Booted i ((processInit pmm).table i) := by
  unfold processInit at *
  by_cases h0 : i = 0
  · rw [h0]
    exact ⟨by decide, rfl, rfl, rfl, rfl, rfl⟩
  · by_cases h1 : i = 1
    · rw [h1]
      exact ⟨by decide, rfl, rfl, rfl, rfl, rfl⟩
    · simp only [h0, h1, if_false] at hi
      cases hi

/-! ## The clock -/

theorem countTick_sameOwner (k : Kernel) (i : Slot) :
    (k.table i).SameOwner ((countTick k).table i) := by
  unfold countTick
  cases findSlotByPid k k.currentPid with
  | none => exact .refl _
  | some slot =>
    apply Process.SameOwner.setProc
    exact ⟨rfl, rfl, rfl, rfl, rfl, rfl⟩

theorem countTick_keeps (k : Kernel) : k.Keeps (countTick k) := by
  unfold countTick
  cases findSlotByPid k k.currentPid with
  | none => exact .refl k
  | some slot => exact .setProc ⟨rfl, rfl, rfl, rfl, rfl, rfl⟩ fun _ h => h

theorem countTick_pmm (k : Kernel) : (countTick k).pmm = k.pmm := by
  unfold countTick
  cases findSlotByPid k k.currentPid <;> rfl

theorem wake_sameOwner (p : Process) (now : ℕ) : p.SameOwner (p.wake now) := by
  unfold Process.wake
  split
  · exact ⟨rfl, rfl, rfl, rfl, rfl, rfl⟩
  · exact .refl p

theorem wake_state {p : Process} (h : p.state ≠ .blocked) (now : ℕ) :
    (p.wake now).state = p.state := by
  unfold Process.wake
  split
  · next hwake => exact absurd hwake.2.1 h
  · rfl

theorem processTick_sameOwner (k : Kernel) (now : ℕ) (i : Slot) :
    (k.table i).SameOwner ((processTick k now).table i) :=
  (countTick_sameOwner k i).trans (wake_sameOwner ((countTick k).table i) now)

theorem processTick_keeps (k : Kernel) (now : ℕ) : k.Keeps (processTick k now) where
  owner i _ := processTick_sameOwner k now i
  running i hi hpid hrun := by
    have huse : ((countTick k).table i).inUse = true := by
      rw [← (wake_sameOwner ((countTick k).table i) now).inUse]
      exact hi
    have hcount := (countTick_keeps k).running i huse hpid hrun
    show (((countTick k).table i).wake now).state = .running
    rw [wake_state (by rw [hcount]; decide), hcount]
  currentPid := (countTick_keeps k).currentPid
  used page hpage := by
    left
    show (countTick k).pmm.testBit page = true
    rw [countTick_pmm, hpage]

/-! ## The scheduler -/

theorem handOver_sameOwner (k : Kernel) (sw : Switch) (hne : sw.next ≠ sw.cur) (i : Slot) :
    (k.table i).SameOwner ((k.handOver sw).table i) := by
  unfold Kernel.handOver
  by_cases hnext : i = sw.next
  · simp only [hnext, Kernel.setProc_self, Kernel.setProc_ne _ _ hne]
    exact ⟨rfl, rfl, rfl, rfl, rfl, rfl⟩
  · by_cases hcur : i = sw.cur
    · simp only [hcur, Kernel.setProc_ne _ _ hne.symm, Kernel.setProc_self]
      exact ⟨rfl, rfl, rfl, rfl, rfl, rfl⟩
    · simp only [Kernel.setProc_ne _ _ hnext, Kernel.setProc_ne _ _ hcur]
      exact .refl _

theorem handOver_currentPid (k : Kernel) (sw : Switch) (hne : sw.next ≠ sw.cur) :
    (k.handOver sw).currentPid = (k.table sw.next).pid := by
  unfold Kernel.handOver
  simp only [Kernel.setProc_self, Kernel.setProc_ne _ _ hne]

theorem handOver_running (k : Kernel) {sw : Switch} (hi : i ≠ sw.cur)
    (h : (k.table i).state = .running) : ((k.handOver sw).table i).state = .running := by
  unfold Kernel.handOver
  by_cases hnext : i = sw.next
  · simp only [hnext, Kernel.setProc_self]
  · simp only [Kernel.setProc_ne _ _ hnext, Kernel.setProc_ne _ _ hi]
    exact h

theorem schedule_switch {next : Slot} (hon : k.schedulingEnabled = true)
    (hnext : nextReady k (curSlot k) = some next) (hne : next ≠ curSlot k) :
    schedule k = (k.handOver ⟨curSlot k, next⟩, some ⟨curSlot k, next⟩) := by
  unfold schedule
  rw [if_neg (by rw [hon]; decide), hnext]
  exact if_neg hne

/-- What `schedule` does: nothing, or a switch to a ready process other than the current one. -/
theorem schedule_cases (k : Kernel) :
    schedule k = (k, none) ∨
      ∃ next, k.schedulingEnabled = true ∧ nextReady k (curSlot k) = some next ∧ next ≠ curSlot k ∧
        schedule k = (k.handOver ⟨curSlot k, next⟩, some ⟨curSlot k, next⟩) := by
  by_cases hon : k.schedulingEnabled = true
  · cases hnext : nextReady k (curSlot k) with
    | none =>
      left
      unfold schedule
      rw [if_neg (by rw [hon]; decide), hnext]
    | some next =>
      by_cases hne : next = curSlot k
      · left
        unfold schedule
        rw [if_neg (by rw [hon]; decide), hnext]
        exact if_pos hne
      · exact .inr ⟨next, hon, rfl, hne, schedule_switch hon hnext hne⟩
  · left
    unfold schedule
    rw [if_pos (eq_false_of_ne_true hon)]

/-! ## Creation and termination -/

/-- The table with a new process in the slot. -/
def Kernel.spawn (k : Kernel) (slot : Slot) (tick : ℕ) (name : CStr) (fn : ℕ) : Kernel :=
  { k.setProc slot
      (newProcess k (k.table slot).name tick name fn (pmmAllocPage k.pmm).1) with
    nextPid := wrap32 (k.nextPid + 1)
    pmm := (pmmAllocPage k.pmm).2
    created := k.created + 1 }

@[simp] theorem Kernel.spawn_self (k : Kernel) (slot : Slot) (tick : ℕ) (name : CStr) (fn : ℕ) :
    (k.spawn slot tick name fn).table slot =
      newProcess k (k.table slot).name tick name fn (pmmAllocPage k.pmm).1 :=
  Kernel.setProc_self ..

@[simp] theorem Kernel.spawn_ne (k : Kernel) {slot j : Slot} (tick : ℕ) (name : CStr) (fn : ℕ)
    (h : j ≠ slot) : (k.spawn slot tick name fn).table j = k.table j :=
  Kernel.setProc_ne _ _ h

/-- A new process with a new value is told apart from the others. -/
theorem Kernel.TellsApart.spawn {β : Type*} {f : Process → β} (h : k.TellsApart f) {slot : Slot}
    {tick fn : ℕ} {name : CStr}
    (hnew : ∀ i, (k.table i).inUse = true →
      f (k.table i) ≠ f ((k.spawn slot tick name fn).table slot)) :
    (k.spawn slot tick name fn).TellsApart f := by
  intro i j hi hj heq
  by_cases his : i = slot
  · by_cases hjs : j = slot
    · rw [his, hjs]
    · rw [Kernel.spawn_ne _ _ _ _ hjs] at hj heq
      rw [his] at heq
      exact absurd heq.symm (hnew j hj)
  · rw [Kernel.spawn_ne _ _ _ _ his] at hi heq
    by_cases hjs : j = slot
    · rw [hjs] at heq
      exact absurd heq (hnew i hi)
    · rw [Kernel.spawn_ne _ _ _ _ hjs] at hj heq
      exact h i j hi hj heq

theorem processCreateKernel_cases (k : Kernel) (tick : ℕ) (name : CStr) (fn : ℕ) :
    (k.Keeps (processCreateKernel k tick name fn).2 ∧
      (processCreateKernel k tick name fn).2.table = k.table) ∨
    ∃ slot, findUnusedSlot k = some slot ∧ (pmmAllocPage k.pmm).1 ≠ 0 ∧
      (processCreateKernel k tick name fn).2 = k.spawn slot tick name fn := by
  unfold processCreateKernel
  cases hslot : findUnusedSlot k with
  | none => exact .inl ⟨.refl k, rfl⟩
  | some slot =>
    by_cases hstack : (pmmAllocPage k.pmm).1 = 0
    · left
      simp only [hstack, if_true]
      exact ⟨.withPmm fun page h => pmmAllocPage_used h, trivial⟩
    · right
      simp only [hstack, if_false]
      exact ⟨slot, rfl, hstack, rfl⟩

/-- What `process_terminate` does: nothing, or it ends the process with the pid, which is not 0 or 1. -/
theorem processTerminate_cases (k : Kernel) (pid : ℕ) :
    processTerminate k pid = (-1, k) ∨
      ∃ slot, findSlotByPid k pid = some slot ∧ 1 < pid ∧ (processTerminate k pid).1 = 0 ∧
        k.Keeps (processTerminate k pid).2 ∧
        ∀ j, j ≠ slot → (processTerminate k pid).2.table j = k.table j := by
  unfold processTerminate
  cases hslot : findSlotByPid k pid with
  | none => exact .inl rfl
  | some slot =>
    by_cases hpid : pid ≤ 1
    · exact .inl (if_pos hpid)
    · right
      simp only [hpid, if_false]
      refine ⟨slot, rfl, by omega, trivial, .retire rfl ?_, fun j hj => Kernel.setProc_ne _ _ hj⟩
      intro page hpage
      split
      · rcases pmmFreePage_used (k.table slot).kstack hpage with h | h
        · exact .inl h
        · exact .inr ⟨(findSlotByPid_some hslot).1, h⟩
      · exact .inl hpage

theorem processReturned_keeps (k : Kernel) (p : Slot) : k.Keeps (processReturned k p) :=
  .retire rfl fun _ h => .inl h

end MyMisu
