import MyMisu.Pmm.AllocSafety
import MyMisu.Process.Scheduler
import MyMisu.Process.Stacks

/-!
# The pages of the kernel stacks

A ledger beside the machine: the pages that creations took from the allocator and nobody gave back,
which are those whose bits have been set since the start.  `process_terminate` frees the stack of the
entry it takes out of use, `process_entry_wrapper` does not, so the ledger and the table agree until a
task returns with its entry still in use.
-/

namespace MyMisu

-- the scan of the bitmap stays folded when entries are compared
attribute [local irreducible] pmmAllocPage Bitmap.firstClear

/-! ## The ledger -/

/-- A machine with its ledger; `boot` is the allocator before the first step. -/
structure StackLedger where
  boot : Pmm
  machine : Machine
  taken : List ℕ

/-- The page that a creation takes from the allocator. -/
def pageTaken (k : Kernel) : Option ℕ :=
  match findUnusedSlot k with
  | none => none
  | some _ => k.pmm.bitmap.firstClear.map fun page => page.val * pageSize

/-- The page that `process_terminate` gives back. -/
def pageGiven (k : Kernel) (pid : ℕ) : Option ℕ :=
  match findSlotByPid k pid with
  | none => none
  | some slot =>
    if pid ≤ 1 then none
    else if (k.table slot).kstack ≠ 0 then some (k.table slot).kstack else none

/-- The ledger after a call of `process_terminate`. -/
def takenAfterTerminate (k : Kernel) (taken : List ℕ) (pid : ℕ) : List ℕ :=
  match pageGiven k pid with
  | none => taken
  | some page => taken.erase page

def takenAfter (k : Kernel) (taken : List ℕ) : Label → List ℕ
  | .create _ _ _ => (pageTaken k).toList ++ taken
  | .terminate pid => takenAfterTerminate k taken pid
  | .sysExit => if k.currentPid > 1 then takenAfterTerminate k taken k.currentPid else taken
  | .sysKill pid => if pid ≤ 1 then taken else takenAfterTerminate k taken (u32OfInt pid)
  | _ => taken

def StackLedger.exec (l : StackLedger) (a : Label) : Option StackLedger :=
  (l.machine.exec a).map fun m => ⟨l.boot, m, takenAfter l.machine.kern l.taken a⟩

def ledgerSystem (boot : Pmm → Prop) : TransitionSystem StackLedger Label :=
  .ofPartial (fun l => ∃ pmm, boot pmm ∧ l = ⟨pmm, Machine.start pmm, []⟩) StackLedger.exec

/-- The pages taken and not given back are the stacks of the processes in use, each counted once, and
the bitmap has just these bits set that it did not have at the start. -/
structure StacksAccounted (boot : Pmm) (k : Kernel) (taken : List ℕ) : Prop where
  bitmap : ∀ addr, addr ∈ taken ↔ ∃ page : Page, addr = page.val * pageSize ∧
    k.pmm.testBit page = true ∧ boot.testBit page = false
  pages : ∀ page, page ∈ taken ↔
    ∃ i, (k.table i).inUse = true ∧ (k.table i).kstack ≠ 0 ∧ (k.table i).kstack = page
  nodup : taken.Nodup
  distinct : ∀ i j, (k.table i).inUse = true → (k.table j).inUse = true →
    (k.table i).kstack ≠ 0 → (k.table i).kstack = (k.table j).kstack → i = j

/-! ## Entries that lose their stack -/

/-- The table in which a step calls `schedule`. -/
def scheduledIn (k : Kernel) : Label → Option Kernel
  | .yield => some k
  | .timer now => some (processTick k now)
  | .sleep now ticks =>
    match findSlotByPid k k.currentPid with
    | none => none
    | some slot =>
      if k.currentPid ≤ 1 then none
      else
        some (k.setProc slot
          { k.table slot with state := .blocked, wakeTick := wrap32 (now + ticks) })
  | _ => none

/-- The slot `schedule` switches to. -/
def switchesTo (k : Kernel) : Option Slot :=
  if k.schedulingEnabled then (nextReady k (curSlot k)).filter fun next => next ≠ curSlot k else none

/-- The entry that `process_entry_wrapper` takes out of use at the first switch to a process, when it
has no entry function. -/
def nullEntry (k : Kernel) (next : Slot) : Option Slot :=
  match (k.table next).savedEsp with
  | none => none
  | some sv =>
    if sv.resume = .entry then
      (findSlotByPid k (k.table next).pid).filter fun p => (k.table p).entry = 0
    else none

/-- The entry that a step leaves to `process_entry_wrapper` to take out of use. -/
def wrapperDrops (m : Machine) : Label → Option Slot
  | .taskReturn => m.cpu.bind fun c => c.ctx.self
  | a => (scheduledIn m.kern a).bind fun k => (switchesTo k).bind (nullEntry k)

/-- No task returns while the entry its wrapper points to is in use with a stack. -/
def KeepsStack (m : Machine) (a : Label) : Prop :=
  ∀ p, wrapperDrops m a = some p → (m.kern.table p).inUse = true → (m.kern.table p).kstack = 0

/-! ## The invariant -/

variable {boot : Pmm} {k k' : Kernel} {m m' : Machine} {taken : List ℕ} {a : Label}

/-- The ledger agrees with the table and the bitmap, in which nothing in use at the start has become
free; page 0 was in use then. -/
structure StackPages (boot : Pmm) (k : Kernel) (taken : List ℕ) : Prop extends
    StacksAccounted boot k taken where
  kept : ∀ page, boot.testBit page = true → k.pmm.testBit page = true
  null : boot.testBit 0 = true

namespace StackPages

theorem congr (h : StackPages boot k taken) (hinUse : ∀ i, (k'.table i).inUse = (k.table i).inUse)
    (hkstack : ∀ i, (k'.table i).kstack = (k.table i).kstack) (hpmm : k'.pmm = k.pmm) :
    StackPages boot k' taken where
  bitmap addr := by
    rw [hpmm]
    exact h.bitmap addr
  pages page := by
    rw [h.pages]
    simp only [hinUse, hkstack]
  nodup := h.nodup
  distinct i j hi hj hne heq := by
    rw [hinUse] at hi hj
    rw [hkstack] at hne heq
    rw [hkstack] at heq
    exact h.distinct i j hi hj hne heq
  kept := by
    rw [hpmm]
    exact h.kept
  null := h.null

theorem sameOwner (h : StackPages boot k taken) (howner : ∀ i, (k.table i).SameOwner (k'.table i))
    (hpmm : k'.pmm = k.pmm) : StackPages boot k' taken :=
  h.congr (fun i => (howner i).inUse) (fun i => (howner i).kstack) hpmm

/-- A page that is free now was free at the start. -/
theorem boot_free (h : StackPages boot k taken) {page : Page} (hfree : k.pmm.testBit page = false) :
    boot.testBit page = false := by
  apply eq_false_of_ne_true
  intro hboot
  rw [h.kept page hboot] at hfree
  cases hfree

theorem pos (h : StackPages boot k taken) {page : Page} (hfree : k.pmm.testBit page = false) :
    page.val * pageSize ≠ 0 := by
  intro hzero
  have hpage : page = 0 := Fin.ext ((Nat.mul_eq_zero.mp hzero).resolve_right (by decide))
  have hboot := h.boot_free hfree
  rw [hpage, h.null] at hboot
  cases hboot

/-- A stack is a page of the allocator that has been taken since the start. -/
theorem stack_page (h : StackPages boot k taken) (i : Slot) (hi : (k.table i).inUse = true)
    (hstack : (k.table i).kstack ≠ 0) : ∃ page : Page, (k.table i).kstack = page.val * pageSize ∧
      k.pmm.testBit page = true ∧ boot.testBit page = false :=
  (h.bitmap _).mp ((h.pages _).mpr ⟨i, hi, hstack, rfl⟩)

/-- The page of a creation is nobody's stack. -/
theorem fresh (h : StackPages boot k taken) {page : Page} (hfree : k.pmm.testBit page = false) {i : Slot}
    (hi : (k.table i).inUse = true) : (k.table i).kstack ≠ page.val * pageSize := by
  intro heq
  have ⟨page', haddr, hused, _⟩ := h.stack_page i hi (by rw [heq]; exact h.pos hfree)
  rw [heq] at haddr
  have hsame : page' = page :=
    Fin.ext (Nat.eq_of_mul_eq_mul_right (by decide) haddr).symm
  rw [hsame, hfree] at hused
  cases hused

section Spawn

variable {slot : Slot} {page : Page} (hpage : k.pmm.bitmap.firstClear = some page) (tick : ℕ)
  (name : CStr) (fn : ℕ)

include hpage

/-- The new process has the page for its stack. -/
theorem spawn_page (slot : Slot) : ((k.spawn slot tick name fn).table slot).kstack = page.val * pageSize ∧
    (k.spawn slot tick name fn).pmm = k.pmm.take page := by
  have halloc := allocPage_some hpage
  rw [Kernel.spawn_self]
  constructor
  · show (pmmAllocPage k.pmm).1 = _
    rw [halloc]
  · show (pmmAllocPage k.pmm).2 = _
    rw [halloc]

theorem spawn_pages (h : StackPages boot k taken) (hslot : findUnusedSlot k = some slot) (q : ℕ) :
    q ∈ page.val * pageSize :: taken ↔
      ∃ i, ((k.spawn slot tick name fn).table i).inUse = true ∧
        ((k.spawn slot tick name fn).table i).kstack ≠ 0 ∧
        ((k.spawn slot tick name fn).table i).kstack = q := by
  have hself := (spawn_page hpage tick name fn slot).1
  have hpos := h.pos (Bitmap.firstClear_some hpage)
  rw [List.mem_cons, h.pages]
  constructor
  · rintro (hq | ⟨i, hi, hstack, hq⟩)
    -- the new page is the new entry's stack; every other page stays with the entry that had it
    · refine ⟨slot, ?_, ?_, ?_⟩
      · rw [Kernel.spawn_self]
        rfl
      · rw [hself]
        exact hpos
      · rw [hself, hq]
    · refine ⟨i, ?_⟩
      rw [Kernel.spawn_ne _ _ _ _ (ne_of_findUnusedSlot hslot hi)]
      exact ⟨hi, hstack, hq⟩
  · rintro ⟨i, hi, hstack, hq⟩
    by_cases his : i = slot
    · rw [his, hself] at hq
      exact .inl hq.symm
    · rw [Kernel.spawn_ne _ _ _ _ his] at hi hstack hq
      exact .inr ⟨i, hi, hstack, hq⟩

theorem spawn_distinct (h : StackPages boot k taken) (i j : Slot)
    (hi : ((k.spawn slot tick name fn).table i).inUse = true)
    (hj : ((k.spawn slot tick name fn).table j).inUse = true)
    (hstack : ((k.spawn slot tick name fn).table i).kstack ≠ 0)
    (heq : ((k.spawn slot tick name fn).table i).kstack =
      ((k.spawn slot tick name fn).table j).kstack) : i = j := by
  have hself := (spawn_page hpage tick name fn slot).1
  have hfree : k.pmm.testBit page = false := Bitmap.firstClear_some hpage
  by_cases his : i = slot
  · by_cases hjs : j = slot
    · rw [his, hjs]
    · -- nobody else had the page
      rw [Kernel.spawn_ne _ _ _ _ hjs] at hj heq
      rw [his, hself] at heq
      exact absurd heq.symm (h.fresh hfree hj)
  · rw [Kernel.spawn_ne _ _ _ _ his] at hi hstack heq
    by_cases hjs : j = slot
    · rw [hjs, hself] at heq
      exact absurd heq (h.fresh hfree hi)
    · rw [Kernel.spawn_ne _ _ _ _ hjs] at hj heq
      exact h.distinct i j hi hj hstack heq

/-- The bit of the page that is taken is the one bit that is set. -/
theorem spawn_bitmap (h : StackPages boot k taken) (slot : Slot) (addr : ℕ) :
    addr ∈ page.val * pageSize :: taken ↔ ∃ q : Page, addr = q.val * pageSize ∧
      (k.spawn slot tick name fn).pmm.testBit q = true ∧ boot.testBit q = false := by
  have hfree : k.pmm.testBit page = false := Bitmap.firstClear_some hpage
  rw [(spawn_page hpage tick name fn slot).2, List.mem_cons, h.bitmap]
  simp only [testBit_take, Bool.or_eq_true, decide_eq_true_iff]
  constructor
  · rintro (haddr | ⟨q, haddr, hq, hboot⟩)
    · exact ⟨page, haddr, .inl rfl, h.boot_free hfree⟩
    · exact ⟨q, haddr, .inr hq, hboot⟩
  · rintro ⟨q, haddr, hq | hq, hboot⟩
    · exact .inl (hq ▸ haddr)
    · exact .inr ⟨q, haddr, hq, hboot⟩

theorem spawn (h : StackPages boot k taken) (hslot : findUnusedSlot k = some slot) :
    StackPages boot (k.spawn slot tick name fn) (page.val * pageSize :: taken) where
  bitmap := h.spawn_bitmap hpage tick name fn slot
  pages := h.spawn_pages hpage tick name fn hslot
  nodup := by
    rw [List.nodup_cons]
    refine ⟨fun hmem => ?_, h.nodup⟩
    have ⟨i, hi, _, hq⟩ := (h.pages _).mp hmem
    exact h.fresh (Bitmap.firstClear_some hpage) hi hq
  distinct := h.spawn_distinct hpage tick name fn
  kept q hq := by
    rw [(spawn_page hpage tick name fn slot).2, testBit_take, h.kept q hq, Bool.or_true]
  null := h.null

end Spawn

/-- Entries in use with one stack are one entry after another was taken out of use, too. -/
theorem distinct_setProc (h : StackPages boot k taken) {slot : Slot} {p : Process} (hp : p.inUse = false)
    (i j : Slot) (hi : ((k.setProc slot p).table i).inUse = true)
    (hj : ((k.setProc slot p).table j).inUse = true) (hs : ((k.setProc slot p).table i).kstack ≠ 0)
    (heq : ((k.setProc slot p).table i).kstack = ((k.setProc slot p).table j).kstack) : i = j := by
  have his : i ≠ slot := Kernel.ne_of_inUse_setProc hp hi
  have hjs : j ≠ slot := Kernel.ne_of_inUse_setProc hp hj
  rw [Kernel.setProc_ne _ _ his] at hi hs heq
  rw [Kernel.setProc_ne _ _ hjs] at hj heq
  exact h.distinct i j hi hj hs heq

/-- An entry without a stack leaves the ledger alone when it is taken out of use. -/
theorem retire (h : StackPages boot k taken) {slot : Slot} {p : Process} (hp : p.inUse = false)
    (hstack : (k.table slot).inUse = true → (k.table slot).kstack = 0) :
    StackPages boot (k.setProc slot p) taken := by
  have hne : ∀ i, ((k.setProc slot p).table i).inUse = true → i ≠ slot :=
    fun i hi => Kernel.ne_of_inUse_setProc hp hi
  -- an entry with a stack is not the retired one, so the two tables agree on all of them
  have hother : ∀ i, (k.table i).inUse = true → (k.table i).kstack ≠ 0 → i ≠ slot := by
    intro i hi hs his
    rw [his] at hi hs
    exact hs (hstack hi)
  refine ⟨⟨h.bitmap, ?_, h.nodup, h.distinct_setProc hp⟩, h.kept, h.null⟩
  intro q
  rw [h.pages]
  constructor
  · rintro ⟨i, hi, hs, hq⟩
    refine ⟨i, ?_⟩
    rw [Kernel.setProc_ne _ _ (hother i hi hs)]
    exact ⟨hi, hs, hq⟩
  · rintro ⟨i, hi, hs, hq⟩
    have his := hne i hi
    rw [Kernel.setProc_ne _ _ his] at hi hs hq
    exact ⟨i, hi, hs, hq⟩

section GiveBack

variable {slot : Slot} {p : Process} (hp : p.inUse = false) (hi : (k.table slot).inUse = true)

include hp hi

theorem giveBack_pages (h : StackPages boot k taken) (q : ℕ) :
    q ∈ taken.erase (k.table slot).kstack ↔
      ∃ i, ((k.setProc slot p).table i).inUse = true ∧ ((k.setProc slot p).table i).kstack ≠ 0 ∧
        ((k.setProc slot p).table i).kstack = q := by
  rw [h.nodup.mem_erase_iff, h.pages]
  constructor
  · rintro ⟨hqs, j, hj, hs, hq⟩
    have hjs : j ≠ slot := by
      intro he
      rw [he] at hq
      exact hqs hq.symm
    refine ⟨j, ?_⟩
    rw [Kernel.setProc_ne _ _ hjs]
    exact ⟨hj, hs, hq⟩
  · rintro ⟨j, hj, hs, hq⟩
    have hjs : j ≠ slot := Kernel.ne_of_inUse_setProc hp hj
    rw [Kernel.setProc_ne _ _ hjs] at hj hs hq
    refine ⟨fun hqs => ?_, j, hj, hs, hq⟩
    -- the stack was that entry's alone
    exact hjs (h.distinct j slot hj hi hs (hq.trans hqs))

/-- An entry in use whose stack goes back with it. -/
theorem giveBack (h : StackPages boot k taken) (hstack : (k.table slot).kstack ≠ 0) :
    StackPages boot { k.setProc slot p with pmm := pmmFreePage k.pmm (k.table slot).kstack }
      (taken.erase (k.table slot).kstack) := by
  have ⟨page, haddr, hused, hboot⟩ := h.stack_page slot hi hstack
  have hfree : pmmFreePage k.pmm (k.table slot).kstack = k.pmm.give page := by
    rw [haddr, freePage_page hused]
  rw [hfree]
  -- pmm_free_page clears the bit of the page at the stack's address and no other
  refine ⟨⟨fun addr => ?_, h.giveBack_pages hp hi, h.nodup.erase _, h.distinct_setProc hp⟩,
    fun q hq => ?_, h.null⟩
  · show _ ↔ ∃ q : Page, addr = q.val * pageSize ∧ (k.pmm.give page).testBit q = true ∧ _
    rw [h.nodup.mem_erase_iff, h.bitmap]
    simp only [testBit_give, Bool.and_eq_true, decide_eq_true_iff]
    constructor
    · rintro ⟨hne, q, hq, hbit, hfresh⟩
      refine ⟨q, hq, ⟨fun hqp => ?_, hbit⟩, hfresh⟩
      rw [hq, hqp, haddr] at hne
      exact hne rfl
    · rintro ⟨q, hq, ⟨hqp, hbit⟩, hfresh⟩
      refine ⟨fun heq => ?_, q, hq, hbit, hfresh⟩
      rw [hq, haddr] at heq
      exact hqp (Fin.ext (Nat.eq_of_mul_eq_mul_right (by decide) heq))
  · show (k.pmm.give page).testBit q = true
    have hqp : q ≠ page := by
      rintro rfl
      rw [hboot] at hq
      cases hq
    rw [testBit_give, h.kept q hq]
    simp [hqp]

end GiveBack

theorem terminate (h : StackPages boot k taken) (pid : ℕ) :
    StackPages boot (processTerminate k pid).2 (takenAfterTerminate k taken pid) := by
  unfold processTerminate takenAfterTerminate pageGiven
  cases hslot : findSlotByPid k pid with
  | none => exact h
  | some slot =>
    have ⟨hi, _⟩ := findSlotByPid_some hslot
    by_cases hpid : pid ≤ 1
    · simp only [hpid, if_true]
      exact h
    · simp only [hpid, if_false]
      by_cases hstack : (k.table slot).kstack = 0
      · simp only [hstack, ne_eq, not_true_eq_false, if_false]
        exact (h.retire (p := (k.table slot).terminated) rfl fun _ => hstack).congr
          (fun _ => rfl) (fun _ => rfl) rfl
      · simp only [hstack, ne_eq, not_false_eq_true, if_true]
        exact h.giveBack (p := (k.table slot).terminated) rfl hi hstack

theorem create (h : StackPages boot k taken) (tick : ℕ) (name : CStr) (fn : ℕ) :
    StackPages boot (processCreateKernel k tick name fn).2 ((pageTaken k).toList ++ taken) := by
  unfold pageTaken
  cases hslot : findUnusedSlot k with
  | none =>
    unfold processCreateKernel
    rw [hslot]
    exact h
  | some slot =>
    cases hpage : k.pmm.bitmap.firstClear with
    | none =>
      have halloc : pmmAllocPage k.pmm = (0, k.pmm) := allocPage_none hpage
      unfold processCreateKernel
      rw [hslot, halloc]
      exact h
    | some page =>
      have hpos := h.pos (Bitmap.firstClear_some hpage)
      have hne : (pmmAllocPage k.pmm).1 ≠ 0 := by
        rw [allocPage_some hpage]
        exact hpos
      have hrun : (processCreateKernel k tick name fn).2 = k.spawn slot tick name fn := by
        unfold processCreateKernel
        rw [hslot]
        simp only [if_neg hne]
        rfl
      rw [hrun]
      exact h.spawn hpage tick name fn hslot

/-- An entry that loses its stack without giving it back leaves the ledger behind. -/
theorem not_accounted (h : StackPages boot k taken) {p : Slot} (hi : (k.table p).inUse = true)
    (hstack : (k.table p).kstack ≠ 0) : ¬ StacksAccounted boot (processReturned k p) taken := by
  intro hacc
  have hmem : (k.table p).kstack ∈ taken := (h.pages _).mpr ⟨p, hi, hstack, rfl⟩
  have ⟨i, hi', hs, hq⟩ := (hacc.pages _).mp hmem
  have hip : i ≠ p := Kernel.ne_of_inUse_setProc rfl hi'
  unfold processReturned at hi' hs hq
  rw [Kernel.setProc_ne _ _ hip] at hi' hs hq
  exact hip (h.distinct i p hi' hi hs hq)

end StackPages

/-! ## Steps -/

/-- What a step leaves: a table that agrees with the ledger, or that table with one entry taken out of
use by `process_entry_wrapper`. -/
def LeavesStacks (boot : Pmm) (m m' : Machine) (taken : List ℕ) (drop : Option Slot) : Prop :=
  ∃ k, StackPages boot k taken ∧
    (drop = none ∧ m'.kern = k ∨
      ∃ p, drop = some p ∧ m'.kern = processReturned k p ∧
        (k.table p).inUse = (m.kern.table p).inUse ∧ (k.table p).kstack = (m.kern.table p).kstack)

theorem Kernel.Switched.findSlotByPid {sw : Switch} {sv : Saved} (h : k.Switched sw sv k') (pid : ℕ) :
    findSlotByPid k' pid = MyMisu.findSlotByPid k pid := by
  unfold MyMisu.findSlotByPid
  congr 1
  ext i
  rw [h.inUse, h.pid]

/-- The table after a switch, and what the wrapper does to it at the first switch to a process. -/
theorem contextSwitch_kern (log : List SwitchEvent) (c : Cpu) (how : Resume) {cur next : Slot}
    (hne : next ≠ cur) :
    ∃ k', k.Switched ⟨cur, next⟩ ⟨c.ctx, how⟩ k' ∧
      (nullEntry k next = none ∧
          (contextSwitch log (k.handOver ⟨cur, next⟩) c ⟨cur, next⟩ how).kern = k' ∨
        ∃ p, nullEntry k next = some p ∧
          (contextSwitch log (k.handOver ⟨cur, next⟩) c ⟨cur, next⟩ how).kern =
            processReturned k' p) := by
  have hsw := switched k ⟨cur, next⟩ ⟨c.ctx, how⟩ hne
  -- whether the wrapper runs is read from the saved frame, which the hand-over leaves as it was
  have hsaved := (handOver_sameOwner k ⟨cur, next⟩ hne next).savedEsp
  refine ⟨_, hsw, ?_⟩
  unfold contextSwitch nullEntry
  simp only [hsaved]
  cases hsv : (k.table next).savedEsp with
  | none => exact .inl ⟨rfl, rfl⟩
  | some sv =>
    simp only
    by_cases hentry : sv.resume = .entry
    -- process_entry_wrapper runs at the first switch to a process, and at no later one
    · have hload : ∀ k', (sv.load k' c.flag).1 = (wrapperEnter k' sv.ctx).1 := by
        intro k'
        unfold Saved.load
        rw [hentry]
      rw [hload, if_pos hentry]
      unfold wrapperEnter processGetCurrent
      rw [hsw.findSlotByPid, hsw.currentPid]
      cases hp : findSlotByPid k (k.table next).pid with
      | none => exact .inl ⟨rfl, rfl⟩
      | some p =>
        simp only
        rw [hsw.entry]
        -- a null entry point: the wrapper calls nothing and goes on as if the task had returned
        by_cases hnull : (k.table p).entry = 0
        · right
          refine ⟨p, ?_, ?_⟩
          · simp [hnull]
          · rw [if_pos hnull]
        · left
          refine ⟨?_, ?_⟩
          · simp [hnull]
          · rw [if_neg hnull]
    · left
      refine ⟨if_neg hentry, ?_⟩
      exact load_kernel sv _ (fun h => absurd h hentry) c.flag

theorem schedule_switchesTo (k : Kernel) :
    (switchesTo k = none ∧ schedule k = (k, none)) ∨
      ∃ next, switchesTo k = some next ∧ next ≠ curSlot k ∧
        schedule k = (k.handOver ⟨curSlot k, next⟩, some ⟨curSlot k, next⟩) := by
  unfold switchesTo
  by_cases hon : k.schedulingEnabled = true
  · rw [if_pos hon]
    cases hnext : nextReady k (curSlot k) with
    | none =>
      left
      refine ⟨rfl, ?_⟩
      unfold schedule
      rw [if_neg (by rw [hon]; decide), hnext]
    | some next =>
      by_cases hne : next = curSlot k
      · left
        refine ⟨by simp [hne], ?_⟩
        unfold schedule
        rw [if_neg (by rw [hon]; decide), hnext]
        exact if_pos hne
      · right
        exact ⟨next, by simp [hne], hne, schedule_switch hon hnext hne⟩
  · rw [if_neg hon]
    left
    refine ⟨rfl, ?_⟩
    unfold schedule
    rw [if_pos (eq_false_of_ne_true hon)]

/-- `process_sleep` calls `schedule` on the table `scheduledIn` names. -/
theorem processSleep_eq (k : Kernel) (now ticks : ℕ) :
    processSleep k now ticks =
      match scheduledIn k (.sleep now ticks) with
      | none => (k, none)
      | some k' => schedule k' := by
  unfold processSleep scheduledIn
  cases findSlotByPid k k.currentPid with
  | none => rfl
  | some slot =>
    by_cases hpid : k.currentPid ≤ 1
    · simp only [hpid, if_true]
    · simp only [hpid, if_false]

theorem scheduledIn_sleep {now ticks : ℕ} (h : scheduledIn k (.sleep now ticks) = some k') :
    (∀ i, (k.table i).SameOwner (k'.table i)) ∧ k'.pmm = k.pmm := by
  unfold scheduledIn at h
  cases hslot : findSlotByPid k k.currentPid with
  | none =>
    rw [hslot] at h
    cases h
  | some slot =>
    rw [hslot] at h
    have howner : (k.table slot).SameOwner
        { k.table slot with state := .blocked, wakeTick := wrap32 (now + ticks) } :=
      ⟨rfl, rfl, rfl, rfl, rfl, rfl⟩
    cases (Option.ite_none_left_eq_some.mp h).2
    exact ⟨howner.setProc, rfl⟩

namespace LeavesStacks

theorem keep (h : StackPages boot k taken) (hkern : m'.kern = k) : LeavesStacks boot m m' taken none :=
  ⟨k, h, .inl ⟨rfl, hkern⟩⟩

/-- The table in front of `schedule` agrees with the ledger; so does what the call leaves. -/
theorem switch (h : StackPages boot m.kern taken) (howner : ∀ i, (m.kern.table i).SameOwner (k.table i))
    (hpmm : k.pmm = m.kern.pmm) (log : List SwitchEvent) (c : Cpu) (how : Resume) {next : Slot}
    (hne : next ≠ curSlot k) :
    LeavesStacks boot m (contextSwitch log (k.handOver ⟨curSlot k, next⟩) c ⟨curSlot k, next⟩ how) taken
      (nullEntry k next) := by
  have hk := h.sameOwner howner hpmm
  obtain ⟨k', hsw, hkern⟩ := contextSwitch_kern (k := k) log c how hne
  have hk' : StackPages boot k' taken := hk.congr hsw.inUse hsw.kstack hsw.pmm
  refine ⟨k', hk', ?_⟩
  rcases hkern with ⟨hnone, hkern⟩ | ⟨p, hp, hkern⟩
  · exact .inl ⟨hnone, hkern⟩
  · refine .inr ⟨p, hp, hkern, ?_, ?_⟩
    · rw [hsw.inUse, (howner p).inUse]
    · rw [hsw.kstack, (howner p).kstack]

theorem call (h : StackPages boot m.kern taken) (howner : ∀ i, (m.kern.table i).SameOwner (k.table i))
    (hpmm : k.pmm = m.kern.pmm) (c : Cpu) :
    LeavesStacks boot m (m.callSchedule c (schedule k)) taken ((switchesTo k).bind (nullEntry k)) := by
  rcases schedule_switchesTo k with ⟨hnone, hrun⟩ | ⟨next, hsome, hne, hrun⟩
  · rw [hrun, hnone]
    exact keep (h.sameOwner howner hpmm) rfl
  · rw [hrun, hsome]
    exact switch h howner hpmm m.log c .call hne

theorem irq (h : StackPages boot m.kern taken) (c : Cpu) (now : ℕ) :
    LeavesStacks boot m (m.irqSchedule c now) taken
      ((switchesTo (processTick m.kern now)).bind (nullEntry (processTick m.kern now))) := by
  have howner := processTick_sameOwner m.kern now
  have hpmm : (processTick m.kern now).pmm = m.kern.pmm := countTick_pmm m.kern
  unfold Machine.irqSchedule
  rcases schedule_switchesTo (processTick m.kern now) with ⟨hnone, hrun⟩ | ⟨next, hsome, hne, hrun⟩
  · rw [hrun, hnone]
    exact keep (h.sameOwner howner hpmm) rfl
  · rw [hrun, hsome]
    exact switch h howner hpmm m.log _ _ hne

theorem sleep (h : StackPages boot m.kern taken) (c : Cpu) (now ticks : ℕ) :
    LeavesStacks boot m (m.callSchedule c (processSleep m.kern now ticks)) taken
      (wrapperDrops m (.sleep now ticks)) := by
  show LeavesStacks boot m _ taken
    ((scheduledIn m.kern (.sleep now ticks)).bind fun k => (switchesTo k).bind (nullEntry k))
  rw [processSleep_eq]
  cases hk : scheduledIn m.kern (.sleep now ticks) with
  | none => exact keep h rfl
  | some k =>
    have ⟨howner, hpmm⟩ := scheduledIn_sleep hk
    exact call h howner hpmm c

end LeavesStacks

theorem Machine.exec_stacks (h : StackPages boot m.kern taken) (hstep : m.exec a = some m') :
    LeavesStacks boot m m' (takenAfter m.kern taken a) (wrapperDrops m a) := by
  have ⟨c, hcpu, hmoves⟩ := Machine.exec_moves hstep
  cases hmoves with
  | tick now => exact .keep (h.sameOwner (processTick_sameOwner m.kern now) (countTick_pmm m.kern)) rfl
  | timer now => exact .irq h c now
  | yield => exact .call h (fun _ => .refl _) rfl c
  | create tick name fn => exact .keep (h.create tick name fn) rfl
  | sleep now ticks => exact .sleep h c now ticks
  | terminate pid => exact .keep (h.terminate pid) rfl
  | sysExit =>
    unfold MyMisu.sysExit takenAfter processGetCurrentPid
    split
    · exact .keep (h.terminate m.kern.currentPid) rfl
    · exact .keep h rfl
  | sysKill pid =>
    -- sys_kill refuses pid 0 and 1 as signed numbers, before the cast
    have htaken : takenAfter m.kern taken (.sysKill pid) =
        if pid ≤ 1 then taken else takenAfterTerminate m.kern taken (u32OfInt pid) := rfl
    rw [htaken]
    unfold MyMisu.sysKill
    by_cases hpid : pid ≤ 1
    · simp only [hpid, if_true]
      exact .keep h rfl
    · simp only [hpid, if_false]
      exact .keep (h.terminate (u32OfInt pid)) rfl
  | @taskReturn p hself =>
    refine ⟨m.kern, h, .inr ⟨p, ?_, rfl, rfl, rfl⟩⟩
    -- process_entry_wrapper takes its own entry out of use, and leaves its stack where it is
    show m.cpu.bind (fun c => c.ctx.self) = some p
    rw [hcpu]
    exact hself

/-! ## Runs -/

variable {l : StackLedger} {image : KernelImage}

theorem StackPages.step (h : StackPages boot m.kern taken) (hg : KeepsStack m a)
    (hstep : m.exec a = some m') : StackPages boot m'.kern (takenAfter m.kern taken a) := by
  obtain ⟨k, hk, ⟨-, hkern⟩ | ⟨p, hp, hkern, hinUse, hkstack⟩⟩ := Machine.exec_stacks h hstep
  · rw [hkern]
    exact hk
  · rw [hkern]
    apply hk.retire rfl
    intro hi
    rw [hkstack]
    exact hg p hp (hinUse ▸ hi)

theorem StackPages.not_step (h : StackPages boot m.kern taken) (hg : ¬ KeepsStack m a)
    (hstep : m.exec a = some m') : ¬ StacksAccounted boot m'.kern (takenAfter m.kern taken a) := by
  unfold KeepsStack at hg
  push Not at hg
  obtain ⟨p, hp, hi, hs⟩ := hg
  obtain ⟨k, hk, ⟨hnone, -⟩ | ⟨p', hp', hkern, hinUse, hkstack⟩⟩ := Machine.exec_stacks h hstep
  · rw [hp] at hnone
    cases hnone
  · have hpp : p' = p := Option.some.inj (hp'.symm.trans hp)
    rw [hkern]
    apply hk.not_accounted
    · rw [hinUse, hpp, hi]
    · rw [hkstack, hpp]
      exact hs

theorem StackPages.start {p : Pmm} (hboot : image.Boot p) : StackPages p (Machine.start p).kern [] where
  bitmap addr := by
    constructor
    · intro hmem
      cases hmem
    · rintro ⟨page, -, hset, hclear⟩
      change p.testBit page = true at hset
      rw [hset] at hclear
      cases hclear
  pages page := by
    constructor
    · intro hmem
      cases hmem
    · rintro ⟨i, hi, hs, -⟩
      exact absurd (Machine.start_booted hi).kstack hs
  nodup := List.nodup_nil
  distinct i j hi _ hs _ := absurd (Machine.start_booted hi).kstack hs
  kept _ hq := hq
  null := by
    have ⟨fuel, mem, mbi, es, hmap, hinit⟩ := hboot
    show p.testBit 0 = true
    rw [pmmInit_eq hmap hinit]
    by_contra hfree
    -- `pmm_init` reserves the first megabyte
    have hlow := ((boot_free_iff ..).mp (eq_false_of_ne_true hfree)).1
    exact absurd hlow (by decide)

/-- The stacks are accounted for in every run in which no task returns with its entry in use, and the
first such return leaks one. -/
theorem stacks_accounted_while_no_task_returns (image : KernelImage) (l : StackLedger)
    (h : (ledgerSystem image.Boot).Reach (fun l a => KeepsStack l.machine a) l) :
    StacksAccounted l.boot l.machine.kern l.taken ∧ ∀ a l', l.exec a = some l' →
      (StacksAccounted l'.boot l'.machine.kern l'.taken ↔ KeepsStack l.machine a) := by
  have hinv : StackPages l.boot l.machine.kern l.taken := by
    apply h.invariant
    · rintro l ⟨pmm, hboot, hl⟩
      rw [hl]
      exact .start hboot
    · intro l a l' _ hl hg hstep
      have ⟨m, hm, hl'⟩ := Option.map_eq_some_iff.mp hstep
      rw [← hl']
      exact hl.step hg hm
  refine ⟨hinv.toStacksAccounted, fun a l' hstep => ?_⟩
  have ⟨m, hm, hl'⟩ := Option.map_eq_some_iff.mp hstep
  rw [← hl']
  constructor
  · intro hacc
    by_contra hg
    exact hinv.not_step hg hm hacc
  · intro hg
    exact (hinv.step hg hm).toStacksAccounted

instance (m : Machine) (a : Label) : Decidable (KeepsStack m a) :=
  match hdrop : wrapperDrops m a with
  | none => .isTrue fun p hp => by
      rw [hdrop] at hp
      cases hp
  | some p =>
    decidable_of_iff ((m.kern.table p).inUse = true → (m.kern.table p).kstack = 0) (by
      constructor
      · intro h q hq
        rw [hdrop] at hq
        cases hq
        exact h
      · intro h
        exact h p hdrop)

/-- A run of allowed steps with its ledger, by computation. -/
theorem ledger_reach_of_run {g : StackLedger → Label → Prop} [∀ l a, Decidable (g l a)]
    {as : List Label} {p : StackLedger → Bool} {pmm : Pmm} (hboot : image.Boot pmm)
    (h : (as.foldlM (TransitionSystem.guarded g StackLedger.exec)
      ⟨pmm, Machine.start pmm, []⟩).any p = true) :
    ∃ l, (ledgerSystem image.Boot).Reach g l ∧ p l = true := by
  have ⟨l, hl, hp⟩ := (Option.any_eq_true _ _).mp h
  exact ⟨l, .foldlM (.init ⟨pmm, hboot, rfl⟩) hl, hp⟩

/-- Two processes are created and the first one is killed. -/
theorem stacks_accounted_after_kill :
    ∃ l, (ledgerSystem smallKernel.Boot).Reach (fun l a => KeepsStack l.machine a) l ∧
      l.taken = [0x201000] ∧ StacksAccounted l.boot l.machine.kern l.taken := by
  have hrun : ([.create 0 demoName 1, .create 0 demoName 1, .yield, .terminate 2].foldlM
      (TransitionSystem.guarded (fun l a => KeepsStack l.machine a) StackLedger.exec)
      ⟨fourPages, Machine.start fourPages, []⟩).any (fun l => decide (l.taken = [0x201000])) = true := by
    decide +kernel
  have ⟨l, hreach, htaken⟩ := ledger_reach_of_run smallKernel_boot hrun
  exact ⟨l, hreach, of_decide_eq_true htaken,
    (stacks_accounted_while_no_task_returns smallKernel l hreach).1⟩

/-- A task returns from its entry function: its entry is free, its stack is not. -/
theorem returned_task_leaks_stack :
    ¬ ∀ image l, (ledgerSystem (KernelImage.Boot image)).Reachable l →
      StacksAccounted l.boot l.machine.kern l.taken := by
  intro hall
  have hrun : ([.create 0 demoName 1, .yield, .taskReturn].foldlM
      (TransitionSystem.guarded (fun _ _ => True) StackLedger.exec)
      ⟨fourPages, Machine.start fourPages, []⟩).any (fun l => decide (0x200000 ∈ l.taken) &&
        decide (∀ i, (l.machine.kern.table i).inUse = true →
          (l.machine.kern.table i).kstack = 0)) = true := by
    decide +kernel
  have ⟨l, hreach, hleak⟩ := ledger_reach_of_run smallKernel_boot hrun
  rw [Bool.and_eq_true, decide_eq_true_iff, decide_eq_true_iff] at hleak
  have ⟨i, hi, hs, _⟩ := ((hall smallKernel l hreach).pages _).mp hleak.1
  exact hs (hleak.2 i hi)

end MyMisu
