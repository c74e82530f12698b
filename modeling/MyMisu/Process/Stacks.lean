import MyMisu.Process.Ownership

/-!
# The stack under the CPU

Every process executes on a page it got from the allocator at its creation, and the shell on the
stack of the kernel's image.  The pages stay in use, each under one process, until
`process_terminate` gives a stack back; the bitmap does not know that the CPU is still on it.
-/

namespace MyMisu

/-- Where the linker puts the end of the kernel and the 16 KB stack of `boot.s`. -/
structure KernelImage where
  kernelEnd : ℕ
  stackBottom : ℕ
  loaded : 0x100000 ≤ stackBottom
  inside : stackBottom + 16384 ≤ kernelEnd
  fits : kernelEnd < maxPages * pageSize

/-- The pages of a stack, by number. -/
def KernelImage.OnStack (image : KernelImage) : Stack → ℕ → Prop
  | .boot, n => image.stackBottom / pageSize ≤ n ∧ n ≤ (image.stackBottom + 16383) / pageSize
  | .page addr, n => addr / pageSize = n

/-- What `pmm_init` can leave. -/
def KernelImage.Boot (image : KernelImage) (p : Pmm) : Prop :=
  ∃ fuel mem mbi es, MultibootInfo.HasMap mbi mem es ∧
    pmmInit fuel mem mbi image.kernelEnd = some p

/-- `pmm_test_bit` of a page the bitmap has. -/
def Pmm.Used (p : Pmm) (n : ℕ) : Prop := ∃ h : n < maxPages, p.testBit ⟨n, h⟩ = true

/-- The page is in use, it is no other process's stack, and the next creation does not get it. -/
structure PageSafe (k : Kernel) (task n : ℕ) : Prop where
  used : k.pmm.Used n
  notOther : ∀ i, (k.table i).inUse = true → (k.table i).serial ≠ task →
    (k.table i).kstack / pageSize ≠ n
  notNext : (pmmAllocPage k.pmm).1 ≠ 0 → (pmmAllocPage k.pmm).1 / pageSize ≠ n

/-- The stack under the CPU is safe. -/
def StackSafe (image : KernelImage) (m : Machine) : Prop :=
  ∀ c n, m.cpu = some c → image.OnStack c.ctx.stack n → PageSafe m.kern c.ctx.task n

/-- The calls of the runs: no entry function returns, or is missing. -/
def StackCall : Label → Prop
  | .create _ _ fn => fn ≠ 0
  | .taskReturn => False
  | _ => True

/-- No process above pid 1 ends itself, and a creation that succeeds does not repeat a pid. -/
def SparesCurrent (m : Machine) : Label → Prop
  | .create _ _ _ =>
    (findUnusedSlot m.kern).isSome = true → (pmmAllocPage m.kern.pmm).1 ≠ 0 → FreshPid m.kern
  | .terminate pid => pid ≤ 1 ∨ pid ≠ m.kern.currentPid
  | .sysExit => m.kern.currentPid ≤ 1
  | .sysKill pid => pid ≤ 1 ∨ u32OfInt pid ≠ m.kern.currentPid
  | _ => True

/-! ## The invariant -/

-- the scan of the bitmap stays folded when entries are compared
attribute [local irreducible] pmmAllocPage

variable {image : KernelImage} {k k' : Kernel} {m m' : Machine}

/-- A page of the allocator in use, and none of the boot stack. -/
structure StackPage (image : KernelImage) (p : Pmm) (addr : ℕ) (page : Page) : Prop where
  addr : addr = page.val * pageSize
  used : p.testBit page = true
  notBoot : ¬ image.OnStack .boot page.val

structure TableStacks (image : KernelImage) (k : Kernel) : Prop where
  page : ∀ i, (k.table i).inUse = true → (k.table i).kstack ≠ 0 →
    ∃ page, StackPage image k.pmm (k.table i).kstack page
  distinct : ∀ i j, (k.table i).inUse = true → (k.table j).inUse = true →
    (k.table i).kstack ≠ 0 → (k.table i).kstack = (k.table j).kstack → i = j
  boot : ∀ n, image.OnStack .boot n → k.pmm.Used n
  saved : ∀ i sv, (k.table i).inUse = true → (k.table i).savedEsp = some sv →
    sv.ctx.stack = (k.table i).stack ∧ (sv.resume = .entry → (k.table i).entry ≠ 0)

/-- The current process is in use and its stack is under the CPU. -/
structure OnOwnStack (image : KernelImage) (m : Machine) : Prop where
  owned : Owned m
  current : (processGetCurrent m.kern).isSome = true
  table : TableStacks image m.kern
  stack : ∀ c i, m.cpu = some c → (m.kern.table i).inUse = true →
    (m.kern.table i).pid = m.kern.currentPid → c.ctx.stack = (m.kern.table i).stack

theorem KernelImage.boot_ge {n : ℕ} (h : image.OnStack .boot n) : 256 ≤ n := by
  have hlow := image.loaded
  have hn : image.stackBottom / 4096 ≤ n := h.1
  omega

theorem StackPage.div {p : Pmm} {addr : ℕ} {page : Page} (h : StackPage image p addr page) :
    addr / pageSize = page.val := by
  rw [h.addr]
  exact Nat.mul_div_cancel _ (by decide)

namespace TableStacks

/-- The number of a process's stack page tells the process. -/
theorem eq_of_page (h : TableStacks image k) {i j : Slot} (hi : (k.table i).inUse = true)
    (hj : (k.table j).inUse = true) (hstack : (k.table i).kstack ≠ 0)
    (hpage : (k.table j).kstack / pageSize = (k.table i).kstack / pageSize) : i = j := by
  have ⟨pi, hpi⟩ := h.page i hi hstack
  have haddr := hpi.addr
  by_cases hzero : (k.table j).kstack = 0
  · -- page 0 is the null pointer, no stack
    rw [hzero, hpi.div] at hpage
    rw [← hpage] at haddr
    simp at haddr
    exact absurd haddr hstack
  · have ⟨pj, hpj⟩ := h.page j hj hzero
    rw [hpj.div, hpi.div] at hpage
    apply h.distinct i j hi hj hstack
    rw [hpi.addr, hpj.addr, hpage]

theorem not_boot (h : TableStacks image k) {i : Slot} (hi : (k.table i).inUse = true) :
    ¬ image.OnStack .boot ((k.table i).kstack / pageSize) := by
  by_cases hzero : (k.table i).kstack = 0
  · intro hboot
    have hge := image.boot_ge hboot
    rw [hzero] at hge
    exact absurd hge (by decide)
  · have ⟨page, hpage⟩ := h.page i hi hzero
    rw [hpage.div]
    exact hpage.notBoot

/-- A page in use stays so, unless it is the stack of a process that ends. -/
theorem keeps (h : TableStacks image k) (hk : k.Keeps k') : TableStacks image k' where
  page i hi hstack := by
    have howner := hk.owner i hi
    rw [howner.kstack] at hstack ⊢
    have ⟨page, hpage⟩ := h.page i (hk.inUse hi) hstack
    refine ⟨page, hpage.addr, ?_, hpage.notBoot⟩
    rcases hk.used page hpage.used with hused | ⟨j, hj, hnot, hdiv⟩
    · exact hused
    · have hij : i = j := h.eq_of_page (hk.inUse hi) hj hstack (by rw [hdiv, hpage.div])
      rw [← hij, hi] at hnot
      cases hnot
  distinct i j hi hj hstack heq := by
    rw [(hk.owner i hi).kstack] at hstack heq
    rw [(hk.owner j hj).kstack] at heq
    exact h.distinct i j (hk.inUse hi) (hk.inUse hj) hstack heq
  boot n hn := by
    have ⟨hlt, hbit⟩ := h.boot n hn
    rcases hk.used ⟨n, hlt⟩ hbit with hused | ⟨j, hj, _, hdiv⟩
    · exact ⟨hlt, hused⟩
    · have hnot := h.not_boot hj
      rw [hdiv] at hnot
      exact absurd hn hnot
  saved i sv hi hsv := by
    have howner := hk.owner i hi
    rw [howner.savedEsp] at hsv
    rw [howner.stack, howner.entry]
    exact h.saved i sv (hk.inUse hi) hsv

/-- The page that is allocated is no stack of the table: the bits of those are set. -/
theorem kstack_ne_alloc (h : TableStacks image k) (hstack : (pmmAllocPage k.pmm).1 ≠ 0) {i : Slot}
    (hi : (k.table i).inUse = true) : (k.table i).kstack ≠ (pmmAllocPage k.pmm).1 := by
  have ⟨fresh, haddr, hfree, _⟩ := pmmAllocPage_fresh hstack
  intro heq
  have ⟨page, hpage⟩ := h.page i hi (by rw [heq]; exact hstack)
  have hsame : page = fresh := by
    apply Fin.ext
    rw [← hpage.div, heq, haddr]
    exact Nat.mul_div_cancel _ (by decide)
  have hused := hpage.used
  rw [hsame, hfree] at hused
  cases hused

theorem spawn (h : TableStacks image k) {slot : Slot} (hstack : (pmmAllocPage k.pmm).1 ≠ 0)
    (tick : ℕ) (name : CStr) {fn : ℕ} (hfn : fn ≠ 0) :
    TableStacks image (k.spawn slot tick name fn) := by
  have ⟨fresh, haddr, hfree, htaken⟩ := pmmAllocPage_fresh hstack
  have hnotBoot : ¬ image.OnStack .boot fresh.val := by
    intro hboot
    have ⟨_, hbit⟩ := h.boot fresh.val hboot
    rw [show (⟨fresh.val, _⟩ : Page) = fresh from rfl, hfree] at hbit
    cases hbit
  constructor
  · intro i hi hne
    by_cases his : i = slot
    · rw [his, Kernel.spawn_self]
      exact ⟨fresh, haddr, htaken, hnotBoot⟩
    · rw [Kernel.spawn_ne _ _ _ _ his] at hi hne ⊢
      have ⟨page, hpage⟩ := h.page i hi hne
      exact ⟨page, hpage.addr, pmmAllocPage_used hpage.used, hpage.notBoot⟩
  · intro i j hi hj hne heq
    by_cases his : i = slot
    · by_cases hjs : j = slot
      · rw [his, hjs]
      · rw [his, Kernel.spawn_self, Kernel.spawn_ne _ _ _ _ hjs] at heq
        rw [Kernel.spawn_ne _ _ _ _ hjs] at hj
        exact absurd heq.symm (h.kstack_ne_alloc hstack hj)
    · rw [Kernel.spawn_ne _ _ _ _ his] at hi hne heq
      by_cases hjs : j = slot
      · rw [hjs, Kernel.spawn_self] at heq
        exact absurd heq (h.kstack_ne_alloc hstack hi)
      · rw [Kernel.spawn_ne _ _ _ _ hjs] at hj heq
        exact h.distinct i j hi hj hne heq
  · intro n hn
    have ⟨hlt, hbit⟩ := h.boot n hn
    exact ⟨hlt, pmmAllocPage_used hbit⟩
  · intro i sv hi hsv
    by_cases his : i = slot
    · rw [his, Kernel.spawn_self] at hsv ⊢
      rw [← Option.some.inj hsv]
      refine ⟨?_, fun _ => hfn⟩
      -- the frame is built on the page that was just allocated, under the wrapper
      exact (if_neg hstack).symm
    · rw [Kernel.spawn_ne _ _ _ _ his] at hi hsv ⊢
      exact h.saved i sv hi hsv

theorem switch (h : TableStacks image k) {sw : Switch} {sv : Saved} (hk : k.Switched sw sv k')
    (hstack : sv.ctx.stack = (k.table sw.cur).stack) (hresume : sv.resume ≠ .entry) :
    TableStacks image k' where
  page i hi hne := by
    rw [hk.inUse] at hi
    rw [hk.kstack] at hne ⊢
    rw [hk.pmm]
    exact h.page i hi hne
  distinct i j hi hj hne heq := by
    rw [hk.inUse] at hi hj
    rw [hk.kstack] at hne heq
    rw [hk.kstack] at heq
    exact h.distinct i j hi hj hne heq
  boot := by
    rw [hk.pmm]
    exact h.boot
  saved i sv' hi hsv' := by
    rw [hk.inUse] at hi
    rw [hk.stack]
    by_cases hcur : i = sw.cur
    · rw [hcur, hk.cur.savedEsp] at hsv'
      rw [hcur, ← Option.some.inj hsv']
      exact ⟨hstack, fun hentry => absurd hentry hresume⟩
    · rw [(hk.other i hcur).savedEsp] at hsv'
      rw [hk.entry]
      exact h.saved i sv' hi hsv'

end TableStacks

theorem OnOwnStack.safe (h : OnOwnStack image m) : StackSafe image m := by
  intro c n hcpu hn
  have ⟨hcur, hpid⟩ := curSlot_inUse h.current
  rw [h.stack c _ hcpu hcur hpid] at hn
  have hserial := h.owned.own.executing c _ hcpu hcur hpid
  -- an entry without a stack of its own runs on the boot stack, the others on their page
  have hcases : m.kern.pmm.Used n ∧ ∀ i, (m.kern.table i).inUse = true →
      (m.kern.table i).serial ≠ c.ctx.task → (m.kern.table i).kstack / pageSize ≠ n := by
    unfold Process.stack at hn
    by_cases hzero : (m.kern.table (curSlot m.kern)).kstack = 0
    · rw [if_pos hzero] at hn
      refine ⟨h.table.boot n hn, ?_⟩
      intro i hi _ hdiv
      rw [← hdiv] at hn
      exact h.table.not_boot hi hn
    · rw [if_neg hzero] at hn
      have hn : (m.kern.table (curSlot m.kern)).kstack / pageSize = n := hn
      have ⟨page, hpage⟩ := h.table.page _ hcur hzero
      rw [← hn]
      constructor
      · rw [hpage.div]
        exact ⟨page.isLt, hpage.used⟩
      · intro i hi hother hdiv
        apply hother
        rw [← h.table.eq_of_page hcur hi hzero hdiv, hserial]
  refine ⟨hcases.1, hcases.2, ?_⟩
  -- what the allocator returns next is free, and the page in use is not
  intro hne hdiv
  have ⟨page, haddr, hfree, _⟩ := pmmAllocPage_fresh hne
  have ⟨hlt, hbit⟩ := hcases.1
  have hval : page.val = n := by
    rw [← hdiv, haddr]
    exact (Nat.mul_div_cancel _ (by decide)).symm
  rw [show (⟨n, hlt⟩ : Page) = page from Fin.ext hval.symm, hfree] at hbit
  cases hbit

/-! ## Steps -/

theorem current_iff : (processGetCurrent k).isSome = true ↔
    ∃ i, (k.table i).inUse = true ∧ (k.table i).pid = k.currentPid := by
  constructor
  · intro h
    exact ⟨_, curSlot_inUse h⟩
  · intro ⟨i, hi, hpid⟩
    exact findSlotByPid_isSome hi hpid

theorem not_ends_current {c : Cpu} {a : Label} {i : Slot} (hcall : StackCall a)
    (hg : SparesCurrent m a) (hpid : (m.kern.table i).pid = m.kern.currentPid) :
    ¬ Ends m c i a := by
  intro hends
  cases a with
  | terminate pid =>
    have hpid' := (findSlotByPid_some hends.2).2
    rcases hg with hle | hne
    · have hlt := hends.1
      omega
    · omega
  | sysExit =>
    have hle : m.kern.currentPid ≤ 1 := hg
    have hlt := hends.1
    omega
  | sysKill pid =>
    have hpid' := (findSlotByPid_some hends.2).2
    rcases hg with hle | hne
    · have hlt := hends.1
      omega
    · omega
  | taskReturn => exact hcall
  | _ => exact hends

theorem OnOwnStack.switch {c : Cpu} {how : Resume} {next : Slot} {log : List SwitchEvent}
    (howned : Owned (contextSwitch log (k.handOver ⟨curSlot k, next⟩) c ⟨curSlot k, next⟩ how))
    (htable : TableOwned k) (hstacks : TableStacks image k)
    (hstack : c.ctx.stack = (k.table (curSlot k)).stack) (hhow : how ≠ .entry)
    (hnext : nextReady k (curSlot k) = some next) (hne : next ≠ curSlot k) :
    OnOwnStack image
      (contextSwitch log (k.handOver ⟨curSlot k, next⟩) c ⟨curSlot k, next⟩ how) := by
  have hready := nextReady_isReady hnext
  have huse := (isReady_iff.mp hready).1
  have ⟨sv, hsv, _⟩ := htable.ready hready
  have ⟨hsvStack, hentry⟩ := hstacks.saved next sv huse hsv
  have hsw := switched k ⟨curSlot k, next⟩ ⟨c.ctx, how⟩ hne
  have honly : ∀ i, (((k.handOver ⟨curSlot k, next⟩).saveAt (curSlot k) ⟨c.ctx, how⟩).table i).inUse =
      true → (((k.handOver ⟨curSlot k, next⟩).saveAt (curSlot k) ⟨c.ctx, how⟩).table i).pid =
        ((k.handOver ⟨curSlot k, next⟩).saveAt (curSlot k) ⟨c.ctx, how⟩).currentPid → i = next := by
    intro i hi hpid
    rw [hsw.inUse] at hi
    rw [hsw.pid, hsw.currentPid] at hpid
    exact htable.pids i next hi huse hpid
  -- the entry function is there, so the wrapper calls it
  have hcalls : sv.resume = .entry → ∀ p,
      processGetCurrent ((k.handOver ⟨curSlot k, next⟩).saveAt (curSlot k) ⟨c.ctx, how⟩) = some p →
        (((k.handOver ⟨curSlot k, next⟩).saveAt (curSlot k) ⟨c.ctx, how⟩).table p).entry ≠ 0 := by
    intro hresume p hp
    have ⟨hpUse, hpPid⟩ := findSlotByPid_some hp
    rw [honly p hpUse hpPid, hsw.entry]
    exact hentry hresume
  have hload := load_kernel sv _ hcalls c.flag
  have hloadStack := (load_task sv
    ((k.handOver ⟨curSlot k, next⟩).saveAt (curSlot k) ⟨c.ctx, how⟩) c.flag).2
  rw [contextSwitch_handOver log c how hne hsv, hload] at howned ⊢
  refine ⟨howned, ?_, hstacks.switch hsw hstack hhow, ?_⟩
  · rw [current_iff]
    refine ⟨next, ?_, ?_⟩
    · rw [hsw.inUse, huse]
    · rw [hsw.pid, hsw.currentPid]
  · intro c' i hc' hi hpid
    cases hc'
    rw [hloadStack, honly i hi hpid, hsw.stack, hsvStack]

theorem Schedules.how {c c' : Cpu} {a : Label} {how : Resume} (h : Schedules m c k c' how a) :
    how ≠ .entry := by
  intro hentry
  cases a with
  | yield => cases h.2.2.symm.trans hentry
  | timer now => cases h.2.2.symm.trans hentry
  | sleep now ticks => cases h.2.2.symm.trans hentry
  | _ => exact h.elim

theorem keepsOwners_of_current {a : Label} (hcur : (processGetCurrent m.kern).isSome = true)
    (hg : SparesCurrent m a) : KeepsOwners m a := by
  cases a with
  | create tick name fn => exact hg
  | yield => exact .inl hcur
  | timer now =>
    have ⟨i, hi, hpid⟩ := current_iff.mp hcur
    have howner := processTick_sameOwner m.kern now i
    left
    rw [current_iff]
    refine ⟨i, ?_, ?_⟩
    · rw [howner.inUse, hi]
    · rw [howner.pid, hpid, (processTick_keeps m.kern now).currentPid]
  | _ => exact trivial

theorem OnOwnStack.step {a : Label} (h : OnOwnStack image m) (hcall : StackCall a)
    (hg : SparesCurrent m a) (hstep : m.exec a = some m') : OnOwnStack image m' := by
  have howned := h.owned.step (keepsOwners_of_current h.current hg) hstep
  have ⟨c, hcpu, heffect⟩ := Machine.exec_effect hstep
  have ⟨i, hi, hpid⟩ := current_iff.mp h.current
  cases heffect with
  | @keep k c' hkeep hends _ hstack _ =>
    -- the call has not ended the current process
    have hi' : (k.table i).inUse = true := by
      by_contra hnot
      exact not_ends_current hcall hg hpid (hends i hi (eq_false_of_ne_true hnot))
    refine ⟨howned, ?_, h.table.keeps hkeep, ?_⟩
    · rw [current_iff]
      refine ⟨i, hi', ?_⟩
      rw [(hkeep.owner i hi').pid, hpid]
      exact hkeep.currentPid.symm
    · intro c'' j hc' hj hjPid
      cases hc'
      have howner := hkeep.owner j hj
      rw [hstack, howner.stack]
      rw [howner.pid, hkeep.currentPid] at hjPid
      exact h.stack c j hcpu (hkeep.inUse hj) hjPid
  | @spawn tick fn name slot ha hslot hstack =>
    rw [ha] at hg hcall
    have hfresh := hg (by rw [hslot]; rfl) hstack
    have hne : ∀ j, (m.kern.table j).inUse = true → j ≠ slot :=
      fun j hj => ne_of_findUnusedSlot hslot hj
    refine ⟨howned, ?_, h.table.spawn hstack tick name hcall, ?_⟩
    · rw [current_iff]
      refine ⟨i, ?_, ?_⟩
      · rw [Kernel.spawn_ne _ _ _ _ (hne i hi), hi]
      · rw [Kernel.spawn_ne _ _ _ _ (hne i hi), hpid]
        rfl
    · intro c' j hc' hj hjPid
      by_cases hjs : j = slot
      · rw [hjs, Kernel.spawn_self] at hjPid
        exact absurd hjPid hfresh.1
      · rw [Kernel.spawn_ne _ _ _ _ hjs] at hj hjPid ⊢
        exact h.stack c' j hc' hj hjPid
  | @switch k c' how next hkeep howner hroute _ hnext hne =>
    have hcur : (processGetCurrent k).isSome = true := by
      rw [current_iff]
      refine ⟨i, ?_, ?_⟩
      · rw [(howner i).inUse, hi]
      · rw [(howner i).pid, hpid, hkeep.currentPid]
    have ⟨hj, hjPid⟩ := curSlot_inUse hcur
    have hstack : c'.ctx.stack = (k.table (curSlot k)).stack := by
      rw [hroute.ctx, (howner _).stack]
      rw [(howner _).pid, hkeep.currentPid] at hjPid
      exact h.stack c _ hcpu (hkeep.inUse hj) hjPid
    exact .switch howned (h.owned.table.keeps hkeep) (h.table.keeps hkeep) hstack hroute.how
      hnext hne

theorem boot_used {p : Pmm} (hboot : image.Boot p) {n : ℕ} (hn : image.OnStack .boot n) : p.Used n := by
  have ⟨fuel, mem, mbi, es, hmap, hinit⟩ := hboot
  have hinside := image.inside
  have hfits := image.fits
  have hge := image.boot_ge hn
  have hle : n ≤ (image.stackBottom + 16383) / 4096 := hn.2
  simp only [maxPages, bitmapSize, pageSize] at hfits
  have hlt : n < 32768 := by omega
  refine ⟨hlt, ?_⟩
  rw [pmmInit_eq hmap hinit]
  by_contra hfree
  have hkernel := ((boot_free_iff ..).mp (eq_false_of_ne_true hfree)).2.1
  simp only [kernelEndPage, pageSize] at hkernel
  omega

theorem OnOwnStack.start {p : Pmm} (hboot : image.Boot p) : OnOwnStack image (Machine.start p) where
  owned := .start p
  current := by
    rw [current_iff]
    exact ⟨1, rfl, rfl⟩
  table := {
    page := fun i hi hne => absurd (Machine.start_booted hi).kstack hne
    distinct := fun i j hi _ hne _ => absurd (Machine.start_booted hi).kstack hne
    boot := fun n hn => boot_used hboot hn
    saved := by
      intro i sv hi hsv
      rw [(Machine.start_booted hi).savedEsp] at hsv
      cases hsv }
  stack := by
    intro c i hcpu hi _
    cases hcpu
    unfold Process.stack
    rw [if_pos (Machine.start_booted hi).kstack]

theorem OnOwnStack.reach
    (h : (machineSystem image.Boot).Reach (fun m a => StackCall a ∧ SparesCurrent m a) m) :
    OnOwnStack image m := by
  apply h.invariant
  · intro s hs
    have ⟨pmm, hpmm, hs⟩ := hs
    rw [hs]
    exact .start hpmm
  · intro s a s' _ hs hg hstep
    exact hs.step hg.1 hg.2 hstep

/-- The stack under the CPU stays allocated in every run in which no process ends itself. -/
theorem stack_safe_while_current_spared (image : KernelImage) (m : Machine)
    (h : (machineSystem image.Boot).Reach (fun m a => StackCall a ∧ SparesCurrent m a) m) :
    StackSafe image m :=
  (OnOwnStack.reach h).safe

instance (a : Label) : Decidable (StackCall a) :=
  match a with
  | .create _ _ fn => inferInstanceAs (Decidable (fn ≠ 0))
  | .taskReturn => .isFalse id
  | .tick _ | .timer _ | .yield | .sleep _ _ | .terminate _ | .sysExit | .sysKill _ => .isTrue trivial

instance (m : Machine) (a : Label) : Decidable (SparesCurrent m a) :=
  match a with
  | .create _ _ _ => inferInstanceAs (Decidable (_ → _ → FreshPid m.kern))
  | .terminate pid => inferInstanceAs (Decidable (pid ≤ 1 ∨ pid ≠ m.kern.currentPid))
  | .sysExit => inferInstanceAs (Decidable (m.kern.currentPid ≤ 1))
  | .sysKill pid => inferInstanceAs (Decidable (pid ≤ 1 ∨ u32OfInt pid ≠ m.kern.currentPid))
  | .tick _ | .timer _ | .yield | .sleep _ _ | .taskReturn => .isTrue trivial

/-- A kernel of 128 KB with its stack in the last half. -/
def smallKernel : KernelImage where
  kernelEnd := 0x120000
  stackBottom := 0x110000
  loaded := by decide
  inside := by decide
  fits := by decide

theorem smallKernel_boot : smallKernel.Boot fourPages := by
  have hstandard : ∀ e ∈ fourPagesMap, e.Standard := by
    intro e he
    rw [List.mem_singleton.mp he]
    exact ⟨by decide, by decide, by decide, by decide⟩
  have hmap := bootInfo_hasMap 640 3072 hstandard (by decide)
  exact ⟨_, _, _, _, hmap, pmmInit_returns 0x120000 hmap⟩

/-- A task starts a second one, which kills it. -/
theorem stack_safe_after_kill :
    ∃ m, (machineSystem smallKernel.Boot).Reach (fun m a => StackCall a ∧ SparesCurrent m a) m ∧
      m.log.length = 2 ∧ StackSafe smallKernel m := by
  have hrun : ([.create 0 demoName 1, .yield, .create 0 demoName 1, .timer 1, .sysKill 2].foldlM
      (TransitionSystem.guarded (fun m a => StackCall a ∧ SparesCurrent m a) Machine.exec)
      (.start fourPages)).any (fun m => decide (m.log.length = 2)) = true := by
    decide +kernel
  have ⟨m, hreach, hlog⟩ := Machine.reach_of_run smallKernel.Boot smallKernel_boot hrun
  exact ⟨m, hreach, of_decide_eq_true hlog, stack_safe_while_current_spared smallKernel m hreach⟩

/-- A task calls `sys_exit` and goes on, on a stack that is free. -/
theorem exited_task_on_free_stack :
    ¬ ∀ image m, (machineSystem (KernelImage.Boot image)).Reach (fun _ a => StackCall a) m →
      StackSafe image m := by
  intro hall
  have hrun : ([.create 0 demoName 1, .yield, .sysExit].foldlM
      (TransitionSystem.guarded (fun _ a => StackCall a) Machine.exec) (.start fourPages)).any
        (fun m => (m.cpu.any fun c => decide (c.ctx.stack = .page 0x200000)) &&
          !m.kern.pmm.testBit 512) = true := by
    decide +kernel
  have ⟨m, hreach, hfree⟩ := Machine.reach_of_run smallKernel.Boot smallKernel_boot hrun
  rw [Bool.and_eq_true, Bool.not_eq_true'] at hfree
  have ⟨c, hcpu, hstack⟩ := (Option.any_eq_true _ _).mp hfree.1
  have hon : smallKernel.OnStack c.ctx.stack 512 := by
    rw [of_decide_eq_true hstack]
    show 0x200000 / pageSize = 512
    decide
  have ⟨_, hused⟩ := (hall smallKernel m hreach c 512 hcpu hon).used
  have hbit : m.kern.pmm.testBit 512 = true := hused
  rw [hfree.2] at hbit
  cases hbit

end MyMisu
