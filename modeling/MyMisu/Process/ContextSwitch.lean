import MyMisu.Lib.X86
import MyMisu.Process.Table

/-!
# The context switch

`context_switch` of `context_switch.s` on a machine with memory, and the frame
`process_create_kernel` builds on a new stack for it.
-/

namespace MyMisu

open WordMemory X86

def contextSwitchCode : List Instr :=
  [ .pushad,
    .load .eax .esp 36,
    .store .eax .esp,
    .load .esp .esp 40,
    .popad,
    .ret ]

/-- The words `process_create_kernel` puts on a new stack: `(uint32_t)process_entry_wrapper` and a
zero for each register.  The result is the memory and `sp`. -/
def buildFrame (mem : Mem) (stack processEntryWrapper : Word) : Mem × Word :=
  pushAll (push (mem, stack + BitVec.ofNat 32 pageSize) processEntryWrapper) (List.replicate 8 0)

/-- A context: the addresses of its stack, and `&proc_table[slot].saved_esp`, a word that lies on no
stack of its own. -/
structure StackContext where
  stack : Set Word
  oldEspPtr : Word
  apart : Disjoint stack (bytes oldEspPtr 4)

namespace StackContext

def cell (c : StackContext) : Set Word := bytes c.oldEspPtr 4

/-- At the start of `context_switch`, called on this context's stack to load `newEsp`: the return
address and the two arguments are on the stack, and there is room for the registers below. -/
structure Calls (c : StackContext) (newEsp : Word) (s : X86.Cpu) : Prop where
  room : bytes (s.gpr .esp - 32) 44 ⊆ c.stack
  oldEspPtr : s.mem.readWord (s.gpr .esp + 4) = c.oldEspPtr
  newEsp : s.mem.readWord (s.gpr .esp + 8) = newEsp

/-- The stacks are disjoint, and the `saved_esp` of the second is not on the stack of the first. -/
structure Apart (a b : StackContext) : Prop where
  both : Disjoint a.stack b.stack
  cell : Disjoint a.stack b.cell

end StackContext

variable {a b c : StackContext} {s t : X86.Cpu} {newEsp : Word} {r : Reg}

/-! ## What a switch does -/

/-- The memory once `*old_esp_ptr` is written. -/
def switchMem (c : StackContext) (s : X86.Cpu) : Mem :=
  (exec s .pushad).mem.writeWord c.oldEspPtr (s.gpr .esp - 32)

/-- The machine before `popad`. -/
def loaded (c : StackContext) (newEsp : Word) (s : X86.Cpu) : X86.Cpu :=
  { ((exec s .pushad).setReg .eax c.oldEspPtr).setReg .esp newEsp with
    mem := switchMem c s
    reads := s.reads ++ [s.gpr .esp + 4] ++ [s.gpr .esp + 8] }

@[simp] theorem loaded_esp : (loaded c newEsp s).gpr .esp = newEsp :=
  setReg_self ((exec s .pushad).setReg .eax c.oldEspPtr) .esp newEsp

namespace StackContext

/-- The words from the registers' frame up to the second argument are on the stack. -/
theorem Calls.sub (h : c.Calls newEsp s) {x : Word} {n : ℕ}
    (hx : (x - (s.gpr .esp - 32)).toNat + n ≤ 44) : bytes x n ⊆ c.stack :=
  (bytes_subset hx).trans h.room

theorem Calls.sub_arg (h : c.Calls newEsp s) {x : Word}
    (hx : x = s.gpr .esp ∨ x = s.gpr .esp + 4 ∨ x = s.gpr .esp + 8) : bytes x 4 ⊆ c.stack := by
  apply h.sub
  rcases hx with rfl | rfl | rfl <;> bv_omega

theorem Calls.sub_frame (h : c.Calls newEsp s) (r : Reg) :
    bytes (s.gpr .esp - 32 + r.frameOffset) 4 ⊆ c.stack := by
  apply h.sub
  rw [show s.gpr .esp - 32 + r.frameOffset - (s.gpr .esp - 32) = r.frameOffset by bv_omega]
  cases r <;> decide

/-- What lies above the registers' frame is read as before `pushad`. -/
theorem Calls.pushad_arg {x : Word}
    (hx : x = s.gpr .esp ∨ x = s.gpr .esp + 4 ∨ x = s.gpr .esp + 8) :
    (exec s .pushad).mem.readWord x = s.mem.readWord x := by
  have habove : Disjoint (bytes x 4) (bytes (s.gpr .esp - 32) 32) := by
    apply bytes_disjoint <;> rcases hx with rfl | rfl | rfl <;> bv_omega
  exact readWord_congr ((pushad_eqOn s).mono habove.subset_compl_right)

/-- The store to `*old_esp_ptr` leaves the stack alone. -/
theorem switchMem_eqOn (c : StackContext) (s : X86.Cpu) :
    Set.EqOn (switchMem c s) (exec s .pushad).mem c.stack :=
  writeWord_eqOn_of_disjoint _ c.apart

end StackContext

open StackContext

/-- The registers' frame is on the stack, each register at its place. -/
theorem switchMem_frame (h : c.Calls newEsp s) (r : Reg) :
    (switchMem c s).readWord (s.gpr .esp - 32 + r.frameOffset) = s.gpr r := by
  rw [readWord_congr ((switchMem_eqOn c s).mono (h.sub_frame r)), pushad_read]

theorem switchMem_arg (h : c.Calls newEsp s) {x : Word}
    (hx : x = s.gpr .esp ∨ x = s.gpr .esp + 4 ∨ x = s.gpr .esp + 8) :
    (switchMem c s).readWord x = s.mem.readWord x := by
  rw [readWord_congr ((switchMem_eqOn c s).mono (h.sub_arg hx)), Calls.pushad_arg hx]

/-- Outside the stack and `*old_esp_ptr` nothing is written. -/
theorem switchMem_eqOn_outside (h : c.Calls newEsp s) :
    Set.EqOn (switchMem c s) s.mem (c.stack ∪ c.cell)ᶜ := by
  intro x hx
  have hframe : x ∉ bytes (s.gpr .esp - 32) 32 := fun hin => hx (.inl (h.sub (by bv_omega) hin))
  rw [switchMem, writeWord_eqOn _ _ _ (fun hin => hx (.inr hin)), pushad_eqOn s hframe]

/-- The three moves between `pushad` and `popad`: the second argument is read from the old stack
after `*old_esp_ptr` is written. -/
theorem contextSwitch_loaded (h : c.Calls newEsp s) :
    run s contextSwitchCode = run (loaded c newEsp s) [.popad, .ret] := by
  have hold : (exec s .pushad).mem.readWord (s.gpr .esp + 4) = c.oldEspPtr := by
    rw [Calls.pushad_arg (.inr (.inl rfl)), h.oldEspPtr]
  have hnew : (switchMem c s).readWord (s.gpr .esp + 8) = newEsp := by
    rw [switchMem_arg h (.inr (.inr rfl)), h.newEsp]
  have hesp : ((exec s .pushad).setReg .eax c.oldEspPtr).gpr .esp = s.gpr .esp - 32 := by
    rw [setReg_other (by decide), pushad_esp]
  have hfirst : exec (exec s .pushad) (.load .eax .esp 36) =
      { (exec s .pushad).setReg .eax c.oldEspPtr with reads := s.reads ++ [s.gpr .esp + 4] } :=
    exec_load (by rw [pushad_esp]; bv_omega) hold
  have hsecond : exec (exec (exec s .pushad) (.load .eax .esp 36)) (.store .eax .esp) =
      { (exec s .pushad).setReg .eax c.oldEspPtr with
        mem := switchMem c s
        reads := s.reads ++ [s.gpr .esp + 4] } := by
    rw [hfirst]
    exact exec_store (setReg_self (exec s .pushad) .eax c.oldEspPtr) hesp
  -- still on the old stack, 40 above the registers
  have hargument : s.gpr .esp - 32 + 40 = s.gpr .esp + 8 := by bv_omega
  have hthird : exec (exec (exec (exec s .pushad) (.load .eax .esp 36)) (.store .eax .esp))
      (.load .esp .esp 40) = loaded c newEsp s := by
    rw [hsecond]
    exact exec_load ((congrArg (· + 40) hesp).trans hargument) hnew
  rw [← hthird]
  rfl

/-! ## Where it goes on -/

theorem contextSwitch_mem (h : c.Calls newEsp s) :
    (run s contextSwitchCode).mem = switchMem c s := by
  rw [contextSwitch_loaded h]
  show (exec (exec (loaded c newEsp s) .popad) .ret).mem = _
  rw [ret_mem, popad_mem]
  rfl

theorem contextSwitch_gpr (h : c.Calls newEsp s) (hr : r ≠ .esp) :
    (run s contextSwitchCode).gpr r = (switchMem c s).readWord (newEsp + r.frameOffset) := by
  rw [contextSwitch_loaded h]
  show (exec (exec (loaded c newEsp s) .popad) .ret).gpr r = _
  rw [ret_gpr hr, popad_gpr hr, loaded_esp]
  rfl

theorem contextSwitch_esp (h : c.Calls newEsp s) :
    (run s contextSwitchCode).gpr .esp = newEsp + 36 := by
  rw [contextSwitch_loaded h]
  show (exec (exec (loaded c newEsp s) .popad) .ret).gpr .esp = _
  rw [ret_esp, popad_esp, loaded_esp]
  bv_omega

theorem contextSwitch_eip (h : c.Calls newEsp s) :
    (run s contextSwitchCode).eip = (switchMem c s).readWord (newEsp + 32) := by
  rw [contextSwitch_loaded h]
  show (exec (loaded c newEsp s) .popad).mem.readWord _ = _
  rw [popad_mem, popad_esp, loaded_esp]
  rfl

/-- The words read: the two arguments on the old stack, then words of the frame on the new one. -/
theorem contextSwitch_reads (h : c.Calls newEsp s) :
    ∃ new,
      (run s contextSwitchCode).reads = s.reads ++ [s.gpr .esp + 4] ++ [s.gpr .esp + 8] ++ new ∧
      ∀ x ∈ new, ∃ i < 9, x = newEsp + BitVec.ofNat 32 (4 * i) := by
  rw [contextSwitch_loaded h]
  obtain ⟨new, hnew, hslots⟩ := popSlots_reads (loaded c newEsp s) popadOrder
  have hret : (run (loaded c newEsp s) [.popad, .ret]).reads =
      (exec (loaded c newEsp s) .popad).reads ++ [(exec (loaded c newEsp s) .popad).gpr .esp] := rfl
  refine ⟨new ++ [newEsp + 32], ?_, ?_⟩
  · rw [hret, popad_esp, loaded_esp, ← List.append_assoc]
    exact congrArg (· ++ [newEsp + 32]) hnew
  · intro x hx
    rcases List.mem_append.mp hx with hx | hx
    · obtain ⟨i, hi, rfl⟩ := hslots x hx
      exact ⟨i, Nat.lt_succ_of_lt hi, by rw [loaded_esp]⟩
    · -- the return address lies above the eight registers
      exact ⟨8, by decide, List.mem_singleton.mp hx⟩

/-! ## The round trip -/

/-- `r` is the call of `context_switch` that `s` starts, come back to its caller. -/
structure Resumes (s r : X86.Cpu) : Prop where
  eip : r.eip = s.mem.readWord (s.gpr .esp)
  esp : r.gpr .esp = s.gpr .esp + 4
  gpr : ∀ q, q ≠ .esp → r.gpr q = s.gpr q

theorem switchMem_cell (c : StackContext) (s : X86.Cpu) :
    (switchMem c s).readWord c.oldEspPtr = s.gpr .esp - 32 := readWord_writeWord_self _ _ _

/-- What `a` leaves on its stack is still there after the switch of `b`. -/
theorem stack_kept (hapart : a.Apart b) (hs : a.Calls newEsp s)
    (ht : b.Calls (t.mem.readWord a.oldEspPtr) t)
    (hkept : Set.EqOn t.mem (run s contextSwitchCode).mem (a.stack ∪ a.cell)) :
    Set.EqOn (switchMem b t) (switchMem a s) a.stack := by
  have hdisjoint : Disjoint a.stack (b.stack ∪ b.cell) :=
    Set.disjoint_union_right.mpr ⟨hapart.both, hapart.cell⟩
  -- first the steps of `b`, then its own call
  have hswitch := (switchMem_eqOn_outside ht).mono hdisjoint.subset_compl_right
  have hsteps := hkept.mono Set.subset_union_left
  rw [contextSwitch_mem hs] at hsteps
  exact hswitch.trans hsteps

theorem switch_back (hapart : a.Apart b) (hs : a.Calls newEsp s)
    (ht : b.Calls (t.mem.readWord a.oldEspPtr) t)
    (hkept : Set.EqOn t.mem (run s contextSwitchCode).mem (a.stack ∪ a.cell)) :
    Resumes s (run t contextSwitchCode) := by
  have hframe := stack_kept hapart hs ht hkept
  have hsaved : t.mem.readWord a.oldEspPtr = s.gpr .esp - 32 := by
    have hcell := hkept.mono Set.subset_union_right
    rw [contextSwitch_mem hs] at hcell
    rw [readWord_congr hcell, switchMem_cell]
  -- `b` loads the stack pointer `a` has published: the registers' frame of `a`
  rw [hsaved] at ht
  constructor
  case eip =>
    rw [contextSwitch_eip ht, show s.gpr .esp - 32 + 32 = s.gpr .esp by bv_omega,
      readWord_congr (hframe.mono (hs.sub_arg (.inl rfl))), switchMem_arg hs (.inl rfl)]
  case esp =>
    rw [contextSwitch_esp ht]
    bv_omega
  case gpr =>
    intro q hq
    rw [contextSwitch_gpr ht hq, readWord_congr (hframe.mono (hs.sub_frame q)), switchMem_frame hs]

/-! ## The first switch to a new process -/

variable {mem : Mem} {stack processEntryWrapper : Word}

theorem buildFrame_esp (mem : Mem) (stack processEntryWrapper : Word) :
    (buildFrame mem stack processEntryWrapper).2 + 36 = stack + BitVec.ofNat 32 pageSize := by
  rw [buildFrame, pushAll_snd]
  show stack + _ - 4 - BitVec.ofNat 32 (4 * 8) + 36 = _
  bv_omega

theorem buildFrame_return :
    (buildFrame mem stack processEntryWrapper).1.readWord
        ((buildFrame mem stack processEntryWrapper).2 + 32) = processEntryWrapper := by
  have hread := pushAll_read (mem, stack + BitVec.ofNat 32 pageSize)
    (processEntryWrapper :: List.replicate 8 0) (by simp) (i := 0) (by simp)
  have hsp : (buildFrame mem stack processEntryWrapper).2 + 32 =
      stack + BitVec.ofNat 32 pageSize - BitVec.ofNat 32 (4 * (0 + 1)) := by
    have htop := buildFrame_esp mem stack processEntryWrapper
    bv_omega
  rw [hsp, buildFrame, ← pushAll_cons, hread]
  rfl

/-- A word of the frame is one of the page. -/
theorem buildFrame_word (mem : Mem) (stack processEntryWrapper : Word) {i : ℕ} (hi : i < 9) :
    bytes ((buildFrame mem stack processEntryWrapper).2 + BitVec.ofNat 32 (4 * i)) 4 ⊆
      bytes stack pageSize := by
  have htop := buildFrame_esp mem stack processEntryWrapper
  apply bytes_subset
  unfold pageSize at *
  bv_omega

/-- `r` is the first switch to a process with its stack in `page`, made from `s`: it is at the start
of `process_entry_wrapper` on an empty stack, and has read the two arguments on the old stack and
words of the page. -/
structure EntersTask (page : ℕ) (processEntryWrapper : Word) (s r : X86.Cpu) : Prop where
  eip : r.eip = processEntryWrapper
  esp : (r.gpr .esp).toNat = page + pageSize
  reads : ∃ new, r.reads = s.reads ++ [s.gpr .esp + 4] ++ [s.gpr .esp + 8] ++ new ∧
    ∀ x ∈ new, page ≤ x.toNat ∧ x.toNat + 4 ≤ page + pageSize

theorem pmmAllocPage_end {p : Pmm} (hp : (pmmAllocPage p).1 ≠ 0) :
    (pmmAllocPage p).1 + pageSize ≤ maxPages * pageSize := by
  obtain ⟨page, haddr, _⟩ := pmmAllocPage_fresh hp
  have hlt := page.isLt
  rw [haddr, ← Nat.succ_mul]
  exact Nat.mul_le_mul_right pageSize hlt

theorem first_switch {page : ℕ} (hend : page + pageSize ≤ maxPages * pageSize)
    (hs : c.Calls (buildFrame mem (BitVec.ofNat 32 page) processEntryWrapper).2 s)
    (hpage : Disjoint (bytes (BitVec.ofNat 32 page) pageSize) (c.stack ∪ c.cell))
    (hbuilt : Set.EqOn s.mem (buildFrame mem (BitVec.ofNat 32 page) processEntryWrapper).1
      (bytes (BitVec.ofNat 32 page) pageSize)) :
    EntersTask page processEntryWrapper s (run s contextSwitchCode) := by
  have hmax : maxPages * pageSize = 2 ^ 27 := rfl
  have htop := buildFrame_esp mem (BitVec.ofNat 32 page) processEntryWrapper
  constructor
  case eip =>
    -- the switch away writes on the old stack and to `saved_esp` only
    have hkept := (switchMem_eqOn_outside hs).mono hpage.subset_compl_right
    have hword := (hkept.trans hbuilt).mono
      (buildFrame_word mem (BitVec.ofNat 32 page) processEntryWrapper (show 8 < 9 by decide))
    rw [contextSwitch_eip hs]
    exact (readWord_congr hword).trans buildFrame_return
  case esp =>
    rw [contextSwitch_esp hs, htop]
    unfold pageSize at *
    bv_omega
  case reads =>
    obtain ⟨new, hreads, hnew⟩ := contextSwitch_reads hs
    refine ⟨new, hreads, ?_⟩
    intro x hx
    obtain ⟨i, hi, rfl⟩ := hnew x hx
    unfold pageSize at *
    bv_omega

/-- A context that is switched away from, and later switched back to by another with a disjoint
stack that has left its stack and its `saved_esp` alone, goes on at its return address with its
registers; and the first switch to a process created on a page of the allocator enters
`process_entry_wrapper` at the top of the page. -/
theorem context_switch_round_trip :
    (∀ (a b : StackContext) (newEsp : Word) (s t : X86.Cpu), a.Apart b → a.Calls newEsp s →
      b.Calls (t.mem.readWord a.oldEspPtr) t →
      Set.EqOn t.mem (run s contextSwitchCode).mem (a.stack ∪ a.cell) →
      Resumes s (run t contextSwitchCode)) ∧
    ∀ (p : Pmm) (mem : Mem) (processEntryWrapper : Word) (c : StackContext) (s : X86.Cpu),
      let page := BitVec.ofNat 32 (pmmAllocPage p).1
      let frame := buildFrame mem page processEntryWrapper
      (pmmAllocPage p).1 ≠ 0 → c.Calls frame.2 s →
      Disjoint (bytes page pageSize) (c.stack ∪ c.cell) →
      Set.EqOn s.mem frame.1 (bytes page pageSize) →
      EntersTask (pmmAllocPage p).1 processEntryWrapper s (run s contextSwitchCode) := by
  constructor
  · intro a b newEsp s t hapart hs ht hkept
    exact switch_back hapart hs ht hkept
  · intro p mem processEntryWrapper c s page frame hp hs hpage hbuilt
    exact first_switch (pmmAllocPage_end hp) hs hpage hbuilt

/-! ### A switch there and back -/

/-- The machine at the start of `context_switch(oldEspPtr, newEsp)`, called with the stack pointer
12 above `esp`. -/
def callAt (mem : Mem) (esp returnAddress oldEspPtr newEsp : Word) : X86.Cpu where
  gpr r := if r = .esp then esp else 7
  eip := 0
  mem := (pushAll (mem, esp + 12) [newEsp, oldEspPtr, returnAddress]).1
  reads := []

theorem callAt_calls {esp returnAddress : Word} (hroom : bytes (esp - 32) 44 ⊆ c.stack) :
    c.Calls newEsp (callAt mem esp returnAddress c.oldEspPtr newEsp) := by
  have hread : ∀ i (hi : i < 3),
      (callAt mem esp returnAddress c.oldEspPtr newEsp).mem.readWord
        (esp + 12 - BitVec.ofNat 32 (4 * (i + 1))) = [newEsp, c.oldEspPtr, returnAddress][i] :=
    fun i hi => pushAll_read (mem, esp + 12) [newEsp, c.oldEspPtr, returnAddress] (by simp) hi
  constructor
  case room => exact hroom
  case oldEspPtr =>
    have hsecond := hread 1 (by decide)
    rwa [show esp + 12 - BitVec.ofNat 32 (4 * (1 + 1)) = esp + 4 by bv_omega] at hsecond
  case newEsp =>
    have hfirst := hread 0 (by decide)
    rwa [show esp + 12 - BitVec.ofNat 32 (4 * (0 + 1)) = esp + 8 by bv_omega] at hfirst

theorem callAt_eqOn {esp returnAddress oldEspPtr : Word} {kept : Set Word}
    (hkept : Disjoint kept (bytes esp 12)) :
    Set.EqOn (callAt mem esp returnAddress oldEspPtr newEsp).mem mem kept := by
  have hpushed : pushed (esp + 12) 3 = bytes esp 12 := by
    rw [pushed, show esp + 12 - BitVec.ofNat 32 (4 * 3) = esp by bv_omega]
  refine (pushAll_eqOn (mem, esp + 12) [newEsp, oldEspPtr, returnAddress]).mono ?_
  show kept ⊆ (pushed (esp + 12) 3)ᶜ
  rw [hpushed]
  exact hkept.subset_compl_right

def firstContext : StackContext where
  stack := bytes 0x1000 0x1000
  oldEspPtr := 0x8000
  apart := bytes_disjoint (by decide) (by decide)

def secondContext : StackContext where
  stack := bytes 0x3000 0x1000
  oldEspPtr := 0x8054
  apart := bytes_disjoint (by decide) (by decide)

/-- The first context hands over to a frame on the stack of the second. -/
def handOver (mem : Mem) (newEsp : Word) : X86.Cpu :=
  callAt mem 0x1F00 0x4000 firstContext.oldEspPtr newEsp

/-- The second context hands back. -/
def handBack (mem : Mem) : X86.Cpu :=
  callAt mem 0x3E00 0x5000 secondContext.oldEspPtr (mem.readWord firstContext.oldEspPtr)

def pageLeft : Page := ⟨300, by decide⟩

/-- Every page taken except one. -/
def onePageLeft : Pmm where
  bitmap := Bitmap.clear (fun _ => 0xFF#8) pageLeft
  totalPages := maxPages
  usedPages := maxPages - 1

theorem onePageLeft_alloc : (pmmAllocPage onePageLeft).1 = 0x12C000 := by
  have htest : ∀ j : Page, onePageLeft.bitmap.test j = decide (j ≠ pageLeft) := by
    intro j
    have hfull : Bitmap.test (fun _ => 0xFF#8 : Bitmap bitmapSize) j = true := Bitmap.test_full rfl
    rw [onePageLeft, Bitmap.test_clear, hfull, Bool.and_true]
  have hclear : onePageLeft.bitmap.test pageLeft = false := by
    rw [htest]
    exact decide_eq_false (not_not.mpr rfl)
  have hleast : ∀ j < pageLeft, onePageLeft.bitmap.test j = true := by
    intro j hj
    rw [htest]
    exact decide_eq_true hj.ne
  have haddr : (pmmAllocPage onePageLeft).1 = pageLeft.val * pageSize := by
    unfold pmmAllocPage
    rw [Bitmap.firstClear_eq_some hclear hleast]
  exact haddr

theorem context_switch_round_trip_two :
    Resumes (handOver (fun _ => 0) 0x3F00)
        (run (handBack (run (handOver (fun _ => 0) 0x3F00) contextSwitchCode).mem)
          contextSwitchCode) ∧
      let frame := buildFrame (fun _ => 0) (BitVec.ofNat 32 (pmmAllocPage onePageLeft).1) 0x6000
      EntersTask (pmmAllocPage onePageLeft).1 0x6000 (handOver frame.1 frame.2)
        (run (handOver frame.1 frame.2) contextSwitchCode) := by
  have hroom : bytes ((0x1F00 : Word) - 32) 44 ⊆ firstContext.stack := bytes_subset (by decide)
  have hroom' : bytes ((0x3E00 : Word) - 32) 44 ⊆ secondContext.stack := bytes_subset (by decide)
  have hapart : firstContext.Apart secondContext :=
    ⟨bytes_disjoint (by decide) (by decide), bytes_disjoint (by decide) (by decide)⟩
  constructor
  · let mem := (run (handOver (fun _ => 0) 0x3F00) contextSwitchCode).mem
    have hkept : Set.EqOn (handBack mem).mem mem (firstContext.stack ∪ firstContext.cell) :=
      callAt_eqOn (Set.disjoint_union_left.mpr
        ⟨bytes_disjoint (by decide) (by decide), bytes_disjoint (by decide) (by decide)⟩)
    have hsaved : (handBack mem).mem.readWord firstContext.oldEspPtr =
        mem.readWord firstContext.oldEspPtr := readWord_congr (hkept.mono Set.subset_union_right)
    have hcalls : secondContext.Calls ((handBack mem).mem.readWord firstContext.oldEspPtr)
        (handBack mem) := by
      rw [hsaved]
      exact callAt_calls hroom'
    exact context_switch_round_trip.1 firstContext secondContext 0x3F00 _ _ hapart
      (callAt_calls hroom) hcalls hkept
  · have haddr : BitVec.ofNat 32 (pmmAllocPage onePageLeft).1 = 0x12C000 := by
      rw [onePageLeft_alloc]
      rfl
    have haway : Disjoint (bytes (0x12C000 : Word) pageSize)
        (firstContext.stack ∪ firstContext.cell) :=
      Set.disjoint_union_right.mpr
        ⟨bytes_disjoint (by decide) (by decide), bytes_disjoint (by decide) (by decide)⟩
    refine context_switch_round_trip.2 onePageLeft (fun _ => 0) 0x6000 firstContext _ ?_
      (callAt_calls hroom) ?_ ?_
    · rw [onePageLeft_alloc]
      decide
    · rw [haddr]
      exact haway
    · rw [haddr]
      exact callAt_eqOn (bytes_disjoint (by decide) (by decide))

end MyMisu
