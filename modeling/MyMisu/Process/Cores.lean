import MyMisu.Process.Parked
import MyMisu.Process.StackLayout

/-!
# Many processes on one CPU

The machine of the scheduler with the registers and the memory its processes run in.  Between two
calls the process on the CPU runs code of its own; a switch runs `context_switch`.  To the process
that makes it this call is a return: however long the others run and whatever they call, the process
goes on behind its call with its registers and its stack, as on a CPU of its own.
-/

namespace MyMisu

open WordMemory X86

/-! ## Runs -/

/-- The call of `context_switch` that a step makes. -/
def Machine.switchOf (m : Machine) : Label → Option Switch
  | .yield => (processYield m.kern).2
  | .sleep now ticks => (processSleep m.kern now ticks).2
  | .timer now => (schedule (processTick m.kern now)).2
  | _ => none

/-- The slot and the stack of the process that a step creates. -/
def Machine.spawnOf (m : Machine) : Label → Option (Slot × ℕ)
  | .create _ _ _ =>
    (findUnusedSlot m.kern).bind fun slot =>
      if (pmmAllocPage m.kern.pmm).1 = 0 then none else some (slot, (pmmAllocPage m.kern.pmm).1)
  | _ => none

/-- The process in the slot is off the CPU. -/
structure Kernel.Waits (k : Kernel) (i : Slot) : Prop where
  inUse : (k.table i).inUse = true
  saved : (k.table i).savedEsp.isSome = true
  off : i ≠ curSlot k

/-- `parked` remembers where each process off the CPU goes on: behind its call of `context_switch`, or
at its start. -/
structure Cores where
  machine : Machine
  cpu : X86.Cpu
  parked : Slot → Option X86.Cpu

/-- The process on the CPU runs code up to some state, or makes a call. -/
inductive CoreOp
  | work (t : X86.Cpu)
  | call (a : Label)

namespace Cores

def switch (c : Cores) (m : Machine) (sw : Switch) : Cores where
  machine := m
  cpu := X86.run c.cpu contextSwitchCode
  parked := Function.update c.parked sw.cur (some (X86.exec c.cpu .ret))

def spawn (c : Cores) (m : Machine) (slot : Slot) (stack wrapper oldEspPtr : Word) : Cores where
  machine := m
  cpu := { c.cpu with mem := spawnMem c.cpu.mem stack wrapper oldEspPtr }
  parked := Function.update c.parked slot (some (newCore c.cpu.mem stack wrapper))

def exec (image : TableImage) (wrapper : Word) (c : Cores) : CoreOp → Option Cores
  | .work t => some { c with cpu := t }
  | .call a =>
    (c.machine.exec a).map fun m =>
      match c.machine.switchOf a with
      | some sw => c.switch m sw
      | none =>
        match c.machine.spawnOf a with
        | some (slot, stack) =>
          c.spawn m slot (BitVec.ofNat 32 stack) wrapper (image.savedEspAt slot)
        | none => { c with machine := m }

/-- The code of a process leaves the stacks of the others and their `saved_esp` alone, a call of
`context_switch` is made with its arguments on the stack, and no process ends itself. -/
def Allowed (image : TableImage) (c : Cores) : CoreOp → Prop
  | .work t => ∀ i, c.machine.kern.Waits i → Set.EqOn t.mem c.cpu.mem
      (image.stackAt c.machine.kern i ∪ bytes (image.savedEspAt i) 4)
  | .call a => StackCall a ∧ SparesCurrent c.machine a ∧
      ∀ sw, c.machine.switchOf a = some sw →
        AtSwitch (image.stackAt c.machine.kern sw.cur) (image.savedEspAt sw.cur)
          (c.cpu.mem.readWord (image.savedEspAt sw.next)) c.cpu

end Cores

/-- From the boot on, with any contents of the registers and the memory. -/
def coreSystem (image : TableImage) (wrapper : Word) : TransitionSystem Cores CoreOp :=
  .ofPartial (fun c => (∃ pmm, image.Boot pmm ∧ c.machine = .start pmm) ∧ c.parked = fun _ => none)
    (Cores.exec image wrapper)

/-! ## What a call does -/

-- the scan of the bitmap stays folded when entries are compared
attribute [local irreducible] pmmAllocPage

/-- The table at a switch: the kernel `schedule` finds and the slot it selects. -/
structure SwitchesTo (m : Machine) (k : Kernel) (next : Slot) : Prop where
  keeps : m.kern.Keeps k
  owner : ∀ i, (m.kern.table i).SameOwner (k.table i)
  selected : nextReady k (curSlot k) = some next
  ne : next ≠ curSlot k

/-- The kernel's own process is not ended. -/
def IdleStays (k k' : Kernel) : Prop :=
  (k.table 0).inUse = true → (k.table 0).pid = 0 → (k'.table 0).inUse = true

inductive CallEffect (m : Machine) (a : Label) : Machine → Prop
  | keep {k : Kernel} {cpu : Option Cpu} : m.switchOf a = none → m.spawnOf a = none →
      m.kern.Keeps k → IdleStays m.kern k → CallEffect m a { kern := k, cpu := cpu, log := m.log }
  | spawn {tick fn : ℕ} {name : CStr} {slot : Slot} : m.switchOf a = none →
      m.spawnOf a = some (slot, (pmmAllocPage m.kern.pmm).1) →
      findUnusedSlot m.kern = some slot → (pmmAllocPage m.kern.pmm).1 ≠ 0 →
      CallEffect m a { m with kern := m.kern.spawn slot tick name fn }
  | switch {k : Kernel} {c : Cpu} {how : Resume} {next : Slot} :
      m.switchOf a = some ⟨curSlot k, next⟩ → SwitchesTo m k next → how ≠ .entry →
      CallEffect m a (contextSwitch m.log (k.handOver ⟨curSlot k, next⟩) c ⟨curSlot k, next⟩ how)

namespace CallEffect

variable {m m' : Machine} {a : Label}

theorem same {k : Kernel} (hswitch : m.switchOf a = none) (hspawn : m.spawnOf a = none)
    (hkeep : m.kern.Keeps k) (howner : ∀ i, (m.kern.table i).SameOwner (k.table i))
    (cpu : Option Cpu) : CallEffect m a { kern := k, cpu := cpu, log := m.log } := by
  apply keep hswitch hspawn hkeep
  intro hi _
  rw [(howner 0).inUse, hi]

theorem terminate (hswitch : m.switchOf a = none) (hspawn : m.spawnOf a = none) (pid : ℕ)
    (cpu : Option Cpu) :
    CallEffect m a { kern := (processTerminate m.kern pid).2, cpu := cpu, log := m.log } := by
  rcases processTerminate_cases m.kern pid with h | ⟨slot, hslot, hpid, _, hkeep, hother⟩
  · rw [h]
    exact same hswitch hspawn (.refl _) (fun _ => .refl _) cpu
  · apply keep hswitch hspawn hkeep
    intro hi hzero
    have hne : 0 ≠ slot := by
      intro hslot0
      have hfound := (findSlotByPid_some hslot).2
      rw [← hslot0] at hfound
      omega
    rw [hother 0 hne, hi]

theorem callSchedule {k : Kernel} {c : Cpu} (hswitch : m.switchOf a = (schedule k).2)
    (hspawn : m.spawnOf a = none) (hkeep : m.kern.Keeps k)
    (howner : ∀ i, (m.kern.table i).SameOwner (k.table i)) :
    CallEffect m a (m.callSchedule c (schedule k)) := by
  rcases schedule_cases k with h | ⟨next, _, hnext, hne, h⟩
  · rw [h] at hswitch ⊢
    exact same hswitch hspawn hkeep howner m.cpu
  · rw [h] at hswitch ⊢
    exact switch hswitch ⟨hkeep, howner, hnext, hne⟩ Resume.noConfusion

theorem irqSchedule {c : Cpu} (now : ℕ) : CallEffect m (.timer now) (m.irqSchedule c now) := by
  have hkeep := processTick_keeps m.kern now
  have howner := processTick_sameOwner m.kern now
  have hswitch : m.switchOf (.timer now) = (schedule (processTick m.kern now)).2 := rfl
  unfold Machine.irqSchedule
  rcases schedule_cases (processTick m.kern now) with h | ⟨next, _, hnext, hne, h⟩
  · rw [h] at hswitch ⊢
    exact same hswitch rfl hkeep howner _
  · rw [h] at hswitch ⊢
    exact switch hswitch ⟨hkeep, howner, hnext, hne⟩ Resume.noConfusion

theorem sleep {c : Cpu} (now ticks : ℕ) :
    CallEffect m (.sleep now ticks) (m.callSchedule c (processSleep m.kern now ticks)) := by
  have hswitch : m.switchOf (.sleep now ticks) = (processSleep m.kern now ticks).2 := rfl
  unfold processSleep at *
  cases hslot : findSlotByPid m.kern m.kern.currentPid with
  | none =>
    rw [hslot] at hswitch
    exact same hswitch rfl (.refl _) (fun _ => .refl _) m.cpu
  | some slot =>
    rw [hslot] at hswitch
    by_cases hpid : m.kern.currentPid ≤ 1
    · simp only [hpid, if_true] at hswitch ⊢
      exact same hswitch rfl (.refl _) (fun _ => .refl _) m.cpu
    · simp only [hpid, if_false] at hswitch ⊢
      have hslotPid := (findSlotByPid_some hslot).2
      have howner : (m.kern.table slot).SameOwner
          { m.kern.table slot with state := .blocked, wakeTick := wrap32 (now + ticks) } :=
        ⟨rfl, rfl, rfl, rfl, rfl, rfl⟩
      -- the sleeper is not pid 0 or 1
      have hkeep : m.kern.Keeps (m.kern.setProc slot
          { m.kern.table slot with state := .blocked, wakeTick := wrap32 (now + ticks) }) := by
        apply Kernel.Keeps.setProc howner
        intro hle
        omega
      exact callSchedule hswitch rfl hkeep howner.setProc

theorem create {c : Cpu} (hcpu : m.cpu = some c) (tick fn : ℕ) (name : CStr) :
    CallEffect m (.create tick name fn)
      { kern := (processCreateKernel m.kern tick name fn).2, cpu := some c, log := m.log } := by
  have hspawn : m.spawnOf (.create tick name fn) = (findUnusedSlot m.kern).bind fun slot =>
      if (pmmAllocPage m.kern.pmm).1 = 0 then none
      else some (slot, (pmmAllocPage m.kern.pmm).1) := rfl
  cases hslot : findUnusedSlot m.kern with
  | none =>
    rw [hslot] at hspawn
    unfold processCreateKernel
    rw [hslot]
    exact same rfl hspawn (.refl _) (fun _ => .refl _) _
  | some slot =>
    rw [hslot, Option.bind_some] at hspawn
    unfold processCreateKernel
    rw [hslot]
    by_cases hstack : (pmmAllocPage m.kern.pmm).1 = 0
    · rw [if_pos hstack] at hspawn
      simp only [hstack, if_true]
      exact same rfl hspawn (.withPmm fun page h => pmmAllocPage_used h) (fun _ => .refl _) _
    · rw [if_neg hstack] at hspawn
      simp only [hstack, if_false]
      rw [← hcpu]
      exact spawn rfl hspawn hslot hstack

end CallEffect

theorem Machine.exec_call {m m' : Machine} {a : Label} (h : m.exec a = some m')
    (hcall : StackCall a) : CallEffect m a m' := by
  have ⟨c, hcpu, hmoves⟩ := Machine.exec_moves h
  cases hmoves with
  | tick now =>
    exact .same rfl rfl (processTick_keeps m.kern now) (processTick_sameOwner m.kern now) _
  | timer now => exact .irqSchedule now
  | yield => exact .callSchedule rfl rfl (.refl _) fun _ => .refl _
  | create tick name fn => exact .create hcpu tick fn name
  | sleep now ticks => exact .sleep now ticks
  | terminate pid => exact .terminate rfl rfl pid _
  | sysExit =>
    unfold MyMisu.sysExit
    split
    · exact .terminate rfl rfl _ _
    · exact .same rfl rfl (.refl _) (fun _ => .refl _) _
  | sysKill pid =>
    unfold MyMisu.sysKill
    split
    · exact .same rfl rfl (.refl _) (fun _ => .refl _) _
    · exact .terminate rfl rfl _ _
  | taskReturn _ => exact hcall.elim

variable {image : TableImage} {wrapper : Word} {k k' : Kernel} {i j : Slot}

/-! ## The invariant -/

theorem curSlot_eq (ht : TableOwned k) (hi : (k.table i).inUse = true)
    (hpid : (k.table i).pid = k.currentPid) : curSlot k = i := by
  have ⟨huse, hcur⟩ := curSlot_inUse (current_iff.mpr ⟨i, hi, hpid⟩)
  exact ht.pids _ _ huse hi (hcur.trans hpid.symm)

/-- Every process off the CPU is parked where it goes on. -/
def AllParked (image : TableImage) (k : Kernel) (mem : Mem) (parked : Slot → Option X86.Cpu) : Prop :=
  ∀ i, k.Waits i → ∃ core, parked i = some core ∧
    Parked mem (image.stackAt k i) (image.savedEspAt i) core

structure CoresInv (image : TableImage) (c : Cores) : Prop where
  own : OnOwnStack image.toKernelImage c.machine
  layout : Layout image c.machine.kern
  parked : AllParked image c.machine.kern c.cpu.mem c.parked

theorem AllParked.keeps {mem : Mem} {parked : Slot → Option X86.Cpu}
    (h : AllParked image k mem parked) (hk : k.Keeps k') (hcur : curSlot k' = curSlot k) :
    AllParked image k' mem parked := by
  intro i hi
  have howner := hk.owner i hi.inUse
  have hsaved := hi.saved
  have hoff := hi.off
  rw [howner.savedEsp] at hsaved
  rw [hcur] at hoff
  have hstack : image.stackAt k' i = image.stackAt k i := congrArg image.stackBytes howner.stack
  rw [hstack]
  exact h i ⟨hk.inUse hi.inUse, hsaved, hoff⟩

namespace CoresInv

variable {c c' : Cores}

theorem placed (h : CoresInv image c) (hi : (c.machine.kern.table i).inUse = true) :
    Placed image c.machine.kern i := h.layout.placed h.own.table hi

theorem cur_ne_zero (h : CoresInv image c) : curSlot c.machine.kern ≠ 0 := by
  intro hzero
  have hpid := (curSlot_inUse h.own.current).2
  rw [hzero, h.layout.idlePid] at hpid
  exact h.layout.current hpid.symm

theorem waits_ne_zero (h : CoresInv image c) (hi : c.machine.kern.Waits i) : i ≠ 0 := by
  intro hzero
  have hsaved := hi.saved
  rw [hzero, h.layout.unsaved] at hsaved
  cases hsaved

/-- The stack of the current process, as the context that `context_switch` saves. -/
def context (h : CoresInv image c) : StackContext where
  stack := image.stackAt c.machine.kern (curSlot c.machine.kern)
  oldEspPtr := image.savedEspAt (curSlot c.machine.kern)
  apart := stack_cell_disjoint (h.placed (curSlot_inUse h.own.current).1) _

/-- A switch leaves the stacks of the processes off the CPU alone. -/
theorem context_apart (h : CoresInv image c) (hi : c.machine.kern.Waits i) :
    Disjoint (image.stackAt c.machine.kern i ∪ bytes (image.savedEspAt i) 4)
      (h.context.stack ∪ h.context.cell) := by
  have hcur := (curSlot_inUse h.own.current).1
  have hpi := h.placed hi.inUse
  have hpc := h.placed hcur
  have hstacks := stack_disjoint h.own.table hpi hpc hi.inUse hcur hi.off
    ⟨h.waits_ne_zero hi, h.cur_ne_zero⟩
  rw [Set.disjoint_union_left, Set.disjoint_union_right, Set.disjoint_union_right]
  exact ⟨⟨hstacks, stack_cell_disjoint hpi _⟩, (stack_cell_disjoint hpc i).symm,
    cell_disjoint image hi.off⟩

theorem work (h : CoresInv image c) {t : X86.Cpu} (hg : c.Allowed image (.work t)) :
    CoresInv image { c with cpu := t } := by
  refine ⟨h.own, h.layout, ?_⟩
  intro i hi
  have ⟨core, hcore, hparked⟩ := h.parked i hi
  exact ⟨core, hcore, hparked.mono (hg i hi)⟩

theorem call_keep (h : CoresInv image c) {m : Machine} (hown : OnOwnStack image.toKernelImage m)
    (hkeep : c.machine.kern.Keeps m.kern) (hidle : IdleStays c.machine.kern m.kern) :
    CoresInv image { c with machine := m } := by
  have hcur : curSlot m.kern = curSlot c.machine.kern := by
    have ⟨huse, hpid⟩ := curSlot_inUse hown.current
    have howner := hkeep.owner _ huse
    rw [howner.pid, hkeep.currentPid] at hpid
    exact (curSlot_eq h.own.owned.table (hkeep.inUse huse) hpid).symm
  exact ⟨hown, h.layout.keeps hkeep (hidle h.layout.idle h.layout.idlePid),
    h.parked.keeps hkeep hcur⟩

theorem call_spawn (h : CoresInv image c) {tick fn : ℕ} {name : CStr} {slot : Slot} {m : Machine}
    (hown : OnOwnStack image.toKernelImage m) (hm : m.kern = c.machine.kern.spawn slot tick name fn)
    (hslot : findUnusedSlot c.machine.kern = some slot)
    (hstack : (pmmAllocPage c.machine.kern.pmm).1 ≠ 0) :
    CoresInv image (c.spawn m slot (BitVec.ofNat 32 (pmmAllocPage c.machine.kern.pmm).1) wrapper
      (image.savedEspAt slot)) := by
  have hlayout := h.layout.spawn hslot hstack tick name fn
  rw [← hm] at hlayout
  refine ⟨hown, hlayout, ?_⟩
  have hstackAt : image.stackAt m.kern slot =
      bytes (BitVec.ofNat 32 (pmmAllocPage c.machine.kern.pmm).1) pageSize := by
    unfold TableImage.stackAt
    rw [hm, Kernel.spawn_self]
    exact congrArg image.stackBytes (if_neg hstack)
  have hslotUse : (m.kern.table slot).inUse = true := by
    rw [hm, Kernel.spawn_self]
    rfl
  have hplaced := hlayout.placed hown.table hslotUse
  have hcell := stack_cell_disjoint hplaced slot
  have hne : 0 ≠ slot := ne_of_findUnusedSlot hslot h.layout.idle
  have hcur : curSlot m.kern = curSlot c.machine.kern := by
    have ⟨huse, hpid⟩ := curSlot_inUse h.own.current
    have hsame : m.kern.table (curSlot c.machine.kern) =
        c.machine.kern.table (curSlot c.machine.kern) := by
      rw [hm, Kernel.spawn_ne _ _ _ _ (ne_of_findUnusedSlot hslot huse)]
    apply curSlot_eq hown.owned.table
    · rw [hsame, huse]
    · rw [hsame, hpid, hm]
      rfl
  intro i hi
  show ∃ core, Function.update c.parked slot _ i = some core ∧
    Parked (spawnMem c.cpu.mem _ wrapper (image.savedEspAt slot)) (image.stackAt m.kern i) _ core
  by_cases his : i = slot
  · rw [hstackAt] at hcell
    rw [his, hstackAt]
    exact ⟨_, Function.update_self .., .new c.cpu.mem _ wrapper hcell⟩
  · have hsame : m.kern.table i = c.machine.kern.table i := by
      rw [hm, Kernel.spawn_ne _ _ _ _ his]
    have hwaits : c.machine.kern.Waits i := by
      refine ⟨?_, ?_, ?_⟩
      · rw [← hsame]
        exact hi.inUse
      · rw [← hsame]
        exact hi.saved
      · rw [← hcur]
        exact hi.off
    have hapart : Disjoint (image.stackAt m.kern i ∪ bytes (image.savedEspAt i) 4)
        (image.stackAt m.kern slot ∪ bytes (image.savedEspAt slot) 4) := by
      have hpi := hlayout.placed hown.table hi.inUse
      have hstacks := stack_disjoint hown.table hpi hplaced hi.inUse hslotUse his
        ⟨h.waits_ne_zero hwaits, hne.symm⟩
      rw [Set.disjoint_union_left, Set.disjoint_union_right, Set.disjoint_union_right]
      exact ⟨⟨hstacks, stack_cell_disjoint hpi slot⟩, (stack_cell_disjoint hplaced i).symm,
        cell_disjoint image his⟩
    have ⟨core, hcore, hparked⟩ := h.parked i hwaits
    have hsameStack : image.stackAt m.kern i = image.stackAt c.machine.kern i := by
      unfold TableImage.stackAt
      rw [hsame]
    rw [hstackAt] at hapart
    have hmem := (Parked.spawnMem_eqOn c.cpu.mem _ wrapper _).mono hapart.subset_compl_right
    rw [hsameStack] at hmem ⊢
    exact ⟨core, (Function.update_of_ne his ..).trans hcore, hparked.mono hmem⟩

end CoresInv

/-! ## Switches -/

namespace SwitchesTo

variable {m : Machine} {next : Slot}

theorem curSlot_eq (h : SwitchesTo m k next) (hown : OnOwnStack image.toKernelImage m) :
    curSlot k = curSlot m.kern := by
  have ⟨huse, hpid⟩ := curSlot_inUse hown.current
  apply MyMisu.curSlot_eq (hown.owned.table.keeps h.keeps)
  · rw [(h.owner _).inUse, huse]
  · rw [(h.owner _).pid, hpid, h.keeps.currentPid]

/-- The process switched to is off the CPU, with a saved context. -/
theorem waits (h : SwitchesTo m k next) (hown : OnOwnStack image.toKernelImage m) :
    m.kern.Waits next := by
  have hready := nextReady_isReady h.selected
  have ⟨sv, hsv, _⟩ := (hown.owned.table.keeps h.keeps).ready hready
  have howner := h.owner next
  have hne := h.ne
  rw [h.curSlot_eq hown] at hne
  refine ⟨?_, ?_, hne⟩
  · rw [← howner.inUse]
    exact (isReady_iff.mp hready).1
  · rw [← howner.savedEsp, hsv]
    rfl

/-- The table behind the switch: the wrapper of a new process finds its entry function. -/
theorem kern_eq (h : SwitchesTo m k next) (hown : OnOwnStack image.toKernelImage m)
    (log : List SwitchEvent) (c : Cpu) (how : Resume) :
    (contextSwitch log (k.handOver ⟨curSlot k, next⟩) c ⟨curSlot k, next⟩ how).kern =
      (k.handOver ⟨curSlot k, next⟩).saveAt (curSlot k) ⟨c.ctx, how⟩ := by
  have htable := hown.owned.table.keeps h.keeps
  have hready := nextReady_isReady h.selected
  have huse := (isReady_iff.mp hready).1
  have ⟨sv, hsv, _⟩ := htable.ready hready
  have hentry := ((hown.table.keeps h.keeps).saved next sv huse hsv).2
  have hsw := switched k ⟨curSlot k, next⟩ ⟨c.ctx, how⟩ h.ne
  rw [contextSwitch_handOver log c how h.ne hsv]
  apply load_kernel
  intro hresume p hp
  have ⟨hpUse, hpPid⟩ := findSlotByPid_some hp
  rw [hsw.inUse] at hpUse
  rw [hsw.pid, hsw.currentPid] at hpPid
  rw [htable.pids p next hpUse huse hpPid, hsw.entry]
  exact hentry hresume

end SwitchesTo

namespace CoresInv

variable {c c' : Cores} {next : Slot}

/-- The current process is at its call of `context_switch`. -/
theorem calls (h : CoresInv image c) {newEsp : Word}
    (hat : AtSwitch (image.stackAt c.machine.kern (curSlot c.machine.kern))
      (image.savedEspAt (curSlot c.machine.kern)) newEsp c.cpu) : h.context.Calls newEsp c.cpu :=
  ⟨hat.room, hat.oldEspPtr, hat.newEsp⟩

theorem call_switch (h : CoresInv image c) {m : Machine} (hown : OnOwnStack image.toKernelImage m)
    (hto : SwitchesTo c.machine k next) (hm : ∃ sv, m.kern =
      (k.handOver ⟨curSlot k, next⟩).saveAt (curSlot k) sv)
    (hat : AtSwitch (image.stackAt c.machine.kern (curSlot k)) (image.savedEspAt (curSlot k))
      (c.cpu.mem.readWord (image.savedEspAt next)) c.cpu) :
    CoresInv image (c.switch m ⟨curSlot k, next⟩) := by
  have ⟨sv, hkern⟩ := hm
  have hcur := hto.curSlot_eq h.own
  have hcalls := h.calls (by rw [← hcur]; exact hat)
  have hwaits := hto.waits h.own
  have hsw := switched k ⟨curSlot k, next⟩ sv hto.ne
  rw [← hkern] at hsw
  have hlayout : Layout image k := by
    apply h.layout.keeps hto.keeps
    rw [(hto.owner 0).inUse, h.layout.idle]
  have htable := h.own.owned.table.keeps hto.keeps
  have hready := nextReady_isReady hto.selected
  have huse := (isReady_iff.mp hready).1
  have hpid : (k.table next).pid ≠ 0 := by
    intro hzero
    have hslot := htable.pids next 0 huse hlayout.idle (hzero.trans hlayout.idlePid.symm)
    exact h.waits_ne_zero hwaits hslot
  have hnext : curSlot m.kern = next := by
    apply curSlot_eq hown.owned.table
    · rw [hsw.inUse, huse]
    · rw [hsw.pid, hsw.currentPid]
  refine ⟨hown, hlayout.switch hsw ?_ hpid, ?_⟩
  · rw [hcur]
    exact h.cur_ne_zero
  intro i hi
  have hstack : image.stackAt m.kern i = image.stackAt c.machine.kern i :=
    congrArg image.stackBytes ((hsw.stack i).trans (hto.owner i).stack)
  show ∃ core, Function.update c.parked (curSlot k) _ i = some core ∧
    Parked (X86.run c.cpu contextSwitchCode).mem (image.stackAt m.kern i) _ core
  rw [contextSwitch_mem hcalls, hstack, hcur]
  by_cases hic : i = curSlot c.machine.kern
  -- the process switched from goes on behind its call
  · rw [hic]
    exact ⟨_, Function.update_self .., .of_calls hcalls⟩
  · have howner := hsw.other i (by rw [hcur]; exact hic)
    have hwaiting : c.machine.kern.Waits i := by
      refine ⟨?_, ?_, hic⟩
      · rw [← (hto.owner i).inUse, ← howner.inUse]
        exact hi.inUse
      · rw [← (hto.owner i).savedEsp, ← howner.savedEsp]
        exact hi.saved
    have ⟨core, hcore, hparked⟩ := h.parked i hwaiting
    have hmem := (switchMem_eqOn_outside hcalls).mono (h.context_apart hwaiting).subset_compl_right
    exact ⟨core, (Function.update_of_ne hic ..).trans hcore, hparked.mono hmem⟩

theorem exec (h : CoresInv image c) {op : CoreOp} (hg : c.Allowed image op)
    (hstep : c.exec image wrapper op = some c') : CoresInv image c' := by
  cases op with
  | work t =>
    cases hstep
    exact h.work hg
  | call a =>
    have ⟨hcall, hspares, hat⟩ := hg
    have ⟨m, hm, hc'⟩ := Option.map_eq_some_iff.mp hstep
    have hown := h.own.step hcall hspares hm
    cases Machine.exec_call hm hcall with
    | keep hswitch hspawn hkeep hidle =>
      rw [hswitch, hspawn] at hc'
      rw [← hc']
      exact h.call_keep hown hkeep hidle
    | spawn hswitch hspawn hslot hstack =>
      rw [hswitch, hspawn] at hc'
      rw [← hc']
      exact h.call_spawn hown rfl hslot hstack
    | switch hswitch hto hhow =>
      rw [hswitch] at hc'
      rw [← hc']
      exact h.call_switch hown hto ⟨_, hto.kern_eq h.own _ _ _⟩ (hat _ hswitch)

theorem reach (h : (coreSystem image wrapper).Reach (Cores.Allowed image) c) : CoresInv image c := by
  apply h.invariant
  · intro c ⟨⟨pmm, hboot, hm⟩, hparked⟩
    have hstart := OnOwnStack.start hboot
    refine ⟨by rw [hm]; exact hstart, by rw [hm]; exact .start hboot, ?_⟩
    intro i hi
    have huse := hi.inUse
    have hsaved := hi.saved
    rw [hm] at huse hsaved
    rw [(Machine.start_booted huse).savedEsp] at hsaved
    cases hsaved
  · intro c op c' _ hi hg hstep
    exact hi.exec hg hstep

end CoresInv

/-- With room on its stack the current process can call `context_switch`. -/
theorem CoresInv.call_allowed {c : Cores} (h : CoresInv image c) {a : Label} {sw : Switch}
    {esp : Word} (returnAddress : Word)
    (hroom : bytes (esp - 32) 44 ⊆ image.stackAt c.machine.kern (curSlot c.machine.kern))
    (hsw : c.machine.switchOf a = some sw) (hcur : sw.cur = curSlot c.machine.kern)
    (hnext : c.machine.kern.Waits sw.next) (hcall : StackCall a) (hspares : SparesCurrent c.machine a) :
    let t := callAt c.cpu.mem esp returnAddress (image.savedEspAt sw.cur)
      (c.cpu.mem.readWord (image.savedEspAt sw.next))
    c.Allowed image (.work t) ∧ Cores.Allowed image { c with cpu := t } (.call a) := by
  intro t
  have hpushed : bytes esp 12 ⊆ h.context.stack :=
    Set.Subset.trans (bytes_subset (by bv_omega)) hroom
  have hkept : ∀ i, c.machine.kern.Waits i → Set.EqOn t.mem c.cpu.mem
      (image.stackAt c.machine.kern i ∪ bytes (image.savedEspAt i) 4) := by
    intro i hi
    have hapart := (h.context_apart hi).mono_right (Set.subset_union_left (t := h.context.cell))
    exact callAt_eqOn (hapart.mono_right hpushed)
  refine ⟨hkept, hcall, hspares, ?_⟩
  intro sw' hsw'
  cases hsw.symm.trans hsw'
  have hcalls : h.context.Calls (c.cpu.mem.readWord (image.savedEspAt sw.next)) t := by
    have ht := @callAt_calls h.context (c.cpu.mem.readWord (image.savedEspAt sw.next)) c.cpu.mem esp
      returnAddress hroom
    rw [show h.context.oldEspPtr = image.savedEspAt sw.cur by rw [hcur]; rfl] at ht
    exact ht
  have hnewEsp := readWord_congr ((hkept sw.next hnext).mono Set.subset_union_right)
  rw [hcur]
  exact ⟨hcalls.room, hcalls.oldEspPtr, hcalls.newEsp.trans hnewEsp.symm⟩

/-- In every run, a switch to a process takes it up with the registers and the stack with which it
made its own call of `context_switch`, as if that had returned at once, or at the start of
`process_entry_wrapper` on an empty stack if it is new. -/
theorem switch_goes_on (image : TableImage) (wrapper : Word) (c c' : Cores)
    (h : (coreSystem image wrapper).Reach (Cores.Allowed image) c) (a : Label) (sw : Switch)
    (hg : c.Allowed image (.call a)) (hsw : c.machine.switchOf a = some sw)
    (hstep : c.exec image wrapper (.call a) = some c') :
    ∃ core, c.parked sw.next = some core ∧
      GoesOn core (image.stackAt c.machine.kern sw.next) c'.cpu := by
  have hinv := CoresInv.reach h
  have ⟨hcall, _, hat⟩ := hg
  have ⟨m, hm, hc'⟩ := Option.map_eq_some_iff.mp hstep
  rw [hsw] at hc'
  rw [← hc']
  cases Machine.exec_call hm hcall with
  | keep hswitch _ _ _ =>
    rw [hsw] at hswitch
    cases hswitch
  | spawn hswitch _ _ _ =>
    rw [hsw] at hswitch
    cases hswitch
  | @switch k cpu how next hswitch hto hhow =>
    rw [hsw] at hswitch
    cases hswitch
    have hcur := hto.curSlot_eq hinv.own
    have hcalls := hinv.calls (by rw [← hcur]; exact hat _ hsw)
    have hwaits := hto.waits hinv.own
    have ⟨core, hcore, hparked⟩ := hinv.parked next hwaits
    have hapart := (hinv.context_apart hwaits).mono_left Set.subset_union_left
    exact ⟨core, hcore, hparked.goesOn hcalls hapart⟩

/-! ## A process and back -/

/-- `proc_table` behind the stack. -/
def smallTable : TableImage where
  toKernelImage := smallKernel
  procTable := 0x118000
  tableLoaded := by decide
  tableInside := by decide
  tableApart := by decide

/-- The shell has created a process, has yielded to it and is yielded to. -/
def spawnedMachine : Machine :=
  ((Machine.start fourPages).exec (.create 0 demoName 1)).get (by decide +kernel)

def yieldedMachine : Machine := (spawnedMachine.exec .yield).get (by decide +kernel)

def returnedMachine : Machine := (yieldedMachine.exec .yield).get (by decide +kernel)

/-- The process on the CPU at a call of `context_switch`, with the stack pointer at `esp`. -/
def Cores.calling (c : Cores) (image : TableImage) (sw : Switch) (esp returnAddress : Word) : Cores :=
  { c with
    cpu := callAt c.cpu.mem esp returnAddress (image.savedEspAt sw.cur)
      (c.cpu.mem.readWord (image.savedEspAt sw.next)) }

def shellSpawned : Cores :=
  Cores.spawn ⟨.start fourPages, ⟨fun _ => 0, 0, fun _ => 0, []⟩, fun _ => none⟩ spawnedMachine 2
    0x200000 0x6000 (smallTable.savedEspAt 2)

def shellCalls : Cores := shellSpawned.calling smallTable ⟨1, 2⟩ 0x113F00 0x4000

def taskRuns : Cores := shellCalls.switch yieldedMachine ⟨1, 2⟩

def taskCalls : Cores := taskRuns.calling smallTable ⟨2, 1⟩ 0x200F00 0x5000

theorem shellSpawned_reach :
    (coreSystem smallTable 0x6000).Reach (Cores.Allowed smallTable) shellSpawned := by
  have hspawn : (Machine.start fourPages).spawnOf (.create 0 demoName 1) = some (2, 0x200000) := by
    decide +kernel
  have hexec : (Machine.start fourPages).exec (.create 0 demoName 1) = some spawnedMachine :=
    (Option.some_get _).symm
  have hstart : (coreSystem smallTable 0x6000).Reach (Cores.Allowed smallTable)
      ⟨.start fourPages, ⟨fun _ => 0, 0, fun _ => 0, []⟩, fun _ => none⟩ :=
    .init ⟨⟨fourPages, smallKernel_boot, rfl⟩, rfl⟩
  refine .step (a := .call (.create 0 demoName 1)) hstart ⟨?_, ?_, fun sw hsw => nomatch hsw⟩ ?_
  · decide
  · decide +kernel
  · show Cores.exec smallTable 0x6000 _ _ = _
    unfold Cores.exec
    simp only
    rw [hexec, hspawn]
    rfl

/-- A process that can call `context_switch` is switched from. -/
theorem yield_reach {c : Cores} {m : Machine} {sw : Switch} {esp : Word} (returnAddress : Word)
    (h : (coreSystem image wrapper).Reach (Cores.Allowed image) c)
    (hroom : bytes (esp - 32) 44 ⊆ image.stackAt c.machine.kern (curSlot c.machine.kern))
    (hsw : c.machine.switchOf .yield = some sw) (hcur : sw.cur = curSlot c.machine.kern)
    (hnext : c.machine.kern.Waits sw.next) (hm : c.machine.exec .yield = some m) :
    (coreSystem image wrapper).Reach (Cores.Allowed image) (c.calling image sw esp returnAddress) ∧
      (c.calling image sw esp returnAddress).Allowed image (.call .yield) ∧
      (c.calling image sw esp returnAddress).exec image wrapper (.call .yield) =
        some ((c.calling image sw esp returnAddress).switch m sw) := by
  have ⟨hwork, hcall⟩ := (CoresInv.reach h).call_allowed returnAddress hroom hsw hcur hnext
    (show StackCall .yield from trivial) trivial
  refine ⟨.step h hwork rfl, hcall, ?_⟩
  have hexec : (c.calling image sw esp returnAddress).machine.exec .yield = some m := hm
  have hswitch : (c.calling image sw esp returnAddress).machine.switchOf .yield = some sw := hsw
  unfold Cores.exec
  simp only
  rw [hexec, hswitch]
  rfl

/-- The shell creates a process and switches to it, and is switched back to. -/
theorem switch_goes_on_shell :
    ∃ core, taskCalls.parked 1 = some core ∧
      GoesOn core (smallTable.stackAt taskCalls.machine.kern 1)
        (taskCalls.switch returnedMachine ⟨2, 1⟩).cpu := by
  have hyielded : spawnedMachine.exec .yield = some yieldedMachine := (Option.some_get _).symm
  have hreturned : yieldedMachine.exec .yield = some returnedMachine := (Option.some_get _).symm
  have hboot : (spawnedMachine.kern.table (curSlot spawnedMachine.kern)).stack = .boot := by
    decide +kernel
  have hpage : (yieldedMachine.kern.table (curSlot yieldedMachine.kern)).stack = .page 0x200000 := by
    decide +kernel
  have hroom : bytes ((0x113F00 : Word) - 32) 44 ⊆
      smallTable.stackAt spawnedMachine.kern (curSlot spawnedMachine.kern) := by
    rw [TableImage.stackAt, hboot]
    exact bytes_subset (by decide)
  have hroom' : bytes ((0x200F00 : Word) - 32) 44 ⊆
      smallTable.stackAt yieldedMachine.kern (curSlot yieldedMachine.kern) := by
    rw [TableImage.stackAt, hpage]
    exact bytes_subset (by decide)
  have hsw : spawnedMachine.switchOf .yield = some ⟨1, 2⟩ := by decide +kernel
  have hsw' : yieldedMachine.switchOf .yield = some ⟨2, 1⟩ := by decide +kernel
  have ⟨hshell, hallowed, hexec⟩ := yield_reach 0x4000 shellSpawned_reach hroom hsw
    (by decide +kernel) ⟨by decide +kernel, by decide +kernel, by decide +kernel⟩ hyielded
  have htask : (coreSystem smallTable 0x6000).Reach (Cores.Allowed smallTable) taskRuns :=
    .step hshell hallowed hexec
  have ⟨hcalls, hallowed', hexec'⟩ := yield_reach 0x5000 htask hroom' hsw'
    (by decide +kernel) ⟨by decide +kernel, by decide +kernel, by decide +kernel⟩ hreturned
  exact switch_goes_on smallTable 0x6000 taskCalls _ hcalls .yield ⟨2, 1⟩ hallowed' hsw' hexec'

end MyMisu
