import MyMisu.Process.ContextSwitch

/-!
# Off the CPU

What a process that is switched from leaves on its stack and in its entry, and what the switch to it
makes of that: it goes on behind its call of `context_switch` with its registers and its stack.  The
frame of a new process is of the same kind.
-/

namespace MyMisu

open WordMemory X86

/-- At the start of `context_switch(oldEspPtr, newEsp)`, with room on the stack. -/
structure AtSwitch (stack : Set Word) (oldEspPtr newEsp : Word) (s : X86.Cpu) : Prop where
  room : bytes (s.gpr .esp - 32) 44 ⊆ stack
  oldEspPtr : s.mem.readWord (s.gpr .esp + 4) = oldEspPtr
  newEsp : s.mem.readWord (s.gpr .esp + 8) = newEsp

/-- The process goes on from `core`: its registers and its stack are as it left them, apart from the
36 bytes below the stack pointer that a switch uses. -/
structure GoesOn (core : X86.Cpu) (stack : Set Word) (t : X86.Cpu) : Prop where
  eip : t.eip = core.eip
  gpr : t.gpr = core.gpr
  kept : Set.EqOn t.mem core.mem (stack \ bytes (core.gpr .esp - 36) 36)

/-- A process that has not run yet: the registers are zero and the stack is empty. -/
def newCore (mem : Mem) (stack processEntryWrapper : Word) : X86.Cpu where
  gpr r := if r = .esp then stack + BitVec.ofNat 32 pageSize else 0
  eip := processEntryWrapper
  mem := mem
  reads := []

/-- The frame on a new stack and the pointer to it in the table. -/
def spawnMem (mem : Mem) (stack processEntryWrapper oldEspPtr : Word) : Mem :=
  (buildFrame mem stack processEntryWrapper).1.writeWord oldEspPtr
    (buildFrame mem stack processEntryWrapper).2

/-! ## A process off the CPU -/

/-- The stack of a process that goes on from `core`: below its stack pointer are the registers with
the address it goes on at, and `saved_esp` points to them. -/
structure Parked (mem : Mem) (stack : Set Word) (oldEspPtr : Word) (core : X86.Cpu) : Prop where
  saved : mem.readWord oldEspPtr = core.gpr .esp - 36
  frame : bytes (core.gpr .esp - 36) 36 ⊆ stack
  gpr : ∀ r, r ≠ .esp → mem.readWord (core.gpr .esp - 36 + r.frameOffset) = core.gpr r
  eip : mem.readWord (core.gpr .esp - 4) = core.eip
  kept : Set.EqOn mem core.mem (stack \ bytes (core.gpr .esp - 36) 36)

theorem frameOffset_bound (r : Reg) : r.frameOffset.toNat + 4 ≤ 32 := by cases r <;> decide

namespace Parked

variable {mem mem' : Mem} {stack : Set Word} {oldEspPtr : Word} {core : X86.Cpu}

theorem sub_gpr (h : Parked mem stack oldEspPtr core) (r : Reg) :
    bytes (core.gpr .esp - 36 + r.frameOffset) 4 ⊆ stack := by
  have hoffset := frameOffset_bound r
  refine Set.Subset.trans (bytes_subset ?_) h.frame
  rw [show core.gpr .esp - 36 + r.frameOffset - (core.gpr .esp - 36) = r.frameOffset by bv_omega]
  omega

theorem sub_eip (h : Parked mem stack oldEspPtr core) : bytes (core.gpr .esp - 4) 4 ⊆ stack := by
  refine Set.Subset.trans (bytes_subset ?_) h.frame
  rw [show core.gpr .esp - 4 - (core.gpr .esp - 36) = 32 by bv_omega]
  decide

/-- What leaves the stack and `saved_esp` alone leaves the process parked. -/
theorem mono (h : Parked mem stack oldEspPtr core)
    (hmem : Set.EqOn mem' mem (stack ∪ bytes oldEspPtr 4)) : Parked mem' stack oldEspPtr core where
  saved := by
    rw [readWord_congr (hmem.mono Set.subset_union_right), h.saved]
  frame := h.frame
  gpr r hr := by
    rw [readWord_congr (hmem.mono ((h.sub_gpr r).trans Set.subset_union_left)), h.gpr r hr]
  eip := by
    rw [readWord_congr (hmem.mono (h.sub_eip.trans Set.subset_union_left)), h.eip]
  kept := (hmem.mono (Set.sdiff_subset.trans Set.subset_union_left)).trans h.kept

/-- The process a switch leaves goes on as behind a return. -/
theorem of_calls {a : StackContext} {newEsp : Word} {s : X86.Cpu} (h : a.Calls newEsp s) :
    Parked (switchMem a s) a.stack a.oldEspPtr (X86.exec s .ret) := by
  have hesp : (X86.exec s .ret).gpr .esp - 36 = s.gpr .esp - 32 := by
    rw [ret_esp]
    bv_omega
  constructor
  case saved => rw [switchMem_cell, hesp]
  case frame =>
    rw [hesp]
    exact h.sub (by bv_omega)
  case gpr =>
    intro r hr
    rw [hesp, switchMem_frame h r, ret_gpr hr]
  case eip =>
    rw [ret_esp, show s.gpr .esp + 4 - 4 = s.gpr .esp by bv_omega, switchMem_arg h (.inl rfl)]
    rfl
  case kept =>
    rw [hesp]
    intro x ⟨hx, hout⟩
    have hframe : x ∉ bytes (s.gpr .esp - 32) 32 :=
      fun hin => hout (bytes_subset (by bv_omega) hin)
    rw [StackContext.switchMem_eqOn a s hx, pushad_eqOn s hframe]
    rfl

/-- A switch to the process takes it up where it goes on. -/
theorem goesOn {a : StackContext} {s : X86.Cpu} (h : Parked s.mem stack oldEspPtr core)
    (ha : a.Calls (s.mem.readWord oldEspPtr) s) (hapart : Disjoint stack (a.stack ∪ a.cell)) :
    GoesOn core stack (X86.run s contextSwitchCode) := by
  have hkept := (switchMem_eqOn_outside ha).mono hapart.subset_compl_right
  rw [h.saved] at ha
  constructor
  case eip =>
    rw [contextSwitch_eip ha, show core.gpr .esp - 36 + 32 = core.gpr .esp - 4 by bv_omega,
      readWord_congr (hkept.mono h.sub_eip), h.eip]
  case gpr =>
    ext1 r
    by_cases hr : r = .esp
    · rw [hr, contextSwitch_esp ha]
      bv_omega
    · rw [contextSwitch_gpr ha hr, readWord_congr (hkept.mono (h.sub_gpr r)), h.gpr r hr]
  case kept =>
    rw [contextSwitch_mem ha]
    exact (hkept.mono Set.sdiff_subset).trans h.kept

theorem new_esp (mem : Mem) (stack wrapper : Word) :
    (newCore mem stack wrapper).gpr .esp - 36 = (buildFrame mem stack wrapper).2 := by
  have htop := buildFrame_esp mem stack wrapper
  show stack + BitVec.ofNat 32 pageSize - 36 = _
  bv_omega

theorem idxOf_lt (r : Reg) : popadOrder.idxOf r < 8 := by cases r <;> decide

/-- The registers of a new frame are zero. -/
theorem buildFrame_gpr (mem : Mem) (stack wrapper : Word) (r : Reg) :
    (buildFrame mem stack wrapper).1.readWord
      ((buildFrame mem stack wrapper).2 + r.frameOffset) = 0 := by
  have hidx := idxOf_lt r
  have htop := buildFrame_esp mem stack wrapper
  -- the first word pushed is the address of the wrapper
  have hread := pushAll_read (mem, stack + BitVec.ofNat 32 pageSize)
    (wrapper :: List.replicate 8 0) (by simp) (i := 8 - popadOrder.idxOf r) (by simp; omega)
  rw [List.getElem_cons, dif_neg (by omega), List.getElem_replicate] at hread
  rw [Reg.frameOffset, show (buildFrame mem stack wrapper).2 +
      BitVec.ofNat 32 (4 * popadOrder.idxOf r) = stack + BitVec.ofNat 32 pageSize -
        BitVec.ofNat 32 (4 * (8 - popadOrder.idxOf r + 1)) by bv_omega,
    buildFrame, ← pushAll_cons, hread]

/-- A frame is built below the top of the stack, and the rest of the memory is left alone. -/
theorem buildFrame_eqOn (mem : Mem) (stack wrapper : Word) :
    Set.EqOn (buildFrame mem stack wrapper).1 mem
      (bytes (buildFrame mem stack wrapper).2 36)ᶜ := by
  have hsp : (buildFrame mem stack wrapper).2 =
      stack + BitVec.ofNat 32 pageSize - BitVec.ofNat 32 (4 * 9) := by
    have htop := buildFrame_esp mem stack wrapper
    bv_omega
  rw [hsp, buildFrame, ← pushAll_cons]
  exact pushAll_eqOn (mem, stack + BitVec.ofNat 32 pageSize) (wrapper :: List.replicate 8 0)

/-- A new process is set up on its stack and in its entry. -/
theorem spawnMem_eqOn (mem : Mem) (stack wrapper cell : Word) :
    Set.EqOn (spawnMem mem stack wrapper cell) mem (bytes stack pageSize ∪ bytes cell 4)ᶜ := by
  intro x hx
  have hframe : x ∉ bytes (buildFrame mem stack wrapper).2 36 := by
    intro hin
    apply hx
    left
    have htop := buildFrame_esp mem stack wrapper
    refine bytes_subset ?_ hin
    unfold pageSize at *
    bv_omega
  exact (writeWord_eqOn _ _ _ fun hin => hx (.inr hin)).trans (buildFrame_eqOn mem stack wrapper hframe)

theorem new {cell : Word} (mem : Mem) (stack wrapper : Word)
    (happart : Disjoint (bytes stack pageSize) (bytes cell 4)) :
    Parked (spawnMem mem stack wrapper cell) (bytes stack pageSize) cell
      (newCore mem stack wrapper) := by
  have hcell : Set.EqOn (spawnMem mem stack wrapper cell) (buildFrame mem stack wrapper).1
      (bytes stack pageSize) := writeWord_eqOn_of_disjoint _ happart
  have htop := buildFrame_esp mem stack wrapper
  constructor
  case saved =>
    rw [new_esp]
    exact readWord_writeWord_self _ _ _
  case frame =>
    rw [new_esp]
    apply bytes_subset
    unfold pageSize at *
    bv_omega
  case gpr =>
    intro r hr
    have hword := buildFrame_word mem stack wrapper ((idxOf_lt r).trans (by decide))
    rw [new_esp, Reg.frameOffset, readWord_congr (hcell.mono hword)]
    exact (buildFrame_gpr mem stack wrapper r).trans (if_neg hr).symm
  case eip =>
    have hword := buildFrame_word mem stack wrapper (show 8 < 9 by decide)
    rw [show (newCore mem stack wrapper).gpr .esp - 4 = (newCore mem stack wrapper).gpr .esp - 36 + 32
      by bv_omega, new_esp]
    exact (readWord_congr (hcell.mono hword)).trans buildFrame_return
  case kept =>
    rw [new_esp]
    intro x ⟨hx, hout⟩
    rw [hcell hx, buildFrame_eqOn mem stack wrapper hout]
    rfl

end Parked

end MyMisu
