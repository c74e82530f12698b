import MyMisu.Lib.WordMemory

/-!
# A 32-bit x86 machine

The general registers, the instruction pointer and a memory, with a record of the words read, and
the instructions that move whole register frames through the stack.  `pushad` and `popad` agree on
where a register lies in such a frame (`Reg.frameOffset`).
-/

namespace X86

open WordMemory

inductive Reg
  | eax | ecx | edx | ebx | esp | ebp | esi | edi
  deriving DecidableEq

structure Cpu where
  gpr : Reg → Word
  eip : Word
  mem : Mem
  reads : List Word

namespace Cpu

def setReg (s : Cpu) (r : Reg) (v : Word) : Cpu := { s with gpr := Function.update s.gpr r v }

/-- `mov r, [a]` -/
def load (s : Cpu) (r : Reg) (a : Word) : Cpu :=
  { s.setReg r (s.mem.readWord a) with reads := s.reads ++ [a] }

def store (s : Cpu) (a v : Word) : Cpu := { s with mem := s.mem.writeWord a v }

def pushWords (s : Cpu) (ws : List Word) : Cpu :=
  { s.setReg .esp (pushAll (s.mem, s.gpr .esp) ws).2 with
    mem := (pushAll (s.mem, s.gpr .esp) ws).1 }

/-- The word at the stack pointer goes to the register, or nowhere when that is `esp`, as `popad`
has it. -/
def popSlot (s : Cpu) (r : Reg) : Cpu :=
  if r = .esp then s.setReg .esp (s.gpr .esp + 4)
  else (s.load r (s.gpr .esp)).setReg .esp (s.gpr .esp + 4)

end Cpu

/-- The registers in the order `pushad` pushes them; `popad` takes them in the opposite order. -/
def pushadOrder : List Reg := [.eax, .ecx, .edx, .ebx, .esp, .ebp, .esi, .edi]

def popadOrder : List Reg := [.edi, .esi, .ebp, .esp, .ebx, .edx, .ecx, .eax]

inductive Instr
  | pushad
  | popad
  /-- `mov dst, [base + disp]` -/
  | load (dst base : Reg) (disp : Word)
  /-- `mov [base], src` -/
  | store (base src : Reg)
  | push (src : Reg)
  | pushImm (v : Word)
  | pop (dst : Reg)
  | addImm (dst : Reg) (v : Word)
  | ret

def exec (s : Cpu) : Instr → Cpu
  | .pushad => s.pushWords (pushadOrder.map s.gpr)
  | .popad => popadOrder.foldl Cpu.popSlot s
  | .load dst base disp => s.load dst (s.gpr base + disp)
  | .store base src => s.store (s.gpr base) (s.gpr src)
  | .push src => s.pushWords [s.gpr src]
  | .pushImm v => s.pushWords [v]
  | .pop dst => s.popSlot dst
  | .addImm dst v => s.setReg dst (s.gpr dst + v)
  | .ret =>
    { s.setReg .esp (s.gpr .esp + 4) with
      eip := s.mem.readWord (s.gpr .esp)
      reads := s.reads ++ [s.gpr .esp] }

/-- A piece of code without jumps. -/
def run (s : Cpu) (code : List Instr) : Cpu := code.foldl exec s

variable {s : Cpu} {r : Reg} {rs : List Reg}

@[simp] theorem setReg_self (s : Cpu) (r : Reg) (v : Word) : (s.setReg r v).gpr r = v := by
  simp [Cpu.setReg]

theorem setReg_other {q : Reg} (h : q ≠ r) (v : Word) : (s.setReg r v).gpr q = s.gpr q := by
  simp [Cpu.setReg, h]

@[simp] theorem setReg_mem (s : Cpu) (r : Reg) (v : Word) : (s.setReg r v).mem = s.mem := rfl

theorem exec_load {dst base : Reg} {disp a v : Word} (ha : s.gpr base + disp = a)
    (hv : s.mem.readWord a = v) :
    exec s (.load dst base disp) =
      { s.setReg dst v with reads := s.reads ++ [a] } := by
  subst ha hv
  rfl

theorem exec_store {base src : Reg} {a v : Word} (ha : s.gpr base = a) (hv : s.gpr src = v) :
    exec s (.store base src) = { s with mem := s.mem.writeWord a v } := by
  subst ha hv
  rfl

theorem ret_esp (s : Cpu) : (exec s .ret).gpr .esp = s.gpr .esp + 4 :=
  setReg_self s .esp _

theorem ret_gpr (h : r ≠ .esp) : (exec s .ret).gpr r = s.gpr r := setReg_other h _

theorem ret_mem (s : Cpu) : (exec s .ret).mem = s.mem := rfl

/-! ## The stack -/

/-- The memory with the stack pointer, as the pushes change it. -/
def Cpu.stack (s : Cpu) : Mem × Word := (s.mem, s.gpr .esp)

theorem pushWords_stack (s : Cpu) (ws : List Word) :
    (s.pushWords ws).stack = pushAll s.stack ws := by
  refine Prod.ext rfl ?_
  exact setReg_self s .esp _

theorem pushImms_gpr {ws : List Word} (h : r ≠ .esp) :
    (run s (ws.map .pushImm)).gpr r = s.gpr r := by
  induction ws generalizing s with
  | nil => rfl
  | cons w ws ih =>
    show (run (s.pushWords [w]) (ws.map .pushImm)).gpr r = _
    rw [ih]
    exact setReg_other h _

theorem setReg_stack (h : r ≠ .esp) (v : Word) : (s.setReg r v).stack = s.stack :=
  Prod.ext rfl (setReg_other (Ne.symm h) v)

theorem pushImms_stack (s : Cpu) (ws : List Word) :
    (run s (ws.map .pushImm)).stack = pushAll s.stack ws := by
  induction ws generalizing s with
  | nil => rfl
  | cons w ws ih =>
    show (run (s.pushWords [w]) (ws.map .pushImm)).stack = _
    rw [ih, pushWords_stack]
    rfl

/-! ## `pushad` -/

/-- Where `pushad` leaves a register above the new stack pointer. -/
def Reg.frameOffset (r : Reg) : Word := BitVec.ofNat 32 (4 * popadOrder.idxOf r)

@[simp] theorem pushad_esp (s : Cpu) : (exec s .pushad).gpr .esp = s.gpr .esp - 32 := by
  have hpushed := pushAll_snd (s.mem, s.gpr .esp) (pushadOrder.map s.gpr)
  exact (setReg_self s .esp _).trans hpushed

theorem pushad_eqOn (s : Cpu) :
    Set.EqOn (exec s .pushad).mem s.mem (bytes (s.gpr .esp - 32) 32)ᶜ :=
  pushAll_eqOn (s.mem, s.gpr .esp) (pushadOrder.map s.gpr)

theorem pushad_read (s : Cpu) (r : Reg) :
    (exec s .pushad).mem.readWord (s.gpr .esp - 32 + r.frameOffset) = s.gpr r := by
  have hlength : (pushadOrder.map s.gpr).length = 8 := List.length_map _
  have hlt : pushadOrder.idxOf r < (pushadOrder.map s.gpr).length := by
    rw [hlength]
    cases r <;> decide
  have hread := pushAll_read (s.mem, s.gpr .esp) (pushadOrder.map s.gpr) (by omega) hlt
  have hget : (pushadOrder.map s.gpr)[pushadOrder.idxOf r] = s.gpr r := by cases r <;> rfl
  -- the place counted from the end of the pushes and from their start
  have haddr : s.gpr .esp - 32 + r.frameOffset =
      s.gpr .esp - BitVec.ofNat 32 (4 * (pushadOrder.idxOf r + 1)) := by
    have hsum : r.frameOffset + BitVec.ofNat 32 (4 * (pushadOrder.idxOf r + 1)) = 32 := by
      cases r <;> rfl
    bv_omega
  rw [haddr, ← hget, ← hread]
  rfl

/-! ## `popad` -/

theorem popSlot_esp (s : Cpu) (r : Reg) : (s.popSlot r).gpr .esp = s.gpr .esp + 4 := by
  unfold Cpu.popSlot
  split <;> exact setReg_self _ _ _

theorem popSlot_mem (s : Cpu) (r : Reg) : (s.popSlot r).mem = s.mem := by
  unfold Cpu.popSlot
  split <;> rfl

theorem popSlot_self (h : r ≠ .esp) : (s.popSlot r).gpr r = s.mem.readWord (s.gpr .esp) := by
  rw [Cpu.popSlot, if_neg h]
  exact (setReg_other h _).trans (setReg_self s r _)

theorem popSlot_other {q : Reg} (hr : q ≠ r) (h : q ≠ .esp) : (s.popSlot r).gpr q = s.gpr q := by
  unfold Cpu.popSlot
  split
  · exact setReg_other h _
  · exact (setReg_other h _).trans (setReg_other hr _)

theorem popSlots_esp (s : Cpu) (rs : List Reg) :
    (rs.foldl Cpu.popSlot s).gpr .esp = s.gpr .esp + BitVec.ofNat 32 (4 * rs.length) := by
  induction rs generalizing s with
  | nil => simp
  | cons r rs ih =>
    rw [List.foldl_cons, ih, popSlot_esp, List.length_cons]
    bv_omega

theorem popSlots_mem (s : Cpu) (rs : List Reg) : (rs.foldl Cpu.popSlot s).mem = s.mem := by
  induction rs generalizing s with
  | nil => rfl
  | cons r rs ih => rw [List.foldl_cons, ih, popSlot_mem]

theorem popSlots_other (hr : r ∉ rs) (h : r ≠ .esp) :
    (rs.foldl Cpu.popSlot s).gpr r = s.gpr r := by
  induction rs generalizing s with
  | nil => rfl
  | cons q rs ih =>
    have ⟨hq, hrs⟩ := not_or.mp (mt List.mem_cons.mpr hr)
    rw [List.foldl_cons, ih hrs, popSlot_other hq h]

theorem popSlots_gpr (hnodup : rs.Nodup) (hr : r ∈ rs) (h : r ≠ .esp) :
    (rs.foldl Cpu.popSlot s).gpr r =
      s.mem.readWord (s.gpr .esp + BitVec.ofNat 32 (4 * rs.idxOf r)) := by
  induction rs generalizing s with
  | nil => cases hr
  | cons q rs ih =>
    have ⟨hq, hrs⟩ := List.nodup_cons.mp hnodup
    rw [List.foldl_cons]
    by_cases hqr : r = q
    · -- popped once, and not overwritten by the pops that follow
      subst hqr
      rw [popSlots_other hq h, popSlot_self h, List.idxOf_cons_self]
      simp
    · have hmem : r ∈ rs := (List.mem_cons.mp hr).resolve_left hqr
      rw [ih hrs hmem, popSlot_mem, popSlot_esp, List.idxOf_cons_ne _ (Ne.symm hqr)]
      congr 1
      bv_omega

/-- Pops read the words of the frame only. -/
theorem popSlots_reads (s : Cpu) (rs : List Reg) :
    ∃ new, (rs.foldl Cpu.popSlot s).reads = s.reads ++ new ∧
      ∀ a ∈ new, ∃ i < rs.length, a = s.gpr .esp + BitVec.ofNat 32 (4 * i) := by
  induction rs generalizing s with
  | nil => exact ⟨[], (List.append_nil _).symm, by simp⟩
  | cons r rs ih =>
    obtain ⟨later, hlater, hslots⟩ := ih (s.popSlot r)
    have hfirst : ∃ now, (s.popSlot r).reads = s.reads ++ now ∧ ∀ a ∈ now, a = s.gpr .esp := by
      unfold Cpu.popSlot
      split
      · exact ⟨[], (List.append_nil _).symm, by simp⟩
      · exact ⟨[s.gpr .esp], rfl, by simp⟩
    obtain ⟨now, hnow, hsp⟩ := hfirst
    refine ⟨now ++ later, by rw [List.foldl_cons, hlater, hnow, List.append_assoc], ?_⟩
    intro a ha
    rcases List.mem_append.mp ha with ha | ha
    · exact ⟨0, Nat.succ_pos _, by simp [hsp a ha]⟩
    · obtain ⟨i, hi, rfl⟩ := hslots a ha
      refine ⟨i + 1, Nat.succ_lt_succ hi, ?_⟩
      rw [popSlot_esp]
      bv_omega

theorem popad_esp (s : Cpu) : (exec s .popad).gpr .esp = s.gpr .esp + 32 :=
  popSlots_esp s popadOrder

theorem popad_mem (s : Cpu) : (exec s .popad).mem = s.mem := popSlots_mem s popadOrder

theorem popad_gpr (h : r ≠ .esp) :
    (exec s .popad).gpr r = s.mem.readWord (s.gpr .esp + r.frameOffset) :=
  popSlots_gpr (by decide) (by cases r <;> decide) h

end X86
