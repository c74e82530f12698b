import MyMisu.Interrupt.Int80
import MyMisu.Lib.Pic8259
import MyMisu.Lib.TransitionSystem

/-!
# The interrupt controllers

`pic_remap` and what `irq_handler` sends to the controllers, in runs in which the devices raise and
drop their lines at any time and any code may run between two interrupts, with the interrupt flag as
it likes.
-/

namespace MyMisu

open WordMemory Pic8259

/-- `outb(port, val)` -/
abbrev PortWrite := BitVec 16 × BitVec 8

/-- What a write does to the controllers. -/
def outb (p : Pair) (w : PortWrite) : Pair :=
  if w.1 = 0x20 then { p with master := p.master.command w.2 }
  else if w.1 = 0x21 then { p with master := p.master.data w.2 }
  else if w.1 = 0xA0 then { p with slave := p.slave.command w.2 }
  else if w.1 = 0xA1 then { p with slave := p.slave.data w.2 }
  else p

def ioWait : PortWrite := (0x80, 0)

def picRemap : List PortWrite :=
  [(0x20, 0x11), ioWait, (0xA0, 0x11), ioWait,
    -- where the vectors of the master and of the slave start
    (0x21, 0x20), ioWait, (0xA1, 0x28), ioWait,
    (0x21, 0x04), ioWait, (0xA1, 0x02), ioWait,
    (0x21, 0x01), ioWait, (0xA1, 0x01), ioWait,
    (0x21, 0x0), (0xA1, 0x0)]

/-- What `irq_handler` sends before it calls the handler. -/
def irqHandlerWrites (intNo : Word) : List PortWrite :=
  (if intNo.toNat ≥ 40 then [(0xA0, 0x20)] else []) ++ [(0x20, 0x20)]

/-- The writes of `isr_handler` and of `irq_handler`, by the stub that calls them. -/
def Stub.writes : Stub → List PortWrite
  | .isr _ => []
  | .irq n => irqHandlerWrites (Stub.irq n).number

/-- What the processor is at. -/
inductive Doing
  /-- The stub it has entered, if any, and the writes to go; interrupts are off. -/
  | writing (stub : Option Stub) (ws : List PortWrite)
  /-- Anything else, be it in a handler or not, with the interrupt flag. -/
  | code (enabled : Bool)
  /-- Between the two pulses of an acknowledgement. -/
  | pulsed (i : Fin 8)
  /-- Behind a vector without a stub. -/
  | lost
  deriving DecidableEq

structure IrqState where
  pics : Pair
  doing : Doing

inductive IrqEvent
  | raise (n : Line)
  | drop (n : Line)
  /-- The next write. -/
  | out
  /-- The handler is called, or `pic_remap` returns. -/
  | proceed
  /-- `cli`, `sti`, `popf` or `iret`. -/
  | setFlag (enabled : Bool)
  /-- The processor takes an interrupt, also when the request it answers has gone. -/
  | pulse
  | vector
  deriving DecidableEq

/-- The state after an event, and the stub the event enters. -/
def irqExec (sym : Symbols) (s : IrqState) (e : IrqEvent) : Option (IrqState × Option Stub) :=
  match e, s.doing with
  | .raise n, _ => some ({ s with pics := s.pics.setLine n true }, none)
  | .drop n, _ => some ({ s with pics := s.pics.setLine n false }, none)
  | .out, .writing stub (w :: ws) => some (⟨outb s.pics w, .writing stub ws⟩, none)
  | .proceed, .writing _ [] => some ({ s with doing := .code false }, none)
  | .setFlag enabled, .code _ => some ({ s with doing := .code enabled }, none)
  | .pulse, .code true =>
    let (i, pics) := s.pics.pulse
    some (⟨pics, .pulsed i⟩, none)
  | .vector, .pulsed i =>
    let (v, pics) := s.pics.vector i
    match stubAt sym ((kernelInterrupts sym).idt v).base with
    | some stub => some (⟨pics, .writing (some stub) stub.writes⟩, some stub)
    | none => some (⟨pics, .lost⟩, none)
  | _, _ => none

/-- A run, and the stubs it enters. -/
def irqRun (sym : Symbols) (s : IrqState) : List IrqEvent → Option (IrqState × List Stub)
  | [] => some (s, [])
  | e :: es =>
    match irqExec sym s e with
    | none => none
    | some (s', stub) => (irqRun sym s' es).map fun (t, stubs) => (t, stub.toList ++ stubs)

/-- From the start of `pic_remap` on, whatever the controllers have been set to before. -/
def irqSystem (sym : Symbols) : TransitionSystem IrqState IrqEvent where
  init s := s.doing = .writing none picRemap
  step s e s' := ∃ stub, irqExec sym s e = some (s', stub)

theorem master_irq_lt (i : Fin 8) : i.val < 16 := by omega

theorem slave_irq_lt (j : Fin 8) : 8 + j.val < 16 := by omega

/-- The number of a line among the hardware interrupts. -/
def lineIrq : Line → Fin 16
  | .master i _ => ⟨i, master_irq_lt i⟩
  | .slave j => ⟨8 + j, slave_irq_lt j⟩

/-! ## The setup of the controllers -/

/-- A controller behind `pic_remap` with nothing in service. -/
def remapped (base cascade : BitVec 8) : Setup where
  inService := fun _ => false
  masked := fun _ => false
  base := base
  cascade := cascade
  mode := 1
  single := false
  fourth := true
  expects := .mask

structure Idle (p : Pair) : Prop where
  master : p.master.setup = remapped 0x20 4
  slave : p.slave.setup = remapped 0x28 2

/-- The requests do not matter to what the software sets up. -/
structure SameSetups (p q : Pair) : Prop where
  master : p.master.setup = q.master.setup
  slave : p.slave.setup = q.slave.setup

theorem Idle.congr {p q : Pair} (h : Idle p) (hs : SameSetups p q) : Idle q :=
  ⟨hs.master ▸ h.master, hs.slave ▸ h.slave⟩

theorem SameSetups.outb {p q : Pair} (h : SameSetups p q) (w : PortWrite) :
    SameSetups (outb p w) (outb q w) := by
  have hm := h.master
  have hs := h.slave
  unfold MyMisu.outb
  split_ifs
  · exact ⟨congrArg (·.command w.2) hm, hs⟩
  · exact ⟨congrArg (·.data w.2) hm, hs⟩
  · exact ⟨hm, congrArg (·.command w.2) hs⟩
  · exact ⟨hm, congrArg (·.data w.2) hs⟩
  · exact h

theorem SameSetups.foldl {p q : Pair} (h : SameSetups p q) (ws : List PortWrite) :
    SameSetups (ws.foldl MyMisu.outb p) (ws.foldl MyMisu.outb q) := by
  induction ws generalizing p q with
  | nil => exact h
  | cons w ws ih => exact ih (h.outb w)

theorem sameSetups_setLine (p : Pair) (n : Line) (b : Bool) : SameSetups p (p.setLine n b) := by
  cases n <;> exact ⟨rfl, rfl⟩

/-- `pic_remap` sets the controllers up from whatever they were. -/
theorem picRemap_idle (p : Pair) : Idle (picRemap.foldl outb p) := by
  constructor <;> ext i <;> try rfl
  -- the last words leave no line masked
  all_goals exact BitVec.getLsbD_zero

/-! ## What is in service -/

/-- No line but `i` is in service. -/
def Only (i : Fin 8) (s t : Setup) : Prop :=
  ∃ f, (∀ j, f j = true → j = i) ∧ t = { s with inService := f }

theorem Only.ended {i : Fin 8} {base cascade : BitVec 8} {t : Setup}
    (h : Only i (remapped base cascade) t) : t.command 0x20 = remapped base cascade := by
  obtain ⟨f, hf, rfl⟩ := h
  rw [Setup.command_eoi, Setup.endOfInterrupt_eq hf]
  rfl

/-- `irq_handler` ends the interrupt at both controllers before it calls the handler. -/
def IrqState.Inv (s : IrqState) : Prop :=
  match s.doing with
  | .writing _ ws => Idle (ws.foldl outb s.pics)
  | .code _ => Idle s.pics
  | .pulsed i => Only i (remapped 0x20 4) s.pics.master.setup ∧ s.pics.slave.setup = remapped 0x28 2
  | .lost => False

variable {sym : Symbols} {p : Pair} {i : Fin 8} {n : Line}

theorem wired_setup (p : Pair) : p.wired.setup = p.master.setup := rfl

theorem Idle.pulse (h : Idle p) :
    Only p.pulse.1 (remapped 0x20 4) p.pulse.2.master.setup ∧
      p.pulse.2.slave.setup = remapped 0x28 2 := by
  have hquiet : p.wired.setup.quiet := by
    rw [wired_setup, h.master]
    exact fun _ => rfl
  have hend : p.wired.setup.autoEnd = false := by
    rw [wired_setup, h.master]
    rfl
  obtain ⟨f, hf, hsetup⟩ := Chip.acknowledge_setup hquiet hend
  refine ⟨⟨f, hf, ?_⟩, h.slave⟩
  rw [← h.master]
  exact hsetup

/-- The line whose vector is given out at the second pulse. -/
def answered (p : Pair) (i : Fin 8) : Line :=
  if h : i = 2 then .slave p.slave.acknowledge.1 else .master i h

theorem lineIrq_slave_vector (j : Fin 8) :
    (0x28 : BitVec 8) + BitVec.ofNat 8 j = irqVector (lineIrq (.slave j)) := by
  apply BitVec.eq_of_toNat_eq
  rw [irqVector_toNat, BitVec.toNat_add, BitVec.toNat_ofNat]
  show (40 + j.val % 256) % 256 = 32 + (8 + j.val)
  omega

theorem lineIrq_master_vector (h : i ≠ 2) :
    (0x20 : BitVec 8) + BitVec.ofNat 8 i = irqVector (lineIrq (.master i h)) := by
  apply BitVec.eq_of_toNat_eq
  rw [irqVector_toNat, BitVec.toNat_add, BitVec.toNat_ofNat]
  show (32 + i.val % 256) % 256 = 32 + i.val
  omega

theorem master_cascade (i : Fin 8) : (4 : BitVec 8).getLsbD i = decide (i = 2) := by
  revert i
  decide

/-- The slave answers for its lines, the master for its own. -/
theorem vector_eq (hm : Only i (remapped 0x20 4) p.master.setup)
    (hs : p.slave.setup = remapped 0x28 2) :
    p.vector i = (irqVector (lineIrq (answered p i)),
      if i = 2 then { p with slave := p.slave.acknowledge.2 } else p) := by
  obtain ⟨f, -, hsetup⟩ := hm
  have hcascade : p.master.setup.cascade.getLsbD i = decide (i = 2) := by
    rw [hsetup]
    exact master_cascade i
  unfold Pair.vector answered
  rw [hcascade]
  by_cases hi : i = 2
  · subst hi
    simp only [decide_true, if_pos, dif_pos, hs]
    exact Prod.ext (lineIrq_slave_vector _) rfl
  · simp only [decide_eq_true_eq, if_neg hi, dif_neg hi, hsetup]
    exact Prod.ext (lineIrq_master_vector hi) rfl

theorem irqHandlerWrites_eq (n : Line) :
    (Stub.irq (lineIrq n)).writes =
      if n.input = 2 then [(0xA0, 0x20), (0x20, 0x20)] else [(0x20, 0x20)] := by
  show irqHandlerWrites (Stub.irq (lineIrq n)).number = _
  unfold irqHandlerWrites
  cases n with
  | master i h =>
    have hnumber : ¬ (Stub.irq (lineIrq (.master i h))).number.toNat ≥ 40 := by
      show ¬ (BitVec.ofNat 32 (32 + i.val)).toNat ≥ 40
      rw [BitVec.toNat_ofNat]
      omega
    rw [if_neg hnumber, if_neg (show (Line.master i h).input ≠ 2 from h)]
    rfl
  | slave j =>
    have hnumber : (Stub.irq (lineIrq (.slave j))).number.toNat ≥ 40 := by
      show (BitVec.ofNat 32 (32 + (8 + j.val))).toNat ≥ 40
      rw [BitVec.toNat_ofNat]
      omega
    rw [if_pos hnumber]
    rfl

theorem answered_input (p : Pair) (i : Fin 8) : (answered p i).input = i := by
  unfold answered
  split_ifs with h
  · exact h.symm
  · rfl

/-- The writes that follow leave nothing in service. -/
theorem vector_ended (hm : Only i (remapped 0x20 4) p.master.setup)
    (hs : p.slave.setup = remapped 0x28 2) :
    Idle ((Stub.irq (lineIrq (answered p i))).writes.foldl outb (p.vector i).2) := by
  rw [vector_eq hm hs, irqHandlerWrites_eq, answered_input]
  by_cases hi : i = 2
  · have hquiet : p.slave.setup.quiet := by
      rw [hs]
      exact fun _ => rfl
    have hend : p.slave.setup.autoEnd = false := by
      rw [hs]
      rfl
    have hslave : Only p.slave.acknowledge.1 (remapped 0x28 2) p.slave.acknowledge.2.setup := by
      rw [← hs]
      exact Chip.acknowledge_setup hquiet hend
    rw [if_pos hi, if_pos hi]
    exact ⟨hm.ended, hslave.ended⟩
  · rw [if_neg hi, if_neg hi]
    exact ⟨hm.ended, hs⟩

/-- The entry of the table that a hardware interrupt goes through is its own stub's. -/
theorem stubAt_irqVector (k : Fin 16) :
    stubAt sym ((kernelInterrupts sym).idt (irqVector k)).base = some (.irq k) := by
  rw [kernelInterrupts_irq, gate_base, stubAt_addr]

theorem irqExec_vector (hm : Only i (remapped 0x20 4) p.master.setup)
    (hs : p.slave.setup = remapped 0x28 2) :
    irqExec sym ⟨p, .pulsed i⟩ .vector =
      some (⟨(p.vector i).2, .writing (some (.irq (lineIrq (answered p i))))
        (Stub.irq (lineIrq (answered p i))).writes⟩, some (.irq (lineIrq (answered p i)))) := by
  simp only [irqExec]
  rw [vector_eq hm hs]
  simp only [stubAt_irqVector]

/-! ## Runs -/

theorem IrqState.Inv.sameSetups {s : IrqState} {q : Pair} (h : s.Inv) (hq : SameSetups s.pics q) :
    IrqState.Inv ⟨q, s.doing⟩ := by
  obtain ⟨p, doing⟩ := s
  cases doing with
  | writing stub ws => exact Idle.congr h (hq.foldl ws)
  | code enabled => exact Idle.congr h hq
  | pulsed i => exact ⟨hq.master ▸ h.1, hq.slave ▸ h.2⟩
  | lost => exact h

/-- The stubs a run enters are those of hardware interrupts. -/
theorem IrqState.Inv.exec {s s' : IrqState} {e : IrqEvent} {stub : Option Stub} (h : s.Inv)
    (hexec : irqExec sym s e = some (s', stub)) :
    s'.Inv ∧ ∀ st ∈ stub, ∃ m : Line, st = .irq (lineIrq m) := by
  obtain ⟨p, doing⟩ := s
  cases e with
  | raise n =>
    simp only [irqExec, Option.some.injEq, Prod.mk.injEq] at hexec
    obtain ⟨rfl, rfl⟩ := hexec
    exact ⟨h.sameSetups (sameSetups_setLine p n true), by simp⟩
  | drop n =>
    simp only [irqExec, Option.some.injEq, Prod.mk.injEq] at hexec
    obtain ⟨rfl, rfl⟩ := hexec
    exact ⟨h.sameSetups (sameSetups_setLine p n false), by simp⟩
  | out =>
    cases doing with
    | writing st ws =>
      cases ws with
      | nil => cases hexec
      | cons w ws =>
        cases hexec
        exact ⟨h, by simp⟩
    | _ => cases hexec
  | proceed =>
    cases doing with
    | writing st ws =>
      cases ws with
      | nil =>
        cases hexec
        exact ⟨h, by simp⟩
      | cons w ws => cases hexec
    | _ => cases hexec
  | setFlag enabled =>
    cases doing with
    | code _ =>
      cases hexec
      exact ⟨h, by simp⟩
    | _ => cases hexec
  | pulse =>
    cases doing with
    | code enabled =>
      cases enabled with
      | true =>
        cases hexec
        exact ⟨Idle.pulse h, by simp⟩
      | false => cases hexec
    | _ => cases hexec
  | vector =>
    cases doing with
    | pulsed i =>
      rw [irqExec_vector h.1 h.2, Option.some.injEq, Prod.mk.injEq] at hexec
      obtain ⟨rfl, rfl⟩ := hexec
      exact ⟨vector_ended h.1 h.2, by simp⟩
    | _ => cases hexec

theorem IrqState.Inv.reachable {s : IrqState} (h : (irqSystem sym).Reachable s) : s.Inv := by
  apply h.invariant
  · intro s hs
    obtain ⟨p, doing⟩ := s
    cases hs
    exact picRemap_idle p
  · intro s e s' _ hinv _ ⟨stub, hexec⟩
    exact (hinv.exec hexec).1

/-! ## Requests -/

/-- A request that is neither dropped nor answered: between the two pulses it is behind the line the
master has chosen, or the chosen line itself. -/
def Waits (n : Line) (s : IrqState) : Prop :=
  match s.doing with
  | .writing _ ws => s.pics.requested n = true ∧ ∀ w ∈ ws, w.2.getLsbD 4 = false
  | .pulsed i => i = n.input ∧ i ≠ 2 ∨ s.pics.requested n = true ∧ i ≤ n.input
  | _ => s.pics.requested n = true

theorem requested_outb {w : PortWrite} (h : w.2.getLsbD 4 = false) (hn : p.requested n = true) :
    (outb p w).requested n = true := by
  have hcommand : ∀ (c : Chip) (i : Fin 8), (c.command w.2).requests i = c.requests i := by
    intro c i
    show (c.requests i && !w.2.getLsbD 4) = c.requests i
    rw [h, Bool.not_false, Bool.and_true]
  unfold outb
  split_ifs
  · cases n with
    | master i _ => exact (hcommand p.master i).trans hn
    | slave j => exact hn
  · cases n <;> exact hn
  · cases n with
    | master i _ => exact hn
    | slave j => exact (hcommand p.slave j).trans hn
  · cases n <;> exact hn
  · exact hn

/-- The master chooses the line of a request or one of a higher priority. -/
theorem Waits.pulse (h : Idle p) (hn : p.requested n = true) : Waits n ⟨p.pulse.2, .pulsed p.pulse.1⟩ := by
  have hslave : p.slave.setup.quiet := by
    rw [h.slave]
    exact fun _ => rfl
  have hmask : ∀ j, p.slave.setup.masked j = false := by
    rw [h.slave]
    exact fun _ => rfl
  have hwired := Pair.wired_requests hn hslave hmask
  have hmaster : p.wired.setup = remapped 0x20 4 := h.master
  have hquiet : p.wired.setup.quiet := by
    rw [hmaster]
    exact fun _ => rfl
  have hle : p.pulse.1 ≤ n.input := by
    apply Chip.acknowledge_le hquiet hwired
    rw [hmaster]
    rfl
  by_cases hchosen : p.pulse.1 = n.input ∧ p.pulse.1 ≠ 2
  · exact Or.inl hchosen
  · refine Or.inr ⟨?_, hle⟩
    cases n with
    | master i hi =>
      -- another line has been chosen, so the request is still there
      have hne : i ≠ p.pulse.1 := fun heq => hchosen ⟨heq.symm, heq ▸ hi⟩
      exact Chip.acknowledge_requests hwired hne
    | slave j => exact hn

theorem answered_slave (p : Pair) : answered p 2 = .slave p.slave.acknowledge.1 := dif_pos rfl

/-- The second pulse answers the request, or one of a higher priority. -/
theorem Waits.vector (hm : Only i (remapped 0x20 4) p.master.setup)
    (hs : p.slave.setup = remapped 0x28 2) (h : Waits n ⟨p, .pulsed i⟩) :
    answered p i = n ∨ (answered p i).rank < n.rank ∧ (p.vector i).2.requested n = true := by
  rcases h with ⟨rfl, hi⟩ | ⟨hn, hle⟩
  · -- the master has chosen the line itself
    cases n with
    | master i h => exact Or.inl (dif_neg hi)
    | slave j => exact absurd rfl hi
  · rw [vector_eq hm hs]
    by_cases hi : i = 2
    · subst hi
      rw [answered_slave, if_pos rfl]
      cases n with
      | master k hk => exact Or.inr ⟨Line.rank_lt (lt_of_le_of_ne hle hk.symm), hn⟩
      | slave j =>
        by_cases hj : j = p.slave.acknowledge.1
        · exact Or.inl (by rw [hj])
        · have hquiet : p.slave.setup.quiet := by
            rw [hs]
            exact fun _ => rfl
          have hmask : p.slave.setup.masked j = false := by
            rw [hs]
            rfl
          have hfirst := Chip.acknowledge_le hquiet hn hmask
          refine Or.inr ⟨?_, Chip.acknowledge_requests hn hj⟩
          simp only [Line.rank]
          omega
    · rw [if_neg hi]
      rcases lt_or_eq_of_le hle with hlt | heq
      · exact Or.inr ⟨Line.rank_lt (by rwa [answered_input]), hn⟩
      · cases n with
        | master k hk =>
          obtain rfl : i = k := heq
          exact Or.inl (dif_neg hi)
        | slave j => exact absurd heq hi

theorem irqHandlerWrites_later (n : Line) : ∀ w ∈ (Stub.irq (lineIrq n)).writes, w.2.getLsbD 4 = false := by
  rw [irqHandlerWrites_eq]
  split_ifs
  · exact List.forall_mem_cons.mpr ⟨rfl, List.forall_mem_singleton.mpr rfl⟩
  · exact List.forall_mem_singleton.mpr rfl

theorem Waits.setLine {s : IrqState} (h : Waits n s) {m : Line} {b : Bool} (hb : m = n → b = true) :
    Waits n { s with pics := s.pics.setLine m b } := by
  obtain ⟨p, doing⟩ := s
  have hline : p.requested n = true → (p.setLine m b).requested n = true := by
    intro hn
    by_cases hmn : m = n
    · rw [hmn, Pair.requested_setLine_self, hb hmn]
    · rw [Pair.requested_setLine_ne hmn, hn]
  cases doing with
  | writing st ws => exact ⟨hline h.1, h.2⟩
  | pulsed i => exact Or.imp_right (And.imp_left hline) h
  | code enabled => exact hline h
  | lost => exact hline h

/-- No event but its own answer or its device ends a request, and the answers before it are those of
lines of a higher priority. -/
theorem Waits.exec {s s' : IrqState} {e : IrqEvent} {stub : Option Stub} (hinv : s.Inv)
    (h : Waits n s) (hdrop : e ≠ .drop n) (hexec : irqExec sym s e = some (s', stub)) :
    stub = some (.irq (lineIrq n)) ∨
      Waits n s' ∧ ∀ st ∈ stub, ∃ m : Line, st = .irq (lineIrq m) ∧ m.rank < n.rank := by
  cases e with
  | raise m =>
    simp only [irqExec, Option.some.injEq, Prod.mk.injEq] at hexec
    obtain ⟨rfl, rfl⟩ := hexec
    exact Or.inr ⟨h.setLine fun _ => rfl, by simp⟩
  | drop m =>
    simp only [irqExec, Option.some.injEq, Prod.mk.injEq] at hexec
    obtain ⟨rfl, rfl⟩ := hexec
    exact Or.inr ⟨h.setLine fun heq => absurd (congrArg _ heq) hdrop, by simp⟩
  | out =>
    obtain ⟨p, _ | _ | _ | _⟩ := s
    case writing st ws =>
      cases ws with
      | nil => cases hexec
      | cons w ws =>
        cases hexec
        have ⟨hw, hws⟩ := List.forall_mem_cons.mp h.2
        exact Or.inr ⟨⟨requested_outb hw h.1, hws⟩, by simp⟩
    all_goals cases hexec
  | proceed =>
    obtain ⟨p, _ | _ | _ | _⟩ := s
    case writing st ws =>
      cases ws with
      | nil =>
        cases hexec
        exact Or.inr ⟨h.1, by simp⟩
      | cons w ws => cases hexec
    all_goals cases hexec
  | setFlag enabled =>
    obtain ⟨p, _ | _ | _ | _⟩ := s
    case code =>
      cases hexec
      exact Or.inr ⟨h, by simp⟩
    all_goals cases hexec
  | pulse =>
    obtain ⟨p, _ | enabled | _ | _⟩ := s
    case code =>
      cases enabled with
      | true =>
        cases hexec
        exact Or.inr ⟨Waits.pulse hinv h, by simp⟩
      | false => cases hexec
    all_goals cases hexec
  | vector =>
    obtain ⟨p, _ | _ | i | _⟩ := s
    case pulsed =>
      rw [irqExec_vector hinv.1 hinv.2, Option.some.injEq, Prod.mk.injEq] at hexec
      obtain ⟨rfl, rfl⟩ := hexec
      rcases Waits.vector hinv.1 hinv.2 h with hn | ⟨hrank, hn⟩
      · exact Or.inl (by rw [hn])
      · refine Or.inr ⟨⟨hn, irqHandlerWrites_later _⟩, ?_⟩
        intro st hst
        exact ⟨_, (Option.some.inj hst).symm, hrank⟩
    all_goals cases hexec

theorem Waits.run {s s' : IrqState} {es : List IrqEvent} {stubs : List Stub} (hinv : s.Inv)
    (h : Waits n s) (hdrop : .drop n ∉ es) (hrun : irqRun sym s es = some (s', stubs)) :
    .irq (lineIrq n) ∈ stubs ∨
      Waits n s' ∧ ∀ st ∈ stubs, ∃ m : Line, st = .irq (lineIrq m) ∧ m.rank < n.rank := by
  induction es generalizing s stubs with
  | nil =>
    cases hrun
    exact Or.inr ⟨h, by simp⟩
  | cons e es ih =>
    rw [List.mem_cons, not_or] at hdrop
    rw [irqRun] at hrun
    cases hexec : irqExec sym s e with
    | none =>
      rw [hexec] at hrun
      cases hrun
    | some next =>
      obtain ⟨t, stub⟩ := next
      rw [hexec] at hrun
      obtain ⟨⟨u, rest⟩, hrest, heq⟩ := Option.map_eq_some_iff.mp hrun
      obtain ⟨rfl, rfl⟩ := Prod.mk.inj heq
      rcases Waits.exec hinv h (Ne.symm hdrop.1) hexec with hnow | ⟨hwaits, hstub⟩
      · exact Or.inl (by simp [hnow])
      · rcases ih (hinv.exec hexec).1 hwaits hdrop.2 hrest with hlater | ⟨hwaits', hstubs⟩
        · exact Or.inl (List.mem_append_right _ hlater)
        · refine Or.inr ⟨hwaits', fun st hst => ?_⟩
          rcases List.mem_append.mp hst with hst | hst
          · exact hstub st (Option.mem_toList.mp hst)
          · exact hstubs st hst

/-- A request of a device is answered by the stub of its own line, and until then it stays requested
and only lines of a higher priority are answered, however the other devices raise and drop their
lines, and wherever the code turns interrupts on and off. -/
theorem request_served {s s' : IrqState} (h : (irqSystem sym).Reachable s) {enabled : Bool}
    (hcode : s.doing = .code enabled) (hn : s.pics.requested n = true) {es : List IrqEvent}
    (hdrop : .drop n ∉ es) {stubs : List Stub} (hrun : irqRun sym s es = some (s', stubs)) :
    .irq (lineIrq n) ∈ stubs ∨
      (s'.pics.requested n = true ∨ s'.doing = .pulsed n.input) ∧
        ∀ st ∈ stubs, ∃ m : Line, st = .irq (lineIrq m) ∧ m.rank < n.rank := by
  have hwaits : Waits n s := by
    unfold Waits
    rw [hcode]
    exact hn
  refine (Waits.run (.reachable h) hwaits hdrop hrun).imp_right fun ⟨hwaits', hstubs⟩ => ⟨?_, hstubs⟩
  unfold Waits at hwaits'
  split at hwaits'
  · exact Or.inl hwaits'.1
  · next i hdoing =>
    rcases hwaits' with ⟨hi, -⟩ | ⟨hreq, -⟩
    · exact Or.inr (hi ▸ hdoing)
    · exact Or.inl hreq
  · exact Or.inl hwaits'

theorem irqRun_reachable {s s' : IrqState} (h : (irqSystem sym).Reachable s) {es : List IrqEvent}
    {stubs : List Stub} (hrun : irqRun sym s es = some (s', stubs)) : (irqSystem sym).Reachable s' := by
  induction es generalizing s stubs with
  | nil =>
    cases hrun
    exact h
  | cons e es ih =>
    rw [irqRun] at hrun
    cases hexec : irqExec sym s e with
    | none =>
      rw [hexec] at hrun
      cases hrun
    | some next =>
      rw [hexec] at hrun
      obtain ⟨⟨u, rest⟩, hrest, heq⟩ := Option.map_eq_some_iff.mp hrun
      obtain ⟨rfl, -⟩ := Prod.mk.inj heq
      exact ih (h.next ⟨next.2, hexec⟩) hrest

/-- Controllers that the firmware has left with an interrupt in service and vectors among the
exceptions. -/
def firmwareChip : Chip where
  requests := fun _ => false
  setup := { remapped 0x08 0 with inService := fun i => i = 1 }

def firmwareIrq : IrqState := ⟨⟨firmwareChip, firmwareChip⟩, .writing none picRemap⟩

/-- The kernel is started and turns interrupts on; then a key is pressed. -/
def keyRequested : List IrqEvent :=
  List.replicate 18 .out ++ [.proceed, .setFlag true, .raise (.master 1 (by decide))]

/-- The timer comes first, then the key. -/
def timerThenKey : List IrqEvent :=
  [.raise (.master 0 (by decide)), .pulse, .vector, .out, .proceed, .setFlag true, .pulse, .vector]

theorem keyRequested_run : (irqRun stubsInARow firmwareIrq keyRequested).isSome = true := by
  decide +kernel

def keyWaiting : IrqState := ((irqRun stubsInARow firmwareIrq keyRequested).get keyRequested_run).1

theorem keyWaiting_reachable : (irqSystem stubsInARow).Reachable keyWaiting := by
  have hstart : (irqSystem stubsInARow).Reachable firmwareIrq := .init rfl
  exact irqRun_reachable hstart (Option.some_get keyRequested_run).symm

theorem timerThenKey_run : (irqRun stubsInARow keyWaiting timerThenKey).isSome = true := by
  decide +kernel

theorem request_served_key :
    let r := (irqRun stubsInARow keyWaiting timerThenKey).get timerThenKey_run
    .irq (lineIrq (.master 1 (by decide))) ∈ r.2 ∨
      (r.1.pics.requested (.master 1 (by decide)) = true ∨ r.1.doing = .pulsed 1) ∧
        ∀ st ∈ r.2, ∃ m : Line, st = .irq (lineIrq m) ∧ m.rank < (Line.master 1 (by decide)).rank :=
  request_served keyWaiting_reachable (show keyWaiting.doing = .code true by decide +kernel)
    (by decide +kernel)
    (by decide) (Option.some_get timerThenKey_run).symm

/-- No vector leads anywhere but to the stub of a line, and whatever code runs, in a handler or on a
process that the handler has switched to, it finds no interrupt in service: every request gets to
the processor as soon as the code turns interrupts on. -/
theorem requests_get_through {s : IrqState} (h : (irqSystem sym).Reachable s) :
    s.doing ≠ .lost ∧
      (∀ e s' stub, irqExec sym s e = some (s', some stub) → ∃ n : Line, stub = .irq (lineIrq n)) ∧
      ∀ enabled, s.doing = .code enabled →
        s.pics.master.setup.quiet ∧ s.pics.slave.setup.quiet ∧
          ∀ n, s.pics.requested n = true → s.pics.wired.next.isSome = true := by
  have hinv := IrqState.Inv.reachable h
  refine ⟨?_, ?_, ?_⟩
  · intro hlost
    unfold IrqState.Inv at hinv
    rw [hlost] at hinv
    exact hinv
  · intro e s' stub hexec
    exact (hinv.exec hexec).2 stub rfl
  · intro enabled hcode
    unfold IrqState.Inv at hinv
    rw [hcode] at hinv
    have hmaster : s.pics.wired.setup = remapped 0x20 4 := hinv.master
    have hslave := hinv.slave
    refine ⟨?_, ?_, fun n hn => ?_⟩
    · rw [hinv.master]
      exact fun _ => rfl
    · rw [hslave]
      exact fun _ => rfl
    · have hwired : s.pics.wired.requests n.input = true := by
        apply Pair.wired_requests hn <;> rw [hslave] <;> exact fun _ => rfl
      apply Chip.next_isSome _ hwired <;> rw [hmaster]
      · rfl
      · exact fun _ => rfl

theorem requests_get_through_key :
    keyWaiting.doing ≠ .lost ∧
      (∀ e s' stub, irqExec stubsInARow keyWaiting e = some (s', some stub) →
        ∃ n : Line, stub = .irq (lineIrq n)) ∧
      ∀ enabled, keyWaiting.doing = .code enabled →
        keyWaiting.pics.master.setup.quiet ∧ keyWaiting.pics.slave.setup.quiet ∧
          ∀ n, keyWaiting.pics.requested n = true → keyWaiting.pics.wired.next.isSome = true :=
  requests_get_through keyWaiting_reachable

end MyMisu
