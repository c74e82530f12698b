import MyMisu.Interrupt.Int80
import MyMisu.Lib.Descriptors

/-!
# Segments

The global descriptor table of `gdt.c`.  Its two segments are the whole address space, so that the
processor gets from a vector to the stub whose address `idt_init` has split over the fields of a gate.
Where the linker puts the two tables is a parameter.
-/

namespace MyMisu

open WordMemory X86

/-- `struct gdt_entry` -/
structure GdtEntry where
  limitLow : BitVec 16
  baseLow : BitVec 16
  baseMiddle : BitVec 8
  access : BitVec 8
  granularity : BitVec 8
  baseHigh : BitVec 8

/-- The packed fields in memory. -/
def GdtEntry.bytes (e : GdtEntry) : DescriptorBytes :=
  ![e.limitLow.extractLsb' 0 8, e.limitLow.extractLsb' 8 8, e.baseLow.extractLsb' 0 8,
    e.baseLow.extractLsb' 8 8, e.baseMiddle, e.access, e.granularity, e.baseHigh]

def IdtEntry.bytes (e : IdtEntry) : DescriptorBytes :=
  ![e.baseLow.extractLsb' 0 8, e.baseLow.extractLsb' 8 8, e.sel.extractLsb' 0 8, e.sel.extractLsb' 8 8,
    e.always0, e.flags, e.baseHigh.extractLsb' 0 8, e.baseHigh.extractLsb' 8 8]

/-- The fields `gdt_set_gate` stores. -/
def GdtEntry.gate (base limit : Word) (access gran : BitVec 8) : GdtEntry where
  baseLow := (base &&& 0xFFFF).setWidth 16
  baseMiddle := (base >>> 16 &&& 0xFF).setWidth 8
  baseHigh := (base >>> 24 &&& 0xFF).setWidth 8
  limitLow := (limit &&& 0xFFFF).setWidth 16
  granularity := (limit >>> 16 &&& 0x0F).setWidth 8 ||| (gran &&& 0xF0)
  access := access

abbrev Gdt := Fin 3 → GdtEntry

def gdtSetGate (gdt : Gdt) (num : Fin 3) (base limit : Word) (access gran : BitVec 8) : Gdt :=
  Function.update gdt num (.gate base limit access gran)

/-- `gdt_init` on `gdt_entries` as the loader leaves it. -/
def gdtInit : Gdt :=
  let gdt : Gdt := fun _ => ⟨0, 0, 0, 0, 0, 0⟩
  let gdt := gdtSetGate gdt 0 0 0 0 0
  -- kernel code: exec/read
  let gdt := gdtSetGate gdt 1 0 0xFFFFFFFF 0x9A 0xCF
  -- kernel data: read/write
  gdtSetGate gdt 2 0 0xFFFFFFFF 0x92 0xCF

/-- `gp` and `idtp`, loaded by `gdt_flush` and `idt_flush`. -/
def gdtPtr (gdtEntries : Word) : TableRegister := ⟨8 * 3 - 1, gdtEntries⟩

def idtPtr (idtEntries : Word) : TableRegister := ⟨8 * 256 - 1, idtEntries⟩

/-- The memory with the two tables as they are from `sti` in `kernel_main` on. -/
def storeTables (sym : Symbols) (gdtEntries idtEntries : Word) (m : Mem) : Mem :=
  storeTable (storeTable m gdtEntries fun i => (gdtInit i).bytes) idtEntries
    fun v : Fin 256 => ((kernelInterrupts sym).idt (BitVec.ofNat 8 v.val)).bytes

/-! ## What the processor reads -/

theorem extractLsb'_halves (v : BitVec 16) : v.extractLsb' 8 8 ++ v.extractLsb' 0 8 = v := by
  rw [BitVec.extractLsb'_append_extractLsb'_eq_extractLsb' (by decide)]
  exact BitVec.extractLsb'_eq_self

/-- The fields are put together as the processor does. -/
theorem segment_bytes (e : GdtEntry) :
    Segment.ofBytes e.bytes =
      ⟨e.baseHigh ++ (e.baseMiddle ++ e.baseLow), e.granularity.extractLsb' 0 4 ++ e.limitLow, e.access,
        e.granularity.extractLsb' 4 4⟩ := by
  show (⟨e.baseHigh ++ (e.baseMiddle ++ (e.baseLow.extractLsb' 8 8 ++ e.baseLow.extractLsb' 0 8)),
    e.granularity.extractLsb' 0 4 ++ (e.limitLow.extractLsb' 8 8 ++ e.limitLow.extractLsb' 0 8), e.access,
    e.granularity.extractLsb' 4 4⟩ : Segment) = _
  rw [extractLsb'_halves, extractLsb'_halves]

theorem gate_bytes (e : IdtEntry) : Gate.ofBytes e.bytes = ⟨e.base, e.sel, e.flags⟩ := by
  show (⟨(e.baseHigh.extractLsb' 8 8 ++ e.baseHigh.extractLsb' 0 8) ++
    (e.baseLow.extractLsb' 8 8 ++ e.baseLow.extractLsb' 0 8),
    e.sel.extractLsb' 8 8 ++ e.sel.extractLsb' 0 8, e.flags⟩ : Gate) = _
  rw [extractLsb'_halves, extractLsb'_halves, extractLsb'_halves]
  rfl

/-- What a mask keeps of the shifted number. -/
theorem masked_field (x mask : Word) (k : ℕ) {w : ℕ} (hmask : mask.setWidth w = BitVec.allOnes w) :
    (x >>> k &&& mask).setWidth w = x.extractLsb' k w := by
  rw [BitVec.setWidth_and, hmask, BitVec.and_allOnes, BitVec.setWidth_ushiftRight_eq_extractLsb]

theorem masked_low (x mask : Word) {w : ℕ} (hw : w ≤ 32) (hmask : mask.setWidth w = BitVec.allOnes w) :
    (x &&& mask).setWidth w = x.extractLsb' 0 w := by
  rw [BitVec.setWidth_and, hmask, BitVec.and_allOnes, BitVec.setWidth_eq_extractLsb' hw]

/-- The low half of `granularity` belongs to the limit, the high half are the flags. -/
theorem granularity_halves (limit : Word) (gran : BitVec 8) :
    ((limit >>> 16 &&& 0x0F).setWidth 8 ||| (gran &&& 0xF0)).extractLsb' 0 4 = limit.extractLsb' 16 4 ∧
      ((limit >>> 16 &&& 0x0F).setWidth 8 ||| (gran &&& 0xF0)).extractLsb' 4 4 =
        gran.extractLsb' 4 4 := by
  have hlow : (limit >>> 16).extractLsb' 0 4 = limit.extractLsb' 16 4 := by
    rw [← BitVec.setWidth_eq_extractLsb' (by decide), BitVec.setWidth_ushiftRight_eq_extractLsb]
  constructor
  · rw [BitVec.extractLsb'_or, BitVec.extractLsb'_setWidth_of_le (by decide), BitVec.extractLsb'_and,
      BitVec.extractLsb'_and, hlow, show (0xF0 : BitVec 8).extractLsb' 0 4 = 0#4 by decide,
      show (0x0F : Word).extractLsb' 0 4 = BitVec.allOnes 4 by decide, BitVec.and_zero,
      BitVec.and_allOnes, BitVec.or_zero]
  · rw [BitVec.extractLsb'_or, BitVec.extractLsb'_setWidth_of_le (by decide), BitVec.extractLsb'_and,
      BitVec.extractLsb'_and, show (0x0F : Word).extractLsb' 4 4 = 0#4 by decide,
      show (0xF0 : BitVec 8).extractLsb' 4 4 = BitVec.allOnes 4 by decide, BitVec.and_zero,
      BitVec.and_allOnes, BitVec.zero_or]

/-- The base comes back whole; of the limit the low 20 bits, and of the flags the high four. -/
theorem segment_gate (base limit : Word) (access gran : BitVec 8) :
    Segment.ofBytes (GdtEntry.gate base limit access gran).bytes =
      ⟨base, limit.extractLsb' 0 20, access, gran.extractLsb' 4 4⟩ := by
  have hbase : (base >>> 24 &&& 0xFF).setWidth 8 ++ ((base >>> 16 &&& 0xFF).setWidth 8 ++
      (base &&& 0xFFFF).setWidth 16) = base := by
    rw [masked_field base 0xFF 24 (by decide), masked_field base 0xFF 16 (by decide),
      masked_low base 0xFFFF (by decide) (by decide),
      BitVec.extractLsb'_append_extractLsb'_eq_extractLsb' (by decide),
      BitVec.extractLsb'_append_extractLsb'_eq_extractLsb' (by decide)]
    exact BitVec.extractLsb'_eq_self
  have hlimit : (((limit >>> 16 &&& 0x0F).setWidth 8 ||| (gran &&& 0xF0)).extractLsb' 0 4 ++
      (limit &&& 0xFFFF).setWidth 16 : BitVec 20) = limit.extractLsb' 0 20 := by
    rw [(granularity_halves limit gran).1, masked_low limit 0xFFFF (by decide) (by decide)]
    exact BitVec.extractLsb'_append_extractLsb'_eq_extractLsb' (by decide)
  have hflags := (granularity_halves limit gran).2
  rw [segment_bytes]
  unfold GdtEntry.gate
  simp only
  rw [hbase, hlimit, hflags]

/-- Whatever a table holds, an entry set by `gdt_set_gate` is read as the segment asked for exactly if the
limit fits in 20 bits; the other entries stay. -/
theorem gdtSetGate_read (gdt : Gdt) (num : Fin 3) (base limit : Word) (access gran : BitVec 8)
    {m : Mem} {gdtEntries : Word} :
    let m' := storeTable m gdtEntries fun i => (gdtSetGate gdt num base limit access gran i).bytes
    let s := Segment.ofBytes (descriptorAt m' (descriptorAddr gdtEntries num))
    (s.base = base ∧ s.access = access ∧ s.flags = gran.extractLsb' 4 4) ∧
      (s.limit.toNat = limit.toNat ↔ limit.toNat < 2 ^ 20) ∧
      ∀ i, i ≠ num → Segment.ofBytes (descriptorAt m' (descriptorAddr gdtEntries i)) =
        Segment.ofBytes (gdt i).bytes := by
  simp only [descriptorAt_storeTable (show 8 * 3 ≤ 2 ^ 32 by decide), gdtSetGate, Function.update_self,
    segment_gate]
  refine ⟨⟨trivial, trivial, trivial⟩, ?_, fun i hi => ?_⟩
  · rw [BitVec.extractLsb'_toNat, Nat.shiftRight_zero]
    omega
  · rw [Function.update_of_ne hi]

/-! ## The way to a stub -/

section Tables

variable {sym : Symbols} {gdtEntries idtEntries : Word} {m m' : Mem}

/-- The memory still has the two tables as they were stored. -/
def TablesKept (sym : Symbols) (gdtEntries idtEntries : Word) (m m' : Mem) : Prop :=
  Set.EqOn m' (storeTables sym gdtEntries idtEntries m)
    (bytes gdtEntries (8 * 3) ∪ bytes idtEntries (8 * 256))

theorem TablesKept.gate (h : TablesKept sym gdtEntries idtEntries m m') (v : BitVec 8) :
    descriptorAt m' (descriptorAddr idtEntries v.toNat) = ((kernelInterrupts sym).idt v).bytes := by
  have hkept := h.mono Set.subset_union_right
  have hread := descriptorAt_congr (show 8 * 256 ≤ 2 ^ 32 by decide) hkept v.toFin
  rw [storeTables, descriptorAt_storeTable (by decide)] at hread
  have hv : BitVec.ofNat 8 v.toFin.val = v := BitVec.ofNat_toNat 8 v
  rw [hv] at hread
  exact hread

theorem TablesKept.segment (h : TablesKept sym gdtEntries idtEntries m m')
    (hapart : Disjoint (bytes gdtEntries (8 * 3)) (bytes idtEntries (8 * 256))) (i : Fin 3) :
    descriptorAt m' (descriptorAddr gdtEntries i) = (gdtInit i).bytes := by
  have hkept := h.mono Set.subset_union_left
  have hbelow := hkept.trans ((storeTable_eqOn _ _ _).mono hapart.subset_compl_right)
  rw [descriptorAt_congr (by decide) hbelow i, descriptorAt_storeTable (by decide)]

/-- The selector 8 means the whole address space. -/
theorem TablesKept.codeSegment (h : TablesKept sym gdtEntries idtEntries m m')
    (hapart : Disjoint (bytes gdtEntries (8 * 3)) (bytes idtEntries (8 * 256))) :
    X86.codeSegment m' (gdtPtr gdtEntries) 0x08 = some ⟨0, 0xFFFFF, 0x9A, 0xC⟩ := by
  have hread := h.segment hapart 1
  have hsegment : Segment.ofBytes (gdtInit 1).bytes = ⟨0, 0xFFFFF, 0x9A, 0xC⟩ :=
    segment_gate 0 0xFFFFFFFF 0x9A 0xCF
  have hfind : (gdtPtr gdtEntries).find 1 = some (descriptorAddr gdtEntries 1) :=
    if_pos (show 8 * 1 + 7 ≤ 23 by decide)
  have hindex : ((0x08 : BitVec 16).extractLsb' 3 13).toNat = 1 := by decide
  unfold X86.codeSegment
  rw [if_neg (by decide), hindex, hfind, Option.bind_some]
  simp only
  rw [show descriptorAddr gdtEntries 1 = descriptorAddr gdtEntries (1 : Fin 3).val from rfl, hread, hsegment]
  exact if_pos (by decide)

/-- A gate of `idt_set_gate(num, base, 0x08, 0x8E)` leads to its base, with interrupts off. -/
theorem TablesKept.deliver_gate (h : TablesKept sym gdtEntries idtEntries m m')
    (hapart : Disjoint (bytes gdtEntries (8 * 3)) (bytes idtEntries (8 * 256))) {v : BitVec 8}
    {base : Word} (hgate : (kernelInterrupts sym).idt v = .gate base 0x08 0x8E) :
    deliver m' (gdtPtr gdtEntries) (idtPtr idtEntries) v = some ⟨base, 0x08, true⟩ := by
  have hv := v.isLt
  have hfind : (idtPtr idtEntries).find v.toNat = some (descriptorAddr idtEntries v.toNat) := by
    apply if_pos
    show _ ≤ 2047
    omega
  have hentry : (IdtEntry.gate base 0x08 0x8E).base = base := gate_base base 0x08 0x8E
  unfold deliver
  rw [hfind, Option.bind_some, h.gate v, hgate]
  simp only [gate_bytes, hentry]
  have hpresent : (0x8E : BitVec 8).getLsbD 7 = true := by decide
  have hinterrupt : (⟨base, 0x08, 0x8E⟩ : Gate).IsInterrupt := by
    show (0x8E : BitVec 8).extractLsb' 0 5 = 0x0E
    decide
  show (if _ then (X86.codeSegment m' (gdtPtr gdtEntries) 0x08).bind _ else _) = _
  rw [if_pos ⟨hpresent, Or.inl hinterrupt⟩, h.codeSegment hapart, Option.bind_some, if_pos]
  · show some (⟨0 + base, 0x08, decide (⟨base, 0x08, 0x8E⟩ : Gate).IsInterrupt⟩ : Entry) = _
    rw [show 0 + base = base from BitVec.zero_add base, decide_eq_true hinterrupt]
  · have hbase := base.isLt
    show base.toNat ≤ 0xFFFFF * 4096 + 4095
    omega

/-- The stub a vector is meant for. -/
def vectorStub (v : BitVec 8) : Option Stub :=
  if h : v.toNat < 32 then some (.isr ⟨v.toNat, h⟩)
  else if h : v.toNat < 48 then some (.irq ⟨v.toNat - 32, by omega⟩)
  else none

/-- From any memory that still has the two tables, wherever they lie, the processor gets through the bytes
of a gate and of the code segment to the stub of its vector, with interrupts off, for the vectors up to
47, and to a fault for every other one. -/
theorem vector_enters_stub (hapart : Disjoint (bytes gdtEntries (8 * 3)) (bytes idtEntries (8 * 256)))
    (h : TablesKept sym gdtEntries idtEntries m m') (v : BitVec 8) :
    deliver m' (gdtPtr gdtEntries) (idtPtr idtEntries) v =
      (vectorStub v).map fun s => ⟨sym.addr s, 0x08, true⟩ := by
  unfold vectorStub
  by_cases hisr : v.toNat < 32
  · have hvector : isrVector ⟨v.toNat, hisr⟩ = v := BitVec.ofNat_toNat 8 v
    have hgate := @kernelInterrupts_isr sym ⟨v.toNat, hisr⟩
    rw [hvector] at hgate
    rw [dif_pos hisr, h.deliver_gate hapart hgate]
    rfl
  rw [dif_neg hisr]
  by_cases hirq : v.toNat < 48
  · have hvector : irqVector ⟨v.toNat - 32, by omega⟩ = v := by
      apply BitVec.eq_of_toNat_eq
      rw [irqVector_toNat]
      show 32 + (v.toNat - 32) = _
      omega
    have hgate := @kernelInterrupts_irq sym ⟨v.toNat - 32, by omega⟩
    rw [hvector] at hgate
    rw [dif_pos hirq, h.deliver_gate hapart hgate]
    rfl
  · -- a gate that was never set is not present
    rw [dif_neg hirq, deliver]
    have hv := v.isLt
    have hfind : (idtPtr idtEntries).find v.toNat = some (descriptorAddr idtEntries v.toNat) := by
      apply if_pos
      show _ ≤ 2047
      omega
    rw [hfind, Option.bind_some, h.gate v, kernelInterrupts_none (by omega)]
    simp only [gate_bytes]
    exact if_neg (by decide)

end Tables

theorem tables_apart : Disjoint (bytes 0x1000 (8 * 3)) (bytes 0x2000 (8 * 256)) := by
  exact bytes_ofNat_disjoint (i := 0x1000) (j := 0x2000) (by decide) (by decide) (by decide)

/-- The timer, behind its tables in a memory that is otherwise empty. -/
theorem vector_enters_stub_timer :
    deliver (storeTables stubsInARow 0x1000 0x2000 fun _ => 0) (gdtPtr 0x1000) (idtPtr 0x2000) 32 =
      some ⟨stubsInARow.addr (.irq 0), 0x08, true⟩ :=
  vector_enters_stub (m := fun _ => 0) tables_apart (fun _ _ => rfl) 32

end MyMisu
