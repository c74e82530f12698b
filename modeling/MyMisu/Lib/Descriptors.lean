import MyMisu.Lib.WordMemory

/-!
# Descriptor tables

What a 32-bit x86 processor reads in the eight bytes of a segment descriptor and of a gate, and its way
from a vector through the interrupt descriptor table and the code segment to a linear address.  The
faults on the way are not told apart.
-/

namespace X86

open WordMemory

/-- The eight bytes of a descriptor. -/
abbrev DescriptorBytes := Fin 8 → BitVec 8

local instance descriptor_neZero : NeZero 8 := ⟨by decide⟩

/-! ## Tables in memory -/

def descriptorAt (m : Mem) (a : Word) : DescriptorBytes := fun j => m (a + BitVec.ofNat 32 j.val)

/-- A table of descriptors is stored at `a`. -/
def storeTable {n : ℕ} (m : Mem) (a : Word) (table : Fin n → DescriptorBytes) : Mem := fun x =>
  if h : (x - a).toNat < 8 * n then
    table ⟨(x - a).toNat / 8, by omega⟩ ⟨(x - a).toNat % 8, by omega⟩
  else m x

section Table

variable {n : ℕ} {m m' : Mem} {a : Word} {table : Fin n → DescriptorBytes}

/-- Where descriptor `i` of a table at `a` begins. -/
def descriptorAddr (a : Word) (i : ℕ) : Word := a + BitVec.ofNat 32 (8 * i)

theorem descriptor_offset (hn : 8 * n ≤ 2 ^ 32) (i : Fin n) (j : Fin 8) :
    (descriptorAddr a i + BitVec.ofNat 32 j.val - a).toNat = 8 * i.val + j.val := by
  have hi := i.isLt
  have hj := j.isLt
  have hsum : descriptorAddr a i + BitVec.ofNat 32 j.val - a = BitVec.ofNat 32 (8 * i.val + j.val) := by
    unfold descriptorAddr
    bv_omega
  rw [hsum, BitVec.toNat_ofNat]
  omega

theorem descriptorAt_storeTable (hn : 8 * n ≤ 2 ^ 32) (i : Fin n) :
    descriptorAt (storeTable m a table) (descriptorAddr a i) = table i := by
  ext1 j
  have hoffset := @descriptor_offset n a hn i j
  have hi := i.isLt
  have hj := j.isLt
  unfold descriptorAt storeTable
  rw [dif_pos (by omega)]
  have hrow : (⟨(descriptorAddr a i + BitVec.ofNat 32 j.val - a).toNat / 8, by omega⟩ : Fin n) = i :=
    Fin.ext (by simp only [hoffset]; omega)
  have hbyte : (⟨(descriptorAddr a i + BitVec.ofNat 32 j.val - a).toNat % 8, by omega⟩ : Fin 8) = j :=
    Fin.ext (by simp only [hoffset]; omega)
  rw [hrow, hbyte]

theorem storeTable_eqOn (m : Mem) (a : Word) (table : Fin n → DescriptorBytes) :
    Set.EqOn (storeTable m a table) m (bytes a (8 * n))ᶜ := by
  intro x hx
  rw [Set.mem_compl_iff, mem_bytes] at hx
  exact dif_neg hx

theorem descriptorAt_congr (hn : 8 * n ≤ 2 ^ 32) (h : Set.EqOn m m' (bytes a (8 * n))) (i : Fin n) :
    descriptorAt m (descriptorAddr a i) = descriptorAt m' (descriptorAddr a i) := by
  ext1 j
  have hoffset := @descriptor_offset n a hn i j
  have hi := i.isLt
  have hj := j.isLt
  apply h
  rw [mem_bytes]
  omega

end Table

/-! ## Segments -/

structure Segment where
  base : Word
  limit : BitVec 20
  access : BitVec 8
  flags : BitVec 4
  deriving DecidableEq

namespace Segment

def ofBytes (b : DescriptorBytes) : Segment where
  base := b 7 ++ (b 4 ++ (b 3 ++ b 2))
  limit := (b 6).extractLsb' 0 4 ++ (b 1 ++ b 0)
  access := b 5
  flags := (b 6).extractLsb' 4 4

/-- The last offset in the segment; the limit counts pages if the granularity bit is set. -/
def last (s : Segment) : ℕ :=
  if s.flags.getLsbD 3 then s.limit.toNat * 4096 + 4095 else s.limit.toNat

/-- A code segment that is present and of ring 0. -/
def IsCode (s : Segment) : Prop :=
  s.access.extractLsb' 3 2 = 3 ∧ s.access.extractLsb' 5 2 = 0 ∧ s.access.getLsbD 7 = true

instance (s : Segment) : Decidable s.IsCode := inferInstanceAs (Decidable (_ ∧ _))

end Segment

/-- `gdtr` or `idtr` -/
structure TableRegister where
  limit : BitVec 16
  base : Word

/-- The address of a descriptor that lies inside the table. -/
def TableRegister.find (r : TableRegister) (index : ℕ) : Option Word :=
  if 8 * index + 7 ≤ r.limit.toNat then some (descriptorAddr r.base index) else none

/-- The ring 0 code segment that a selector means; nothing loads a local table. -/
def codeSegment (m : Mem) (gdtr : TableRegister) (sel : BitVec 16) : Option Segment :=
  if sel.extractLsb' 3 13 = 0 ∨ sel.getLsbD 2 = true then none
  else (gdtr.find (sel.extractLsb' 3 13).toNat).bind fun a =>
    let s := Segment.ofBytes (descriptorAt m a)
    if s.IsCode then some s else none

/-! ## Gates -/

structure Gate where
  offset : Word
  sel : BitVec 16
  flags : BitVec 8

namespace Gate

def ofBytes (b : DescriptorBytes) : Gate where
  offset := (b 7 ++ b 6) ++ (b 1 ++ b 0)
  sel := b 3 ++ b 2
  flags := b 5

/-- An interrupt gate turns interrupts off, a trap gate does not. -/
def IsInterrupt (g : Gate) : Prop := g.flags.extractLsb' 0 5 = 0x0E

def IsTrap (g : Gate) : Prop := g.flags.extractLsb' 0 5 = 0x0F

instance (g : Gate) : Decidable g.IsInterrupt := inferInstanceAs (Decidable (_ = _))

instance (g : Gate) : Decidable g.IsTrap := inferInstanceAs (Decidable (_ = _))

end Gate

/-- Where an interrupt leads: the linear address, the selector, and whether interrupts are off. -/
structure Entry where
  linear : Word
  cs : BitVec 16
  masked : Bool
  deriving DecidableEq

/-- An interrupt in ring 0; `none` is a fault. -/
def deliver (m : Mem) (gdtr idtr : TableRegister) (v : BitVec 8) : Option Entry :=
  (idtr.find v.toNat).bind fun a =>
    let g := Gate.ofBytes (descriptorAt m a)
    if g.flags.getLsbD 7 = true ∧ (g.IsInterrupt ∨ g.IsTrap) then
      (codeSegment m gdtr g.sel).bind fun s =>
        if g.offset.toNat ≤ s.last then some ⟨s.base + g.offset, g.sel, decide g.IsInterrupt⟩ else none
    else none

end X86
