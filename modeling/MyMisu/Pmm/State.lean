import MyMisu.CInt
import MyMisu.Lib.Bitmap
import MyMisu.Lib.WhileLoop

/-!
# The physical memory manager

The functions of `pmm.c`.  Values of `uint32_t` and `uint64_t` are naturals and wrap where the code
lets them; the memory map is read from the bytes of memory as the packed structures of
`multiboot.h` lie there.
-/

namespace MyMisu

abbrev pageSize : ℕ := 4096
abbrev bitmapSize : ℕ := 4096
abbrev maxPages : ℕ := 8 * bitmapSize

instance : NeZero maxPages := ⟨by decide⟩

abbrev Page := Fin maxPages

/-- Physical memory by address. -/
abbrev Memory := ℕ → UInt8

/-- The little-endian number in `n` bytes. -/
def readLe (mem : Memory) (addr : ℕ) : ℕ → ℕ
  | 0 => 0
  | n + 1 => (mem (wrap32 addr)).toNat + 256 * readLe mem (addr + 1) n

/-- The fields of `multiboot_info_t` that `pmm_init` reads. -/
structure MultibootInfo where
  flags : UInt32
  memLower : UInt32
  memUpper : UInt32
  mmapLength : UInt32
  mmapAddr : UInt32

structure MmapEntry where
  size : ℕ
  addr : ℕ
  len : ℕ
  type : ℕ
  deriving DecidableEq

def MmapEntry.read (mem : Memory) (addr : ℕ) : MmapEntry where
  size := readLe mem addr 4
  addr := readLe mem (addr + 4) 8
  len := readLe mem (addr + 12) 8
  type := readLe mem (addr + 20) 4

structure Pmm where
  bitmap : Bitmap bitmapSize
  totalPages : ℕ
  usedPages : ℕ

namespace Pmm

/-- `pmm_test_bit` -/
def testBit (p : Pmm) (page : Page) : Bool := p.bitmap.test page

/-- `pmm_set_bit(page); used_pages++;` -/
def take (p : Pmm) (page : Page) : Pmm :=
  { p with bitmap := p.bitmap.set page, usedPages := wrap32 (p.usedPages + 1) }

/-- `pmm_clear_bit(page); used_pages--;` -/
def give (p : Pmm) (page : Page) : Pmm :=
  { p with bitmap := p.bitmap.clear page, usedPages := wrap32 (p.usedPages + (2 ^ 32 - 1)) }

end Pmm

/-! ## `pmm_init` -/

/-- `n & ~(PAGE_SIZE - 1)` -/
def alignDown (n : ℕ) : ℕ := n / pageSize * pageSize

namespace MmapEntry

/-- `start` of the entry: its base, cut to 32 bits, rounded up to a page. -/
def start (e : MmapEntry) : ℕ := alignDown (wrap32 (wrap32 e.addr + (pageSize - 1)))

/-- `end` of the entry: base plus length, both cut to 32 bits, rounded down to a page. -/
def stop (e : MmapEntry) : ℕ := alignDown (wrap32 (wrap32 e.addr + wrap32 e.len))

end MmapEntry

/-- The page of an address, for the pages `pmm_init` may free. -/
def freeablePage (addr : ℕ) : Option Page :=
  if h : addr / pageSize < maxPages ∧ addr / pageSize > 0 then some ⟨addr / pageSize, h.1⟩ else none

def Pmm.giveAt (p : Pmm) (addr : ℕ) : Pmm :=
  match freeablePage addr with
  | some page => p.give page
  | none => p

/-- The body of the walk for one entry.  `end` is a multiple of the page size, so `addr += PAGE_SIZE`
does not wrap before it gets there. -/
def Pmm.giveEntry (p : Pmm) (e : MmapEntry) : Pmm :=
  if e.type = 1 then
    (List.range ((e.stop - e.start) / pageSize)).foldl
      (fun p k => p.giveAt (e.start + k * pageSize)) p
  else p

/-- `if (!pmm_test_bit(i)) { pmm_set_bit(i); used_pages++; }` -/
def Pmm.reserve (p : Pmm) (i : ℕ) : Pmm :=
  if h : i < maxPages then
    if p.testBit ⟨i, h⟩ then p else p.take ⟨i, h⟩
  else p

def Pmm.reserveLow (p : Pmm) : Pmm := (List.range 256).foldl Pmm.reserve p

def kernelEndPage (kernelEnd : ℕ) : ℕ := kernelEnd / pageSize + 1

def Pmm.reserveKernel (kernelEnd : ℕ) (p : Pmm) : Pmm :=
  (List.range' 256 (min (kernelEndPage kernelEnd + 1) maxPages - 256)).foldl Pmm.reserve p

/-- Everything used, with the page count taken from the memory sizes. -/
def pmmStart (mbi : MultibootInfo) : Pmm where
  bitmap _ := 0xFF#8
  totalPages := min (wrap32 (mbi.memLower.toNat + mbi.memUpper.toNat + 1024) / 4) maxPages
  usedPages := maxPages

/-- `entry = (entry_t*)((uint32_t)entry + entry->size + sizeof(entry->size))` -/
def nextEntry (mem : Memory) (entry : ℕ) : ℕ := wrap32 (entry + (MmapEntry.read mem entry).size + 4)

def MultibootInfo.hasMmap (mbi : MultibootInfo) : Bool := mbi.flags &&& ((1 : UInt32) <<< 6) != 0

def MultibootInfo.mmapEnd (mbi : MultibootInfo) : ℕ :=
  wrap32 (mbi.mmapAddr.toNat + mbi.mmapLength.toNat)

/-- `while ((uint32_t)entry < mmap_end)` -/
def walkCond (mmapEnd : ℕ) (s : ℕ × Pmm) : Bool := decide (s.1 < mmapEnd)

def walkBody (mem : Memory) (s : ℕ × Pmm) : Option (ℕ × Pmm) :=
  some (nextEntry mem s.1, s.2.giveEntry (.read mem s.1))

/-- `kernelEnd` is the address of `_kernel_end`; `fuel` bounds the tests of the walk's condition. -/
def pmmInit (fuel : ℕ) (mem : Memory) (mbi : MultibootInfo) (kernelEnd : ℕ) : Option Pmm :=
  let walked :=
    if mbi.hasMmap then
      (whileLoop (walkCond mbi.mmapEnd) (walkBody mem) fuel
        (mbi.mmapAddr.toNat, pmmStart mbi)).map Prod.snd
    else some (pmmStart mbi)
  walked.map fun p => p.reserveLow.reserveKernel kernelEnd

/-! ## Pages -/

/-- The address of a page taken from the bitmap, and 0 when every bit is set. -/
def pmmAllocPage (p : Pmm) : ℕ × Pmm :=
  match p.bitmap.firstClear with
  | some page => (page.val * pageSize, p.take page)
  | none => (0, p)

def pmmFreePage (p : Pmm) (addr : ℕ) : Pmm :=
  if h : addr / pageSize < maxPages then
    if p.testBit ⟨addr / pageSize, h⟩ then p.give ⟨addr / pageSize, h⟩ else p
  else p

def pmmGetTotalPages (p : Pmm) : ℕ := p.totalPages

def pmmGetUsedPages (p : Pmm) : ℕ := p.usedPages

def pmmGetFreePages (p : Pmm) : ℕ :=
  if p.totalPages > p.usedPages then p.totalPages - p.usedPages else 0

def pmmGetTotalMemoryKb (p : Pmm) : ℕ := p.totalPages * 4

inductive PmmOp
  | alloc
  | free (addr : ℕ)

def pmmExec (p : Pmm) : PmmOp → Pmm
  | .alloc => (pmmAllocPage p).2
  | .free addr => pmmFreePage p addr

end MyMisu
