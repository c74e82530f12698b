import MyMisu.Lib.WordMemory
import MyMisu.Process.Stacks

/-!
# Where the stacks lie

The process table and the boot stack in the image of the kernel, and the pages the allocator hands out
for stacks: in every state of the machine no stack overlaps the table, and no two processes that can
be switched to share a stack.
-/

namespace MyMisu

open WordMemory

/-! ## What is in memory -/

/-- Where the linker puts `proc_table`, whose entries have 84 bytes. -/
structure TableImage extends KernelImage where
  procTable : ℕ
  tableLoaded : 0x100000 ≤ procTable
  tableInside : procTable + 84 * maxProcesses ≤ kernelEnd
  tableApart : procTable + 84 * maxProcesses ≤ stackBottom ∨ stackBottom + 16384 ≤ procTable

namespace TableImage

/-- `&proc_table[i].saved_esp`, behind the pid, the name and the state. -/
def savedEspAt (image : TableImage) (i : Slot) : Word :=
  BitVec.ofNat 32 (image.procTable + 84 * i.val + 40)

def stackBytes (image : TableImage) : Stack → Set Word
  | .boot => bytes (BitVec.ofNat 32 image.stackBottom) 16384
  | .page addr => bytes (BitVec.ofNat 32 addr) pageSize

theorem stackBytes_boot (image : TableImage) :
    image.stackBytes .boot = bytes (BitVec.ofNat 32 image.stackBottom) 16384 := rfl

theorem stackBytes_page (image : TableImage) (addr : ℕ) :
    image.stackBytes (.page addr) = bytes (BitVec.ofNat 32 addr) pageSize := rfl

/-- The stack of the process in the slot. -/
def stackAt (image : TableImage) (k : Kernel) (i : Slot) : Set Word :=
  image.stackBytes (k.table i).stack

end TableImage

-- the scan of the bitmap stays folded when entries are compared
attribute [local irreducible] pmmAllocPage

variable {image : TableImage} {k k' : Kernel} {i j : Slot}

/-! ## The layout of the stacks -/

/-- The pages of the image, by number. -/
def TableImage.Covers (image : TableImage) (n : ℕ) : Prop :=
  0x100000 / pageSize ≤ n ∧ n * pageSize < image.kernelEnd

/-- The entry of the kernel is never switched from, only the kernel and the shell have no stack of
their own, and no stack is a page of the image. -/
structure Layout (image : TableImage) (k : Kernel) : Prop where
  idle : (k.table 0).inUse = true
  idlePid : (k.table 0).pid = 0
  unsaved : (k.table 0).savedEsp = none
  current : k.currentPid ≠ 0
  boot : ∀ i, (k.table i).inUse = true → (k.table i).kstack = 0 → i = 0 ∨ i = 1
  used : ∀ n, image.Covers n → k.pmm.Used n
  outside : ∀ i, (k.table i).inUse = true → (k.table i).kstack ≠ 0 →
    ¬ image.Covers ((k.table i).kstack / pageSize)

namespace Layout

theorem keeps (h : Layout image k) (hk : k.Keeps k') (hidle : (k'.table 0).inUse = true) :
    Layout image k' where
  idle := hidle
  idlePid := (hk.owner 0 hidle).pid.trans h.idlePid
  unsaved := (hk.owner 0 hidle).savedEsp.trans h.unsaved
  current := by
    rw [hk.currentPid]
    exact h.current
  boot i hi hstack := by
    rw [(hk.owner i hi).kstack] at hstack
    exact h.boot i (hk.inUse hi) hstack
  used n hn := by
    have ⟨hlt, hbit⟩ := h.used n hn
    rcases hk.used ⟨n, hlt⟩ hbit with hused | ⟨i, hi, _, hdiv⟩
    · exact ⟨hlt, hused⟩
    -- a page that is given back was a stack
    · have hcovers : image.Covers ((k.table i).kstack / pageSize) := by rwa [hdiv]
      by_cases hstack : (k.table i).kstack = 0
      · rw [hstack] at hcovers
        exact absurd hcovers.1 (by decide)
      · exact absurd hcovers (h.outside i hi hstack)
  outside i hi hstack := by
    rw [(hk.owner i hi).kstack] at hstack ⊢
    exact h.outside i (hk.inUse hi) hstack

theorem spawn (h : Layout image k) {slot : Slot} (hslot : findUnusedSlot k = some slot)
    (hstack : (pmmAllocPage k.pmm).1 ≠ 0) (tick : ℕ) (name : CStr) (fn : ℕ) :
    Layout image (k.spawn slot tick name fn) := by
  have ⟨fresh, haddr, hfree, htaken⟩ := pmmAllocPage_fresh hstack
  have hne : 0 ≠ slot := ne_of_findUnusedSlot hslot h.idle
  have hzero : (k.spawn slot tick name fn).table 0 = k.table 0 := Kernel.spawn_ne _ _ _ _ hne
  refine ⟨by rw [hzero, h.idle], by rw [hzero, h.idlePid], by rw [hzero, h.unsaved], h.current, ?_,
    ?_, ?_⟩
  · intro i hi hnone
    by_cases his : i = slot
    · rw [his, Kernel.spawn_self] at hnone
      exact absurd hnone hstack
    · rw [Kernel.spawn_ne _ _ _ _ his] at hi hnone
      exact h.boot i hi hnone
  · intro n hn
    have ⟨hlt, hbit⟩ := h.used n hn
    exact ⟨hlt, pmmAllocPage_used hbit⟩
  · intro i hi hne'
    by_cases his : i = slot
    · rw [his, Kernel.spawn_self]
      show ¬ image.Covers ((pmmAllocPage k.pmm).1 / pageSize)
      rw [haddr, Nat.mul_div_cancel _ (by decide)]
      -- a page of the image is not free
      intro hcovers
      have ⟨_, hbit⟩ := h.used _ hcovers
      rw [show (⟨fresh.val, _⟩ : Page) = fresh from rfl, hfree] at hbit
      cases hbit
    · rw [Kernel.spawn_ne _ _ _ _ his] at hi hne' ⊢
      exact h.outside i hi hne'

theorem switch (h : Layout image k) {sw : Switch} {sv : Saved} (hk : k.Switched sw sv k')
    (hcur : sw.cur ≠ 0) (hnext : (k.table sw.next).pid ≠ 0) : Layout image k' where
  idle := (hk.inUse 0).trans h.idle
  idlePid := (hk.pid 0).trans h.idlePid
  unsaved := (hk.other 0 hcur.symm).savedEsp.trans h.unsaved
  current := by
    rw [hk.currentPid]
    exact hnext
  boot i hi hstack := by
    rw [hk.inUse] at hi
    rw [hk.kstack] at hstack
    exact h.boot i hi hstack
  used := by
    rw [hk.pmm]
    exact h.used
  outside i hi hstack := by
    rw [hk.inUse] at hi
    rw [hk.kstack] at hstack ⊢
    exact h.outside i hi hstack

theorem start {p : Pmm} (hboot : image.Boot p) : Layout image (Machine.start p).kern where
  idle := rfl
  idlePid := rfl
  unsaved := rfl
  current := Nat.one_ne_zero
  boot i hi _ := by
    have hslot := (Machine.start_booted hi).slot
    exact (Nat.le_one_iff_eq_zero_or_eq_one.mp hslot).imp (Fin.ext ·) (Fin.ext ·)
  used n hn := by
    have ⟨fuel, mem, mbi, es, hmap, hinit⟩ := hboot
    have hfits := image.fits
    have ⟨hlow, hhigh⟩ := hn
    simp only [maxPages, bitmapSize, pageSize] at hfits hlow hhigh
    have hlt : n < 32768 := by omega
    refine ⟨hlt, ?_⟩
    show p.testBit _ = true
    rw [pmmInit_eq hmap hinit]
    by_contra hfree
    have hkernel := ((boot_free_iff ..).mp (eq_false_of_ne_true hfree)).2.1
    simp only [kernelEndPage, pageSize] at hkernel
    omega
  outside i hi hne := absurd (Machine.start_booted hi).kstack hne

end Layout

/-! ## Apart in memory -/

/-- Where the stack of a process in use can lie. -/
inductive Placed (image : TableImage) (k : Kernel) (i : Slot) : Prop
  | boot : (k.table i).stack = .boot → i = 0 ∨ i = 1 → Placed image k i
  | page {page : ℕ} : (k.table i).stack = .page (page * pageSize) →
      (page + 1) * pageSize ≤ maxPages * pageSize → ¬ image.Covers page → Placed image k i

theorem Layout.placed (h : Layout image k) (ht : TableStacks image.toKernelImage k)
    (hi : (k.table i).inUse = true) : Placed image k i := by
  by_cases hstack : (k.table i).kstack = 0
  · exact .boot (if_pos hstack) (h.boot i hi hstack)
  · have ⟨page, hpage⟩ := ht.page i hi hstack
    have hout := h.outside i hi hstack
    rw [hpage.div] at hout
    refine .page ?_ (Nat.mul_le_mul_right pageSize page.isLt) hout
    rw [← hpage.addr]
    exact if_neg hstack

theorem stack_cell_disjoint (h : Placed image k i) (j : Slot) :
    Disjoint (image.stackAt k i) (bytes (image.savedEspAt j) 4) := by
  have hj : j.val < 16 := j.isLt
  have hinside := image.tableInside
  have hfits := image.fits
  have hloaded := image.loaded
  have hboot := image.inside
  simp only [maxPages, bitmapSize, pageSize, maxProcesses] at hinside hfits
  cases h with
  | boot hstack _ =>
    have hapart := image.tableApart
    simp only [maxProcesses] at hapart
    rw [TableImage.stackAt, hstack, image.stackBytes_boot]
    apply bytes_ofNat_disjoint <;> omega
  | @page page hstack hend hout =>
    have htable := image.tableLoaded
    simp only [TableImage.Covers, maxPages, bitmapSize, pageSize] at hend hout
    rw [TableImage.stackAt, hstack, image.stackBytes_page, pageSize]
    apply bytes_ofNat_disjoint <;> omega

theorem cell_disjoint (image : TableImage) (hij : i ≠ j) :
    Disjoint (bytes (image.savedEspAt i) 4) (bytes (image.savedEspAt j) 4) := by
  have hi : i.val < 16 := i.isLt
  have hj : j.val < 16 := j.isLt
  have hval : i.val ≠ j.val := Fin.val_ne_of_ne hij
  have hinside := image.tableInside
  have hfits := image.fits
  simp only [maxPages, bitmapSize, pageSize, maxProcesses] at hinside hfits
  apply bytes_ofNat_disjoint <;> omega

/-- Only the kernel and the shell share a stack. -/
theorem stack_disjoint (ht : TableStacks image.toKernelImage k) (hpi : Placed image k i)
    (hpj : Placed image k j) (hi : (k.table i).inUse = true) (hj : (k.table j).inUse = true)
    (hij : i ≠ j) (hzero : i ≠ 0 ∧ j ≠ 0) :
    Disjoint (image.stackAt k i) (image.stackAt k j) := by
  have hfits := image.fits
  have hinside := image.inside
  have hloaded := image.loaded
  simp only [maxPages, bitmapSize, pageSize] at hfits
  cases hpi with
  | boot hsi hslot =>
    have hone := hslot.resolve_left hzero.1
    cases hpj with
    | boot _ hslot' => exact absurd (hone.trans (hslot'.resolve_left hzero.2).symm) hij
    | @page q hsj hend hout =>
      simp only [TableImage.Covers, maxPages, bitmapSize, pageSize] at hend hout
      rw [TableImage.stackAt, TableImage.stackAt, hsi, hsj, image.stackBytes_boot, image.stackBytes_page, pageSize]
      apply bytes_ofNat_disjoint <;> omega
  | @page p hsi hend hout =>
    simp only [TableImage.Covers, maxPages, bitmapSize, pageSize] at hend hout
    cases hpj with
    | boot hsj _ =>
      rw [TableImage.stackAt, TableImage.stackAt, hsi, hsj, image.stackBytes_boot, image.stackBytes_page, pageSize]
      apply bytes_ofNat_disjoint <;> omega
    | @page q hsj hend' _ =>
      have hne : p ≠ q := by
        intro hpq
        have hsame : (k.table i).stack = (k.table j).stack := by rw [hsi, hsj, hpq]
        unfold Process.stack at hsi hsame
        split at hsi
        · cases hsi
        · next hstack =>
          rw [if_neg hstack] at hsame
          split at hsame
          · cases hsame
          · exact hij (ht.distinct i j hi hj hstack (Stack.page.inj hsame))
      simp only [maxPages, bitmapSize, pageSize] at hend'
      rw [TableImage.stackAt, TableImage.stackAt, hsi, hsj, image.stackBytes_page, image.stackBytes_page, pageSize]
      apply bytes_ofNat_disjoint <;> omega

end MyMisu
