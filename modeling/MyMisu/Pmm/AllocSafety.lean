import MyMisu.Lib.TransitionSystem
import MyMisu.Pmm.FreedPages

/-!
# The pages handed out

Runs of the allocator in which only addresses handed out and not yet freed are freed.  The addresses
in use are distinct pages above the low megabyte and above the kernel, and an allocation returns the
lowest clear page.  Page 0 is never handed out, so 0 means that every bit is set.
-/

namespace MyMisu

/-- The allocator with the addresses it has handed out and not got back.  A result of 0 is no
address: the allocator is out of memory. -/
structure PmmHist where
  pmm : Pmm
  live : List ℕ

def PmmHist.exec (h : PmmHist) : PmmOp → Option PmmHist
  | .alloc =>
    let addr := (pmmAllocPage h.pmm).1
    some
      { pmm := (pmmAllocPage h.pmm).2
        live := if addr = 0 then h.live else addr :: h.live }
  | .free addr =>
    if addr ∈ h.live then some { pmm := pmmFreePage h.pmm addr, live := h.live.erase addr } else none

/-- The runs after a `pmm_init` that has terminated. -/
def pmmHistSystem (kernelEnd : ℕ) : TransitionSystem PmmHist PmmOp :=
  .ofPartial
    (fun h => (∃ fuel mem mbi, pmmInit fuel mem mbi kernelEnd = some h.pmm) ∧ h.live = [])
    PmmHist.exec

/-- An address the allocator may hand out. -/
structure PageAddr (kernelEnd addr : ℕ) : Prop where
  multiple : pageSize ∣ addr
  below : addr < 128 * 2 ^ 20
  aboveLow : 2 ^ 20 ≤ addr
  aboveKernel : kernelEnd / pageSize < addr / pageSize

/-- What `pmm_alloc_page` does. -/
structure AllocLowest (p : Pmm) : Prop where
  lowest : ∀ page : Page, p.testBit page = false → (∀ i < page, p.testBit i = true) →
    (pmmAllocPage p).1 = page.val * pageSize ∧
      ∀ i, (pmmAllocPage p).2.testBit i = (decide (i = page) || p.testBit i)
  full : (∀ page, p.testBit page = true) → pmmAllocPage p = (0, p)
  zero : (pmmAllocPage p).1 = 0 ↔ ∀ page, p.testBit page = true

structure AllocSafe (kernelEnd : ℕ) (h : PmmHist) : Prop where
  distinct : h.live.Nodup
  pages : ∀ addr ∈ h.live, PageAddr kernelEnd addr
  alloc : AllocLowest h.pmm

/-! ## The invariant -/

/-- The pages the kernel keeps: the low megabyte and those up to the end of its image. -/
def KeptPage (kernelEnd : ℕ) (page : Page) : Prop := page.val < 256 ∨ page.val ≤ kernelEnd / pageSize

structure LivePages (kernelEnd : ℕ) (h : PmmHist) : Prop where
  nodup : h.live.Nodup
  kept : ∀ page, KeptPage kernelEnd page → h.pmm.testBit page = true
  live : ∀ addr ∈ h.live, ∃ page : Page, addr = page.val * pageSize ∧ h.pmm.testBit page = true ∧
    ¬ KeptPage kernelEnd page

variable {kernelEnd : ℕ} {p : Pmm} {h h' : PmmHist}

theorem allocPage_some {page : Page} (hpage : p.bitmap.firstClear = some page) :
    pmmAllocPage p = (page.val * pageSize, p.take page) := by
  unfold pmmAllocPage
  rw [hpage]

theorem allocPage_none (hpage : p.bitmap.firstClear = none) : pmmAllocPage p = (0, p) := by
  unfold pmmAllocPage
  rw [hpage]

theorem freePage_page {page : Page} (hused : p.testBit page = true) :
    pmmFreePage p (page.val * pageSize) = p.give page := by
  have hdiv : page.val * pageSize / pageSize = page.val := Nat.mul_div_cancel _ (by decide)
  have hlt : page.val * pageSize / pageSize < maxPages := by
    rw [hdiv]
    exact page.isLt
  have hpage : (⟨page.val * pageSize / pageSize, hlt⟩ : Page) = page := Fin.ext hdiv
  unfold pmmFreePage
  rw [dif_pos hlt, hpage, if_pos hused]

namespace LivePages

theorem boot {fuel : ℕ} {mem : Memory} {mbi : MultibootInfo}
    (hinit : pmmInit fuel mem mbi kernelEnd = some p) : LivePages kernelEnd ⟨p, []⟩ where
  nodup := List.nodup_nil
  kept page hpage := by
    have ⟨es, hmap⟩ := hasMap_of_returns hinit
    show p.testBit page = true
    rw [pmmInit_eq hmap hinit]
    by_contra hclear
    have ⟨hlow, hkernel, _⟩ := (boot_free_iff ..).mp (eq_false_of_ne_true hclear)
    unfold kernelEndPage at hkernel
    rcases hpage with h | h
    · omega
    · omega
  live addr haddr := absurd haddr List.not_mem_nil

theorem alloc (hp : LivePages kernelEnd h) {page : Page}
    (hpage : h.pmm.bitmap.firstClear = some page) :
    LivePages kernelEnd ⟨h.pmm.take page, page.val * pageSize :: h.live⟩ where
  nodup := by
    rw [List.nodup_cons]
    refine ⟨?_, hp.nodup⟩
    intro hmem
    have ⟨other, haddr, hused, _⟩ := hp.live _ hmem
    -- the page of a live address has its bit set, the one returned has not
    have hsame : other.val = page.val := by
      simp only [pageSize] at haddr
      omega
    have hclear : h.pmm.testBit page = false := Bitmap.firstClear_some hpage
    rw [Fin.ext hsame, hclear] at hused
    cases hused
  kept i hi := by
    rw [testBit_take, hp.kept i hi, Bool.or_true]
  live addr haddr := by
    rcases List.mem_cons.mp haddr with heq | hmem
    · refine ⟨page, heq, ?_, ?_⟩
      · rw [testBit_take]
        simp
      · intro hkept
        have hclear : h.pmm.testBit page = false := Bitmap.firstClear_some hpage
        rw [hp.kept page hkept] at hclear
        cases hclear
    · have ⟨i, hi, hused, hnot⟩ := hp.live addr hmem
      refine ⟨i, hi, ?_, hnot⟩
      rw [testBit_take, hused, Bool.or_true]

theorem free (hp : LivePages kernelEnd h) {addr : ℕ} (hmem : addr ∈ h.live) :
    LivePages kernelEnd ⟨pmmFreePage h.pmm addr, h.live.erase addr⟩ := by
  have ⟨page, haddr, hused, hnot⟩ := hp.live addr hmem
  have hother : ∀ i, i ≠ page → (pmmFreePage h.pmm addr).testBit i = h.pmm.testBit i := by
    intro i hi
    rw [haddr, freePage_page hused, testBit_give]
    simp [hi]
  constructor
  · exact hp.nodup.erase addr
  · intro i hi
    have hne : i ≠ page := fun he => hnot (he ▸ hi)
    rw [hother i hne]
    exact hp.kept i hi
  · intro a ha
    have ⟨hne, ha⟩ := hp.nodup.mem_erase_iff.mp ha
    have ⟨i, hi, hiUsed, hiNot⟩ := hp.live a ha
    refine ⟨i, hi, ?_, hiNot⟩
    rw [hother i fun he => hne (by rw [hi, he, haddr])]
    exact hiUsed

theorem step (hp : LivePages kernelEnd h) {op : PmmOp} (hstep : h.exec op = some h') :
    LivePages kernelEnd h' := by
  cases op with
  | alloc =>
    have heq := Option.some.inj hstep
    rw [← heq]
    cases hpage : h.pmm.bitmap.firstClear with
    | none =>
      rw [allocPage_none hpage]
      exact hp
    | some page =>
      have hsafe := hp.alloc hpage
      rw [allocPage_some hpage]
      have hpos : page.val * pageSize ≠ 0 := by
        have hclear : h.pmm.testBit page = false := Bitmap.firstClear_some hpage
        intro h0
        rw [hp.kept page (.inl (by simp only [pageSize] at h0; omega))] at hclear
        cases hclear
      simp only [hpos, if_false]
      exact hsafe
  | free addr =>
    have ⟨hmem, heq⟩ := Option.ite_none_right_eq_some.mp hstep
    cases heq
    exact hp.free hmem

theorem allocLowest (hp : LivePages kernelEnd h) : AllocLowest h.pmm where
  lowest page hclear hleast := by
    rw [allocPage_some (Bitmap.firstClear_eq_some hclear hleast)]
    exact ⟨rfl, fun i => testBit_take h.pmm page i⟩
  full hall := by
    apply allocPage_none
    cases hpage : h.pmm.bitmap.firstClear with
    | none => rfl
    | some page =>
      have hclear : h.pmm.testBit page = false := Bitmap.firstClear_some hpage
      rw [hall page] at hclear
      cases hclear
  zero := by
    cases hpage : h.pmm.bitmap.firstClear with
    | none =>
      rw [allocPage_none hpage]
      exact iff_of_true rfl (Bitmap.firstClear_none hpage)
    | some page =>
      have hclear : h.pmm.testBit page = false := Bitmap.firstClear_some hpage
      rw [allocPage_some hpage]
      apply iff_of_false
      · intro h0
        -- page 0 is kept
        rw [hp.kept page (.inl (by simp only [pageSize] at h0; omega))] at hclear
        cases hclear
      · intro hall
        rw [hall page] at hclear
        cases hclear

theorem safe (hp : LivePages kernelEnd h) : AllocSafe kernelEnd h where
  distinct := hp.nodup
  pages addr haddr := by
    have ⟨page, heq, _, hnot⟩ := hp.live addr haddr
    have hlt := page.isLt
    have hdiv : addr / pageSize = page.val := by
      rw [heq]
      exact Nat.mul_div_cancel _ (by decide)
    unfold KeptPage at hnot
    constructor
    · exact ⟨page.val, by rw [heq, Nat.mul_comm]⟩
    · simp only [maxPages, bitmapSize] at hlt
      simp only [pageSize] at heq
      omega
    · simp only [pageSize] at heq
      omega
    · omega
  alloc := hp.allocLowest

end LivePages

theorem boot_reachable {fuel : ℕ} {mem : Memory} {mbi : MultibootInfo}
    (hinit : pmmInit fuel mem mbi kernelEnd = some p) :
    (pmmHistSystem kernelEnd).Reachable ⟨p, []⟩ :=
  .init ⟨⟨fuel, mem, mbi, hinit⟩, rfl⟩

/-- Live addresses are distinct pages outside the kernel, and every allocation takes the lowest
clear page. -/
theorem live_pages_safe (kernelEnd : ℕ) (h : PmmHist)
    (hr : (pmmHistSystem kernelEnd).Reachable h) : AllocSafe kernelEnd h := by
  have hinv : LivePages kernelEnd h := by
    apply hr.invariant
    · intro s hs
      have ⟨⟨fuel, mem, mbi, hinit⟩, hlive⟩ := hs
      rw [show s = ⟨s.pmm, []⟩ by rw [← hlive]]
      exact .boot hinit
    · intro s op s' _ hs _ hstep
      exact hs.step hstep
  exact hinv.safe

theorem reachable_alloc {addr : ℕ} (hr : (pmmHistSystem kernelEnd).Reachable h)
    (haddr : (pmmAllocPage h.pmm).1 = addr) (hne : addr ≠ 0) :
    (pmmHistSystem kernelEnd).Reachable
      { pmm := (pmmAllocPage h.pmm).2, live := addr :: h.live } := by
  apply hr.next (a := PmmOp.alloc)
  show h.exec .alloc = _
  unfold PmmHist.exec
  simp only [haddr, hne, if_false]

theorem reachable_free {addr : ℕ} (hr : (pmmHistSystem kernelEnd).Reachable h) (hlive : addr ∈ h.live) :
    (pmmHistSystem kernelEnd).Reachable { pmm := pmmFreePage h.pmm addr, live := h.live.erase addr } :=
  hr.next (a := .free addr) (if_pos hlive)

-- boot and allocations stay folded when states are compared
attribute [local irreducible] pmmBoot pmmAllocPage

/-- Three pages of memory, at 4 MB. -/
def threePageMap : List MmapEntry := [⟨20, 0x400000, 0x3000, 1⟩]

/-- The allocator behind the boot on these pages. -/
def threePages : Pmm := pmmBoot (bootInfo 640 3072 threePageMap) 0x120000 threePageMap

/-- All three are handed out and the one in the middle is given back. -/
theorem live_pages_safe_threePages :
    AllocSafe 0x120000
      { pmm := pmmFreePage (pmmAllocPage (pmmAllocPage (pmmAllocPage threePages).2).2).2 0x401000
        live := [0x402000, 0x400000] } := by
  have hstandard : ∀ e ∈ threePageMap, e.Standard := by
    intro e he
    rw [List.mem_singleton.mp he]
    exact ⟨by decide, by decide, by decide, by decide⟩
  have hmap := bootInfo_hasMap 640 3072 hstandard (by decide)
  have hboot : (pmmHistSystem 0x120000).Reachable ⟨threePages, []⟩ :=
    boot_reachable (pmmInit_returns 0x120000 hmap)
  have hfirst : (pmmAllocPage threePages).1 = 0x400000 := by
    decide +kernel
  have hsecond : (pmmAllocPage (pmmAllocPage threePages).2).1 = 0x401000 := by
    decide +kernel
  have hthird : (pmmAllocPage (pmmAllocPage (pmmAllocPage threePages).2).2).1 = 0x402000 := by
    decide +kernel
  have hone := reachable_alloc hboot hfirst (by decide)
  have htwo := reachable_alloc hone hsecond (by decide)
  have hthree := reachable_alloc htwo hthird (by decide)
  have hfreed := @reachable_free 0x120000 _ 0x401000 hthree (by decide)
  exact live_pages_safe 0x120000 _ hfreed

end MyMisu
