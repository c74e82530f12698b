import MyMisu.Pmm.MemoryMap

/-!
# The pages free after boot

A page is free after `pmm_init` when an available entry releases it and the kernel does not keep it.
An entry that starts in the first 4 GB, below the last page of them, releases pages of its own range
only; one that starts higher is cut to 32 bits and releases pages it does not have.
-/

namespace MyMisu

theorem alignDown_le (n : ℕ) : alignDown n ≤ n := Nat.div_mul_le_self n pageSize

theorem page_lt_alignDown {n k : ℕ} (h : k * pageSize < alignDown n) :
    (k + 1) * pageSize ≤ alignDown n := by
  simp only [alignDown, pageSize] at *
  omega

/-! ## Bits -/

section Bits

variable (p : Pmm) (i j : Page)

theorem testBit_take : (p.take i).testBit j = (decide (j = i) || p.testBit j) :=
  Bitmap.test_set p.bitmap i j

theorem testBit_give : (p.give i).testBit j = (decide (j ≠ i) && p.testBit j) :=
  Bitmap.test_clear p.bitmap i j

theorem testBit_foldl_give (pages : List Page) :
    (pages.foldl Pmm.give p).testBit j = (p.testBit j && decide (j ∉ pages)) := by
  induction pages generalizing p with
  | nil => simp
  | cons i pages ih =>
    rw [List.foldl_cons, ih, testBit_give]
    by_cases hj : j = i
    · simp [hj]
    · simp [hj]

theorem testBit_reserve (k : ℕ) :
    (p.reserve k).testBit j = (decide (j.val = k) || p.testBit j) := by
  unfold Pmm.reserve
  by_cases hk : k < maxPages
  · rw [dif_pos hk]
    have hval : j = ⟨k, hk⟩ ↔ j.val = k := Fin.ext_iff
    by_cases hset : p.testBit ⟨k, hk⟩ = true
    · rw [if_pos hset]
      by_cases hj : j.val = k
      · rw [hval.mpr hj, hset]
        simp
      · simp [hj]
    · rw [if_neg hset, testBit_take, decide_eq_decide.mpr hval]
  · rw [dif_neg hk]
    have hj : j.val ≠ k := fun h => hk (h ▸ j.isLt)
    simp [hj]

theorem testBit_foldl_reserve (ks : List ℕ) :
    (ks.foldl Pmm.reserve p).testBit j = (decide (j.val ∈ ks) || p.testBit j) := by
  induction ks generalizing p with
  | nil => simp
  | cons k ks ih =>
    rw [List.foldl_cons, ih, testBit_reserve]
    by_cases hj : j.val = k
    · simp [hj]
    · simp [hj]

theorem testBit_reserveLow :
    p.reserveLow.testBit j = (decide (j.val < 256) || p.testBit j) := by
  unfold Pmm.reserveLow
  rw [testBit_foldl_reserve]
  simp only [List.mem_range]

theorem testBit_reserveKernel (kernelEnd : ℕ) :
    (p.reserveKernel kernelEnd).testBit j =
      (decide (256 ≤ j.val ∧ j.val ≤ kernelEndPage kernelEnd) || p.testBit j) := by
  unfold Pmm.reserveKernel
  rw [testBit_foldl_reserve]
  have hj : j.val < 32768 := j.isLt
  have hrange : j.val ∈ List.range' 256 (min (kernelEndPage kernelEnd + 1) maxPages - 256) ↔
      256 ≤ j.val ∧ j.val ≤ kernelEndPage kernelEnd := by
    rw [List.mem_range'_1]
    simp only [maxPages, bitmapSize]
    omega
  rw [decide_eq_decide.mpr hrange]

theorem testBit_pmmStart (mbi : MultibootInfo) : (pmmStart mbi).testBit j = true :=
  Bitmap.test_full rfl

end Bits

/-! ## What an entry releases -/

theorem freeablePage_eq {addr : ℕ} {page : Page} :
    freeablePage addr = some page ↔ addr / pageSize = page.val ∧ 0 < page.val := by
  unfold freeablePage
  have hlt := page.isLt
  constructor
  · intro h
    split at h
    · next hr =>
      cases Option.some.inj h
      exact ⟨rfl, hr.2⟩
    · cases h
  · intro ⟨hdiv, hpos⟩
    have hr : addr / pageSize < maxPages ∧ addr / pageSize > 0 := by
      rw [hdiv]
      exact ⟨hlt, hpos⟩
    rw [dif_pos hr]
    exact congrArg some (Fin.ext hdiv)

theorem mem_releases {e : MmapEntry} {page : Page} :
    page ∈ e.releases ↔
      e.type = 1 ∧ 0 < page.val ∧ e.start ≤ page.val * pageSize ∧ page.val * pageSize < e.stop := by
  unfold MmapEntry.releases
  by_cases htype : e.type = 1
  · rw [if_pos htype, List.mem_filterMap]
    simp only [htype, true_and, List.mem_range, freeablePage_eq]
    unfold MmapEntry.start MmapEntry.stop alignDown
    simp only [pageSize]
    generalize wrap32 (wrap32 e.addr + (4096 - 1)) / 4096 = a
    generalize wrap32 (wrap32 e.addr + wrap32 e.len) / 4096 = b
    constructor
    · intro ⟨k, hk, hdiv, hpos⟩
      omega
    · intro ⟨hpos, hlo, hhi⟩
      exact ⟨page.val - a, by omega, by omega, hpos⟩
  · rw [if_neg htype]
    simp [htype]

/-- The page lies wholly inside the 64-bit range of the entry. -/
def MmapEntry.Covers (e : MmapEntry) (page : Page) : Prop :=
  e.addr ≤ page.val * pageSize ∧ (page.val + 1) * pageSize ≤ e.addr + e.len

/-- Below the last page of the first 4 GB the 32-bit bounds stay inside the entry. -/
theorem covers_of_releases {e : MmapEntry} (haddr : e.addr ≤ 0xFFFFF000) {page : Page}
    (h : page ∈ e.releases) : e.Covers page := by
  have ⟨_, _, hlo, hhi⟩ := mem_releases.mp h
  have hbase : wrap32 e.addr = e.addr := wrap32_of_lt (by omega)
  have hroom := page_lt_alignDown hhi
  have hstop := alignDown_le (wrap32 (wrap32 e.addr + wrap32 e.len))
  have hlen : wrap32 e.len ≤ e.len := Nat.mod_le _ _
  have hstart : e.addr ≤ page.val * 4096 := by
    unfold MmapEntry.start at hlo
    rw [hbase, wrap32_of_lt (by simp only [pageSize]; omega)] at hlo
    simp only [alignDown, pageSize] at hlo
    omega
  rw [hbase] at hroom hstop
  have hsum : wrap32 (e.addr + wrap32 e.len) ≤ e.addr + wrap32 e.len := Nat.mod_le _ _
  exact ⟨hstart, by omega⟩

/-! ## The bitmap after boot -/

theorem mem_mapReleases {es : List MmapEntry} {page : Page} :
    page ∈ mapReleases es ↔ ∃ e ∈ es, page ∈ e.releases :=
  List.mem_flatMap

theorem boot_free_iff (mbi : MultibootInfo) (kernelEnd : ℕ) (es : List MmapEntry) (page : Page) :
    (pmmBoot mbi kernelEnd es).testBit page = false ↔
      256 ≤ page.val ∧ kernelEndPage kernelEnd < page.val ∧ ∃ e ∈ es, page ∈ e.releases := by
  unfold pmmBoot
  rw [testBit_reserveKernel, testBit_reserveLow, testBit_foldl_give, testBit_pmmStart,
    ← mem_mapReleases]
  simp only [Bool.or_eq_false_iff, decide_eq_false_iff_not, Bool.true_and, not_not]
  constructor
  · intro ⟨hkernel, hlow, hrel⟩
    exact ⟨by omega, by omega, hrel⟩
  · intro ⟨hlow, hkernel, hrel⟩
    exact ⟨by omega, by omega, hrel⟩

/-- What a free page should be: available memory, above the low megabyte and the kernel. -/
structure ReallyFree (kernelEnd : ℕ) (es : List MmapEntry) (page : Page) : Prop where
  available : ∃ e ∈ es, e.type = 1 ∧ e.Covers page
  notNull : page.val ≠ 0
  aboveLow : 0x100000 ≤ page.val * pageSize
  aboveKernel : kernelEnd / pageSize < page.val

/-- An available entry from the last page of the first 4 GB on does no harm when each page of its
cut range that the kernel does not keep is available anyway. -/
def HighEntriesHarmless (kernelEnd : ℕ) (es : List MmapEntry) : Prop :=
  ∀ e ∈ es, e.type = 1 → 0xFFFFF000 < e.addr →
    ∀ page : Page, 256 ≤ page.val → kernelEndPage kernelEnd < page.val →
      e.start ≤ page.val * pageSize → page.val * pageSize < e.stop →
        ∃ e' ∈ es, e'.type = 1 ∧ e'.Covers page

theorem boot_really_free_iff (mbi : MultibootInfo) (kernelEnd : ℕ) (es : List MmapEntry) :
    (∀ page, (pmmBoot mbi kernelEnd es).testBit page = false → ReallyFree kernelEnd es page) ↔
      HighEntriesHarmless kernelEnd es := by
  constructor
  · intro hfree e he htype _ page hlow hkernel hlo hhi
    apply (hfree page _).available
    rw [boot_free_iff]
    exact ⟨hlow, hkernel, e, he, mem_releases.mpr ⟨htype, by omega, hlo, hhi⟩⟩
  · intro hharmless page hpage
    have ⟨hlow, hkernel, e, he, hrel⟩ := (boot_free_iff ..).mp hpage
    have ⟨htype, hpos, hlo, hhi⟩ := mem_releases.mp hrel
    refine ⟨?_, by omega, by simp only [pageSize]; omega, by unfold kernelEndPage at hkernel; omega⟩
    by_cases haddr : e.addr ≤ 0xFFFFF000
    · exact ⟨e, he, htype, covers_of_releases haddr hrel⟩
    · exact hharmless e he htype (not_le.mp haddr) page hlow hkernel hlo hhi

/-- No page is wrongly freed at boot exactly when the entries above the first 4 GB do no harm. -/
theorem freed_pages_available_iff (fuel : ℕ) (mem : Memory) (mbi : MultibootInfo) (kernelEnd : ℕ)
    (es : List MmapEntry) (p : Pmm) (hmap : mbi.HasMap mem es)
    (hinit : pmmInit fuel mem mbi kernelEnd = some p) :
    (∀ page, p.testBit page = false → ReallyFree kernelEnd es page) ↔
      HighEntriesHarmless kernelEnd es := by
  rw [pmmInit_eq hmap hinit]
  exact boot_really_free_iff mbi kernelEnd es

/-- 3 MB from the first megabyte on. -/
def lowMap : List MmapEntry := [⟨20, 0x100000, 0x300000, 1⟩]

theorem lowMap_standard : ∀ e ∈ lowMap, e.Standard := by
  intro e he
  rw [List.mem_singleton.mp he]
  exact ⟨by decide, by decide, by decide, by decide⟩

theorem freed_pages_available_lowMap :
    (∀ page, (pmmBoot (bootInfo 640 3072 lowMap) 0x120000 lowMap).testBit page = false →
      ReallyFree 0x120000 lowMap page) ↔ HighEntriesHarmless 0x120000 lowMap :=
  freed_pages_available_iff 2 (bootMemory lowMap) (bootInfo 640 3072 lowMap) 0x120000 lowMap _
    (bootInfo_hasMap 640 3072 lowMap_standard (by decide))
    (pmmInit_returns 0x120000 (bootInfo_hasMap 640 3072 lowMap_standard (by decide)))

/-- One page of memory, 4 MB above the first 4 GB. -/
def highMap : List MmapEntry := [⟨20, 0x100400000, 0x1000, 1⟩]

/-- Its page is cut to page 1024, which no entry makes available. -/
theorem high_entry_frees_low_page :
    ¬ ∀ fuel mem mbi kernelEnd es p, MultibootInfo.HasMap mbi mem es →
      pmmInit fuel mem mbi kernelEnd = some p →
        ∀ page, p.testBit page = false → ReallyFree kernelEnd es page := by
  intro hall
  have hstandard : ∀ e ∈ highMap, e.Standard := by
    intro e he
    rw [List.mem_singleton.mp he]
    exact ⟨by decide, by decide, by decide, by decide⟩
  have hmap := bootInfo_hasMap 640 3072 hstandard (by decide)
  have hfree := hall _ _ _ 0x120000 _ _ hmap (pmmInit_returns 0x120000 hmap)
  have hreleased : (1024 : Page) ∈ (⟨20, 0x100400000, 0x1000, 1⟩ : MmapEntry).releases := by
    rw [mem_releases]
    decide
  have ⟨e, he, _, hcovers⟩ := (hfree 1024 ((boot_free_iff ..).mpr
    ⟨by decide, by decide, _, List.mem_singleton_self _, hreleased⟩)).available
  rw [List.mem_singleton.mp he] at hcovers
  exact absurd hcovers.1 (by decide)

end MyMisu
