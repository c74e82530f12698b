import MyMisu.Pmm.Accounting

/-!
# The reported free memory

`pmm_get_free_pages` against the number of pages the allocator can still hand out.  On a regular
memory map the counter is right, so the report is right exactly when the total it is subtracted
from is the size of the bitmap, or nothing is left.
-/

namespace MyMisu

/-- The available regions are page-aligned, below 4 GB and disjoint. -/
structure RegularMap (es : List MmapEntry) : Prop where
  aligned : ∀ e ∈ es, e.type = 1 → e.addr % pageSize = 0 ∧ e.len % pageSize = 0
  below : ∀ e ∈ es, e.type = 1 → e.addr + e.len ≤ 2 ^ 32
  disjoint : es.Pairwise fun a b => a.type = 1 → b.type = 1 →
    a.addr + a.len ≤ b.addr ∨ b.addr + b.len ≤ a.addr

/-- The memory sizes are those of the regions at 0 and at 1 MB. -/
structure MultibootInfo.Describes (mbi : MultibootInfo) (es : List MmapEntry) : Prop where
  lower : ∃ e ∈ es, e.type = 1 ∧ e.addr = 0 ∧ e.len = mbi.memLower.toNat * 1024
  upper : ∃ e ∈ es, e.type = 1 ∧ e.addr = 0x100000 ∧ e.len = mbi.memUpper.toNat * 1024

/-- What the next `n` calls of `pmm_alloc_page` return. -/
def allocResults (p : Pmm) : ℕ → List ℕ
  | 0 => []
  | n + 1 => (pmmAllocPage p).1 :: allocResults (pmmAllocPage p).2 n

/-- How many of the next `n` calls return an address. -/
def furtherAllocs (p : Pmm) (n : ℕ) : ℕ := (allocResults p n).countP fun addr => addr ≠ 0

/-! ## No page is released twice -/

theorem releases_nodup (e : MmapEntry) : e.releases.Nodup := by
  unfold MmapEntry.releases
  split
  · apply List.Nodup.filterMap _ List.nodup_range
    intro k k' page hk hk'
    have hdiv := (freeablePage_eq.mp hk).1
    have hdiv' := (freeablePage_eq.mp hk').1
    unfold MmapEntry.start alignDown at hdiv hdiv'
    simp only [pageSize] at hdiv hdiv'
    omega
  · exact List.nodup_nil

namespace RegularMap

variable {es : List MmapEntry} (h : RegularMap es)

include h

theorem covers {e : MmapEntry} (he : e ∈ es) {page : Page} (hrel : page ∈ e.releases) :
    e.Covers page := by
  have ⟨htype, _, _, hhi⟩ := mem_releases.mp hrel
  have ⟨haddr, _⟩ := h.aligned e he htype
  have hbelow := h.below e he htype
  by_cases htop : e.addr = 2 ^ 32
  -- an empty region at 4 GB is cut to an empty one at 0
  · have hlen : e.len = 0 := by omega
    have hstop : e.stop = 0 := by
      unfold MmapEntry.stop
      rw [htop, hlen]
      rfl
    rw [hstop] at hhi
    omega
  · apply covers_of_releases _ hrel
    simp only [pageSize] at haddr
    omega

theorem mapReleases_nodup : (mapReleases es).Nodup := by
  unfold mapReleases
  rw [List.nodup_flatMap]
  refine ⟨fun e _ => releases_nodup e, ?_⟩
  apply h.disjoint.imp_of_mem
  intro a b ha hb hdisj page hpa hpb
  have hca := h.covers ha hpa
  have hcb := h.covers hb hpb
  have hapart := hdisj (mem_releases.mp hpa).1 (mem_releases.mp hpb).1
  have h1 := hca.1
  have h2 := hca.2
  have h3 := hcb.1
  have h4 := hcb.2
  simp only [pageSize] at h1 h2 h3 h4
  omega

theorem used_eq_count (mbi : MultibootInfo) (kernelEnd : ℕ) (ops : List PmmOp) :
    (ops.foldl pmmExec (pmmBoot mbi kernelEnd es)).usedPages =
      (ops.foldl pmmExec (pmmBoot mbi kernelEnd es)).bitmap.count := by
  rw [((boot_balanced mbi kernelEnd es).run ops).used_eq_count_iff,
    List.toFinset_card_of_nodup h.mapReleases_nodup]

end RegularMap

/-! ## What the allocator can hand out -/

/-- The clear pages. -/
def Pmm.clearPages (p : Pmm) : Finset Page := p.bitmap.toFinsetᶜ

theorem mem_clearPages {p : Pmm} {page : Page} :
    page ∈ p.clearPages ↔ p.testBit page = false := by
  unfold Pmm.clearPages
  rw [Finset.mem_compl, Bitmap.mem_toFinset]
  exact Bool.eq_false_iff.symm

theorem clearPages_take (p : Pmm) (page : Page) :
    (p.take page).clearPages = p.clearPages.erase page := by
  ext i
  rw [mem_clearPages, testBit_take, Finset.mem_erase, mem_clearPages, Bool.or_eq_false_iff,
    decide_eq_false_iff_not]

theorem count_add_clearPages (p : Pmm) : p.bitmap.count + p.clearPages.card = maxPages := by
  have hcompl := Finset.card_add_card_compl p.bitmap.toFinset
  rwa [Fintype.card_fin] at hcompl

/-- Enough calls hand out every clear page but page 0, whose address is 0. -/
theorem furtherAllocs_eq {p : Pmm} {n : ℕ} (hn : p.clearPages.card ≤ n) :
    furtherAllocs p n = (p.clearPages.erase 0).card := by
  induction n generalizing p with
  | zero =>
    -- each successful call takes one clear page, so n calls reach the end
    rw [Finset.card_eq_zero.mp (Nat.le_zero.mp hn)]
    rfl
  | succ n ih =>
    have hstep : furtherAllocs p (n + 1) = furtherAllocs (pmmAllocPage p).2 n +
        if (pmmAllocPage p).1 ≠ 0 then 1 else 0 := by
      unfold furtherAllocs
      rw [allocResults, List.countP_cons]
      simp only [decide_eq_true_eq]
    rw [hstep]
    unfold pmmAllocPage
    cases hpage : p.bitmap.firstClear with
    | none =>
      have hempty : p.clearPages = ∅ := by
        ext page
        rw [mem_clearPages, show p.testBit page = true from Bitmap.firstClear_none hpage page]
        simp
      simp only [ne_eq, not_true_eq_false, if_false, Nat.add_zero]
      rw [hempty] at hn ⊢
      rw [ih (by rw [hempty]; simp), hempty]
    | some page =>
      have hmem : page ∈ p.clearPages := mem_clearPages.mpr (Bitmap.firstClear_some hpage)
      have hcard := Finset.card_erase_add_one hmem
      simp only
      rw [ih (by rw [clearPages_take]; omega), clearPages_take, Finset.erase_right_comm]
      by_cases h0 : page = 0
      -- address 0 is what a failed allocation returns: page 0 is taken and not counted
      · have haddr : page.val * pageSize = 0 := by rw [h0]; rfl
        rw [if_neg (not_not.mpr haddr), h0, Finset.erase_idem, Nat.add_zero]
      · have hval : page.val ≠ 0 := fun hv => h0 (Fin.ext hv)
        have haddr : page.val * pageSize ≠ 0 := by simp only [pageSize]; omega
        rw [if_pos haddr]
        exact Finset.card_erase_add_one (Finset.mem_erase.mpr ⟨h0, hmem⟩)

/-- Page 0 may have been freed, and its address is no page to a caller. -/
def Pmm.nullFree (p : Pmm) : ℕ := if p.testBit 0 then 0 else 1

theorem nullFree_le (p : Pmm) : p.nullFree ≤ 1 := by
  unfold Pmm.nullFree
  split <;> decide

theorem clearPages_card (p : Pmm) :
    p.clearPages.card = (p.clearPages.erase 0).card + p.nullFree := by
  unfold Pmm.nullFree
  by_cases h0 : p.testBit 0 = true
  · rw [if_pos h0, Finset.erase_eq_of_notMem, Nat.add_zero]
    rw [mem_clearPages, h0]
    decide
  · rw [if_neg h0, Finset.card_erase_add_one]
    exact mem_clearPages.mpr (eq_false_of_ne_true h0)

/-- Every page that an allocation could return is taken. -/
def Pmm.Exhausted (p : Pmm) : Prop := ∀ page : Page, page ≠ 0 → p.testBit page = true

theorem exhausted_iff (p : Pmm) : p.Exhausted ↔ (p.clearPages.erase 0).card = 0 := by
  rw [Finset.card_eq_zero, Finset.eq_empty_iff_forall_notMem]
  constructor
  · intro hall page hpage
    have ⟨h0, hmem⟩ := Finset.mem_erase.mp hpage
    rw [mem_clearPages, hall page h0] at hmem
    cases hmem
  · intro hnone page h0
    by_contra hclear
    exact hnone page (Finset.mem_erase.mpr ⟨h0, mem_clearPages.mpr (eq_false_of_ne_true hclear)⟩)

theorem freePages_eq_iff {p : Pmm} (hused : p.usedPages = p.bitmap.count) :
    pmmGetFreePages p = (p.clearPages.erase 0).card ↔
      pmmGetTotalPages p + p.nullFree = maxPages ∨
        p.Exhausted ∧ pmmGetTotalPages p + p.nullFree ≤ maxPages := by
  have hcount := count_add_clearPages p
  have hcard := clearPages_card p
  rw [exhausted_iff]
  unfold pmmGetFreePages pmmGetTotalPages
  rw [hused]
  split <;> omega

theorem totalPages_boot (mbi : MultibootInfo) (kernelEnd : ℕ) (es : List MmapEntry) :
    pmmGetTotalPages (pmmBoot mbi kernelEnd es) = (pmmStart mbi).totalPages := by
  have hreserve : ∀ (ks : List ℕ) (p : Pmm), (ks.foldl Pmm.reserve p).totalPages = p.totalPages := by
    intro ks
    induction ks with
    | nil => exact fun _ => rfl
    | cons k ks ih =>
      intro p
      rw [List.foldl_cons, ih]
      unfold Pmm.reserve
      split
      · split <;> rfl
      · rfl
  have hgive : ∀ (pages : List Page) (p : Pmm),
      (pages.foldl Pmm.give p).totalPages = p.totalPages := by
    intro pages
    induction pages with
    | nil => exact fun _ => rfl
    | cons page pages ih =>
      intro p
      rw [List.foldl_cons, ih]
      rfl
  unfold pmmGetTotalPages pmmBoot Pmm.reserveKernel Pmm.reserveLow
  rw [hreserve, hreserve, hgive]

/-- On a regular map the report is the number of pages that can still be allocated exactly when the
total is the size of the bitmap, or no page is left. -/
theorem free_pages_real_iff (fuel : ℕ) (mem : Memory) (mbi : MultibootInfo) (kernelEnd : ℕ)
    (es : List MmapEntry) (p : Pmm) (hmap : mbi.HasMap mem es) (hregular : RegularMap es)
    (hinit : pmmInit fuel mem mbi kernelEnd = some p) (ops : List PmmOp) (q : Pmm)
    (hq : q = ops.foldl pmmExec p) (n : ℕ) (hn : maxPages ≤ n) :
    pmmGetFreePages q = furtherAllocs q n ↔
      pmmGetTotalPages q + q.nullFree = maxPages ∨
        q.Exhausted ∧ pmmGetTotalPages q + q.nullFree ≤ maxPages := by
  have hused : q.usedPages = q.bitmap.count := by
    rw [hq, pmmInit_eq hmap hinit]
    exact hregular.used_eq_count mbi kernelEnd ops
  have hclear := count_add_clearPages q
  rw [furtherAllocs_eq (by omega)]
  exact freePages_eq_iff hused

theorem lowMap_regular : RegularMap lowMap :=
  ⟨by decide, by decide, List.pairwise_singleton _ _⟩

theorem free_pages_real_lowMap :
    pmmGetFreePages (pmmBoot (bootInfo 640 3072 lowMap) 0x120000 lowMap) =
        furtherAllocs (pmmBoot (bootInfo 640 3072 lowMap) 0x120000 lowMap) maxPages ↔
      pmmGetTotalPages (pmmBoot (bootInfo 640 3072 lowMap) 0x120000 lowMap) +
            (pmmBoot (bootInfo 640 3072 lowMap) 0x120000 lowMap).nullFree = maxPages ∨
        (pmmBoot (bootInfo 640 3072 lowMap) 0x120000 lowMap).Exhausted ∧
          pmmGetTotalPages (pmmBoot (bootInfo 640 3072 lowMap) 0x120000 lowMap) +
            (pmmBoot (bootInfo 640 3072 lowMap) 0x120000 lowMap).nullFree ≤ maxPages :=
  free_pages_real_iff 2 (bootMemory lowMap) (bootInfo 640 3072 lowMap) 0x120000 lowMap _
    (bootInfo_hasMap 640 3072 lowMap_standard (by decide)) lowMap_regular
    (pmmInit_returns 0x120000 (bootInfo_hasMap 640 3072 lowMap_standard (by decide))) [] _
    List.foldl_nil.symm maxPages le_rfl

/-- A machine with 64 MB: 640 KB at 0 and 63 MB at 1 MB. -/
def smallMap : List MmapEntry := [⟨20, 0, 0xA0000, 1⟩, ⟨20, 0x100000, 0x3F00000, 1⟩]

/-- Its total is 16544 pages while 16640 of the bitmap's bits are set from boot on, so the report
is 0 with 60 MB free. -/
theorem small_machine_reports_none :
    ¬ ∀ fuel mem mbi kernelEnd es p, MultibootInfo.HasMap mbi mem es → RegularMap es →
      mbi.Describes es → pmmInit fuel mem mbi kernelEnd = some p → ∀ ops : List PmmOp,
        ∀ n, maxPages ≤ n → pmmGetFreePages (ops.foldl pmmExec p) =
          furtherAllocs (ops.foldl pmmExec p) n := by
  intro hall
  have hstandard : ∀ e ∈ smallMap, e.Standard := by
    intro e he
    simp only [smallMap, List.mem_cons, List.not_mem_nil, or_false] at he
    rcases he with he | he <;> rw [he] <;> exact ⟨by decide, by decide, by decide, by decide⟩
  have hregular : RegularMap smallMap := ⟨by decide, by decide, by decide⟩
  -- mem_lower and mem_upper as the boot loader reports them for this map
  have hdescribes : (bootInfo 640 64512 smallMap).Describes smallMap :=
    ⟨⟨_, List.mem_cons_self, by decide⟩, ⟨_, List.mem_cons_of_mem _ List.mem_cons_self, by decide⟩⟩
  have hmap := bootInfo_hasMap 640 64512 hstandard (by decide)
  have hinit := pmmInit_returns 0x120000 hmap
  have hreport := hall _ _ _ 0x120000 _ _ hmap hregular hdescribes hinit [] maxPages le_rfl
  have hclear := count_add_clearPages (pmmBoot (bootInfo 640 64512 smallMap) 0x120000 smallMap)
  have hused := hregular.used_eq_count (bootInfo 640 64512 smallMap) 0x120000 []
  rw [List.foldl_nil] at hused hreport
  rw [furtherAllocs_eq (by omega), freePages_eq_iff hused] at hreport
  have htotal : pmmGetTotalPages (pmmBoot (bootInfo 640 64512 smallMap) 0x120000 smallMap) =
      16544 := by
    rw [totalPages_boot]
    decide +kernel
  have hnull := nullFree_le (pmmBoot (bootInfo 640 64512 smallMap) 0x120000 smallMap)
  rcases hreport with heq | ⟨hfull, -⟩
  -- neither way out: the total is half the bitmap, and page 1024 is still free
  · simp only [maxPages, bitmapSize] at heq
    omega
  · have hset := hfull 1024 (by decide)
    have hreleased : (1024 : Page) ∈ (⟨20, 0x100000, 0x3F00000, 1⟩ : MmapEntry).releases := by
      rw [mem_releases]
      decide
    have hmem : (⟨20, 0x100000, 0x3F00000, 1⟩ : MmapEntry) ∈ smallMap :=
      List.mem_cons_of_mem _ List.mem_cons_self
    rw [(boot_free_iff (bootInfo 640 64512 smallMap) 0x120000 smallMap 1024).mpr
      ⟨by decide, by decide, _, hmem, hreleased⟩] at hset
    cases hset

end MyMisu
