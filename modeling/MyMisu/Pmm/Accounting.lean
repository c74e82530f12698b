import Mathlib.Data.Nat.ModEq
import MyMisu.Pmm.FreedPages

/-!
# Page accounting

The counter `used_pages` beside the bitmap.  Every call changes both together; the walk over the
memory map alone counts a page down each time an entry releases it, so the counter is off by the
number of repeated releases, and stays off.  The reported number of free pages compares the counter
with a total that comes from the memory sizes and not from the bitmap.
-/

namespace MyMisu

/-- The counter is off by `released - distinct`, modulo the width of a `uint32_t`. -/
structure Balanced (released distinct : ℕ) (p : Pmm) : Prop where
  lt : p.usedPages < 2 ^ 32
  eq : (p.usedPages + released) % 2 ^ 32 = (p.bitmap.count + distinct) % 2 ^ 32

namespace Balanced

variable {released distinct : ℕ} {p : Pmm}

theorem take (h : Balanced released distinct p) {page : Page} (hclear : p.testBit page = false) :
    Balanced released distinct (p.take page) := by
  have heq := h.eq
  have hcount : (p.take page).bitmap.count = p.bitmap.count + 1 := Bitmap.count_set hclear
  have hused : (p.take page).usedPages = (p.usedPages + 1) % 2 ^ 32 := rfl
  exact ⟨by omega, by omega⟩

theorem give (h : Balanced released distinct p) {page : Page} (hset : p.testBit page = true) :
    Balanced released distinct (p.give page) := by
  have heq := h.eq
  have hcount : (p.give page).bitmap.count + 1 = p.bitmap.count := Bitmap.count_clear hset
  have hused : (p.give page).usedPages = (p.usedPages + (2 ^ 32 - 1)) % 2 ^ 32 := rfl
  exact ⟨by omega, by omega⟩

theorem reserve (h : Balanced released distinct p) (k : ℕ) :
    Balanced released distinct (p.reserve k) := by
  unfold Pmm.reserve
  by_cases hk : k < maxPages
  · rw [dif_pos hk]
    by_cases hset : p.testBit ⟨k, hk⟩ = true
    · rwa [if_pos hset]
    · rw [if_neg hset]
      exact h.take (eq_false_of_ne_true hset)
  · rwa [dif_neg hk]

theorem foldl_reserve (h : Balanced released distinct p) (ks : List ℕ) :
    Balanced released distinct (ks.foldl Pmm.reserve p) := by
  induction ks generalizing p with
  | nil => exact h
  | cons k ks ih => exact ih (h.reserve k)

theorem exec (h : Balanced released distinct p) (op : PmmOp) :
    Balanced released distinct (pmmExec p op) := by
  cases op with
  | alloc =>
    show Balanced released distinct (pmmAllocPage p).2
    unfold pmmAllocPage
    cases hpage : p.bitmap.firstClear with
    | none => exact h
    | some page => exact h.take (Bitmap.firstClear_some hpage)
  | free addr =>
    show Balanced released distinct (pmmFreePage p addr)
    unfold pmmFreePage
    by_cases hlt : addr / pageSize < maxPages
    · rw [dif_pos hlt]
      by_cases hset : p.testBit ⟨addr / pageSize, hlt⟩ = true
      · rw [if_pos hset]
        exact h.give hset
      · rwa [if_neg hset]
    · rwa [dif_neg hlt]

theorem run (h : Balanced released distinct p) (ops : List PmmOp) :
    Balanced released distinct (ops.foldl pmmExec p) := by
  induction ops generalizing p with
  | nil => exact h
  | cons op ops ih => exact ih (h.exec op)

theorem used_eq_count_iff (h : Balanced released distinct p) :
    p.usedPages = p.bitmap.count ↔ released ≡ distinct [MOD 2 ^ 32] := by
  have heq := h.eq
  have hlt := h.lt
  have hcount := p.bitmap.count_le
  unfold Nat.ModEq
  simp only [bitmapSize] at hcount
  omega

end Balanced

/-! ## The counter after boot -/

theorem toFinset_foldl_give (p : Pmm) (pages : List Page) :
    (pages.foldl Pmm.give p).bitmap.toFinset = p.bitmap.toFinset \ pages.toFinset := by
  ext page
  rw [Finset.mem_sdiff, Bitmap.mem_toFinset, Bitmap.mem_toFinset, List.mem_toFinset]
  show (pages.foldl Pmm.give p).testBit page = true ↔ p.testBit page = true ∧ page ∉ pages
  rw [testBit_foldl_give, Bool.and_eq_true, decide_eq_true_iff]

theorem usedPages_foldl_give (p : Pmm) (pages : List Page) (h : p.usedPages < 2 ^ 32) :
    (pages.foldl Pmm.give p).usedPages < 2 ^ 32 ∧
      ((pages.foldl Pmm.give p).usedPages + pages.length) % 2 ^ 32 = p.usedPages := by
  induction pages generalizing p with
  | nil => exact ⟨h, Nat.mod_eq_of_lt h⟩
  | cons page pages ih =>
    have hused : (p.give page).usedPages = (p.usedPages + (2 ^ 32 - 1)) % 2 ^ 32 := rfl
    have ⟨hlt, heq⟩ := ih (p.give page) (by omega)
    rw [List.foldl_cons, List.length_cons]
    exact ⟨hlt, by omega⟩

theorem boot_balanced (mbi : MultibootInfo) (kernelEnd : ℕ) (es : List MmapEntry) :
    Balanced (mapReleases es).length (mapReleases es).toFinset.card (pmmBoot mbi kernelEnd es) := by
  apply Balanced.foldl_reserve
  apply Balanced.foldl_reserve
  have hstart : (pmmStart mbi).usedPages = 32768 := rfl
  have ⟨hlt, heq⟩ := usedPages_foldl_give (pmmStart mbi) (mapReleases es) (by omega)
  have hfull : (pmmStart mbi).bitmap.toFinset = Finset.univ := by
    ext page
    rw [Bitmap.mem_toFinset]
    exact iff_of_true (testBit_pmmStart page mbi) (Finset.mem_univ page)
  have hcount : ((mapReleases es).foldl Pmm.give (pmmStart mbi)).bitmap.count +
      (mapReleases es).toFinset.card = maxPages := by
    unfold Bitmap.count
    rw [toFinset_foldl_give, hfull, ← Finset.compl_eq_univ_sdiff, Finset.card_compl_add_card,
      Fintype.card_fin]
  simp only [maxPages, bitmapSize] at hcount
  exact ⟨hlt, by omega⟩

/-- After every sequence of calls the counter is the number of set bits exactly when the map
released no page twice (or `2 ^ 32` times too often). -/
theorem used_pages_count_iff (fuel : ℕ) (mem : Memory) (mbi : MultibootInfo) (kernelEnd : ℕ)
    (es : List MmapEntry) (p : Pmm) (hmap : mbi.HasMap mem es)
    (hinit : pmmInit fuel mem mbi kernelEnd = some p) (ops : List PmmOp) :
    (ops.foldl pmmExec p).usedPages = (ops.foldl pmmExec p).bitmap.count ↔
      (mapReleases es).length ≡ (mapReleases es).toFinset.card [MOD 2 ^ 32] := by
  rw [pmmInit_eq hmap hinit]
  exact ((boot_balanced mbi kernelEnd es).run ops).used_eq_count_iff

theorem used_pages_count_lowMap :
    ([PmmOp.alloc].foldl pmmExec (pmmBoot (bootInfo 640 3072 lowMap) 0x120000 lowMap)).usedPages =
        ([PmmOp.alloc].foldl pmmExec
          (pmmBoot (bootInfo 640 3072 lowMap) 0x120000 lowMap)).bitmap.count ↔
      (mapReleases lowMap).length ≡ (mapReleases lowMap).toFinset.card [MOD 2 ^ 32] :=
  used_pages_count_iff 2 (bootMemory lowMap) (bootInfo 640 3072 lowMap) 0x120000 lowMap _
    (bootInfo_hasMap 640 3072 lowMap_standard (by decide))
    (pmmInit_returns 0x120000 (bootInfo_hasMap 640 3072 lowMap_standard (by decide))) [.alloc]

/-- One page listed twice. -/
def overlapMap : List MmapEntry := [⟨20, 0x400000, 0x1000, 1⟩, ⟨20, 0x400000, 0x1000, 1⟩]

/-- The page is counted down twice, so the counter is one short from boot on. -/
theorem overlapping_entries_miscount :
    ¬ ∀ fuel mem mbi kernelEnd es p, MultibootInfo.HasMap mbi mem es →
      pmmInit fuel mem mbi kernelEnd = some p → ∀ ops : List PmmOp,
        (ops.foldl pmmExec p).usedPages = (ops.foldl pmmExec p).bitmap.count := by
  intro hall
  have hstandard : ∀ e ∈ overlapMap, e.Standard := by
    intro e he
    simp only [overlapMap, List.mem_cons, List.not_mem_nil, or_false, or_self] at he
    rw [he]
    exact ⟨by decide, by decide, by decide, by decide⟩
  have hmap := bootInfo_hasMap 640 7168 hstandard (by decide)
  have hused := hall _ _ _ 0x120000 _ _ hmap (pmmInit_returns 0x120000 hmap) []
  have hmod := ((boot_balanced _ 0x120000 overlapMap).run []).used_eq_count_iff.mp hused
  have hreleases : mapReleases overlapMap = [1024, 1024] := by decide +kernel
  rw [hreleases] at hmod
  exact absurd hmod (by decide)

end MyMisu
