import MyMisu.Pmm.State

/-!
# The walk over the memory map

What `pmm_init` computes, as a function of the entries its walk meets: the pages the available
entries release, with the low megabyte and the kernel reserved again.
-/

namespace MyMisu

/-- The entries from `addr` on, as the walk meets them. -/
inductive MmapWalk (mem : Memory) (mmapEnd : ℕ) : ℕ → List MmapEntry → Prop
  | done {addr : ℕ} : ¬ addr < mmapEnd → MmapWalk mem mmapEnd addr []
  | next {addr : ℕ} {es : List MmapEntry} : addr < mmapEnd →
      MmapWalk mem mmapEnd (nextEntry mem addr) es →
      MmapWalk mem mmapEnd addr (MmapEntry.read mem addr :: es)

/-- The memory map handed over by the boot loader, with no entries when it gives none. -/
def MultibootInfo.HasMap (mbi : MultibootInfo) (mem : Memory) (es : List MmapEntry) : Prop :=
  if mbi.hasMmap then MmapWalk mem mbi.mmapEnd mbi.mmapAddr.toNat es else es = []

/-- The pages an entry releases, in order. -/
def MmapEntry.releases (e : MmapEntry) : List Page :=
  if e.type = 1 then
    (List.range ((e.stop - e.start) / pageSize)).filterMap fun k =>
      freeablePage (e.start + k * pageSize)
  else []

/-- The pages the entries of a map release, each as often as it is released. -/
def mapReleases (es : List MmapEntry) : List Page := es.flatMap MmapEntry.releases

/-- What `pmm_init` leaves for a map. -/
def pmmBoot (mbi : MultibootInfo) (kernelEnd : ℕ) (es : List MmapEntry) : Pmm :=
  ((mapReleases es).foldl Pmm.give (pmmStart mbi)).reserveLow.reserveKernel kernelEnd

theorem giveEntry_eq (p : Pmm) (e : MmapEntry) : p.giveEntry e = e.releases.foldl Pmm.give p := by
  unfold Pmm.giveEntry MmapEntry.releases
  split
  · rw [List.foldl_filterMap]
    congr 1
    ext p k : 2
    unfold Pmm.giveAt
    cases freeablePage (e.start + k * pageSize) <;> rfl
  · rfl

theorem foldl_giveEntry (p : Pmm) (es : List MmapEntry) :
    es.foldl Pmm.giveEntry p = (mapReleases es).foldl Pmm.give p := by
  induction es generalizing p with
  | nil => rfl
  | cons e es ih =>
    rw [List.foldl_cons, ih, giveEntry_eq, mapReleases, mapReleases, List.flatMap_cons,
      List.foldl_append]

section Walk

variable {mem : Memory} {mbi : MultibootInfo} {es : List MmapEntry}

theorem walkBody_eq (mem : Memory) (addr : ℕ) (p : Pmm) :
    walkBody mem (addr, p) = some (nextEntry mem addr, p.giveEntry (.read mem addr)) := rfl

theorem walk_eq {mmapEnd addr fuel : ℕ} {p : Pmm} {t : ℕ × Pmm}
    (hes : MmapWalk mem mmapEnd addr es)
    (h : whileLoop (walkCond mmapEnd) (walkBody mem) fuel (addr, p) = some t) :
    t.2 = es.foldl Pmm.giveEntry p := by
  induction hes generalizing fuel p with
  | @done addr hend =>
    cases fuel with
    | zero => cases h
    | succ fuel =>
      have hcond : walkCond mmapEnd (addr, p) = false := decide_eq_false hend
      rw [WhileLoop.exit hcond] at h
      cases h
      rfl
  | @next addr es hlt _ ih =>
    cases fuel with
    | zero => cases h
    | succ fuel =>
      have hcond : walkCond mmapEnd (addr, p) = true := decide_eq_true hlt
      rw [WhileLoop.enter hcond (walkBody_eq mem addr p)] at h
      exact ih h

theorem walk_returns {mmapEnd addr : ℕ} (hes : MmapWalk mem mmapEnd addr es) (p : Pmm) :
    ∃ t, whileLoop (walkCond mmapEnd) (walkBody mem) (es.length + 1) (addr, p) = some t := by
  induction hes generalizing p with
  | @done addr hend =>
    have hcond : walkCond mmapEnd (addr, p) = false := decide_eq_false hend
    exact ⟨_, WhileLoop.exit hcond _⟩
  | @next addr es hlt _ ih =>
    have hcond : walkCond mmapEnd (addr, p) = true := decide_eq_true hlt
    rw [List.length_cons, WhileLoop.enter hcond (walkBody_eq mem addr p)]
    exact ih _

theorem walk_of_returns {mmapEnd fuel : ℕ} {s t : ℕ × Pmm}
    (h : whileLoop (walkCond mmapEnd) (walkBody mem) fuel s = some t) :
    ∃ es, MmapWalk mem mmapEnd s.1 es := by
  induction fuel generalizing s with
  | zero => cases h
  | succ fuel ih =>
    by_cases hlt : s.1 < mmapEnd
    · have hcond : walkCond mmapEnd s = true := decide_eq_true hlt
      rw [WhileLoop.enter hcond (walkBody_eq mem s.1 s.2)] at h
      have ⟨es, hes⟩ := ih h
      exact ⟨_, .next hlt hes⟩
    · exact ⟨[], .done hlt⟩

/-- The walk of a boot that terminates has met the entries of a map. -/
theorem hasMap_of_returns {fuel kernelEnd : ℕ} {p : Pmm}
    (h : pmmInit fuel mem mbi kernelEnd = some p) : ∃ es, mbi.HasMap mem es := by
  have ⟨q, hq, _⟩ := Option.map_eq_some_iff.mp h
  unfold MultibootInfo.HasMap
  by_cases hflag : mbi.hasMmap = true
  · rw [if_pos hflag] at hq
    have ⟨t, ht, _⟩ := Option.map_eq_some_iff.mp hq
    simp only [hflag, if_true]
    exact walk_of_returns ht
  · simp only [hflag]
    exact ⟨[], rfl⟩

theorem pmmInit_eq {fuel kernelEnd : ℕ} {p : Pmm} (hmap : mbi.HasMap mem es)
    (h : pmmInit fuel mem mbi kernelEnd = some p) : p = pmmBoot mbi kernelEnd es := by
  have ⟨q, hq, hp⟩ := Option.map_eq_some_iff.mp h
  unfold MultibootInfo.HasMap at hmap
  unfold pmmBoot
  rw [← hp]
  split at hmap
  · next hflag =>
    rw [if_pos hflag] at hq
    have ⟨t, ht, htq⟩ := Option.map_eq_some_iff.mp hq
    rw [← htq, walk_eq hmap ht, foldl_giveEntry]
  · next hflag =>
    rw [if_neg hflag] at hq
    rw [← Option.some.inj hq, hmap]
    rfl

theorem pmmInit_returns (kernelEnd : ℕ) (hmap : mbi.HasMap mem es) :
    pmmInit (es.length + 1) mem mbi kernelEnd = some (pmmBoot mbi kernelEnd es) := by
  have hsome : ∃ p, pmmInit (es.length + 1) mem mbi kernelEnd = some p := by
    unfold pmmInit
    unfold MultibootInfo.HasMap at hmap
    split at hmap
    · next hflag =>
      have ⟨t, ht⟩ := walk_returns hmap (pmmStart mbi)
      rw [if_pos hflag, ht]
      exact ⟨_, rfl⟩
    · next hflag =>
      rw [if_neg hflag]
      exact ⟨_, rfl⟩
  have ⟨p, hp⟩ := hsome
  rw [hp, pmmInit_eq hmap hp]

end Walk

/-! ## Maps laid out in memory -/

/-- The `n` bytes of a number, least significant first. -/
def writeLe (value : ℕ) : ℕ → List UInt8
  | 0 => []
  | n + 1 => (value % 256).toUInt8 :: writeLe (value / 256) n

/-- The bytes of the packed structure. -/
def MmapEntry.bytes (e : MmapEntry) : List UInt8 :=
  writeLe e.size 4 ++ (writeLe e.addr 8 ++ (writeLe e.len 8 ++ writeLe e.type 4))

/-- An entry as boot loaders write it: 20 bytes behind the size field. -/
structure MmapEntry.Standard (e : MmapEntry) : Prop where
  size : e.size = 20
  addr : e.addr < 2 ^ 64
  len : e.len < 2 ^ 64
  type : e.type < 2 ^ 32

/-- The bytes lie in memory from `addr` on. -/
def Lies (mem : Memory) (addr : ℕ) (bs : List UInt8) : Prop :=
  ∀ i (hi : i < bs.length), mem (addr + i) = bs[i]

theorem Lies.left {mem : Memory} {addr : ℕ} {as bs : List UInt8} (h : Lies mem addr (as ++ bs)) :
    Lies mem addr as := by
  intro i hi
  rw [h i (by rw [List.length_append]; omega), List.getElem_append_left hi]

theorem Lies.right {mem : Memory} {addr : ℕ} {as bs : List UInt8} (h : Lies mem addr (as ++ bs)) :
    Lies mem (addr + as.length) bs := by
  intro i hi
  rw [Nat.add_assoc, h _ (by rw [List.length_append]; omega),
    List.getElem_append_right (by omega)]
  simp

theorem writeLe_length (value n : ℕ) : (writeLe value n).length = n := by
  induction n generalizing value with
  | zero => rfl
  | succ n ih => rw [writeLe, List.length_cons, ih]

theorem readLe_of_lies {mem : Memory} {addr value n : ℕ} (h : Lies mem addr (writeLe value n))
    (hvalue : value < 256 ^ n) (haddr : addr + n ≤ 2 ^ 32) : readLe mem addr n = value := by
  induction n generalizing addr value with
  | zero =>
    rw [pow_zero] at hvalue
    rw [readLe]
    omega
  | succ n ih =>
    have h : Lies mem addr ([(value % 256).toUInt8] ++ writeLe (value / 256) n) := h
    have hhead : mem addr = (value % 256).toUInt8 := h 0 (Nat.succ_pos _)
    have htail : Lies mem (addr + 1) (writeLe (value / 256) n) := h.right
    rw [pow_succ] at hvalue
    rw [readLe, ih htail (by omega) (by omega), wrap32_of_lt (by omega), hhead]
    have hbyte : (value % 256).toUInt8.toNat = value % 256 := by simp
    omega

theorem MmapEntry.bytes_length (e : MmapEntry) : e.bytes.length = 24 := by
  unfold bytes
  simp only [List.length_append, writeLe_length]

theorem MmapEntry.read_of_lies {mem : Memory} {addr : ℕ} {e : MmapEntry} (he : e.Standard)
    (h : Lies mem addr e.bytes) (haddr : addr + 24 ≤ 2 ^ 32) : MmapEntry.read mem addr = e := by
  have hsize := he.size
  have haddr64 := he.addr
  have hlen64 := he.len
  have htype := he.type
  have h4 := h.right
  have h12 := h4.right
  have h20 := h12.right
  rw [writeLe_length] at h4 h12 h20
  rw [writeLe_length] at h12 h20
  rw [writeLe_length] at h20
  unfold MmapEntry.read
  rw [readLe_of_lies h.left (by omega) (by omega), readLe_of_lies h4.left (by omega) (by omega),
    readLe_of_lies h12.left (by omega) (by omega), readLe_of_lies h20 (by omega) (by omega)]

theorem walk_of_lies {mem : Memory} {addr mmapEnd : ℕ} {es : List MmapEntry}
    (hes : ∀ e ∈ es, e.Standard) (h : Lies mem addr (es.flatMap MmapEntry.bytes))
    (hend : mmapEnd = addr + 24 * es.length) (hmax : mmapEnd < 2 ^ 32) :
    MmapWalk mem mmapEnd addr es := by
  induction es generalizing addr with
  | nil =>
    rw [List.length_nil] at hend
    exact .done (by omega)
  | cons e es ih =>
    rw [List.flatMap_cons] at h
    rw [List.length_cons] at hend
    have hread := MmapEntry.read_of_lies (hes e List.mem_cons_self) h.left (by omega)
    have htail := h.right
    rw [MmapEntry.bytes_length] at htail
    have hnext : nextEntry mem addr = addr + 24 := by
      unfold nextEntry
      rw [hread, (hes e List.mem_cons_self).size, wrap32_of_lt (by omega)]
    rw [← hread]
    apply MmapWalk.next (by omega)
    rw [hnext]
    exact ih (fun e' he' => hes e' (List.mem_cons_of_mem _ he')) htail (by omega)

/-- A boot with the given map, laid out from `0x9000` on. -/
def bootInfo (memLower memUpper : UInt32) (es : List MmapEntry) : MultibootInfo where
  flags := 0x40
  memLower := memLower
  memUpper := memUpper
  mmapLength := (24 * es.length).toUInt32
  mmapAddr := 0x9000

def bootMemory (es : List MmapEntry) : Memory :=
  fun a => (es.flatMap MmapEntry.bytes).getD (a - 0x9000) 0

/-- Every list of standard entries is the map of some boot. -/
theorem bootInfo_hasMap (memLower memUpper : UInt32) {es : List MmapEntry}
    (hes : ∀ e ∈ es, e.Standard) (hlen : es.length < 2 ^ 24) :
    (bootInfo memLower memUpper es).HasMap (bootMemory es) es := by
  have hflag : (bootInfo memLower memUpper es).hasMmap = true := by
    show ((0x40 : UInt32) &&& ((1 : UInt32) <<< 6) != 0) = true
    decide
  have hcount : (24 * es.length).toUInt32.toNat = 24 * es.length := by
    show (24 * es.length) % 2 ^ 32 = 24 * es.length
    omega
  have hend : (bootInfo memLower memUpper es).mmapEnd = 0x9000 + 24 * es.length := by
    show wrap32 ((0x9000 : UInt32).toNat + (24 * es.length).toUInt32.toNat) = _
    rw [hcount]
    exact wrap32_of_lt (by show 0x9000 + _ < 2 ^ 32; omega)
  unfold MultibootInfo.HasMap
  rw [if_pos hflag]
  apply walk_of_lies hes _ hend (by omega)
  intro i hi
  show (es.flatMap MmapEntry.bytes).getD (0x9000 + i - 0x9000) 0 = _
  rw [Nat.add_sub_cancel_left, List.getD_eq_getElem?_getD, List.getElem?_eq_getElem hi,
    Option.getD_some]

end MyMisu
