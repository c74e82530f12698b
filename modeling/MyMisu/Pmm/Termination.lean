import MyMisu.Pmm.MemoryMap

/-!
# Whether `pmm_init` returns

The loops over the pages of an entry always end: they go up in steps that divide their bound.  The walk
over the entries goes on by the size each of them states, with an addition that wraps, so a map can
lead back to an entry the walk has been at; it is then that the walk does not end, and only then.
-/

namespace MyMisu

/-! ## The loops, both with a bound on their rounds -/

/-- `addr < end` -/
def pageCond (stop : ℕ) (s : ℕ × Pmm) : Bool := decide (s.1 < stop)

/-- The body of the loop over the pages, and `addr += PAGE_SIZE`. -/
def pageBody (s : ℕ × Pmm) : Option (ℕ × Pmm) := some (wrap32 (s.1 + pageSize), s.2.giveAt s.1)

/-- The entry in the body of the walk. -/
def Pmm.giveEntryLoop (fuel : ℕ) (p : Pmm) (e : MmapEntry) : Option Pmm :=
  if e.type = 1 then (whileLoop (pageCond e.stop) pageBody fuel (e.start, p)).map Prod.snd else some p

def walkLoopBody (fuel : ℕ) (mem : Memory) (s : ℕ × Pmm) : Option (ℕ × Pmm) := do
  let p ← s.2.giveEntryLoop fuel (.read mem s.1)
  some (nextEntry mem s.1, p)

/-- `pmm_init` with `fuel` for the walk and for each loop over pages. -/
def pmmInitLoops (fuel : ℕ) (mem : Memory) (mbi : MultibootInfo) (kernelEnd : ℕ) : Option Pmm :=
  let walked :=
    if mbi.hasMmap then
      (whileLoop (walkCond mbi.mmapEnd) (walkLoopBody fuel mem) fuel
        (mbi.mmapAddr.toNat, pmmStart mbi)).map Prod.snd
    else some (pmmStart mbi)
  walked.map fun p => p.reserveLow.reserveKernel kernelEnd

/-! ## The pages of an entry -/

theorem pageLoop_eq {stop k addr n : ℕ} (hstop : addr + k * pageSize = stop) (hmax : stop < 2 ^ 32)
    (hn : k < n) (p : Pmm) :
    whileLoop (pageCond stop) pageBody n (addr, p) =
      some (stop, (List.range k).foldl (fun p i => p.giveAt (addr + i * pageSize)) p) := by
  induction k generalizing addr n p with
  | zero =>
    rw [Nat.zero_mul, Nat.add_zero] at hstop
    obtain ⟨n, rfl⟩ := Nat.exists_eq_add_of_lt hn
    have hcond : pageCond stop (addr, p) = false := decide_eq_false (by rw [hstop]; exact lt_irrefl _)
    rw [WhileLoop.exit hcond, hstop]
    rfl
  | succ k ih =>
    obtain ⟨n, rfl⟩ := Nat.exists_eq_add_of_lt hn
    have hnext : addr + pageSize + k * pageSize = stop := by
      rw [← hstop, Nat.succ_mul]
      omega
    have hpos : 0 < pageSize := by decide
    have hcond : pageCond stop (addr, p) = true := decide_eq_true (by omega)
    have hbody : pageBody (addr, p) = some (addr + pageSize, p.giveAt addr) := by
      rw [pageBody, wrap32_of_lt (by omega)]
    have hshift : ∀ i, addr + pageSize + i * pageSize = addr + (i + 1) * pageSize := by
      intro i
      rw [Nat.add_mul, Nat.one_mul, Nat.add_assoc, Nat.add_comm pageSize]
    have hfirst : addr + 0 * pageSize = addr := by
      rw [Nat.zero_mul]
      rfl
    have hround := (WhileLoop.enter hcond hbody (k + 1 + n)).trans (ih hnext (by omega) (p.giveAt addr))
    rw [hround, List.range_succ_eq_map, List.foldl_cons, List.foldl_map, hfirst]
    refine congrArg (fun f => some (stop, (List.range k).foldl f (p.giveAt addr))) ?_
    funext p i
    rw [hshift]

theorem alignDown_lt {n : ℕ} (h : n < 2 ^ 32) : alignDown n < 2 ^ 32 :=
  (Nat.div_mul_le_self n pageSize).trans_lt h

/-- The loop over the pages of an entry ends after less than 2^20 rounds. -/
theorem giveEntryLoop_eq {fuel : ℕ} (hfuel : 2 ^ 20 ≤ fuel) (p : Pmm) (e : MmapEntry) :
    p.giveEntryLoop fuel e = some (p.giveEntry e) := by
  unfold Pmm.giveEntryLoop Pmm.giveEntry
  by_cases htype : e.type = 1
  · rw [if_pos htype, if_pos htype]
    have hstop : e.stop < 2 ^ 32 := alignDown_lt (Nat.mod_lt _ (by decide))
    by_cases hlt : e.start < e.stop
    · -- both bounds are multiples of the page size
      have hpages : e.start + (e.stop - e.start) / pageSize * pageSize = e.stop := by
        have hdvd : pageSize ∣ e.stop - e.start :=
          Nat.dvd_sub (Nat.dvd_mul_left _ _) (Nat.dvd_mul_left _ _)
        rw [Nat.div_mul_cancel hdvd]
        omega
      have hcount : (e.stop - e.start) / pageSize < fuel := by
        refine Nat.div_lt_of_lt_mul ((Nat.sub_le _ _).trans_lt (hstop.trans_le ?_))
        exact Nat.mul_le_mul_left pageSize hfuel
      rw [pageLoop_eq hpages hstop hcount]
      rfl
    · obtain ⟨n, rfl⟩ : ∃ n, fuel = n + 1 := ⟨fuel - 1, by omega⟩
      have hnone : (e.stop - e.start) / pageSize = 0 := by
        rw [Nat.sub_eq_zero_of_le (by omega), Nat.zero_div]
      have hcond : pageCond e.stop (e.start, p) = false := decide_eq_false hlt
      rw [WhileLoop.exit hcond, hnone]
      rfl
  · rw [if_neg htype, if_neg htype]

/-! ## The walk -/

section Walk

variable {mem : Memory} {mmapEnd addr fuel : ℕ}

theorem walkLoopBody_eq (hfuel : 2 ^ 20 ≤ fuel) (mem : Memory) (s : ℕ × Pmm) :
    walkLoopBody fuel mem s = walkBody mem s := by
  unfold walkLoopBody
  rw [giveEntryLoop_eq hfuel]
  rfl

/-- With rounds enough for every loop over pages, `pmm_init` is what it is with those loops at one go. -/
theorem pmmInitLoops_eq (hfuel : 2 ^ 20 ≤ fuel) (mem : Memory) (mbi : MultibootInfo) (kernelEnd : ℕ) :
    pmmInitLoops fuel mem mbi kernelEnd = pmmInit fuel mem mbi kernelEnd := by
  have hbody : walkLoopBody fuel mem = walkBody mem := funext (walkLoopBody_eq hfuel mem)
  unfold pmmInitLoops pmmInit
  rw [hbody]

/-- A walk that returns has met the entries of a map. -/
theorem mmapWalk_of_loops {n : ℕ} {s t : ℕ × Pmm}
    (h : whileLoop (walkCond mmapEnd) (walkLoopBody fuel mem) n s = some t) :
    ∃ es, MmapWalk mem mmapEnd s.1 es := by
  induction n generalizing s with
  | zero => cases h
  | succ n ih =>
    by_cases hlt : s.1 < mmapEnd
    · have hcond : walkCond mmapEnd s = true := decide_eq_true hlt
      rw [whileLoop, if_pos hcond] at h
      obtain ⟨q, hq, hrest⟩ := Option.bind_eq_some_iff.mp h
      -- whatever the pages of the entry did, the walk goes on at the next one
      obtain ⟨p, -, hp⟩ := Option.bind_eq_some_iff.mp hq
      cases hp
      obtain ⟨es, hes⟩ := ih hrest
      exact ⟨_, .next hlt hes⟩
    · exact ⟨[], .done hlt⟩

/-- The address of an entry, as many entries behind the one at `addr`. -/
def entryAddr (mem : Memory) (addr k : ℕ) : ℕ := (nextEntry mem)^[k] addr

/-- The walk meets entries until one of them does not lie before the end. -/
theorem mmapWalk_iff :
    (∃ es, MmapWalk mem mmapEnd addr es) ↔ ∃ k, ¬ entryAddr mem addr k < mmapEnd := by
  constructor
  · rintro ⟨es, hes⟩
    induction hes with
    | @done addr hend => exact ⟨0, hend⟩
    | @next addr es _ _ ih =>
      obtain ⟨k, hk⟩ := ih
      exact ⟨k + 1, hk⟩
  · rintro ⟨k, hk⟩
    induction k generalizing addr with
    | zero => exact ⟨[], .done hk⟩
    | succ k ih =>
      by_cases hlt : addr < mmapEnd
      · obtain ⟨es, hes⟩ : ∃ es, MmapWalk mem mmapEnd (nextEntry mem addr) es := ih hk
        exact ⟨_, .next hlt hes⟩
      · exact ⟨[], .done hlt⟩

/-- The bytes of the next `n` entries as their sizes state them, the size fields included. -/
def entryBytes (mem : Memory) (addr n : ℕ) : ℕ :=
  ((List.range n).map fun k => (MmapEntry.read mem (entryAddr mem addr k)).size + 4).sum

theorem entryAddr_eq (haddr : addr < 2 ^ 32) (mem : Memory) (n : ℕ) :
    entryAddr mem addr n = wrap32 (addr + entryBytes mem addr n) := by
  induction n with
  | zero => exact (wrap32_of_lt haddr).symm
  | succ n ih =>
    have hbytes : entryBytes mem addr (n + 1) =
        entryBytes mem addr n + ((MmapEntry.read mem (entryAddr mem addr n)).size + 4) := by
      simp [entryBytes, List.range_succ]
    have hnext : entryAddr mem addr (n + 1) = nextEntry mem (entryAddr mem addr n) :=
      Function.iterate_succ_apply' _ _ _
    rw [hbytes, hnext, nextEntry]
    -- the address wraps at each entry, the sum of the sizes only at the end
    generalize (MmapEntry.read mem (entryAddr mem addr n)).size = size
    rw [ih]
    unfold wrap32
    omega

theorem entryAddr_comeback (haddr : addr < 2 ^ 32) (mem : Memory) (i n : ℕ) :
    entryAddr mem addr (i + n) = entryAddr mem addr i ↔
      2 ^ 32 ∣ entryBytes mem (entryAddr mem addr i) n := by
  have hlt : entryAddr mem addr i < 2 ^ 32 := by
    rw [entryAddr_eq haddr]
    exact Nat.mod_lt _ (by decide)
  have hadd : entryAddr mem addr (i + n) = entryAddr mem (entryAddr mem addr i) n := by
    rw [Nat.add_comm]
    exact Function.iterate_add_apply _ _ _ _
  rw [hadd, entryAddr_eq hlt]
  unfold wrap32
  omega

end Walk

/-- Some of the entries that the walk meets make up a multiple of 2^32 bytes, which leads back to the
first of them. -/
def MultibootInfo.Circular (mbi : MultibootInfo) (mem : Memory) : Prop :=
  ∃ i n, 0 < n ∧ (∀ k < i + n, entryAddr mem mbi.mmapAddr.toNat k < mbi.mmapEnd) ∧
    2 ^ 32 ∣ entryBytes mem (entryAddr mem mbi.mmapAddr.toNat i) n

theorem circular_iff (mbi : MultibootInfo) (mem : Memory) :
    mbi.Circular mem ↔ ∀ k, entryAddr mem mbi.mmapAddr.toNat k < mbi.mmapEnd := by
  have haddr : mbi.mmapAddr.toNat < 2 ^ 32 := mbi.mmapAddr.toNat_lt
  have hback := fun i n => entryAddr_comeback haddr mem i n
  unfold MultibootInfo.Circular
  simp only [← hback]
  -- there are finitely many addresses before the end, so a walk that stays before it comes back
  exact (WhileLoop.forall_iterate_iff (Set.finite_Iio mbi.mmapEnd) mbi.mmapAddr.toNat).symm

theorem hasMap_iff (mbi : MultibootInfo) (mem : Memory) :
    (∃ es, mbi.HasMap mem es) ↔ ¬ (mbi.hasMmap = true ∧ mbi.Circular mem) := by
  unfold MultibootInfo.HasMap
  by_cases hflag : mbi.hasMmap = true
  · simp only [if_pos hflag]
    rw [mmapWalk_iff, and_iff_right hflag, circular_iff, not_forall]
  · simp only [if_neg hflag]
    exact iff_of_true ⟨[], rfl⟩ fun h => hflag h.1

theorem pmmInit_mono {fuel fuel' : ℕ} (hle : fuel ≤ fuel') {mem : Memory} {mbi : MultibootInfo}
    {kernelEnd : ℕ} {p : Pmm} (h : pmmInit fuel mem mbi kernelEnd = some p) :
    pmmInit fuel' mem mbi kernelEnd = some p := by
  unfold pmmInit at h ⊢
  obtain ⟨q, hq, hp⟩ := Option.map_eq_some_iff.mp h
  by_cases hflag : mbi.hasMmap = true
  · rw [if_pos hflag] at hq ⊢
    obtain ⟨t, ht, rfl⟩ := Option.map_eq_some_iff.mp hq
    rw [WhileLoop.mono hle ht, ← hp]
    rfl
  · rw [if_neg hflag] at hq ⊢
    rw [hq, ← hp]
    rfl

/-- `pmm_init` returns for the maps that have an end. -/
theorem pmmInitLoops_iff (mem : Memory) (mbi : MultibootInfo) (kernelEnd : ℕ) :
    (∃ fuel p, pmmInitLoops fuel mem mbi kernelEnd = some p) ↔ ∃ es, mbi.HasMap mem es := by
  constructor
  · rintro ⟨fuel, p, h⟩
    obtain ⟨q, hq, -⟩ := Option.map_eq_some_iff.mp h
    unfold MultibootInfo.HasMap
    by_cases hflag : mbi.hasMmap = true
    · rw [if_pos hflag] at hq
      obtain ⟨t, ht, -⟩ := Option.map_eq_some_iff.mp hq
      simp only [if_pos hflag]
      exact mmapWalk_of_loops ht
    · simp only [if_neg hflag]
      exact ⟨[], rfl⟩
  · rintro ⟨es, hmap⟩
    -- rounds for the walk, and for the pages of any entry
    refine ⟨es.length + 1 + 2 ^ 20, pmmBoot mbi kernelEnd es, ?_⟩
    rw [pmmInitLoops_eq (Nat.le_add_left _ _)]
    exact pmmInit_mono (Nat.le_add_right _ _) (pmmInit_returns kernelEnd hmap)

/-- **`pmm_init` returns**, unless there is a memory map and it leads back to an entry the walk has met. -/
theorem pmmInit_terminates_iff (mem : Memory) (mbi : MultibootInfo) (kernelEnd : ℕ) :
    (∃ fuel p, pmmInitLoops fuel mem mbi kernelEnd = some p) ↔
      ¬ (mbi.hasMmap = true ∧ mbi.Circular mem) := by
  rw [pmmInitLoops_iff, hasMap_iff]

/-- An entry of 2^32 bytes. -/
theorem pmmInit_diverges :
    ¬ ∀ mem mbi kernelEnd, ∃ fuel p, pmmInitLoops fuel mem mbi kernelEnd = some p := by
  intro h
  let mem : Memory := fun a => if a = 0x9000 then 0xFC else 0xFF
  let mbi : MultibootInfo := ⟨0x40, 639, 130048, 24, 0x9000⟩
  have hmap := (pmmInitLoops_iff mem mbi 0x110000).mp (h mem mbi 0x110000)
  have hbytes : entryBytes mem 0x9000 1 = 2 ^ 32 := by decide +kernel
  refine (hasMap_iff mbi mem).mp hmap ⟨by decide, 0, 1, Nat.one_pos, ?_, ?_⟩
  · intro k hk
    obtain rfl : k = 0 := by omega
    show (0x9000 : ℕ) < 0x9018
    decide
  · show 2 ^ 32 ∣ entryBytes mem 0x9000 1
    rw [hbytes]

end MyMisu
