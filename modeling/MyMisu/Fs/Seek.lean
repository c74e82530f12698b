import MyMisu.Fs.ReadBack

/-!
# Seeking, and writing where one has sought to

`fs_lseek` forms its sum in 32 bits before it checks the range.  The offsets and sizes of a reachable
state are too small for a wrapped sum to come back into the range, but nothing keeps the sum itself
from overflowing.  A write of no bytes still moves the end of a file up to the offset.
-/

namespace MyMisu

variable {s : FsState} {fd : FdIdx}

/-! ## Seeking -/

/-- The number the offset counts from, for the values of `whence` that have a meaning. -/
def seekBase (s : FsState) (fd : FdIdx) (whence : ℤ) : Option ℕ :=
  if whence = seekSet then some 0
  else if whence = seekCur then some (s.fdTable fd).offset
  else if whence = seekEnd then some (s.nodes (s.fdTable fd).node).size
  else none

/-- A seek goes to `base + d` if that integer is an offset, and otherwise fails without a trace. -/
def LseekExact (s : FsState) (fd : FdIdx) (d whence : ℤ) : Prop :=
  fsLseek s (fd : ℕ) d whence =
    match seekBase s fd whence with
    | none => (Errno.einval.ret, s)
    | some base =>
      if 0 ≤ base + d ∧ base + d ≤ 4095 then
        (base + d, s.setFd fd { s.fdTable fd with offset := (base + d).toNat })
      else (Errno.einval.ret, s)

/-- The values of the additions `fs_lseek` makes; for `SEEK_SET` it makes none. -/
def lseekSums (s : FsState) (fd : FdIdx) (d whence : ℤ) : List ℤ :=
  if whence = seekSet then []
  else if whence = seekCur then [intOfU32 (s.fdTable fd).offset + d]
  else if whence = seekEnd then [intOfU32 (s.nodes (s.fdTable fd).node).size + d]
  else []

/-- Too large a sum of a small number and an `int32_t` wraps below 0. -/
theorem wrapInt32_of_ge {x : ℤ} (hlo : 2 ^ 31 ≤ x) (hhi : x < 2 ^ 32) : wrapInt32 x < 0 := by
  rw [wrapInt32]
  omega

/-- The check of the new offset, and its store. -/
def seekTo (s : FsState) (fd : FdIdx) (newOff : ℤ) : ℤ × FsState :=
  if newOff < 0 then (Errno.einval.ret, s)
  else if newOff > (fsMaxData : ℤ) - 1 then (Errno.einval.ret, s)
  else (newOff, s.setFd fd { s.fdTable fd with offset := newOff.toNat })

/-- The sum, wrapped to 32 bits, is what `fs_lseek` checks and stores. -/
theorem fsLseek_sums (hu : (s.fdTable fd).inUse = true) (d whence : ℤ) :
    fsLseek s (fd : ℕ) d whence =
      if whence = seekSet then seekTo s fd d
      else
        match lseekSums s fd d whence with
        | [] => (Errno.einval.ret, s)
        | sum :: _ => seekTo s fd (wrapInt32 sum) := by
  unfold fsLseek lseekSums seekTo
  rw [openFd_val hu]
  simp only
  by_cases hset : whence = seekSet
  · rw [if_pos hset, if_pos hset]
  rw [if_neg hset, if_neg hset, if_neg hset]
  by_cases hcur : whence = seekCur
  · rw [if_pos hcur, if_pos hcur]
  rw [if_neg hcur, if_neg hcur]
  by_cases hend : whence = seekEnd
  · rw [if_pos hend, if_pos hend]
  · rw [if_neg hend, if_neg hend]

/-- The check of the sum after it is wrapped is the check of the sum. -/
theorem seekTo_sum (s : FsState) (fd : FdIdx) {base : ℕ} (hbase : base ≤ 4095) {d : ℤ} (hd : FitsInt32 d) :
    seekTo s fd (wrapInt32 (base + d)) =
      if 0 ≤ base + d ∧ base + d ≤ 4095 then
        (base + d, s.setFd fd { s.fdTable fd with offset := (base + d).toNat })
      else (Errno.einval.ret, s) := by
  have hmax : (fsMaxData : ℤ) - 1 = 4095 := rfl
  unfold seekTo
  rw [hmax]
  by_cases hfits : FitsInt32 (base + d)
  · rw [wrapInt32_of_fits hfits]
    by_cases hneg : (base : ℤ) + d < 0
    · rw [if_pos hneg, if_neg (by omega)]
    rw [if_neg hneg]
    by_cases hbig : (base : ℤ) + d > 4095
    · rw [if_pos hbig, if_neg (by omega)]
    · rw [if_neg hbig, if_pos (by omega)]
  · -- the sum is above the range of `int32_t`, so it wraps to a negative number
    obtain ⟨hlo, hhi⟩ := hd
    have hbig : 2 ^ 31 ≤ (base : ℤ) + d := by
      by_contra hlt
      exact hfits ⟨by omega, by omega⟩
    rw [if_pos (wrapInt32_of_ge hbig (by omega)), if_neg (by omega)]

/-- With sums that wrap, every seek is exact. -/
theorem lseek_exact (h : fsSystem.Reachable s) (hu : (s.fdTable fd).inUse = true) {d : ℤ}
    (hd : FitsInt32 d) (whence : ℤ) : LseekExact s fd d whence := by
  have hsize : (s.nodes (s.fdTable fd).node).size ≤ 4095 :=
    Nat.le_of_lt_succ ((NodeBounds.reachable h).size _)
  have hoff : (s.fdTable fd).offset ≤ 4095 := by
    have ⟨hoff, _⟩ := FdBounds.reachable h fd hu
    exact Nat.le_of_lt_succ hoff
  unfold LseekExact seekBase
  rw [fsLseek_sums hu, lseekSums, intOfU32_of_lt (by omega), intOfU32_of_lt (by omega)]
  by_cases hset : whence = seekSet
  · rw [if_pos hset, if_pos hset]
    -- the offset is checked as a sum with base 0
    have hzero := seekTo_sum s fd (Nat.zero_le _) hd
    rw [Nat.cast_zero, zero_add, wrapInt32_of_fits hd] at hzero
    simp only [Nat.cast_zero, zero_add]
    exact hzero
  rw [if_neg hset, if_neg hset, if_neg hset]
  by_cases hcur : whence = seekCur
  · rw [if_pos hcur, if_pos hcur]
    exact seekTo_sum s fd hoff hd
  rw [if_neg hcur, if_neg hcur]
  by_cases hend : whence = seekEnd
  · rw [if_pos hend, if_pos hend]
    exact seekTo_sum s fd hsize hd
  · rw [if_neg hend, if_neg hend]

/-- A seek is exact and makes no addition that overflows exactly when the sum it forms from the
current offset or from the size is an `int32_t`. -/
theorem lseek_exact_iff (s : FsState) (h : fsSystem.Reachable s) (fd : FdIdx)
    (hu : (s.fdTable fd).inUse = true) (d whence : ℤ) (hd : FitsInt32 d) :
    (LseekExact s fd d whence ∧ ∀ x ∈ lseekSums s fd d whence, FitsInt32 x) ↔
      (whence = seekCur → (s.fdTable fd).offset + d < 2 ^ 31) ∧
        (whence = seekEnd → (s.nodes (s.fdTable fd).node).size + d < 2 ^ 31) := by
  have hsize : (s.nodes (s.fdTable fd).node).size ≤ 4095 :=
    Nat.le_of_lt_succ ((NodeBounds.reachable h).size _)
  have hoff : (s.fdTable fd).offset ≤ 4095 := Nat.le_of_lt_succ (FdBounds.reachable h fd hu).1
  obtain ⟨hlo, hhi⟩ := hd
  rw [and_iff_right (lseek_exact h hu ⟨hlo, hhi⟩ whence)]
  unfold lseekSums
  rw [intOfU32_of_lt (by omega), intOfU32_of_lt (by omega)]
  have hne : seekCur ≠ seekSet ∧ seekEnd ≠ seekSet ∧ seekEnd ≠ seekCur := by decide
  by_cases hcur : whence = seekCur
  · rw [hcur, if_neg hne.1, if_pos rfl, List.forall_mem_singleton]
    exact ⟨fun hfits => ⟨fun _ => hfits.2, fun heq => absurd heq.symm hne.2.2⟩,
      fun hcond => ⟨by omega, hcond.1 rfl⟩⟩
  by_cases hend : whence = seekEnd
  · rw [hend, if_neg hne.2.1, if_neg hne.2.2, if_pos rfl, List.forall_mem_singleton]
    exact ⟨fun hfits => ⟨fun heq => absurd heq hne.2.2, fun _ => hfits.2⟩,
      fun hcond => ⟨by omega, hcond.2 rfl⟩⟩
  -- without an addition there is nothing to overflow
  rw [if_neg hcur, if_neg hend, ite_self]
  exact iff_of_true (fun x hx => absurd hx List.not_mem_nil)
    ⟨fun heq => absurd heq hcur, fun heq => absurd heq hend⟩

theorem lseek_exact_hostname :
    LseekExact hostnameOpen 0 5 seekEnd ∧ ∀ x ∈ lseekSums hostnameOpen 0 5 seekEnd, FitsInt32 x :=
  (lseek_exact_iff hostnameOpen (.next (.init ⟨0, rfl⟩) rfl) 0 (by decide +kernel) 5 seekEnd
    (by decide)).mpr ⟨fun h => absurd h (by decide), fun _ => by decide +kernel⟩

/-- `fs_lseek(fd, INT32_MAX, SEEK_END)` on a file of 7 bytes. -/
theorem lseek_overflows :
    ¬ ∀ s, fsSystem.Reachable s → ∀ fd, (s.fdTable fd).inUse = true → ∀ d whence, FitsInt32 d →
      LseekExact s fd d whence ∧ ∀ x ∈ lseekSums s fd d whence, FitsInt32 x := by
  intro hall
  have hreach : fsSystem.Reachable hostnameOpen := .next (.init ⟨0, rfl⟩) rfl
  have hfits := (hall hostnameOpen hreach 0 (by decide +kernel) (2 ^ 31 - 1) seekEnd
    (by decide)).2
  revert hfits
  decide +kernel

/-! ## Writing no bytes -/

/-- No file has another size or another content than before. -/
def SameContents (s s' : FsState) : Prop :=
  ∀ i, s.used i → (s.nodes i).type = .file →
    (s'.nodes i).size = (s.nodes i).size ∧ (s'.nodes i).content = (s.nodes i).content

/-- `fs_write_fd(fd, buf, 0)`; `buf` tells whether the pointer is non-NULL. -/
def writeNothing (s : FsState) (fd : ℤ) (buf : Bool) : ℤ × FsState :=
  fsWriteFd s fd (if buf then some [] else none)

/-- The descriptor may write, does not append, and is beyond the end of a file. -/
def BeyondEnd (s : FsState) (fd : ℤ) : Prop :=
  ∃ i, openFd s fd = some i ∧ (s.fdTable i).flags &&& 0x3 ≠ oRdonly ∧
    hasFlag (s.fdTable i).flags oAppend = false ∧
    s.used (s.fdTable i).node ∧ (s.nodes (s.fdTable i).node).type = .file ∧
    (s.nodes (s.fdTable i).node).size < (s.fdTable i).offset ∧ (s.fdTable i).offset < 4095

theorem SameContents.ofNodes {s' : FsState} (h : s'.nodes = s.nodes) : SameContents s s' := by
  intro i _ _
  rw [h]
  exact ⟨rfl, rfl⟩

/-- Nothing is copied, so only the end of the node can move. -/
theorem written_nothing {node : FsNode} {off : ℕ} (hoff : off ≤ node.size) :
    (node.written off [] 0).size = node.size ∧ (node.written off [] 0).content = node.content := by
  have hsize : (node.written off [] 0).size = node.size := max_eq_left hoff
  refine ⟨hsize, ?_⟩
  unfold FsNode.content
  rw [hsize]
  apply bytesAt_congr
  intro j _ hj
  exact FsNode.written_outside (Nat.zero_le _) (by omega) (by omega)

/-- The node of an open descriptor after a write of no bytes to its offset. -/
theorem sameContents_written {i : NodeIdx} {off : ℕ} {s' : FsState} (hnodes : s'.nodes = s.nodes) :
    SameContents s (s'.setNode i ((s.nodes i).written off [] 0)) ↔
      ¬ (s.used i ∧ (s.nodes i).type = .file ∧ (s.nodes i).size < off) := by
  constructor
  · intro hsame ⟨hu, hfile, hlt⟩
    have hsize := (hsame i hu hfile).1
    rw [FsState.setNode_self] at hsize
    have hmax : max (s.nodes i).size off = (s.nodes i).size := hsize
    omega
  · intro hno j hu hfile
    by_cases hj : j = i
    · rw [hj] at hu hfile ⊢
      rw [FsState.setNode_self]
      exact written_nothing (not_lt.mp fun hlt => hno ⟨hu, hfile, hlt⟩)
    · rw [FsState.setNode_ne _ _ hj, hnodes]
      exact ⟨rfl, rfl⟩

theorem writeNothing_open {fd : ℤ} {i : FdIdx} (hi : openFd s fd = some i)
    (hacc : (s.fdTable i).flags &&& 0x3 ≠ oRdonly) :
    let node := s.nodes (s.fdTable i).node
    let f := (s.fdTable i).writeStart node
    (writeNothing s fd true).2 =
      if f.offset ≥ 4095 then s.setFd i f
      else (s.setFd i f).setNode (s.fdTable i).node (node.written f.offset [] 0) := by
  intro node f
  have hroom : f.room [] = 0 := Nat.zero_min _
  have hwrite := fsWriteFd_open hi hacc [] (show _ = f from rfl)
  rw [hroom, FsFd.writeStart_node] at hwrite
  show (fsWriteFd s fd (some [])).2 = _
  rw [hwrite]
  exact apply_ite Prod.snd _ _ _

theorem beyondEnd_iff {fd : ℤ} {i : FdIdx} (hi : openFd s fd = some i) :
    BeyondEnd s fd ↔ (s.fdTable i).flags &&& 0x3 ≠ oRdonly ∧
      hasFlag (s.fdTable i).flags oAppend = false ∧
      s.used (s.fdTable i).node ∧ (s.nodes (s.fdTable i).node).type = .file ∧
      (s.nodes (s.fdTable i).node).size < (s.fdTable i).offset ∧ (s.fdTable i).offset < 4095 := by
  unfold BeyondEnd
  simp only [hi, Option.some.injEq, exists_eq_left']

/-- The call fails before it looks at a node. -/
theorem writeNothing_refused {fd : ℤ} {buf : Bool}
    (hrefused : buf = false ∨ ∀ i, openFd s fd = some i → (s.fdTable i).flags &&& 0x3 = oRdonly) :
    (writeNothing s fd buf).2 = s := by
  unfold writeNothing fsWriteFd
  rcases hi : openFd s fd with _ | i
  · rfl
  rcases hrefused with hnull | hacc
  · rw [hnull]
    rfl
  · cases buf with
    | false => rfl
    | true => simp only [if_true, if_pos (hacc i hi)]

/-- With a descriptor that may write, the offset at which nothing is written decides. -/
theorem writeNothing_open_iff {fd : ℤ} {i : FdIdx} (hi : openFd s fd = some i)
    (hacc : (s.fdTable i).flags &&& 0x3 ≠ oRdonly) :
    SameContents s (writeNothing s fd true).2 ↔
      ¬ (hasFlag (s.fdTable i).flags oAppend = false ∧
        (s.used (s.fdTable i).node ∧ (s.nodes (s.fdTable i).node).type = .file ∧
          (s.nodes (s.fdTable i).node).size < (s.fdTable i).offset) ∧ (s.fdTable i).offset < 4095) := by
  rw [writeNothing_open hi hacc]
  unfold FsFd.writeStart
  by_cases happ : hasFlag (s.fdTable i).flags oAppend = true
  · -- the offset is moved to the end of the file first
    have hno : ¬ (s.used (s.fdTable i).node ∧ (s.nodes (s.fdTable i).node).type = .file ∧
        (s.nodes (s.fdTable i).node).size < (s.nodes (s.fdTable i).node).size) :=
      fun h => lt_irrefl _ h.2.2
    rw [if_pos happ, happ]
    refine iff_of_true ?_ fun h => Bool.noConfusion h.1
    simp only
    split_ifs
    · exact .ofNodes rfl
    · exact (sameContents_written rfl).mpr hno
  · rw [if_neg happ, Bool.eq_false_of_not_eq_true happ, eq_self, true_and]
    by_cases hfull : (s.fdTable i).offset ≥ 4095
    · rw [if_pos hfull]
      exact iff_of_true (.ofNodes rfl) fun h => absurd h.2 (not_lt.mpr hfull)
    · rw [if_neg hfull, and_iff_left (not_le.mp hfull)]
      exact sameContents_written rfl

/-- A write of no bytes leaves every file alone unless the descriptor has been moved beyond the end
of its file. -/
theorem write_nothing_iff (s : FsState) (fd : ℤ) (buf : Bool) :
    SameContents s (writeNothing s fd buf).2 ↔ ¬ (buf = true ∧ BeyondEnd s fd) := by
  by_cases hrefused : buf = false ∨ ∀ i, openFd s fd = some i →
      (s.fdTable i).flags &&& 0x3 = oRdonly
  · rw [writeNothing_refused hrefused]
    refine iff_of_true (.ofNodes rfl) ?_
    rintro ⟨hbuf, i, hi, hacc, -⟩
    rcases hrefused with hnull | hro
    · exact Bool.false_ne_true (hnull.symm.trans hbuf)
    · exact hacc (hro i hi)
  · simp only [not_or, Bool.not_eq_false, not_forall] at hrefused
    obtain ⟨hbuf, i, hi, hacc⟩ := hrefused
    rw [hbuf, eq_self, true_and, beyondEnd_iff hi, writeNothing_open_iff hi hacc]
    simp only [ne_eq, hacc, not_false_eq_true, true_and, and_assoc]

/-- A write of no bytes after `fs_lseek(fd, 100, SEEK_SET)` makes the file `hostname` 100 bytes
long. -/
theorem write_nothing_grows :
    ¬ ∀ s, fsSystem.Reachable s → ∀ fd buf, SameContents s (writeNothing s fd buf).2 := by
  intro hall
  have hreach : fsSystem.Reachable (fsExec hostnameOpen (.lseek 0 100 seekSet)) :=
    .next (.next (.init ⟨0, rfl⟩) rfl) rfl
  have hsize := (hall _ hreach 0 true 6 (by unfold FsState.used; decide +kernel) (by decide +kernel)).1
  revert hsize
  decide +kernel

end MyMisu
