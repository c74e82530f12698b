import MyMisu.Fs.Bounds
import MyMisu.Process.Pids
import MyMisu.Syscall.Api
import MyMisu.Vga.Bounds

/-!
# The sign of a result

Every result the filesystem calls return in a reachable state is an `int32_t` that is at least 0 or
the negation of an error code.  What four of the system calls return is an unsigned number cast to
`int32_t`; exactly when that cast goes wrong, the caller cannot tell success from failure.
-/

namespace MyMisu

open WordMemory

/-- A 32-bit result that is at least 0, or `-E` for a constant of `errno.h`. -/
def WellSigned (r : ℤ) : Prop := (0 ≤ r ∧ r < 2 ^ 31) ∨ ∃ e : Errno, r = e.ret

namespace WellSigned

theorem ofErrno (e : Errno) : WellSigned e.ret := .inr ⟨e, rfl⟩

theorem ofNat {n : ℕ} (h : n < 2 ^ 31) : WellSigned n := .inl ⟨Int.natCast_nonneg n, by omega⟩

theorem zero : WellSigned 0 := .inl ⟨le_rfl, by decide⟩

end WellSigned

/-- An unsigned number whose cast is below 0 only as the negation of an error code. -/
def Castable (n : ℕ) : Prop :=
  n % 2 ^ 32 < 2 ^ 31 ∨ ∃ e : Errno, ((n % 2 ^ 32 : ℕ) : ℤ) + e.code = 2 ^ 32

theorem wellSigned_intOfU32 (n : ℕ) : WellSigned (intOfU32 n) ↔ Castable n := by
  unfold WellSigned Castable intOfU32 Errno.ret
  by_cases hsmall : n % 2 ^ 32 < 2 ^ 31
  · rw [if_pos hsmall]
    exact iff_of_true (.inl ⟨Int.natCast_nonneg _, by omega⟩) (.inl hsmall)
  · rw [if_neg hsmall]
    have hmod : n % 2 ^ 32 < 2 ^ 32 := Nat.mod_lt _ (by decide)
    constructor
    · rintro (⟨hnonneg, -⟩ | ⟨e, he⟩)
      · omega
      · exact .inr ⟨e, by omega⟩
    · rintro (hlt | ⟨e, he⟩)
      · exact absurd hlt hsmall
      · exact .inr ⟨e, by omega⟩

/-! ## The filesystem calls -/

/-- What a call of `fs.c` returns: a small number, or `-E`. -/
def FsResult (r : ℤ) : Prop := (0 ≤ r ∧ r < fsMaxData) ∨ ∃ e : Errno, r = e.ret

namespace FsResult

theorem ofErrno (e : Errno) : FsResult e.ret := .inr ⟨e, rfl⟩

theorem ofNat {n : ℕ} (h : n < fsMaxData) : FsResult n :=
  .inl ⟨Int.natCast_nonneg n, Int.ofNat_lt.mpr h⟩

theorem zero : FsResult 0 := .inl ⟨le_rfl, by decide⟩

theorem wellSigned {r : ℤ} (h : FsResult r) : WellSigned r := by
  rcases h with ⟨hnonneg, hlt⟩ | herr
  · simp only [fsMaxData] at hlt
    exact .inl ⟨hnonneg, by omega⟩
  · exact .inr herr

end FsResult

section Fs

variable {s : FsState}

theorem createEntry_result (type : NodeType) (clear : (ℕ → UInt8) → ℕ → UInt8) (s : FsState)
    (tick : ℕ) (name : Option CStr) : FsResult (createEntry type clear s tick name).1 := by
  rcases createEntry_cases type clear s tick name with ⟨e, h, -⟩ | ⟨n, idx, -, -, -, -, -, h⟩
  · rw [h]
    exact .ofErrno e
  · rw [h]
    exact .zero

theorem openNode_result (s : FsState) (idx : NodeIdx) (flags : ℕ) :
    FsResult (openNode s idx flags).1 := by
  rcases openNode_cases s idx flags with ⟨-, h⟩ | ⟨-, -, h⟩ | ⟨fd, -, -, h⟩
  · rw [h]
    exact .ofErrno .eisdir
  · rw [h]
    exact .ofErrno .emfile
  · rw [h]
    exact .ofNat (lt_trans fd.isLt (by decide))

theorem fsOpen_result (s : FsState) (tick : ℕ) (name : Option CStr) (flags : ℕ) :
    FsResult (fsOpen s tick name flags).1 := by
  rcases fsOpen_cases s tick name flags with
    ⟨e, h, -⟩ | ⟨n, idx, -, -, -, h⟩ | ⟨n, idx, s', -, -, -, -, -, -, -, -, h⟩
  · rw [h]
    exact .ofErrno e
  · rw [h]
    exact openNode_result ..
  · rw [h]
    exact openNode_result ..

theorem fsClose_result (s : FsState) (fd : ℤ) : FsResult (fsClose s fd).1 := by
  rcases fsClose_cases s fd with ⟨-, h⟩ | ⟨i, -, h⟩
  · rw [h]
    exact .ofErrno .ebadf
  · rw [h]
    exact .zero

/-- A read returns at most the size of the file. -/
theorem fsReadFd_result (hsize : ∀ i, (s.nodes i).size < fsMaxData) (fd : ℤ) (buf : Bool) (n : ℕ) :
    FsResult (fsReadFd s fd buf n).1 := by
  unfold fsReadFd
  cases openFd s fd with
  | none => exact .ofErrno .ebadf
  | some i =>
    have hnode := hsize (s.fdTable i).node
    simp only
    -- `buf` is tested before the access mode, both before the offset
    split_ifs
    · exact .ofErrno .efault
    · exact .ofErrno .eacces
    · exact .zero
    · exact .ofNat (by omega)
    · exact .ofNat (by omega)

theorem fsWriteFd_result (s : FsState) (fd : ℤ) (buf : Option (List UInt8)) :
    FsResult (fsWriteFd s fd buf).1 := by
  rcases fsWriteFd_cases s fd buf with
    ⟨e, h⟩ | ⟨i, b, f, node, -, -, -, -, -, ⟨-, h⟩ | ⟨-, h⟩⟩
  · rw [h]
    exact .ofErrno e
  · rw [h]
    exact .ofErrno .enospc
  · rw [h]
    have hroom : f.room b < fsMaxData := by
      unfold FsFd.room
      simp only [fsMaxData]
      omega
    exact .ofNat hroom

theorem fsLseek_result (s : FsState) (fd offset whence : ℤ) :
    FsResult (fsLseek s fd offset whence).1 := by
  rcases fsLseek_cases s fd offset whence with ⟨e, h⟩ | ⟨i, off, -, hlt, h⟩
  · rw [h]
    exact .ofErrno e
  · rw [h]
    exact .ofNat hlt

theorem fsStat_result (s : FsState) (name : Option CStr) (out : Bool) :
    FsResult (fsStat s name out).1 := by
  unfold fsStat
  cases name with
  | none => exact .ofErrno .efault
  | some name =>
    simp only
    split_ifs
    · exact .ofErrno .efault
    · cases findNode s name with
      | none => exact .ofErrno .enoent
      | some idx => exact .zero

theorem RemoveCases.result {name : CStr} {r : ℤ × FsState} (h : RemoveCases s name r) :
    FsResult r.1 := by
  rcases h with ⟨e, h⟩ | ⟨h, -⟩
  · rw [h]
    exact .ofErrno e
  · rw [h]
    exact .zero

theorem fsCd_result (s : FsState) (name : CStr) : FsResult (fsCd s name).1 := by
  unfold fsCd
  split_ifs
  · cases (s.nodes s.currentDir).parent <;> exact .zero
  · exact .zero
  · cases findNode s name with
    | none => exact .ofErrno .enoent
    | some idx =>
      simp only
      split_ifs
      · exact .ofErrno .enotdir
      · exact .zero

/-- A name is no longer than its array. -/
theorem fsGetcwd_result (s : FsState) (buf : Bool) (n : ℕ) : FsResult (fsGetcwd s buf n).1 := by
  unfold fsGetcwd
  split_ifs
  · exact .ofErrno .efault
  · simp only
    split_ifs
    · exact .ofErrno .einval
    · have hsize := (s.nodes s.currentDir).name.size
      have hlen : strlen (s.nodes s.currentDir).name.bytes ≤ fsMaxName := by
        rw [strlen_eq, ← hsize]
        exact (List.takeWhile_sublist _).length_le
      exact .ofNat (lt_of_le_of_lt hlen (by decide))

end Fs

/-! ## Reading from the keyboard -/

/-- `n` is the length of the line typed, its newline counted, or `count` when the first `count`
characters contain no newline. -/
def LineLength (keys : ℕ → UInt8) (count n : ℕ) : Prop :=
  n ≤ count ∧ (∀ j, j + 1 < n → keys j ≠ 10) ∧ (n < count → 0 < n ∧ keys (n - 1) = 10)

theorem LineLength.unique {keys : ℕ → UInt8} {count n m : ℕ} (hn : LineLength keys count n)
    (hm : LineLength keys count m) : n = m := by
  have ⟨hnle, hnbefore, hnend⟩ := hn
  have ⟨hmle, hmbefore, hmend⟩ := hm
  rcases Nat.lt_trichotomy n m with hlt | heq | hgt
  · -- a newline ends the shorter one, before the end of the longer one
    have ⟨hpos, hnewline⟩ := hnend (by omega)
    exact absurd hnewline (hmbefore (n - 1) (by omega))
  · exact heq
  · have ⟨hpos, hnewline⟩ := hmend (by omega)
    exact absurd hnewline (hnbefore (m - 1) (by omega))

theorem stdinLoop_lineLength (keys : ℕ → UInt8) (buf : Word) (left i : ℕ) (mem : Mem)
    (hbefore : ∀ j < i, keys j ≠ 10) :
    LineLength keys (i + left) (stdinLoop keys buf left i mem).1 := by
  induction left generalizing i mem with
  | zero =>
    exact ⟨le_rfl, fun j hj => hbefore j (Nat.lt_of_succ_lt hj), fun hlt => absurd hlt (lt_irrefl i)⟩
  | succ left ih =>
    rw [stdinLoop]
    split_ifs with hnewline
    -- the newline is stored and counted
    · exact ⟨by omega, fun j hj => hbefore j (by omega), fun _ => ⟨Nat.succ_pos i, hnewline⟩⟩
    · have hnext : ∀ j < i + 1, keys j ≠ 10 := by
        intro j hj
        rcases Nat.lt_succ_iff_lt_or_eq.mp hj with hj | rfl
        · exact hbefore j hj
        · exact hnewline
      rw [show i + (left + 1) = i + 1 + left by omega]
      exact ih (i + 1) _ hnext

/-! ## The system calls -/

/-- The condition on a system call: the unsigned number it returns is `Castable`.  That is the tick
of `sys_uptime`, the pid of `sys_getpid`, the count of a `sys_write` to the screen and the length of
the line a `sys_read` takes from the keyboard. -/
def CastsSafely (env : SysEnv) (s : SysState) (ebx ecx edx : Word) : Option SysNr → Prop
  | some .uptime => Castable s.tick
  | some .getpid => Castable s.kernel.currentPid
  | some .write => ecx ≠ 0 → ebx.toInt = stdout ∨ ebx.toInt = stderr → Castable edx.toNat
  | some .read => ecx ≠ 0 → ebx.toInt = stdin → ∀ n, LineLength env.keys edx.toNat n → Castable n
  | _ => True

variable {env : SysEnv} {s s' : SysState} {eax ebx ecx edx : Word} {r : ℤ}

theorem sysRead_iff (hsize : ∀ i, (s.fs.nodes i).size < fsMaxData) (fd : ℤ) (buf : Word)
    (count : ℕ) :
    WellSigned (sysRead env s fd buf count).1 ↔
      (buf ≠ 0 → fd = stdin → ∀ n, LineLength env.keys count n → Castable n) := by
  unfold sysRead
  by_cases hbuf : buf = 0
  · rw [if_pos hbuf]
    exact iff_of_true (.ofErrno _) fun hne => absurd hbuf hne
  rw [if_neg hbuf]
  by_cases hfd : fd = stdin
  · rw [if_pos hfd]
    -- the loop ends at a line length, and there is only one
    have hline := stdinLoop_lineLength env.keys buf count 0 s.mem (by simp)
    rw [Nat.zero_add] at hline
    refine (wellSigned_intOfU32 _).trans ⟨fun h _ _ n hn => ?_, fun h => h hbuf hfd _ hline⟩
    rwa [hn.unique hline]
  · rw [if_neg hfd]
    refine iff_of_true ?_ fun _ h => absurd h hfd
    split_ifs
    · exact (fsReadFd_result hsize ..).wellSigned
    · exact .ofErrno _

theorem sysWrite_iff (fd : ℤ) (buf : Word) (count : ℕ) :
    WellSigned (sysWrite env s fd buf count).1 ↔
      (buf ≠ 0 → fd = stdout ∨ fd = stderr → Castable count) := by
  unfold sysWrite
  by_cases hbuf : buf = 0
  · rw [if_pos hbuf]
    exact iff_of_true (.ofErrno _) fun hne => absurd hbuf hne
  rw [if_neg hbuf]
  simp only
  by_cases hout : fd = stdout
  · rw [if_pos hout, wellSigned_intOfU32]
    exact ⟨fun h _ _ => h, fun h => h hbuf (.inl hout)⟩
  rw [if_neg hout]
  by_cases herr : fd = stderr
  · rw [if_pos herr, wellSigned_intOfU32]
    exact ⟨fun h _ _ => h, fun h => h hbuf (.inr herr)⟩
  rw [if_neg herr]
  refine iff_of_true ?_ fun _ h => absurd h (not_or.mpr ⟨hout, herr⟩)
  split_ifs
  · exact (fsWriteFd_result ..).wellSigned
  · exact .ofErrno _

theorem FsResult.shift {r : ℤ} (h : FsResult r) : WellSigned (if r ≥ 0 then r + 3 else r) := by
  split_ifs with hr
  · -- no error code is 0, so this is a descriptor
    rcases h with ⟨-, hlt⟩ | ⟨e, he⟩
    · simp only [fsMaxData] at hlt
      exact .inl ⟨by omega, by omega⟩
    · have hneg := e.ret_neg
      omega
  · exact h.wellSigned

theorem sysOpen_wellSigned (s : SysState) (path : Word) (flags : ℕ) :
    WellSigned (sysOpen s path flags).1 := by
  unfold sysOpen
  by_cases hpath : path = 0
  · rw [if_pos hpath]
    exact .ofErrno .efault
  rw [if_neg hpath]
  have hshift := (fsOpen_result s.fs s.tick (some (readStr s.mem path)) flags).shift
  generalize fsOpen s.fs s.tick (some (readStr s.mem path)) flags = opened at hshift ⊢
  obtain ⟨fd, fs⟩ := opened
  simp only at hshift ⊢
  split_ifs at hshift ⊢ <;> exact hshift

theorem sysPath_wellSigned {call : FsState → CStr → ℤ × FsState}
    (hcall : ∀ fs name, FsResult (call fs name).1) (s : SysState) (path : Word) :
    WellSigned (sysPath call s path).1 := by
  unfold sysPath
  split_ifs
  · exact .ofErrno .efault
  · exact (hcall s.fs (readStr s.mem path)).wellSigned

theorem sysStat_wellSigned (s : SysState) (path statbuf : Word) :
    WellSigned (sysStat s path statbuf).1 := by
  unfold sysStat
  split_ifs
  · exact .ofErrno .efault
  · have hresult := fsStat_result s.fs (some (readStr s.mem path)) true
    generalize fsStat s.fs (some (readStr s.mem path)) true = found at hresult ⊢
    rcases found with ⟨r, _ | st⟩ <;> exact hresult.wellSigned

theorem sysGetcwd_wellSigned (s : SysState) (buf : Word) (size : ℕ) :
    WellSigned (sysGetcwd s buf size).1 := by
  unfold sysGetcwd
  split_ifs
  · exact .ofErrno .efault
  · exact (fsGetcwd_result s.fs true size).wellSigned

theorem sysClose_wellSigned (s : SysState) (fd : ℤ) : WellSigned (sysClose s fd).1 := by
  unfold sysClose
  split_ifs
  · exact .ofErrno .ebadf
  · exact (fsClose_result s.fs (fd - 3)).wellSigned

theorem sysLseek_wellSigned (s : SysState) (fd offset whence : ℤ) :
    WellSigned (sysLseek s fd offset whence).1 := by
  unfold sysLseek
  split_ifs
  · exact .ofErrno .ebadf
  · exact (fsLseek_result s.fs (fd - 3) offset whence).wellSigned

theorem sysExit_wellSigned (k : Kernel) : WellSigned (sysExit k).1 := by
  unfold sysExit
  split_ifs <;> exact .zero

theorem sysKill_wellSigned (k : Kernel) (pid : ℤ) : WellSigned (sysKill k pid).1 := by
  unfold sysKill
  split_ifs
  · exact .ofErrno .eperm
  · exact .zero

theorem sysSleep_wellSigned {ticks : ℕ} (h : sysSleep env s ticks = some (r, s')) :
    WellSigned r := by
  obtain ⟨k, -, hk⟩ := Option.map_eq_some_iff.mp h
  rw [← (Prod.mk.inj hk).1]
  exact .zero

/-- One case of the switch. -/
theorem sysCall_iff (hsize : ∀ i, (s.fs.nodes i).size < fsMaxData) (nr : SysNr)
    (h : sysCall env s ebx ecx edx nr = some (r, s')) :
    WellSigned r ↔ CastsSafely env s ebx ecx edx (some nr) := by
  have hfst : ∀ {result : ℤ × SysState}, some result = some (r, s') → result.1 = r := by
    intro result heq
    rw [Option.some.inj heq]
  -- four calls cast an unsigned number, for the others the condition is void
  cases nr with
  | exit => exact iff_of_true (hfst h ▸ sysExit_wellSigned s.kernel) trivial
  | fork => exact iff_of_true (hfst h ▸ .ofErrno .enosys) trivial
  | read => exact hfst h ▸ sysRead_iff hsize ebx.toInt ecx edx.toNat
  | write => exact hfst h ▸ sysWrite_iff ebx.toInt ecx edx.toNat
  | «open» => exact iff_of_true (hfst h ▸ sysOpen_wellSigned s ebx ecx.toNat) trivial
  | close => exact iff_of_true (hfst h ▸ sysClose_wellSigned s ebx.toInt) trivial
  | waitpid => exact iff_of_true (hfst h ▸ .ofErrno .enosys) trivial
  | unlink =>
    have hcall := sysPath_wellSigned (fun fs name => (fsUnlink_cases fs name).result) s ebx
    exact iff_of_true (hfst h ▸ hcall) trivial
  | execve => exact iff_of_true (hfst h ▸ .ofErrno .enosys) trivial
  | chdir => exact iff_of_true (hfst h ▸ sysPath_wellSigned fsCd_result s ebx) trivial
  | stat => exact iff_of_true (hfst h ▸ sysStat_wellSigned s ebx ecx) trivial
  | lseek =>
    exact iff_of_true (hfst h ▸ sysLseek_wellSigned s ebx.toInt ecx.toInt edx.toInt) trivial
  | getpid => exact hfst h ▸ wellSigned_intOfU32 s.kernel.currentPid
  | kill => exact iff_of_true (hfst h ▸ sysKill_wellSigned s.kernel ebx.toInt) trivial
  | mkdir =>
    have hcall := sysPath_wellSigned
      (fun fs name => createEntry_result .dir id fs s.tick (some name)) s ebx
    exact iff_of_true (hfst h ▸ hcall) trivial
  | rmdir =>
    have hcall := sysPath_wellSigned (fun fs name => (fsRmdir_cases fs name).result) s ebx
    exact iff_of_true (hfst h ▸ hcall) trivial
  | uptime => exact hfst h ▸ wellSigned_intOfU32 s.tick
  | yield => exact iff_of_true (hfst h ▸ .zero) trivial
  | sleep => exact iff_of_true (sysSleep_wellSigned h) trivial
  | getcwd => exact iff_of_true (hfst h ▸ sysGetcwd_wellSigned s ebx ecx.toNat) trivial

/-- In every state of the filesystem that a run reaches, with any processes, terminal, memory and
tick, a call that returns gives a result whose sign tells success from failure exactly when the
unsigned number it casts, if it casts one, is in range. -/
theorem syscall_result_iff (env : SysEnv) (s s' : SysState) (eax ebx ecx edx : Word) (r : ℤ)
    (hfs : fsSystem.Reachable s.fs) (h : syscallSwitch env s eax ebx ecx edx = some (r, s')) :
    WellSigned r ↔ CastsSafely env s ebx ecx edx (SysNr.ofNumber eax.toNat) := by
  have hsize := (NodeBounds.reachable hfs).size
  unfold syscallSwitch at h
  cases hnr : SysNr.ofNumber eax.toNat with
  | none =>
    rw [hnr] at h
    have hr : (sysNosys s).1 = r := by rw [Option.some.inj h]
    exact iff_of_true (hr ▸ .ofErrno .enosys) trivial
  | some nr =>
    rw [hnr] at h
    exact sysCall_iff hsize nr h

/-- The kernel after its initialisation, with the timer at `tick`. -/
def booted (tick : ℕ) : SysState where
  fs := fsInit 0
  kernel := processInit { bitmap := fun _ => 0xFF#8, totalPages := maxPages, usedPages := maxPages }
  terminal := terminalInitialize .zero
  tick := tick
  mem := fun _ => 0

/-- No interrupt comes during a call. -/
def quiet : SysEnv where
  keys := fun _ => 0
  ticks := fun _ => 0
  fuel := 0

theorem syscallSwitch_uptime (env : SysEnv) (s : SysState) {r : ℤ} (h : intOfU32 s.tick = r) :
    syscallSwitch env s 100 0 0 0 = some (r, s) := by
  rw [← h]
  rfl

theorem booted_reachable (tick : ℕ) : fsSystem.Reachable (booted tick).fs := by
  simp only [booted]
  exact .init ⟨0, rfl⟩

/-- `sys_uptime` with 5 ticks counted. -/
theorem syscall_result_uptime :
    WellSigned 5 ↔ CastsSafely quiet (booted 5) 0 0 0 (SysNr.ofNumber (100 : Word).toNat) := by
  have hticks : intOfU32 5 = 5 := by decide
  exact syscall_result_iff quiet (booted 5) (booted 5) 100 0 0 0 5 (booted_reachable 5)
    (syscallSwitch_uptime quiet (booted 5) hticks)

/-- With 2 ^ 31 ticks counted `sys_uptime` returns the least `int32_t`. -/
theorem uptime_reads_as_failure :
    ¬ ∀ (env : SysEnv) (s s' : SysState) (eax ebx ecx edx : Word) (r : ℤ),
      fsSystem.Reachable s.fs → syscallSwitch env s eax ebx ecx edx = some (r, s') →
        WellSigned r := by
  intro h
  have hticks : intOfU32 (2 ^ 31) = -2 ^ 31 := by decide
  have hbad := h quiet (booted (2 ^ 31)) (booted (2 ^ 31)) 100 0 0 0 (-2 ^ 31)
    (booted_reachable (2 ^ 31)) (syscallSwitch_uptime quiet (booted (2 ^ 31)) hticks)
  rcases hbad with ⟨hnonneg, -⟩ | ⟨e, he⟩
  · omega
  · cases e <;> cases he

end MyMisu
