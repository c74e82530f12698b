import MyMisu.Process.Pids
import MyMisu.Shell.Commands

/-!
# Killing a process

`cmd_kill` and `sys_kill` both call `process_terminate`.  The command takes the integer at the start
of its argument, cut to 32 bits and cast to `uint32_t`, and reports what happened; the system call
returns 0 for every pid above 1, whether or not there is such a process.
-/

namespace MyMisu

open Decimal

/-- `cmd_kill` -/
def cmdKill (k : Kernel) : List CStr → Kernel × List Console
  | _ :: arg :: _ =>
    let p := u32OfInt (atoi arg.bytes)
    let shown := printInt (intOfU32 p)
    if p ≤ 1 then
      (k, [.ink vgaLightRed, .print (ascii "  Cannot kill PID " ++ shown ++ ascii " (protected)\n"),
        .ink vgaLightGrey])
    else
      let r := processTerminate k p
      (r.2, report (r.1 = 0) (ascii "  Killed PID " ++ shown ++ [10])
        (ascii "  No such process: PID " ++ shown ++ [10]))
  | _ => (k, usage "  Usage: kill <pid>\n")

/-- A process in use has the pid `v`. -/
def Kernel.Live (k : Kernel) (v : ℤ) : Prop := ∃ i, (k.table i).inUse = true ∧ ((k.table i).pid : ℤ) = v

/-- From `k` to `k'` a process of pid `v` has ended. -/
def Kernel.Ended (k k' : Kernel) (v : ℤ) : Prop :=
  ∃ i, (k.table i).inUse = true ∧ ((k.table i).pid : ℤ) = v ∧ (k'.table i).inUse = false

/-- The table and the page bitmap are the same. -/
def Kernel.SameTable (k k' : Kernel) : Prop := k'.table = k.table ∧ k'.pmm = k.pmm

variable {k : Kernel}

/-! ## What `process_terminate` does -/

theorem processTerminate_live {pid : ℕ} (hlive : k.Live pid) (hpid : 1 < pid) :
    (processTerminate k pid).1 = 0 ∧ k.Ended (processTerminate k pid).2 pid := by
  obtain ⟨i, hi, hpid'⟩ := hlive
  obtain ⟨slot, hslot⟩ :=
    Option.isSome_iff_exists.mp (findSlotByPid_isSome hi (Int.natCast_inj.mp hpid'))
  have hfound := findSlotByPid_some hslot
  unfold processTerminate
  rw [hslot]
  simp only [if_neg (not_le.mpr hpid), true_and]
  refine ⟨slot, hfound.1, by rw [hfound.2], ?_⟩
  show ((k.setProc slot _).table slot).inUse = false
  rw [Kernel.setProc_self]

theorem processTerminate_missing {pid : ℕ} (h : ¬ (1 < pid ∧ k.Live pid)) :
    processTerminate k pid = (-1, k) := by
  unfold processTerminate
  rcases hslot : findSlotByPid k pid with _ | slot
  · rfl
  · have hfound := findSlotByPid_some hslot
    have hle : pid ≤ 1 := by
      by_contra hlt
      exact h ⟨by omega, slot, hfound.1, by rw [hfound.2]⟩
    simp only [if_pos hle]

/-- Only an entry with the pid changes, and it is no longer in use. -/
theorem processTerminate_changed {pid : ℕ} {i : Slot}
    (hi : (processTerminate k pid).2.table i ≠ k.table i) :
    findSlotByPid k pid = some i ∧ 1 < pid ∧ ((processTerminate k pid).2.table i).inUse = false := by
  rcases processTerminate_spec k pid with h | ⟨slot, pmm, hslot, hpid, h⟩
  · rw [h] at hi
    exact absurd rfl hi
  · rw [h] at hi ⊢
    by_cases hne : i = slot
    · subst hne
      refine ⟨hslot, hpid, ?_⟩
      show ((k.setProc i _).table i).inUse = false
      rw [Kernel.setProc_self]
      rfl
    · exact absurd (Kernel.setProc_ne k _ hne) hi

/-! ## The command -/

theorem u32OfInt_wrapInt32 (x : ℤ) : u32OfInt (wrapInt32 x) = u32OfInt x := by
  unfold u32OfInt wrapInt32
  omega

/-- A protected pid is one that `process_terminate` refuses as well. -/
theorem cmdKill_fst (k : Kernel) (name arg : CStr) (rest : List CStr) :
    (cmdKill k (name :: arg :: rest)).1 =
      (processTerminate k (u32OfInt (leadingInt arg.bytes))).2 := by
  unfold cmdKill
  simp only [atoi_eq, u32OfInt_wrapInt32]
  by_cases hp : u32OfInt (leadingInt arg.bytes) ≤ 1
  · simp only [if_pos hp]
    rw [processTerminate_missing fun h => absurd h.1 (not_lt.mpr hp)]
  · simp only [if_neg hp]

/-- From `k` to `k'` the process `v` names is terminated if there is one and it is not protected, and
nothing else happens. -/
structure KillsOnly (k k' : Kernel) (v : ℤ) : Prop where
  named : ∀ w, k.Ended k' w → w = v ∧ 1 < v
  hit : k.Live v → 1 < v → k.Ended k' v
  others : ∀ i, ¬ ((k.table i).inUse = true ∧ ((k.table i).pid : ℤ) = v) → k'.table i = k.table i
  missed : ¬ (k.Live v ∧ 1 < v) → k.SameTable k'

/-- `v` is a `uint32_t`, or no process in use has the pid `v` or, above 1, the pid that the cast makes
of it. -/
def NamesPid (k : Kernel) (v : ℤ) : Prop :=
  (0 ≤ v ∧ v < 2 ^ 32) ∨ (¬ k.Live v ∧ ¬ (1 < u32OfInt v ∧ k.Live (u32OfInt v)))

theorem processTerminate_killsOnly (k : Kernel) (pid : ℕ) :
    KillsOnly k (processTerminate k pid).2 pid where
  named := by
    rintro w ⟨i, hi, rfl, hend⟩
    have hchanged := processTerminate_changed fun heq => by
      rw [heq, hi] at hend
      cases hend
    exact ⟨congrArg Nat.cast (findSlotByPid_some hchanged.1).2, by exact_mod_cast hchanged.2.1⟩
  hit hlive hpid := (processTerminate_live hlive (by exact_mod_cast hpid)).2
  others i hi := by
    by_contra hne
    have hfound := findSlotByPid_some (processTerminate_changed hne).1
    exact hi ⟨hfound.1, congrArg Nat.cast hfound.2⟩
  missed h := by
    rw [processTerminate_missing fun h' => h ⟨h'.2, by exact_mod_cast h'.1⟩]
    exact ⟨rfl, rfl⟩

theorem KillsOnly.none {v : ℤ} (h : ¬ k.Live v) : KillsOnly k k v where
  named := by
    rintro w ⟨i, hi, -, hend⟩
    rw [hi] at hend
    cases hend
  hit hlive := absurd hlive h
  others _ _ := rfl
  missed _ := ⟨rfl, rfl⟩

theorem kill_hits_named (k : Kernel) (name arg : CStr) (rest : List CStr)
    (h : NamesPid k (leadingInt arg.bytes)) :
    KillsOnly k (cmdKill k (name :: arg :: rest)).1 (leadingInt arg.bytes) := by
  rw [cmdKill_fst]
  rcases h with ⟨hlo, hhi⟩ | ⟨hdead, hcut⟩
  · have hcast : (u32OfInt (leadingInt arg.bytes) : ℤ) = leadingInt arg.bytes := by
      unfold u32OfInt
      omega
    have hkill := processTerminate_killsOnly k (u32OfInt (leadingInt arg.bytes))
    rwa [hcast] at hkill
  · rw [processTerminate_missing hcut]
    exact .none hdead

/-- The shell and one more process. -/
def oneTask : Kernel := (processCreate (processInit fourPages) 0 demoName 1).2

theorem oneTask_reachable : pidSystem.Reachable oneTask :=
  @TransitionSystem.Reachable.next _ _ pidSystem _ _ (.create 0 demoName 1) (.init ⟨fourPages, rfl⟩) rfl

theorem kill_hits_two :
    KillsOnly oneTask (cmdKill oneTask [.ofString "kill", .ofString "+2"]).1 2 :=
  kill_hits_named oneTask (.ofString "kill") (.ofString "+2") []
    (.inl (by decide))

/-- What stands behind the digits does not count. -/
theorem kill_takes_no_numeral :
    ¬ ∀ (k : Kernel), pidSystem.Reachable k → ∀ (name arg : CStr) (v : ℤ),
      k.Ended (cmdKill k [name, arg]).1 v → Denotes arg.bytes v := by
  intro hall
  have hnumeral := hall oneTask oneTask_reachable (.ofString "kill") (.ofString "2abc") 2
    ⟨2, by decide, by decide, by decide⟩
  exact absurd (hnumeral.isDigit_tail 97 (by decide)) (by decide)

/-! ## The system call -/

/-- The shell says that it has killed the process. -/
def ReportsKilled (out : List Console) : Prop := ∃ rest, .print (ascii "  Killed PID " ++ rest) ∈ out

/-- `sys_kill` says what happened, and so does the command for the same pid. -/
structure KillTruthful (k : Kernel) (pid : ℤ) : Prop where
  zero : (sysKill k pid).1 = 0 ↔ 1 < pid ∧ k.Ended (sysKill k pid).2 pid
  failed : (sysKill k pid).1 ≠ 0 →
    (∃ e : Errno, (sysKill k pid).1 = e.ret) ∧ k.SameTable (sysKill k pid).2
  command : ∀ (name arg : CStr) (rest : List CStr), Denotes arg.bytes pid →
    (ReportsKilled (cmdKill k (name :: arg :: rest)).2 ↔ (sysKill k pid).1 = 0)

theorem reportsKilled_report {ok : Bool} {shown : List UInt8} :
    ReportsKilled (report ok (ascii "  Killed PID " ++ shown ++ [10])
      (ascii "  No such process: PID " ++ shown ++ [10])) ↔ ok = true := by
  cases ok with
  | true => exact iff_of_true ⟨shown ++ [10], by simp [report]⟩ rfl
  | false =>
    refine iff_of_false ?_ Bool.false_ne_true
    rintro ⟨rest, hmem⟩
    have htext : ascii "  Killed PID " ++ rest = ascii "  No such process: PID " ++ shown ++ [10] := by
      simpa [report, Console.ink] using hmem
    have hletter : (75 : UInt8) = 78 := Option.some.inj (congrArg (fun l => l[2]?) htext)
    exact absurd hletter (by decide)

theorem reportsKilled_cmdKill (k : Kernel) (name arg : CStr) (rest : List CStr) :
    ReportsKilled (cmdKill k (name :: arg :: rest)).2 ↔
      1 < u32OfInt (leadingInt arg.bytes) ∧ k.Live (u32OfInt (leadingInt arg.bytes)) := by
  unfold cmdKill
  simp only [atoi_eq, u32OfInt_wrapInt32]
  by_cases hp : u32OfInt (leadingInt arg.bytes) ≤ 1
  · rw [if_pos hp]
    refine iff_of_false ?_ fun h => absurd h.1 (not_lt.mpr hp)
    rintro ⟨text, hmem⟩
    have htext : ascii "  Killed PID " ++ text = ascii "  Cannot kill PID " ++
        (printInt (intOfU32 (u32OfInt (leadingInt arg.bytes))) ++ ascii " (protected)\n") := by
      simpa [Console.ink] using hmem
    have hletter : (75 : UInt8) = 67 := Option.some.inj (congrArg (fun l => l[2]?) htext)
    exact absurd hletter (by decide)
  · rw [if_neg hp, reportsKilled_report, decide_eq_true_iff, and_iff_right (not_le.mp hp)]
    constructor
    · intro hzero
      by_contra hdead
      rw [processTerminate_missing fun h => hdead h.2] at hzero
      cases hzero
    · exact fun hlive => (processTerminate_live hlive (not_le.mp hp)).1

/-- The numeral of `v` as an argument. -/
def numeralArg (v : ℤ) : CStr := .ofBuffer (intNumeral v)

theorem denotes_numeralArg (v : ℤ) : Denotes (numeralArg v).bytes v := by
  have hbytes : (numeralArg v).bytes = intNumeral v := by
    refine cString_of_noNul fun c hc hnul => ?_
    rw [hnul] at hc
    exact absurd (intNumeral_bounds v 0 hc).1 (by decide)
  rw [hbytes]
  exact denotes_intNumeral v

/-- A process of this pid can be killed; or the pid is protected or negative, and if it is negative
the cast makes no pid in use of it. -/
def KillKnown (k : Kernel) (pid : ℤ) : Prop :=
  (1 < pid ∧ k.Live pid) ∨ (pid ≤ 1 ∧ (pid < 0 → ¬ k.Live (pid + 2 ^ 32)))

theorem reportsKilled_numeral (k : Kernel) {pid : ℤ} (name : CStr) {arg : CStr} (rest : List CStr)
    (harg : Denotes arg.bytes pid) :
    ReportsKilled (cmdKill k (name :: arg :: rest)).2 ↔ 1 < u32OfInt pid ∧ k.Live (u32OfInt pid) := by
  rw [reportsKilled_cmdKill, leadingInt_denotes harg]

/-- The system call refuses, and the command as well unless the cast makes another pid of it. -/
theorem killTruthful_refused (k : Kernel) {pid : ℤ} (hpid : FitsInt32 pid) (hle : pid ≤ 1) :
    KillTruthful k pid ↔ (pid < 0 → ¬ k.Live (pid + 2 ^ 32)) := by
  obtain ⟨hlo, hhi⟩ := hpid
  have hkill : sysKill k pid = (Errno.eperm.ret, k) := if_pos hle
  have hfail : (sysKill k pid).1 ≠ 0 := by
    rw [hkill]
    exact (Errno.ret_neg .eperm).ne
  have hcast : 1 < u32OfInt pid ∧ k.Live (u32OfInt pid) ↔ pid < 0 ∧ k.Live (pid + 2 ^ 32) := by
    by_cases hneg : pid < 0
    · have hpid : (u32OfInt pid : ℤ) = pid + 2 ^ 32 := by
        unfold u32OfInt
        omega
      rw [hpid, and_congr_left_iff]
      omega
    · refine iff_of_false (fun h => ?_) fun h => hneg h.1
      unfold u32OfInt at h
      omega
  constructor
  · intro h hneg hlive
    have hreport := h.command (.ofString "kill") (numeralArg pid) [] (denotes_numeralArg pid)
    rw [reportsKilled_numeral k _ _ (denotes_numeralArg pid), hcast] at hreport
    exact hfail (hreport.mp ⟨hneg, hlive⟩)
  · intro hdead
    exact {
      zero := iff_of_false hfail fun h => absurd h.1 (not_lt.mpr hle)
      failed := fun _ => by
        rw [hkill]
        exact ⟨⟨.eperm, rfl⟩, rfl, rfl⟩
      command := fun name arg rest harg => by
        rw [reportsKilled_numeral k name rest harg, hcast]
        exact iff_of_false (fun h => hdead h.1 h.2) hfail }

/-- The system call reports a success whether there was a process or not. -/
theorem killTruthful_allowed (k : Kernel) {pid : ℤ} (hpid : FitsInt32 pid) (hgt : 1 < pid) :
    KillTruthful k pid ↔ k.Live pid := by
  obtain ⟨hlo, hhi⟩ := hpid
  have hkill : sysKill k pid = (0, (processTerminate k (u32OfInt pid)).2) := if_neg (not_le.mpr hgt)
  have hcast : (u32OfInt pid : ℤ) = pid := by
    unfold u32OfInt
    omega
  have honly := processTerminate_killsOnly k (u32OfInt pid)
  rw [hcast] at honly
  constructor
  · intro h
    obtain ⟨i, hi, hpid, -⟩ := (h.zero.mp (by rw [hkill])).2
    exact ⟨i, hi, hpid⟩
  · intro hlive
    exact {
      zero := by
        rw [hkill]
        exact iff_of_true rfl ⟨hgt, honly.hit hlive hgt⟩
      failed := fun h => absurd (by rw [hkill]) h
      command := fun name arg rest harg => by
        rw [reportsKilled_numeral k name rest harg, hcast, hkill]
        exact iff_of_true ⟨by omega, hlive⟩ rfl }

theorem sys_kill_truthful_iff (k : Kernel) (pid : ℤ) (hpid : FitsInt32 pid) :
    KillTruthful k pid ↔ KillKnown k pid := by
  unfold KillKnown
  by_cases hle : pid ≤ 1
  · rw [killTruthful_refused k hpid hle, or_iff_right fun h => absurd h.1 (not_lt.mpr hle),
      and_iff_right hle]
  · have hgt := not_le.mp hle
    rw [killTruthful_allowed k hpid hgt, or_iff_left fun h => hle h.1, and_iff_right hgt]

theorem sys_kill_truthful_two : KillTruthful oneTask 2 :=
  (sys_kill_truthful_iff oneTask 2 (by decide)).mpr (.inl ⟨by decide, 2, by decide, by decide⟩)

/-- Killing nobody succeeds. -/
theorem sys_kill_succeeds_without_process :
    ¬ ∀ (k : Kernel), pidSystem.Reachable k → ∀ pid, FitsInt32 pid → KillTruthful k pid := by
  intro hall
  have htruthful := hall oneTask oneTask_reachable 3 (by decide)
  obtain ⟨i, hi, hpid, -⟩ := (htruthful.zero.mp rfl).2
  revert i
  decide

end MyMisu
