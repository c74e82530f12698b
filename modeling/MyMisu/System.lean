import MyMisu.Process.Fairness
import MyMisu.Shell.Kill
import MyMisu.Shell.Write
import MyMisu.Syscall.Results
import MyMisu.Vga.Bounds

/-!
# The system

The tables of the filesystem and the processes, the terminal and the memory together, as system calls,
command lines, timer interrupts and the processes change them, in any order.  The memory is what lies
apart from the tables and the arrays of the kernel: a buffer inside of these, which the system calls would
take, and a command that writes behind its array are no part of the runs.  What a caller can do is then
no more than calls of each component's own functions, so the invariants of the components hold of the
system.
-/

namespace MyMisu

open WordMemory

/-! ## Commands on processes -/

/-- Where the three demo tasks start. -/
structure DemoTasks where
  counter : ℕ
  spinner : ℕ
  ticker : ℕ

/-- `process_create_kernel(name, fn)` -/
def spawnTask (k : Kernel) (tick : ℕ) (name : String) (fn : ℕ) : ℤ × Kernel :=
  processCreateKernel k tick (.ofString name) fn

/-- What `cmd_spawn` creates; `none` for a name it does not know. -/
def spawnTasks (tasks : DemoTasks) (k : Kernel) (tick : ℕ) (arg : CStr) : Option (ℤ × Kernel) :=
  let is name := strcmp arg.bytes (CStr.ofString name).bytes = 0
  if is "counter" then some (spawnTask k tick "counter" tasks.counter)
  else if is "spinner" then some (spawnTask k tick "spinner" tasks.spinner)
  else if is "ticker" then some (spawnTask k tick "ticker" tasks.ticker)
  else if is "all" then
    let k := (spawnTask k tick "counter" tasks.counter).2
    let k := (spawnTask k tick "spinner" tasks.spinner).2
    -- the pid shown is that of the last one
    some (spawnTask k tick "ticker" tasks.ticker)
  else none

def cmdSpawn (tasks : DemoTasks) (k : Kernel) (tick : ℕ) : List CStr → Kernel × List Console
  | _ :: arg :: _ =>
    match spawnTasks tasks k tick arg with
    | none => (k, [.ink vgaLightRed, .print (ascii "  Unknown task: " ++ arg.bytes ++ [10]),
        .ink vgaLightGrey])
    | some (pid, k) =>
      (k, if pid ≥ 0 then
          [.ink vgaGreen, .print (ascii "  Spawned PID " ++ printInt pid ++
            ascii ". Use 'kill <pid>' to stop. Run 'ps' to see state.\n"), .ink vgaLightGrey]
        else [.ink vgaLightRed, .print (ascii "  Failed to spawn\n"), .ink vgaLightGrey])
  | _ => (k, [.print (ascii "  Usage: spawn <name>\n"),
      .print (ascii "  Available: counter, spinner, ticker, all\n")])

/-! ## The system -/

/-- The calls on the terminal, with the keys pressed at pager prompts. -/
def Console.exec (keys : ℕ → UInt8) (t : Terminal) : Console → Terminal
  | .setcolor color => terminalSetcolor t color
  | .print text => terminalWrite t text keys
  | .putchar c => terminalPutchar t c (keys 0)
  | .clear => terminalClear t

namespace SysState

def display (s : SysState) (keys : ℕ → UInt8) (out : List Console) : SysState :=
  { s with terminal := out.foldl (Console.exec keys) s.terminal }

/-- A command line with its effect on the tables and the terminal. -/
def command (tasks : DemoTasks) (env : ShellEnv) (keys : ℕ → UInt8) (s : SysState) (input : CStr) :
    Except Stuck SysState :=
  let is cmd name := strcmp cmd (CStr.ofString name).bytes = 0
  match splitArgs maxArgs input.bytes with
  | [] => .ok s
  | cmd :: args =>
    if is cmd.bytes "spawn" then
      let (k, out) := cmdSpawn tasks s.kernel s.tick (cmd :: args)
      .ok ({ s with kernel := k }.display keys out)
    else if is cmd.bytes "kill" then
      let (k, out) := cmdKill s.kernel (cmd :: args)
      .ok ({ s with kernel := k }.display keys out)
    else do
      let (fs, out) ← executeCommand { env with tick := s.tick } s.fs input
      .ok ({ s with fs := fs }.display keys out)

end SysState

inductive SysEvent
  | call (env : SysEnv) (eax ebx ecx edx : Word)
  | line (tasks : DemoTasks) (env : ShellEnv) (keys : ℕ → UInt8) (input : CStr)
  | kernel (op : SchedOp)
  /-- The timer interrupt within a time slice. -/
  | timer
  /-- A process writes to memory. -/
  | store (mem : Mem)

/-- `none` when a call does not return or a command stops. -/
def sysExec (s : SysState) : SysEvent → Option SysState
  | .call env eax ebx ecx edx => (syscallSwitch env s eax ebx ecx edx).map Prod.snd
  | .line tasks env keys input => (s.command tasks env keys input).toOption
  | .kernel op => some { s with kernel := schedExec s.kernel op }
  | .timer =>
    let tick := wrap32 (s.tick + 1)
    some { s with tick := tick, kernel := processTick s.kernel tick }
  | .store mem => some { s with mem := mem }

/-- The commands that are not modelled call the functions of the filesystem. -/
def ShellEnv.CallsFs (env : ShellEnv) : Prop :=
  ∀ s argv r, env.other s argv = .ok r → fsSystem.Steps s r.1

def SysEvent.CallsFs : SysEvent → Prop
  | .line _ env _ _ => env.CallsFs
  | _ => True

/-- The system from the end of `kernel_main` on. -/
def sysSystem : TransitionSystem SysState SysEvent :=
  .ofPartial (fun s => fsSystem.init s.fs ∧ schedSystem.init s.kernel ∧
    termSystem.Reachable s.terminal) sysExec

/-! ## System calls -/

variable {s s' : SysState}

theorem fsExec_step (fs : FsState) (op : FsOp) : fsSystem.Steps fs (fsExec fs op) :=
  .one (a := op) rfl

theorem fsExec_open (fs : FsState) (tick : ℕ) (name : Option CStr) (flags : ℕ) :
    fsExec fs (.open tick name flags) = (fsOpen fs tick name flags).2 := rfl

theorem schedExec_step (k : Kernel) (op : SchedOp) : schedSystem.Steps k (schedExec k op) :=
  .one (a := op) rfl

theorem termExec_step (t : Terminal) (op : TermOp) : termSystem.Steps t (termExec t op) :=
  .one (a := op) rfl

/-- What a call does to the components. -/
structure Composed (s s' : SysState) : Prop where
  fs : fsSystem.Steps s.fs s'.fs
  kernel : schedSystem.Steps s.kernel s'.kernel
  terminal : termSystem.Steps s.terminal s'.terminal

namespace Composed

/-- Only the memory and the ticks change. -/
theorem of_eq (hfs : s'.fs = s.fs) (hkernel : s'.kernel = s.kernel)
    (hterminal : s'.terminal = s.terminal) : Composed s s' := by
  constructor
  · rw [hfs]
    exact .refl
  · rw [hkernel]
    exact .refl
  · rw [hterminal]
    exact .refl

theorem fsCall (op : FsOp) (mem : Mem) :
    Composed s { s with fs := fsExec s.fs op, mem := mem } :=
  ⟨fsExec_step s.fs op, .refl, .refl⟩

theorem withFs (op : FsOp) {r : ℤ × FsState} (hr : r.2 = fsExec s.fs op) :
    Composed s (s.withFs r).2 := by
  unfold SysState.withFs
  rw [hr]
  exact fsCall op s.mem

theorem terminate {k : Kernel} (pid : ℕ) (hk : k = (processTerminate s.kernel pid).2) :
    Composed s { s with kernel := k } := by
  rw [hk]
  exact ⟨.refl, schedExec_step s.kernel (.terminate pid), .refl⟩

theorem sysExit (s : SysState) : Composed s (s.withKernel (sysExit s.kernel)).2 := by
  unfold SysState.withKernel MyMisu.sysExit
  split
  · exact terminate _ rfl
  · exact of_eq rfl rfl rfl

theorem sysKill (s : SysState) (pid : ℤ) : Composed s (s.withKernel (sysKill s.kernel pid)).2 := by
  unfold SysState.withKernel MyMisu.sysKill
  split
  · exact of_eq rfl rfl rfl
  · exact terminate _ rfl

theorem sysRead (env : SysEnv) (s : SysState) (fd : ℤ) (buf : Word) (count : ℕ) :
    Composed s (sysRead env s fd buf count).2 := by
  unfold MyMisu.sysRead
  split_ifs
  · exact of_eq rfl rfl rfl
  · exact of_eq rfl rfl rfl
  · exact fsCall (.readFd (fd - 3) true count) _
  · exact of_eq rfl rfl rfl

theorem sysWrite (env : SysEnv) (s : SysState) (fd : ℤ) (buf : Word) (count : ℕ) :
    Composed s (sysWrite env s fd buf count).2 := by
  unfold MyMisu.sysWrite
  simp only
  split_ifs
  · exact of_eq rfl rfl rfl
  · exact ⟨.refl, .refl, termExec_step s.terminal (.write (readBytes s.mem buf count) env.keys)⟩
  -- in red, and back to the usual colour
  · refine ⟨.refl, .refl, ?_⟩
    have hred := termExec_step s.terminal (.setcolor (vgaEntryColor vgaRed vgaBlack))
    have htext := hred.trans (termExec_step _ (.write (readBytes s.mem buf count) env.keys))
    exact htext.trans (termExec_step _ (.setcolor (vgaEntryColor vgaLightGrey vgaBlack)))
  · exact withFs (.writeFd (fd - 3) (some (readBytes s.mem buf count))) rfl
  · exact of_eq rfl rfl rfl

theorem sysOpen (s : SysState) (path : Word) (flags : ℕ) : Composed s (sysOpen s path flags).2 := by
  unfold MyMisu.sysOpen
  split
  · exact of_eq rfl rfl rfl
  · have hstep := fsExec_step s.fs (.open s.tick (some (readStr s.mem path)) flags)
    rw [fsExec_open] at hstep
    generalize fsOpen s.fs s.tick (some (readStr s.mem path)) flags = opened at hstep ⊢
    have ⟨fd, fs⟩ := opened
    simp only
    split
    · exact ⟨hstep, .refl, .refl⟩
    · exact ⟨hstep, .refl, .refl⟩

theorem sysPath {call : FsState → CStr → ℤ × FsState} (op : CStr → FsOp)
    (hop : ∀ name, (call s.fs name).2 = fsExec s.fs (op name)) (path : Word) :
    Composed s (sysPath call s path).2 := by
  unfold MyMisu.sysPath
  split
  · exact of_eq rfl rfl rfl
  · exact withFs (op _) (hop _)

theorem sysStat (s : SysState) (path statbuf : Word) : Composed s (sysStat s path statbuf).2 := by
  unfold MyMisu.sysStat
  split
  · exact of_eq rfl rfl rfl
  · split <;> exact of_eq rfl rfl rfl

theorem sysGetcwd (s : SysState) (buf : Word) (size : ℕ) : Composed s (sysGetcwd s buf size).2 := by
  unfold MyMisu.sysGetcwd
  split <;> exact of_eq rfl rfl rfl

theorem sysClose (s : SysState) (fd : ℤ) : Composed s (sysClose s fd).2 := by
  unfold MyMisu.sysClose
  split
  · exact of_eq rfl rfl rfl
  · exact withFs (.close (fd - 3)) rfl

theorem sysLseek (s : SysState) (fd offset whence : ℤ) :
    Composed s (sysLseek s fd offset whence).2 := by
  unfold MyMisu.sysLseek
  split
  · exact of_eq rfl rfl rfl
  · exact withFs (.lseek (fd - 3) offset whence) rfl

theorem sysSleep {env : SysEnv} {ticks : ℕ} {r : ℤ} (h : sysSleep env s ticks = some (r, s')) :
    Composed s s' := by
  have ⟨k, _, hs⟩ := Option.map_eq_some_iff.mp h
  cases hs
  exact of_eq rfl rfl rfl

theorem of_some {x : ℤ × SysState} {r : ℤ} (hx : Composed s x.2) (h : some x = some (r, s')) :
    Composed s s' := by
  rwa [Option.some.inj h] at hx

theorem sysCall {env : SysEnv} {ebx ecx edx : Word} (nr : SysNr) {r : ℤ}
    (h : sysCall env s ebx ecx edx nr = some (r, s')) : Composed s s' := by
  cases nr with
  | exit => exact (sysExit s).of_some h
  | read => exact (sysRead env s _ _ _).of_some h
  | write => exact (sysWrite env s _ _ _).of_some h
  | «open» => exact (sysOpen s _ _).of_some h
  | close => exact (sysClose s _).of_some h
  | unlink => exact (sysPath .unlink (fun _ => rfl) _).of_some h
  | chdir => exact (sysPath .cd (fun _ => rfl) _).of_some h
  | mkdir => exact (sysPath (fun name => .mkdir s.tick (some name)) (fun _ => rfl) _).of_some h
  | rmdir => exact (sysPath .rmdir (fun _ => rfl) _).of_some h
  | stat => exact (sysStat s _ _).of_some h
  | lseek => exact (sysLseek s _ _ _).of_some h
  | kill => exact (sysKill s _).of_some h
  | getcwd => exact (sysGetcwd s _ _).of_some h
  | sleep => exact sysSleep h
  -- the others only answer
  | _ => exact of_some (of_eq rfl rfl rfl) h

theorem syscallSwitch {env : SysEnv} {eax ebx ecx edx : Word} {r : ℤ}
    (h : syscallSwitch env s eax ebx ecx edx = some (r, s')) : Composed s s' := by
  unfold MyMisu.syscallSwitch at h
  cases hnr : SysNr.ofNumber eax.toNat with
  | none =>
    rw [hnr] at h
    exact of_some (of_eq rfl rfl rfl) h
  | some nr =>
    rw [hnr] at h
    exact sysCall nr h

end Composed

/-! ## Command lines -/

theorem display_steps (keys : ℕ → UInt8) (out : List Console) (t : Terminal) :
    termSystem.Steps t (out.foldl (Console.exec keys) t) := by
  induction out generalizing t with
  | nil => exact .refl
  | cons o out ih =>
    have hone : termSystem.Steps t (o.exec keys t) := by
      cases o with
      | setcolor color => exact termExec_step t (.setcolor color)
      | print text => exact termExec_step t (.write text keys)
      | putchar c => exact termExec_step t (.putchar c (keys 0))
      | clear => exact termExec_step t .clear
    exact hone.trans (ih _)

theorem spawnTask_step (k : Kernel) (tick : ℕ) (name : String) (fn : ℕ) :
    schedSystem.Steps k (spawnTask k tick name fn).2 :=
  schedExec_step k (.create tick (.ofString name) fn)

theorem spawnTasks_steps {tasks : DemoTasks} {k : Kernel} {tick : ℕ} {arg : CStr} {r : ℤ × Kernel}
    (h : spawnTasks tasks k tick arg = some r) : schedSystem.Steps k r.2 := by
  unfold spawnTasks at h
  simp only at h
  split_ifs at h
  · rw [← Option.some.inj h]
    exact spawnTask_step k tick _ _
  · rw [← Option.some.inj h]
    exact spawnTask_step k tick _ _
  · rw [← Option.some.inj h]
    exact spawnTask_step k tick _ _
  · rw [← Option.some.inj h]
    exact ((spawnTask_step k tick _ _).trans (spawnTask_step _ tick _ _)).trans
      (spawnTask_step _ tick _ _)

theorem cmdSpawn_steps (tasks : DemoTasks) (k : Kernel) (tick : ℕ) (argv : List CStr) :
    schedSystem.Steps k (cmdSpawn tasks k tick argv).1 := by
  unfold cmdSpawn
  split
  · split
    · exact .refl
    · exact spawnTasks_steps ‹_›
  · exact .refl

theorem cmdKill_steps (k : Kernel) (argv : List CStr) : schedSystem.Steps k (cmdKill k argv).1 := by
  unfold cmdKill
  split
  · simp only
    split
    · exact .refl
    · exact schedExec_step k (.terminate _)
  · exact .refl

section Files

variable {fs : FsState} {r : FsState × List Console} {env : ShellEnv}

theorem except_bind_ok {ε α β : Type*} {x : Except ε α} {f : α → Except ε β} {b : β}
    (h : x.bind f = .ok b) : ∃ a, x = .ok a ∧ f a = .ok b := by
  cases x with
  | error e => cases h
  | ok a => exact ⟨a, rfl, h⟩

theorem editLoop_steps {name : CStr} {e : Editor} {out : List Console} {keys : List UInt8}
    (h : editLoop fs name e out keys = .ok r) : fsSystem.Steps fs r.1 := by
  induction keys generalizing e out with
  | nil => cases h
  | cons c keys ih =>
    rw [editLoop] at h
    split_ifs at h
    · have ⟨buf, _, hr⟩ := except_bind_ok h
      cases hr
      exact fsExec_step fs (.writeFile name _)
    · have ⟨⟨e', shown⟩, _, hr⟩ := except_bind_ok h
      exact ih hr

theorem cmdEdit_steps {argv : List CStr} (h : cmdEdit env fs argv = .ok r) :
    fsSystem.Steps fs r.1 := by
  unfold cmdEdit at h
  split at h
  · have ⟨buf, _, h⟩ := except_bind_ok h
    have ⟨⟨n, buf'⟩, _, h⟩ := except_bind_ok h
    have hedit := editLoop_steps h
    split at hedit
    · exact hedit
    · exact (fsExec_step fs (.createFile env.tick (some _))).trans hedit
  · cases h
    exact .refl

theorem createWrite_steps (fs : FsState) (tick : ℕ) (name : CStr) (text : List UInt8) :
    fsSystem.Steps fs (fsWriteFile (fsCreateFile fs tick (some name)).2 name text).2 :=
  .trans (fsExec_step fs (.createFile tick (some name)))
    (fsExec_step (fsCreateFile fs tick (some name)).2 (.writeFile name text))

theorem cmdNote_steps {argv : List CStr} (h : cmdNote env fs argv = .ok r) :
    fsSystem.Steps fs r.1 := by
  unfold cmdNote at h
  generalize notesFile = name at h
  split at h
  · have ⟨data, _, h⟩ := except_bind_ok h
    have ⟨data, _, h⟩ := except_bind_ok h
    have ⟨data, _, h⟩ := except_bind_ok h
    have ⟨⟨el, ex⟩, _, h⟩ := except_bind_ok h
    have hsteps := createWrite_steps fs env.tick name
    simp only at h
    split at h
    · have ⟨joined, _, h⟩ := except_bind_ok h
      rw [← Except.ok.inj h]
      exact hsteps joined.str.bytes
    · rw [← Except.ok.inj h]
      exact hsteps data.str.bytes
  · have ⟨⟨n, buf⟩, _, h⟩ := except_bind_ok h
    simp only at h
    split at h
    · cases h
      exact .refl
    · cases h
      exact .refl

theorem cmdWriteFile_steps {argv : List CStr} (h : cmdWriteFile env fs argv = .ok r) :
    fsSystem.Steps fs r.1 := by
  unfold cmdWriteFile at h
  split at h
  · have ⟨data, _, h⟩ := except_bind_ok h
    have ⟨data, _, h⟩ := except_bind_ok h
    have ⟨data, _, h⟩ := except_bind_ok h
    cases h
    exact fsExec_step fs (.writeFile _ _)
  · cases h
    exact .refl

theorem cmdCat_steps {argv : List CStr} (h : cmdCat env fs argv = .ok r) :
    fsSystem.Steps fs r.1 := by
  unfold cmdCat at h
  split at h
  · have ⟨⟨n, buf⟩, _, h⟩ := except_bind_ok h
    simp only at h
    split at h
    · cases h
      exact .refl
    · cases h
      exact .refl
  · cases h
    exact .refl

theorem cmdTree_steps {frames : ℕ} (h : cmdTree frames fs = .ok r) : fsSystem.Steps fs r.1 := by
  have ⟨tree, _, h⟩ := except_bind_ok h
  cases h
  exact .refl

/-- A command that makes one call, with its argument if it has one. -/
theorem oneCall_steps {cmd : List CStr → CmdResult} (op : CStr → FsOp)
    (hcall : ∀ argv, ∃ out, cmd argv = .ok (fs, out) ∨ ∃ name, cmd argv = .ok (fsExec fs (op name), out))
    {argv : List CStr} (h : cmd argv = .ok r) : fsSystem.Steps fs r.1 := by
  have ⟨out, hcmd⟩ := hcall argv
  rcases hcmd with hcmd | ⟨name, hcmd⟩
  · cases hcmd.symm.trans h
    exact .refl
  · cases hcmd.symm.trans h
    exact fsExec_step fs (op name)

theorem executeCommand_steps (henv : env.CallsFs) {input : CStr}
    (h : executeCommand env fs input = .ok r) : fsSystem.Steps fs r.1 := by
  unfold executeCommand at h
  cases hargs : splitArgs maxArgs input.bytes with
  | nil =>
    rw [hargs] at h
    cases h
    exact .refl
  | cons cmd args =>
    rw [hargs] at h
    simp only at h
    split_ifs at h
    -- pwd
    · cases h
      exact .refl
    · refine oneCall_steps .cd (fun argv => ?_) h
      unfold cmdCd
      split
      · exact ⟨_, .inr ⟨_, rfl⟩⟩
      · exact ⟨_, .inr ⟨.ofString "/", rfl⟩⟩
    · exact cmdCat_steps h
    · refine oneCall_steps (fun name => .createFile env.tick (some name)) (fun argv => ?_) h
      unfold cmdTouch
      split
      · exact ⟨_, .inr ⟨_, rfl⟩⟩
      · exact ⟨_, .inl rfl⟩
    · exact cmdWriteFile_steps h
    · exact cmdEdit_steps h
    · refine oneCall_steps (fun name => .mkdir env.tick (some name)) (fun argv => ?_) h
      unfold cmdMkdirShell
      split
      · exact ⟨_, .inr ⟨_, rfl⟩⟩
      · exact ⟨_, .inl rfl⟩
    · refine oneCall_steps .delete (fun argv => ?_) h
      unfold cmdRm
      split
      · exact ⟨_, .inr ⟨_, rfl⟩⟩
      · exact ⟨_, .inl rfl⟩
    · exact cmdTree_steps h
    · exact cmdNote_steps h
    · exact henv fs _ r h

end Files

theorem Composed.of_ok {t : SysState} (h : Except.ok t = (Except.ok s' : Except Stuck SysState))
    (ht : Composed s t) : Composed s s' := by
  rwa [Except.ok.inj h] at ht

theorem Composed.command {tasks : DemoTasks} {env : ShellEnv} {keys : ℕ → UInt8} {input : CStr}
    (henv : env.CallsFs) (h : s.command tasks env keys input = .ok s') : Composed s s' := by
  unfold SysState.command at h
  simp only at h
  cases hargs : splitArgs maxArgs input.bytes with
  | nil =>
    rw [hargs] at h
    cases h
    exact of_eq rfl rfl rfl
  | cons cmd args =>
    rw [hargs] at h
    simp only at h
    split_ifs at h
    · refine of_ok h ?_
      exact ⟨.refl, cmdSpawn_steps tasks s.kernel s.tick _, display_steps keys _ s.terminal⟩
    · refine of_ok h ?_
      exact ⟨.refl, cmdKill_steps s.kernel _, display_steps keys _ s.terminal⟩
    · obtain ⟨⟨fs, out⟩, hrun, h⟩ := except_bind_ok h
      have henv' : ShellEnv.CallsFs { env with tick := s.tick } := henv
      refine of_ok h ?_
      exact ⟨executeCommand_steps henv' hrun, .refl, display_steps keys out s.terminal⟩

/-! ## Runs -/

theorem Composed.exec {e : SysEvent} (he : e.CallsFs) (h : sysExec s e = some s') : Composed s s' := by
  cases e with
  | call env eax ebx ecx edx =>
    have ⟨⟨r, t⟩, hrun, ht⟩ := Option.map_eq_some_iff.mp h
    cases ht
    exact syscallSwitch hrun
  | line tasks env keys input =>
    cases hrun : s.command tasks env keys input with
    | error e =>
      rw [sysExec, hrun] at h
      cases h
    | ok t =>
      rw [sysExec, hrun] at h
      cases h
      exact command he hrun
  | kernel op =>
    cases h
    exact ⟨.refl, schedExec_step s.kernel op, .refl⟩
  | timer =>
    cases h
    exact ⟨.refl, schedExec_step s.kernel (.tick (wrap32 (s.tick + 1))), .refl⟩
  | store mem =>
    cases h
    exact of_eq rfl rfl rfl

/-- The kernel and the shell keep their entries. -/
structure KernelKept (k : Kernel) : Prop where
  kernel : (k.table 0).inUse = true ∧ (k.table 0).pid = 0
  shell : (k.table 1).inUse = true ∧ (k.table 1).pid = 1

theorem schedExec_protected {k : Kernel} {i : Slot} (hi : (k.table i).inUse = true)
    (hpid : (k.table i).pid ≤ 1) (op : SchedOp) :
    ((schedExec k op).table i).inUse = true ∧ ((schedExec k op).table i).pid = (k.table i).pid := by
  have hsame : ∀ {k' : Kernel}, (k.table i).SameOwner (k'.table i) →
      (k'.table i).inUse = true ∧ (k'.table i).pid = (k.table i).pid :=
    fun howner => ⟨howner.inUse.trans hi, howner.pid⟩
  cases op with
  | create tick name fn =>
    rcases processCreateKernel_spec k tick name fn with ⟨pmm, hrun⟩ | ⟨slot, hslot, hrun⟩
    · rw [show schedExec k (.create tick name fn) = _ from hrun]
      exact ⟨hi, rfl⟩
    · rw [show schedExec k (.create tick name fn) = _ from hrun,
        Kernel.spawn_ne _ _ _ _ (ne_of_findUnusedSlot hslot hi)]
      exact ⟨hi, rfl⟩
  | terminate pid =>
    rcases processTerminate_spec k pid with hrun | ⟨slot, pmm, hslot, hlt, hrun⟩
    · rw [show schedExec k (.terminate pid) = _ from hrun]
      exact ⟨hi, rfl⟩
    · have hne : i ≠ slot := by
        intro his
        have hfound := (findSlotByPid_some hslot).2
        rw [← his] at hfound
        omega
      rw [show schedExec k (.terminate pid) = _ from hrun]
      show ((k.setProc slot _).table i).inUse = true ∧ ((k.setProc slot _).table i).pid = _
      rw [Kernel.setProc_ne _ _ hne]
      exact ⟨hi, rfl⟩
  | tick now => exact hsame (processTick_sameOwner k now i)
  | schedule => exact hsame (schedule_sameOwner k i)
  | sleep now ticks => exact hsame (processSleep_sameOwner k now ticks i)

theorem KernelKept.reachable {k : Kernel} (h : schedSystem.Reachable k) : KernelKept k := by
  apply h.invariant
  · intro k ⟨pmm, hk⟩
    rw [hk]
    exact ⟨⟨rfl, rfl⟩, rfl, rfl⟩
  · intro k op k' _ ⟨⟨hkernel, hzero⟩, hshell, hone⟩ _ hstep
    rw [show k' = schedExec k op from hstep]
    have hk := schedExec_protected hkernel (by omega) op
    have hs := schedExec_protected hshell (by omega) op
    exact ⟨⟨hk.1, hk.2.trans hzero⟩, hs.1, hs.2.trans hone⟩

/-- The invariants of the components. -/
structure SystemSafe (s : SysState) : Prop where
  tree : FsTree s.fs
  nodes : NodeBounds s.fs
  descriptors : FdBounds s.fs
  screen : TermBounds s.terminal
  processes : KernelKept s.kernel

/-- Whatever system calls with whatever arguments, command lines, calls of the process functions,
timer interrupts and stores to memory apart from the tables come, in any order, the filesystem stays a
tree within its bounds, the screen is written inside its bounds, and the kernel and the shell keep their
entries. -/
theorem system_safe (s : SysState) (h : sysSystem.Reach (fun _ e => e.CallsFs) s) : SystemSafe s := by
  have hfs : fsSystem.Reachable s.fs := by
    apply h.component (f := SysState.fs)
    · intro s hs
      exact .init hs.1
    · intro s e s' he hstep
      exact (Composed.exec he hstep).fs
  have hkernel : schedSystem.Reachable s.kernel := by
    apply h.component (f := SysState.kernel)
    · intro s hs
      exact .init hs.2.1
    · intro s e s' he hstep
      exact (Composed.exec he hstep).kernel
  have hterminal : termSystem.Reachable s.terminal := by
    apply h.component (f := SysState.terminal)
    · intro s hs
      exact hs.2.2
    · intro s e s' he hstep
      exact (Composed.exec he hstep).terminal
  exact ⟨.reachable hfs, .reachable hfs, .reachable hfs, .reach hterminal, .reachable hkernel⟩

/-- The system at its first prompt. -/
def promptShown : SysState where
  fs := fsInit 0
  kernel := processSetSchedulingEnabled (processInit fourPages) true
  terminal := terminalInitialize .zero
  tick := 0
  mem := fun _ => 0

def killShell : SysEvent := .line ⟨1, 2, 3⟩ (plainEnv []) (fun _ => 0) (.ofString "kill 1")

theorem plainEnv_callsFs (secs : List UInt8) : (plainEnv secs).CallsFs := by
  intro s argv r hr
  have hother : (plainEnv secs).other s argv = .error .waiting := rfl
  rw [hother] at hr
  exact absurd hr (by simp only [reduceCtorEq, not_false_eq_true])

/-- A process is created, `kill 1` is typed and `sys_kill(1)` called. -/
def killEvents : List SysEvent := [.kernel (.create 0 demoName 1), killShell, .call quiet 37 1 0 0]

theorem killEvents_run : (killEvents.foldlM sysExec promptShown).isSome = true := by decide +kernel

theorem system_safe_killing : SystemSafe ((killEvents.foldlM sysExec promptShown).get killEvents_run) := by
  have hfs : fsSystem.init promptShown.fs := by
    refine ⟨0, ?_⟩
    simp only [promptShown]
  have hstart : sysSystem.Reach (fun _ e => e.CallsFs) promptShown :=
    .init ⟨hfs, ⟨fourPages, rfl⟩, .init ⟨.zero, rfl, rfl⟩⟩
  have hcalls : ∀ e ∈ killEvents, e.CallsFs := by
    intro e he
    simp only [killEvents, List.mem_cons, List.not_mem_nil, or_false] at he
    rcases he with rfl | rfl | rfl
    · trivial
    · exact plainEnv_callsFs []
    · trivial
  exact system_safe _ (hstart.foldlM_labels hcalls (Option.some_get _).symm)

end MyMisu
