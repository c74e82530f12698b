import MyMisu.Fs.Api
import MyMisu.Lib.WordMemory
import MyMisu.Process.State
import MyMisu.Vga.Terminal

/-!
# System calls

The `sys_` functions of `syscall.c` and the switch of `syscall_handler`.  Pointers are addresses of
a byte memory, where 0 is NULL; the other arguments are the casts of the registers.  What interrupts
bring during a call, the characters typed and the time, comes with it.
-/

namespace MyMisu

open WordMemory

/-! ## Buffers and strings in memory -/

def readBytes (mem : Mem) (p : Word) (n : ℕ) : List UInt8 :=
  (List.range n).map fun i => .ofBitVec (mem (p + BitVec.ofNat 32 i))

def writeBytes (mem : Mem) (p : Word) (bytes : List UInt8) : Mem := fun x =>
  if (x - p).toNat < bytes.length then (bytes.getD (x - p).toNat 0).toBitVec else mem x

/-- The string a pointer points to, read up to its NUL. -/
@[irreducible] def readStr (mem : Mem) (p : Word) : CStr := .ofBuffer (readBytes mem p (2 ^ 32))

def NodeType.toByte : NodeType → UInt8
  | .unset => 0
  | .file => 1
  | .dir => 2

/-- A `fs_stat_t`: the type in the first byte, then three words. -/
def writeStat (mem : Mem) (p : Word) (st : FsStat) : Mem :=
  let mem := writeBytes mem p [st.type.toByte]
  let mem := mem.writeWord (p + 4) (BitVec.ofNat 32 st.size)
  let mem := mem.writeWord (p + 8) (BitVec.ofNat 32 st.createdTick)
  mem.writeWord (p + 12) (match st.parent with
    | some i => BitVec.ofNat 32 i.val
    | none => -1)

/-! ## The calls -/

structure SysState where
  fs : FsState
  kernel : Kernel
  terminal : Terminal
  tick : ℕ
  mem : Mem

/-- What comes from outside during a call: the characters `keyboard_getchar` returns, in order, and
the tick at each test of the loop in `sys_sleep`, of which there are at most `fuel`. -/
structure SysEnv where
  keys : ℕ → UInt8
  ticks : ℕ → ℕ
  fuel : ℕ

namespace SysState

def withFs (s : SysState) (r : ℤ × FsState) : ℤ × SysState := (r.1, { s with fs := r.2 })

def withKernel (s : SysState) (r : ℤ × Kernel) : ℤ × SysState := (r.1, { s with kernel := r.2 })

end SysState

def stdin : ℤ := 0
def stdout : ℤ := 1
def stderr : ℤ := 2

/-- The loop of `sys_read` on the keyboard, from index `i` on with `left` characters to go: how many
are stored when it ends, and the memory. -/
def stdinLoop (keys : ℕ → UInt8) (buf : Word) : (left i : ℕ) → Mem → ℕ × Mem
  | 0, i, mem => (i, mem)
  | left + 1, i, mem =>
    let mem := writeBytes mem (buf + BitVec.ofNat 32 i) [keys i]
    if keys i = 10 then (i + 1, mem) else stdinLoop keys buf left (i + 1) mem

def sysRead (env : SysEnv) (s : SysState) (fd : ℤ) (buf : Word) (count : ℕ) : ℤ × SysState :=
  if buf = 0 then (Errno.efault.ret, s)
  else if fd = stdin then
    let (n, mem) := stdinLoop env.keys buf count 0 s.mem
    (intOfU32 n, { s with mem := mem })
  else if fd ≥ 3 then
    let (r, bytes, fs) := fsReadFd s.fs (fd - 3) true count
    (r, { s with fs := fs, mem := writeBytes s.mem buf bytes })
  else (Errno.ebadf.ret, s)

def sysWrite (env : SysEnv) (s : SysState) (fd : ℤ) (buf : Word) (count : ℕ) : ℤ × SysState :=
  if buf = 0 then (Errno.efault.ret, s)
  else
    let bytes := readBytes s.mem buf count
    if fd = stdout then
      (intOfU32 count, { s with terminal := terminalWrite s.terminal bytes env.keys })
    else if fd = stderr then
      -- in red, and back to the usual colour
      let t := terminalSetcolor s.terminal (vgaEntryColor vgaRed vgaBlack)
      let t := terminalWrite t bytes env.keys
      (intOfU32 count,
        { s with terminal := terminalSetcolor t (vgaEntryColor vgaLightGrey vgaBlack) })
    else if fd ≥ 3 then s.withFs (fsWriteFd s.fs (fd - 3) (some bytes))
    else (Errno.ebadf.ret, s)

def sysOpen (s : SysState) (path : Word) (flags : ℕ) : ℤ × SysState :=
  if path = 0 then (Errno.efault.ret, s)
  else
    -- 0, 1 and 2 are the standard streams
    let (fd, fs) := fsOpen s.fs s.tick (some (readStr s.mem path)) flags
    if fd ≥ 0 then (fd + 3, { s with fs := fs }) else (fd, { s with fs := fs })

def sysClose (s : SysState) (fd : ℤ) : ℤ × SysState :=
  if fd < 3 then (Errno.ebadf.ret, s) else s.withFs (fsClose s.fs (fd - 3))

def sysLseek (s : SysState) (fd offset whence : ℤ) : ℤ × SysState :=
  if fd < 3 then (Errno.ebadf.ret, s) else s.withFs (fsLseek s.fs (fd - 3) offset whence)

/-- The calls that test a path for NULL and hand it on. -/
def sysPath (call : FsState → CStr → ℤ × FsState) (s : SysState) (path : Word) : ℤ × SysState :=
  if path = 0 then (Errno.efault.ret, s) else s.withFs (call s.fs (readStr s.mem path))

def sysUnlink (s : SysState) (path : Word) : ℤ × SysState := sysPath fsUnlink s path

def sysChdir (s : SysState) (path : Word) : ℤ × SysState := sysPath fsCd s path

def sysMkdir (s : SysState) (dirname : Word) : ℤ × SysState :=
  sysPath (fun fs name => fsMkdir fs s.tick (some name)) s dirname

def sysRmdir (s : SysState) (dirname : Word) : ℤ × SysState := sysPath fsRmdir s dirname

def sysStat (s : SysState) (path statbuf : Word) : ℤ × SysState :=
  if path = 0 ∨ statbuf = 0 then (Errno.efault.ret, s)
  else
    match fsStat s.fs (some (readStr s.mem path)) true with
    | (r, none) => (r, s)
    | (r, some st) => (r, { s with mem := writeStat s.mem statbuf st })

def sysGetcwd (s : SysState) (buf : Word) (size : ℕ) : ℤ × SysState :=
  if buf = 0 then (Errno.efault.ret, s)
  else
    let (r, bytes) := fsGetcwd s.fs true size
    (r, { s with mem := writeBytes s.mem buf bytes })

/-- `while (timer_get_ticks() - start < ticks) hlt;` counting the tests. -/
def sysSleep (env : SysEnv) (s : SysState) (ticks : ℕ) : Option (ℤ × SysState) :=
  (whileLoop (fun k => decide (wrap32 (env.ticks k + (2 ^ 32 - s.tick)) < ticks))
    (fun k => some (k + 1)) env.fuel 0).map fun k => (0, { s with tick := env.ticks k })

def sysYield (s : SysState) : ℤ × SysState := (0, s)

def sysUptime (s : SysState) : ℤ × SysState := (intOfU32 s.tick, s)

def sysGetpid (s : SysState) : ℤ × SysState := (intOfU32 (processGetCurrentPid s.kernel), s)

/-- `return -ENOSYS;` -/
def sysNosys (s : SysState) : ℤ × SysState := (Errno.enosys.ret, s)

def sysFork (s : SysState) : ℤ × SysState := sysNosys s

def sysWaitpid (s : SysState) (_pid : ℤ) : ℤ × SysState := sysNosys s

def sysExecve (s : SysState) (_path : Word) : ℤ × SysState := sysNosys s

/-! ## The switch -/

inductive SysNr
  | exit | fork | read | write | open | close | waitpid | unlink | execve | chdir | stat | lseek
  | getpid | kill | mkdir | rmdir | uptime | yield | sleep | getcwd
  deriving DecidableEq

namespace SysNr

/-- The constants `SYS_EXIT`, ... of `syscall.h`. -/
def number : SysNr → ℕ
  | exit => 1
  | fork => 2
  | read => 3
  | write => 4
  | .open => 5
  | close => 6
  | waitpid => 7
  | unlink => 10
  | execve => 11
  | chdir => 12
  | stat => 18
  | lseek => 19
  | getpid => 20
  | kill => 37
  | mkdir => 39
  | rmdir => 40
  | uptime => 100
  | yield => 158
  | sleep => 162
  | getcwd => 183

def all : List SysNr :=
  [exit, fork, read, write, .open, close, waitpid, unlink, execve, chdir, stat, lseek, getpid, kill,
    mkdir, rmdir, uptime, yield, sleep, getcwd]

/-- The case of the switch that a value selects. -/
def ofNumber (eax : ℕ) : Option SysNr := all.find? fun nr => nr.number = eax

end SysNr

/-- A case of the switch with its arguments; `none` when it does not return. -/
def sysCall (env : SysEnv) (s : SysState) (ebx ecx edx : Word) : SysNr → Option (ℤ × SysState)
  | .exit => some (s.withKernel (sysExit s.kernel))
  | .fork => some (sysFork s)
  | .read => some (sysRead env s ebx.toInt ecx edx.toNat)
  | .write => some (sysWrite env s ebx.toInt ecx edx.toNat)
  | .open => some (sysOpen s ebx ecx.toNat)
  | .close => some (sysClose s ebx.toInt)
  | .waitpid => some (sysWaitpid s ebx.toInt)
  | .unlink => some (sysUnlink s ebx)
  | .execve => some (sysExecve s ebx)
  | .chdir => some (sysChdir s ebx)
  | .lseek => some (sysLseek s ebx.toInt ecx.toInt edx.toInt)
  | .getpid => some (sysGetpid s)
  | .kill => some (s.withKernel (sysKill s.kernel ebx.toInt))
  | .mkdir => some (sysMkdir s ebx)
  | .rmdir => some (sysRmdir s ebx)
  | .stat => some (sysStat s ebx ecx)
  | .getcwd => some (sysGetcwd s ebx ecx.toNat)
  | .sleep => sysSleep env s ebx.toNat
  | .yield => some (sysYield s)
  | .uptime => some (sysUptime s)

/-- The switch of `syscall_handler`: the value it stores to `regs->eax`, and the state. -/
def syscallSwitch (env : SysEnv) (s : SysState) (eax ebx ecx edx : Word) : Option (ℤ × SysState) :=
  match SysNr.ofNumber eax.toNat with
  | some nr => sysCall env s ebx ecx edx nr
  | none => some (sysNosys s)

end MyMisu
