import Mathlib.Tactic

/-! The error codes of `errno.h` and the convention that a failed call returns one negated. -/

namespace MyMisu

inductive Errno
  | eperm | enoent | esrch | eintr | eio | ebadf | echild | eagain | enomem | eacces | efault
  | ebusy | eexist | enotdir | eisdir | einval | enfile | emfile | enospc | espipe
  | enametoolong | enosys | enotempty
  deriving DecidableEq, Repr

namespace Errno

def code : Errno → ℤ
  | eperm => 1
  | enoent => 2
  | esrch => 3
  | eintr => 4
  | eio => 5
  | ebadf => 9
  | echild => 10
  | eagain => 11
  | enomem => 12
  | eacces => 13
  | efault => 14
  | ebusy => 16
  | eexist => 17
  | enotdir => 20
  | eisdir => 21
  | einval => 22
  | enfile => 23
  | emfile => 24
  | enospc => 28
  | espipe => 29
  | enametoolong => 36
  | enosys => 38
  | enotempty => 39

/-- `return -E;` -/
def ret (e : Errno) : ℤ := -e.code

theorem ret_neg (e : Errno) : e.ret < 0 := by
  cases e <;> decide

end Errno

end MyMisu
