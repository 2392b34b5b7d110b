/-
The error numbers the modelled kernel calls return (`wasm_posix_shared::Errno`,
those of them a modelled function names).
-/
import Mathlib

namespace Kandelo

inductive Errno
  | EPERM
  | ENOENT
  | ESRCH
  | EINTR
  | EIO
  | E2BIG
  | EBADF
  | ECHILD
  | EAGAIN
  | ENOMEM
  | EACCES
  | EFAULT
  | EBUSY
  | EEXIST
  | EXDEV
  | ENOTDIR
  | EISDIR
  | EINVAL
  | ENFILE
  | EMFILE
  | EFBIG
  | ENOSPC
  | ERANGE
  | ENAMETOOLONG
  | ENOLCK
  | ENOSYS
  | ENOTEMPTY
  | ENOMSG
  | EIDRM
  | EOVERFLOW
  | EMSGSIZE
  | ENOTSUP
  | ETIMEDOUT
  deriving DecidableEq, Repr

/-- The discriminant, as `errno as i32` reads it. -/
def Errno.code : Errno → Int
  | .EPERM => 1
  | .ENOENT => 2
  | .ESRCH => 3
  | .EINTR => 4
  | Errno.EIO => 5
  | .E2BIG => 7
  | .EBADF => 9
  | .ECHILD => 10
  | .EAGAIN => 11
  | .ENOMEM => 12
  | .EACCES => 13
  | .EFAULT => 14
  | .EBUSY => 16
  | .EEXIST => 17
  | .EXDEV => 18
  | .ENOTDIR => 20
  | .EISDIR => 21
  | .EINVAL => 22
  | .ENFILE => 23
  | .EMFILE => 24
  | .EFBIG => 27
  | .ENOSPC => 28
  | .ERANGE => 34
  | .ENAMETOOLONG => 36
  | .ENOLCK => 37
  | .ENOSYS => 38
  | .ENOTEMPTY => 39
  | .ENOMSG => 42
  | .EIDRM => 43
  | .EOVERFLOW => 75
  | .EMSGSIZE => 90
  | .ENOTSUP => 95
  | .ETIMEDOUT => 110

end Kandelo
