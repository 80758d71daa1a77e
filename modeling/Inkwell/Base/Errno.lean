import Mathlib.Algebra.Ring.Nat
import Mathlib.Data.List.Basic

namespace Inkwell

/-- The error numbers the code names; `os` is any other the system reports. -/
inductive Errno
  | einval | eexist | enoent | enospc | ebadf | eio | eagain | eintr | ebusy | enomem | ebadmsg
  | econnreset | econnaborted | epipe | enotconn | etimedout | emsgsize | eproto | enotsup | enobufs
  | e2big | eacces | ealready | enametoolong | eilseq
  | os (code : Nat)
  deriving DecidableEq

end Inkwell
