import Inkwell.Base.Errno

namespace Inkwell.Net

inductive NetReason
  | ok | badAddress | unknownHost | lookupFailed | lookupTimedOut | unreachable | timedOut
  | closed | tls | clock
  deriving DecidableEq

inductive ResolveOutcome
  | ok | notFound | failed | timedOut
  deriving DecidableEq

def resolveTimeoutMs : Nat := 5000

def reasonFromErrno : Errno → NetReason
  | .etimedout => .timedOut
  | .econnreset | .epipe => .closed
  | _ => .unreachable

def reasonFromResolve : ResolveOutcome → NetReason
  | .ok => .ok
  | .notFound => .unknownHost
  | .timedOut => .lookupTimedOut
  | .failed => .lookupFailed

theorem reasonFromErrno_ne_ok : reasonFromErrno e ≠ .ok := by cases e <;> simp [reasonFromErrno]

theorem reasonFromResolve_eq_ok : reasonFromResolve o = .ok ↔ o = .ok := by
  cases o <;> simp [reasonFromResolve]

end Inkwell.Net
