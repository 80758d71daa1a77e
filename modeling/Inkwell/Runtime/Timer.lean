import Inkwell.Base.Errno

namespace Inkwell.Timers

/-- A waitable timer of Windows; `setMs` is the delay its handle was last set to, if it runs. -/
structure Timer where
  periodMs : Nat := 0
  dueMs : Nat := 0
  setMs : Option Nat := none
  deriving DecidableEq

/-- `set` is whether `SetWaitableTimer` succeeds. -/
def timerSet (t : Timer) (nowMs afterMs : Nat) (repeats set : Bool) : Timer × Except Errno Unit :=
  let periodMs := if repeats then afterMs else 0
  if afterMs = 0 then ({ periodMs }, .ok ())
  else
    let dueMs := (nowMs + afterMs) % 2 ^ 64
    if set then ({ periodMs, dueMs, setMs := some afterMs }, .ok ())
    else ({ t with periodMs, dueMs }, .error .eio)

inductive Waited
  | object | timeout | failed
  deriving DecidableEq

structure Read where
  nowMs : Nat
  waited : Waited
  set : Bool

def int64Max : Nat := 2 ^ 63 - 1

def Timer.expirations (t : Timer) (nowMs : Nat) : Nat :=
  if nowMs > t.dueMs then (1 + (nowMs - t.dueMs) / t.periodMs) % 2 ^ 64 else 1

/-- The periods that have begun and ended by now, counted without a bound. -/
def Timer.elapsed (t : Timer) (nowMs : Nat) : Nat := 1 + (nowMs - t.dueMs) / t.periodMs

def timerRead (t : Timer) (r : Read) : Timer × Except Errno Nat :=
  match r.waited with
  | .timeout => (t, .ok 0)
  | .failed => (t, .error .eio)
  | .object =>
    if t.periodMs > 0 then
      let dueMs := (t.dueMs + t.expirations r.nowMs * t.periodMs) % 2 ^ 64
      let untilMs := if dueMs > r.nowMs then dueMs - r.nowMs else 1
      if r.set then
        ({ t with dueMs, setMs := some untilMs }, .ok (min (t.expirations r.nowMs) int64Max))
      else ({ t with dueMs }, .error .eio)
    else ({ t with dueMs := 0, setMs := none }, .ok 1)

def Timer.after (t : Timer) (reads : List Read) : Timer :=
  reads.foldl (fun t r => (timerRead t r).1) t

def reported (t : Timer) (r : Read) : Nat := (timerRead t r).2.toOption.getD 0

def reportedAll : Timer → List Read → Nat
  | _, [] => 0
  | t, r :: reads => reported t r + reportedAll (timerRead t r).1 reads

/-- The handle is signalled when the timer is due, no number overflows, and it can be set again. -/
structure Timely (t : Timer) (r : Read) : Prop where
  due : t.dueMs ≤ r.nowMs
  count : t.elapsed r.nowMs ≤ int64Max
  next : t.dueMs + t.elapsed r.nowMs * t.periodMs < 2 ^ 64
  set : r.set

def AllTimely : Timer → List Read → Prop
  | _, [] => True
  | t, r :: reads => (r.waited = .object → Timely t r) ∧ AllTimely (timerRead t r).1 reads

theorem Timely.expirations (h : Timely t r) : t.expirations r.nowMs = t.elapsed r.nowMs := by
  have hcount := h.count
  unfold Timer.expirations
  split
  · exact Nat.mod_eq_of_lt (lt_of_le_of_lt hcount (by decide))
  · have hnow : r.nowMs - t.dueMs = 0 := by omega
    rw [Timer.elapsed, hnow, Nat.zero_div]

theorem timerRead_spec (hperiod : 0 < t.periodMs) (h : r.waited = .object → Timely t r) :
    (timerRead t r).1.periodMs = t.periodMs ∧
      (timerRead t r).1.dueMs = t.dueMs + reported t r * t.periodMs ∧
      (0 < reported t r → r.nowMs < (timerRead t r).1.dueMs ∧
        (timerRead t r).1.dueMs ≤ r.nowMs + t.periodMs) := by
  unfold reported timerRead
  split
  · exact ⟨rfl, by simp [Except.toOption], fun hnone => absurd hnone (lt_irrefl 0)⟩
  · exact ⟨rfl, by simp [Except.toOption], fun hnone => absurd hnone (lt_irrefl 0)⟩
  · rename_i hobject
    have ht := h hobject
    simp only [if_pos hperiod, ht.set, if_true, ht.expirations, Nat.mod_eq_of_lt ht.next,
      min_eq_left ht.count, Except.toOption, Option.getD_some, true_and]
    intro _
    have hlate := Nat.div_add_mod (r.nowMs - t.dueMs) t.periodMs
    have hpart := Nat.mod_lt (r.nowMs - t.dueMs) hperiod
    have hdue := ht.due
    rw [Timer.elapsed, add_mul, one_mul, mul_comm _ t.periodMs]
    omega

/-- After each read that reports expirations the timer is due later than now, by a period at most,
and what was reported is the number of periods gone by. -/
theorem reads_keep_time (hperiod : 0 < t.periodMs) (h : AllTimely t reads) :
    (∀ before r after, reads = before ++ r :: after → 0 < reported (t.after before) r →
      r.nowMs < (t.after (before ++ [r])).dueMs ∧
        (t.after (before ++ [r])).dueMs ≤ r.nowMs + t.periodMs) ∧
    (t.after reads).dueMs = t.dueMs + reportedAll t reads * t.periodMs := by
  induction reads generalizing t with
  | nil => exact ⟨by simp, by simp [Timer.after, reportedAll]⟩
  | cons r reads ih =>
    obtain ⟨hsame, hnext, hlate⟩ := timerRead_spec hperiod h.1
    obtain ⟨hrest, hsum⟩ := ih (hsame ▸ hperiod) h.2
    refine ⟨fun before r' after hsplit => ?_, ?_⟩
    · cases before with
      | nil =>
        cases hsplit
        exact hlate
      | cons =>
        cases hsplit
        exact hsame ▸ hrest _ _ _ rfl
    · change (Timer.after (timerRead t r).1 reads).dueMs = _
      rw [hsum, hnext, hsame, reportedAll, add_mul, add_assoc]

/-- Armed at time 0 for every 10 milliseconds, and read two times late, once by three periods. -/
theorem reads_keep_time_late :
    let t := (timerSet {} 0 10 true true).1
    let reads : List Read := [⟨12, .object, true⟩, ⟨45, .object, true⟩]
    AllTimely t reads ∧ (t.after reads).dueMs = t.dueMs + reportedAll t reads * t.periodMs ∧
      reportedAll t reads = 4 := by
  intro t reads
  have htimely : AllTimely t reads :=
    ⟨fun _ => ⟨by decide, by decide, by decide, rfl⟩,
      fun _ => ⟨by decide, by decide, by decide, rfl⟩, trivial⟩
  exact ⟨htimely, (reads_keep_time (by decide) htimely).2, by decide⟩

/-- The handle cannot be set again: the timer has moved on by a period that is not reported. -/
theorem failed_set_loses_period :
    let t := (timerSet {} 0 10 true true).1
    timerRead t ⟨10, .object, false⟩ = ({ t with dueMs := t.dueMs + 10 }, .error .eio) := rfl

end Inkwell.Timers
