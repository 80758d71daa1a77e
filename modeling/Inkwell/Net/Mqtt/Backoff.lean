import Inkwell.Library.History
import Inkwell.Net.Mqtt.History
import Inkwell.Net.Mqtt.Run

namespace Inkwell.Mqtt
open Library Net

def attemptBackoffs : List Event → Nat
  | [] => 0
  | .attempted :: _ => 0
  | .armed .. :: t => attemptBackoffs t + 1
  | _ :: t => attemptBackoffs t

/-- Since the client was last started or stopped and since a CONNACK last accepted it. -/
def failedAttempts : List Event → Nat
  | [] => 0
  | .started _ :: _ => 0
  | .entered .off :: _ => 0
  | .entered .ready :: _ => 0
  | .armed .. :: t => failedAttempts t + 1
  | _ :: t => failedAttempts t

def armedRetry : List Event → Option Nat
  | [] => none
  | .started _ :: _ => none
  | .armed _ retryAtMs :: _ => some retryAtMs
  | _ :: t => armedRetry t

def failuresMax : Nat := 2 ^ 32 - 1

/-- How an attempt may begin: with a start, or with a tick that is not before the armed retry. -/
inductive Begins : List Event → Prop
  | start (onMessage : Bool) (t : List Event) : Begins (.started onMessage :: t)
  | retry (harmed : armedRetry t = some retryAtMs) (hdue : retryAtMs ≤ nowMs) :
    Begins (.retried nowMs :: t)

/-- A back-off is the first of its attempt and waits as long as the failures in a row say, an
attempt begins as it may, and a callback finds the counter right. -/
def Timely : Event → List Event → Prop
  | .armed nowMs retryAtMs, before =>
    attemptBackoffs before = 0 ∧ retryAtMs = nowMs + min (5000 * 2 ^ failedAttempts before) 300000
  | .attempted, before => Begins before
  | .called client, before => client.failures = min (failedAttempts before) failuresMax
  | _, _ => True

def Event.untimed : Event → Bool
  | .started _ | .attempted | .armed .. | .called _ => false
  | .entered st => st != .off && st != .ready
  | _ => true

structure SamePace (t t' : List Event) : Prop where
  attempt : attemptBackoffs t' = attemptBackoffs t
  failed : failedAttempts t' = failedAttempts t
  retry : armedRetry t' = armedRetry t
  always : Always Timely t → Always Timely t'

theorem SamePace.refl : SamePace t t := ⟨rfl, rfl, rfl, fun h => h⟩

theorem SamePace.trans (h₁ : SamePace t₁ t₂) (h₂ : SamePace t₂ t₃) : SamePace t₁ t₃ :=
  ⟨h₂.attempt.trans h₁.attempt, h₂.failed.trans h₁.failed, h₂.retry.trans h₁.retry,
    fun h => h₂.always (h₁.always h)⟩

theorem SamePace.one (he : e.untimed) : SamePace t (e :: t) := by
  cases e with
  | started | attempted | armed | called => cases he
  | entered st =>
    cases st with
    | off | ready => cases he
    | _ => exact ⟨rfl, rfl, rfl, fun h => h.cons trivial⟩
  | _ => exact ⟨rfl, rfl, rfl, fun h => h.cons trivial⟩

theorem SamePace.cons (h : SamePace t t') (he : e.untimed) : SamePace t (e :: t') :=
  h.trans (.one he)

theorem Send.pace (h : Send o t o' t') : SamePace t t' := by
  cases h with
  | accepted | blocked | refused => exact .one rfl
  | drained | compacted => exact .refl

theorem Goodbye.pace (h : Goodbye c t) : SamePace c.trace t := by
  cases h with
  | silent => exact .refl
  | said => exact (SamePace.one rfl).cons rfl

theorem answered_pace (c : Core) : SamePace c.trace (c.answered n code).trace := by
  unfold Core.answered
  split
  · exact ((SamePace.one rfl).cons rfl).cons rfl
  · exact (SamePace.one rfl).cons rfl

theorem Pump.pace (h : Pump c c') :
    SamePace c.trace c'.trace ∧ c'.state = c.state ∧ c'.retryAtMs = c.retryAtMs ∧
      c'.failures = c.failures := by
  cases h with
  | idle => exact ⟨.refl, rfl, rfl, rfl⟩
  | subscribe | noRoom => exact ⟨(SamePace.one rfl).cons rfl, rfl, rfl, rfl⟩

theorem countFailure_min : countFailure (min n failuresMax) = min (n + 1) failuresMax := by
  unfold countFailure failuresMax
  split
  · omega
  · omega

theorem backoffDelay_eq : backoffDelay (min (n + 1) failuresMax) = min (5000 * 2 ^ n) 300000 := by
  have hshift : (if min (n + 1) failuresMax > 1 then
      min (min (n + 1) failuresMax - 1) backoffShiftMax else 0) = min n 6 := by
    unfold failuresMax backoffShiftMax
    split
    · omega
    · omega
  unfold backoffDelay
  simp only [hshift, Nat.shiftLeft_eq, backoffBaseMs, backoffMaxMs]
  by_cases hn : n ≤ 6
  · rw [min_eq_left hn]
  · have hle : 2 ^ 6 ≤ 2 ^ n := Nat.pow_le_pow_right (by decide) (Nat.le_of_not_le hn)
    rw [min_eq_right (Nat.le_of_not_le hn)]
    omega

theorem backoff_shift_fits (h : shift ≤ backoffShiftMax) : backoffBaseMs <<< shift < 2 ^ 64 := by
  have hle : 2 ^ shift ≤ 2 ^ backoffShiftMax := Nat.pow_le_pow_right (by decide) h
  rw [Nat.shiftLeft_eq]
  calc backoffBaseMs * 2 ^ shift ≤ backoffBaseMs * 2 ^ backoffShiftMax := Nat.mul_le_mul_left _ hle
    _ < 2 ^ 64 := by decide

structure Pacing (c : Core) : Prop where
  always : Always Timely c.trace
  fresh : c.state ≠ .waiting → c.state ≠ .off → attemptBackoffs c.trace = 0
  counter : c.failures = min (failedAttempts c.trace) failuresMax
  armed : c.state = .waiting → armedRetry c.trace = some c.retryAtMs

theorem Pacing.frame (h : Pacing c) (hpace : SamePace c.trace c'.trace)
    (hstate : c'.state = c.state) (hretry : c'.retryAtMs = c.retryAtMs)
    (hfailures : c'.failures = c.failures) : Pacing c' where
  always := hpace.always h.always
  fresh := by rw [hstate, hpace.attempt]; exact h.fresh
  counter := by rw [hfailures, hpace.failed]; exact h.counter
  armed := by rw [hstate, hpace.retry, hretry]; exact h.armed

theorem Pacing.pump (h : Pacing c) (hp : Pump c c') : Pacing c' := by
  obtain ⟨hpace, hstate, hretry, hfailures⟩ := hp.pace
  exact h.frame hpace hstate hretry hfailures

structure Trying (c : Core) : Prop where
  always : Always Timely c.trace
  none : attemptBackoffs c.trace = 0
  counter : c.failures = min (failedAttempts c.trace) failuresMax

theorem Pacing.trying (h : Pacing c) (hwait : c.state ≠ .waiting) (hoff : c.state ≠ .off) :
    Trying c :=
  ⟨h.always, h.fresh hwait hoff, h.counter⟩

theorem Pacing.enter {c : Core} (h : Pacing { c with state := st })
    (hst : (Event.entered st).untimed) : Pacing (c.enter st) :=
  enter_induction h (h.frame (.one hst) rfl rfl rfl)

theorem Trying.enter (h : Trying c) (hst : (Event.entered st).untimed)
    (hwait : st ≠ .waiting) : Pacing (c.enter st) :=
  Pacing.enter ⟨h.always, fun _ _ => h.none, h.counter, fun hw => absurd hw hwait⟩ hst

theorem Trying.failed (h : Trying c) : Pacing (c.failed f) := by
  have hfailed : SamePace c.trace (.failed f :: c.trace) := .one rfl
  have hcount : countFailure c.failures = min (failedAttempts c.trace + 1) failuresMax := by
    rw [h.counter, countFailure_min]
  have harmed : Timely (.armed c.nowMs (c.nowMs + backoffDelay (countFailure c.failures)))
      (.failed f :: c.trace) := by
    refine ⟨hfailed.attempt.trans h.none, ?_⟩
    rw [hfailed.failed, hcount, backoffDelay_eq]
  exact Pacing.enter
    ⟨(hfailed.always h.always).cons harmed, fun h => absurd rfl h, hcount, fun _ => rfl⟩ rfl

theorem Quiet.trying (hq : Quiet c) (h : Pacing c) (hs : c.socket) : Trying c := by
  have hconnected := hq.socket.mp hs
  apply h.trying
  · intro hwait
    rw [hwait] at hconnected
    cases hconnected
  · intro hoff
    rw [hoff] at hconnected
    cases hconnected

theorem Prelude.trying (h : Prelude who c b) (hp : Pacing c) : Trying b := by
  cases h with
  | start _ onMessage =>
    have hstarted : Always Timely (.started onMessage :: c.trace) := hp.always.cons trivial
    exact ⟨hstarted.cons (.start onMessage c.trace), rfl, rfl⟩
  | retry _ hwait nowMs hdue =>
    have hretried : SamePace c.trace (.retried nowMs :: c.trace) := .one rfl
    have hbegins : Begins (.retried nowMs :: c.trace) := .retry (hp.armed hwait) hdue
    exact ⟨(hretried.always hp.always).cons hbegins, rfl, hp.counter⟩
  | resolved _ hres =>
    exact ⟨hp.always, hp.fresh (by rw [hres]; decide) (by rw [hres]; decide), hp.counter⟩

theorem Trying.opened (h : Trying c) (stats : Stats) : Trying (c.opened stats) :=
  have hpace : SamePace c.trace (.opened stats :: c.trace) := .one rfl
  ⟨hpace.always h.always, hpace.attempt.trans h.none, h.counter⟩

theorem Act.pacing (ha : Act .reader c c') (hq : Quiet c) (hp : Pacing c) : Pacing c' := by
  cases ha with
  | clock | moved => exact hp.frame (.refl) rfl rfl rfl
  | called client h =>
    have hclient : client.failures = c.failures := congrArg Core.failures h
    have htimely : Timely (.called client) c.trace := hclient.trans hp.counter
    exact ⟨hp.always.cons htimely, hp.fresh, hp.counter, hp.armed⟩
  | received | skipped | delivered | queued | ignored | cleared =>
    exact hp.frame (.one rfl) rfl rfl rfl
  | send _ h => exact hp.frame h.pace rfl rfl rfl
  | failed hv => exact (hq.trying hp hv.1).failed
  | connect h stats =>
    have hopened := (h.trying hp).opened stats
    exact Trying.enter ⟨hopened.always, hopened.none, hopened.counter⟩ rfl nofun
  | lookUp h =>
    have htrying := h.trying hp
    exact Trying.enter ⟨htrying.always, htrying.none, htrying.counter⟩ rfl nofun
  | missed h => exact (h.trying hp).failed
  | refused h stats => exact ((h.trying hp).opened stats).failed
  | secure _ hs =>
    have htrying := hq.trying hp hs
    exact Trying.enter ⟨htrying.always, htrying.none, htrying.counter⟩ rfl nofun
  | greet _ hs =>
    have htrying := hq.trying hp hs
    exact Trying.enter ⟨htrying.always, htrying.none, htrying.counter⟩ rfl nofun
  | answered _ _ code h =>
    have hanswered : Pacing (c.answered c.subscribeId code) :=
      hp.frame (answered_pace c) rfl rfl rfl
    exact hanswered.pump h
  | addFilter filter _ _ _ _ h =>
    have hadded : Pacing { c with filters := c.filters ++ [filter] } := hp.frame (.refl) rfl rfl rfl
    exact hadded.pump h
  | @stopped t h hg =>
    have hstopped : Always Timely (.stopped :: t) := (hg.pace.always hp.always).cons trivial
    have henter : c.stopped t = { c.closed with
        state := .off, generation := c.generation + 1, failure := {}, failures := 0
        retryAtMs := 0, trace := .entered .off :: .stopped :: t } := if_neg h
    rw [henter]
    exact ⟨hstopped.cons trivial, fun _ h => absurd rfl h, rfl, nofun⟩
  | shutdown => exact ⟨hp.always.cons trivial, fun _ h => absurd rfl h, hp.counter, nofun⟩

theorem pacing_kept : Kept .reader (fun _ => True) Pacing := by
  intro c _ hq hp ha _
  exact ha.pacing hq hp

theorem Pacing.accepted (hp : Pacing c) (hg : c.state = .greeting) : Pacing c.accepted := by
  have hnone : attemptBackoffs c.trace = 0 := hp.fresh (by rw [hg]; decide) (by rw [hg]; decide)
  have henter : c.accepted = { c with
      failures := 0, deadlineMs := 0, failure := {}, state := .ready
      trace := .entered .ready :: c.trace } := if_neg (by rw [hg]; decide)
  rw [henter]
  exact ⟨hp.always.cons trivial, fun _ _ => hnone, rfl, nofun⟩

theorem Moves.pacing (h : Moves c c') (hq : Quiet c) (hp : Pacing c) : Pacing c' := by
  have hl : Lasting (fun _ => True) := fun _ _ => trivial
  have hcallback : ∀ {c c₁ : Core}, Quiet c → Pacing c → c.socket → c.state = .greeting →
      Calls c.accepted c₁ → Pacing c₁ := by
    intro c _ hq hp hs hg hcalls
    exact hcalls.steps.keeps hl pacing_kept (quiet_accepted hq hs) (hp.accepted hg) trivial
  refine h.keeps hl pacing_kept ?_ ?_ hq hp trivial
  · intro c c₁ _ hq hp hs hg hcalls _ hpump _
    have hagain : Pacing c₁.resubscribed :=
      (hcallback hq hp hs hg hcalls).frame (.one rfl) rfl rfl rfl
    exact hagain.pump hpump
  · intro c _ hq hp hs hg hcalls _ _
    exact hcallback hq hp hs hg hcalls

theorem run_pacing (depth : Nat) (hasLoop : Bool) (world : World) (ops : List Op) :
    Pacing (run (callback depth) (boot hasLoop world) ops).core := by
  have hboot : Pacing (boot hasLoop world).core := ⟨.nil, fun _ h => absurd rfl h, rfl, nofun⟩
  exact (run_boot_moves depth hasLoop world ops).pacing (boot_quiet hasLoop world) hboot

/-- An attempt backs off once at most; the counter is the number of failures in a row, up to the
largest it holds; the back-off after `n` others waits `min (5000 * 2 ^ n) 300000` milliseconds;
and only a start or a tick at the armed time begins an attempt. -/
theorem run_backs_off (depth : Nat) (hasLoop : Bool) (world : World) (ops : List Op) :
    let s := run (callback depth) (boot hasLoop world) ops
    (∀ nowMs retryAtMs before, Event.armed nowMs retryAtMs :: before <:+ s.trace →
      attemptBackoffs before = 0 ∧
      retryAtMs = nowMs + min (5000 * 2 ^ failedAttempts before) 300000) ∧
    (∀ before, Event.attempted :: before <:+ s.trace →
      (∃ onMessage t, before = .started onMessage :: t) ∨
      ∃ nowMs t retryAtMs, before = .retried nowMs :: t ∧ armedRetry t = some retryAtMs ∧
        retryAtMs ≤ nowMs) ∧
    s.client.failures = min (failedAttempts s.trace) (2 ^ 32 - 1) ∧
    (∀ client before, Event.called client :: before <:+ s.trace →
      client.failures = min (failedAttempts before) (2 ^ 32 - 1)) ∧
    (s.client.state = .waiting → armedRetry s.trace = some s.client.retryAtMs) ∧
    ∀ shift ≤ backoffShiftMax, backoffBaseMs <<< shift < 2 ^ 64 := by
  have hp := run_pacing depth hasLoop world ops
  refine ⟨?_, ?_, hp.counter, ?_, hp.armed, fun shift h => backoff_shift_fits h⟩
  · intro _ _ _ hbefore
    exact hp.always _ _ hbefore
  · intro before hbefore
    have hbegins : Begins before := hp.always _ _ hbefore
    cases hbegins with
    | start onMessage t => exact .inl ⟨onMessage, t, rfl⟩
    | @retry t retryAtMs nowMs harmed hdue => exact .inr ⟨nowMs, t, retryAtMs, rfl, harmed, hdue⟩
  · intro _ _ hbefore
    exact hp.always _ _ hbefore

def retries : Nat → List Op
  | 0 => [.call (.start { address := [104], clientId := [99] } false false 0)]
  | n + 1 => retries n ++ [.tick ((n + 1) * backoffMaxMs)]

structure Stranded (s : Sys) (n : Nat) : Prop where
  state : s.client.state = .waiting
  lookup : s.client.lookup = none
  silent : s.client.onState = false
  opens : s.world.opens = []
  literals : s.world.literals = []
  due : s.client.retryAtMs ≤ (n + 1) * backoffMaxMs
  failed : failedAttempts s.trace = n + 1

theorem stranded_backOff (hsilent : s.client.onState = false) (hopens : s.world.opens = [])
    (hliterals : s.world.literals = []) (hnow : s.client.nowMs = n * backoffMaxMs)
    (hfailed : failedAttempts s.trace = n) : Stranded (backOff (callback 0) s) n := by
  have hdue : (backedOff s).client.retryAtMs ≤ (n + 1) * backoffMaxMs := by
    rw [Nat.succ_mul, ← hnow]
    exact Nat.add_le_add_left (min_le_right _ _) _
  have hcount : failedAttempts (backedOff s).trace = n + 1 := congrArg (· + 1) hfailed
  have hsilent : (backedOff s).client.onState = false := hsilent
  unfold backOff setState
  split
  · rename_i hwait
    exact ⟨hwait, rfl, hsilent, hopens, hliterals, hdue, hcount⟩
  · simp only [Sys.log, hsilent, Bool.false_eq_true, if_false]
    exact ⟨rfl, rfl, rfl, hopens, hliterals, hdue, hcount⟩

theorem stranded_fail (hsilent : s.client.onState = false) (hopens : s.world.opens = [])
    (hliterals : s.world.literals = []) (hnow : s.client.nowMs = n * backoffMaxMs)
    (hfailed : failedAttempts s.trace = n) : Stranded (failNet (callback 0) s reason detail) n := by
  unfold failNet recordFailure
  simp only
  split
  · exact stranded_backOff hsilent hopens hliterals hnow hfailed
  · exact stranded_backOff hsilent hopens hliterals hnow hfailed

theorem stranded_attempt (hsilent : s.client.onState = false) (hopens : s.world.opens = [])
    (hliterals : s.world.literals = []) (hnow : s.client.nowMs = n * backoffMaxMs)
    (hfailed : failedAttempts s.trace = n) : Stranded (mqttAttempt (callback 0) s) n := by
  unfold mqttAttempt mqttOpen next
  simp only [attempting, Sys.log, hliterals, hopens, List.headD_nil, if_true]
  exact stranded_fail hsilent rfl rfl hnow hfailed

theorem Stranded.tick (h : Stranded s n) :
    Stranded (clientTick (callback 0) s ((n + 1) * backoffMaxMs)) (n + 1) := by
  unfold clientTick resolveTick resolveTryFinish
  simp only [h.lookup, h.state, Option.isNone_none, if_true]
  rw [if_neg (by decide), if_pos h.due]
  exact stranded_attempt h.silent h.opens h.literals rfl h.failed

theorem stranded_retries : Stranded (run (callback 0) (boot true {}) (retries n)) n := by
  induction n with
  | zero =>
    have hsplit : targetSplit [104] addressMax = some ([104], 0) := by decide
    have hstart : run (callback 0) (boot true {}) (retries 0) = mqttAttempt (callback 0)
        (begun (boot true {}) { address := [104], clientId := [99] } [104] 0 false false 0) := by
      simp [run, retries, step, apiCall, clientStart, hsplit, boot, clientInit]
    rw [hstart]
    exact stranded_attempt rfl rfl rfl rfl rfl
  | succ n ih =>
    rw [retries, run, List.foldl_append]
    exact ih.tick

theorem retries_saturate (h : failuresMax ≤ n) :
    (run (callback 0) (boot true {}) (retries n)).client.failures ≠
      failedAttempts (run (callback 0) (boot true {}) (retries n)).trace := by
  have hcounter : (run (callback 0) (boot true {}) (retries n)).client.failures = _ :=
    (run_pacing 0 true {} (retries n)).counter
  rw [hcounter, stranded_retries.failed]
  omega

/-- After 2 ^ 32 failures in a row the counter, which stops at its largest value, is one short. -/
theorem counter_saturates :
    ∃ ops, (run (callback 0) (boot true {}) ops).client.failures ≠
      failedAttempts (run (callback 0) (boot true {}) ops).trace :=
  ⟨retries failuresMax, retries_saturate (le_rfl)⟩

end Inkwell.Mqtt
