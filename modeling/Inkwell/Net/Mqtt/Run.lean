import Inkwell.Net.Mqtt.Reader

namespace Inkwell.Mqtt
open Net

structure Survives (cb : Sys → Sys) (p : Core → Prop) : Prop where
  steps : ∀ {c c'}, Quiet c → p c → Steps .loop c c' → p c'
  read : ∀ {s : Sys} (bytes : Bytes), Quiet s.core → p s.core → s.core.socket →
    Listening s.core → p (mqttConsume cb (s.receive bytes)).2.core

theorem moves_survive (hcb : Reenters cb) : Survives cb (Moves c) where
  steps _ hmoves hsteps := hmoves.trans hsteps.moves
  read {s} bytes hq hmoves hs _ := by
    have hreceived : Act .reader s.core (s.receive bytes).core := .received rfl hs bytes
    have hconsumed := (consumeFrom_moves hcb
      ((s.receive bytes).client.input.length + 1) 0 (hreceived.quiet hq) hs).1
    exact hmoves.trans ((Moves.one (.act hreceived)).trans hconsumed)

theorem Quiet.connected_of_deadline (hq : Quiet c) (hoff : c.state ≠ .off)
    (hwait : c.state ≠ .waiting) (hd : c.deadlineMs ≠ 0) : c.socket := by
  apply hq.socket.mpr
  cases hst : c.state with
  | off => exact absurd hst hoff
  | waiting => exact absurd hst hwait
  | resolving => exact absurd (hq.unhurried hst) hd
  | connecting | securing | greeting | ready => rfl

/-- What a tick reads that an earlier event left unread. -/
def tickRead (cb : Sys → Sys) (s : Sys) : Sys :=
  if s.client.moreToRead && (s.client.state == .greeting || s.client.state == .ready) then
    mqttReadReady cb s
  else s

theorem tickConnection_eq : tickConnection cb s nowMs =
    if s.client.deadlineMs ≠ 0 ∧ nowMs ≥ s.client.deadlineMs then failNet cb s .timedOut .none
    else if (tickRead cb s).client.state ≠ .ready then tickRead cb s
    else if silent (tickRead cb s).client nowMs then failNet cb (tickRead cb s) .timedOut .none
    else keepAlive cb (tickRead cb s) nowMs := rfl

section
variable {s : Sys} (h : Survives cb p) (hcb : Reenters cb) (hq : Quiet s.core) (hp : p s.core)
include h hcb hq hp

theorem Survives.failNet (hs : s.core.socket) (hreason : reason ≠ .ok) :
    p (failNet cb s reason detail).core :=
  h.steps hq hp (failNet_steps hcb hq (live_of_socket hs) rfl hreason)

theorem Survives.readTurns (hs : s.core.socket) (hl : Listening s.core) :
    p (readTurns cb turns s).core := by
  induction turns generalizing s with
  | zero => exact hp
  | succ _ ih =>
    unfold Mqtt.readTurns
    split
    · exact hp
    have hread := rawRead_core s (packetMax - s.client.input.length)
    generalize rawRead s (packetMax - s.client.input.length) = w at *
    obtain ⟨_, s'⟩ := w
    rw [← hread] at hq hp hs hl
    split
    · rename_i heq
      cases heq
      split
      · exact hp
      · rw [mqttArm_core]
        exact hp
    · rename_i heq
      cases heq
      exact h.failNet hcb hq hp hs nofun
    · rename_i heq
      cases heq
      exact h.failNet hcb hq hp hs nofun
    · rename_i heq
      cases heq
      split
      · exact h.failNet hcb hq hp hs (Tls.Session.reason_ne_ok _)
      · exact h.failNet hcb hq hp hs reasonFromErrno_ne_ok
    · rename_i bytes _ heq
      cases heq
      have hq' : Quiet (s'.receive bytes).core := quiet_receive hq hs
      obtain ⟨hmoves, hgoes⟩ := consumeFrom_moves hcb
        ((s'.receive bytes).client.input.length + 1) 0 hq' hs
      have hconsumed := h.read bytes hq hp hs hl
      unfold mqttConsume at hconsumed ⊢
      generalize consumeFrom cb ((s'.receive bytes).client.input.length + 1) 0
        (s'.receive bytes) = v at *
      obtain ⟨b, _⟩ := v
      cases b with
      | true => exact ih (hmoves.quiet hq') hconsumed (hgoes rfl).1 ((hgoes rfl).2 hl)
      | false => exact hconsumed

theorem Survives.mqttReadReady (hs : s.core.socket) (hl : Listening s.core) :
    p (mqttReadReady cb s).core := by
  apply h.readTurns hcb
  · exact hq
  · exact hp
  · exact hs
  · exact hl

theorem Survives.mqttFdCallback : p (mqttFdCallback cb s events).core := by
  unfold Mqtt.mqttFdCallback
  split
  · exact hp
  rename_i hsome
  have hs := socket_held hsome
  split
  · rename_i hst
    have hr : s.client.state ≠ .ready := by rw [hst]; decide
    split
    · exact h.steps hq hp (mqttFinishConnect_steps hcb hq hs hr)
    · exact hp
  rename_i hconnecting
  split
  · exact h.failNet hcb hq hp hs nofun
  split
  · rename_i hst
    have hr : s.client.state ≠ .ready := by rw [hst]; decide
    exact h.steps hq hp (mqttSecure_steps hcb hq hs hr rfl)
  rename_i hsecuring
  have hl := hq.listening hs hconnecting hsecuring
  simp only
  split
  · have hsteps := (mqttFlush_steps (live_of_socket hs)).1
    obtain ⟨_, _, _, _, hcore, _⟩ := mqttFlush_core s
    generalize mqttFlush s = w at *
    obtain ⟨r, s'⟩ := w
    have hq' := hsteps.quiet hq
    have hp' := h.steps hq hp hsteps
    have hs' : s'.core.socket = true := by rw [hcore]; exact hs
    have hl' : Listening s'.core := by rw [hcore]; exact hl
    cases r with
    | some => exact h.failNet hcb hq' hp' hs' nofun
    | none =>
      simp only
      split
      · exact h.mqttReadReady hcb hq' hp' hs' hl'
      · exact hp'
  · split
    · exact h.mqttReadReady hcb hq hp hs hl
    · exact hp

theorem Survives.tickRead : p (tickRead cb s).core := by
  unfold Mqtt.tickRead
  split
  · rename_i hmore
    have hst : s.client.state = .greeting ∨ s.client.state = .ready := by
      simpa using (Bool.and_eq_true_iff.mp hmore).2
    have hl : Listening s.core := hst
    have hs : s.core.socket := by
      apply hq.socket.mpr
      rcases hl with hst | hst <;> rw [hst] <;> rfl
    exact h.mqttReadReady hcb hq hp hs hl
  · exact hp

theorem Survives.tickConnection (hoff : s.core.state ≠ .off) (hwait : s.core.state ≠ .waiting) :
    p (tickConnection cb s nowMs).core := by
  rw [tickConnection_eq]
  split
  · rename_i hdeadline
    exact h.failNet hcb hq hp (hq.connected_of_deadline hoff hwait hdeadline.1) nofun
  have hq' := ((moves_survive hcb).tickRead hcb hq (.refl)).quiet hq
  have hp' := h.tickRead hcb hq hp
  split
  · exact hp'
  · rename_i hready
    have hs := (hq'.ready_live (not_not.mp hready) .loop).1
    split
    · exact h.failNet hcb hq' hp' hs nofun
    · exact h.steps hq' hp' (keepAlive_steps hcb hq' hs)

theorem Survives.clientTick : p (clientTick cb s nowMs).core := by
  have hclock : Act .loop s.core ({ s with client := { s.client with nowMs } } : Sys).core :=
    .clock loop_ne_app nowMs
  have htick := (Steps.one hclock).trans (resolveTick_steps hcb (hclock.quiet hq) nowMs)
  have hp' := h.steps hq hp htick
  have hq' := htick.quiet hq
  unfold Mqtt.clientTick
  simp only
  split
  · exact hp'
  rename_i hoff
  split
  · rename_i hwait
    split
    · rename_i hdue
      exact h.steps hq' hp' (mqttAttempt_steps hcb hq' (.retry loop_ne_app hwait nowMs hdue))
    · exact hp'
  · rename_i hwait
    exact h.tickConnection hcb hq' hp' hoff hwait

theorem Survives.step (op : Op) : p (step cb s op).core := by
  cases op with
  | call c => exact h.steps hq hp ((apiCall_calls hcb hq c).steps)
  | shutdown => exact h.steps hq hp (.one (.shutdown loop_ne_app))
  | tick => exact h.clientTick hcb hq hp
  | socketEvent => exact h.mqttFdCallback hcb hq hp
  | lookupEvent => exact h.steps hq hp (resolveTryFinish_steps hcb hq)

end

theorem Survives.run (h : Survives cb p) (hcb : Reenters cb) (ops : List Op) (hq : Quiet s.core)
    (hp : p s.core) : p (run cb s ops).core := by
  induction ops generalizing s with
  | nil => exact hp
  | cons op _ ih =>
    have hmoves := (moves_survive hcb).step hcb hq (.refl) op
    exact ih (hmoves.quiet hq) (h.step hcb hq hp op)

theorem boot_quiet (hasLoop : Bool) (world : World) : Quiet (boot hasLoop world).core :=
  quiet_off rfl rfl rfl rfl ⟨Nat.zero_le _, nofun, List.nodup_nil⟩

theorem run_boot_moves (depth : Nat) (hasLoop : Bool) (world : World) (ops : List Op) :
    Moves (boot hasLoop world).core (run (callback depth) (boot hasLoop world) ops).core :=
  (moves_survive (callback_reenters depth)).run (callback_reenters depth) ops
    (boot_quiet hasLoop world) (.refl)

/-- At quiescent points a socket is held exactly in the states of a connection and a lookup
exactly while resolving; a waiting client has nothing open or buffered, its retry armed and the
first failure on record; a connection being set up has a deadline; and a client that is off was
never started, or stopped since. -/
theorem run_quiescent (depth : Nat) (hasLoop : Bool) (world : World) (ops : List Op) :
    let s := run (callback depth) (boot hasLoop world) ops
    (s.client.socket.isSome ↔ s.client.state ∈ [.connecting, .securing, .greeting, .ready]) ∧
    (s.client.lookup.isSome ↔ s.client.state = .resolving) ∧
    (s.client.state = .waiting →
      s.client.socket = none ∧ s.client.lookup = none ∧
      s.client.input = [] ∧ s.client.skipRemaining = 0 ∧ s.client.out = {} ∧
      0 < s.client.retryAtMs ∧
      (s.client.failure.reason ≠ .ok ∧ s.client.failure.refusal = .none ∨
        s.client.failure.reason = .ok ∧ s.client.failure.refusal ≠ .none) ∧
      (attemptFailures s.trace).head? = some s.client.failure) ∧
    (s.client.state ∈ [.connecting, .securing, .greeting] → s.client.deadlineMs ≠ 0) ∧
    (s.client.state = .off → running s.trace = false) := by
  intro s
  have hq : Quiet s.core := (run_boot_moves depth hasLoop world ops).quiet (boot_quiet _ _)
  have hmem : s.client.state.connected ↔
      s.client.state ∈ [.connecting, .securing, .greeting, .ready] := by
    cases s.client.state <;> decide
  refine ⟨hq.socket.trans hmem, hq.lookup, ?_, ?_, hq.off⟩
  · intro hwait
    have hsocket : ¬ s.client.socket.isSome := by
      intro h
      have hc := hmem.mp (hq.socket.mp h)
      rw [hwait] at hc
      simp at hc
    have hlookup : ¬ s.client.lookup.isSome := by
      intro h
      have hc : s.client.state = .resolving := hq.lookup.mp h
      rw [hwait] at hc
      cases hc
    obtain ⟨hinput, hskip, hout⟩ := hq.empty hwait
    obtain ⟨hhalf, hfirst⟩ := hq.failed hwait
    exact ⟨by simpa using hsocket, by simpa using hlookup, hinput, hskip, hout, hq.armed hwait,
      hhalf, hfirst⟩
  · intro h
    have hst : s.client.state = .connecting ∨ s.client.state = .securing ∨
        s.client.state = .greeting := by simpa using h
    exact hq.deadline hst

/-- Whatever was subscribed to and cleared, and by whom, the filters held fit their table, no two
are the same, and each can be encoded, so that none is passed over. -/
theorem run_filters_encode (depth : Nat) (hasLoop : Bool) (world : World) (ops : List Op) :
    let s := run (callback depth) (boot hasLoop world) ops
    s.client.filters.length ≤ filtersMax ∧ s.client.filters.Nodup ∧
    ∀ filter ∈ s.client.filters, ∀ id ≠ 0, ∃ packet,
      encodeSubscribe (filterMax + 16) id filter = .ok packet := by
  intro s
  obtain ⟨hcount, hsized, hnodup⟩ : FiltersHeld s.client.filters :=
    ((run_boot_moves depth hasLoop world ops).quiet (boot_quiet hasLoop world)).filters
  refine ⟨hcount, hnodup, fun filter hfilter id hid => ?_⟩
  obtain ⟨hne, hlen⟩ := hsized filter hfilter
  exact encodeSubscribe_held hne hlen hid

end Inkwell.Mqtt
