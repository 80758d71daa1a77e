import Inkwell.Net.Mqtt.Queue
import Inkwell.Net.Mqtt.Run

namespace Inkwell.Mqtt
open Net List Inkwell.Runtime

def roomSinceOpened : List Event → Bool
  | [] => true
  | .opened _ :: _ => true
  | .noRoom :: _ => false
  | _ :: t => roomSinceOpened t

def Flowing (c : Core) : Prop :=
  roomSinceOpened c.trace = true → c.state = .ready → c.filterSent < c.filters.length →
    c.subscribeId ≠ 0

theorem flowing_enter {c : Core} (h : st ≠ .ready) : Flowing (c.enter st) := by
  intro _ hr
  rw [enter_state] at hr
  exact absurd hr h

theorem Pump.flowing (h : Pump c c') : Flowing c' := by
  intro hroom hr hleft
  cases h with
  | idle h =>
    rcases h with h | h | h
    · exact absurd hr h
    · exact h
    · exact absurd hleft (not_lt_of_ge h)
  | subscribe => exact Nat.succ_ne_zero _
  | noRoom => cases hroom

theorem Send.room (h : Send o t o' t') : roomSinceOpened t' = roomSinceOpened t := by
  cases h <;> rfl

theorem Act.flowing (ha : Act .reader c c') (hf : Flowing c) : Flowing c' := by
  cases ha with
  | clock | called | moved | received | skipped | delivered | queued | ignored => exact hf
  | send _ h =>
    intro hroom
    rw [h.room] at hroom
    exact hf hroom
  | failed | connect | lookUp | missed | refused | secure | greet | stopped =>
    exact flowing_enter nofun
  | answered _ _ _ h => exact h.flowing
  | addFilter _ _ _ _ _ h => exact h.flowing
  | cleared =>
    intro _ _ hleft
    exact absurd hleft (lt_irrefl 0)
  | shutdown => exact nofun

theorem Move.flowing (hm : Move c c') (hf : Flowing c) : Flowing c' := by
  cases hm with
  | act h => exact h.flowing hf
  | accepted _ _ h _ hp => exact hp.flowing
  | replaced _ _ h hnew =>
    have hgen : c.accepted.generation = c.generation := (enter_fields _).2.2.1
    cases h.outcome with
    | kept hsame
    | dropped hsame => exact absurd (hsame.trans hgen) hnew
    | replaced _ hr =>
      intro _ hready
      exact absurd hready hr

theorem Moves.flowing (h : Moves c c') (hf : Flowing c) : Flowing c' := by
  induction h with
  | refl => exact hf
  | tail _ hm ih => exact hm.flowing ih

inductive Answers (cb : Sys → Sys) : Nat → Sys → Sys → Prop
  | enough (s : Sys) : Answers cb 0 s s
  | idle (n : Nat) (h : s.client.subscribeId = 0) : Answers cb n s s
  | answer {s s' : Sys} (hty : header.type = .suback)
      (h : decodeSuback body = some (s.client.subscribeId, code))
      (hflight : s.client.subscribeId ≠ 0)
      (hrest : Answers cb n (mqttHandle cb s header body).2 s') : Answers cb (n + 1) s s'

theorem failNet_not_ready (hcb : Reenters cb) (hq : Quiet s.core) (hs : s.core.socket)
    (hreason : reason ≠ .ok) : (failNet cb s reason detail).client.state ≠ .ready := by
  have hfailed : Act .loop s.core (s.core.failed { reason, detail }) :=
    .failed (live_of_socket hs) _ (net_oneHalf hreason) (.inl rfl)
  have hcalls : Calls (s.core.failed { reason, detail }) (failNet cb s reason detail).core :=
    fail_calls hcb (hfailed.quiet hq)
  have hwait : (s.core.failed { reason, detail }).state = .waiting := enter_state _
  intro hready
  have hready : (failNet cb s reason detail).core.state = .ready := hready
  cases hcalls.outcome with
  | kept _ hst =>
    rw [hready, hwait] at hst
    cases hst
  | dropped _ hr =>
    rw [hwait] at hr
    cases hr
  | replaced _ hr => exact hr hready

theorem pump_ready (hcb : Reenters cb) (hq : Quiet s.core)
    (hready : (mqttPumpSubscribes cb s).client.state = .ready) :
    s.client.state = .ready ∧ (mqttPumpSubscribes cb s).client.filters = s.client.filters ∧
      (mqttPumpSubscribes cb s).client.filterSent = s.client.filterSent := by
  have hpumping := mqttPumpSubscribes_pumping cb hq
  generalize mqttPumpSubscribes cb s = w at *
  have hsame : ∀ {c' : Core}, w.core = c' → c'.state = s.core.state → c'.filters = s.core.filters →
      c'.filterSent = s.core.filterSent → s.client.state = .ready ∧
        w.client.filters = s.client.filters ∧ w.client.filterSent = s.client.filterSent := by
    intro _ hc hst hfilters hsent
    rw [← hc] at hst hfilters hsent
    exact ⟨hst.symm.trans hready, hfilters, hsent⟩
  cases hpumping with
  | idle => exact ⟨hready, rfl, rfl⟩
  | noRoom _ _ _ o _ hcore => exact hsame hcore rfl rfl rfl
  | @sent c o t _ hpump _ _ hcore =>
    refine hsame hcore ?_ ?_ ?_
    · exact hpump.kept.1
    · cases hpump <;> rfl
    · cases hpump <;> rfl
  | @failed c o t s' hpump hsends hv hcore =>
    have hlive := (hpump.quiet hq).ready_live hv .loop
    have hsent := (hsends.steps hlive).quiet (hpump.quiet hq)
    have hquiet : Quiet s'.core := by
      rw [hcore]
      exact hsent.frame rfl rfl rfl rfl rfl rfl (.refl) (fun _ => ⟨rfl, rfl, rfl⟩) hsent.filters
    have hsocket : s'.core.socket := by
      rw [hcore]
      exact hlive.1
    exact absurd hready (failNet_not_ready hcb hquiet hsocket nofun)

theorem onSuback_flows (hcb : Reenters cb) (hq : Quiet s.core)
    (h : decodeSuback body = some (s.client.subscribeId, code)) :
    Quiet (onSuback cb s body).2.core ∧ Flowing (onSuback cb s body).2.core ∧
      ((onSuback cb s body).2.client.state = .ready → s.client.state = .ready ∧
        (onSuback cb s body).2.client.filters = s.client.filters ∧
        (onSuback cb s body).2.client.filterSent = s.client.filterSent + 1) := by
  obtain ⟨s', hresult, hcore⟩ := onSuback_answered h
  have hq' : Quiet s'.core := hcore ▸ quiet_answered hq
  obtain ⟨_, hpump, hsteps⟩ := mqttPumpSubscribes_steps hcb hq' .reader
  rw [hresult]
  refine ⟨hsteps.quiet (hpump.quiet hq'), hsteps.moves.flowing hpump.flowing, ?_⟩
  intro hready
  obtain ⟨hst, hfilters, hsent⟩ := pump_ready hcb hq' hready
  have hstate : s'.client.state = s.client.state := congrArg Core.state hcore
  have hheld : s'.client.filters = s.client.filters := congrArg Core.filters hcore
  have hplace : s'.client.filterSent = s.client.filterSent + 1 := congrArg Core.filterSent hcore
  exact ⟨hstate.symm.trans hst, hfilters.trans hheld, hsent.trans hplace⟩

theorem mqttHandle_suback (h : header.type = .suback) :
    mqttHandle cb s header body = onSuback cb s body := by
  rw [mqttHandle, h]

theorem Answers.flows (h : Answers cb n s s') (hcb : Reenters cb) (hq : Quiet s.core)
    (hf : Flowing s.core)
    (hn : s.client.state = .ready → s.client.filters.length ≤ s.client.filterSent + n)
    (hroom : roomSinceOpened s'.trace) (hready : s'.client.state = .ready) :
    s'.client.filters.length ≤ s'.client.filterSent := by
  induction h with
  | enough => exact hn hready
  | idle n hnone =>
    by_contra hleft
    exact hf hroom hready (lt_of_not_ge hleft) hnone
  | answer hty h _ _ ih =>
    rw [mqttHandle_suback hty] at ih
    obtain ⟨hq', hf', hnext⟩ := onSuback_flows hcb hq h
    refine ih hq' hf' ?_ hroom hready
    intro hst
    obtain ⟨hr, hfilters, hsent⟩ := hnext hst
    rw [hfilters, hsent]
    have hbound := hn hr
    omega

/-- If every SUBSCRIBE of the connection found room, a ready client with a filter left to send has
one in flight; and once the broker has answered as many as were left, none is left. -/
theorem run_filters_flow (depth : Nat) (hasLoop : Bool) (world : World) (ops : List Op)
    (hroom : roomSinceOpened (run (callback depth) (boot hasLoop world) ops).trace) :
    let s := run (callback depth) (boot hasLoop world) ops
    (s.client.state = .ready → s.client.filterSent < s.client.filters.length →
      s.client.subscribeId ≠ 0) ∧
    ∀ n s', Answers (callback depth) n s s' →
      s.client.filters.length ≤ s.client.filterSent + n →
      s'.client.state = .ready → roomSinceOpened s'.trace →
      s'.client.filters.length ≤ s'.client.filterSent := by
  have hmoves := run_boot_moves depth hasLoop world ops
  generalize run (callback depth) (boot hasLoop world) ops = s at hmoves hroom ⊢
  have hflowing : Flowing s.core := hmoves.flowing nofun
  refine ⟨hflowing hroom, ?_⟩
  intro n _ hanswers hn hready hroom'
  exact hanswers.flows (callback_reenters depth) (hmoves.quiet (boot_quiet hasLoop world)) hflowing
    (fun _ => hn) hroom' hready

/-- Two filters added before the connection, the first of them in flight. -/
theorem run_filters_flow_first :
    let s := run (callback 0)
      (boot true { reached with recvs := [.ok [0x20, 2, 0, 0]] })
      ([.call (.subscribe [97]), .call (.subscribe [98])] ++ opening false)
    s.client.filterSent = 0 ∧ s.client.filters.length = 2 ∧ s.client.subscribeId ≠ 0 :=
  ⟨by decide, by decide, (run_filters_flow 0 true _ _ (by decide)).1 (by decide) (by decide)⟩

/-- A filter added while the queue is full is not sent when it is empty again, nor at the next
ticks. -/
theorem full_queue_strands_filter :
    let s := run (callback 0)
      (boot true { reached with
        recvs := [.ok [0x20, 2, 0, 0]]
        sends := replicate 5 (.error ⟨.eagain, by decide⟩) ++ replicate 4 (.ok 5000) })
      (opening false ++ replicate 4 (.call (.publish [97] (replicate 1009 0) false)) ++
        [.call (.subscribe (replicate 30 98)), .socketEvent OUT, .tick 1000, .tick 31000])
    s.client.state = .ready ∧ s.client.out = {} ∧ s.client.filterSent < s.client.filters.length ∧
      s.client.subscribeId = 0 := by
  decide +kernel

structure Spared (s s' : Sys) : Prop where
  state : s'.client.state = s.client.state
  socket : s'.client.socket = s.client.socket
  unsent : s'.client.out.unsent = s.client.out.unsent
  pending : s'.client.out.pending = s.client.out.pending
  world : s'.world = s.world

theorem mqttQueue_room
    (hroom : (compactOut s.client.out).bytes.length + packet.length ≤ outboundMax) :
    (mqttQueue s packet).1 ≠ some .enospc := by
  unfold mqttQueue
  by_cases hbig : s.client.out.bytes.length + packet.length > outboundMax
  · simp only [if_pos hbig]
    have hfits : ¬ (s.setOut (compactOut s.client.out)).client.out.bytes.length + packet.length >
        outboundMax := not_lt_of_ge hroom
    rw [if_neg hfits]
    exact (mqttFlush_core _).1
  · simp only [if_neg hbig]
    exact (mqttFlush_core _).1

theorem mqttQueue_noRoom (packet : Bytes)
    (hfull : (compactOut s.client.out).bytes.length + packet.length > outboundMax) :
    mqttQueue s packet = (some .enospc, s.setOut (compactOut s.client.out)) := by
  have hbig : s.client.out.bytes.length + packet.length > outboundMax :=
    lt_of_lt_of_le hfull (Nat.add_le_add_right compactOut_spec.2.2 _)
  unfold mqttQueue
  simp only [if_pos hbig]
  exact if_pos hfull

theorem mqttQueue_full (h : (mqttQueue s packet).1 = some .enospc) :
    mqttQueue s packet = (some .enospc, s.setOut (compactOut s.client.out)) := by
  apply mqttQueue_noRoom
  by_contra hroom
  exact mqttQueue_room (le_of_not_gt hroom) h

theorem spared_compacted (hstate : s'.client.state = s.client.state)
    (hsocket : s'.client.socket = s.client.socket) (hout : s'.client.out = compactOut s.client.out)
    (hworld : s'.world = s.world) : Spared s s' := by
  obtain ⟨hunsent, hpending, _⟩ := compactOut_spec
  exact ⟨hstate, hsocket, hout ▸ hunsent, hout ▸ hpending, hworld⟩

theorem clientPublish_full (h : (clientPublish cb s topic payload retained).1 = some .enospc) :
    Spared s (clientPublish cb s topic payload retained).2 := by
  unfold clientPublish at h ⊢
  by_cases hst : s.client.state ≠ .ready
  · rw [if_pos hst] at h
    cases h
  rw [if_neg hst] at h ⊢
  by_cases htopic : (!topicIsPublishable topic)
  · rw [if_pos htopic] at h
    cases h
  rw [if_neg htopic] at h ⊢
  cases hencode : encodePublish packetMax topic payload retained with
  | error =>
    -- a packet that does not fit its own buffer is reported under another name
    simp only [hencode, Option.some.injEq] at h
    split at h
    · cases h
    · rename_i hne
      exact absurd h hne
  | ok packet =>
    simp only [hencode] at h ⊢
    by_cases hfull : (mqttQueue s packet).1 = some .enospc
    · simp only [mqttQueue_full hfull]
      exact spared_compacted rfl rfl rfl rfl
    · exfalso
      generalize mqttQueue s packet = w at *
      obtain ⟨r, _⟩ := w
      cases r with
      | none => cases h
      | some e => cases e <;> first | exact hfull rfl | cases h

theorem pump_full (hr : s.client.state = .ready) (hi : s.client.subscribeId = 0)
    (hf : s.client.filterSent < s.client.filters.length)
    (hpacket : encodeSubscribe (filterMax + 16) ((s.client.filterSent + 1) % 65536)
      (s.client.filters.getD s.client.filterSent []) = .ok packet)
    (h : (mqttQueue (s.log (.filterRead s.client.filterSent s.client.filters.length)) packet).1 =
      some .enospc) : Spared s (mqttPumpSubscribes cb s) := by
  have hidle : ¬ (s.client.state ≠ .ready ∨ s.client.subscribeId ≠ 0) := by simp [hr, hi]
  have hqueue := mqttQueue_full h
  unfold mqttPumpSubscribes pumpSubscribes
  simp only [if_neg hidle, if_neg (not_le_of_gt hf), hpacket, hqueue]
  exact spared_compacted rfl rfl rfl rfl

/-- The client that a tick comes to its keepalive with, if it does and a ping is due. -/
def pinging (cb : Sys → Sys) (s : Sys) (nowMs : Nat) : Option Sys :=
  let s := resolveTick cb { s with client := { s.client with nowMs } } nowMs
  if s.client.state = .off ∨ s.client.state = .waiting ∨
      s.client.deadlineMs ≠ 0 ∧ nowMs ≥ s.client.deadlineMs then none
  else
    let s := tickRead cb s
    if s.client.state = .ready ∧ ¬silent s.client nowMs ∧ s.client.nextPingMs ≠ 0 ∧
        nowMs ≥ s.client.nextPingMs then some s
    else none

theorem pinging_spec {s : Sys} (hcb : Reenters cb) (hq : Quiet s.core)
    (h : pinging cb s nowMs = some p) : Quiet p.core ∧ p.client.state = .ready ∧
      clientTick cb s nowMs =
        match mqttQueue p [0xC0, 0x00] with
        | (some _, s) => failNet cb s .closed .none
        | (none, s) =>
            { s with client := { s.client with nextPingMs := nowMs + pingIntervalMs } } := by
  have hclock : Act .loop s.core ({ s with client := { s.client with nowMs } } : Sys).core :=
    .clock loop_ne_app nowMs
  have hresolved := (resolveTick_steps hcb (hclock.quiet hq) nowMs).quiet (hclock.quiet hq)
  have hread := ((moves_survive hcb).tickRead hcb hresolved (.refl)).quiet hresolved
  unfold pinging at h
  simp only at h
  split at h
  · cases h
  rename_i hgoes
  obtain ⟨hoff, hwait, hdeadline⟩ := (not_or.mp hgoes).imp_right not_or.mp
  split at h
  · rename_i hdue
    obtain ⟨hready, hheard, hping⟩ := hdue
    cases h
    refine ⟨hread, hready, ?_⟩
    simp only [clientTick, if_neg hoff, if_neg hwait, tickConnection_eq, if_neg hdeadline,
      if_neg (not_not.mpr hready), if_neg hheard, keepAlive, if_pos hping]
    rfl
  · cases h

def PingSpared (cb : Sys → Sys) (s : Sys) (nowMs : Nat) : Prop :=
  ∀ p, pinging cb s nowMs = some p → (mqttQueue p [0xC0, 0x00]).1 = some .enospc →
    Spared p (step cb s (.tick nowMs))

/-- There is room for a PINGREQ when one is due. -/
def PingFits (cb : Sys → Sys) (s : Sys) (nowMs : Nat) : Prop :=
  ∀ p, pinging cb s nowMs = some p → (compactOut p.client.out).bytes.length + 2 ≤ outboundMax

theorem pingSpared_iff {s : Sys} (hcb : Reenters cb) (hq : Quiet s.core) :
    PingSpared cb s nowMs ↔ PingFits cb s nowMs := by
  refine forall₂_congr fun p hp => ⟨fun hspared => ?_, fun hroom hfull => ?_⟩
  · obtain ⟨hquiet, hready, htick⟩ := pinging_spec hcb hq hp
    by_contra hfull
    have hqueue := mqttQueue_noRoom [0xC0, 0x00] (lt_of_not_ge hfull)
    have hlive := hquiet.ready_live hready .loop
    have hcompact : Act .loop p.core (p.setOut (compactOut p.client.out)).core :=
      .send hlive .compacted
    have hends : (failNet cb (p.setOut (compactOut p.client.out)) .closed .none).client.state ≠
        .ready := failNet_not_ready hcb (hcompact.quiet hquiet) hlive.1 nofun
    rw [hqueue] at htick hspared
    have hstate := (hspared rfl).state
    rw [step, htick] at hstate
    exact hends (hstate.trans hready)
  · exact absurd hfull (mqttQueue_room hroom)

/-- A message or a SUBSCRIBE without room leaves the state, the socket and the queue as they were,
in any state; and in a run each PINGREQ does exactly if each finds room when it is due. -/
theorem full_queue_spares (depth : Nat) (hasLoop : Bool) (world : World) (ops : List Op) :
    (∀ cb s topic payload retained, (clientPublish cb s topic payload retained).1 = some .enospc →
      Spared s (clientPublish cb s topic payload retained).2) ∧
    (∀ cb s packet, s.client.state = .ready → s.client.subscribeId = 0 →
      s.client.filterSent < s.client.filters.length →
      encodeSubscribe (filterMax + 16) ((s.client.filterSent + 1) % 65536)
        (s.client.filters.getD s.client.filterSent []) = .ok packet →
      (mqttQueue (s.log (.filterRead s.client.filterSent s.client.filters.length)) packet).1 =
        some .enospc →
      Spared s (mqttPumpSubscribes cb s)) ∧
    ((∀ past nowMs, past ++ [.tick nowMs] <+: ops →
        PingSpared (callback depth) (run (callback depth) (boot hasLoop world) past) nowMs) ↔
      ∀ past nowMs, past ++ [.tick nowMs] <+: ops →
        PingFits (callback depth) (run (callback depth) (boot hasLoop world) past) nowMs) := by
  refine ⟨?_, ?_, ?_⟩
  · intro _ s _ _ _ h
    exact clientPublish_full h
  · intro _ s _ hr hi hf hpacket h
    exact pump_full hr hi hf hpacket h
  · refine forall₃_congr fun past nowMs _ => pingSpared_iff (callback_reenters depth) ?_
    exact (run_boot_moves depth hasLoop world past).quiet (boot_quiet hasLoop world)

/-- Four messages, after which the socket takes nothing, fill the queue. -/
def fullQueue : Sys :=
  run (callback 0)
    (boot true { reached with recvs := [.ok [0x20, 2, 0, 0]], sends := [.ok 5000] })
    (opening false ++ replicate 4 (.call (.publish [97] (replicate 1018 0) false)))

theorem full_queue_spares_fifth :
    (clientPublish (callback 0) fullQueue [97] [98] false).1 = some .enospc ∧
      Spared fullQueue (clientPublish (callback 0) fullQueue [97] [98] false).2 := by
  have hfull : (clientPublish (callback 0) fullQueue [97] [98] false).1 = some .enospc := by
    decide +kernel
  exact ⟨hfull, (full_queue_spares 0 true {} []).1 _ _ _ _ _ hfull⟩

/-- The tick takes the full queue for a dead connection: no write was refused, and yet the socket
and the queue are given up. -/
theorem full_queue_ends_connection :
    let s' := step (callback 0) fullQueue (.tick 30000)
    (pinging (callback 0) fullQueue 30000).map (fun p => (p.client.state, p.client.socket,
        p.client.out.unsent.length, (mqttQueue p [0xC0, 0x00]).1)) =
      some (.ready, some 3, outboundMax, some .enospc) ∧
    s'.client.state = .waiting ∧ s'.client.socket = none ∧ s'.client.out.unsent = [] ∧
    ∀ e ∈ s'.trace, e.writeFailed = false := by
  decide +kernel

end Inkwell.Mqtt
