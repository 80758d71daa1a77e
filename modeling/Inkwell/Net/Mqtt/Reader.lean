import Inkwell.Net.Mqtt.Connection

namespace Inkwell.Mqtt
open Net

theorem refusalOf_ne_none : refusalOf code ≠ .none := by
  unfold refusalOf
  split
  · exact nofun
  · split
    · exact nofun
    · split <;> exact nofun

theorem pump_moves (hcb : Reenters cb) (hq : Quiet s.core) (hs : s.core = c)
    (h : ∀ c', Pump c c' → Move b c') : Moves b (mqttPumpSubscribes cb s).core := by
  obtain ⟨c', hpump, hsteps⟩ := mqttPumpSubscribes_steps hcb hq .reader
  rw [hs] at hpump
  exact (Moves.one (h c' hpump)).trans hsteps.moves

def messageOf (header : Header) (body : Bytes) : Option (Bytes × Bytes) :=
  if header.type = .publish then
    (decodePublish header.flags body).bind fun message =>
      if message.topic.length < topicMax then some (message.topic, message.payload) else none
  else none

inductive Handles (cb : Sys → Sys) (s : Sys) (header : Header) :
    Option (Bytes × Bytes) → Bool × Sys → Prop
  | refused (h : refusal ≠ .none) (code : UInt8) :
    Handles cb s header none (false, failOwn cb s refusal code)
  | replaced (hty : header.type = .connack) (hg : s.client.state = .greeting)
    (hcalls : Calls s.core.accepted s'.core) (hnew : s'.core.generation ≠ s.core.generation) :
    Handles cb s header none (false, s')
  | accepted (hty : header.type = .connack) (hg : s.client.state = .greeting)
    (hcalls : Calls s.core.accepted s'.core) (hsame : s'.core.generation = s.core.generation) :
    Handles cb s header none (true, mqttPumpSubscribes cb (resubscribe s'))
  | strayed (hty : header.type = .suback) (hn : n ≠ s.client.subscribeId) (code : UInt8) :
    Handles cb s header none (true, s.log (.suback n s.client.subscribeId code))
  | answered (hty : header.type = .suback) (code : UInt8)
    (hcore : s'.core = s.core.answered s.client.subscribeId code) :
    Handles cb s header none (true, mqttPumpSubscribes cb s')
  | ignored (hty : header.type ≠ .connack) (h : s.client.onMessage → message = none) :
    Handles cb s header message (true, s)
  | skipped (hty : header.type = .publish) : Handles cb s header none (true, s.countSkipped)
  | delivered (hty : header.type = .publish) (h : s.client.onMessage)
    (topic payload : Bytes) :
    Handles cb s header (some (topic, payload))
      (true, cb ((s.deliver (cString topic) payload).log
        (.called (s.deliver (cString topic) payload).client)))

theorem handles_protocol : Handles cb s header none (false, failOwn cb s .protocol 0) :=
  have hrefusal : Refusal.protocol ≠ .none := nofun
  .refused hrefusal 0

theorem onSuback_answered (h : decodeSuback body = some (s.client.subscribeId, code)) :
    ∃ s', onSuback cb s body = (true, mqttPumpSubscribes cb s') ∧
      s'.core = s.core.answered s.client.subscribeId code := by
  unfold onSuback
  simp only [h, ne_eq, not_true_eq_false, if_false]
  refine ⟨_, rfl, ?_⟩
  unfold Core.answered
  split <;> rfl

theorem onSuback_handles (hty : header.type = .suback) :
    Handles cb s header none (onSuback cb s body) := by
  cases hdecode : decodeSuback body with
  | none =>
    rw [onSuback, hdecode]
    exact handles_protocol
  | some pair =>
    obtain ⟨n, code⟩ := pair
    by_cases hn : n = s.client.subscribeId
    · subst hn
      obtain ⟨_, hresult, hcore⟩ := onSuback_answered hdecode
      rw [hresult]
      exact .answered hty code hcore
    · simp only [onSuback, hdecode, ne_eq, hn, not_false_eq_true, if_true]
      exact .strayed hty hn code

theorem onPublish_handles (hty : header.type = .publish) :
    Handles cb s header (messageOf header body) (onPublish cb s header.flags body) := by
  unfold onPublish messageOf
  rw [if_pos hty]
  cases hdecode : decodePublish header.flags body with
  | none => exact handles_protocol
  | some message =>
    simp only [Option.bind_some]
    cases hon : s.client.onMessage with
    | false => exact .ignored (by rw [hty]; nofun) fun h => absurd (hon.symm.trans h) nofun
    | true =>
      by_cases hlong : message.topic.length ≥ topicMax
      · simp only [Bool.not_true, Bool.false_eq_true, if_false, if_pos hlong,
          if_neg (not_lt_of_ge hlong)]
        exact .skipped hty
      · simp only [Bool.not_true, Bool.false_eq_true, if_false, if_neg hlong,
          if_pos (lt_of_not_ge hlong)]
        exact .delivered hty hon _ _

theorem socket_held {s : Sys} (h : ¬ s.client.socket.isNone) : s.core.socket :=
  Option.isSome_iff_ne_none.mpr fun hnone => h (Option.isNone_iff_eq_none.mpr hnone)

theorem socket_gone {s : Sys} (h : s.client.socket.isNone) : s.core.socket = false := by
  rw [Sys.core, Client.core, Option.isNone_iff_eq_none.mp h]
  rfl

theorem rawRead_core (s : Sys) (cap : Nat) : (rawRead s cap).2.core = s.core := by
  unfold rawRead
  split
  · rfl
  · split <;> rfl

def Listening (c : Core) : Prop := c.state = .greeting ∨ c.state = .ready

theorem Quiet.listening (hq : Quiet c) (hs : c.socket) (hc : c.state ≠ .connecting)
    (hsec : c.state ≠ .securing) : Listening c := by
  have hconnected := hq.socket.mp hs
  unfold Listening
  cases hst : c.state with
  | connecting => exact absurd hst hc
  | securing => exact absurd hst hsec
  | greeting => exact .inl rfl
  | ready => exact .inr rfl
  | off | resolving | waiting =>
    rw [hst] at hconnected
    cases hconnected

theorem Outcome.same_state (h : Outcome c c') (hq : Quiet c') (hg : c'.generation = c.generation)
    (hs : c'.socket) : c'.state = c.state := by
  cases h with
  | kept _ hst => exact hst
  | dropped _ _ hw =>
    have hconnected := hq.socket.mp hs
    rw [hw] at hconnected
    cases hconnected
  | replaced hnew => exact absurd hg (ne_of_gt hnew)

theorem pump_outcome (hcb : Reenters cb) (hq : Quiet s.core) :
    Outcome s.core (mqttPumpSubscribes cb s).core := by
  obtain ⟨_, hpump, hsteps⟩ := mqttPumpSubscribes_steps hcb hq .app
  obtain ⟨hst, hk, hg⟩ := hpump.kept
  exact (Outcome.kept hg hst hk).trans (Calls.outcome hsteps)

section
variable {s : Sys} (hq : Quiet s.core) (hs : s.core.socket)
include hq hs

theorem quiet_skip : Quiet ({ s with client := { s.client with skipRemaining := n } } : Sys).core :=
  (Act.moved rfl hs _ _).quiet hq

theorem quiet_countSkipped : Quiet s.countSkipped.core := (Act.skipped rfl hs).quiet hq

theorem quiet_deliver : Quiet (s.deliver topic payload).core := (Act.delivered rfl hs _ _).quiet hq

theorem quiet_receive : Quiet (s.receive bytes).core := (Act.received rfl hs _).quiet hq

end

section
variable {s : Sys} (hcb : Reenters cb) (hq : Quiet s.core) (hs : s.core.socket)
include hcb hq hs

theorem failOwn_moves (h : refusal ≠ .none) : Moves s.core (failOwn cb s refusal code).core := by
  have hsteps : Steps .reader s.core (failOwn cb s refusal code).core :=
    failOwn_steps hcb hq ⟨hs, .inl nofun⟩ rfl h (.inr rfl)
  exact hsteps.moves

theorem protocol_moves : Moves s.core (failOwn cb s .protocol 0).core :=
  failOwn_moves hcb hq hs nofun

theorem onConnack_handles (hty : header.type = .connack) :
    Handles cb s header none (onConnack cb s body) := by
  unfold onConnack
  split
  · exact handles_protocol
  rename_i hgreeting
  have hg : s.client.state = .greeting := by simpa using hgreeting
  split
  · exact handles_protocol
  split
  · exact .refused refusalOf_ne_none _
  have hready : (accepted s).core.enter .ready = s.core.accepted := rfl
  have hcalls : Calls s.core.accepted (setState cb (accepted s) .ready).2.core :=
    hready ▸ setState_steps hcb (accepted s) .ready (hready ▸ quiet_accepted hq hs)
  have hfst := setState_fst cb (accepted s) .ready
  generalize setState cb (accepted s) .ready = w at *
  obtain ⟨r, s'⟩ := w
  cases r with
  | false =>
    have hnew : s'.client.generation ≠ s.client.generation := fun h => by simp [accepted, h] at hfst
    exact .replaced hty hg hcalls hnew
  | true => exact .accepted hty hg hcalls (beq_iff_eq.mp hfst.symm)

theorem mqttHandle_handles (h : mqttHandle cb s header body = w) :
    Handles cb s header (messageOf header body) w := by
  have hnone (hne : header.type ≠ .publish) : messageOf header body = none := if_neg hne
  rw [← h]
  unfold mqttHandle
  cases hty : header.type with
  | publish => exact onPublish_handles hty
  | connack =>
    rw [hnone (by rw [hty]; nofun)]
    exact onConnack_handles hcb hq hs hty
  | suback =>
    rw [hnone (by rw [hty]; nofun)]
    exact onSuback_handles hty
  | pingresp | puback | pubrec | pubrel | pubcomp | unsuback =>
    exact .ignored (by rw [hty]; nofun) fun _ => hnone (by rw [hty]; nofun)
  | connect | subscribe | unsubscribe | pingreq | disconnect =>
    rw [hnone (by rw [hty]; nofun)]
    exact handles_protocol

theorem Handles.moves (h : Handles cb s header message w) : Moves s.core w.2.core := by
  cases h with
  | refused h => exact failOwn_moves hcb hq hs h
  | replaced _ hg hcalls hnew => exact .one (.replaced hs hg hcalls hnew)
  | accepted _ hg hcalls hsame =>
    -- the callback is in the middle of the move
    exact pump_moves hcb (quiet_resubscribed (hcalls.quiet (quiet_accepted hq hs))) rfl
      (fun c' hpump => .accepted hs hg hcalls hsame hpump)
  | strayed _ hn code => exact .one (.act (.ignored rfl hs _ code hn))
  | answered _ code hcore =>
    exact pump_moves hcb (hcore ▸ quiet_answered hq) hcore
      (fun c' hpump => .act (.answered rfl hs code hpump))
  | ignored => exact .refl
  | skipped => exact .one (.act (.skipped rfl hs))
  | delivered _ h topic payload =>
    have hdelivered : Act .reader s.core (s.deliver (cString topic) payload).core :=
      .delivered rfl hs _ _
    exact ((Steps.one hdelivered).trans (hcb.called _ (hdelivered.quiet hq) .reader)).moves

theorem handled_moves (h : mqttHandle cb s header body = (r, s')) : Moves s.core s'.core :=
  (mqttHandle_handles hcb hq hs h).moves hcb hq hs

theorem Handles.outcome (h : Handles cb s header message (true, s')) :
    Outcome (if header.type = .connack then s.core.accepted else s.core) s'.core := by
  have hother {ty : PacketType} (hty : header.type = ty) (hne : ty ≠ .connack) :
      (if header.type = .connack then s.core.accepted else s.core) = s.core := if_neg (hty ▸ hne)
  cases h with
  | @accepted s₁ hty _ hcalls =>
    rw [if_pos hty]
    have hquiet : Quiet (resubscribe s₁).core :=
      quiet_resubscribed (hcalls.quiet (quiet_accepted hq hs))
    have hagain : Outcome s₁.core (resubscribe s₁).core := .kept rfl rfl rfl
    exact (hcalls.outcome.trans hagain).trans (pump_outcome hcb hquiet)
  | strayed hty
  | skipped hty =>
    rw [hother hty nofun]
    exact .kept rfl rfl rfl
  | @answered s₁ hty _ hcore =>
    rw [hother hty nofun]
    have hanswered : Outcome s.core s₁.core := hcore ▸ .kept rfl rfl rfl
    exact hanswered.trans (pump_outcome hcb (hcore ▸ quiet_answered hq))
  | ignored hty =>
    rw [if_neg hty]
    exact .kept rfl rfl rfl
  | delivered hty h topic payload =>
    rw [hother hty nofun]
    have hkept : Outcome s.core (s.deliver (cString topic) payload).core := .kept rfl rfl rfl
    exact hkept.trans (Calls.outcome (hcb.called _ (quiet_deliver hq hs) .app))

theorem mqttHandle_state (h : mqttHandle cb s header body = (true, s'))
    (hg : s'.core.generation = s.core.generation) (hs' : s'.core.socket) :
    s'.core.state = if header.type = .connack then .ready else s.core.state := by
  have hhandles := mqttHandle_handles hcb hq hs h
  have hq' := (hhandles.moves hcb hq hs).quiet hq
  have houtcome := hhandles.outcome hcb hq hs
  split at houtcome
  · rename_i hty
    rw [if_pos hty]
    have hgen : s.core.accepted.generation = s.core.generation := (enter_fields _).2.2.1
    exact (houtcome.same_state hq' (hg.trans hgen.symm) hs').trans (enter_state _)
  · rename_i hty
    rw [if_neg hty]
    exact houtcome.same_state hq' hg hs'

theorem mqttHandle_listening (hl : Listening s.core) (h : mqttHandle cb s header body = (true, s'))
    (hg : s'.core.generation = s.core.generation) (hs' : s'.core.socket) : Listening s'.core := by
  have hstate := mqttHandle_state hcb hq hs h hg hs'
  split at hstate
  · exact .inr hstate
  · unfold Listening
    rw [hstate]
    exact hl

end

theorem consumeFrom_moves (hcb : Reenters cb) (fuel at_ : Nat) (hq : Quiet s.core)
    (hs : s.core.socket) :
    Moves s.core (consumeFrom cb fuel at_ s).2.core ∧
      ((consumeFrom cb fuel at_ s).1 → (consumeFrom cb fuel at_ s).2.core.socket ∧
        (Listening s.core → Listening (consumeFrom cb fuel at_ s).2.core)) := by
  fun_induction consumeFrom cb fuel at_ s with
  | case1 | case2 | case4 | case7 => exact ⟨.one (.act (.moved rfl hs _ _)), fun _ => ⟨hs, id⟩⟩
  | case3 _ _ s c _ _ s' _ ih =>
    have hmoved : Act .reader s.core s'.core := .moved rfl hs _ _
    obtain ⟨hrest, hgoes⟩ := ih (hmoved.quiet hq) hs
    exact ⟨(Moves.one (.act hmoved)).trans hrest, hgoes⟩
  | case5 => exact ⟨protocol_moves hcb hq hs, nofun⟩
  | case6 _ _ s c _ _ _ _ s' ih =>
    have hmoved : Act .reader s.core s'.core := .moved rfl hs _ _
    have hskipped : Act .reader s'.core s'.countSkipped.core := .skipped rfl hs
    obtain ⟨hrest, hgoes⟩ := ih (hskipped.quiet (hmoved.quiet hq)) hs
    exact ⟨((Moves.one (.act hmoved)).trans (.one (.act hskipped))).trans hrest, hgoes⟩
  | case8 _ _ s c _ _ _ _ _ _ _ hhandle
  | case9 _ _ s c _ _ _ _ _ _ _ hhandle
  | case10 _ _ s c _ _ _ _ _ _ _ hhandle => exact ⟨handled_moves hcb hq hs hhandle, nofun⟩
  | case11 _ _ s c _ _ _ _ _ _ _ hhandle hsame hsome ih =>
    have hmoves := handled_moves hcb hq hs hhandle
    have hsocket := socket_held hsome
    obtain ⟨hrest, hgoes⟩ := ih (hmoves.quiet hq) hsocket
    refine ⟨hmoves.trans hrest, fun htrue => ⟨(hgoes htrue).1, fun hl => (hgoes htrue).2 ?_⟩⟩
    exact mqttHandle_listening hcb hq hs hl hhandle (not_not.mp hsame) hsocket

end Inkwell.Mqtt
