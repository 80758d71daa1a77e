import Inkwell.Net.Mqtt.Refine

namespace Inkwell.Mqtt
open Net

def pingPacket : Bytes := [0xC0, 0x00]

def opens : List Event → Nat
  | [] => 0
  | .opened _ :: t => opens t + 1
  | _ :: t => opens t

def pings : List Event → Nat
  | [] => 0
  | .queued packet :: t => if packet = pingPacket then pings t + 1 else pings t
  | _ :: t => pings t

def acceptances : List Event → Nat
  | [] => 0
  | .offered _ _ (.accepted _) :: t => acceptances t + 1
  | _ :: t => acceptances t

structure Pulse where
  now : Nat
  next : Nat
  opens : Nat
  pings : Nat
  accepted : Nat
  socket : Bool
  ready : Bool

def Sys.pulse (s : Sys) : Pulse where
  now := s.client.nowMs
  next := s.client.nextPingMs
  opens := opens s.trace
  pings := pings s.trace
  accepted := acceptances s.trace
  socket := s.client.socket.isSome
  ready := s.client.state == .ready

/-- The connection is gone, if there was one, and perhaps another was opened. -/
structure Ended (p p' : Pulse) : Prop where
  opens : p.opens ≤ p'.opens
  gone : p'.socket = false ∨ p.opens < p'.opens

/-- All but a tick leaves the keepalive alone, puts the next PINGREQ off by a write, or ends the
connection. -/
inductive Beats (p : Pulse) : Pulse → Prop
  | still (r : Bool) (hr : p.ready → r) : Beats p { p with ready := r }
  | sent (r : Bool) (hr : p.ready → r) (n : Nat) (hn : p.accepted < n) :
    Beats p { p with next := p.now + pingIntervalMs, accepted := n, ready := r }
  | ended (h : Ended p p') : Beats p p'

theorem Beats.refl (p : Pulse) : Beats p p := .still p.ready id

theorem Beats.of_eq (h : Beats q r) (hp : p = q) : Beats p r := hp ▸ h

theorem Ended.beats (h : Ended p q) (hb : Beats q r) : Ended p r := by
  cases hb with
  | still | sent => exact ⟨h.opens, h.gone⟩
  | ended h' =>
    refine ⟨h.opens.trans h'.opens, h'.gone.imp_right ?_⟩
    intro hlt
    exact h.opens.trans_lt hlt

theorem Beats.trans (h₁ : Beats p q) (h₂ : Beats q r) : Beats p r := by
  cases h₁ with
  | still a ha =>
    cases h₂ with
    | still b hb => exact .still b (fun h => hb (ha h))
    | sent b hb n hn => exact .sent b (fun h => hb (ha h)) n hn
    | ended h => exact .ended ⟨h.opens, h.gone⟩
  | sent a ha n hn =>
    cases h₂ with
    | still b hb => exact .sent b (fun h => hb (ha h)) n hn
    | sent b hb m hm => exact .sent b (fun h => hb (ha h)) m (hn.trans hm)
    | ended h => exact .ended ⟨h.opens, h.gone⟩
  | ended h => exact .ended (h.beats h₂)

theorem Beats.unready (h : Beats p q) :
    Beats { p with ready := false } { q with ready := false } := by
  cases h with
  | still => exact .refl _
  | sent r _ n hn => exact .sent false id n hn
  | ended h => exact .ended ⟨h.opens, h.gone⟩

theorem beats_ready : Beats { p with ready := false } p := .still p.ready nofun

structure Flushed (p : Pulse) (w : Option Errno × Sys) : Prop where
  opens : w.2.pulse.opens = p.opens
  room : w.1 ≠ some .enospc
  beats : w.1 = none → Beats p w.2.pulse

theorem Flushed.of_eq (h : Flushed q w) (hp : p = q) : Flushed p w := hp ▸ h

theorem flushLoop_tally (fuel : Nat) (b : Bool) (x : Sender) :
    let w := flushLoop fuel b x
    opens w.2.2.trace = opens x.trace ∧ pings w.2.2.trace = pings x.trace ∧
      (w.2.1 = b ∧ acceptances w.2.2.trace = acceptances x.trace ∨
        w.2.1 ∧ acceptances x.trace < acceptances w.2.2.trace) := by
  induction fuel generalizing b x with
  | zero => exact ⟨rfl, rfl, .inl ⟨rfl, rfl⟩⟩
  | succ _ ih =>
    simp only [flushLoop]
    split
    · have htrace := (rawWrite_spec x ((x.out.bytes.drop x.out.sent).take x.out.chunk)).2.1
      generalize rawWrite x ((x.out.bytes.drop x.out.sent).take x.out.chunk) = w at *
      obtain ⟨r, y⟩ := w
      simp only at htrace
      cases r with
      | ok n =>
        have htally := ih true { y with out := { y.out with pending := 0, sent := y.out.sent + n } }
        simp only [htrace] at htally ⊢
        obtain ⟨hopens, hpings, haccepted⟩ := htally
        refine ⟨hopens, hpings, .inr ?_⟩
        rcases haccepted with ⟨htrue, hsame⟩ | ⟨htrue, hmore⟩
        · exact ⟨htrue, hsame ▸ lt_add_one _⟩
        · exact ⟨htrue, (lt_add_one _).trans hmore⟩
      | error e => cases e <;> exact ⟨htrace ▸ rfl, htrace ▸ rfl, .inl ⟨rfl, htrace ▸ rfl⟩⟩
    · exact ⟨rfl, rfl, .inl ⟨rfl, rfl⟩⟩

theorem mqttArm_pulse (s : Sys) : (mqttArm s).pulse = s.pulse := by
  simp only [mqttArm]
  split <;> rfl

theorem mqttFlush_flushed (s : Sys) : Flushed s.pulse (mqttFlush s) := by
  have hroom := (mqttFlush_core s).1
  obtain ⟨hopens, hpings, haccepted⟩ :=
    flushLoop_tally (s.client.out.bytes.length + 1) false s.sender
  unfold mqttFlush at hroom ⊢
  generalize flushLoop (s.client.out.bytes.length + 1) false s.sender = w at *
  obtain ⟨r, b, x⟩ := w
  cases r with
  | some => exact ⟨hopens, hroom, nofun⟩
  | none =>
    refine ⟨?_, hroom, fun _ => ?_⟩
    · rw [mqttArm_pulse]
      split <;> exact hopens
    · rw [mqttArm_pulse]
      cases b with
      | false =>
        have hsame : acceptances x.trace = acceptances s.sender.trace := by simpa using haccepted
        have hpulse : (s.withSender { x with out := x.out.drained }).pulse = s.pulse := by
          simp only [Sys.pulse, Sys.withSender, hopens, hpings, hsame]
          rfl
        exact hpulse ▸ .refl _
      | true =>
        have hmore : acceptances s.sender.trace < acceptances x.trace := by simpa using haccepted
        have hsent := Beats.sent s.pulse.ready id _ hmore
        have hpulse : ({ s.withSender { x with out := x.out.drained } with
            client := { (s.withSender { x with out := x.out.drained }).client with
              nextPingMs := s.client.nowMs + pingIntervalMs } } : Sys).pulse =
            { s.pulse with
              next := s.pulse.now + pingIntervalMs, accepted := acceptances x.trace
              ready := s.pulse.ready } := by
          simp only [Sys.pulse, Sys.withSender, hopens, hpings]
          rfl
        exact hpulse ▸ hsent

theorem mqttQueue_cases (s : Sys) (data : Bytes) :
    (mqttQueue s data).1 = some .enospc ∧ (mqttQueue s data).2.pulse = s.pulse ∨
      Flushed { s.pulse with pings := pings (.queued data :: s.trace) } (mqttQueue s data) := by
  unfold mqttQueue
  simp only
  split
  · split
    · exact .inl ⟨rfl, rfl⟩
    · exact .inr (.of_eq (mqttFlush_flushed _) rfl)
  · exact .inr (.of_eq (mqttFlush_flushed _) rfl)

inductive Queueing (p : Pulse) : Option Errno × Sys → Prop
  | full (h : s.pulse = p) : Queueing p (some .enospc, s)
  | broken (h : s.pulse.opens = p.opens) (he : e ≠ .enospc) : Queueing p (some e, s)
  | sent (h : Beats p s.pulse) : Queueing p (none, s)

theorem mqttQueue_queueing (s : Sys) (hp : readPacket data = some p) (hne : p ≠ .pingreq) :
    Queueing s.pulse (mqttQueue s data) := by
  have hdata : data ≠ pingPacket := by
    intro h
    rw [h] at hp
    exact hne (Option.some.inj hp).symm
  have hpings : pings (.queued data :: s.trace) = pings s.trace := if_neg hdata
  have hcases := mqttQueue_cases s data
  rw [hpings] at hcases
  generalize mqttQueue s data = w at hcases
  obtain ⟨r, _⟩ := w
  obtain ⟨hfull, hpulse⟩ | hflushed := hcases
  · cases hfull
    exact .full hpulse
  · cases r with
    | none => exact .sent (hflushed.beats rfl)
    | some => exact .broken hflushed.opens fun he => hflushed.room (congrArg some he)

section Functions
variable {cb : Sys → Sys} (hcb : ∀ s : Sys, Beats s.pulse (cb s).pulse)
include hcb

theorem setState_beats (s : Sys) (st : State) :
    Beats { s.pulse with ready := st == .ready } (setState cb s st).2.pulse := by
  unfold setState
  split
  · rename_i h
    rw [← h]
    exact .refl _
  · simp only
    split
    · exact .of_eq (hcb _) rfl
    · exact .refl _

theorem backOff_ended (hp : p.opens ≤ s.pulse.opens) : Ended p (backOff cb s).pulse := by
  have hclosed : Ended p { (backedOff s).pulse with ready := State.waiting == .ready } :=
    ⟨hp, .inl rfl⟩
  exact hclosed.beats (setState_beats hcb (backedOff s) .waiting)

theorem fail_ended (f : Failure) (hp : p.opens ≤ s.pulse.opens) :
    Ended p (backOff cb (recordFailure s f)).pulse := by
  apply backOff_ended hcb
  unfold recordFailure
  simp only
  split <;> exact hp

theorem fail_beats (s : Sys) (f : Failure) : Beats s.pulse (backOff cb (recordFailure s f)).pulse :=
  .ended (fail_ended hcb f le_rfl)

theorem pumpSubscribes_beats (fuel : Nat) (s : Sys) :
    Beats s.pulse (pumpSubscribes cb fuel s).pulse := by
  induction fuel generalizing s with
  | zero => exact .refl _
  | succ _ ih =>
    unfold pumpSubscribes
    simp only
    split
    · exact .refl _
    split
    · exact .refl _
    split
    · exact .of_eq (ih _) rfl
    · rename_i packet hencode
      have hread :=
        readPacket_encodeSubscribe hencode (Nat.le_of_lt_succ (Nat.mod_lt _ (by decide)))
      have hqueued := mqttQueue_queueing
        (s.log (.filterRead s.client.filterSent s.client.filters.length)) hread (by simp)
      generalize mqttQueue (s.log _) packet = w at hqueued ⊢
      cases hqueued with
      | full h => exact h ▸ .refl _
      | sent h => exact h
      | broken h he =>
        split
        · rename_i heq
          cases heq
          exact absurd rfl he
        · rename_i heq
          cases heq
          exact .ended (fail_ended hcb _ h.ge)
        · rename_i heq
          cases heq

theorem pump_beats : Beats s.pulse (mqttPumpSubscribes cb s).pulse := pumpSubscribes_beats hcb _ s

theorem onConnack_beats : Beats s.pulse (onConnack cb s body).2.pulse := by
  unfold onConnack
  iterate 3
    split
    · exact fail_beats hcb s _
  have hready : Beats s.pulse (setState cb (accepted s) .ready).2.pulse :=
    (Beats.still true fun _ => rfl).trans (setState_beats hcb (accepted s) .ready)
  generalize setState cb (accepted s) .ready = w at *
  obtain ⟨r, _⟩ := w
  cases r with
  | false => exact hready
  | true => exact hready.trans (.of_eq (pump_beats hcb) rfl)

theorem onSuback_beats : Beats s.pulse (onSuback cb s body).2.pulse := by
  unfold onSuback
  split
  · exact fail_beats hcb s _
  simp only
  split
  · exact .refl _
  · apply Beats.of_eq (pump_beats hcb)
    split <;> rfl

theorem onPublish_beats : Beats s.pulse (onPublish cb s flags body).2.pulse := by
  unfold onPublish
  split
  · exact fail_beats hcb s _
  split
  · exact .refl _
  split
  · exact .refl _
  · exact .of_eq (hcb _) rfl

theorem mqttHandle_beats (s : Sys) (header : Header) (body : Bytes) :
    Beats s.pulse (mqttHandle cb s header body).2.pulse := by
  unfold mqttHandle
  split
  · exact onConnack_beats hcb
  · exact onSuback_beats hcb
  · exact onPublish_beats hcb
  all_goals first
    | exact .refl _
    | exact fail_beats hcb s _

theorem consumeFrom_beats (fuel at_ : Nat) (s : Sys) :
    Beats s.pulse (consumeFrom cb fuel at_ s).2.pulse := by
  fun_induction consumeFrom cb fuel at_ s with
  | case1 | case2 | case4 | case7 => exact .refl _
  | case3 _ _ s c _ _ _ _ ih => exact .of_eq ih rfl
  | case5 _ _ s => exact fail_beats hcb s _
  | case6 _ _ s c _ _ _ _ _ ih => exact .of_eq ih rfl
  | case8 _ _ s c _ header _ _ _ body _ hhandle
  | case9 _ _ s c _ header _ _ _ body _ hhandle
  | case10 _ _ s c _ header _ _ _ body _ hhandle =>
    have hbeats := mqttHandle_beats hcb s header body
    rw [hhandle] at hbeats
    exact hbeats
  | case11 _ _ s c _ header _ _ _ body _ hhandle _ _ ih =>
    have hbeats := mqttHandle_beats hcb s header body
    rw [hhandle] at hbeats
    exact hbeats.trans ih

omit hcb in
theorem rawRead_pulse (s : Sys) (cap : Nat) : (rawRead s cap).2.pulse = s.pulse := by
  unfold rawRead
  split
  · rfl
  · simp only
    split <;> rfl

theorem readTurns_beats (turns : Nat) (s : Sys) : Beats s.pulse (readTurns cb turns s).pulse := by
  induction turns generalizing s with
  | zero => exact .refl _
  | succ _ ih =>
    unfold readTurns
    split
    · exact .refl _
    have hread := rawRead_pulse s (packetMax - s.client.input.length)
    generalize rawRead s (packetMax - s.client.input.length) = w at *
    obtain ⟨_, s'⟩ := w
    rw [← hread]
    split
    · rename_i heq
      cases heq
      split
      · exact .refl _
      · rw [mqttArm_pulse]
        exact .refl _
    · rename_i heq
      cases heq
      exact fail_beats hcb s' _
    · rename_i heq
      cases heq
      exact fail_beats hcb s' _
    · rename_i heq
      cases heq
      split
      · exact fail_beats hcb s' _
      · exact fail_beats hcb s' _
    · rename_i bytes _ heq
      cases heq
      have hconsumed : Beats s'.pulse (mqttConsume cb (s'.receive bytes)).2.pulse :=
        .of_eq (consumeFrom_beats hcb _ 0 _) rfl
      generalize mqttConsume cb (s'.receive bytes) = v at *
      obtain ⟨b, s''⟩ := v
      cases b with
      | true => exact hconsumed.trans (ih s'')
      | false => exact hconsumed

theorem mqttReadReady_beats : Beats s.pulse (mqttReadReady cb s).pulse :=
  .of_eq (readTurns_beats hcb _ _) rfl

theorem mqttSendConnect_beats :
    Beats { s.pulse with ready := false } (mqttSendConnect cb s).pulse := by
  unfold mqttSendConnect
  split
  · exact .ended (fail_ended hcb _ le_rfl)
  · rename_i packet hencode
    obtain ⟨_, hread⟩ := readPacket_encodeConnect hencode
    have hqueued := mqttQueue_queueing s hread (by simp)
    generalize mqttQueue s packet = w at hqueued ⊢
    cases hqueued with
    | full h => exact .ended (fail_ended hcb _ (h ▸ le_rfl))
    | broken h => exact .ended (fail_ended hcb _ h.ge)
    | sent h => exact h.unready.trans (setState_beats hcb (greeted _) .greeting)

theorem mqttSecure_beats : Beats { s.pulse with ready := false } (mqttSecure cb s).pulse := by
  unfold mqttSecure
  simp only
  split
  · rw [mqttArm_pulse]
    exact beats_ready
  · exact .ended (fail_ended hcb _ le_rfl)
  · exact .of_eq (mqttSendConnect_beats hcb) rfl

theorem mqttFinishConnect_beats :
    Beats { s.pulse with ready := false } (mqttFinishConnect cb s).pulse := by
  unfold mqttFinishConnect
  simp only
  split
  · exact .ended (fail_ended hcb _ le_rfl)
  split
  · exact .of_eq (mqttSendConnect_beats hcb) rfl
  split
  · exact .ended (fail_ended hcb _ le_rfl)
  · exact .ended (fail_ended hcb _ le_rfl)
  · have hsecured {s' : Sys} {w : Bool × Sys} (h : setState cb (secured s') .securing = w)
        (hpulse : s'.pulse = s.pulse) : Beats { s.pulse with ready := false } w.2.pulse :=
      h ▸ hpulse ▸ setState_beats hcb (secured s') .securing
    split
    · rename_i heq
      exact hsecured heq rfl
    · rename_i heq
      exact (hsecured heq rfl).unready.trans (mqttSecure_beats hcb)

omit hcb in
theorem pulse_unready {s : Sys} (h : s.client.state ≠ .ready) :
    s.pulse = { s.pulse with ready := false } := by
  have hready : s.pulse.ready = false := beq_eq_false_iff_ne.mpr h
  rw [← hready]

theorem mqttFdCallback_beats : Beats s.pulse (mqttFdCallback cb s events).pulse := by
  unfold mqttFdCallback
  split
  · exact .refl _
  split
  · rename_i hst
    split
    · exact .of_eq (mqttFinishConnect_beats hcb) (pulse_unready (by rw [hst]; decide))
    · exact .refl _
  split
  · exact fail_beats hcb s _
  split
  · rename_i hst
    exact .of_eq (mqttSecure_beats hcb) (pulse_unready (by rw [hst]; decide))
  simp only
  split
  · have hflushed := mqttFlush_flushed s
    generalize mqttFlush s = w at *
    obtain ⟨r, _⟩ := w
    cases r with
    | some => exact .ended (fail_ended hcb _ hflushed.opens.ge)
    | none =>
      simp only
      split
      · exact (hflushed.beats rfl).trans (mqttReadReady_beats hcb)
      · exact hflushed.beats rfl
  · split
    · exact mqttReadReady_beats hcb
    · exact .refl _

theorem mqttOpen_ended (s : Sys) : Ended s.pulse (mqttOpen cb s).pulse := by
  unfold mqttOpen
  simp only
  split
  · exact fail_ended hcb _ le_rfl
  split
  · exact fail_ended hcb _ le_rfl
  split
  · exact fail_ended hcb _ (Nat.le_succ _)
  · have hopened : Ended s.pulse { s.pulse with
        opens := s.pulse.opens + 1, socket := true, ready := State.connecting == .ready } :=
      ⟨Nat.le_succ _, .inr (lt_add_one _)⟩
    exact hopened.beats (.of_eq (setState_beats hcb _ _) rfl)

theorem mqttOnResolved_beats : Beats s.pulse (mqttOnResolved cb s outcome error).pulse := by
  unfold mqttOnResolved
  split
  · exact .refl _
  split
  · exact .ended (mqttOpen_ended hcb s)
  · exact fail_beats hcb s _

theorem mqttAttempt_ended (hs : s.client.socket = none) :
    Ended s.pulse (mqttAttempt cb s).pulse := by
  unfold mqttAttempt
  simp only
  split
  · have hopened := mqttOpen_ended hcb
      { attempting s with world := { s.world with literals := (next true s.world.literals).2 } }
    exact ⟨hopened.opens, hopened.gone⟩
  split
  · exact fail_ended hcb _ le_rfl
  · have hclosed : Ended s.pulse { s.pulse with ready := State.resolving == .ready } :=
      ⟨le_rfl, .inl (congrArg Option.isSome hs)⟩
    exact hclosed.beats (.of_eq (setState_beats hcb _ _) rfl)

theorem resolveTryFinish_beats (s : Sys) : Beats s.pulse (resolveTryFinish cb s).pulse := by
  unfold resolveTryFinish
  split
  · exact .refl _
  simp only
  split
  · exact .refl _
  · exact .of_eq (mqttOnResolved_beats hcb) rfl

theorem resolveTick_beats (s : Sys) (nowMs : Nat) :
    Beats s.pulse (resolveTick cb s nowMs).pulse := by
  unfold resolveTick
  have hfinish := resolveTryFinish_beats hcb s
  simp only
  split
  · exact hfinish
  split
  · exact hfinish.trans (.of_eq (mqttOnResolved_beats hcb) rfl)
  · exact hfinish

theorem clientStart_beats :
    Beats s.pulse (clientStart cb s config onMessage onState nowMs).2.pulse := by
  unfold clientStart
  iterate 3
    split
    · exact .refl _
  · rename_i host port _
    have hattempt :=
      mqttAttempt_ended hcb (s := begun s config host port onMessage onState nowMs) rfl
    exact .ended ⟨hattempt.opens, hattempt.gone⟩

omit hcb in
theorem sayGoodbye_opens : opens (sayGoodbye s).trace = opens s.trace := by
  obtain ⟨t, hbye, hcore⟩ := sayGoodbye_core
  have htrace : (sayGoodbye s).trace = t := congrArg Core.trace hcore
  rw [htrace]
  cases hbye with
  | silent | said => rfl

theorem clientStop_beats : Beats s.pulse (clientStop cb s).pulse := by
  unfold clientStop
  split
  · exact .refl _
  · have hclosed : Ended s.pulse
        { (silenced (sayGoodbye s)).pulse with ready := State.off == .ready } :=
      ⟨sayGoodbye_opens.ge, .inl rfl⟩
    exact .ended (hclosed.beats (setState_beats hcb _ _))

theorem clientPublish_beats :
    Beats s.pulse (clientPublish cb s topic payload retained).2.pulse := by
  unfold clientPublish
  split
  · exact .refl _
  split
  · exact .refl _
  rename_i hpublishable
  split
  · exact .refl _
  · rename_i packet hencode
    have hread := readPacket_encodePublish hencode (by simpa using hpublishable)
    have hqueued := mqttQueue_queueing s hread (by simp)
    generalize mqttQueue s packet = w at hqueued ⊢
    cases hqueued with
    | full h => exact h ▸ .refl _
    | sent h => exact h
    | broken h he =>
      split
      · rename_i heq
        cases heq
        exact absurd rfl he
      · rename_i heq
        cases heq
        exact .ended (fail_ended hcb _ h.ge)
      · rename_i heq
        cases heq

theorem apiCall_beats (s : Sys) (call : ApiCall) : Beats s.pulse (apiCall cb s call).pulse := by
  cases call with
  | start => exact clientStart_beats hcb
  | stop => exact clientStop_beats hcb
  | subscribe filter =>
    show Beats s.pulse (clientSubscribe cb s filter).2.pulse
    unfold clientSubscribe
    iterate 3
      split
      · exact .refl _
    · exact .of_eq (pump_beats hcb) rfl
  | clearFilters => exact .refl _
  | publish => exact clientPublish_beats hcb

theorem apiCalls_beats (calls : List ApiCall) (s : Sys) :
    Beats s.pulse (calls.foldl (apiCall cb) s).pulse := by
  induction calls generalizing s with
  | nil => exact .refl _
  | cons call _ ih => exact (apiCall_beats hcb s call).trans (ih _)

end Functions

theorem callback_beats (depth : Nat) (s : Sys) : Beats s.pulse (callback depth s).pulse := by
  induction depth generalizing s with
  | zero => exact .refl _
  | succ _ ih => exact .of_eq (apiCalls_beats ih _ _) rfl

end Inkwell.Mqtt
