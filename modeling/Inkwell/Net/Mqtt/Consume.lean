import Inkwell.Net.Mqtt.Stream

namespace Inkwell.Mqtt
open List

theorem setState_idle (s : Sys) (st : State) :
    (setState (callback 0) s st).1 ∧
      ∃ t, (setState (callback 0) s st).2.core = { s.core.enter st with trace := t } ∧
        SameStream (s.core.enter st).trace t ∧ (s.core.enter st).trace <:+ t := by
  unfold setState
  split
  · rename_i h
    have henter : s.core.enter st = s.core := if_pos h
    rw [henter]
    exact ⟨rfl, s.trace, rfl, .refl, suffix_rfl⟩
  · rename_i h
    have henter : s.core.enter st =
        (({ s with client := { s.client with state := st } } : Sys).log (.entered st)).core :=
      if_neg h
    rw [henter]
    simp only
    split
    · exact ⟨beq_self_eq_true _, _, rfl, .one rfl, suffix_cons _ _⟩
    · exact ⟨rfl, _, rfl, .refl, suffix_rfl⟩

theorem fail_idle :
    ∃ t, (backOff (callback 0) (recordFailure s f)).core = { s.core.failed f with trace := t } ∧
      SameStream (s.core.failed f).trace t ∧ (s.core.failed f).trace <:+ t := by
  have h := (setState_idle (backedOff (recordFailure s f)) .waiting).2
  rw [backedOff_core] at h
  exact h

theorem pump_idle (hq : Quiet s.core)
    (hok : ∀ e ∈ (mqttPumpSubscribes (callback 0) s).trace, e.writeFailed = false) :
    ∃ o n t, (mqttPumpSubscribes (callback 0) s).core =
      { s.core with out := o, subscribeId := n, trace := t } ∧ SameStream s.trace t := by
  have hpumping := mqttPumpSubscribes_pumping (callback 0) hq
  generalize mqttPumpSubscribes (callback 0) s = w at *
  cases hpumping with
  | idle => exact ⟨s.client.out, s.client.subscribeId, s.trace, rfl, .refl⟩
  | noRoom _ _ _ o _ hcore =>
    exact ⟨o, s.client.subscribeId, _, hcore, (SameStream.one rfl).cons rfl⟩
  | @sent c o t _ hpump hsends _ hcore =>
    have hfields : ∃ n, { c with out := o, trace := t } =
        { s.core with out := o, subscribeId := n, trace := t } := by
      cases hpump <;> exact ⟨_, rfl⟩
    obtain ⟨n, hn⟩ := hfields
    exact ⟨o, n, t, hcore.trans hn, hpump.stream.trans hsends.stream⟩
  | @failed c o t s' _ _ _ hcore hfailed =>
    obtain ⟨e, hmem, he⟩ := hfailed
    obtain ⟨t', hfail, _, hgrows⟩ := fail_idle
    have htrace : s'.trace = t := congrArg Core.trace hcore
    have hsuffix : s'.trace <:+ (failNet (callback 0) s' .closed .none).trace := by
      have htrace' : (failNet (callback 0) s' .closed .none).trace = t' := congrArg Core.trace hfail
      rw [htrace']
      have hlog : s'.trace <:+ (s'.core.failed { reason := .closed, detail := .none }).trace :=
        failed_grows suffix_rfl
      exact hlog.trans hgrows
    rw [htrace] at hsuffix
    rw [hok e (hsuffix.subset hmem)] at he
    cases he

structure Reading (c : Core) (at_ : Nat) : Prop where
  bound : at_ ≤ c.input.length
  socket : c.socket
  live : c.state = .greeting ∨ c.state = .ready
  reads : ∀ u ∈ c.trace.tails, ReadOpen u
  unclosed : (heard c.trace).closed = none
  more : ∀ rest, parse true (readBytes c.trace ++ rest) = (heard c.trace).andThen
    (parse (c.state != .ready) ((c.input ++ rest).drop (at_ + c.skipRemaining)))
  counted : Counted c.received c.skipped c.trace
  message : c.onMessage

theorem Reading.drop_rest (h : Reading c at_) (rest : Bytes) (n : Nat) :
    (c.input ++ rest).drop (at_ + n) = (c.input.drop at_ ++ rest).drop n := by
  rw [← drop_drop, drop_append_of_le_length h.bound]

theorem Reading.settle (h : Reading c at_)
    (hnone : parse (c.state != .ready) ((c.input.drop at_).drop c.skipRemaining) = {}) :
    Inbox { c with input := c.input.drop at_ } where
  reads := h.reads
  parsed := by
    have hmore := h.more []
    rw [h.drop_rest, append_nil, append_nil, hnone, Parsed.andThen_nil] at hmore
    exact hmore
  opened _ := by
    refine ⟨h.unclosed, ?_⟩
    intro rest
    rw [← h.drop_rest]
    exact h.more rest
  closed hc := absurd h.unclosed hc
  idle hs := by
    rw [h.socket] at hs
    cases hs
  counted := h.counted
  message _ := h.message

theorem Reading.failed (h : Reading c at_)
    (hb : Failure.byBroker { refusal, code })
    (hclosed : ∀ rest, parse (c.state != .ready)
      ((c.input ++ rest).drop (at_ + c.skipRemaining)) = .refused refusal code) :
    Inbox (c.failed { refusal, code }) := by
  have hheard : heard (.failed { refusal, code } :: c.trace) =
      { heard c.trace with closed := some (refusal, code) } := by
    rw [heard, if_pos hb]
  have hall : ∀ rest, parse true (readBytes c.trace ++ rest) =
      heard (.failed { refusal, code } :: c.trace) := by
    intro rest
    rw [h.more rest, hclosed, Parsed.andThen_of_open h.unclosed, hheard]
    simp [Parsed.refused]
  have hcounted : Counted c.received c.skipped (.failed { refusal, code } :: c.trace) := by
    constructor
    · rw [hheard]
      exact h.counted.messages
    · rw [hheard]
      exact h.counted.passed
  have hnil := hall []
  rw [append_nil] at hnil
  exact Inbox.enter ⟨tails_cons_forall (tails_cons_forall h.reads trivial) trivial, hnil, nofun,
    fun _ => hall, fun _ => ⟨rfl, rfl⟩, ⟨hcounted.messages, hcounted.passed⟩, fun _ => h.message⟩

theorem Reading.refuse (h : Reading s.core at_)
    (hb : Failure.byBroker { refusal, code })
    (hclosed : ∀ rest, parse (s.core.state != .ready)
      ((s.core.input ++ rest).drop (at_ + s.core.skipRemaining)) = .refused refusal code) :
    Inbox (failOwn (callback 0) s refusal code).core := by
  have hfailed := h.failed hb hclosed
  obtain ⟨t, hcore, hs, _⟩ := fail_idle
  have hcore' : (failOwn (callback 0) s refusal code).core =
      { s.core.failed { refusal, code } with trace := t } := hcore
  rw [hcore']
  exact hfailed.frame hs rfl rfl rfl rfl ⟨rfl, rfl⟩ hfailed.message

structure Handled (c c' : Core) (greeting : Bool) (packet : Parsed) : Prop where
  socket : c'.socket = c.socket
  generation : c'.generation = c.generation
  input : c'.input = c.input
  skip : c'.skipRemaining = c.skipRemaining
  live : c'.state = .greeting ∨ c'.state = .ready
  greeting : (c'.state != .ready) = greeting
  bytes : readBytes c'.trace = readBytes c.trace
  heard : heard c'.trace = (heard c.trace).andThen packet
  stats : openedStats c'.trace = openedStats c.trace
  reads : (∀ u ∈ c.trace.tails, ReadOpen u) → ∀ u ∈ c'.trace.tails, ReadOpen u
  received : c'.received = c.received + UInt32.ofNat packet.deliveries.length
  skipped : c'.skipped = c.skipped + UInt32.ofNat packet.skipped
  message : c'.onMessage = c.onMessage

theorem Reading.next (h : Reading c at_) (hh : Handled c c' greeting packet)
    (hopen : packet.closed = none) (hskip : c.skipRemaining = 0) (hbound : at_ + n ≤ c.input.length)
    (hparse : ∀ rest, parse (c.state != .ready) (c.input.drop at_ ++ rest) =
      packet.andThen (parse greeting ((c.input.drop at_ ++ rest).drop n))) :
    Reading c' (at_ + n) where
  bound := by rw [hh.input]; exact hbound
  socket := hh.socket.trans h.socket
  live := hh.live
  reads := hh.reads h.reads
  unclosed := by
    rw [hh.heard, Parsed.andThen_of_open h.unclosed]
    exact hopen
  more rest := by
    have hmore := h.more rest
    have hdrop := h.drop_rest rest n
    rw [hskip, h.drop_rest, drop_zero, hparse, ← Parsed.andThen_assoc] at hmore
    rw [hh.bytes, hh.heard, hh.greeting, hh.input, hh.skip, hskip, add_zero, hdrop]
    exact hmore
  counted := by
    constructor
    · rw [hh.received, hh.stats, hh.heard, Parsed.andThen_of_open h.unclosed, length_append,
        UInt32.ofNat_add, ← UInt32.add_assoc, ← h.counted.messages]
    · rw [hh.skipped, hh.stats, hh.heard, Parsed.andThen_of_open h.unclosed,
        UInt32.ofNat_add, ← UInt32.add_assoc, ← h.counted.passed]
  message := hh.message.trans h.message

theorem handled_same (hs : SameStream c.trace c'.trace) (hsocket : c'.socket = c.socket)
    (hgeneration : c'.generation = c.generation) (hinput : c'.input = c.input)
    (hskip : c'.skipRemaining = c.skipRemaining) (hlive : c'.state = .greeting ∨ c'.state = .ready)
    (hgreeting : (c'.state != .ready) = greeting)
    (hcount : c'.received = c.received ∧ c'.skipped = c.skipped)
    (hmessage : c'.onMessage = c.onMessage) : Handled c c' greeting {} where
  socket := hsocket
  generation := hgeneration
  input := hinput
  skip := hskip
  live := hlive
  greeting := hgreeting
  bytes := hs.bytes
  heard := by rw [Parsed.andThen_nil]; exact hs.heard
  stats := hs.stats
  reads := hs.reads
  received := hcount.1.trans (UInt32.add_zero _).symm
  skipped := hcount.2.trans (UInt32.add_zero _).symm
  message := hmessage

inductive Response (s : Sys) (greeting : Bool) (packet : Parsed) : Bool × Sys → Prop
  | goes (hopen : packet.closed = none) (hh : Handled s.core s'.core greeting packet) :
    Response s greeting packet (true, s')
  | closes (hb : Failure.byBroker { refusal, code }) (hp : packet = .refused refusal code) :
    Response s greeting packet (false, failOwn (callback 0) s refusal code)

theorem response_protocol :
    Response s greeting (.refused .protocol 0) (false, failOwn (callback 0) s .protocol 0) :=
  .closes rfl rfl

theorem refusalOf_byBroker : Failure.byBroker { refusal := refusalOf code, code := code' } := by
  unfold refusalOf
  split
  · rfl
  · split
    · rfl
    · split <;> rfl

theorem onConnack_response (hr : Reading s.core at_) (hq : Quiet s.core)
    (hty : header.type = .connack)
    (hok : ∀ e ∈ (onConnack (callback 0) s body).2.trace, e.writeFailed = false) :
    Response s (react (s.client.state != .ready) header body).1
      (react (s.client.state != .ready) header body).2 (onConnack (callback 0) s body) := by
  unfold react
  simp only [hty]
  unfold onConnack at hok ⊢
  by_cases hst : s.client.state ≠ .greeting
  · have hready : s.client.state = .ready := hr.live.resolve_left hst
    rw [if_pos hst, hready]
    exact response_protocol
  rw [if_neg hst] at hok ⊢
  have hg : s.client.state = .greeting := not_not.mp hst
  have hflag : (s.client.state != .ready) = true := by rw [hg]; rfl
  simp only [hflag]
  cases hcode : decodeConnack body with
  | none => exact response_protocol
  | some code =>
    simp only [hcode] at hok ⊢
    by_cases hzero : code = 0
    · rw [if_neg (not_not.mpr hzero)] at hok ⊢
      rw [if_pos hzero]
      have hready : (accepted s).core.enter .ready = s.core.accepted := rfl
      have hq' := quiet_accepted hq hr.socket
      have hcalls : Calls s.core.accepted (setState (callback 0) (accepted s) .ready).2.core :=
        hready ▸ setState_steps (callback_reenters 0) (accepted s) .ready (hready ▸ hq')
      obtain ⟨hfst, t, hcore, hsame, _⟩ := setState_idle (accepted s) .ready
      generalize setState (callback 0) (accepted s) .ready = w at *
      obtain ⟨_, s'⟩ := w
      subst hfst
      obtain ⟨o, n, t', hpump, hstream⟩ :=
        pump_idle (s := resubscribe s') (quiet_resubscribed (hcalls.quiet hq')) hok
      have hne : (accepted s).core.state ≠ .ready := fun h => by cases hg.symm.trans h
      have henter : (accepted s).core.enter .ready =
          { (accepted s).core with state := .ready, trace := .entered .ready :: s.trace } :=
        if_neg hne
      rw [henter] at hcore hsame
      have hresult : (mqttPumpSubscribes (callback 0) (resubscribe s')).core =
          { s'.core.resubscribed with out := o, subscribeId := n, trace := t' } := hpump
      have htrace : s'.trace = t := congrArg Core.trace hcore
      have hagain : SameStream s'.trace (resubscribe s').trace := .one rfl
      have hpassed : SameStream t t' := htrace ▸ hagain.trans hstream
      have hall : SameStream s.trace t' := ((SameStream.one rfl).trans hsame).trans hpassed
      rw [hcore] at hresult
      refine .goes rfl ?_
      rw [hresult]
      exact handled_same hall rfl rfl rfl rfl (.inr rfl) rfl ⟨rfl, rfl⟩ rfl
    · rw [if_pos hzero, if_neg hzero]
      exact .closes refusalOf_byBroker rfl

theorem answered_stream (c : Core) (n : Nat) (code : UInt8) :
    SameStream c.trace (c.answered n code).trace := by
  unfold Core.answered
  split
  · exact ((SameStream.one rfl).cons rfl).cons rfl
  · exact (SameStream.one rfl).cons rfl

theorem onSuback_response (hr : Reading s.core at_) (hq : Quiet s.core)
    (hty : header.type = .suback)
    (hok : ∀ e ∈ (onSuback (callback 0) s body).2.trace, e.writeFailed = false) :
    Response s (react (s.client.state != .ready) header body).1
      (react (s.client.state != .ready) header body).2 (onSuback (callback 0) s body) := by
  unfold react
  simp only [hty]
  cases hdecode : decodeSuback body with
  | none =>
    rw [onSuback, hdecode]
    exact response_protocol
  | some pair =>
    obtain ⟨n, code⟩ := pair
    by_cases hn : n = s.client.subscribeId
    · subst hn
      obtain ⟨s', hresult, hcore⟩ := onSuback_answered hdecode
      rw [hresult] at hok ⊢
      obtain ⟨_, _, t, hpump, hstream⟩ := pump_idle (hcore ▸ quiet_answered hq) hok
      have htrace : s'.trace = (s.core.answered s.client.subscribeId code).trace :=
        congrArg Core.trace hcore
      have hall : SameStream s.trace t := (answered_stream s.core _ code).trans (htrace ▸ hstream)
      rw [hcore] at hpump
      refine .goes rfl ?_
      rw [hpump]
      exact handled_same hall rfl rfl rfl rfl hr.live rfl ⟨rfl, rfl⟩ rfl
    · simp only [onSuback, hdecode, ne_eq, hn, not_false_eq_true, if_true]
      exact .goes rfl (handled_same (.one rfl) rfl rfl rfl rfl hr.live rfl ⟨rfl, rfl⟩ rfl)

theorem cString_eq (h : 0 ∉ text) : cString text = text := by
  refine takeWhile_eq_self_iff.mpr ?_
  intro b hb
  have hne : b ≠ 0 := fun heq => h (heq ▸ hb)
  exact decide_eq_true hne

theorem onPublish_response (hr : Reading s.core at_) (hty : header.type = .publish)
    (htopic : ∀ d ∈ (react (s.client.state != .ready) header body).2.deliveries, 0 ∉ d.1) :
    Response s (react (s.client.state != .ready) header body).1
      (react (s.client.state != .ready) header body).2
      (onPublish (callback 0) s header.flags body) := by
  unfold react at htopic ⊢
  simp only [hty] at htopic ⊢
  unfold onPublish
  cases hdecode : decodePublish header.flags body with
  | none => exact response_protocol
  | some message =>
    simp only [hdecode] at htopic ⊢
    have hmessage : s.client.onMessage := hr.message
    simp only [hmessage, Bool.not_true, Bool.false_eq_true, if_false]
    by_cases hlong : message.topic.length ≥ topicMax
    · simp only [if_pos hlong]
      refine .goes rfl ?_
      exact {
        socket := rfl, generation := rfl, input := rfl, skip := rfl, live := hr.live
        greeting := rfl, bytes := rfl, stats := rfl, message := rfl
        heard := by
          rw [Parsed.andThen_of_open hr.unclosed, append_nil]
          exact congrArg _ hr.unclosed
        reads := fun h => tails_cons_forall h trivial
        received := (UInt32.add_zero _).symm
        skipped := rfl }
    · simp only [if_neg hlong] at htopic ⊢
      have hnul : 0 ∉ message.topic :=
        htopic (message.topic, message.payload) (mem_singleton.mpr rfl)
      rw [cString_eq hnul]
      refine .goes rfl ?_
      exact {
        socket := rfl, generation := rfl, input := rfl, skip := rfl, live := hr.live
        greeting := rfl, bytes := rfl, stats := rfl, message := rfl
        heard := by
          rw [Parsed.andThen_of_open hr.unclosed, add_zero]
          exact congrArg _ hr.unclosed
        reads := fun h => tails_cons_forall (tails_cons_forall h trivial) trivial
        received := rfl
        skipped := (UInt32.add_zero _).symm }

theorem mqttHandle_response (hr : Reading s.core at_) (hq : Quiet s.core)
    (htopic : ∀ d ∈ (react (s.client.state != .ready) header body).2.deliveries, 0 ∉ d.1)
    (hok : ∀ e ∈ (mqttHandle (callback 0) s header body).2.trace, e.writeFailed = false) :
    Response s (react (s.client.state != .ready) header body).1
      (react (s.client.state != .ready) header body).2
      (mqttHandle (callback 0) s header body) := by
  have hignored : Response s (s.client.state != .ready) {} (true, s) :=
    .goes rfl (handled_same (.refl) rfl rfl rfl rfl hr.live rfl ⟨rfl, rfl⟩ rfl)
  unfold mqttHandle at hok ⊢
  cases hty : header.type with
  | connack =>
    rw [hty] at hok
    exact onConnack_response hr hq hty hok
  | suback =>
    rw [hty] at hok
    exact onSuback_response hr hq hty hok
  | publish => exact onPublish_response hr hty htopic
  | pingresp | puback | pubrec | pubrel | pubcomp | unsuback =>
    simp only [react, hty]
    exact hignored
  | connect | subscribe | unsubscribe | pingreq | disconnect =>
    simp only [react, hty]
    exact response_protocol

theorem Reading.skip (h : Reading c at_) (hn : n ≤ c.skipRemaining)
    (hbound : at_ + n ≤ c.input.length) :
    Reading { c with skipRemaining := c.skipRemaining - n } (at_ + n) where
  bound := hbound
  socket := h.socket
  live := h.live
  reads := h.reads
  unclosed := h.unclosed
  more rest := by
    have hpos : at_ + n + (c.skipRemaining - n) = at_ + c.skipRemaining := by omega
    rw [hpos]
    exact h.more rest
  counted := h.counted
  message := h.message

theorem Reading.oversized (h : Reading c at_) (hskip : c.skipRemaining = 0)
    (hheader : decodeHeader (c.input.drop at_) = .ok header)
    (hbig : header.headerLen + header.remaining > packetMax) :
    Reading { c with
      skipRemaining := header.remaining, skipped := c.skipped + 1, trace := .skipped :: c.trace }
      (at_ + header.headerLen) where
  bound := by
    have hlen := (decodeHeader_bounds hheader).2.2
    have hbound := h.bound
    rw [length_drop] at hlen
    simp only
    omega
  socket := h.socket
  live := h.live
  reads := tails_cons_forall h.reads trivial
  unclosed := h.unclosed
  more rest := by
    have hmore := h.more rest
    have hdrop := h.drop_rest rest (header.headerLen + header.remaining)
    have hheard : heard (.skipped :: c.trace) = (heard c.trace).andThen { skipped := 1 } := by
      rw [Parsed.andThen_of_open h.unclosed, append_nil]
      exact congrArg _ h.unclosed
    rw [hskip, h.drop_rest, drop_zero, parse_oversized hheader hbig, ← hdrop,
      ← Parsed.andThen_assoc, ← hheard, ← add_assoc] at hmore
    exact hmore
  counted := by
    constructor
    · exact h.counted.messages
    · have hpassed := h.counted.passed
      simp only [heard, openedStats, UInt32.ofNat_add, ← UInt32.add_assoc]
      rw [← hpassed]
      rfl
  message := h.message

theorem Parsed.mem_andThen {p : Parsed} (h : d ∈ p.deliveries) : d ∈ (p.andThen q).deliveries := by
  by_cases hp : p.closed = none
  · rw [andThen_of_open hp]
    exact mem_append_left _ h
  · rw [andThen_of_closed hp]
    exact h

theorem parse_nil : parse greeting [] = {} := parse_more rfl

theorem Reading.handle {s : Sys} (hr : Reading s.core at_) (hq : Quiet s.core)
    (hskip : s.core.skipRemaining = 0) (hheader : decodeHeader (s.core.input.drop at_) = .ok header)
    (hfit : header.headerLen + header.remaining ≤ packetMax)
    (hall : header.headerLen + header.remaining ≤ (s.core.input.drop at_).length)
    (hbody : body = ((s.core.input.drop at_).drop header.headerLen).take header.remaining)
    (htopics : ∀ d ∈ (parse true (readBytes s.trace)).deliveries, 0 ∉ d.1)
    (hok : ∀ e ∈ (mqttHandle (callback 0) s header body).2.trace, e.writeFailed = false) :
    (∃ s', mqttHandle (callback 0) s header body = (true, s') ∧
      Reading s'.core (at_ + (header.headerLen + header.remaining)) ∧
      s'.core.generation = s.core.generation ∧ s'.core.input = s.core.input) ∨
    ∃ s', mqttHandle (callback 0) s header body = (false, s') ∧ Inbox s'.core := by
  have hparse : ∀ rest, parse (s.core.state != .ready) (s.core.input.drop at_ ++ rest) =
      (react (s.client.state != .ready) header body).2.andThen
        (parse (react (s.client.state != .ready) header body).1
          ((s.core.input.drop at_ ++ rest).drop (header.headerLen + header.remaining))) := by
    intro _
    rw [hbody]
    exact parse_packet hheader hfit hall
  have htopic : ∀ d ∈ (react (s.client.state != .ready) header body).2.deliveries, 0 ∉ d.1 := by
    intro d hd
    have hmore := hr.more []
    rw [hr.drop_rest, hskip, drop_zero, hparse, append_nil,
      Parsed.andThen_of_open hr.unclosed] at hmore
    refine htopics d ?_
    rw [show s.trace = s.core.trace from rfl, hmore]
    exact mem_append_right _ (Parsed.mem_andThen hd)
  have hresponse := mqttHandle_response hr hq htopic hok
  generalize mqttHandle (callback 0) s header body = w at *
  have hbound : at_ + (header.headerLen + header.remaining) ≤ s.core.input.length := by
    have hlen := hr.bound
    rw [length_drop] at hall
    omega
  cases hresponse with
  | @goes s' hopen hh =>
    exact .inl ⟨s', rfl, hr.next hh hopen hskip hbound hparse, hh.generation, hh.input⟩
  | @closes refusal code hb hp =>
    refine .inr ⟨_, rfl, hr.refuse hb ?_⟩
    intro _
    rw [hr.drop_rest, hskip, drop_zero, hparse, hp]
    have hclosed : (Parsed.refused refusal code).closed ≠ none := Option.some_ne_none _
    exact Parsed.andThen_of_closed hclosed

def Waiting (w : Bool × Sys) : Prop :=
  Inbox w.2.core ∧ (w.1 → w.2.core.socket ∧ (w.2.core.state = .greeting ∨ w.2.core.state = .ready))

theorem Reading.compact (hr : Reading s.core at_)
    (hnone : parse (s.core.state != .ready)
      ((s.core.input.drop at_).drop s.core.skipRemaining) = {}) :
    Waiting (true, compactIn s at_) :=
  ⟨hr.settle hnone, fun _ => ⟨hr.socket, hr.live⟩⟩

theorem header_fits (hheader : decodeHeader data = .ok header)
    (h : ¬ header.remaining > packetMax - header.headerLen) :
    header.headerLen + header.remaining ≤ packetMax := by
  have hbounds := decodeHeader_bounds hheader
  have hmax : packetMax = 1024 := rfl
  omega

theorem Reading.handled (hr : Reading s.core at_) (hq : Quiet s.core)
    (hskip : s.core.skipRemaining = 0)
    (hheader : decodeHeader (s.core.input.drop at_) = .ok header)
    (hfit : header.headerLen + header.remaining ≤ packetMax)
    (hall : ¬ s.client.input.length - at_ < header.headerLen + header.remaining)
    (hhandle : mqttHandle (callback 0) s header
      ((s.client.input.drop (at_ + header.headerLen)).take header.remaining) = (r, s'))
    (hok : Fair s'.trace) :
    (r ∧ Reading s'.core (at_ + (header.headerLen + header.remaining)) ∧
      s'.core.generation = s.core.generation ∧ s'.core.input = s.core.input) ∨
    (r = false ∧ Inbox s'.core) := by
  have hwhole : header.headerLen + header.remaining ≤ (s.core.input.drop at_).length := by
    rw [length_drop]
    exact le_of_not_gt hall
  have hbody : (s.client.input.drop (at_ + header.headerLen)).take header.remaining =
      ((s.core.input.drop at_).drop header.headerLen).take header.remaining := by
    rw [drop_drop]
    rfl
  have hfair : Fair s.trace :=
    fair_lasting (handled_moves (callback_reenters 0) hq hr.socket hhandle).grows hok
  have htopics := hfair.topics s.trace ((mem_tails _ _).mpr suffix_rfl)
  have hdone := hr.handle hq hskip hheader hfit hwhole hbody htopics
  rw [hhandle] at hdone
  rcases hdone hok.writes with ⟨_, ⟨⟩, hgoes⟩ | ⟨_, ⟨⟩, hinbox⟩
  · exact .inl ⟨rfl, hgoes⟩
  · exact .inr ⟨rfl, hinbox⟩

theorem consumeFrom_waiting (hr : Reading s.core at_) (hq : Quiet s.core)
    (hfuel : s.core.input.length - at_ < fuel)
    (hok : Fair (consumeFrom (callback 0) fuel at_ s).2.trace) :
    Waiting (consumeFrom (callback 0) fuel at_ s) := by
  fun_induction consumeFrom (callback 0) fuel at_ s with
  | case1 => exact absurd hfuel (Nat.not_lt_zero _)
  | case2 _ at_ s c _ chunk s' hleft =>
    have hbound := hr.bound
    have hinput : c.input = s.core.input := rfl
    have hleft : c.skipRemaining - chunk > 0 := hleft
    rw [← hinput] at hbound
    have hread : Reading s'.core (at_ + chunk) :=
      hr.skip (min_le_right _ _) (by rw [← hinput]; omega)
    refine hread.compact ?_
    have hdrop : c.input.drop (at_ + chunk) = [] := drop_eq_nil_of_le (by omega)
    show parse _ ((c.input.drop (at_ + chunk)).drop _) = {}
    rw [hdrop, drop_nil]
    exact parse_nil
  | case3 fuel at_ s c _ chunk s' hleft ih =>
    have hbound := hr.bound
    have hinput : c.input = s.core.input := rfl
    have hleft : ¬ c.skipRemaining - chunk > 0 := hleft
    rw [← hinput] at hbound hfuel
    have hread : Reading s'.core (at_ + chunk) :=
      hr.skip (min_le_right _ _) (by rw [← hinput]; omega)
    have hrest : c.input.length - (at_ + chunk) < fuel := by omega
    exact ih hread (quiet_skip hq hr.socket) hrest hok
  | case4 _ _ s c hskip hmore =>
    refine hr.compact ?_
    have hskip : s.core.skipRemaining = 0 := Nat.eq_zero_of_not_pos hskip
    rw [hskip, drop_zero]
    exact parse_more hmore
  | case5 _ _ s c hskip hmalformed =>
    refine ⟨hr.refuse rfl ?_, by simp⟩
    intro _
    have hskip : s.core.skipRemaining = 0 := Nat.eq_zero_of_not_pos hskip
    rw [hr.drop_rest, hskip, drop_zero]
    exact parse_malformed hmalformed
  | case6 _ at_ s c hskip header hheader _ s' ih =>
    obtain ⟨_, _, hlen⟩ := decodeHeader_bounds hheader
    have htotal : header.headerLen + header.remaining > packetMax := by omega
    have hread := hr.oversized (Nat.eq_zero_of_not_pos hskip) hheader htotal
    refine ih hread (quiet_countSkipped (quiet_skip hq hr.socket) hr.socket) ?_ hok
    have hsame : s'.countSkipped.core.input.length = s.core.input.length := rfl
    have hlen : header.headerLen ≤ s.core.input.length - at_ := length_drop ▸ hlen
    omega
  | case7 _ _ s c hskip _ hheader hfit hshort =>
    refine hr.compact ?_
    have hskip : s.core.skipRemaining = 0 := Nat.eq_zero_of_not_pos hskip
    rw [hskip, drop_zero]
    refine parse_short hheader (header_fits hheader hfit) ?_
    rw [length_drop]
    exact hshort
  | case8 _ _ s c hskip _ hheader hfit hall _ _ hhandle =>
    have hfits := header_fits hheader hfit
    rcases hr.handled hq (Nat.eq_zero_of_not_pos hskip) hheader hfits hall hhandle hok with
      ⟨⟨⟩, _⟩ | ⟨_, hinbox⟩
    exact ⟨hinbox, by simp⟩
  | case9 _ _ s c hskip _ hheader hfit hall _ _ hhandle hnew =>
    have hfits := header_fits hheader hfit
    rcases hr.handled hq (Nat.eq_zero_of_not_pos hskip) hheader hfits hall hhandle hok with
      ⟨_, _, hsame, _⟩ | ⟨⟨⟩, _⟩
    exact absurd hsame hnew
  | case10 _ _ s c hskip _ hheader hfit hall _ s' hhandle _ hgone =>
    have hfits := header_fits hheader hfit
    rcases hr.handled hq (Nat.eq_zero_of_not_pos hskip) hheader hfits hall hhandle hok with
      ⟨_, hread, _⟩ | ⟨⟨⟩, _⟩
    have hsocket : s'.client.socket.isSome := hread.socket
    rw [Option.isNone_iff_eq_none.mp hgone] at hsocket
    cases hsocket
  | case11 fuel at_ s c hskip header hheader hfit hall _ _ hhandle _ hsome ih =>
    have hbounds := decodeHeader_bounds hheader
    have hquiet := (handled_moves (callback_reenters 0) hq hr.socket hhandle).quiet hq
    have hgrows := (consumeFrom_moves (callback_reenters 0) fuel
      (at_ + (header.headerLen + header.remaining)) hquiet (socket_held hsome)).1.grows
    rcases hr.handled hq (Nat.eq_zero_of_not_pos hskip) hheader (header_fits hheader hfit) hall
      hhandle (fair_lasting hgrows hok) with ⟨_, hread, _, hinput⟩ | ⟨⟨⟩, _⟩
    refine ih hread hquiet ?_ hok
    have hall : ¬ s.core.input.length - at_ < header.headerLen + header.remaining := hall
    rw [hinput]
    omega

end Inkwell.Mqtt
