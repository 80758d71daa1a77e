import Mathlib.Data.List.GetD
import Inkwell.Net.Mqtt.Api
import Inkwell.Net.Mqtt.Lifecycle

namespace Inkwell.Mqtt
open Net

inductive Sends (o : Outbound) (t : List Event) : Outbound → List Event → Prop
  | refl : Sends o t o t
  | tail (h : Sends o t o₁ t₁) (hs : Send o₁ t₁ o₂ t₂) : Sends o t o₂ t₂

theorem Sends.head (hs : Send o t o₁ t₁) (h : Sends o₁ t₁ o₂ t₂) : Sends o t o₂ t₂ := by
  induction h with
  | refl => exact .tail .refl hs
  | tail _ hl ih => exact .tail ih hl

theorem Tls.translate_ne_enospc (t : Tls.Session) : (t.translate code).1 ≠ .enospc := by
  cases code <;> exact nofun

theorem socketResult_error :
    socketResult (.error e : Except Errno α) = .error (if e = .eintr then .eagain else e) := by
  cases e <;> rfl

theorem sendResult_within (h : sendResult len answer = .ok n) : n ≤ len := by
  cases answer with
  | none => cases h
  | some r =>
    cases r with
    | ok =>
      cases h
      exact min_le_right _ _
    | error =>
      rw [sendResult, socketResult_error] at h
      cases h

theorem sendResult_ne_enospc : sendResult len answer ≠ .error .enospc := by
  cases answer with
  | none => exact nofun
  | some r =>
    cases r with
    | ok => exact nofun
    | error e =>
      rw [sendResult, socketResult_error]
      split
      · exact nofun
      · intro h
        exact e.not_full (by injection h)

theorem Tls.write_within {t : Tls.Session} (h : (t.write len answer).1 = .ok n) : n ≤ len := by
  cases answer with
  | ok =>
    cases h
    exact min_le_right _ _
  | error => cases h

theorem Tls.write_ne_enospc (t : Tls.Session) : (t.write len answer).1 ≠ .error .enospc := by
  cases answer with
  | ok => exact nofun
  | error =>
    intro h
    exact translate_ne_enospc t (by injection h)

theorem rawWrite_spec (x : Sender) (data : Bytes) :
    (rawWrite x data).2.out = x.out ∧
      (rawWrite x data).2.trace = .offered x.tls.started data (.of (rawWrite x data).1) :: x.trace ∧
      (∀ n, (rawWrite x data).1 = .ok n → n ≤ data.length) ∧
      (rawWrite x data).1 ≠ .error .enospc := by
  unfold rawWrite
  cases hs : x.tls.started with
  | true => exact ⟨rfl, rfl, fun n hn => Tls.write_within hn, Tls.write_ne_enospc _⟩
  | false => exact ⟨rfl, rfl, fun n hn => sendResult_within hn, sendResult_ne_enospc⟩

def Event.writeFailed : Event → Bool
  | .offered _ _ (.refused _) => true
  | _ => false

theorem flushLoop_sends (b : Bool) (x : Sender) :
    Sends x.out x.trace (flushLoop fuel b x).2.2.out (flushLoop fuel b x).2.2.trace ∧
      (flushLoop fuel b x).1 ≠ some .enospc ∧
      ((flushLoop fuel b x).1 ≠ none →
        ∃ e, (flushLoop fuel b x).2.2.trace.head? = some e ∧ e.writeFailed) := by
  induction fuel generalizing b x with
  | zero => exact ⟨.refl, by simp [flushLoop], fun h => absurd rfl h⟩
  | succ _ ih =>
    unfold flushLoop
    split
    · rename_i hleft
      obtain ⟨hout, htrace, hwithin, hfull⟩ := rawWrite_spec x x.out.offer
      have hoffer : (x.out.bytes.drop x.out.sent).take x.out.chunk = x.out.offer := rfl
      simp only [hoffer]
      generalize rawWrite x x.out.offer = w at *
      obtain ⟨_, x'⟩ := w
      simp only at hout htrace hwithin hfull
      split
      · rename_i hw
        cases hw
        refine ⟨?_, by simp, fun h => absurd rfl h⟩
        simp only [hout, htrace]
        exact .tail .refl (.blocked _ hleft)
      · rename_i e _ hne hw
        cases hw
        have ho : Offer.of (.error e) = .refused e := by
          cases e <;> first | rfl | exact absurd rfl hne
        refine ⟨?_, fun h => hfull (by rw [Option.some.inj h]), ?_⟩
        · rw [hout, htrace, ho]
          exact .tail .refl (.refused _ e)
        · intro _
          rw [htrace, ho]
          exact ⟨_, rfl, rfl⟩
      · rename_i n _ hw
        cases hw
        obtain ⟨hrest, hne⟩ := ih true { x' with
          out := { x'.out with pending := 0, sent := x'.out.sent + n } }
        refine ⟨.head ?_ hrest, hne⟩
        simp only [hout, htrace]
        exact .accepted _ n (hwithin n rfl)
    · exact ⟨.refl, by simp, fun h => absurd rfl h⟩

theorem mqttArm_core : (mqttArm s).core = s.core := by
  unfold mqttArm
  simp only
  split <;> rfl

theorem mqttFlush_core (s : Sys) :
    (mqttFlush s).1 ≠ some .enospc ∧
    ∃ o t, Sends s.client.out s.trace o t ∧
      (mqttFlush s).2.core = { s.core with out := o, trace := t } ∧
      ((mqttFlush s).1 ≠ none → ∃ e, t.head? = some e ∧ e.writeFailed) := by
  obtain ⟨hsends, hne, hfailed⟩ := flushLoop_sends false s.sender
  unfold mqttFlush
  generalize flushLoop (s.client.out.bytes.length + 1) false s.sender = w at *
  obtain ⟨r, _, x⟩ := w
  cases r with
  | some => exact ⟨hne, x.out, x.trace, hsends, rfl, hfailed⟩
  | none =>
    refine ⟨nofun, x.out.drained, x.trace, ?_, ?_, fun h => absurd rfl h⟩
    · unfold Outbound.drained
      split
      · exact hsends.tail (.drained ‹_›)
      · exact hsends
    · simp only [mqttArm_core]
      split <;> rfl

/-- There is no room and the queue is at most compacted, or the packet goes behind what is queued
and writes follow. -/
theorem mqttQueue_core : ∃ o, (o = s.client.out ∨ o = compactOut s.client.out) ∧
      ((mqttQueue s packet).1 = some .enospc ∧
          (mqttQueue s packet).2.core = { s.core with out := o } ∨
        (mqttQueue s packet).1 ≠ some .enospc ∧
          ∃ o' t, Sends (o.append packet) (.queued packet :: s.trace) o' t ∧
            (mqttQueue s packet).2.core = { s.core with out := o', trace := t } ∧
            ((mqttQueue s packet).1 ≠ none → ∃ e, t.head? = some e ∧ e.writeFailed)) := by
  unfold mqttQueue
  simp only
  split
  · refine ⟨compactOut s.client.out, .inr rfl, ?_⟩
    split
    · exact .inl ⟨rfl, rfl⟩
    · obtain ⟨hne, hcore⟩ := mqttFlush_core (((s.setOut (compactOut s.client.out)).setOut
        ((compactOut s.client.out).append packet)).log (.queued packet))
      exact .inr ⟨hne, hcore⟩
  · obtain ⟨hne, hcore⟩ := mqttFlush_core ((s.setOut (s.client.out.append packet)).log
      (.queued packet))
    exact ⟨s.client.out, .inl rfl, .inr ⟨hne, hcore⟩⟩

theorem Sends.steps (h : Sends c.out c.trace o t) (hv : Live who c) :
    Steps who c { c with out := o, trace := t } := by
  induction h with
  | refl => exact .refl
  | tail _ hs ih => exact ih.trans (.one (.send hv hs))

def Reenters (cb : Sys → Sys) : Prop := ∀ s, Quiet s.core → Calls s.core (cb s).core

theorem Reenters.called (hcb : Reenters cb) (s : Sys) (hq : Quiet s.core) (who : Role) :
    Steps who s.core (cb (s.log (.called s.client))).core := by
  have hcalled : Act who s.core (s.log (.called s.client)).core := .called s.client rfl
  exact (Steps.one hcalled).trans ((hcb _ (hcalled.quiet hq)).steps)

theorem setState_steps (hcb : Reenters cb) (s : Sys) (st : State)
    (hq : Quiet (s.core.enter st)) : Steps who (s.core.enter st) (setState cb s st).2.core := by
  unfold setState
  split
  · rename_i h
    have henter : s.core.enter st = s.core := if_pos h
    rw [henter]
    exact .refl
  · rename_i h
    have henter : s.core.enter st =
        (({ s with client := { s.client with state := st } } : Sys).log (.entered st)).core :=
      if_neg h
    rw [henter] at hq ⊢
    simp only
    split
    · exact hcb.called _ hq who
    · exact .refl

theorem setState_fst (cb : Sys → Sys) (s : Sys) (st : State) :
    (setState cb s st).1 = ((setState cb s st).2.client.generation == s.client.generation) := by
  unfold setState
  split
  · exact (beq_self_eq_true _).symm
  · simp only
    split
    · rfl
    · exact (beq_self_eq_true _).symm

theorem backedOff_core : (backedOff (recordFailure s f)).core.enter .waiting = s.core.failed f := by
  unfold recordFailure
  simp only
  split
  · rename_i h
    have hset : s.core.failure.isSet := h
    rw [Core.failed, if_pos hset]
    rfl
  · rename_i h
    have hset : ¬ s.core.failure.isSet := h
    rw [Core.failed, if_neg hset]
    rfl

theorem fail_calls (hcb : Reenters cb) (hq : Quiet (s.core.failed f)) :
    Calls (s.core.failed f) (backOff cb (recordFailure s f)).core := by
  rw [← backedOff_core] at hq ⊢
  exact setState_steps hcb _ _ hq

theorem net_oneHalf (h : reason ≠ .ok) : Failure.OneHalf { reason, detail } := .inl ⟨h, rfl⟩

theorem own_oneHalf (h : refusal ≠ .none) : Failure.OneHalf { refusal, code } := .inr ⟨rfl, h⟩

section
variable (hcb : Reenters cb) (hq : Quiet c)
include hcb hq

theorem enter_steps (h : Act who c (s.core.enter st)) : Steps who c (setState cb s st).2.core :=
  (Steps.one h).trans (setState_steps hcb s st (h.quiet hq))

theorem fail_steps (h : Act who c (s.core.failed f)) :
    Steps who c (backOff cb (recordFailure s f)).core :=
  (Steps.one h).trans ((fail_calls hcb (h.quiet hq)).steps)

theorem failNet_steps (hv : Live who c) (hc : s.core = c) (h : reason ≠ .ok) :
    Steps who c (failNet cb s reason detail).core := by
  subst hc
  exact fail_steps hcb hq (.failed hv _ (net_oneHalf h) (.inl rfl))

theorem failOwn_steps (hv : Live who c) (hc : s.core = c) (h : refusal ≠ .none)
    (hb : Failure.byBroker { refusal, code } = false ∨ who = .reader) :
    Steps who c (failOwn cb s refusal code).core := by
  subst hc
  exact fail_steps hcb hq (.failed hv _ (own_oneHalf h) hb)

end

theorem encodeSubscribe_held (hne : filter ≠ []) (hlen : filter.length < filterMax)
    (hn : n ≠ 0) : ∃ packet, encodeSubscribe (filterMax + 16) n filter = .ok packet := by
  have hw : ∀ k, k < 16384 → varintWidth k ≤ 2 := by
    intro k _
    simp only [varintWidth, varintWidthGroups]
    split
    · rw [if_neg (by omega)]
    · omega
  simp only [filterMax] at hlen
  have hbody : (writeU16 n ++ writeString filter ++ [0]).length = filter.length + 5 := by
    simp [writeU16, writeString]
  have hwidth := hw (filter.length + 5) (by omega)
  unfold encodeSubscribe
  rw [if_neg hn, if_neg (by simp [hne, stringMax]; omega), wholePacket, hbody, beginPacket,
    if_neg (by simp only [remainingMax]; omega), if_neg (by simp only [filterMax]; omega)]
  exact ⟨_, rfl⟩

theorem Quiet.ready_live (hq : Quiet c) (hr : c.state = .ready) (who : Role) : Live who c :=
  ⟨hq.socket.mpr (by rw [hr]; rfl), .inr hr⟩

/-- Nothing, a packet without room, a packet sent, or the end of the connection because a write
failed. -/
inductive Pumping (cb : Sys → Sys) (s : Sys) : Sys → Prop
  | idle (h : s.client.state ≠ .ready ∨ s.client.subscribeId ≠ 0 ∨
      s.client.filterSent ≥ s.client.filters.length) : Pumping cb s s
  | noRoom (hr : s.client.state = .ready) (hi : s.client.subscribeId = 0)
      (hf : s.client.filterSent < s.client.filters.length) (o : Outbound)
      (ho : o = s.client.out ∨ o = compactOut s.client.out)
      (hcore : s'.core = { s.core with
        out := o
        trace := .noRoom ::
          .filterRead s.client.filterSent s.client.filters.length :: s.trace }) :
    Pumping cb s s'
  | sent (hpump : Pump s.core c) (hsends : Sends c.out c.trace o t) (hv : c.state = .ready)
      (hcore : s'.core = { c with out := o, trace := t }) : Pumping cb s s'
  | failed (hpump : Pump s.core c) (hsends : Sends c.out c.trace o t) (hv : c.state = .ready)
      (hcore : s'.core = { c with out := o, subscribeId := s.client.subscribeId, trace := t })
      (hfailed : ∃ e ∈ t, e.writeFailed) : Pumping cb s (failNet cb s' .closed .none)

theorem mqttPumpSubscribes_pumping (cb : Sys → Sys) (hq : Quiet s.core) :
    Pumping cb s (mqttPumpSubscribes cb s) := by
  unfold mqttPumpSubscribes pumpSubscribes
  simp only
  split
  · rename_i h
    exact .idle (h.imp_right .inl)
  rename_i h
  obtain ⟨hr, hi⟩ : s.client.state = .ready ∧ s.client.subscribeId = 0 := by simpa [not_or] using h
  split
  · rename_i hf
    exact .idle (.inr (.inr hf))
  rename_i hf
  have hf : s.client.filterSent < s.client.filters.length := lt_of_not_ge hf
  have hcount : s.client.filters.length ≤ 16 := hq.filters.count
  have hid : (s.client.filterSent + 1) % 65536 = s.client.filterSent + 1 :=
    Nat.mod_eq_of_lt (by omega)
  have hmem : s.client.filters.getD s.client.filterSent [] ∈ s.client.filters := by
    rw [List.getD_eq_getElem _ _ hf]
    exact List.getElem_mem hf
  obtain ⟨hne, hlen⟩ := hq.filters.sized _ hmem
  rw [hid]
  obtain ⟨packet, hpacket⟩ := encodeSubscribe_held hne hlen (Nat.succ_ne_zero s.client.filterSent)
  have hread := readPacket_encodeSubscribe hpacket (by simp only [stringMax]; omega)
  simp only [hpacket]
  obtain ⟨o, ho, hqueue⟩ := mqttQueue_core
  generalize mqttQueue (s.log (.filterRead s.client.filterSent s.client.filters.length)) packet
    = w at *
  obtain ⟨r, s'⟩ := w
  rcases hqueue with ⟨hfull, hcore⟩ | ⟨hnotFull, _, t, hsends, hcore, hfailed⟩
  · subst hfull
    refine .noRoom hr hi hf o ho ?_
    have hlog : (s'.log .noRoom).core = s'.core.log .noRoom := rfl
    rw [hlog, hcore]
    rfl
  · have hpump := Pump.subscribe (c := s.core) hr hi hf packet hread o ho
    cases r with
    | none =>
      refine .sent hpump hsends hr ?_
      have hset : ({ s' with client := { s'.client with
          subscribeId := s.client.filterSent + 1 } } : Sys).core =
          { s'.core with subscribeId := s.client.filterSent + 1 } := rfl
      rw [hset, hcore]
      rfl
    | some e =>
      obtain ⟨e', hhead, hrefused⟩ := hfailed (by simp)
      have hend : Pumping cb s (failNet cb s' .closed .none) :=
        .failed hpump hsends hr hcore ⟨e', List.mem_of_mem_head? hhead, hrefused⟩
      cases e <;> first | exact hend | exact absurd rfl hnotFull

theorem mqttPumpSubscribes_steps (hcb : Reenters cb) (hq : Quiet s.core) (who : Role) :
    ∃ c, Pump s.core c ∧ Steps who c (mqttPumpSubscribes cb s).core := by
  have hpumping := mqttPumpSubscribes_pumping cb hq
  generalize mqttPumpSubscribes cb s = w at *
  cases hpumping with
  | idle h => exact ⟨s.core, .idle h, .refl⟩
  | noRoom hr hi hf o ho hcore =>
    refine ⟨_, .noRoom hr hi hf o ho, ?_⟩
    rw [hcore]
    exact .refl
  | @sent c o t _ hpump hsends hv hcore =>
    refine ⟨c, hpump, ?_⟩
    rw [hcore]
    exact hsends.steps ((hpump.quiet hq).ready_live hv who)
  | @failed c o t s' hpump hsends hv hcore hfailed =>
    have hsent := hsends.steps ((hpump.quiet hq).ready_live hv who)
    have hq' := hsent.quiet (hpump.quiet hq)
    have hend : Act who { c with out := o, trace := t }
        (s'.core.failed { reason := .closed, detail := .none }) := by
      have hfailed := Act.failed (hq'.ready_live hv who)
        { reason := .closed, detail := .none } (net_oneHalf nofun) (.inl rfl)
      rw [hcore]
      exact hfailed
    exact ⟨c, hpump, hsent.trans (fail_steps hcb hq' hend)⟩

theorem mqttQueue_fields :
    ∃ o t, (mqttQueue s packet).2.core = { s.core with out := o, trace := t } := by
  obtain ⟨o, _, ⟨_, hcore⟩ | ⟨_, o', t, _, hcore, _⟩⟩ := mqttQueue_core
  · exact ⟨o, s.trace, hcore⟩
  · exact ⟨o', t, hcore⟩

theorem mqttQueue_live (hv : Live who s.core) (packet : Bytes) :
    Live who (mqttQueue s packet).2.core := by
  obtain ⟨_, _, hcore⟩ := mqttQueue_fields
  rw [hcore]
  exact hv

theorem mqttQueue_steps (hv : Live who s.core) (hp : readPacket packet = some p)
    (hn : ∀ n f q, p ≠ .subscribe n f q) : Steps who s.core (mqttQueue s packet).2.core := by
  obtain ⟨o, ho, hqueue⟩ := mqttQueue_core
  have hpacked : Steps who s.core { s.core with out := o } := by
    rcases ho with rfl | rfl
    · exact .refl
    · exact .one (.send hv .compacted)
  rcases hqueue with ⟨_, hcore⟩ | ⟨_, _, t, hsends, hcore, _⟩
  · rw [hcore]
    exact hpacked
  · have hqueued : Act who { s.core with out := o } { s.core with
        out := o.append packet, trace := .queued packet :: s.trace } :=
      Act.queued (c := { s.core with out := o }) hv packet p hp hn
    rw [hcore]
    exact hpacked.trans ((Steps.one hqueued).trans (hsends.steps hv))

theorem mqttOpen_steps (hcb : Reenters cb) (hq : Quiet c) (h : Prelude who c s.core) :
    Steps who c (mqttOpen cb s).core := by
  unfold mqttOpen next
  simp only
  split
  · exact fail_steps hcb hq (.missed h _ (net_oneHalf reasonFromErrno_ne_ok) rfl)
  · split
    · exact fail_steps hcb hq (.missed h _ (net_oneHalf reasonFromErrno_ne_ok) rfl)
    · split
      · exact fail_steps hcb hq
          (.refused h s.client.stats ⟨rfl, rfl⟩ _ (net_oneHalf reasonFromErrno_ne_ok) rfl)
      · exact enter_steps hcb hq (.connect h s.client.stats ⟨rfl, rfl⟩
          (s.client.nowMs + connectTimeoutMs) (Nat.succ_ne_zero _))

theorem mqttAttempt_steps (hcb : Reenters cb) (hq : Quiet c)
    (h : Prelude who c s.core.attempting) : Steps who c (mqttAttempt cb s).core := by
  unfold mqttAttempt next
  simp only
  split
  · exact mqttOpen_steps hcb hq h
  · split
    · exact fail_steps hcb hq (.missed h _ (net_oneHalf nofun) rfl)
    · exact enter_steps hcb hq (.lookUp h)

theorem sayGoodbye_core :
    ∃ t, Goodbye s.core t ∧ (sayGoodbye s).core = { s.core with trace := t } := by
  unfold sayGoodbye
  split
  · rename_i hr
    have hpacket : encodeEmpty 2 .disconnect = .ok disconnectPacket := rfl
    obtain ⟨hout, htrace, hwithin, _⟩ :=
      rawWrite_spec (s.log .disconnecting).sender disconnectPacket
    rw [hpacket]
    simp only
    generalize rawWrite (s.log .disconnecting).sender disconnectPacket = w at *
    obtain ⟨r, x⟩ := w
    refine ⟨x.trace, ?_, ?_⟩
    · rw [htrace]
      refine .said hr _ _ ?_
      cases r with
      | ok n => exact hwithin n rfl
      | error e => cases e <;> trivial
    · have hcore : ((s.log .disconnecting).withSender x).core =
          { s.core with out := x.out, trace := x.trace } := rfl
      rw [hcore, hout]
      rfl
  · rename_i hr
    exact ⟨s.trace, .silent hr, rfl⟩

section
variable {s : Sys} (hcb : Reenters cb) (hq : Quiet s.core)
include hcb hq

theorem clientStart_calls :
    Calls s.core (clientStart cb s config onMessage onState nowMs).2.core := by
  unfold clientStart
  iterate 3
    split
    · exact .refl
  · exact mqttAttempt_steps hcb hq (.start nowMs onMessage)

theorem clientStop_calls : Calls s.core (clientStop cb s).core := by
  unfold clientStop
  split
  · exact .refl
  · rename_i hoff
    obtain ⟨t, hg, hcore⟩ := sayGoodbye_core
    have hstopped : (silenced (sayGoodbye s)).core.enter .off = s.core.stopped t := by
      have hsilenced : (silenced (sayGoodbye s)).core = { (sayGoodbye s).core.closed with
          generation := (sayGoodbye s).core.generation + 1, failure := {}, failures := 0
          retryAtMs := 0, trace := .stopped :: (sayGoodbye s).core.trace } := rfl
      rw [hsilenced, hcore]
      rfl
    exact enter_steps hcb hq (hstopped ▸ .stopped hoff hg)

theorem clientSubscribe_calls : Calls s.core (clientSubscribe cb s filter).2.core := by
  unfold clientSubscribe
  split
  · exact .refl
  · rename_i hbad
    split
    · exact .refl
    · rename_i hheld
      split
      · exact .refl
      · rename_i hfull
        obtain ⟨hne, hlen⟩ : filter ≠ [] ∧ filter.length < _ := by simpa using hbad
        have hnew : filter ∉ s.client.filters := by simpa using hheld
        have hroom : s.client.filters.length < filtersMax := lt_of_not_ge hfull
        have hq' : Quiet ({ s with client := { s.client with
            filters := s.client.filters ++ [filter] } } : Sys).core :=
          hq.frame rfl rfl rfl rfl rfl rfl (.refl) (fun _ => ⟨rfl, rfl, rfl⟩)
            (hq.filters.add hne hlen hnew hroom)
        obtain ⟨_, hpump, hsteps⟩ := mqttPumpSubscribes_steps hcb hq' .app
        exact (Steps.one (.addFilter filter hne hlen hnew hroom hpump)).trans hsteps

theorem clientPublish_calls : Calls s.core (clientPublish cb s topic payload retained).2.core := by
  unfold clientPublish
  split
  · exact .refl
  · rename_i hready
    have hr : s.client.state = .ready := by simpa using hready
    split
    · exact .refl
    · rename_i htopic
      have ht : topicIsPublishable topic = true := by simpa using htopic
      split
      · exact .refl
      · rename_i packet hpacket
        have hlive := hq.ready_live hr .app
        have hqueue := mqttQueue_steps hlive (readPacket_encodePublish hpacket ht) (by simp)
        have hlive' := mqttQueue_live hlive packet
        generalize mqttQueue s packet = w at *
        obtain ⟨_, s'⟩ := w
        have hfail : Calls s.core (failNet cb s'.countDropped .closed .none).core := by
          have hend : Calls s'.core (failNet cb s'.countDropped .closed .none).core :=
            failNet_steps hcb (hqueue.quiet hq) hlive' rfl (by simp)
          exact hqueue.trans hend
        split
        · rename_i heq
          cases heq
          exact hqueue
        · rename_i heq
          cases heq
          exact hfail
        · rename_i heq
          cases heq
          exact hqueue

theorem apiCall_calls (call : ApiCall) : Calls s.core (apiCall cb s call).core := by
  cases call with
  | start => exact clientStart_calls hcb hq
  | stop => exact clientStop_calls hcb hq
  | subscribe => exact clientSubscribe_calls hcb hq
  | clearFilters => exact .one .cleared
  | publish => exact clientPublish_calls hcb hq

end

theorem apiCalls_calls (hcb : Reenters cb) (calls : List ApiCall) (hq : Quiet s.core) :
    Calls s.core (calls.foldl (apiCall cb) s).core := by
  induction calls generalizing s with
  | nil => exact .refl
  | cons call _ ih =>
    have hfirst := apiCall_calls hcb hq call
    exact hfirst.trans (ih (hfirst.quiet hq))

theorem callback_reenters (depth : Nat) : Reenters (callback depth) := by
  induction depth with
  | zero =>
    intro s _
    exact .refl
  | succ _ ih =>
    intro s hq
    exact apiCalls_calls ih (s.world.app.headD []) (s := { s with
      world := { s.world with app := s.world.app.tail } }) hq

end Inkwell.Mqtt
