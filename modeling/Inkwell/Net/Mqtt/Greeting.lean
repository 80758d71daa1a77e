import Inkwell.Library.History
import Inkwell.Net.Mqtt.Stream

namespace Inkwell.Mqtt
open Library

def welcomed : List Event → Bool
  | [] => false
  | .opened _ :: _ => false
  | .entered .ready :: _ => true
  | _ :: t => welcomed t

def Admitted : Event → List Event → Prop
  | .delivered .., before => welcomed before
  | .verdict .., before => welcomed before
  | _, _ => True

/-- Whether the first packet of a stream, if it has one, is a CONNACK the inbound buffer holds. -/
def connackFirst (stream : Bytes) : Bool :=
  match decodeHeader stream with
  | .ok header => header.type == .connack && header.headerLen + header.remaining ≤ packetMax
  | _ => true

def Courteous (t : List Event) : Prop := ∀ u ∈ t.tails, connackFirst (readBytes u)

theorem courteous_lasting : Lasting Courteous := lasting_tails (fun u => connackFirst (readBytes u))

theorem Courteous.here (h : Courteous t) : connackFirst (readBytes t) :=
  h t ((List.mem_tails _ _).mpr List.suffix_rfl)

def Event.passing : Event → Bool
  | .opened _ | .read _ | .delivered .. | .verdict .. => false
  | .entered st => st != .ready
  | _ => true

structure SameWelcome (t t' : List Event) : Prop where
  bytes : readBytes t' = readBytes t
  welcomed : welcomed t' = welcomed t
  always : Always Admitted t → Always Admitted t'

theorem SameWelcome.refl (t : List Event) : SameWelcome t t := ⟨rfl, rfl, fun h => h⟩

theorem SameWelcome.one (he : e.passing) (t : List Event) : SameWelcome t (e :: t) := by
  cases e with
  | opened | read | delivered | verdict => cases he
  | entered st =>
    cases st with
    | ready => cases he
    | _ => exact ⟨rfl, rfl, fun h => h.cons trivial⟩
  | _ => exact ⟨rfl, rfl, fun h => h.cons trivial⟩

theorem SameWelcome.cons (h : SameWelcome t t') (he : e.passing) : SameWelcome t (e :: t') :=
  have hone : SameWelcome t' (e :: t') := .one he t'
  ⟨hone.bytes.trans h.bytes, hone.welcomed.trans h.welcomed, fun ha => hone.always (h.always ha)⟩

theorem Send.welcome (h : Send o t o' t') : SameWelcome t t' := by
  cases h with
  | accepted | blocked | refused => exact .one rfl _
  | drained | compacted => exact .refl _

theorem Goodbye.welcome (h : Goodbye c t) : SameWelcome c.trace t := by
  cases h with
  | silent => exact .refl _
  | said => exact (SameWelcome.one rfl _).cons rfl

/-- Until its CONNACK a connection has all it read still in its buffer and nothing subscribed. -/
structure Orderly (c : Core) : Prop where
  always : Always Admitted c.trace
  welcomed : c.state = .ready → welcomed c.trace
  unread : c.socket → c.state ≠ .ready → c.input = readBytes c.trace ∧ c.skipRemaining = 0
  idle : c.socket = false → c.input = [] ∧ c.skipRemaining = 0
  before : c.state ≠ .ready → c.filterSent = 0 ∧ c.subscribeId = 0

theorem Orderly.frame (h : Orderly c) (hs : SameWelcome c.trace c'.trace)
    (hstate : c'.state = c.state) (hsocket : c'.socket = c.socket) (hinput : c'.input = c.input)
    (hskip : c'.skipRemaining = c.skipRemaining)
    (hbefore : c.state ≠ .ready → c'.filterSent = 0 ∧ c'.subscribeId = 0) : Orderly c' where
  always := hs.always h.always
  welcomed := by rw [hstate, hs.welcomed]; exact h.welcomed
  unread := by rw [hsocket, hstate, hinput, hskip, hs.bytes]; exact h.unread
  idle := by rw [hsocket, hinput, hskip]; exact h.idle
  before := by rw [hstate]; exact hbefore

theorem Orderly.enter {c : Core} (h : Orderly { c with state := st }) (hst : st ≠ .ready) :
    Orderly (c.enter st) := by
  have hpassing : (Event.entered st).passing := bne_iff_ne.mpr hst
  exact enter_induction h (h.frame (.one hpassing _) rfl rfl rfl rfl h.before)

theorem orderly_shut {c : Core} (ha : Always Admitted c.trace) (hr : c.state ≠ .ready)
    (hsocket : c.socket = false) (hempty : c.input = [] ∧ c.skipRemaining = 0)
    (hbefore : c.filterSent = 0 ∧ c.subscribeId = 0) : Orderly c where
  always := ha
  welcomed h := absurd h hr
  unread h := by
    rw [hsocket] at h
    cases h
  idle _ := hempty
  before _ := hbefore

theorem orderly_failed {c : Core} (ha : Always Admitted c.trace) : Orderly (c.failed f) := by
  have hfailed : Always Admitted (.failed f :: c.trace) := ha.cons trivial
  apply Orderly.enter
  · apply orderly_shut
    · exact hfailed.cons trivial
    · exact nofun
    · rfl
    · exact ⟨rfl, rfl⟩
    · exact ⟨rfl, rfl⟩
  · exact nofun

theorem Prelude.orderly (h : Prelude who c b) (hq : Quiet c) (ho : Orderly c) :
    Always Admitted b.trace ∧ (b.input = [] ∧ b.skipRemaining = 0) ∧
      (b.filterSent = 0 ∧ b.subscribeId = 0) := by
  obtain ⟨_, hs, _, _⟩ := h.clean hq
  cases h with
  | start _ onMessage =>
    have hstarted : Always Admitted (.started onMessage :: c.trace) := ho.always.cons trivial
    exact ⟨hstarted.cons trivial, ⟨rfl, rfl⟩, ⟨rfl, rfl⟩⟩
  | retry _ h nowMs =>
    have hretried : Always Admitted (.retried nowMs :: c.trace) := ho.always.cons trivial
    exact ⟨hretried.cons trivial, ho.idle hs, ho.before (by rw [h]; decide)⟩
  | resolved _ h => exact ⟨ho.always, ho.idle hs, ho.before (by rw [h]; decide)⟩

theorem Pump.orderly (h : Pump c c') (ho : Orderly c) : Orderly c' := by
  cases h with
  | idle => exact ho
  | subscribe hr
  | noRoom hr =>
    exact ho.frame ((SameWelcome.one rfl _).cons rfl) rfl rfl rfl rfl (fun h => absurd hr h)

theorem orderly_kept : Kept .loop (fun _ => True) Orderly := by
  intro c _ hq ho ha _
  cases ha with
  | clock => exact ho.frame (.refl _) rfl rfl rfl rfl ho.before
  | called | queued => exact ho.frame (.one rfl _) rfl rfl rfl rfl ho.before
  | moved hl => cases hl
  | received hl => cases hl
  | skipped hl => cases hl
  | delivered hl => cases hl
  | send _ h => exact ho.frame h.welcome rfl rfl rfl rfl ho.before
  | failed => exact orderly_failed ho.always
  | connect h =>
    obtain ⟨halways, hempty, hbefore⟩ := h.orderly hq ho
    exact Orderly.enter ⟨halways.cons trivial, nofun, fun _ _ => hempty, nofun, fun _ => hbefore⟩
      nofun
  | lookUp h =>
    obtain ⟨halways, hempty, hbefore⟩ := h.orderly hq ho
    obtain ⟨_, hsocket, _, _⟩ := h.clean hq
    exact Orderly.enter (orderly_shut halways nofun hsocket hempty hbefore) nofun
  | missed h => exact orderly_failed (h.orderly hq ho).1
  | refused h => exact orderly_failed ((h.orderly hq ho).1.cons trivial)
  | secure _ _ hr =>
    exact Orderly.enter ⟨ho.always, nofun, fun h _ => ho.unread h hr, ho.idle,
      fun _ => ho.before hr⟩ nofun
  | greet _ _ hr =>
    exact Orderly.enter ⟨ho.always, nofun, fun h _ => ho.unread h hr, ho.idle,
      fun _ => ho.before hr⟩ nofun
  | ignored hl => cases hl
  | answered hl => cases hl
  | addFilter _ _ _ _ _ h => exact h.orderly (ho.frame (.refl _) rfl rfl rfl rfl ho.before)
  | cleared => exact ho.frame (.one rfl _) rfl rfl rfl rfl (fun _ => ⟨rfl, rfl⟩)
  | @stopped t h hg =>
    have hstopped : Always Admitted (.stopped :: t) := (hg.welcome.always ho.always).cons trivial
    exact Orderly.enter (orderly_shut hstopped nofun rfl ⟨rfl, rfl⟩ ⟨rfl, rfl⟩) nofun
  | shutdown => exact orderly_shut (ho.always.cons trivial) nofun rfl ⟨rfl, rfl⟩ ⟨rfl, rfl⟩

theorem Steps.orderly (h : Steps .loop c c') (hq : Quiet c) (ho : Orderly c) : Orderly c' := by
  have hl : Lasting (fun _ => True) := fun _ _ => trivial
  exact h.keeps hl orderly_kept hq ho trivial

theorem Orderly.ready (h : Orderly c) (hr : c.state = .ready)
    (ha : Always Admitted c'.trace) (hw : Mqtt.welcomed c'.trace = Mqtt.welcomed c.trace)
    (hstate : c'.state = .ready) (hsocket : c'.socket) : Orderly c' where
  always := ha
  welcomed _ := by rw [hw]; exact h.welcomed hr
  unread _ hn := absurd hstate hn
  idle h := by
    rw [hsocket] at h
    cases h
  before hn := absurd hstate hn

theorem pump_orderly (hcb : Reenters cb) (hq : Quiet s.core) (ho : Orderly s.core) :
    Orderly (mqttPumpSubscribes cb s).core := by
  obtain ⟨c, hpump, hsteps⟩ := mqttPumpSubscribes_steps hcb hq .loop
  exact hsteps.orderly (hpump.quiet hq) (hpump.orderly ho)

theorem Orderly.accepted (ho : Orderly c) (hs : c.socket) (hg : c.state = .greeting) :
    Orderly c.accepted := by
  have henter : c.accepted = { c with
      failures := 0, deadlineMs := 0, failure := {}, state := .ready
      trace := .entered .ready :: c.trace } := if_neg (by rw [hg]; decide)
  rw [henter]
  refine ⟨ho.always.cons trivial, fun _ => rfl, fun _ h => absurd rfl h, ?_, fun h => absurd rfl h⟩
  intro hnone
  rw [hs] at hnone
  cases hnone

theorem Orderly.answered {c : Core} (ho : Orderly c) (hr : c.state = .ready)
    (hs : c.socket) (code : UInt8) : Orderly (c.answered c.subscribeId code) := by
  have hsuback : SameWelcome c.trace (.suback c.subscribeId c.subscribeId code :: c.trace) :=
    .one rfl _
  have hw := ho.welcomed hr
  unfold Core.answered
  split
  · have hread := hsuback.cons (e := .filterRead c.filterSent c.filters.length) rfl
    have hadmitted : Admitted (.verdict (c.filters.getD c.filterSent []) code) _ :=
      hread.welcomed.trans hw
    exact ho.ready hr ((hread.always ho.always).cons hadmitted) hread.welcomed hr hs
  · have hadmitted : Admitted (.verdict (c.filters.getD c.filterSent []) code) _ :=
      hsuback.welcomed.trans hw
    exact ho.ready hr ((hsuback.always ho.always).cons hadmitted) hsuback.welcomed hr hs

theorem Orderly.first_packet (ho : Orderly c) (hs : c.socket) (hr : c.state ≠ .ready)
    (hok : Courteous c.trace) (hheader : decodeHeader c.input = .ok header) :
    header.type = .connack ∧ header.headerLen + header.remaining ≤ packetMax := by
  have hfirst := hok.here
  rw [← (ho.unread hs hr).1, connackFirst, hheader] at hfirst
  simpa using hfirst

theorem Orderly.next_packet (ho : Orderly c) (hs : c.socket) (hat : c.state ≠ .ready → at_ = 0)
    (hok : Courteous c.trace) (hheader : decodeHeader (c.input.drop at_) = .ok header)
    (hr : c.state ≠ .ready) : header.type = .connack := by
  rw [hat hr, List.drop_zero] at hheader
  exact (ho.first_packet hs hr hok hheader).1

theorem Orderly.skipping (ho : Orderly c) (hs : c.socket) (hskip : c.skipRemaining > 0) :
    c.state = .ready := by
  by_contra hr
  exact ne_of_gt hskip (ho.unread hs hr).2

theorem Orderly.compact (ho : Orderly s.core) (hs : s.core.socket)
    (hat : s.core.state ≠ .ready → at_ = 0) : Orderly (compactIn s at_).core := by
  by_cases hr : s.core.state = .ready
  · exact ho.ready hr ho.always rfl hr hs
  · have hinput : (compactIn s at_).core.input = s.core.input := by
      rw [hat hr]
      rfl
    exact ho.frame (.refl _) rfl rfl hinput rfl ho.before

section
variable {s : Sys} (hcb : Reenters cb) (hq : Quiet s.core) (hs : s.core.socket)
  (ho : Orderly s.core)
include hcb hq hs ho

theorem failOwn_orderly (hrefusal : refusal ≠ .none) :
    Orderly (failOwn cb s refusal code).core := by
  have hquiet : Quiet (s.core.failed { refusal, code }) :=
    quiet_failed (hq.fresh_of_socket hs) (own_oneHalf hrefusal) hq.filters
  exact ((fail_calls hcb hquiet).steps).orderly hquiet (orderly_failed ho.always)

theorem Handles.orderly (h : Handles cb s header message w)
    (hfirst : s.core.state ≠ .ready → header.type = .connack) : Orderly w.2.core := by
  have hready {ty : PacketType} (hty : header.type = ty) (hne : ty ≠ .connack) :
      s.core.state = .ready := by
    by_contra hr
    exact hne (hty.symm.trans (hfirst hr))
  cases h with
  | refused h => exact failOwn_orderly hcb hq hs ho h
  | replaced _ hg hcalls => exact hcalls.steps.orderly (quiet_accepted hq hs) (ho.accepted hs hg)
  | @accepted s' _ hg hcalls =>
    have hq' := quiet_accepted hq hs
    have ho' : Orderly s'.core := hcalls.steps.orderly hq' (ho.accepted hs hg)
    have hagain : Orderly (resubscribe s').core :=
      ho'.frame (.one rfl _) rfl rfl rfl rfl (fun _ => ⟨rfl, rfl⟩)
    exact pump_orderly hcb (quiet_resubscribed (hcalls.quiet hq')) hagain
  | strayed | skipped => exact ho.frame (.one rfl _) rfl rfl rfl rfl ho.before
  | answered hty code hcore =>
    have hanswered := ho.answered (hready hty nofun) hs code
    exact pump_orderly hcb (hcore ▸ quiet_answered hq) (hcore ▸ hanswered)
  | ignored => exact ho
  | delivered hty h topic payload =>
    have hr := hready hty nofun
    have hq' : Quiet (s.deliver (cString topic) payload).core := quiet_deliver hq hs
    have hadmitted : Admitted (.delivered (cString topic) payload) s.core.trace := ho.welcomed hr
    have ho' : Orderly (s.deliver (cString topic) payload).core :=
      ho.ready hr (ho.always.cons hadmitted) rfl hr hs
    exact (hcb.called _ hq' .loop).orderly hq' ho'

theorem Orderly.handle (hfirst : s.core.state ≠ .ready → header.type = .connack)
    (h : mqttHandle cb s header body = (r, s')) : Orderly s'.core :=
  (mqttHandle_handles hcb hq hs h).orderly hcb hq hs ho hfirst

theorem consumeFrom_orderly (hat : s.core.state ≠ .ready → at_ = 0)
    (hok : Courteous (consumeFrom cb fuel at_ s).2.trace) :
    Orderly (consumeFrom cb fuel at_ s).2.core := by
  have hbefore : Courteous s.core.trace :=
    courteous_lasting (consumeFrom_moves hcb fuel at_ hq hs).1.grows hok
  fun_induction consumeFrom cb fuel at_ s with
  | case1 | case4 | case7 => exact ho.compact hs hat
  | case2 _ _ s c hskip =>
    have hr := ho.skipping hs hskip
    exact ho.ready hr ho.always rfl hr hs
  | case3 _ _ s c hskip _ s' _ ih =>
    have hr := ho.skipping hs hskip
    exact ih (quiet_skip hq hs) hs (ho.ready hr ho.always rfl hr hs) (absurd hr) hok hbefore
  | case5 => exact failOwn_orderly hcb hq hs ho (by simp)
  | case6 fuel at_ s c _ header hheader _ s' ih =>
    have hr : s.core.state = .ready := by
      by_contra hr
      rw [hat hr, List.drop_zero] at hheader
      have hfits := (ho.first_packet hs hr hbefore hheader).2
      omega
    have hq' : Quiet s'.countSkipped.core := quiet_countSkipped (quiet_skip hq hs) hs
    have ho' : Orderly s'.countSkipped.core := ho.ready hr (ho.always.cons trivial) rfl hr hs
    have hgrows := (consumeFrom_moves hcb fuel (at_ + header.headerLen) hq' hs).1.grows
    exact ih hq' hs ho' (absurd hr) hok (courteous_lasting hgrows hok)
  | case8 _ _ s c _ _ hheader _ _ _ _ hhandle
  | case9 _ _ s c _ _ hheader _ _ _ _ hhandle
  | case10 _ _ s c _ _ hheader _ _ _ _ hhandle =>
    exact ho.handle hcb hq hs (ho.next_packet hs hat hbefore hheader) hhandle
  | case11 fuel at_ s c _ header hheader _ _ _ s' hhandle hsame hsome ih =>
    have hnext := ho.next_packet hs hat hbefore hheader
    have hq' : Quiet s'.core := (handled_moves hcb hq hs hhandle).quiet hq
    have hsocket := socket_held hsome
    have hstate := mqttHandle_state hcb hq hs hhandle (not_not.mp hsame) hsocket
    have hready : s'.core.state = .ready := by
      split at hstate
      · exact hstate
      · rename_i hty
        by_contra hr
        rw [hstate] at hr
        exact hty (hnext hr)
    have hgrows := (consumeFrom_moves hcb fuel (at_ + (header.headerLen + header.remaining))
      hq' hsocket).1.grows
    exact ih hq' hsocket (ho.handle hcb hq hs hnext hhandle) (absurd hready) hok
      (courteous_lasting hgrows hok)

end

theorem receive_orderly (hcb : Reenters cb) {s : Sys} (hq : Quiet s.core)
    (ho : Courteous s.trace → Orderly s.core) (hs : s.core.socket)
    (hok : Courteous (mqttConsume cb (s.receive bytes)).2.trace) :
    Orderly (mqttConsume cb (s.receive bytes)).2.core := by
  have hreceived : Act .reader s.core (s.receive bytes).core := .received rfl hs bytes
  have hq' := hreceived.quiet hq
  have hmoves := (consumeFrom_moves hcb ((s.receive bytes).client.input.length + 1) 0 hq' hs).1
  have ho := ho (courteous_lasting (hreceived.grows.trans hmoves.grows) hok)
  have ho' : Orderly (s.receive bytes).core := by
    refine ⟨ho.always.cons trivial, ho.welcomed, ?_, ?_, ho.before⟩
    · intro hs hr
      obtain ⟨hinput, hskip⟩ := ho.unread hs hr
      exact ⟨congrArg (· ++ bytes) hinput, hskip⟩
    · intro hnone
      have hnone : s.core.socket = false := hnone
      rw [hs] at hnone
      cases hnone
  exact consumeFrom_orderly hcb hq' hs ho' (fun _ => rfl) hok

theorem orderly_survives (hcb : Reenters cb) :
    Survives cb (fun c => Courteous c.trace → Orderly c) where
  steps hq ho hsteps hok := hsteps.orderly hq (ho (courteous_lasting hsteps.grows hok))
  read _ hq ho hs _ hok := receive_orderly hcb hq ho hs hok

/-- With a broker that begins every connection with a CONNACK of a size to be read, nothing is
delivered and no SUBACK taken before a CONNACK has accepted the connection; and a client that is
not ready has nothing subscribed. -/
theorem run_greets_first (depth : Nat) (hasLoop : Bool) (world : World) (ops : List Op)
    (hfirst : ∀ u ∈ (run (callback depth) (boot hasLoop world) ops).trace.tails,
      connackFirst (readBytes u)) :
    let s := run (callback depth) (boot hasLoop world) ops
    (∀ topic payload before, Event.delivered topic payload :: before <:+ s.trace →
      welcomed before) ∧
    (∀ filter code before, Event.verdict filter code :: before <:+ s.trace → welcomed before) ∧
    (s.client.state ≠ .ready → s.client.filterSent = 0 ∧ s.client.subscribeId = 0) := by
  have hcb := callback_reenters depth
  have hboot : Orderly (boot hasLoop world).core :=
    orderly_shut .nil nofun rfl ⟨rfl, rfl⟩ ⟨rfl, rfl⟩
  have ho := (orderly_survives hcb).run hcb ops (boot_quiet hasLoop world) (fun _ => hboot) hfirst
  refine ⟨?_, ?_, ho.before⟩
  · intro _ _ _ hbefore
    exact ho.always _ _ hbefore
  · intro _ _ _ hbefore
    exact ho.always _ _ hbefore

/-- A broker that accepts the connection and then sends a message and the answer to a SUBSCRIBE. -/
theorem run_greets_first_message :
    let s := run (callback 0)
      (boot true { reached with
        recvs := [.ok [0x20, 2, 0], .ok [0, 0x30, 5, 0, 1, 97, 104, 105, 0x90, 3, 0, 1, 0]] })
      ([.call (.subscribe [97])] ++ opening true)
    (heard s.trace).deliveries = [([97], [104, 105])] ∧ s.client.filterSent = 1 ∧
      (∀ topic payload before, Event.delivered topic payload :: before <:+ s.trace →
        welcomed before) :=
  ⟨by decide, by decide, (run_greets_first 0 true _ _ (by decide)).1⟩

/-- A message and a SUBACK of packet id 0 before the CONNACK: the one is delivered and the other
taken. -/
theorem message_before_connack :
    let s := run (callback 0)
      (boot true { reached with recvs := [.ok [0x30, 5, 0, 1, 97, 104, 105, 0x90, 3, 0, 0, 0]] })
      ([.call (.subscribe [97])] ++ opening true)
    s.client.state = .greeting ∧ welcomed s.trace = false ∧
      (heard s.trace).deliveries = [([97], [104, 105])] ∧ s.client.filterSent = 1 := by
  decide

end Inkwell.Mqtt
