import Inkwell.Codec.Mqtt.WellFormed
import Inkwell.Net.Mqtt.Inbound

namespace Inkwell.Mqtt
open Net

/-- The client without its descriptors, keepalive clocks, TLS session and world, and with all that
has happened. -/
structure Core where
  state : State
  lookup : Bool
  socket : Bool
  generation : Nat
  input : Bytes
  skipRemaining : Nat
  out : Outbound
  filters : List Bytes
  filterSent : Nat
  subscribeId : Nat
  nowMs : Nat
  deadlineMs : Nat
  retryAtMs : Nat
  failures : Nat
  failure : Failure
  received : UInt32
  skipped : UInt32
  onMessage : Bool
  trace : List Event

def Client.core (c : Client) (trace : List Event) : Core :=
  { state := c.state
    lookup := c.lookup.isSome
    socket := c.socket.isSome
    generation := c.generation
    input := c.input
    skipRemaining := c.skipRemaining
    out := c.out
    filters := c.filters
    filterSent := c.filterSent
    subscribeId := c.subscribeId
    nowMs := c.nowMs
    deadlineMs := c.deadlineMs
    retryAtMs := c.retryAtMs
    failures := c.failures
    failure := c.failure
    received := c.stats.received
    skipped := c.stats.skipped
    onMessage := c.onMessage
    trace }

def Sys.core (s : Sys) : Core := s.client.core s.trace

def State.connected : State → Bool
  | .connecting | .securing | .greeting | .ready => true
  | .off | .resolving | .waiting => false

def Core.log (c : Core) (e : Event) : Core := { c with trace := e :: c.trace }

def Core.enter (c : Core) (state : State) : Core :=
  if c.state = state then c else { c with state, trace := .entered state :: c.trace }

def Core.closed (c : Core) : Core :=
  { c with
    lookup := false, socket := false, input := [], skipRemaining := 0, out := {}, filterSent := 0
    subscribeId := 0, deadlineMs := 0 }

def countFailure (failures : Nat) : Nat := if failures < 2 ^ 32 - 1 then failures + 1 else failures

def Core.failed (c : Core) (f : Failure) : Core :=
  ({ c.closed with
    failure := if c.failure.isSet then c.failure else f
    failures := countFailure c.failures
    retryAtMs := c.nowMs + backoffDelay (countFailure c.failures)
    trace := .armed c.nowMs (c.nowMs + backoffDelay (countFailure c.failures)) ::
      .failed f :: c.trace } : Core).enter .waiting

def Core.begun (c : Core) (nowMs : Nat) (onMessage : Bool) : Core :=
  { c.closed with
    generation := c.generation + 1, nowMs, failures := 0, retryAtMs := 0, failure := {}, onMessage
    trace := .started onMessage :: c.trace }

def Core.attempting (c : Core) : Core := { c with failure := {}, trace := .attempted :: c.trace }

def Core.opened (c : Core) (stats : Stats) : Core :=
  { c with socket := true, trace := .opened stats :: c.trace }

def Failure.OneHalf (f : Failure) : Prop :=
  f.reason ≠ .ok ∧ f.refusal = .none ∨ f.reason = .ok ∧ f.refusal ≠ .none

def Failure.byBroker (f : Failure) : Bool :=
  match f.refusal with
  | .none | .badAddress | .noTls => false
  | .protocol | .badLogin | .notAllowed | .brokerBusy | .other => true

def Outbound.offer (o : Outbound) : Bytes := (o.bytes.drop o.sent).take o.chunk

def Outbound.append (o : Outbound) (packet : Bytes) : Outbound :=
  { o with bytes := o.bytes ++ packet }

def Offer.Within (len : Nat) : Offer → Prop
  | .accepted n => n ≤ len
  | _ => True

inductive Send (o : Outbound) (t : List Event) : Outbound → List Event → Prop
  | accepted (secure : Bool) (n : Nat) (hn : n ≤ o.offer.length) :
    Send o t { o with pending := 0, sent := o.sent + n }
      (.offered secure o.offer (.accepted n) :: t)
  | blocked (secure : Bool) (h : o.sent < o.bytes.length) :
    Send o t { o with pending := o.chunk } (.offered secure o.offer .blocked :: t)
  | refused (secure : Bool) (e : Errno) : Send o t o (.offered secure o.offer (.refused e) :: t)
  | drained (h : o.sent ≥ o.bytes.length) : Send o t {} t
  | compacted : Send o t (compactOut o) t

/-- The application; the event loop; or the event loop with what a connection has to read. -/
inductive Role
  | app | loop | reader
  deriving DecidableEq

/-- A connection may be written to by the event loop, and by the application once it is ready. -/
def Live (who : Role) (c : Core) : Prop := c.socket ∧ (who ≠ .app ∨ c.state = .ready)

/-- The start of an attempt: a call of start, a retry that is due, or a finished lookup. -/
inductive Prelude (who : Role) (c : Core) : Core → Prop
  | start (nowMs : Nat) (onMessage : Bool) : Prelude who c (c.begun nowMs onMessage).attempting
  | retry (hw : who ≠ .app) (h : c.state = .waiting) (nowMs : Nat) (hdue : c.retryAtMs ≤ nowMs) :
    Prelude who c (c.log (.retried nowMs)).attempting
  | resolved (hw : who ≠ .app) (h : c.state = .resolving) : Prelude who c { c with lookup := false }

inductive Pump (c : Core) : Core → Prop
  | idle (h : c.state ≠ .ready ∨ c.subscribeId ≠ 0 ∨ c.filterSent ≥ c.filters.length) : Pump c c
  | subscribe (hr : c.state = .ready) (hi : c.subscribeId = 0)
      (hf : c.filterSent < c.filters.length) (packet : Bytes)
      (hp : readPacket packet =
        some (.subscribe (c.filterSent + 1) (c.filters.getD c.filterSent []) 0))
      (o : Outbound) (ho : o = c.out ∨ o = compactOut c.out) :
    Pump c { c with
      out := o.append packet, subscribeId := c.filterSent + 1
      trace := .queued packet :: .filterRead c.filterSent c.filters.length :: c.trace }
  | noRoom (hr : c.state = .ready) (hi : c.subscribeId = 0)
      (hf : c.filterSent < c.filters.length) (o : Outbound)
      (ho : o = c.out ∨ o = compactOut c.out) :
    Pump c { c with
      out := o, trace := .noRoom :: .filterRead c.filterSent c.filters.length :: c.trace }

def disconnectPacket : Bytes := [0xE0, 0x00]

inductive Goodbye (c : Core) : List Event → Prop
  | silent (h : c.state ≠ .ready) : Goodbye c c.trace
  | said (h : c.state = .ready) (secure : Bool) (answer : Offer)
      (ha : answer.Within disconnectPacket.length) :
    Goodbye c (.offered secure disconnectPacket answer :: .disconnecting :: c.trace)

def Core.stopped (c : Core) (t : List Event) : Core :=
  ({ c.closed with
    generation := c.generation + 1, failure := {}, failures := 0, retryAtMs := 0
    trace := .stopped :: t } : Core).enter .off

def Core.answered (c : Core) (n : Nat) (code : UInt8) : Core :=
  { c with
    filterSent := c.filterSent + 1, subscribeId := 0
    trace := .verdict (c.filters.getD c.filterSent []) code ::
      ((if code = subackFailure then [.filterRead c.filterSent c.filters.length] else []) ++
        .suback n c.subscribeId code :: c.trace) }

inductive Act (who : Role) (c : Core) : Core → Prop
  | clock (hw : who ≠ .app) (nowMs : Nat) : Act who c { c with nowMs }
  | called (client : Client) (h : client.core c.trace = c) : Act who c (c.log (.called client))
  | moved (hw : who = .reader) (hs : c.socket) (input : Bytes) (skip : Nat) :
    Act who c { c with input, skipRemaining := skip }
  | received (hw : who = .reader) (hs : c.socket) (bytes : Bytes) :
    Act who c { c with input := c.input ++ bytes, trace := .read bytes :: c.trace }
  | skipped (hw : who = .reader) (hs : c.socket) :
    Act who c { c with skipped := c.skipped + 1, trace := .skipped :: c.trace }
  | delivered (hw : who = .reader) (hs : c.socket) (topic payload : Bytes) :
    Act who c { c with received := c.received + 1, trace := .delivered topic payload :: c.trace }
  | send (hv : Live who c) (h : Send c.out c.trace o t) : Act who c { c with out := o, trace := t }
  | queued (hv : Live who c) (packet : Bytes) (p : ClientPacket)
      (hp : readPacket packet = some p) (hn : ∀ n f q, p ≠ .subscribe n f q) :
    Act who c { c with out := c.out.append packet, trace := .queued packet :: c.trace }
  | failed (hv : Live who c) (f : Failure) (hf : f.OneHalf)
      (hb : f.byBroker = false ∨ who = .reader) : Act who c (c.failed f)
  | connect (h : Prelude who c b) (stats : Stats)
      (hstats : stats.received = b.received ∧ stats.skipped = b.skipped) (deadline : Nat)
      (hd : deadline ≠ 0) :
    Act who c (({ b.opened stats with deadlineMs := deadline } : Core).enter .connecting)
  | lookUp (h : Prelude who c b) :
    Act who c (({ b with lookup := true, deadlineMs := 0 } : Core).enter .resolving)
  | missed (h : Prelude who c b) (f : Failure) (hf : f.OneHalf) (hb : f.byBroker = false) :
    Act who c (b.failed f)
  | refused (h : Prelude who c b) (stats : Stats)
      (hstats : stats.received = b.received ∧ stats.skipped = b.skipped) (f : Failure)
      (hf : f.OneHalf) (hb : f.byBroker = false) : Act who c ((b.opened stats).failed f)
  | secure (hw : who ≠ .app) (hs : c.socket) (hr : c.state ≠ .ready) (deadline : Nat)
      (hd : deadline ≠ 0) :
    Act who c (({ c with deadlineMs := deadline } : Core).enter .securing)
  | greet (hw : who ≠ .app) (hs : c.socket) (hr : c.state ≠ .ready) (deadline : Nat)
      (hd : deadline ≠ 0) :
    Act who c (({ c with deadlineMs := deadline } : Core).enter .greeting)
  | ignored (hw : who = .reader) (hs : c.socket) (n : Nat) (code : UInt8)
      (hn : n ≠ c.subscribeId) : Act who c (c.log (.suback n c.subscribeId code))
  | answered (hw : who = .reader) (hs : c.socket) (code : UInt8)
      (h : Pump (c.answered c.subscribeId code) c') : Act who c c'
  | addFilter (filter : Bytes) (hne : filter ≠ []) (hlen : filter.length < filterMax)
      (hnew : filter ∉ c.filters) (hroom : c.filters.length < filtersMax)
      (h : Pump { c with filters := c.filters ++ [filter] } c') : Act who c c'
  | cleared : Act who c { c with
      filters := [], filterSent := 0, subscribeId := 0
      trace := .cleared c.subscribeId :: c.trace }
  | stopped (h : c.state ≠ .off) (hg : Goodbye c t) : Act who c (c.stopped t)
  | shutdown (hw : who ≠ .app) :
    Act who c { c.closed with
      generation := c.generation + 1, state := .off, trace := .stopped :: c.trace }

def Steps (who : Role) : Core → Core → Prop := Relation.ReflTransGen (Act who)

abbrev Calls : Core → Core → Prop := Steps .app

def Core.accepted (c : Core) : Core :=
  ({ c with failures := 0, deadlineMs := 0, failure := {} } : Core).enter .ready

def Core.resubscribed (c : Core) : Core :=
  { c with
    filterSent := 0, subscribeId := 0, trace := .resubscribed c.subscribeId :: c.trace }

/-- An act, or the whole answer to an accepting CONNACK with the callback in the middle of it. -/
inductive Move (c : Core) : Core → Prop
  | act (h : Act .reader c c') : Move c c'
  | accepted (hs : c.socket) (hg : c.state = .greeting) (h : Calls c.accepted c₁)
      (hsame : c₁.generation = c.generation) (hp : Pump c₁.resubscribed c') : Move c c'
  | replaced (hs : c.socket) (hg : c.state = .greeting) (h : Calls c.accepted c₁)
      (hnew : c₁.generation ≠ c.generation) : Move c c₁

def Moves : Core → Core → Prop := Relation.ReflTransGen Move

theorem Live.role (h : Live w c) (hw : w ≠ .app → who ≠ .app) : Live who c := ⟨h.1, h.2.imp_left hw⟩

theorem Prelude.role (h : Prelude w c b) (hw : w ≠ .app → who ≠ .app) : Prelude who c b := by
  cases h with
  | start nowMs onMessage => exact .start nowMs onMessage
  | retry hl h nowMs hdue => exact .retry (hw hl) h nowMs hdue
  | resolved hl h => exact .resolved (hw hl) h

theorem Act.role (h : Act w c c') (hw : w ≠ .app → who ≠ .app)
    (hr : w = .reader → who = .reader) : Act who c c' := by
  cases h with
  | clock hl nowMs => exact .clock (hw hl) nowMs
  | called client h => exact .called client h
  | moved hl hs input skip => exact .moved (hr hl) hs input skip
  | received hl hs bytes => exact .received (hr hl) hs bytes
  | skipped hl hs => exact .skipped (hr hl) hs
  | delivered hl hs topic payload => exact .delivered (hr hl) hs topic payload
  | send hv h => exact .send (hv.role hw) h
  | queued hv packet p hp hn => exact .queued (hv.role hw) packet p hp hn
  | failed hv f hf hb => exact .failed (hv.role hw) f hf (hb.imp_right hr)
  | connect h stats hstats deadline hd => exact .connect (h.role hw) stats hstats deadline hd
  | lookUp h => exact .lookUp (h.role hw)
  | missed h f hf hb => exact .missed (h.role hw) f hf hb
  | refused h stats hstats f hf hb => exact .refused (h.role hw) stats hstats f hf hb
  | secure hl hs hst deadline hd => exact .secure (hw hl) hs hst deadline hd
  | greet hl hs hst deadline hd => exact .greet (hw hl) hs hst deadline hd
  | ignored hl hs n code hn => exact .ignored (hr hl) hs n code hn
  | answered hl hs code h => exact .answered (hr hl) hs code h
  | addFilter filter hne hlen hnew hroom h => exact .addFilter filter hne hlen hnew hroom h
  | cleared => exact .cleared
  | stopped h hg => exact .stopped h hg
  | shutdown hl => exact .shutdown (hw hl)

theorem Act.byReader (h : Act w c c') : Act .reader c c' := h.role nofun (fun _ => rfl)

theorem Act.byAny (h : Act .app c c') : Act who c c' := h.role (fun h => absurd rfl h) nofun

theorem Steps.refl : Steps who c c := Relation.ReflTransGen.refl

theorem Steps.one (h : Act who c c') : Steps who c c' := Relation.ReflTransGen.single h

theorem Steps.trans (h₁ : Steps who a b) (h₂ : Steps who b c) : Steps who a c :=
  Relation.ReflTransGen.trans h₁ h₂

theorem Calls.steps (h : Calls c c') : Steps who c c' := by
  induction h with
  | refl => exact .refl
  | tail _ ha ih => exact ih.trans (.one ha.byAny)

theorem Moves.refl : Moves c c := Relation.ReflTransGen.refl

theorem Moves.one (h : Move c c') : Moves c c' := Relation.ReflTransGen.single h

theorem Moves.trans (h₁ : Moves a b) (h₂ : Moves b c) : Moves a c :=
  Relation.ReflTransGen.trans h₁ h₂

theorem Steps.moves (h : Steps who c c') : Moves c c' := by
  induction h with
  | refl => exact .refl
  | tail _ ha ih => exact ih.trans (.one (.act ha.byReader))

end Inkwell.Mqtt
