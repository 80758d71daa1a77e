import Inkwell.Net.Mqtt.Address
import Inkwell.Net.Mqtt.Connect

namespace Inkwell.Mqtt
open Net

def clientInit (hasLoop : Bool) : Client := { hasLoop }

def nextGeneration (s : Sys) : Sys :=
  { s with client := { s.client with generation := s.client.generation + 1 } }

def clientShutdown (s : Sys) : Sys :=
  let s := mqttClose (nextGeneration s)
  ({ s with client := { s.client with state := .off } } : Sys).log .stopped

def portPlain : Nat := 1883
def portTls : Nat := 8883

def begun (s : Sys) (config : Config) (host : Bytes) (port : Nat) (onMessage onState : Bool)
    (nowMs : Nat) : Sys :=
  let s := mqttClose (nextGeneration s)
  ({ s with client := { s.client with
      nowMs, config, onMessage, onState, host
      failures := 0
      retryAtMs := 0
      failure := {}
      port := if port = 0 then (if config.tlsEnabled then portTls else portPlain) else port } } :
    Sys).log (.started onMessage)

section
variable (cb : Sys → Sys) (s : Sys)

def clientStart (config : Config) (onMessage onState : Bool) (nowMs : Nat) : Option Errno × Sys :=
  if !s.client.hasLoop then (some .enotsup, s)
  else if config.address = [] || config.clientId = [] then (some .einval, s)
  else
    match targetSplit config.address addressMax with
    | none => (some .einval, s)
    | some (host, port) => (none, mqttAttempt cb (begun s config host port onMessage onState nowMs))

/-- A DISCONNECT on the way out, best effort: it goes around the write queue. -/
def sayGoodbye : Sys :=
  if s.client.state = .ready then
    match encodeEmpty 2 .disconnect with
    | .ok packet =>
      let s := s.log .disconnecting
      s.withSender (rawWrite s.sender packet).2
    | .error _ => s
  else s

def silenced : Sys :=
  let s := mqttClose (nextGeneration s)
  ({ s with client := { s.client with failure := {}, failures := 0, retryAtMs := 0 } } : Sys).log
    .stopped

def clientStop : Sys :=
  if s.client.state = .off then s
  else (setState cb (silenced (sayGoodbye s)) .off).2

def clientSubscribe (filter : Bytes) : Option Errno × Sys :=
  if filter = [] || filter.length ≥ filterMax then (some .einval, s)
  else if s.client.filters.contains filter then (some .eexist, s)
  else if s.client.filters.length ≥ filtersMax then (some .enospc, s)
  else
    (none, mqttPumpSubscribes cb
      { s with client := { s.client with filters := s.client.filters ++ [filter] } })

def clientClearFilters : Sys :=
  ({ s with client := { s.client with filters := [], filterSent := 0, subscribeId := 0 } } :
    Sys).log
    (.cleared s.client.subscribeId)

def Sys.countDropped : Sys :=
  { s with client := { s.client with
    stats := { s.client.stats with dropped := s.client.stats.dropped + 1 } } }

def clientPublish (topic payload : Bytes) (retained : Bool) : Option Errno × Sys :=
  if s.client.state ≠ .ready then (some .enotconn, s.countDropped)
  else if !topicIsPublishable topic then (some .einval, s.countDropped)
  else
    match encodePublish packetMax topic payload retained with
    | .error e => (some (if e = .enospc then .emsgsize else e), s.countDropped)
    | .ok packet =>
      match mqttQueue s packet with
      | (some .enospc, s) => (some .enospc, s.countDropped)
      | (some e, s) => (some e, failNet cb s.countDropped .closed .none)
      | (none, s) => (none, { s with client := { s.client with
          stats := { s.client.stats with published := s.client.stats.published + 1 } } })

def keepAlive (nowMs : Nat) : Sys :=
  if s.client.nextPingMs ≠ 0 ∧ nowMs ≥ s.client.nextPingMs then
    match encodeEmpty 2 .pingreq with
    | .error _ => s
    | .ok packet =>
      match mqttQueue s packet with
      | (some _, s) => failNet cb s .closed .none
      | (none, s) => { s with client := { s.client with nextPingMs := nowMs + pingIntervalMs } }
  else s

def silent (c : Client) (nowMs : Nat) : Bool :=
  c.lastHeardMs != 0 && nowMs > c.lastHeardMs && nowMs - c.lastHeardMs > silenceTimeoutMs

def tickConnection (nowMs : Nat) : Sys :=
  if s.client.deadlineMs ≠ 0 ∧ nowMs ≥ s.client.deadlineMs then failNet cb s .timedOut .none
  else
    let s :=
      if s.client.moreToRead && (s.client.state == .greeting || s.client.state == .ready) then
        mqttReadReady cb s
      else s
    if s.client.state ≠ .ready then s
    else if silent s.client nowMs then failNet cb s .timedOut .none
    else keepAlive cb s nowMs

def clientTick (nowMs : Nat) : Sys :=
  let s := resolveTick cb { s with client := { s.client with nowMs } } nowMs
  if s.client.state = .off then s
  else if s.client.state = .waiting then
    if nowMs ≥ s.client.retryAtMs then mqttAttempt cb (s.log (.retried nowMs)) else s
  else tickConnection cb s nowMs

def apiCall : ApiCall → Sys
  | .start config onMessage onState nowMs => (clientStart cb s config onMessage onState nowMs).2
  | .stop => clientStop cb s
  | .subscribe filter => (clientSubscribe cb s filter).2
  | .clearFilters => clientClearFilters s
  | .publish topic payload retained => (clientPublish cb s topic payload retained).2

/-- A callback makes the calls its script says, with callbacks nested up to `depth` deep in them. -/
def callback : (depth : Nat) → Sys → Sys
  | 0, s => s
  | depth + 1, s =>
    (s.world.app.headD []).foldl (apiCall (callback depth))
      { s with world := { s.world with app := s.world.app.tail } }

/-- A call of the application, the clock, or an event of the loop on the socket or on the lookup. -/
inductive Op
  | call (c : ApiCall)
  | shutdown
  | tick (nowMs : Nat)
  | socketEvent (events : Runtime.Mask)
  | lookupEvent

def step : Op → Sys
  | .call c => apiCall cb s c
  | .shutdown => clientShutdown s
  | .tick nowMs => clientTick cb s nowMs
  | .socketEvent events => mqttFdCallback cb s events
  | .lookupEvent => resolveTryFinish cb s

def run (ops : List Op) : Sys := ops.foldl (step cb) s

end

def boot (hasLoop : Bool) (world : World) : Sys := { client := clientInit hasLoop, world }

/-- The socket opens and is watched. -/
def reached : World := { opens := [.ok 3], watches := [.ok 0] }

/-- A client is started, connects, and finds something to read. -/
def opening (onMessage : Bool) : List Op :=
  [.call (.start { address := [104], clientId := [99] } onMessage false 0),
    .socketEvent Runtime.OUT, .socketEvent Runtime.IN]

end Inkwell.Mqtt
