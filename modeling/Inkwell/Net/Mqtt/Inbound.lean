import Inkwell.Net.Mqtt.Outbound

namespace Inkwell.Mqtt
open Net

section
variable (cb : Sys → Sys) (s : Sys)

/-- Changes the state and calls back; false when the callback replaced the session. -/
def setState (state : State) : Bool × Sys :=
  if s.client.state = state then (true, s)
  else
    let s := ({ s with client := { s.client with state } } : Sys).log (.entered state)
    if s.client.onState then
      let s' := cb (s.log (.called s.client))
      (s'.client.generation == s.client.generation, s')
    else (true, s)

def mqttClose : Sys :=
  { s with client := { s.client with
      lookup := none
      tls := s.client.tls.stop
      socket := none
      registrationToken := none
      wantWrite := false
      input := []
      skipRemaining := 0
      moreToRead := false
      readWantsWrite := false
      out := {}
      filterSent := 0
      subscribeId := 0
      deadlineMs := 0
      nextPingMs := 0
      lastHeardMs := 0 } }

def Failure.isSet (f : Failure) : Bool := f.reason != .ok || f.refusal != .none

def backoffDelay (failures : Nat) : Nat :=
  let shift := if failures > 1 then min (failures - 1) backoffShiftMax else 0
  min (backoffBaseMs <<< shift) backoffMaxMs

def backedOff : Sys :=
  let s := mqttClose s
  let failures := if s.client.failures < 2 ^ 32 - 1 then s.client.failures + 1
  else s.client.failures
  let retryAtMs := s.client.nowMs + backoffDelay failures
  ({ s with client := { s.client with failures, retryAtMs } } : Sys).log
    (.armed s.client.nowMs retryAtMs)

def backOff : Sys := (setState cb (backedOff s) .waiting).2

/-- The first failure is the one that is kept. -/
def recordFailure (f : Failure) : Sys :=
  let s := s.log (.failed f)
  if s.client.failure.isSet then s else { s with client := { s.client with failure := f } }

def failNet (reason : NetReason) (detail : Detail) : Sys :=
  backOff cb (recordFailure s { reason, detail })

def failOwn (refusal : Refusal) (code : UInt8) : Sys :=
  backOff cb (recordFailure s { refusal, code })

def failTls : Sys := failNet cb s s.client.tls.reason (.tls s.client.tls.errorCode)

/-- Sends the next filter not acknowledged, if none is in flight, passing over those that cannot
be encoded. -/
@[grind =] def pumpSubscribes : (fuel : Nat) → Sys → Sys
  | 0, s => s
  | fuel + 1, s =>
    let c := s.client
    if c.state ≠ .ready ∨ c.subscribeId ≠ 0 then s
    else if c.filterSent ≥ c.filters.length then s
    else
      let id := (c.filterSent + 1) % 65536
      let s := s.log (.filterRead c.filterSent c.filters.length)
      match encodeSubscribe (filterMax + 16) id (c.filters.getD c.filterSent []) with
      | .error _ =>
        pumpSubscribes fuel { s with client := { c with filterSent := c.filterSent + 1 } }
      | .ok packet =>
        match mqttQueue s packet with
        | (some .enospc, s) => s.log .noRoom
        | (some _, s) => failNet cb s .closed .none
        | (none, s) => { s with client := { s.client with subscribeId := id } }

def mqttPumpSubscribes : Sys := pumpSubscribes cb (s.client.filters.length + 1) s

def refusalOf (code : UInt8) : Refusal :=
  if code = 4 then .badLogin
  else if code = 5 then .notAllowed
  else if code = 3 then .brokerBusy
  else .other

def accepted : Sys :=
  { s with client := { s.client with
      failures := 0
      deadlineMs := 0
      stats := { s.client.stats with connections := s.client.stats.connections + 1 }
      failure := {} } }

/-- A clean session has no subscriptions, so the whole set goes out again. -/
def resubscribe : Sys :=
  ({ s with client := { s.client with filterSent := 0, subscribeId := 0 } } : Sys).log
    (.resubscribed s.client.subscribeId)

def onConnack (body : Bytes) : Bool × Sys :=
  if s.client.state ≠ .greeting then (false, failOwn cb s .protocol 0)
  else
    match decodeConnack body with
    | none => (false, failOwn cb s .protocol 0)
    | some code =>
      if code ≠ 0 then (false, failOwn cb s (refusalOf code) code)
      else
        match setState cb (accepted s) .ready with
        | (false, s) => (false, s)
        | (true, s) => (true, mqttPumpSubscribes cb (resubscribe s))

def subackFailure : UInt8 := 0x80

/-- A refused filter is named in the log, which reads it out of the table. -/
def onSuback (body : Bytes) : Bool × Sys :=
  match decodeSuback body with
  | none => (false, failOwn cb s .protocol 0)
  | some (id, code) =>
    let c := s.client
    let s := s.log (.suback id c.subscribeId code)
    if id ≠ c.subscribeId then (true, s)
    else
      let s := if code = subackFailure then s.log (.filterRead c.filterSent c.filters.length) else s
      let s := s.log (.verdict (c.filters.getD c.filterSent []) code)
      let s := { s with client := { c with filterSent := c.filterSent + 1, subscribeId := 0 } }
      (true, mqttPumpSubscribes cb s)

def cString (text : Bytes) : Bytes := text.takeWhile (· ≠ 0)

def Sys.countSkipped : Sys :=
  ({ s with client := { s.client with
    stats := { s.client.stats with skipped := s.client.stats.skipped + 1 } } } : Sys).log .skipped

def Sys.deliver (topic payload : Bytes) : Sys :=
  ({ s with client := { s.client with
    stats := { s.client.stats with received := s.client.stats.received + 1 } } } : Sys).log
      (.delivered topic payload)

def onPublish (flags : UInt8) (body : Bytes) : Bool × Sys :=
  match decodePublish flags body with
  | none => (false, failOwn cb s .protocol 0)
  | some message =>
    if !s.client.onMessage then (true, s)
    else if message.topic.length ≥ topicMax then (true, s.countSkipped)
    else
      let s := s.deliver (cString message.topic) message.payload
      (true, cb (s.log (.called s.client)))

/-- Handles one whole packet. False means the connection is gone. -/
def mqttHandle (header : Header) (body : Bytes) : Bool × Sys :=
  match header.type with
  | .connack => onConnack cb s body
  | .suback => onSuback cb s body
  | .publish => onPublish cb s header.flags body
  | .pingresp => (true, s)
  | .puback | .pubrec | .pubrel | .pubcomp | .unsuback => (true, s)
  | .connect | .subscribe | .unsubscribe | .pingreq | .disconnect =>
    (false, failOwn cb s .protocol 0)

def compactIn (at_ : Nat) : Sys :=
  { s with client := { s.client with input := s.client.input.drop at_ } }

/-- The loop of `mqtt_consume` from position `at_`; every turn that goes on moves it. -/
@[grind =] def consumeFrom : (fuel at_ : Nat) → Sys → Bool × Sys
  | 0, at_, s => (true, compactIn s at_)
  | fuel + 1, at_, s =>
    let c := s.client
    if c.skipRemaining > 0 then
      let chunk := min (c.input.length - at_) c.skipRemaining
      let s := { s with client := { c with skipRemaining := c.skipRemaining - chunk } }
      if s.client.skipRemaining > 0 then (true, compactIn s (at_ + chunk))
      else consumeFrom fuel (at_ + chunk) s
    else
      match decodeHeader (c.input.drop at_) with
      | .more => (true, compactIn s at_)
      | .malformed => (false, failOwn cb s .protocol 0)
      | .ok header =>
        if header.remaining > packetMax - header.headerLen then
          let s := { s with client := { c with skipRemaining := header.remaining } }
          consumeFrom fuel (at_ + header.headerLen) s.countSkipped
        else if c.input.length - at_ < header.headerLen + header.remaining then
          (true, compactIn s at_)
        else
          let body := (c.input.drop (at_ + header.headerLen)).take header.remaining
          match mqttHandle cb s header body with
          | (false, s) => (false, s)
          | (true, s) =>
            if s.client.generation ≠ c.generation then (false, s)
            else if s.client.socket.isNone then (false, s)
            else consumeFrom fuel (at_ + (header.headerLen + header.remaining)) s

def mqttConsume : Bool × Sys := consumeFrom cb (s.client.input.length + 1) 0 s

/-- Reads at most `cap` bytes; a plain socket at its end answers with none. -/
def rawRead (cap : Nat) : Except Errno Bytes × Sys :=
  if s.client.tls.started then
    let (r, tls, rest) := s.client.tls.read cap s.world.sslReads
    (r, { s with client := { s.client with tls }, world := { s.world with sslReads := rest } })
  else
    let s' := { s with world := { s.world with recvs := s.world.recvs.tail } }
    match socketResult (s.world.recvs.headD (.error .eagain)) with
    | .ok [] => (.error .enotconn, s')
    | .ok bytes => (.ok (bytes.take cap), s')
    | .error e => (.error e, s')

def Sys.receive (bytes : Bytes) : Sys :=
  ({ s with client := { s.client with
    input := s.client.input ++ bytes, lastHeardMs := s.client.nowMs } } : Sys).log (.read bytes)

def readTurns : (turns : Nat) → Sys → Sys
  | 0, s => { s with client := { s.client with moreToRead := true } }
  | turns + 1, s =>
    if s.client.input.length ≥ packetMax then
      { s with client := { s.client with moreToRead := true } }
    else
      match rawRead s (packetMax - s.client.input.length) with
      | (.error .eagain, s) =>
        if s.client.tls.started && s.client.tls.moreToRead then
          { s with client := { s.client with moreToRead := true } }
        else
          mqttArm { s with client := { s.client with
            readWantsWrite := s.client.tls.started && s.client.tls.wantsWrite } }
      | (.error .enotconn, s) | (.error .econnreset, s) => failNet cb s .closed .none
      | (.error e, s) =>
        if s.client.tls.started then failTls cb s
        else failNet cb s (reasonFromErrno e) (.errno e)
      | (.ok bytes, s) =>
        match mqttConsume cb (s.receive bytes) with
        | (true, s) => readTurns turns s
        | (false, s) => s

def mqttReadReady : Sys :=
  readTurns cb readsPerTurn
    { s with client := { s.client with moreToRead := false, readWantsWrite := false } }

end

end Inkwell.Mqtt
