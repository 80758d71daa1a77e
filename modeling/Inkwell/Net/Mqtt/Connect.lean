import Inkwell.Net.Mqtt.Inbound

namespace Inkwell.Mqtt
open Net

def connectParams (config : Config) : Connect :=
  { clientId := config.clientId
    username := config.username
    password := config.password
    keepaliveS := keepaliveS
    cleanSession := true }

def greeted (s : Sys) : Sys :=
  { s with client := { s.client with
      deadlineMs := s.client.nowMs + handshakeTimeoutMs, lastHeardMs := s.client.nowMs } }

section
variable (cb : Sys → Sys) (s : Sys)

def mqttSendConnect : Sys :=
  match encodeConnect (clientIdMax + usernameMax + passwordMax + 32)
      (connectParams s.client.config) with
  | .error _ => failOwn cb s .badAddress 0
  | .ok packet =>
    match mqttQueue s packet with
    | (some _, s) => failNet cb s (reasonFromErrno .enobufs) (.errno .enobufs)
    | (none, s) => (setState cb (greeted s) .greeting).2

def mqttSecure : Sys :=
  let (answer, rest) := next (.error .wantRead) s.world.handshakes
  let (rc, tls) := s.client.tls.handshake answer
  let s := { s with client := { s.client with tls }, world := { s.world with handshakes := rest } }
  match rc with
  | some .eagain => mqttArm s
  | some _ => failTls cb s
  | none => mqttSendConnect cb s

def secured : Sys :=
  { s with client := { s.client with deadlineMs := s.client.nowMs + handshakeTimeoutMs } }

def mqttFinishConnect : Sys :=
  let (error, rest) := next none s.world.pendingErrors
  let s := { s with world := { s.world with pendingErrors := rest } }
  match error with
  | some e => failNet cb s (reasonFromErrno e) (.errno e)
  | none =>
    if !s.client.config.tlsEnabled then mqttSendConnect cb s
    else
      let (answer, rest) := next .ok s.world.tlsStarts
      let (started, tls) := Tls.Session.start answer
      let s := { s with
        client := { s.client with tls }, world := { s.world with tlsStarts := rest } }
      match started with
      | some .enotsup => failOwn cb s .noTls 0
      | some _ => failTls cb s
      | none =>
        match setState cb (secured s) .securing with
        | (false, s) => s
        | (true, s) => mqttSecure cb s

def wakes (events mask : Runtime.Mask) : Bool := events &&& mask != 0

def mqttFdCallback (events : Runtime.Mask) : Sys :=
  if s.client.socket.isNone then s
  else if s.client.state = .connecting then
    if wakes events (Runtime.OUT ||| Runtime.ERR ||| Runtime.HUP) then mqttFinishConnect cb s else s
  else if wakes events (Runtime.ERR ||| Runtime.HUP) then failNet cb s .closed .none
  else if s.client.state = .securing then mqttSecure cb s
  else
    let readNow := wakes events Runtime.IN
    if wakes events Runtime.OUT then
      let readNow := readNow || s.client.readWantsWrite
      match mqttFlush s with
      | (some _, s) => failNet cb s .closed .none
      | (none, s) => if readNow && s.client.socket.isSome then mqttReadReady cb s else s
    else if readNow then mqttReadReady cb s
    else s

def opened (socket token : Nat) : Sys :=
  ({ s with client := { s.client with
      socket := some socket, registrationToken := some token, wantWrite := true } } : Sys).log
    (.opened s.client.stats)

def connecting : Sys :=
  { s with client := { s.client with deadlineMs := s.client.nowMs + connectTimeoutMs } }

def mqttOpen : Sys :=
  let (socket, rest) := next (.error .enobufs) s.world.opens
  let s := { s with world := { s.world with opens := rest } }
  match socket with
  | .error e => failNet cb s (reasonFromErrno e) (.errno e)
  | .ok socket =>
    let (token, rest) := next (.error .enospc) s.world.watches
    let s := { s with world := { s.world with watches := rest } }
    match token with
    | .error e => failNet cb s (reasonFromErrno e) (.errno e)
    | .ok token =>
      let s := opened s socket token
      let (connected, rest) := next none s.world.connects
      let s := { s with world := { s.world with connects := rest } }
      match connected with
      | some e => failNet cb s (reasonFromErrno e) (.errno e)
      | none => (setState cb (connecting s) .connecting).2

def mqttOnResolved (outcome : ResolveOutcome) (error : Int) : Sys :=
  if s.client.state ≠ .resolving then s
  else if outcome = .ok then mqttOpen cb s
  else failNet cb s (reasonFromResolve outcome) (.resolver error)

def attempting : Sys := ({ s with client := { s.client with failure := {} } } : Sys).log .attempted

def lookingUp : Sys :=
  { s with client := { s.client with
      lookup := some (s.client.nowMs + resolveTimeoutMs), deadlineMs := 0 } }

def mqttAttempt : Sys :=
  let s := attempting s
  let (literal, rest) := next true s.world.literals
  let s := { s with world := { s.world with literals := rest } }
  if literal then mqttOpen cb s
  else
    let (refused, rest) := next none s.world.lookups
    let s := { s with world := { s.world with lookups := rest } }
    match refused with
    | some e => failNet cb s .lookupFailed (.errno e)
    | none => (setState cb (lookingUp s) .resolving).2

/-- Takes the answer of a lookup that has finished. The resolver lets go of it first. -/
def resolveTryFinish : Sys :=
  if s.client.lookup.isNone then s
  else
    let (answer, rest) := next none s.world.lookupAnswers
    let s := { s with world := { s.world with lookupAnswers := rest } }
    match answer with
    | none => s
    | some (outcome, error) =>
      mqttOnResolved cb { s with client := { s.client with lookup := none } } outcome error

def resolveTick (nowMs : Nat) : Sys :=
  let s := resolveTryFinish cb s
  match s.client.lookup with
  | none => s
  | some deadline =>
    if nowMs ≥ deadline then
      mqttOnResolved cb { s with client := { s.client with lookup := none } } .timedOut 0
    else s

end

end Inkwell.Mqtt
