import Inkwell.Net.Mqtt.Client

namespace Inkwell.Mqtt
open Net

structure Sender where
  out : Outbound
  tls : Tls.Session
  sends : List (Except SendError Nat)
  sslWrites : List Tls.SslWrite
  trace : List Event

def Sys.sender (s : Sys) : Sender :=
  ⟨s.client.out, s.client.tls, s.world.sends, s.world.sslWrites, s.trace⟩

def Sys.withSender (s : Sys) (x : Sender) : Sys :=
  { s with
    client := { s.client with out := x.out, tls := x.tls }
    world := { s.world with sends := x.sends, sslWrites := x.sslWrites }
    trace := x.trace }

/-- An interrupted call is one to try again, as a would-block is. -/
def socketResult (r : Except Errno α) : Except Errno α :=
  match r with
  | .error .eintr => .error .eagain
  | r => r

/-- What a plain send of `len` bytes comes to; a socket with no answer left would block. -/
def sendResult (len : Nat) : Option (Except SendError Nat) → Except Errno Nat
  | none => .error .eagain
  | some (.ok n) => .ok (min (n + 1) len)
  | some (.error e) => socketResult (.error e.errno)

def Offer.of : Except Errno Nat → Offer
  | .ok n => .accepted n
  | .error .eagain => .blocked
  | .error e => .refused e

def mqttArm (s : Sys) : Sys :=
  let c := s.client
  if c.socket.isNone || c.registrationToken.isNone || !c.hasLoop then s
  else
    { s with client := { c with
      wantWrite := c.state == .connecting || c.out.sent < c.out.bytes.length ||
        (c.tls.started && (c.tls.wantsWrite || c.readWantsWrite)) } }

def rawWrite (x : Sender) (data : Bytes) : Except Errno Nat × Sender :=
  if x.tls.started then
    let (r, tls) := x.tls.write data.length (x.sslWrites.headD (.error .wantWrite))
    (r, { x with
      tls := tls, sslWrites := x.sslWrites.tail
      trace := .offered true data (.of r) :: x.trace })
  else
    let r := sendResult data.length x.sends.head?
    (r, { x with sends := x.sends.tail, trace := .offered false data (.of r) :: x.trace })

def compactOut (o : Outbound) : Outbound :=
  if o.sent = 0 then o
  else if o.pending > 0 then o
  else { o with bytes := o.bytes.drop o.sent, sent := 0 }

/-- The length the next write offers: the one a blocked write is pinned to, or all that is left. -/
def Outbound.chunk (o : Outbound) : Nat :=
  if o.pending > 0 then o.pending else o.bytes.length - o.sent

@[grind =] def flushLoop : (fuel : Nat) → (sentSomething : Bool) → Sender →
  Option Errno × Bool × Sender
  | 0, sentSomething, x => (none, sentSomething, x)
  | fuel + 1, sentSomething, x =>
    if x.out.sent < x.out.bytes.length then
      let chunk := x.out.chunk
      match rawWrite x ((x.out.bytes.drop x.out.sent).take chunk) with
      | (.error .eagain, x) =>
        (none, sentSomething, { x with out := { x.out with pending := chunk } })
      | (.error e, x) => (some e, sentSomething, x)
      | (.ok n, x) =>
        flushLoop fuel true { x with out := { x.out with pending := 0, sent := x.out.sent + n } }
    else (none, sentSomething, x)

def Outbound.drained (o : Outbound) : Outbound := if o.sent ≥ o.bytes.length then {} else o

def mqttFlush (s : Sys) : Option Errno × Sys :=
  match flushLoop (s.client.out.bytes.length + 1) false s.sender with
  | (some e, _, x) => (some e, s.withSender x)
  | (none, sentSomething, x) =>
    let s := s.withSender { x with out := x.out.drained }
    let s := if sentSomething then
        { s with client := { s.client with nextPingMs := s.client.nowMs + pingIntervalMs } }
      else s
    (none, mqttArm s)

def Sys.setOut (s : Sys) (o : Outbound) : Sys := { s with client := { s.client with out := o } }

def mqttQueue (s : Sys) (data : Bytes) : Option Errno × Sys :=
  let s := if s.client.out.bytes.length + data.length > outboundMax then
      s.setOut (compactOut s.client.out)
    else s
  if s.client.out.bytes.length + data.length > outboundMax then (some .enospc, s)
  else
    mqttFlush ((s.setOut { s.client.out with bytes := s.client.out.bytes ++ data }).log
      (.queued data))

end Inkwell.Mqtt
