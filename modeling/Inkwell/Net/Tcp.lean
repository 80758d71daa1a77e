import Inkwell.Net.Resolve
import Inkwell.Net.Tls

namespace Inkwell.Tcp
open Inkwell.Runtime Net

inductive State
  | idle | resolving | connecting
  deriving DecidableEq

structure Options where
  timeoutMs : UInt64
  noDelay : Bool := false
  keepalive : Bool := false
  keepaliveIdleS : UInt32 := 0
  keepaliveIntervalS : UInt32 := 0
  keepaliveCount : UInt32 := 0
  deriving DecidableEq

inductive SocketOption
  | noDelay | keepalive | keepaliveIdleS | keepaliveIntervalS | keepaliveCount
  deriving DecidableEq

def intMax : UInt32 := 0x7fffffff

/-- What `tcp_configure_socket` sets, in order; what comes of it is ignored. -/
def configure (options : Options) : List (SocketOption × UInt32) :=
  (if options.noDelay then [(.noDelay, 1)] else []) ++
    if !options.keepalive then []
    else
      (.keepalive, 1) ::
        [(.keepaliveIdleS, options.keepaliveIdleS),
          (.keepaliveIntervalS, options.keepaliveIntervalS),
          (.keepaliveCount, options.keepaliveCount)].filter fun o => 0 < o.2 && o.2 ≤ intMax

/-- What the callback is told. A socket is named by the order in which they were opened. -/
structure Result where
  socket : Option Nat
  failure : NetFailure
  deriving DecidableEq

/-- `attempt` numbers the starts that got as far as to set a callback; the code has no such field
and only the log reads it. -/
structure Connector (κ : Type) where
  loop : Bool
  state : State := .idle
  socket : Option Nat := none
  registration : Option Nat := none
  deadlineMs : UInt64 := 0
  nowMs : UInt64 := 0
  options : Options := { timeoutMs := 0 }
  onDone : Option κ := none
  attempt : Nat := 0

inductive Connected
  | done
  | inProgress
  | failed (e : Errno)
  deriving DecidableEq

structure Opening where
  opened : Option Errno := none
  watched : Option Errno := none
  connected : Connected
  deriving DecidableEq

/-- What a start is given; `literal` is whether the host is a numeric address. -/
structure Start (κ : Type) where
  host : Option Bytes
  port : UInt16
  options : Option Options
  onDone : Option κ
  nowMs : UInt64
  literal : Bool

inductive Call (κ : Type)
  | start (c : Start κ)
  | ready (events : Mask)
  | resolved (result : Resolve.Result)
  | tick (nowMs : UInt64)
  | cancel
  | shutdown

/-- A start past its checks begins an attempt, which is refused or accepted; a tick spares an
attempt it lets go on. -/
inductive Event (κ : Type)
  | began (n : Nat) (onDone : κ) (nowMs timeoutMs : UInt64)
  | looking (n : Nat)
  | opened (n i : Nat)
  | closed (i : Nat)
  | accepted (n : Nat)
  | refused (n : Nat) (e : Errno)
  | done (n : Nat) (onDone : κ) (result : Result)
  | cancelled (n : Nat) (onDone : κ)
  | spared (nowMs : UInt64) (n : Nat)
  deriving DecidableEq

/-- Of the resolver there is the deadline of its lookup; it calls back once for each, not before
the start has returned, and at the latest from the first tick at or after it. The other lists say
what is going to happen: how each socket opens, its pending error, what comes of each lookup, and
what the callbacks call. -/
structure Site (κ : Type) where
  connector : Connector κ
  lookup : Option UInt64 := none
  attempts : Nat := 0
  sockets : Nat := 0
  sets : List (Nat × SocketOption × UInt32) := []
  watching : List Nat := []
  openings : List Opening := []
  pendings : List (Option Errno) := []
  lookups : List (Option Errno) := []
  answers : List (Option Resolve.Result) := []
  scripts : List (List (Call κ)) := []
  log : List (Event κ) := []

namespace Site
variable (s : Site κ)

def note (e : Event κ) : Site κ := { s with log := e :: s.log }

def unwatch : Site κ :=
  match s.connector.registration with
  | some i => if s.connector.loop then { s with watching := s.watching.erase i } else s
  | none => s

def release : Site κ :=
  { s.unwatch with connector := { s.connector with socket := none, registration := none } }

end Site

def busy (connector : Connector κ) : Bool := connector.state != .idle

def dropSocket (s : Site κ) : Site κ :=
  match s.connector.socket with
  | none => s
  | some i => s.release.note (.closed i)

def clearAttempt (s : Site κ) : Site κ :=
  { s with connector := { s.connector with state := .idle, deadlineMs := 0, onDone := none } }

section
variable (app : Site κ → Site κ)

def completeFailure (failure : NetFailure) (s : Site κ) : Site κ :=
  let t := clearAttempt (dropSocket s)
  match s.connector.onDone with
  | none => t
  | some onDone => app (t.note (.done s.connector.attempt onDone { socket := none, failure }))

def completeSuccess (s : Site κ) : Site κ :=
  let t := clearAttempt s.release
  match s.connector.onDone, s.connector.socket with
  | some onDone, socket => app (t.note (.done s.connector.attempt onDone { socket, failure := {} }))
  | none, some i => t.note (.closed i)
  | none, none => t

def errnoFailure (e : Errno) : NetFailure := { reason := reasonFromErrno e, detail := .errno e }

def finishConnect (s : Site κ) : Site κ :=
  match s.pendings with
  | some e :: pendings => completeFailure app (errnoFailure e) { s with pendings }
  | none :: pendings => completeSuccess app { s with pendings }
  | [] => completeSuccess app s

def onFd (events : Mask) (s : Site κ) : Site κ :=
  if s.connector.state ≠ .connecting then s
  else if events &&& (OUT ||| ERR ||| HUP) ≠ 0 then finishConnect app s
  else s

def Site.adopt (s : Site κ) (startDeadline : Bool) : Site κ :=
  { s.note (.opened s.connector.attempt s.sockets) with
    sockets := s.sockets + 1
    sets := s.sets ++ (configure s.connector.options).map (s.sockets, ·)
    connector := { s.connector with
      socket := some s.sockets
      state := .connecting
      deadlineMs := if startDeadline then s.connector.nowMs + s.connector.options.timeoutMs
      else 0 } }

def Site.watch (s : Site κ) (i : Nat) : Site κ :=
  { s with watching := i :: s.watching, connector := { s.connector with registration := some i } }

def tcpConnect (connected : Connected) (s : Site κ) : Option (Errno × NetFailure) × Site κ :=
  match connected with
  | .failed e => (some (e, errnoFailure e), dropSocket s)
  | .done => (none, finishConnect app s)
  | .inProgress =>
    if s.connector.loop then (none, s)
    else (some (.enotsup, { reason := .unreachable, detail := .errno .enotsup }), dropSocket s)

def tcpOpen (startDeadline : Bool) (s : Site κ) : Option (Errno × NetFailure) × Site κ :=
  let opening := s.openings.headD { connected := .inProgress }
  let s := { s with openings := s.openings.tail }
  match opening.opened with
  | some e => (some (e, errnoFailure e), s)
  | none =>
    let i := s.sockets
    let s := s.adopt startDeadline
    if s.connector.loop then
      match opening.watched with
      | some e => (some (e, errnoFailure e), dropSocket s)
      | none => tcpConnect app opening.connected (s.watch i)
    else tcpConnect app opening.connected s

def onResolved (result : Resolve.Result) (s : Site κ) : Site κ :=
  if s.connector.state ≠ .resolving then s
  else if result.outcome ≠ .ok then
    completeFailure app
      { reason := reasonFromResolve result.outcome, detail := .resolver result.error.toInt } s
  else
    let s := { s with connector := { s.connector with state := .idle } }
    -- the next tick sets the deadline
    match tcpOpen app false s with
    | (some (_, failure), s) => completeFailure app failure s
    | (none, s) => s

def deliver (result : Resolve.Result) (s : Site κ) : Site κ :=
  match s.lookup with
  | none => s
  | some _ => onResolved app result { s with lookup := none }

def resolveStart (s : Site κ) (nowMs : UInt64) : Option Errno × Site κ :=
  if s.lookup.isSome then (some .ebusy, s)
  else
    match s.lookups with
    | some e :: lookups => (some e, { s with lookups })
    | none :: lookups => (none, { s with lookups, lookup := some (nowMs + Resolve.timeoutMs) })
    | [] => (none, { s with lookup := some (nowMs + Resolve.timeoutMs) })

def resolveFinish (s : Site κ) : Site κ :=
  match s.lookup, s.answers with
  | some _, some result :: answers => deliver app result { s with answers }
  | some _, none :: answers => { s with answers }
  | _, _ => s

def resolveExpire (nowMs : UInt64) (s : Site κ) : Site κ :=
  match s.lookup with
  | none => s
  | some deadlineMs => if deadlineMs ≤ nowMs then deliver app { outcome := .timedOut } s else s

def resolveTick (nowMs : UInt64) (s : Site κ) : Site κ :=
  resolveExpire app nowMs (resolveFinish app s)

def Site.begin (s : Site κ) (options : Options) (onDone : κ) (nowMs : UInt64) : Site κ :=
  { s.note (.began s.attempts onDone nowMs options.timeoutMs) with
    attempts := s.attempts + 1
    connector := { s.connector with
      options, nowMs, onDone := some onDone, attempt := s.attempts } }

def start (s : Site κ) (c : Start κ) : (Option Errno × NetFailure) × Site κ :=
  match c.options, c.onDone with
  | some options, some onDone =>
    if c.host.getD [] = [] ∨ c.port = 0 ∨ options.timeoutMs = 0 then
      ((some .einval, { reason := .badAddress }), s)
    else if busy s.connector then ((some .ebusy, {}), s)
    else
      let n := s.attempts
      let s := s.begin options onDone c.nowMs
      if c.literal then
        match tcpOpen app true s with
        | (some (e, failure), s) => ((some e, failure), (clearAttempt s).note (.refused n e))
        | (none, s) => ((none, {}), s.note (.accepted n))
      else
        match resolveStart s c.nowMs with
        | (some e, s) =>
          ((some e, { reason := .lookupFailed, detail := .errno e }),
            (clearAttempt s).note (.refused n e))
        | (none, s) =>
          ((none, {}), ({ s.note (.looking n) with
            connector := { s.connector with state := .resolving } }).note (.accepted n))
  | _, _ => ((some .einval, { reason := .badAddress }), s)

def Site.current (s : Site κ) : Option Nat :=
  if busy s.connector then some s.connector.attempt else none

/-- The connect's deadline. An attempt that is `seen` was there when the tick began. -/
def tickConnect (nowMs : UInt64) (seen : Option Nat) (s : Site κ) : Site κ :=
  match s.connector.state with
  | .idle => s
  | .resolving =>
    if seen = some s.connector.attempt then s.note (.spared nowMs s.connector.attempt) else s
  | .connecting =>
    if s.connector.deadlineMs = 0 then
      { s.note (.spared nowMs s.connector.attempt) with
        connector := { s.connector with deadlineMs := nowMs + s.connector.options.timeoutMs } }
    else if s.connector.deadlineMs ≤ nowMs then completeFailure app { reason := .timedOut } s
    else s.note (.spared nowMs s.connector.attempt)

def tick (nowMs : UInt64) (s : Site κ) : Site κ :=
  tickConnect app nowMs s.current
    (resolveTick app nowMs { s with connector := { s.connector with nowMs } })

def cancel (s : Site κ) : Site κ :=
  let t := clearAttempt (dropSocket { s with lookup := none })
  match s.connector.onDone with
  | none => t
  | some onDone => t.note (.cancelled s.connector.attempt onDone)

def shutdown (s : Site κ) : Site κ :=
  let s := cancel s
  { s with lookup := none, connector := { s.connector with loop := false } }

def Call.step (s : Site κ) : Call κ → Site κ
  | .start c => (Tcp.start app s c).2
  | .ready events => onFd app events s
  | .resolved result => deliver app result s
  | .tick nowMs => Tcp.tick app nowMs s
  | .cancel => Tcp.cancel s
  | .shutdown => Tcp.shutdown s

end

def callback (run : Site κ → Call κ → Site κ) (s : Site κ) : Site κ :=
  match s.scripts with
  | [] => s
  | script :: scripts => script.foldl run { s with scripts }

def appAt : (depth : Nat) → Site κ → Site κ
  | 0 => id
  | depth + 1 => callback fun s c => c.step (appAt depth) s

/-- A call, in which callbacks may call the connector again, `depth` deep. -/
def perform (depth : Nat) (s : Site κ) (c : Call κ) : Site κ := c.step (appAt depth) s

def run (depth : Nat) (s : Site κ) (calls : List (Call κ)) : Site κ := calls.foldl (perform depth) s

/-- A connector as `inkwell_tcp_connector_init` leaves it, and any future. -/
structure Site.Fresh (s : Site κ) : Prop where
  connector : ∃ loop, s.connector = { loop }
  lookup : s.lookup = none
  attempts : s.attempts = 0
  sockets : s.sockets = 0
  watching : s.watching = []
  log : s.log = []

end Inkwell.Tcp
