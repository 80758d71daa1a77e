import Inkwell.Codec.Mqtt.Packet
import Inkwell.Net.Tls
import Inkwell.Runtime.Loop

namespace Inkwell.Mqtt
open Net

def addressMax : Nat := 256
def usernameMax : Nat := 128
def passwordMax : Nat := 128
def clientIdMax : Nat := 128
def filtersMax : Nat := 16
def filterMax : Nat := 256
def packetMax : Nat := 1024
def outboundMax : Nat := 4096
def topicMax : Nat := 256
def keepaliveS : Nat := 60
def pingIntervalMs : Nat := 30000
def silenceTimeoutMs : Nat := 90000
def connectTimeoutMs : Nat := 10000
def handshakeTimeoutMs : Nat := 15000
def backoffBaseMs : Nat := 5000
def backoffMaxMs : Nat := 300000
def readsPerTurn : Nat := 8
def backoffShiftMax : Nat := 6

inductive State
  | off | resolving | connecting | securing | greeting | ready | waiting
  deriving DecidableEq

/-- The failures this client or the broker names. -/
inductive Refusal
  | none | badAddress | noTls | protocol | badLogin | notAllowed | brokerBusy | other
  deriving DecidableEq

/-- One failure, waiting to be shown: `reason` and `detail` are the network's half. -/
structure Failure where
  reason : NetReason := .ok
  detail : Detail := .none
  refusal : Refusal := .none
  code : UInt8 := 0
  deriving DecidableEq

structure Config where
  address : Bytes := []
  username : Bytes := []
  password : Bytes := []
  clientId : Bytes := []
  tlsEnabled : Bool := false
  deriving DecidableEq

structure Stats where
  published : UInt32 := 0
  received : UInt32 := 0
  dropped : UInt32 := 0
  skipped : UInt32 := 0
  connections : UInt32 := 0
  deriving DecidableEq

/-- The write queue: `bytes` are those below `out_len`. -/
structure Outbound where
  bytes : Bytes := []
  sent : Nat := 0
  pending : Nat := 0
  deriving DecidableEq

/-- `input` and `filters` hold what is below `in_len` and `filter_count`, a lookup is known by its
deadline, and times do not wrap. -/
structure Client where
  hasLoop : Bool
  state : State := .off
  config : Config := {}
  host : Bytes := []
  port : Nat := 0
  lookup : Option Nat := none
  socket : Option Nat := none
  registrationToken : Option Nat := none
  wantWrite : Bool := false
  generation : Nat := 0
  tls : Tls.Session := {}
  input : Bytes := []
  moreToRead : Bool := false
  readWantsWrite : Bool := false
  skipRemaining : Nat := 0
  out : Outbound := {}
  filters : List Bytes := []
  filterSent : Nat := 0
  subscribeId : Nat := 0
  nowMs : Nat := 0
  deadlineMs : Nat := 0
  nextPingMs : Nat := 0
  lastHeardMs : Nat := 0
  retryAtMs : Nat := 0
  failures : Nat := 0
  stats : Stats := {}
  failure : Failure := {}
  onMessage : Bool := false
  onState : Bool := false
  deriving DecidableEq

inductive ApiCall
  | start (config : Config) (onMessage onState : Bool) (nowMs : Nat)
  | stop
  | subscribe (filter : Bytes)
  | clearFilters
  | publish (topic payload : Bytes) (retained : Bool)
  deriving DecidableEq

inductive Offer
  | accepted (n : Nat)
  | blocked
  | refused (e : Errno)
  deriving DecidableEq

/-- `started` says whether a message callback was given, `suback` comes with the id waited for,
`resubscribed` and `cleared` with the one in flight, `armed` with the times of the failure and the
retry, and `called` with the client as a callback finds it. -/
inductive Event
  | started (onMessage : Bool)
  | stopped
  | attempted
  | opened (stats : Stats)
  | entered (state : State)
  | failed (f : Failure)
  | armed (nowMs retryAtMs : Nat)
  | retried (nowMs : Nat)
  | read (bytes : Bytes)
  | offered (secure : Bool) (bytes : Bytes) (answer : Offer)
  | queued (packet : Bytes)
  | disconnecting
  | delivered (topic payload : Bytes)
  | skipped
  | suback (id expected : Nat) (code : UInt8)
  | verdict (filter : Bytes) (code : UInt8)
  | filterRead (index count : Nat)
  | resubscribed (inFlight : Nat)
  | noRoom
  | cleared (inFlight : Nat)
  | called (client : Client)
  deriving DecidableEq

/-- Not the error by which the client says that its own queue is full. -/
structure SendError where
  errno : Errno
  not_full : errno ≠ .enospc

/-- What the system, the peer and the application answer next. A send of `ok n` takes `n + 1` of
the bytes, or all if they are fewer. -/
structure World where
  opens : List (Except Errno Nat) := []
  watches : List (Except Errno Nat) := []
  connects : List (Option Errno) := []
  pendingErrors : List (Option Errno) := []
  literals : List Bool := []
  lookups : List (Option Errno) := []
  lookupAnswers : List (Option (ResolveOutcome × Int)) := []
  tlsStarts : List Tls.Started := []
  handshakes : List (Except Tls.SslCode Unit) := []
  recvs : List (Except Errno Bytes) := []
  sslReads : List Tls.SslRead := []
  sends : List (Except SendError Nat) := []
  sslWrites : List Tls.SslWrite := []
  app : List (List ApiCall) := []

/-- The client in its world. `trace` lists what happened, newest first; the code keeps no such
list. -/
structure Sys where
  client : Client
  world : World := {}
  trace : List Event := []

def Sys.log (s : Sys) (e : Event) : Sys := { s with trace := e :: s.trace }

end Inkwell.Mqtt
