import Inkwell.Codec.Http.Response
import Inkwell.Codec.Http.Url
import Inkwell.Net.Tls
import Inkwell.Runtime.Loop

namespace Inkwell.Fetch
open Net Http

def readChunk : Nat := 16384
def readsPerTurn : Nat := 8
def headersMax : Nat := 4
def headerMax : Nat := 256
def pathMax : Nat := 256
def defaultResponseMax : Nat := 65536
def redirectsMax : Nat := 5
def bodyMax : Nat := 1024 * 1024
def requestMax : Nat := urlMax + hostMax + 128 + (headersMax + 2) * (headerMax + 2)
def defaultTimeoutMs : Nat := 30000
def connectAttemptMs : Nat := 3000
def addressesMax : Nat := 4

inductive Phase
  | resolving | connecting | handshake | sending | receiving
  deriving DecidableEq

inductive Method
  | get | head | post
  deriving DecidableEq

inductive Outcome
  | ok | httpStatus | tooLarge | network | tls | protocol | file | timedOut
  deriving DecidableEq

/-- What went wrong, one constructor for each text. A location or a host that is quoted is cut to
96 bytes. -/
inductive Message
  | none
  | closing (path : Bytes) (e : Errno)
  | replyPassed (cap : Nat)
  | filePassed (path : Bytes) (cap : Nat)
  | writing (path : Bytes) (e : Option Errno)
  | headPassed (cap : Nat)
  | postRedirected (status : Nat) (host : Bytes)
  | noLocation (status : Nat)
  | tooManyRedirects (max : Nat)
  | longLocation (len : Nat)
  | unusableLocation (location : Bytes)
  | redirectOffHttps (host : Bytes)
  | httpStatus (status : Nat) (host : Bytes)
  | rangeIgnored (status : Nat) (host : Bytes)
  | opening (path : Bytes) (e : Errno)
  | closedBeforeReplying (host : Bytes) (clean : Bool)
  | droppedUnframed (host : Bytes) (received : Nat)
  | cutShort (host : Bytes) (received : Nat)
  | badReply (host : Bytes) (error : HttpError)
  | sending (host : Bytes)
  | session (host : Bytes)
  | requestDoesNotFit (host : Bytes)
  | socket (e : Errno)
  | noRoomOnLoop (host : Bytes)
  | connecting (host : Bytes) (e : Errno)
  | noAnswer (host : Bytes) (ms : Nat)
  | couldNotResolve (host : Bytes) (outcome : ResolveOutcome)
  | couldNotLookUp (host : Bytes) (e : Errno)
  | didNotFinish (host : Bytes)
  | nothingFrom (host : Bytes) (ms : Nat)
  deriving DecidableEq

structure Result where
  outcome : Outcome
  status : Nat
  body : Bytes
  detail : Message
  failure : NetFailure
  host : Bytes
  deriving DecidableEq

/-- `onDone` says which completion is to be called; `headers` are the lines before the first that
is absent. -/
structure Request where
  url : Bytes
  method : Method := .get
  headers : List Bytes := []
  body : Option Bytes := none
  bodyLen : Nat := 0
  outputPath : Option Bytes := none
  timeoutMs : Nat := 0
  idleTimeoutMs : Nat := 0
  responseMax : Nat := 0
  outputMax : Nat := 0
  onDone : Option Nat := none
  deriving DecidableEq

structure Address where
  family : Nat
  bytes : Bytes
  deriving DecidableEq

structure Conn where
  method : Method := .get
  headers : List Bytes := []
  upload : Bytes := []
  uploadSent : Nat := 0
  ranged : Bool := false
  outputPath : Bytes := []
  responseMax : Nat := 0
  outputMax : Nat := 0
  deadlineMs : Nat := 0
  idleTimeoutMs : Nat := 0
  onDone : Option Nat := none
  url : Url := {}
  redirects : Nat := 0
  phase : Phase := .resolving
  addresses : List Address := []
  addressNext : Nat := 0
  attemptDeadlineMs : Nat := 0
  lastProgressMs : Nat := 0
  progressed : Bool := false
  socket : Option Nat := none
  token : Option Nat := none
  tls : Tls.Session := {}
  request : Bytes := []
  requestSent : Nat := 0
  response : Response := { headRequest := false }
  headSeen : Bool := false
  moreToRead : Bool := false
  outFd : Bool := false
  outWritten : Nat := 0
  failure : NetFailure := {}
  body : Bytes := []
  detail : Message := .none

/-- `lookup` is the deadline of the lookup in the resolver, and `userAgent` that of the process. -/
structure Fetcher where
  hasLoop : Bool
  lookup : Option Nat := none
  conn : Option Conn := none
  nowMs : Nat := 0
  connectHost : Bytes := []
  connectPort : Nat := 0
  preferredFamily : Nat := 0
  userAgent : Bytes := ascii "inkwell-fetch/1"

structure ResolveResult where
  outcome : ResolveOutcome
  error : Int := 0
  addresses : List Address := []

/-- What is answered next, and what text is the literal of which address. Writes of `ok n` take
`n` of the bytes, or all if they are fewer. -/
structure World where
  literal : Bytes → Nat → Option Address := fun _ _ => none
  opens : List (Except Errno Nat) := []
  watches : List (Except Errno Nat) := []
  connects : List (Option Errno) := []
  pendingErrors : List (Option Errno) := []
  lookups : List (Option Errno) := []
  lookupAnswers : List (Option ResolveResult) := []
  tlsStarts : List Tls.Started := []
  handshakes : List (Except Tls.SslCode Unit) := []
  sslReads : List Tls.SslRead := []
  sslWrites : List Tls.SslWrite := []
  allocations : List Bool := []
  creates : List (Option Errno) := []
  writes : List (Except Errno Nat) := []
  closes : List (Option Errno) := []

/-- A request is `accepted` when the call that starts it returns 0. -/
inductive Event
  | started (request : Request) (nowMs : Nat)
  | accepted (callback : Option Nat)
  | hop (url : Url)
  | tried (address : Address)
  | tlsStarted (host : Bytes)
  | handshaked
  | sentRequest (bytes : Bytes)
  | sentUpload (bytes : Bytes)
  | read (calls : List Tls.SslRead)
  | replied (status : Nat)
  | created (path : Bytes)
  | wrote (bytes : Bytes)
  | outOfMemory
  | completed (outcome : Outcome)
  | done (callback : Nat) (result : Result)
  | cancelled
  | ticked (nowMs : Nat)
  deriving DecidableEq

/-- A fetcher in its world, with its sockets and watches, the files and the application's state.
`trace` lists what happened, newest first; the code keeps no such list. -/
structure Sys (σ : Type) where
  fetch : Fetcher
  world : World := {}
  sockets : List Nat := []
  watched : List Nat := []
  files : Bytes → Option Bytes := fun _ => none
  trace : List Event := []
  app : σ

def Sys.log (s : Sys σ) (e : Event) : Sys σ := { s with trace := e :: s.trace }

def Sys.put (s : Sys σ) (conn : Conn) : Sys σ :=
  { s with fetch := { s.fetch with conn := some conn } }

def note (conn : Conn) (reason : NetReason) (detail : Detail) : Conn :=
  { conn with failure := { reason, detail } }

def dropSocket (conn : Conn) : Conn :=
  { conn with tls := conn.tls.stop, socket := none, token := none, moreToRead := false }

/-- The system once the hop's connection is closed: its socket, and the loop's watch on it. -/
def Sys.drop (s : Sys σ) (conn : Conn) : Sys σ :=
  { s with
    watched := s.watched.filter (conn.token ≠ some ·)
    sockets := s.sockets.filter (conn.socket ≠ some ·) }

def fetchFree (s : Sys σ) (conn : Conn) : Sys σ :=
  let s := s.drop conn
  if conn.outFd then { s with world := { s.world with closes := s.world.closes.tail } } else s

end Inkwell.Fetch
