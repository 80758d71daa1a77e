import Inkwell.Net.Fetch.Exchange

namespace Inkwell.Fetch
open Net Http

/-- Case-blind test for the name a header line begins with; `name` is in lower case. -/
def headerIs (line name : Bytes) : Bool := (line.take name.length).map lower == name

/-- A header line a request may carry. The length of a POST's body is not the caller's to give. -/
def admitsHeader (method : Method) (line : Bytes) : Bool :=
  line.length < headerMax &&
    !(method == .post &&
      (headerIs line (ascii "content-length:") || headerIs line (ascii "transfer-encoding:")))

def Request.lines (request : Request) : List Bytes := request.headers.take headersMax

def sentHeaders (userAgent : Bytes) (request : Request) : List Bytes :=
  request.lines ++
    (if request.lines.any (headerIs · (ascii "user-agent:")) then []
      else [ascii "User-Agent: " ++ userAgent]) ++
    (if request.method = .post then [ascii "Content-Length: " ++ ascii (toString request.bodyLen)]
      else [])

def Request.ranged (request : Request) : Bool := request.lines.any (headerIs · (ascii "range:"))

def Request.consistent (request : Request) : Bool :=
  if request.method = .post then
    (request.body.isSome || request.bodyLen == 0) && request.outputPath.isNone
  else request.body.isNone && request.bodyLen == 0

def connOf (userAgent : Bytes) (request : Request) (url : Url) (nowMs : Nat) : Conn :=
  { url
    headers := sentHeaders userAgent request
    ranged := request.ranged
    outputPath := request.outputPath.getD []
    upload := (request.body.getD []).take request.bodyLen
    method := request.method
    responseMax := if request.responseMax > 0 then request.responseMax else defaultResponseMax
    outputMax := request.outputMax
    deadlineMs := nowMs + if request.timeoutMs > 0 then request.timeoutMs else defaultTimeoutMs
    idleTimeoutMs := request.idleTimeoutMs }

def Sys.allocate (s : Sys σ) : Bool × Sys σ :=
  let (there, rest) := next true s.world.allocations
  (there, { s with world := { s.world with allocations := rest } })

/-- The first hop may fail: the return says so and not the completion, which is held back until
then. -/
def fetchBegin (s : Sys σ) (request : Request) (url : Url) (nowMs : Nat) : Option Errno × Sys σ :=
  let conn := connOf s.fetch.userAgent request url nowMs
  let s := ({ s with fetch := { s.fetch with nowMs } } : Sys σ).log (.started request nowMs)
  let s := fetchHop (fun _ _ s => s) s conn
  match s.fetch.conn with
  | none => (some .eio, s)
  | some conn =>
    (none, (s.put { conn with onDone := request.onDone }).log (.accepted request.onDone))

def fetchStart (s : Sys σ) (request : Request) (nowMs : Nat) : Option Errno × Sys σ :=
  if request.onDone.isNone then (some .einval, s)
  else if !s.fetch.hasLoop then (some .enotsup, s)
  else if s.fetch.conn.isSome then (some .ebusy, s)
  else if !request.consistent then (some .einval, s)
  else if request.bodyLen > bodyMax then (some .e2big, s)
  else
    match s.allocate with
    | (false, s) => (some .enomem, s)
    | (true, s) =>
      match urlParse request.url with
      | none => (some .einval, s)
      | some url =>
        if !url.tls then (some .einval, s)
        else if !request.lines.all (admitsHeader request.method) then (some .einval, s)
        else if (request.outputPath.getD []).length ≥ pathMax then (some .einval, s)
        else if request.bodyLen > 0 then
          match s.allocate with
          | (false, s) => (some .enomem, s)
          | (true, s) => fetchBegin s request url nowMs
        else fetchBegin s request url nowMs

def fetchCancel (s : Sys σ) : Sys σ :=
  match s.fetch.conn with
  | none => s
  | some conn =>
    let s := { s with fetch := { s.fetch with conn := none, lookup := none } }
    (fetchFree s conn).log .cancelled

def fetchShutdown (s : Sys σ) : Sys σ :=
  let s := fetchCancel s
  { s with fetch := { s.fetch with lookup := none } }

def connectHostMax : Nat := 192
def userAgentMax : Nat := 96

def fetchConnectTo (s : Sys σ) (host : Option Bytes) (port : Nat) : Sys σ :=
  let host := host.getD []
  { s with fetch := { s.fetch with
      connectHost := if host.length < connectHostMax then host else [], connectPort := port } }

def fetchSetUserAgent (s : Sys σ) (product : Bytes) : Sys σ :=
  let product := if product = [] then ascii "inkwell-fetch/1" else product
  { s with fetch := { s.fetch with userAgent := product.take (userAgentMax - 1) } }

/-- The number at the front of the bytes, in digits; none if it does not fit 64 bits. -/
def leadingNumber : Nat → Bytes → Option Nat
  | parsed, [] => some parsed
  | parsed, c :: cs =>
    if !digit c then some parsed
    else if parsed > (uint64Max - 9) / 10 then none
    else leadingNumber (parsed * 10 + (c - '0'.toUInt8).toNat) cs

def contentLengthValue (value : Bytes) : Option Nat :=
  let digits := value.dropWhile blank
  if digits.head?.any digit then leadingNumber 0 digits else none

def contentLengthFrom (begins : Bool) : Bytes → Option Nat
  | [] => none
  | c :: cs =>
    if begins && headerIs (c :: cs) (ascii "content-length:") then
      contentLengthValue ((c :: cs).drop (ascii "content-length:").length)
    else contentLengthFrom (c == LF) cs

/-- The length a reply's head gives, as a HEAD's completion is told it. -/
def fetchContentLength (headers : Bytes) : Option Nat := contentLengthFrom true headers

section
variable (cb : Nat → Result → Sys σ → Sys σ) (s : Sys σ) (conn : Conn)

/-- Takes the answer of a lookup that has finished. The resolver lets go of it first. -/
def resolveTryFinish : Sys σ :=
  if s.fetch.lookup.isNone then s
  else
    let (answer, rest) := next none s.world.lookupAnswers
    let s := { s with world := { s.world with lookupAnswers := rest } }
    match answer with
    | none => s
    | some result => fetchOnResolved cb { s with fetch := { s.fetch with lookup := none } } result

def resolveTick (nowMs : Nat) : Sys σ :=
  let s := resolveTryFinish cb s
  match s.fetch.lookup with
  | none => s
  | some deadline =>
    if nowMs ≥ deadline then
      fetchOnResolved cb { s with fetch := { s.fetch with lookup := none } }
        { outcome := .timedOut }
    else s

def idle (nowMs : Nat) : Bool :=
  conn.idleTimeoutMs > 0 && (conn.phase == .sending || conn.phase == .receiving) &&
    nowMs ≥ conn.lastProgressMs && nowMs - conn.lastProgressMs ≥ conn.idleTimeoutMs

def tickConn (nowMs : Nat) : Sys σ :=
  if nowMs ≥ conn.deadlineMs then
    let reason := if conn.phase = .resolving then .lookupTimedOut else .timedOut
    fetchFail cb s (note conn reason .none) .timedOut (.didNotFinish conn.url.host)
  else
    let conn := if conn.progressed then { conn with progressed := false, lastProgressMs := nowMs }
      else conn
    if idle conn nowMs then
      fetchFail cb s (note conn .timedOut .none) .timedOut
        (.nothingFrom conn.url.host conn.idleTimeoutMs)
    else if conn.phase = .connecting ∧ nowMs ≥ conn.attemptDeadlineMs then
      let conn := { note conn .timedOut (.errno .etimedout) with
        detail := .noAnswer conn.url.host connectAttemptMs }
      fetchTryNext cb (s.drop conn) (dropSocket conn)
    else if conn.moreToRead && conn.phase == .receiving then fetchReceive cb s conn
    else s.put conn

def fetchTick (nowMs : Nat) : Sys σ :=
  let s := ({ s with fetch := { s.fetch with nowMs } } : Sys σ).log (.ticked nowMs)
  let s := resolveTick cb s nowMs
  match s.fetch.conn with
  | none => s
  | some conn => tickConn cb s conn nowMs

end

inductive ApiCall
  | start (request : Request) (nowMs : Nat)
  | cancel
  | shutdown
  | connectTo (host : Option Bytes) (port : Nat)
  | setUserAgent (product : Bytes)

def apiCall (s : Sys σ) : ApiCall → Sys σ
  | .start request nowMs => (fetchStart s request nowMs).2
  | .cancel => fetchCancel s
  | .shutdown => fetchShutdown s
  | .connectTo host port => fetchConnectTo s host port
  | .setUserAgent product => fetchSetUserAgent s product

/-- What an application can do: call the fetcher, or see to its own affairs and files. -/
inductive AppStep (s : Sys σ) : Sys σ → Prop
  | call (c : ApiCall) : AppStep s (apiCall s c)
  | own (app : σ) (files : Bytes → Option Bytes) : AppStep s { s with app, files }

/-- The completions of an application: whatever it does in them, it does by such steps. -/
structure Callback (σ : Type) where
  run : Nat → Result → Sys σ → Sys σ
  steps : ∀ id result s, Relation.ReflTransGen AppStep s (run id result s)

def idleCallback : Callback Unit where
  run _ _ s := s
  steps _ _ _ := .refl

/-- The application, the clock, or an event of the loop on the socket or on the lookup. -/
inductive Op (σ : Type)
  | call (c : ApiCall)
  | own (app : σ) (files : Bytes → Option Bytes)
  | tick (nowMs : Nat)
  | socketEvent (events : Runtime.Mask)
  | lookupEvent

def step (cb : Callback σ) (s : Sys σ) : Op σ → Sys σ
  | .call c => apiCall s c
  | .own app files => { s with app, files }
  | .tick nowMs => fetchTick cb.run s nowMs
  | .socketEvent events => fetchOnFd cb.run s events
  | .lookupEvent => resolveTryFinish cb.run s

def run (cb : Callback σ) (s : Sys σ) (ops : List (Op σ)) : Sys σ := ops.foldl (step cb) s

def boot (hasLoop : Bool) (world : World) (files : Bytes → Option Bytes) (app : σ) : Sys σ :=
  { fetch := { hasLoop }, world, files, app }

end Inkwell.Fetch
