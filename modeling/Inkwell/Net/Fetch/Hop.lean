import Inkwell.Net.Fetch.Body

namespace Inkwell.Fetch
open Net Http

/-- Starts connecting to an address; false, with the reason in the request, when it could not
begin. -/
def fetchOpen (s : Sys σ) (conn : Conn) (address : Address) : Bool × Conn × Sys σ :=
  let s := s.log (.tried address)
  let (socket, rest) := next (.error .enobufs) s.world.opens
  let s := { s with world := { s.world with opens := rest } }
  match socket with
  | .error e => (false, { note conn (reasonFromErrno e) (.errno e) with detail := .socket e }, s)
  | .ok socket =>
    let conn := { conn with socket := some socket }
    let s := { s with sockets := socket :: s.sockets }
    let (token, rest) := next (.error .enospc) s.world.watches
    let s := { s with world := { s.world with watches := rest } }
    match token with
    | .error e =>
      let conn := { note conn .unreachable (.errno e) with detail := .noRoomOnLoop conn.url.host }
      (false, dropSocket conn, s.drop conn)
    | .ok token =>
      let conn := { conn with token := some token }
      let s := { s with watched := token :: s.watched }
      let (connected, rest) := next none s.world.connects
      let s := { s with world := { s.world with connects := rest } }
      match connected with
      | some e =>
        let conn := { note conn (reasonFromErrno e) (.errno e) with
          detail := .connecting conn.url.host e }
        (false, dropSocket conn, s.drop conn)
      | none =>
        (true, { conn with
          phase := .connecting, attemptDeadlineMs := s.fetch.nowMs + connectAttemptMs }, s)

section
variable (cb : Nat → Result → Sys σ → Sys σ) (s : Sys σ) (conn : Conn)

def tryAddresses : (left : Nat) → Sys σ → Conn → Sys σ
  | 0, s, conn => fetchComplete cb s conn .network
  | left + 1, s, conn =>
    match conn.addresses[conn.addressNext]? with
    | none => fetchComplete cb s conn .network
    | some address =>
      match fetchOpen s { conn with addressNext := conn.addressNext + 1 } address with
      | (true, conn, s) => s.put conn
      | (false, conn, s) => tryAddresses left s conn

def fetchTryNext : Sys σ := tryAddresses cb (conn.addresses.length - conn.addressNext) s conn

/-- The family that last connected goes first; the rest keep their order. -/
def preferFamily (family : Nat) (addresses : List Address) : List Address :=
  match addresses with
  | [] => []
  | first :: others =>
    if first.family = family then addresses
    else
      match others.dropWhile (·.family != family) with
      | [] => addresses
      | preferred :: after => preferred :: first :: (others.takeWhile (·.family != family) ++ after)

def fetchOnResolved (result : ResolveResult) : Sys σ :=
  match s.fetch.conn with
  | none => s
  | some conn =>
    if conn.phase ≠ .resolving then s
    else if result.outcome ≠ .ok ∨ result.addresses = [] then
      let reason := if result.outcome = .ok then .unknownHost else reasonFromResolve result.outcome
      fetchFail cb s (note conn reason (.resolver result.error)) .network
        (.couldNotResolve conn.url.host result.outcome)
    else
      fetchTryNext cb s { conn with
        addresses := preferFamily s.fetch.preferredFamily result.addresses }

def literals (literal : Bytes → Option Address) : (room : Nat) → List Bytes → Option (List Address)
  | 0, _ => some []
  | _ + 1, [] => some []
  | room + 1, host :: hosts =>
    match literal host with
    | none => none
    | some address => (literals literal room hosts).map (address :: ·)

def connectToList : Option (List Address) :=
  let hosts := (s.fetch.connectHost.splitOn ','.toUInt8).filter (· ≠ [])
  match literals (s.world.literal · s.fetch.connectPort) addressesMax hosts with
  | some [] => none
  | addresses => addresses

def resolveStart (host : Bytes) : Option Errno × Sys σ :=
  if host = [] then (some .einval, s)
  else if !s.fetch.hasLoop then (some .enotsup, s)
  else if s.fetch.lookup.isSome then (some .ebusy, s)
  else
    let (refused, rest) := next none s.world.lookups
    let s := { s with world := { s.world with lookups := rest } }
    match refused with
    | some e => (some e, s)
    | none =>
      (none, { s with fetch := { s.fetch with lookup := some (s.fetch.nowMs + resolveTimeoutMs) } })

def lookUp (host : Bytes) : Sys σ :=
  match resolveStart s host with
  | (none, s) => s.put conn
  | (some e, s) =>
    fetchFail cb s (note conn .lookupFailed (.errno e)) .network (.couldNotLookUp host e)

def hopping : Conn :=
  { conn with
    phase := .resolving, headSeen := false, failure := {}, addresses := [], addressNext := 0
    response := responseInit (conn.method = .head) }

def fetchHop : Sys σ :=
  let conn := hopping conn
  let s := s.log (.hop conn.url)
  if s.fetch.connectHost ≠ [] then
    match connectToList s with
    | none => lookUp cb s conn s.fetch.connectHost
    | some addresses => fetchTryNext cb s { conn with addresses }
  else
    match s.world.literal conn.url.host conn.url.port with
    | some address => fetchTryNext cb s { conn with addresses := [address] }
    | none => lookUp cb s conn conn.url.host

def redirects (status : Nat) : Bool :=
  status == 301 || status == 302 || status == 303 || status == 307 || status == 308

def fetchRedirect : Sys σ :=
  match responseHeader conn.response (ascii "location") with
  | none => fetchFail cb s conn .httpStatus (.noLocation conn.response.status)
  | some location =>
    if conn.redirects ≥ redirectsMax then fetchFail cb s conn .protocol
      (.tooManyRedirects redirectsMax)
    else if location.length ≥ urlMax then fetchFail cb s conn .protocol
      (.longLocation location.length)
    else
      match urlResolve conn.url location with
      | none => fetchFail cb s conn .protocol (.unusableLocation (location.take 96))
      | some url =>
        if !url.tls then fetchFail cb s conn .protocol (.redirectOffHttps (url.host.take 96))
        else fetchHop cb (s.drop conn) { dropSocket conn with url, redirects := conn.redirects + 1 }

def createFile (files : Bytes → Option Bytes) (path : Bytes) : Bytes → Option Bytes :=
  fun p => if p = path then some [] else files p

/-- Decides what the rest of the reply is for. No request comes back once it was completed or has
moved on to another hop. -/
def fetchOnHead : Option Conn × Sys σ :=
  let status := conn.response.status
  let s := s.log (.replied status)
  if conn.method = .post ∧ 300 ≤ status ∧ status ≤ 399 then
    (none, fetchFail cb s conn .protocol (.postRedirected status conn.url.host))
  else if redirects status then (none, fetchRedirect cb s conn)
  else if status < 200 ∨ status > 299 then
    (none, fetchFail cb s conn .httpStatus (.httpStatus status conn.url.host))
  else if conn.ranged ∧ status ≠ 206 then
    (none, fetchFail cb s conn .protocol (.rangeIgnored status conn.url.host))
  else if conn.outputPath ≠ [] ∧ conn.method = .get then
    let (refused, rest) := next none s.world.creates
    let s := { s with world := { s.world with creates := rest } }
    let conn := { conn with outWritten := 0 }
    match refused with
    | some e => (none, fetchFail cb s conn .file (.opening conn.outputPath e))
    | none =>
      (some { conn with outFd := true },
        ({ s with files := createFile s.files conn.outputPath } : Sys σ).log
          (.created conn.outputPath))
  else (some conn, s)

end

end Inkwell.Fetch
