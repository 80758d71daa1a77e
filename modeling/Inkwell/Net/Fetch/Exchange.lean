import Inkwell.Net.Fetch.Hop

namespace Inkwell.Fetch
open Net Http

section
variable (cb : Nat → Result → Sys σ → Sys σ) (s : Sys σ) (conn : Conn)

/-- The connection ended, with `e`. A body framed by that is only whole after a close_notify. -/
def fetchOnClose (e : Errno) : Sys σ :=
  let clean := e == .enotconn
  let conn := noteSession conn e
  if !responseHeadDone conn.response then
    fetchFail cb s conn .network (.closedBeforeReplying conn.url.host clean)
  else if conn.response.framing = .untilClose ∧ !clean then
    fetchFail cb s conn .network (.droppedUnframed conn.url.host conn.response.bodyReceived)
  else
    let (response, whole) := responseFinish conn.response
    let conn := { conn with response }
    if !whole then
      fetchFail cb s conn .network (.cutShort conn.url.host conn.response.bodyReceived)
    else fetchFinish cb s conn

def fetchDecide : Option Conn × Sys σ :=
  if !conn.headSeen && responseHeadDone conn.response then
    fetchOnHead cb s { conn with headSeen := true }
  else (some conn, s)

/-- One read's worth through the codec. No request comes back once it was completed or has moved
on to another hop. -/
@[grind =] def fetchFeed : (fuel : Nat) → Sys σ → Conn → Bytes → Option Conn × Sys σ
  | 0, s, conn, _ => (some conn, s)
  | fuel + 1, s, conn, input =>
    if input = [] then (some conn, s)
    else
      let fed := responseFeed conn.response input
      let body := (input.drop fed.bodyAt).take fed.bodyLen
      let conn := { conn with response := fed.response }
      if responseFailed conn.response then
        (none, fetchFail cb s conn .protocol (.badReply conn.url.host conn.response.error))
      else
        match fetchDecide cb s conn with
        | (none, s) => (none, s)
        | (some conn, s) =>
          match if body = [] then (some conn, s) else fetchSink cb s conn body with
          | (none, s) => (none, s)
          | (some conn, s) =>
            if responseDone conn.response then (none, fetchFinish cb s conn)
            else if fed.used = 0 then (some conn, s)
            else fetchFeed fuel s conn (input.drop fed.used)

@[grind =] def receiveTurns : (turns : Nat) → Sys σ → Conn → Sys σ
  | 0, s, conn => s.put conn
  | turns + 1, s, conn =>
    let calls := s.world.sslReads
    let (r, tls, rest) := conn.tls.read readChunk calls
    let s := ({ s with world := { s.world with sslReads := rest } } : Sys σ).log
      (.read (calls.take (calls.length - rest.length)))
    let conn := { conn with tls }
    match r with
    | .error .eagain => s.put { conn with moreToRead := tls.moreToRead }
    | .error e => fetchOnClose cb s conn e
    | .ok bytes =>
      match fetchFeed cb bytes.length s { conn with progressed := true } bytes with
      | (none, s) => s
      | (some conn, s) => receiveTurns turns s conn

def fetchReceive : Sys σ := receiveTurns cb readsPerTurn s { conn with moreToRead := false }

/-- How many bytes a session took, the error that stopped it, the session and the answers left. -/
structure Sent where
  count : Nat := 0
  error : Option Errno := none
  tls : Tls.Session
  rest : List Tls.SslWrite

/-- Writes until all is sent or the session does not go on. A library with no more answers takes
all. -/
def sendAll : (fuel : Nat) → Tls.Session → List Tls.SslWrite → Bytes → Sent
  | 0, tls, writes, _ => { tls, rest := writes }
  | fuel + 1, tls, writes, left =>
    if left = [] then { tls, rest := writes }
    else
      let (answer, rest) := next (.ok left.length) writes
      match tls.write left.length answer with
      | (.error e, tls) => { error := some e, tls, rest }
      | (.ok n, tls) =>
        let sent := sendAll fuel tls rest (left.drop n)
        { sent with count := n + sent.count }

def sendStopped (e : Errno) : Sys σ :=
  if e = .eagain then s.put conn
  else fetchFail cb s (noteSession conn e) .network (.sending conn.url.host)

def sendUpload : Sys σ :=
  let left := conn.upload.drop conn.uploadSent
  let sent := sendAll left.length conn.tls s.world.sslWrites left
  let s := ({ s with world := { s.world with sslWrites := sent.rest } } : Sys σ).log
    (.sentUpload (left.take sent.count))
  let conn := { conn with
    tls := sent.tls, uploadSent := conn.uploadSent + sent.count
    progressed := conn.progressed || sent.count != 0 }
  match sent.error with
  | some e => sendStopped cb s conn e
  | none => fetchReceive cb s { conn with phase := .receiving }

def fetchSend : Sys σ :=
  let left := conn.request.drop conn.requestSent
  let sent := sendAll left.length conn.tls s.world.sslWrites left
  let s := ({ s with world := { s.world with sslWrites := sent.rest } } : Sys σ).log
    (.sentRequest (left.take sent.count))
  let conn := { conn with
    tls := sent.tls, requestSent := conn.requestSent + sent.count
    progressed := conn.progressed || sent.count != 0 }
  match sent.error with
  | some e => sendStopped cb s conn e
  | none => sendUpload cb s conn

def httpMethod : Method → HttpMethod
  | .head => .head
  | .post => .post
  | .get => .get

def fetchHandshake : Sys σ :=
  let (answer, rest) := next (.error .wantRead) s.world.handshakes
  let (rc, tls) := conn.tls.handshake answer
  let s := { s with world := { s.world with handshakes := rest } }
  let conn := { conn with tls }
  match rc with
  | some .eagain => s.put conn
  | some _ =>
    fetchFail cb s (note conn tls.reason (.tls tls.errorCode)) .tls (.session conn.url.host)
  | none =>
    let s := s.log .handshaked
    match requestFormat requestMax (httpMethod conn.method) conn.url conn.headers with
    | none => fetchFail cb s conn .protocol (.requestDoesNotFit conn.url.host)
    | some request =>
      fetchSend cb s { conn with
        request, requestSent := 0, uploadSent := 0
        response := responseInit (conn.method = .head)
        headSeen := false
        phase := .sending, lastProgressMs := s.fetch.nowMs, progressed := true }

def fetchConnected : Sys σ :=
  let (error, rest) := next none s.world.pendingErrors
  let s := { s with world := { s.world with pendingErrors := rest } }
  match error with
  | some e =>
    let conn :=
      { note conn (reasonFromErrno e) (.errno e) with detail := .connecting conn.url.host e }
    fetchTryNext cb (s.drop conn) (dropSocket conn)
  | none =>
    let family := ((conn.addresses[conn.addressNext - 1]?).map Address.family).getD 0
    let s := { s with fetch := { s.fetch with preferredFamily := family } }
    let conn := note conn .ok .none
    let (answer, rest) := next .ok s.world.tlsStarts
    let s := { s with world := { s.world with tlsStarts := rest } }
    let (rc, tls) := Tls.Session.start answer
    let conn := { conn with tls }
    match rc with
    | some _ =>
      fetchFail cb s (note conn tls.reason (.tls tls.errorCode)) .tls (.session conn.url.host)
    | none =>
      fetchHandshake cb (s.log (.tlsStarted conn.url.host)) { conn with phase := .handshake }

def fetchOnFd (events : Runtime.Mask) : Sys σ :=
  match s.fetch.conn with
  | none => s
  | some conn =>
    if conn.socket.isNone then s
    else
      match conn.phase with
      | .connecting =>
        if events &&& (Runtime.OUT ||| Runtime.ERR ||| Runtime.HUP) != 0 then fetchConnected
          cb s conn
        else s
      | .handshake => fetchHandshake cb s conn
      | .sending => fetchSend cb s conn
      | .receiving => fetchReceive cb s conn
      | .resolving => s

end

end Inkwell.Fetch
