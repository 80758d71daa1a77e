import Inkwell.Net.Fetch.Conn

namespace Inkwell.Fetch
open Net Http

def closeOutput (s : Sys σ) (conn : Conn) (outcome : Outcome) : Outcome × Conn × Sys σ :=
  if !conn.outFd then (outcome, conn, s)
  else
    let (closed, rest) := next none s.world.closes
    let s := { s with world := { s.world with closes := rest } }
    let conn := { conn with outFd := false }
    match closed with
    | some e =>
      if outcome = .ok then (.file, { conn with detail := .closing conn.outputPath e }, s)
      else (outcome, conn, s)
    | none => (outcome, conn, s)

def finalResult (conn : Conn) (outcome : Outcome) : Result :=
  { outcome
    status := if responseHeadDone conn.response then conn.response.status else 0
    body := if outcome ≠ .ok then [] else conn.body
    detail := conn.detail
    failure :=
      if outcome = .network ∨ outcome = .tls ∨ outcome = .timedOut then conn.failure else {}
    host := conn.url.host }

section
variable (cb : Nat → Result → Sys σ → Sys σ) (s : Sys σ) (conn : Conn)

/-- The request is off the fetcher and its connection closed before the completion runs, which may
start the next one. -/
def fetchComplete (outcome : Outcome) : Sys σ :=
  let s := { s with fetch := { s.fetch with conn := none, lookup := none } }
  let (outcome, conn, s) := closeOutput (s.drop conn) (dropSocket conn) outcome
  let s := s.log (.completed outcome)
  match conn.onDone with
  | none => fetchFree s conn
  | some id =>
    let result := finalResult conn outcome
    fetchFree (cb id result (s.log (.done id result))) conn

def fetchFail (outcome : Outcome) (message : Message) : Sys σ :=
  fetchComplete cb s { conn with detail := message } outcome

def noteSession (e : Errno) : Conn :=
  if e = .eproto then note conn conn.tls.reason (.tls conn.tls.errorCode)
  else if e = .enotconn then note conn .closed .none
  else note conn (reasonFromErrno e) (.errno e)

def fetchCapture (bytes : Bytes) : Option Conn × Sys σ :=
  if bytes.length > conn.responseMax ∨ conn.body.length + bytes.length > conn.responseMax then
    (none, s)
  else
    let (grown, rest) := next true s.world.allocations
    let s := { s with world := { s.world with allocations := rest } }
    if grown then (some { conn with body := conn.body ++ bytes }, s) else (none, s.log .outOfMemory)

/-- The bytes a file took, the failure if there was one, with no errno for a short write, and the
answers left. -/
structure Written where
  bytes : Bytes
  failed : Option (Option Errno) := none
  rest : List (Except Errno Nat) := []

def writeAll : List (Except Errno Nat) → Bytes → Written
  | writes, [] => { bytes := [], rest := writes }
  | [], bytes => { bytes }
  | .error .eintr :: writes, bytes => writeAll writes bytes
  | .error e :: writes, _ => { bytes := [], failed := some (some e), rest := writes }
  | .ok 0 :: writes, _ => { bytes := [], failed := some none, rest := writes }
  | .ok (n + 1) :: writes, bytes =>
    let written := writeAll writes (bytes.drop (n + 1))
    { written with bytes := bytes.take (n + 1) ++ written.bytes }

def appendFile (files : Bytes → Option Bytes) (path bytes : Bytes) : Bytes → Option Bytes :=
  fun p => if p = path then (files p).map (· ++ bytes) else files p

/-- One slice of body, to wherever it goes. No request comes back once it has been completed. -/
def fetchSink (bytes : Bytes) : Option Conn × Sys σ :=
  if !conn.outFd then
    match fetchCapture s conn bytes with
    | (some conn, s) => (some conn, s)
    | (none, s) => (none, fetchFail cb s conn .tooLarge (.replyPassed conn.responseMax))
  else if conn.outputMax > 0 ∧ bytes.length > conn.outputMax - conn.outWritten then
    (none, fetchFail cb s conn .tooLarge (.filePassed conn.outputPath conn.outputMax))
  else
    let conn := { conn with outWritten := conn.outWritten + bytes.length }
    let written := writeAll s.world.writes bytes
    let s := ({ s with
      world := { s.world with writes := written.rest }
      files :=
        appendFile s.files conn.outputPath written.bytes } : Sys σ).log (.wrote written.bytes)
    match written.failed with
    | some e => (none, fetchFail cb s conn .file (.writing conn.outputPath e))
    | none => (some conn, s)

def fetchFinish : Sys σ :=
  if conn.method = .head then
    match fetchCapture s conn conn.response.head with
    | (some conn, s) => fetchComplete cb s conn .ok
    | (none, s) => fetchFail cb s conn .tooLarge (.headPassed conn.responseMax)
  else fetchComplete cb s conn .ok

end

end Inkwell.Fetch
