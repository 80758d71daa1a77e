import Inkwell.Library.Bytes
import Inkwell.Net.Reason

namespace Inkwell.Tls
open Net List

/-- A certificate that does not verify says whether it is not valid yet and whether anything else
is wrong with it. -/
inductive SslCode
  | wantRead | wantWrite | receivedNewSessionTicket | peerCloseNotify | netConnReset
  | certVerifyFailed (early other : Bool)
  | other (code : Int)
  deriving DecidableEq

/-- A client session; `started` says that it has library state. -/
structure Session where
  started : Bool := false
  handshaked : Bool := false
  wantsWrite : Bool := false
  moreToRead : Bool := false
  errorCode : Option SslCode := none
  clockBehind : Bool := false
  deriving DecidableEq

def ticketsPerRead : Nat := 8

def netRecvFailed : Int := -0x4C

def Session.recordError (t : Session) (code : SslCode) : Session :=
  { t with errorCode := some code, clockBehind := false }

/-- What a return code that is no success means to a caller that speaks errno. -/
def Session.translate (t : Session) (code : SslCode) : Errno × Session :=
  match code with
  | .wantRead => (.eagain, { t with wantsWrite := false })
  | .wantWrite => (.eagain, { t with wantsWrite := true })
  | .peerCloseNotify => (.enotconn, { t with wantsWrite := false })
  | .netConnReset => (.econnreset, ({ t with wantsWrite := false } : Session).recordError code)
  | code => (.eproto, ({ t with wantsWrite := false } : Session).recordError code)

/-- `inkwell_tls_client_start`: its errors are those of the library and of the roots, recorded or
not. -/
inductive Started
  | ok
  | failed (e : Errno) (code : Option SslCode)
  deriving DecidableEq

def Session.start (answer : Started) : Option Errno × Session :=
  match answer with
  | .ok => (none, { started := true })
  | .failed e code => (some e, { errorCode := code })

def Session.handshake (t : Session) (answer : Except SslCode Unit) : Option Errno × Session :=
  if !t.started then (some .einval, t)
  else if t.handshaked then (none, t)
  else
    match answer with
    | .ok () => (none, { t with wantsWrite := false, handshaked := true })
    | .error (.certVerifyFailed early other) =>
      (some .eproto, { t with
        clockBehind := early && !other, errorCode := some (.certVerifyFailed early other)
        wantsWrite := false })
    | .error code => let (e, t) := t.translate code; (some e, t)

/-- A socket at its end is a connection cut off, and never nothing read. -/
def bioRecv (got : Except Errno Bytes) : Except SslCode Bytes :=
  match got with
  | .ok [] => .error .netConnReset
  | .ok bytes => .ok bytes
  | .error .eagain | .error .eintr => .error .wantRead
  | .error .econnreset | .error .econnaborted => .error .netConnReset
  | .error _ => .error (.other netRecvFailed)

/-- A call of `mbedtls_ssl_read`: its answer, what it read from the socket, and whether a
close_notify had come in by its end. -/
structure SslRead where
  answer : Except SslCode Bytes
  recvs : List (Except Errno Bytes) := []
  closeNotify : Bool := false
  deriving DecidableEq

/-- A close_notify is reported only when one was received, and 0 only when the callback that reads
the socket returned it. -/
structure SslRead.Documented (call : SslRead) : Prop where
  notified : call.answer = .error .peerCloseNotify → call.closeNotify
  ended : call.answer = .ok [] → ∃ got ∈ call.recvs, bioRecv got = .ok []

instance (call : SslRead) : Decidable call.Documented :=
  decidable_of_iff ((call.answer = .error .peerCloseNotify → call.closeNotify) ∧
    (call.answer = .ok [] → ∃ got ∈ call.recvs, bioRecv got = .ok []))
    ⟨fun h => ⟨h.1, h.2⟩, fun h => ⟨h.notified, h.ended⟩⟩

/-- Reads past session tickets. A library with no more answers wants to read. -/
def sslReadPast (cap : Nat) :
    (tickets : Nat) → List SslRead → Option (Except SslCode Bytes) × List SslRead
  | 0, calls => (none, calls)
  | _ + 1, [] => (some (.error .wantRead), [])
  | tickets + 1, call :: calls =>
    match call.answer with
    | .error .receivedNewSessionTicket => sslReadPast cap tickets calls
    | .error code => (some (.error code), calls)
    | .ok bytes => (some (.ok (bytes.take cap)), calls)

def Session.read (t : Session) (cap : Nat) (calls : List SslRead) :
    Except Errno Bytes × Session × List SslRead :=
  let t := { t with moreToRead := false }
  match sslReadPast cap ticketsPerRead calls with
  | (none, rest) => (.error .eagain, { t with wantsWrite := false, moreToRead := true }, rest)
  | (some (.ok []), rest) => (.error .enotconn, t, rest)
  | (some (.ok bytes), rest) => (.ok bytes, { t with wantsWrite := false }, rest)
  | (some (.error code), rest) => let (e, t) := t.translate code; (.error e, t, rest)

def SslRead.plaintext (cap : Nat) (call : SslRead) : Bytes :=
  match call.answer with
  | .ok bytes => bytes.take cap
  | .error _ => []

def Finished (calls : List SslRead) : Prop :=
  ∃ last, calls.getLast? = some last ∧
    (last.answer = .error .peerCloseNotify ∨ last.answer = .ok [])

theorem sslReadPast_spec (calls : List SslRead) :
    ∃ used, calls = used ++ (sslReadPast cap tickets calls).2 ∧
      match (sslReadPast cap tickets calls).1 with
      | some (.ok bytes) => (used.map (SslRead.plaintext cap)).flatten = bytes ∧
          ∃ last whole, used.getLast? = some last ∧ last.answer = .ok whole ∧ bytes = whole.take cap
      | some (.error code) => (used.map (SslRead.plaintext cap)).flatten = [] ∧
          (code = .wantRead ∨ ∃ last, used.getLast? = some last ∧ last.answer = .error code)
      | none => (used.map (SslRead.plaintext cap)).flatten = [] := by
  induction tickets generalizing calls with
  | zero => exact ⟨[], rfl, rfl⟩
  | succ tickets ih =>
    cases calls with
    | nil => exact ⟨[], rfl, rfl, .inl rfl⟩
    | cons call calls =>
      unfold sslReadPast
      split
      · rename_i hticket
        obtain ⟨used, hcalls, hresult⟩ := ih calls
        have hnone : call.plaintext cap = [] := by rw [SslRead.plaintext, hticket]
        have hlast : ∀ last, used.getLast? = some last → (call :: used).getLast? = some last := by
          intro _ h
          rw [getLast?_cons, h, Option.getD_some]
        have htext : ((call :: used).map (SslRead.plaintext cap)).flatten =
            (used.map (SslRead.plaintext cap)).flatten := by
          rw [map_cons, flatten_cons, hnone, nil_append]
        refine ⟨call :: used, congrArg (call :: ·) hcalls, ?_⟩
        rw [htext]
        generalize sslReadPast cap tickets calls = w at *
        obtain ⟨r, _⟩ := w
        rcases r with _ | _ | _
        · exact hresult
        · obtain ⟨hnil, hcode⟩ := hresult
          exact ⟨hnil, hcode.imp_right fun ⟨last, hl, ha⟩ => ⟨last, hlast last hl, ha⟩⟩
        · obtain ⟨hbytes, last, whole, hl, ha, hcut⟩ := hresult
          exact ⟨hbytes, last, whole, hlast last hl, ha, hcut⟩
      · rename_i hcode
        have hnone : call.plaintext cap = [] := by rw [SslRead.plaintext, hcode]
        refine ⟨[call], rfl, ?_, .inr ⟨call, rfl, hcode⟩⟩
        rw [map_singleton, flatten_singleton, hnone]
      · rename_i bytes hbytes
        have htext : call.plaintext cap = bytes.take cap := by rw [SslRead.plaintext, hbytes]
        refine ⟨[call], rfl, ?_, call, bytes, rfl, hbytes, rfl⟩
        rw [map_singleton, flatten_singleton, htext]

theorem Session.translate_enotconn (h : (Session.translate t code).1 = .enotconn) :
    code = .peerCloseNotify := by
  cases code <;> first | rfl | cases h

/-- The calls made in one read; where it says that the peer is finished, the last of them did. -/
theorem Session.read_spec (t : Session) (hcap : 0 < cap) :
    ∃ used, calls = used ++ (t.read cap calls).2.2 ∧
      match (t.read cap calls).1 with
      | .ok bytes => (used.map (SslRead.plaintext cap)).flatten = bytes
      | .error e => (used.map (SslRead.plaintext cap)).flatten = [] ∧
          (e = .enotconn → Finished used) := by
  obtain ⟨used, hcalls, hresult⟩ := sslReadPast_spec calls
  refine ⟨used, ?_⟩
  unfold Session.read
  generalize sslReadPast cap ticketsPerRead calls = w at *
  obtain ⟨r, _⟩ := w
  rcases r with _ | _ | bytes
  · exact ⟨hcalls, hresult, nofun⟩
  · obtain ⟨hnil, hcode⟩ := hresult
    refine ⟨hcalls, hnil, ?_⟩
    intro he
    have hnotify := Session.translate_enotconn he
    rcases hcode with hwant | ⟨last, hl, ha⟩
    · rw [hwant] at hnotify
      cases hnotify
    · exact ⟨last, hl, .inl (hnotify ▸ ha)⟩
  · obtain ⟨hbytes, last, whole, hl, ha, hcut⟩ := hresult
    cases bytes with
    | nil =>
      refine ⟨hcalls, hbytes, ?_⟩
      intro _
      have hwhole : whole = [] :=
        (take_eq_nil_iff.mp hcut.symm).resolve_left (Nat.pos_iff_ne_zero.mp hcap)
      exact ⟨last, hl, .inr (hwhole ▸ ha)⟩
    | cons => exact ⟨hcalls, hbytes⟩

theorem bioRecv_ne_nil : bioRecv got ≠ .ok [] := by
  unfold bioRecv
  split
  · exact nofun
  · rename_i hne
    intro h
    exact hne (Except.ok.inj h)
  all_goals exact nofun

theorem Finished.notified (h : Finished calls) (hdoc : ∀ call ∈ calls, SslRead.Documented call) :
    ∃ last, calls.getLast? = some last ∧ last.closeNotify := by
  obtain ⟨last, hlast, hanswer⟩ := h
  have hcall := hdoc last (mem_of_getLast? hlast)
  rcases hanswer with hnotify | hzero
  · exact ⟨last, hlast, hcall.notified hnotify⟩
  · obtain ⟨_, _, hgot⟩ := hcall.ended hzero
    exact absurd hgot bioRecv_ne_nil

/-- `ok n` takes `n + 1` of the bytes, or all of them if they are fewer. -/
abbrev SslWrite := Except SslCode Nat

def Session.write (t : Session) (len : Nat) (answer : SslWrite) : Except Errno Nat × Session :=
  match answer with
  | .ok n => (.ok (min (n + 1) len), { t with wantsWrite := false })
  | .error code => let (e, t) := t.translate code; (.error e, t)

def Session.stop (t : Session) : Session :=
  { t with started := false, handshaked := false, wantsWrite := false }

def Session.reason (t : Session) : NetReason := if t.clockBehind then .clock else .tls

theorem Session.reason_ne_ok (t : Session) : t.reason ≠ .ok := by
  unfold Session.reason
  split <;> simp

end Inkwell.Tls

namespace Inkwell.Net

inductive Detail
  | none
  | errno (e : Errno)
  | resolver (code : Int)
  | tls (code : Option Tls.SslCode)
  deriving DecidableEq

structure NetFailure where
  reason : NetReason := .ok
  detail : Detail := .none
  deriving DecidableEq

def next (default : α) (answers : List α) : α × List α := (answers.headD default, answers.tail)

end Inkwell.Net
