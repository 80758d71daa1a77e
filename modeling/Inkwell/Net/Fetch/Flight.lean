import Inkwell.Codec.Http.Segmentation
import Inkwell.Net.Fetch.Api

namespace Inkwell.Fetch
open Net Http

/-- A request in flight without its sockets, addresses and clocks; `file` says that its file is
open. -/
structure Flight where
  method : Method
  ranged : Bool
  outputPath : Bytes
  responseMax : Nat
  outputMax : Nat
  upload : Bytes
  uploadSent : Nat
  deadlineMs : Nat
  onDone : Option Nat
  url : Url
  redirects : Nat
  phase : Phase
  response : Response
  headSeen : Bool
  file : Bool
  written : Nat
  body : Bytes

structure Terms where
  method : Method
  ranged : Bool
  outputPath : Bytes
  responseMax : Nat
  outputMax : Nat
  upload : Bytes
  deadlineMs : Nat
  onDone : Option Nat

def Flight.terms (f : Flight) : Terms :=
  ⟨f.method, f.ranged, f.outputPath, f.responseMax, f.outputMax, f.upload, f.deadlineMs, f.onDone⟩

def Conn.flight (conn : Conn) : Flight :=
  { method := conn.method
    ranged := conn.ranged
    outputPath := conn.outputPath
    responseMax := conn.responseMax
    outputMax := conn.outputMax
    upload := conn.upload
    uploadSent := conn.uploadSent
    deadlineMs := conn.deadlineMs
    onDone := conn.onDone
    url := conn.url
    redirects := conn.redirects
    phase := conn.phase
    response := conn.response
    headSeen := conn.headSeen
    file := conn.outFd
    written := conn.outWritten
    body := conn.body }

/-- The request in flight, what of the last read is not fed yet, and all that has happened. -/
structure Core where
  flight : Option Flight
  input : Bytes
  trace : List Event

def Sys.core (s : Sys σ) : Core :=
  { flight := s.fetch.conn.map Conn.flight, input := [], trace := s.trace }

def Sys.hold (s : Sys σ) (conn : Conn) (input : Bytes) : Core :=
  { flight := some conn.flight, input, trace := s.trace }

def Core.log (c : Core) (e : Event) : Core := { c with trace := e :: c.trace }

structure Flight.Carries (f : Flight) (request : Request) : Prop where
  method : f.method = request.method
  ranged : f.ranged = request.ranged
  outputPath : f.outputPath = request.outputPath.getD []
  responseMax : f.responseMax =
    if request.responseMax > 0 then request.responseMax else defaultResponseMax
  outputMax : f.outputMax = request.outputMax

def Flight.hopping (f : Flight) : Flight :=
  { f with
    phase := .resolving, headSeen := false, response := responseInit (f.method = .head) }

def Flight.fed (f : Flight) (input : Bytes) : Flight :=
  { f with response := (responseFeed f.response input).response }

def Flight.slice (f : Flight) (input : Bytes) : Bytes :=
  (input.drop (responseFeed f.response input).bodyAt).take (responseFeed f.response input).bodyLen

def Flight.accepts (f : Flight) : Prop :=
  200 ≤ f.response.status ∧ f.response.status ≤ 299 ∧ (f.ranged → f.response.status = 206)

def Flight.toFile (f : Flight) : Prop := f.outputPath ≠ [] ∧ f.method = .get

/-- The head, if it is complete, is that of a reply whose body is wanted. -/
inductive Decided (f : Flight) (t : List Event) : Flight → List Event → Prop
  | before (h : f.headSeen ∨ responseHeadDone f.response = false) : Decided f t f t
  | captures (hseen : f.headSeen = false) (hdone : responseHeadDone f.response)
      (haccepts : f.accepts) (hto : ¬ f.toFile) :
    Decided f t { f with headSeen := true } (.replied f.response.status :: t)
  | creates (hseen : f.headSeen = false) (hdone : responseHeadDone f.response)
      (haccepts : f.accepts) (hto : f.toFile) :
    Decided f t { f with headSeen := true, file := true, written := 0 }
      (.created f.outputPath :: .replied f.response.status :: t)

inductive Sunk (f : Flight) (t : List Event) (bytes : Bytes) : Flight → List Event → Prop
  | nothing (h : bytes = []) : Sunk f t bytes f t
  | captured (hfile : f.file = false) (hcap : f.body.length + bytes.length ≤ f.responseMax) :
    Sunk f t bytes { f with body := f.body ++ bytes } t
  | written (hfile : f.file)
      (hcap : f.outputMax > 0 → bytes.length ≤ f.outputMax - f.written) :
    Sunk f t bytes { f with written := f.written + bytes.length } (.wrote bytes :: t)

inductive Spilled (f : Flight) (t : List Event) (bytes : Bytes) : Outcome → List Event → Prop
  | passed (hfile : f.file = false) (hcap : f.responseMax < f.body.length + bytes.length) :
    Spilled f t bytes .tooLarge t
  | noMemory (hfile : f.file = false) : Spilled f t bytes .tooLarge (.outOfMemory :: t)
  | filePassed (hfile : f.file) (hmax : f.outputMax > 0)
      (hcap : f.outputMax - f.written < bytes.length) : Spilled f t bytes .tooLarge t
  | failed (hfile : f.file) (hcap : f.outputMax > 0 → bytes.length ≤ f.outputMax - f.written)
      (chunk : Bytes) (hchunk : chunk <+: bytes) :
    Spilled f t bytes .file (.wrote chunk :: t)

structure Result.Of (result : Result) (f : Flight) (o : Outcome) : Prop where
  outcome : result.outcome = o
  status : result.status = if responseHeadDone f.response then f.response.status else 0
  body : result.body = if o ≠ .ok then [] else f.body
  host : result.host = f.url.host

def Core.ended (t : List Event) (f : Flight) (outcome : Outcome) (result : Result) : Core :=
  { flight := none
    input := []
    trace :=
      match f.onDone with
      | none => .completed outcome :: t
      | some id => .done id result :: .completed outcome :: t }

/-- The flight of a HEAD has its head for its body. -/
inductive Rounded (f : Flight) : Flight → Prop
  | body (h : f.method ≠ .head) : Rounded f f
  | head (h : f.method = .head) (hcap : f.body.length + f.response.head.length ≤ f.responseMax) :
    Rounded f { f with body := f.body ++ f.response.head }

def Phase.dialling (p : Phase) : Bool := p == .resolving || p == .connecting

inductive LastWords : List Event → Prop
  | none : LastWords []
  | replied (status : Nat) : LastWords [.replied status]
  | outOfMemory : LastWords [.outOfMemory]

inductive Act (c : Core) : Core → Prop
  | tried (h : c.flight = some f) (hp : f.phase.dialling) (address : Address) :
    Act c (c.log (.tried address))
  | dialled (h : c.flight = some f) (hp : f.phase.dialling) :
    Act c { c with flight := some { f with phase := .connecting } }
  | secured (h : c.flight = some f) (hp : f.phase = .connecting) :
    Act c { c with
      flight := some { f with phase := .handshake }, trace := .tlsStarted f.url.host :: c.trace }
  | shook (h : c.flight = some f) (hp : f.phase = .handshake) :
    Act c { c with
      flight := some { f with
        phase := .sending, headSeen := false, uploadSent := 0
        response := responseInit (f.method = .head) }
      trace := .handshaked :: c.trace }
  | shookInVain (h : c.flight = some f) (hp : f.phase = .handshake) : Act c (c.log .handshaked)
  | requested (h : c.flight = some f) (hp : f.phase = .sending) (bytes : Bytes) :
    Act c (c.log (.sentRequest bytes))
  | uploaded (h : c.flight = some f) (hp : f.phase = .sending) (n : Nat) :
    Act c { c with
      flight := some { f with uploadSent := f.uploadSent + n }
      trace := .sentUpload ((f.upload.drop f.uploadSent).take n) :: c.trace }
  | listened (h : c.flight = some f) (hp : f.phase = .sending) :
    Act c { c with flight := some { f with phase := .receiving } }
  | read (h : c.flight = some f) (hp : f.phase = .receiving) (hi : c.input = [])
      (calls : List Tls.SslRead) :
    Act c { c with
      input := (calls.map (Tls.SslRead.plaintext readChunk)).flatten, trace :=
        .read calls :: c.trace }
  | turned (h : c.flight = some f) (hi : c.input ≠ []) (hd : Decided (f.fed c.input) c.trace f₁ t₁)
      (hs : Sunk f₁ t₁ (f.slice c.input) f₂ t₂) (hover : responseOver f₂.response = false) :
    Act c ⟨some f₂, c.input.drop (responseFeed f.response c.input).used, t₂⟩
  | redirected (h : c.flight = some f) (hi : c.input ≠ []) (hseen : f.headSeen = false)
      (hdone : responseHeadDone (f.fed c.input).response) (hpost : f.method ≠ .post)
      (url : Url) (htls : url.tls) (hmax : f.redirects < redirectsMax) :
    Act c ⟨some (Flight.hopping { f with url, redirects := f.redirects + 1 }), [],
      .hop url :: .replied (f.fed c.input).response.status :: c.trace⟩
  | spilled (h : c.flight = some f) (hi : c.input ≠ [])
      (hok : responseFailed (f.fed c.input).response = false) (hne : f.slice c.input ≠ [])
      (hd : Decided (f.fed c.input) c.trace f₁ t₁) (hs : Spilled f₁ t₁ (f.slice c.input) o t₂)
      (result : Result) (hr : result.Of f₁ o) : Act c (.ended t₂ f₁ o result)
  | whole (h : c.flight = some f) (hi : c.input ≠ []) (hd : Decided (f.fed c.input) c.trace f₁ t₁)
      (hs : Sunk f₁ t₁ (f.slice c.input) f₂ t₂) (hover : responseDone f₂.response)
      (hround : Rounded f₂ f₃) (ho : o = .ok ∨ o = .file) (result : Result) (hr : result.Of f₃ o) :
    Act c (.ended t₂ f₃ o result)
  | brimmed (h : c.flight = some f) (hi : c.input ≠ [])
      (hd : Decided (f.fed c.input) c.trace f₁ t₁) (hs : Sunk f₁ t₁ (f.slice c.input) f₂ t₂)
      (hover : responseDone f₂.response) (hhead : f₂.method = .head) (he : LastWords events)
      (result : Result) (hout : result.outcome = .tooLarge) :
    Act c (.ended (events ++ t₂) f₂ .tooLarge result)
  | hungUp (h : c.flight = some f) (hi : c.input = []) (htrace : c.trace = .read calls :: t)
      (hhead : responseHeadDone f.response)
      (hframing : f.response.framing = .untilClose → Tls.Finished calls)
      (hwhole : (responseFinish f.response).2)
      (hround : Rounded { f with response := (responseFinish f.response).1 } f₁)
      (ho : o = .ok ∨ o = .file) (result : Result) (hr : result.Of f₁ o) :
    Act c (.ended c.trace f₁ o result)
  | failed (h : c.flight = some f) (he : LastWords events) (o : Outcome) (ho : o ≠ .ok)
      (hlarge : o = .tooLarge → f.method = .head) (result : Result) (hout : result.outcome = o) :
    Act c (.ended (events ++ c.trace) f o result)

def Steps (called : Core → Core → Prop) : Core → Core → Prop :=
  Relation.ReflTransGen fun c c' => Act c c' ∨ called c c'

theorem Steps.refl : Steps called c c := Relation.ReflTransGen.refl

theorem Steps.one (h : Act c c') : Steps called c c' := Relation.ReflTransGen.single (.inl h)

theorem Steps.call (h : called c c') : Steps called c c' := Relation.ReflTransGen.single (.inr h)

theorem Steps.trans (h₁ : Steps called a b) (h₂ : Steps called b c) : Steps called a c :=
  Relation.ReflTransGen.trans h₁ h₂

def Cooperative (called : Core → Core → Prop) (cb : Nat → Result → Sys σ → Sys σ) : Prop :=
  ∀ id result s, s.core.flight = none → Steps called s.core (cb id result s).core

def noCalls (_ _ : Core) : Prop := False

structure Flight.New (f : Flight) (request : Request) (nowMs : Nat) : Prop where
  carries : f.Carries request
  file : f.file = false
  body : f.body = []
  redirects : f.redirects = 0
  onDone : f.onDone = none
  https : f.url.tls
  upload : f.method ≠ .post → f.upload = []
  deadline : f.deadlineMs =
    nowMs + if request.timeoutMs > 0 then request.timeoutMs else defaultTimeoutMs

def Core.begin (c : Core) (request : Request) (nowMs : Nat) (f : Flight) : Core :=
  ⟨some f.hopping, [], .hop f.url :: .started request nowMs :: c.trace⟩

/-- A call of the application: a start, which waits for something or has failed by its return, or
a cancel. -/
inductive Called (c : Core) : Core → Prop
  | accepted (hidle : c.flight = none) (hnew : Flight.New f request nowMs)
      (hid : request.onDone.isSome) (hsteps : Steps noCalls (c.begin request nowMs f) c₁)
      (hf : c₁.flight = some f₁) :
    Called c { c₁ with
      flight := some { f₁ with onDone := request.onDone }
      trace := .accepted request.onDone :: c₁.trace }
  | refused (hidle : c.flight = none) (hnew : Flight.New f request nowMs)
      (hsteps : Steps noCalls (c.begin request nowMs f) c₁) (hf : c₁.flight = none) : Called c c₁
  | cancelled (h : c.flight = some f) (hid : f.onDone.isSome) :
    Called c ⟨none, [], .cancelled :: c.trace⟩

end Inkwell.Fetch
