import Inkwell.Codec.Zip
import Inkwell.Net.Fetch.Api

namespace Inkwell.ZipFetch
open Net Http Zip Fetch

def zipUrlMax : Nat := 512
def stemMax : Nat := 32
def directoryMax : Nat := 16 * 1024 * 1024
def rangeMax : Nat := 64

inductive State
  | idle | measuring | reading | locating | fetching | inflating | ready | failed
  deriving DecidableEq

inductive Error
  | none | network | staging | notAZip | noMember | unsupported | inflate
  deriving DecidableEq

/-- The range reads, each of which may be made once more. -/
inductive Step
  | window | central | header | member
  deriving DecidableEq

inductive Staged
  | window | central | header | member | image
  deriving DecidableEq

def Staged.suffix : Staged → Bytes
  | .window => ascii "window"
  | .central => ascii "central"
  | .header => ascii "header"
  | .member => ascii "member"
  | .image => ascii "image"

/-- `borrowed` says that a download has a fetcher, and `onDone` which completion is to be called. -/
structure Download where
  borrowed : Bool := false
  state : State := .idle
  error : Error := .none
  url : Bytes := []
  member : Bytes := []
  staging : Bytes := []
  stem : Bytes := []
  maxMemberBytes : Nat := 0
  stepTimeoutMs : Nat := 0
  memberTimeoutMs : Nat := 0
  idleTimeoutMs : Nat := 0
  step : Option Step := none
  retried : Bool := false
  zipSize : Nat := 0
  centralOffset : Nat := 0
  windowOffset : Nat := 0
  windowLen : Nat := 0
  directoryOnly : Bool := false
  centralEntries : Nat := 0
  entry : ZipEntry := {}
  located : Bool := false
  dataOffset : Nat := 0
  inflatePending : Bool := false
  onDone : Option Nat := none

/-- What a caller asks for; a text that is absent is empty. -/
structure ZipRequest where
  url : Bytes
  member : Bytes
  stagingDir : Bytes
  stem : Bytes := []
  maxMemberBytes : Nat
  stepTimeoutMs : Nat := 0
  memberTimeoutMs : Nat := 0
  idleTimeoutMs : Nat := 0
  onDone : Option Nat := none

inductive Inflated
  | ok (output : Bytes)
  | corrupt | tooLong | noMemory

/-- What came of writing the result: no file, the first bytes of it, or all. -/
inductive Stored
  | refused
  | cut (length : Nat)
  | whole

structure Surroundings where
  clock : List Nat := []
  reads : List Bool := []
  removes : List Bool := []
  memory : List Bool := []
  images : List Stored := []
  inflate : Bytes → Nat → Inflated := fun _ _ => .corrupt
  crc32 : Bytes → Option Nat := fun _ => none

/-- What an archive says of a directory to be read apart, of a member, and, in the member's local
header, of the lengths between that and its bytes. -/
inductive Finding
  | apart (e : ZipEnd)
  | member (zipSize centralOffset : Nat) (entry : ZipEntry)
  | data (zipSize : Nat) (entry : ZipEntry) (nameLen extraLen : Nat)
  deriving DecidableEq

def headerNameLen (header : Bytes) : Nat := (zipU16 header 26).getD 0

def headerExtraLen (header : Bytes) : Nat := (zipU16 header 28).getD 0

/-- Where a member's bytes begin, by its local header. -/
def memberStart (entry : ZipEntry) (nameLen extraLen : Nat) : Nat :=
  entry.localHeaderOffset + localHeaderSize + nameLen + extraLen

/-- A download is started; it ends, with its completion, what the archives had said and the files;
or it is cancelled, with the files afterwards. -/
inductive Deed
  | started (onDone : Option Nat)
  | ended (told : Option Nat) (zip : Download) (said : List Finding)
      (files : Bytes → Option Bytes)
  | cancelled (zip : Download) (files : Bytes → Option Bytes)

/-- The process a download is made in. `said` and `deeds` list what the archives said and what
became of the downloads, newest first; the code keeps no such lists. -/
structure Host (τ : Type) where
  zip : Download := {}
  around : Surroundings := {}
  user : τ
  said : List Finding := []
  deeds : List Deed := []

abbrev System (τ : Type) := Sys (Host τ)

/-- The completion `zip_on_fetch`; no one else has it. -/
def zipCallback : Nat := 0

def edit (s : System τ) (f : Download → Download) : System τ :=
  { s with app := { s.app with zip := f s.app.zip } }

def answer (s : System τ) (around : Surroundings) : System τ :=
  { s with app := { s.app with around } }

def say (s : System τ) (finding : Finding) : System τ :=
  { s with app := { s.app with said := finding :: s.app.said } }

def record (s : System τ) (deed : Deed) : System τ :=
  { s with app := { s.app with deeds := deed :: s.app.deeds } }

def sub64 (a b : Nat) : Nat := u64 (a + 2 ^ 64 - b)

def zipPath (zip : Download) (name : Staged) : Option Bytes :=
  let path := zip.staging ++ ascii "/" ++ zip.stem ++ ascii "." ++ name.suffix
  if path.length < pathMax then some path else none

def removeFile (files : Bytes → Option Bytes) (path : Bytes) : Bytes → Option Bytes :=
  fun p => if p = path then none else files p

def zipRemove (name : Staged) (s : System τ) : System τ :=
  match zipPath s.app.zip name with
  | none => s
  | some path =>
    let (removed, rest) := next true s.app.around.removes
    let s := answer s { s.app.around with removes := rest }
    if removed then { s with files := removeFile s.files path } else s

def zipClean (s : System τ) : System τ :=
  zipRemove .member (zipRemove .header (zipRemove .central (zipRemove .window s)))

def zipRead (name : Staged) (s : System τ) : Option Bytes × System τ :=
  match (zipPath s.app.zip name).bind s.files with
  | none | some [] => (none, s)
  | some bytes =>
    let (readable, rest) := next true s.app.around.reads
    (if readable then some bytes else none, answer s { s.app.around with reads := rest })

def zipFileSize (name : Staged) (s : System τ) : Nat :=
  (((zipPath s.app.zip name).bind s.files).map List.length).getD 0

def zipTake (name : Staged) (expected : Nat) (s : System τ) : Except Error Bytes × System τ :=
  if zipFileSize name s ≠ expected then (.error .network, s)
  else
    match zipRead name s with
    | (none, s) => (.error .staging, s)
    | (some bytes, s) => if bytes.length ≠ expected then (.error .staging, s) else (.ok bytes, s)

section
variable (done : Nat → System τ → System τ)

/-- The end of a download. The completion is taken off before it runs, which may start the next. -/
def zipFinish (state : State) (error : Error) (s : System τ) : System τ :=
  let s := zipClean (edit s ({ · with state, error }))
  let s := if state = .failed then zipRemove .image s else s
  match s.app.zip.onDone with
  | none => record s (.ended none s.app.zip s.app.said s.files)
  | some id =>
    let s := edit s ({ · with onDone := none })
    done id (record s (.ended (some id) s.app.zip s.app.said s.files))

def zipFail (error : Error) (s : System τ) : System τ := zipFinish done .failed error s

def rangeLine (first last : Nat) : Bytes :=
  ascii "Range: bytes=" ++ ascii (toString first) ++ ascii "-" ++ ascii (toString last)

def rangeRequest (zip : Download) (path : Bytes) (first last timeoutMs : Nat) : Request :=
  { url := zip.url
    headers := [rangeLine first last]
    outputPath := some path
    outputMax := u64 (sub64 last first + 1)
    timeoutMs
    idleTimeoutMs := zip.idleTimeoutMs
    onDone := some zipCallback }

def zipRange (name : Staged) (first last timeoutMs : Nat) (s : System τ) : Bool × System τ :=
  match zipPath s.app.zip name with
  | none => (false, s)
  | some path =>
    if (rangeLine first last).length ≥ rangeMax then (false, s)
    else
      let (nowMs, rest) := next 0 s.app.around.clock
      let s := answer s { s.app.around with clock := rest }
      match fetchStart s (rangeRequest s.app.zip path first last timeoutMs) nowMs with
      | (none, s) => (true, s)
      | (some _, s) => (false, s)

def zipAsk (name : Staged) (first last timeoutMs : Nat) (s : System τ) : System τ :=
  match zipRange name first last timeoutMs s with
  | (true, s) => s
  | (false, s) => zipFail done .staging s

def tailOffset (zipSize : Nat) : Nat := if zipSize > tailWindow then zipSize - tailWindow else 0

def zipStepWindow (s : System τ) : System τ :=
  let s := edit s fun zip => { zip with
    step := some .window
    windowOffset := tailOffset zip.zipSize
    windowLen := zip.zipSize - tailOffset zip.zipSize
    state := .reading }
  zipAsk done .window s.app.zip.windowOffset (sub64 s.app.zip.zipSize 1) s.app.zip.stepTimeoutMs s

def zipStepCentral (s : System τ) : System τ :=
  let s := edit s ({ · with step := some .central, state := .reading, directoryOnly := true })
  zipAsk done .central s.app.zip.windowOffset
    (sub64 (s.app.zip.windowOffset + s.app.zip.windowLen) 1) s.app.zip.stepTimeoutMs s

def zipStepHeader (s : System τ) : System τ :=
  let s := edit s ({ · with step := some .header, state := .locating })
  zipAsk done .header s.app.zip.entry.localHeaderOffset
    (sub64 (s.app.zip.entry.localHeaderOffset + localHeaderSize) 1) s.app.zip.stepTimeoutMs s

def zipStepMember (s : System τ) : System τ :=
  let s := edit s ({ · with step := some .member, state := .fetching })
  zipAsk done .member s.app.zip.dataOffset
    (sub64 (s.app.zip.dataOffset + s.app.zip.entry.compressedSize) 1) s.app.zip.memberTimeoutMs s

def zipStep : Step → System τ → System τ
  | .window => zipStepWindow done
  | .central => zipStepCentral done
  | .header => zipStepHeader done
  | .member => zipStepMember done

/-- The second half of `zip_read_directory`. -/
def zipSearch (central : Bytes) (entries : Nat) (s : System τ) : System τ :=
  match findMember central entries s.app.zip.member with
  | none => zipFail done .notAZip s
  | some (search, entry) =>
    let s := edit s ({ · with entry })
    if search = .malformed then zipFail done .notAZip s
    else if search ≠ .found then zipFail done .noMember s
    else if entry.method ≠ methodDeflate ∧ entry.method ≠ methodStore then
      zipFail done .unsupported s
    else if s.app.zip.centralOffset ≠ 0 ∧
        u64 (entry.localHeaderOffset + entry.compressedSize) > s.app.zip.centralOffset then
      zipFail done .notAZip s
    else if entry.compressedSize = 0 ∨ entry.uncompressedSize = 0 then zipFail done .noMember s
    else if entry.compressedSize > s.app.zip.maxMemberBytes ∨
        entry.uncompressedSize > s.app.zip.maxMemberBytes then
      zipFail done .unsupported s
    else
      let s := say s (.member s.app.zip.zipSize s.app.zip.centralOffset entry)
      zipStepHeader done (edit s ({ · with located := true }))

/-- The tail window, or on the second pass the directory fetched on its own. -/
def zipReadDirectory (name : Staged) (secondPass : Bool) (s : System τ) : System τ :=
  match zipTake name s.app.zip.windowLen s with
  | (.error e, s) => zipFail done e s
  | (.ok window, s) =>
    if secondPass then zipSearch done window s.app.zip.centralEntries s
    else
      match findEnd window s.app.zip.windowOffset with
      | none | some none => zipFail done .notAZip s
      | some (some e) =>
        let central := centralSlice e window s.app.zip.windowOffset
        let s := edit s ({ · with centralOffset := e.centralOffset })
        match central with
        | some central => zipSearch done central e.entries s
        | none =>
          if e.centralSize > directoryMax then zipFail done .unsupported s
          else
            zipStepCentral done (edit (say s (.apart e)) ({ · with
              windowOffset := e.centralOffset, windowLen := e.centralSize
              centralOffset := e.centralOffset, centralEntries := e.entries }))

def zipReadHeader (s : System τ) : System τ :=
  match zipTake .header localHeaderSize s with
  | (.error e, s) => zipFail done e s
  | (.ok header, s) =>
    match localDataStart header s.app.zip.entry with
    | none | some none => zipFail done .notAZip s
    | some (some dataOffset) =>
      let s := say s (.data s.app.zip.zipSize s.app.zip.entry (headerNameLen header)
        (headerExtraLen header))
      zipStepMember done (edit s ({ · with dataOffset }))

def zipStepInflate (s : System τ) : System τ :=
  edit s ({ · with state := .inflating, inflatePending := true })

/-- A fetch of this download has ended. What failed on the way is tried once more. -/
def zipOnFetch (result : Result) (s : System τ) : System τ :=
  if result.outcome ≠ .ok then
    let transient := result.outcome = .network ∨ result.outcome = .timedOut
    match s.app.zip.step with
    | some step =>
      if transient ∧ !s.app.zip.retried then zipStep done step (edit s ({ · with retried := true }))
      else zipFail done .network s
    | none => zipFail done .network s
  else
    let s := edit s ({ · with retried := false })
    match s.app.zip.state with
    | .measuring =>
      match fetchContentLength result.body with
      | none => zipFail done .notAZip s
      | some size =>
        if size < localHeaderSize then zipFail done .notAZip s
        else zipStepWindow done (edit s ({ · with zipSize := size }))
    | .reading =>
      zipReadDirectory done (if s.app.zip.directoryOnly then .central else .window)
        s.app.zip.directoryOnly s
    | .locating => zipReadHeader done s
    | .fetching => zipStepInflate s
    | _ => s

def zipWriteOutput (bytes : Bytes) (s : System τ) : Bool × System τ :=
  match zipPath s.app.zip .image with
  | none => (false, s)
  | some path =>
    let (stored, rest) := next .whole s.app.around.images
    let s := answer s { s.app.around with images := rest }
    match stored with
    | .refused => (false, s)
    | .cut length =>
        (false, { s with files := appendFile (createFile s.files path) path (bytes.take length) })
    | .whole => (true, { s with files := appendFile (createFile s.files path) path bytes })

def zipOutput (member : Bytes) (s : System τ) : Except Error Bytes × System τ :=
  if s.app.zip.entry.method ≠ methodDeflate then (.ok member, s)
  else
    let (there, rest) := next true s.app.around.memory
    let s := answer s { s.app.around with memory := rest }
    if !there then (.error .staging, s)
    else
      match s.app.around.inflate member s.app.zip.entry.uncompressedSize with
      | .noMemory => (.error .staging, s)
      | .corrupt | .tooLong => (.error .inflate, s)
      | .ok output => (.ok output, s)

def zipInflate (s : System τ) : System τ :=
  match zipTake .member s.app.zip.entry.compressedSize s with
  | (.error e, s) => zipFail done e s
  | (.ok member, s) =>
    match zipOutput member s with
    | (.error e, s) => zipFail done e s
    | (.ok output, s) =>
      match s.app.around.crc32 output with
      | none => zipFail done .staging s
      | some crc =>
        if output.length ≠ s.app.zip.entry.uncompressedSize ∨ crc ≠ s.app.zip.entry.crc32 then
          zipFail done .inflate s
        else
          match zipWriteOutput output s with
          | (false, s) => zipFail done .staging s
          | (true, s) => zipFinish done .ready .none s

def zipFetchBusy (zip : Download) : Bool :=
  zip.state != .idle && zip.state != .ready && zip.state != .failed

def ZipRequest.stemOr (request : ZipRequest) : Bytes :=
  if request.stem = [] then ascii "zip_fetch" else request.stem

def ZipRequest.valid (request : ZipRequest) : Bool :=
  request.url != [] && request.member != [] && request.stagingDir != [] &&
    request.maxMemberBytes != 0 && request.url.length < zipUrlMax &&
    request.member.length < nameMax && request.stagingDir.length < pathMax &&
    request.stemOr.length < stemMax

def ZipRequest.zip (request : ZipRequest) : Download :=
  { borrowed := true
    url := request.url
    member := request.member
    staging := request.stagingDir
    stem := request.stemOr
    maxMemberBytes := request.maxMemberBytes
    stepTimeoutMs := request.stepTimeoutMs
    memberTimeoutMs := request.memberTimeoutMs
    idleTimeoutMs := request.idleTimeoutMs
    onDone := request.onDone
    state := .measuring }

def headRequest (zip : Download) : Request :=
  { url := zip.url, method := .head, timeoutMs := zip.stepTimeoutMs, onDone := some zipCallback }

def zipFetchStart (s : System τ) (request : ZipRequest) : Option Errno × System τ :=
  if !request.valid then (some .einval, s)
  else if zipFetchBusy s.app.zip then (some .ebusy, s)
  else if !s.fetch.hasLoop then (some .enotsup, s)
  else if s.fetch.conn.isSome then (some .ebusy, s)
  else
    let (nowMs, rest) := next 0 s.app.around.clock
    let s := answer (edit s fun _ => request.zip) { s.app.around with clock := rest }
    match fetchStart s (headRequest request.zip) nowMs with
    | (none, s) => (none, record s (.started request.onDone))
    | (some e, s) => (some e, edit s ({ · with state := .idle, onDone := none }))

def zipFetchTick (s : System τ) : System τ :=
  if !s.app.zip.inflatePending then s
  else zipInflate done (edit s ({ · with inflatePending := false }))

end

def zipFetchCancel (s : System τ) : System τ :=
  let s := if s.app.zip.borrowed then fetchCancel s else s
  let s := zipRemove .image (zipClean (edit s ({ · with inflatePending := false })))
  let s := edit s ({ · with onDone := none, state := .idle })
  record s (.cancelled s.app.zip s.files)

end Inkwell.ZipFetch
