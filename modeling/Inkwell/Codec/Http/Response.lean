import Inkwell.Codec.Http.Chars
import Inkwell.Library.Machine

namespace Inkwell.Http
open Library

def headMax : Nat := 16384
def chunkLineMax : Nat := 128
def uint64Max : Nat := 2 ^ 64 - 1

inductive Phase
  | head | length | chunkSize | chunkData | chunkEnd | chunkEndLf | trailer | untilClose
  | done | failed
  deriving DecidableEq

inductive Framing
  | none | length | chunked | untilClose
  deriving DecidableEq

inductive HttpError
  | ok | statusLine | header | headTooLarge | length | encoding | chunk | upgrade | truncated
  deriving DecidableEq

/-- One response being read; `head` and `chunkLine` hold the bytes below `head_len` and
`chunk_line_len`. -/
structure Response where
  status : Nat := 0
  framing : Framing := .none
  contentLength : Nat := 0
  bodyReceived : Nat := 0
  error : HttpError := .ok
  head : Bytes := []
  phase : Phase := .head
  headRequest : Bool
  lineLen : Nat := 0
  lineCr : Bool := false
  remaining : Nat := 0
  chunkLine : Bytes := []
  trailerLen : Nat := 0
  deriving DecidableEq

section
variable (r : Response)

def Response.fail (error : HttpError) : Response := { r with error := error, phase := .failed }

def stripCr (line : Bytes) : Bytes :=
  if line.getLast? = some CR then line.dropLast else line

/-- The line at the front, without its LF or a CR before it, and what follows it. -/
def nextLine (head : Bytes) : Bytes × Bytes :=
  (stripCr (head.takeWhile (· != LF)), (head.dropWhile (· != LF)).tail)

/-- The bytes between the LFs; a last line may lack its LF. -/
def splitLf : Bytes → List Bytes
  | [] => []
  | b :: bs =>
    if b = LF then [] :: splitLf bs
    else match splitLf bs with
      | [] => [[b]]
      | l :: ls => (b :: l) :: ls

def headLines (head : Bytes) : List Bytes := (splitLf head).map stripCr

theorem splitLf_cons_line (h : head ≠ []) :
    splitLf head = head.takeWhile (· != LF) :: splitLf (head.dropWhile (· != LF)).tail := by
  induction head with
  | nil => exact absurd rfl h
  | cons b bs ih =>
    by_cases hb : b = LF
    · simp [splitLf, hb]
    · by_cases hbs : bs = []
      · subst hbs
        simp [splitLf, hb]
      · simp [splitLf, hb, ih hbs]

theorem headLines_nextLine (h : head ≠ []) :
    headLines head = (nextLine head).1 :: headLines (nextLine head).2 := by
  simp only [headLines, nextLine]
  rw [splitLf_cons_line h, List.map_cons]

def trim (value : Bytes) : Bytes := (value.dropWhile blank).rdropWhile blank

def splitHeader (line : Bytes) : Option (Bytes × Bytes) :=
  let name := line.takeWhile tokenChar
  match line.dropWhile tokenChar with
  | [] => none
  | c :: value =>
    if name = [] ∨ c ≠ ':'.toUInt8 then none
    else if value.any (fun c => c == CR || c == 0) then none
    else some (name, trim value)

@[grind =] def parseLengthFrom : Nat → Bytes → Option Nat
  | parsed, [] => some parsed
  | parsed, c :: cs =>
    if !digit c || parsed > (uint64Max - 9) / 10 then none
    else parseLengthFrom (parsed * 10 + (c - '0'.toUInt8).toNat) cs

def parseLength (value : Bytes) : Option Nat :=
  if value = [] then none else parseLengthFrom 0 value

structure Fields where
  length : Option Nat := none
  chunked : Bool := false
  deriving DecidableEq

def fieldLine (acc : Fields) (line : Bytes) : Except HttpError Fields :=
  match splitHeader line with
  | none => .error .header
  | some (name, value) =>
    if equalNocase name (ascii "content-length") then
      match parseLength value with
      | none => .error .length
      | some parsed =>
        -- the same length twice is accepted, two different ones are not
        if acc.length.any (· != parsed) then .error .length
        else .ok { acc with length := some parsed }
    else if equalNocase name (ascii "transfer-encoding") then
      if acc.chunked || !equalNocase value (ascii "chunked") then .error .encoding
      else .ok { acc with chunked := true }
    else .ok acc

@[grind =] def fieldLines : Fields → List Bytes → Except HttpError Fields
  | acc, [] => .ok acc
  | acc, line :: lines =>
    if line = [] then .ok acc
    else match fieldLine acc line with
      | .error e => .error e
      | .ok acc => fieldLines acc lines

/-- The status of `HTTP/1.x SP 3DIGIT [SP reason]`. -/
def statusOf (line : Bytes) : Option Nat :=
  let at_ (i : Nat) := line.getD i 0
  if line.length < 12 ∨ line.take 7 ≠ ascii "HTTP/1." ∨ !digit (at_ 7) ∨ at_ 8 ≠ ' '.toUInt8 ∨
      !digit (at_ 9) ∨ !digit (at_ 10) ∨ !digit (at_ 11) ∨
      (line.length > 12 ∧ at_ 12 ≠ ' '.toUInt8) then none
  else
    some ((at_ 9 - '0'.toUInt8).toNat * 100 + (at_ 10 - '0'.toUInt8).toNat * 10 +
      (at_ 11 - '0'.toUInt8).toNat)

def setFraming (status : Nat) (fields : Fields) : Response :=
  let r := { r with status := status }
  if r.headRequest || status == 204 || status == 304 then
    { r with framing := .none, phase := .done }
  else if fields.chunked then
    { r with framing := .chunked, phase := .chunkSize, chunkLine := [] }
  else match fields.length with
    | some length =>
      { r with
        framing := .length, contentLength := length, remaining := length
        phase := if length = 0 then .done else .length }
    | none => { r with framing := .untilClose, phase := .untilClose }

/-- The head is complete: read it. The flag is false when the response failed. -/
def parseHead : Response × Bool :=
  match headLines r.head with
  | [] => (r.fail .statusLine, false)
  | first :: lines =>
    match statusOf first with
    | none => (r.fail .statusLine, false)
    | some status =>
      if status < 100 then (r.fail .statusLine, false)
      else if status = 101 then (r.fail .upgrade, false)
      else match fieldLines {} lines with
        | .error e => (r.fail e, false)
        | .ok fields =>
          -- an interim answer; the real one follows
          if status < 200 then ({ r with head := [] }, true)
          else (setFraming r status fields, true)

/-- One byte of head. The flag is set when the head has just completed or failed. -/
def headByte (c : UInt8) : Response × Bool :=
  if r.head.length + 1 ≥ headMax then (r.fail .headTooLarge, true)
  else
    let before := r.head.getLast?
    let r := { r with head := r.head ++ [c] }
    if c ≠ LF then ({ r with lineLen := r.lineLen + 1 }, false)
    else
      let empty := r.lineLen = 0 ∨ (r.lineLen = 1 ∧ before = some CR)
      let r := { r with lineLen := 0 }
      if ¬ empty then (r, false)
      -- an empty line before any status line is noise, not an empty head
      else if r.head.length ≤ 2 then ({ r with head := [] }, false)
      else
        let (r, parsed) := parseHead r
        (r, !parsed || r.status != 0)

/-- The number at the front of a chunk-size line and its digits; `none` when it passes 64 bits. -/
@[grind =] def chunkSizeDigits : Nat → Nat → Bytes → Option (Nat × Nat)
  | size, at_, [] => some (size, at_)
  | size, at_, c :: cs =>
    match hex c with
    | none => some (size, at_)
    | some v =>
      if size > uint64Max / 16 then none else chunkSizeDigits (size * 16 + v) (at_ + 1) cs

def chunkSizeLine (line : Bytes) : Option Nat :=
  match chunkSizeDigits 0 0 line with
  | none => none
  | some (size, at_) =>
    if at_ = 0 then none
    else
      let rest := (line.drop at_).dropWhile blank
      if rest.head?.any (· != ';'.toUInt8) then none
      else if rest.any (fun c => c == CR || c == 0) then none
      else some size

def chunkSizeByte (c : UInt8) : Response × Bool :=
  if c ≠ LF then
    if r.chunkLine.length + 1 ≥ chunkLineMax then (r.fail .chunk, false)
    else ({ r with chunkLine := r.chunkLine ++ [c] }, true)
  else
    let line := stripCr r.chunkLine
    let r := { r with chunkLine := [] }
    match chunkSizeLine line with
    | none => (r.fail .chunk, false)
    | some 0 => ({ r with phase := .trailer, lineLen := 0, trailerLen := 0 }, true)
    | some size => ({ r with phase := .chunkData, remaining := size }, true)

def trailerByte (c : UInt8) : Response × Bool :=
  let r := { r with trailerLen := r.trailerLen + 1 }
  if r.trailerLen ≥ headMax then (r.fail .headTooLarge, true)
  else if c ≠ LF then ({ r with lineLen := r.lineLen + 1, lineCr := c == CR }, false)
  else
    let empty := r.lineLen = 0 ∨ (r.lineLen = 1 ∧ r.lineCr)
    let r := { r with lineLen := 0 }
    if empty then ({ r with phase := .done }, true) else (r, false)

def chunkEndByte (c : UInt8) : Response × Bool :=
  if c = CR then ({ r with phase := .chunkEndLf }, true)
  else if c = LF then ({ r with phase := .chunkSize }, true)
  else (r.fail .chunk, false)

def chunkEndLfByte (c : UInt8) : Response × Bool :=
  if c ≠ LF then (r.fail .chunk, false) else ({ r with phase := .chunkSize }, true)

def responseInit (headRequest : Bool) : Response := { headRequest := headRequest }

/-- What a call consumed, and the slice of the input that is body, as its offset and length. -/
structure Fed where
  response : Response
  used : Nat
  bodyAt : Nat
  bodyLen : Nat
  deriving DecidableEq

def Fed.next (f : Fed) : Fed := { f with used := f.used + 1, bodyAt := f.bodyAt + 1 }

def takeBody (avail : Nat) : Fed :=
  let take := min r.remaining avail
  let r' := { r with remaining := r.remaining - take, bodyReceived := r.bodyReceived + take }
  let r' :=
    if r'.remaining = 0 then
      { r' with phase := if r.phase = .length then .done else .chunkEnd }
    else r'
  ⟨r', take, 0, take⟩

@[grind =] def responseFeed : Response → Bytes → Fed
  | r, [] => ⟨r, 0, 0, 0⟩
  | r, c :: rest =>
    match r.phase with
    | .head =>
      let (r, stop) := headByte r c
      if stop then ⟨r, 1, 1, 0⟩ else (responseFeed r rest).next
    | .length | .chunkData => takeBody r (rest.length + 1)
    | .untilClose =>
      ⟨{ r with bodyReceived := r.bodyReceived + (rest.length + 1) }, rest.length + 1, 0,
        rest.length + 1⟩
    | .chunkSize =>
      let (r, ok) := chunkSizeByte r c
      if ok then (responseFeed r rest).next else ⟨r, 1, 1, 0⟩
    | .chunkEnd =>
      let (r, ok) := chunkEndByte r c
      if ok then (responseFeed r rest).next else ⟨r, 1, 1, 0⟩
    | .chunkEndLf =>
      let (r, ok) := chunkEndLfByte r c
      if ok then (responseFeed r rest).next else ⟨r, 1, 1, 0⟩
    | .trailer =>
      let (r, stop) := trailerByte r c
      if stop then ⟨r, 1, 1, 0⟩ else (responseFeed r rest).next
    | .done | .failed => ⟨r, 0, 0, 0⟩

def responseFinish : Response × Bool :=
  match r.phase with
  | .done => (r, true)
  | .untilClose => ({ r with phase := .done }, true)
  | .failed => (r, false)
  | _ => (r.fail .truncated, false)

def responseHeadDone : Bool := r.status != 0
def responseDone : Bool := r.phase == .done
def responseFailed : Bool := r.phase == .failed

def findHeader (name : Bytes) : List Bytes → Option Bytes
  | [] => none
  | line :: lines =>
    if line = [] then none
    else match splitHeader line with
      | some (field, text) =>
        if equalNocase field name then some text else findHeader name lines
      | none => findHeader name lines

def responseHeader (name : Bytes) : Option Bytes :=
  if responseHeadDone r then findHeader name (headLines r.head).tail else none

end

end Inkwell.Http
