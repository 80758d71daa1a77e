import Inkwell.Codec.Http.Chars

namespace Inkwell.Json
open Http

def maxDepth : Nat := 32

def quote : UInt8 := '"'.toUInt8
def backslash : UInt8 := '\\'.toUInt8
def comma : UInt8 := ','.toUInt8
def colon : UInt8 := ':'.toUInt8
def openBrace : UInt8 := '\x7b'.toUInt8
def closeBrace : UInt8 := '\x7d'.toUInt8
def openBracket : UInt8 := '['.toUInt8
def closeBracket : UInt8 := ']'.toUInt8

def space (c : UInt8) : Bool :=
  c == ' '.toUInt8 || c == '\t'.toUInt8 || c == '\n'.toUInt8 || c == '\r'.toUInt8

/-- What is left of a document, and whether the container being walked has yielded nothing yet. -/
structure Cursor where
  text : Bytes
  atFirst : Bool := false
  deriving DecidableEq

/-- The text at a pointer as a C string: a NUL in it ends it. -/
def cText (bytes : Bytes) : Bytes := bytes.takeWhile (· != 0)

def skipSpace (text : Bytes) : Bytes := text.dropWhile space

section
variable (json : Cursor)

@[grind =] def peek : UInt8 × Cursor :=
  let json := { json with text := skipSpace json.text }
  (json.text.headD 0, json)

@[grind =] def take (expected : UInt8) : Bool × Cursor :=
  let (c, json) := peek json
  if c ≠ expected then (false, json) else (true, { json with text := json.text.tail })

@[grind =] def skipStringBody : Bytes → Bool × Bytes
  | [] => (false, [])
  | c :: text =>
    if c = quote then (true, text)
    else if c = backslash then
      match text with
      | [] => (false, [])
      | _ :: text => skipStringBody text
    else skipStringBody text

/-- A code of at most 16 bits as UTF-8, or nothing if it does not fit whole. -/
def encodeUtf8 (value room : Nat) : Bytes :=
  if value < 0x80 then if room < 1 then [] else [.ofNat value]
  else if value < 0x800 then
    if room < 2 then [] else [.ofNat (0xC0 + value / 2 ^ 6), .ofNat (0x80 + value % 2 ^ 6)]
  else if room < 3 then []
  else
    [.ofNat (0xE0 + value / 2 ^ 12), .ofNat (0x80 + value / 2 ^ 6 % 2 ^ 6),
      .ofNat (0x80 + value % 2 ^ 6)]

def hexDigit (c : UInt8) : Option Nat :=
  if '0'.toUInt8 ≤ c ∧ c ≤ '9'.toUInt8 then some (c.toNat - '0'.toNat)
  else if 'a'.toUInt8 ≤ c ∧ c ≤ 'f'.toUInt8 then some (c.toNat - 'a'.toNat + 10)
  else if 'A'.toUInt8 ≤ c ∧ c ≤ 'F'.toUInt8 then some (c.toNat - 'A'.toNat + 10)
  else none

def hex4 (c₁ c₂ c₃ c₄ : UInt8) : Option Nat := do
  let d₁ ← hexDigit c₁
  let d₂ ← hexDigit c₂
  let d₃ ← hexDigit c₃
  let d₄ ← hexDigit c₄
  return ((d₁ * 16 + d₂) * 16 + d₃) * 16 + d₄

def continuation (c : UInt8) : Bool := c.toNat / 2 ^ 6 == 2

/-- How much of a text that was cut short does not end inside of a character. -/
def wholeCharacters (out : Bytes) : Nat :=
  let lead := out.length - ((out.reverse.take 3).takeWhile continuation).length
  if lead = 0 then out.length
  else
    let first := out.getD (lead - 1) 0
    let need := if first ≥ 0xF0 then 4 else if first ≥ 0xE0 then 3
    else if first ≥ 0xC0 then 2 else 1
    if need > 1 ∧ out.length - (lead - 1) < need then lead - 1 else out.length

def unescape (c : UInt8) : UInt8 :=
  if c = 'n'.toUInt8 then 0x0A
  else if c = 't'.toUInt8 then 0x09
  else if c = 'r'.toUInt8 then 0x0D
  else if c = 'b'.toUInt8 then 0x08
  else if c = 'f'.toUInt8 then 0x0C
  else c

def characterOf (value : Nat) : Nat :=
  if 0xD800 ≤ value ∧ value ≤ 0xDFFF then '?'.toNat else value

structure Buffer where
  written : Bytes := []
  full : Bool := false

def Buffer.append (room : Nat) (out : Buffer) (decoded : Bytes) : Buffer :=
  if !out.full ∧ out.written.length + decoded.length ≤ room then
    { out with written := out.written ++ decoded }
  else { out with full := true }

def Buffer.close (out : Buffer) : Bytes :=
  if out.full then out.written.take (wholeCharacters out.written) else out.written

@[grind =] def stringFrom (room : Nat) (out : Buffer) : Bytes → Option Bytes × Bytes
  | [] => (none, [])
  | c :: text =>
    if c = quote then (some out.close, text)
    else if c ≠ backslash then stringFrom room (out.append room [c]) text
    else
      match text with
      | [] => (none, [])
      | e :: text =>
        if e ≠ 'u'.toUInt8 then stringFrom room (out.append room [unescape e]) text
        else
          match text with
          | c₁ :: c₂ :: c₃ :: c₄ :: rest =>
            match hex4 c₁ c₂ c₃ c₄ with
            | none => (none, text)
            | some value =>
              stringFrom room (out.append room (encodeUtf8 (characterOf value) 4)) rest
          | _ => (none, text)

theorem stringFrom_quote : stringFrom room out (quote :: text) = (some out.close, text) := by
  rw [stringFrom.eq_def]
  simp

theorem stringFrom_plain (hq : c ≠ quote) (hb : c ≠ backslash) :
    stringFrom room out (c :: text) = stringFrom room (out.append room [c]) text := by
  rw [stringFrom.eq_def]
  simp [hq, hb]

theorem stringFrom_escape (he : e ≠ 'u'.toUInt8) :
    stringFrom room out (backslash :: e :: text) =
      stringFrom room (out.append room [unescape e]) text := by
  rw [stringFrom.eq_def]
  simp [he, show backslash ≠ quote by decide]

theorem stringFrom_code (h : hex4 c₁ c₂ c₃ c₄ = some value) :
    stringFrom room out (backslash :: 'u'.toUInt8 :: c₁ :: c₂ :: c₃ :: c₄ :: text) =
      stringFrom room (out.append room (encodeUtf8 (characterOf value) 4)) text := by
  rw [stringFrom.eq_def]
  simp [h, show backslash ≠ quote by decide]

/-- A string into a buffer of `outLen`, 0 if there is none; a byte of it is for the terminator. -/
@[grind =] def readStringBody (outLen : Nat) : Option Bytes × Cursor :=
  let (out, text) := stringFrom (outLen - 1) {} json.text
  (out, { json with text })

/-- A cursor over the `len` bytes at `text`, or over the C string there if `len` is 0. -/
def jsonInit (text : Bytes) (len : Nat) : Cursor :=
  { text := if len > 0 then text.take len else cText text, atFirst := false }

def enterObject : Bool × Cursor :=
  match take json openBrace with
  | (false, json) => (false, json)
  | (true, json) => (true, { json with atFirst := true })

def enterArray : Bool × Cursor :=
  match take json openBracket with
  | (false, json) => (false, json)
  | (true, json) => (true, { json with atFirst := true })

/-- In front of a member: the closing byte, which ends the walk, or the comma that all but the
first must have. -/
@[grind =] def nextMember (close : UInt8) : Bool × Cursor :=
  match take json close with
  | (true, json) => (false, { json with atFirst := false })
  | (false, json) =>
    let (separated, json) := if json.atFirst then (true, json) else take json comma
    if separated then (true, { json with atFirst := false }) else (false, json)

@[grind =] def nextKey (outLen : Nat) : Option Bytes × Cursor :=
  match nextMember json closeBrace with
  | (false, json) => (none, json)
  | (true, json) =>
    match take json quote with
    | (false, json) => (none, json)
    | (true, json) =>
      match readStringBody json outLen with
      | (none, json) => (none, json)
      | (some key, json) =>
        match take json colon with
        | (false, json) => (none, json)
        | (true, json) => (some key, json)

@[grind =] def nextElement : Bool × Cursor :=
  match nextMember json closeBracket with
  | (false, json) => (false, json)
  | (true, json) =>
    let (c, json) := peek json
    (c != 0, json)

@[grind =] def readString (outLen : Nat) : Option Bytes × Cursor :=
  match take json quote with
  | (false, json) => (none, json)
  | (true, json) => readStringBody json outLen

def uint64Max : Nat := 2 ^ 64 - 1

@[grind =] def digitsFrom (value : Nat) : Bytes → Option Nat × Bytes
  | [] => (some value, [])
  | c :: text =>
    if '0'.toUInt8 ≤ c ∧ c ≤ '9'.toUInt8 then
      let digit := c.toNat - '0'.toNat
      if value > (uint64Max - digit) / 10 then (none, c :: text)
      else digitsFrom (value * 10 + digit) text
    else (some value, c :: text)

@[grind =] def readU64 : Option Nat × Cursor :=
  let (first, json) := peek json
  if first < '0'.toUInt8 ∨ first > '9'.toUInt8 then (none, json)
  else
    let (value, text) := digitsFrom 0 json.text
    (value, { json with text })

@[grind =] def readBool : Option Bool × Cursor :=
  let (_, json) := peek json
  if json.text.take 4 = ascii "true" then (some true, { json with text := json.text.drop 4 })
  else if json.text.take 5 = ascii "false" then (some false, { json with text := json.text.drop 5 })
  else (none, json)

def delimiter (c : UInt8) : Bool := c == comma || c == closeBrace || c == closeBracket || space c

def sizePred (n : Nat) : Nat := (n + (2 ^ 64 - 1)) % 2 ^ 64

/-- Past a container, counting how deep it nests; the number of bytes is enough `fuel`. -/
@[grind =] def skipNested : (fuel depth : Nat) → Bytes → Bool × Bytes
  | 0, _, text => (false, text)
  | _ + 1, _, [] => (false, [])
  | fuel + 1, depth, c :: text =>
    if c = quote then
      match skipStringBody text with
      | (false, text) => (false, text)
      | (true, text) => skipNested fuel depth text
    else if c = openBrace ∨ c = openBracket then
      if depth + 1 > maxDepth then (false, text) else skipNested fuel (depth + 1) text
    else if c = closeBrace ∨ c = closeBracket then
      if sizePred depth = 0 then (true, text) else skipNested fuel (sizePred depth) text
    else skipNested fuel depth text

@[grind =] def skipValue : Bool × Cursor :=
  let (first, json) := peek json
  if first = 0 then (false, json)
  else if first = quote then
    let (done, text) := skipStringBody json.text.tail
    (done, { json with text })
  else if first ≠ openBrace ∧ first ≠ openBracket then
    (true, { json with text := json.text.dropWhile fun c => !delimiter c })
  else
    let (done, text) := skipNested (json.text.length + 1) 0 json.text
    (done, { json with text })

/-- The search of the members left for a key; the number of bytes is enough `fuel`. -/
@[grind =] def findKey (key : Bytes) : (fuel : Nat) → Cursor → Bool × Cursor
  | 0, json => (false, json)
  | fuel + 1, json =>
    match nextKey json 64 with
    | (none, json) => (false, json)
    | (some name, json) =>
      if cText name = key then (true, json)
      else
        match skipValue json with
        | (false, json) => (false, json)
        | (true, json) => findKey key fuel json

@[grind =] def objectFind (key : Bytes) : Bool × Cursor :=
  match enterObject json with
  | (false, json) => (false, json)
  | (true, json) => findKey key (json.text.length + 1) json

end

end Inkwell.Json
