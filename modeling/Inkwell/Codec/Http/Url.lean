import Inkwell.Codec.Http.Chars

namespace Inkwell.Http

def urlMax : Nat := 4096
def hostMax : Nat := 256

/-- A URL taken apart. The host has no brackets; the target is the path and the query. -/
structure Url where
  tls : Bool := false
  host : Bytes := []
  port : Nat := 0
  target : Bytes := []
  deriving DecidableEq

/-- The target from what follows the authority: all of it is checked before the fragment is cut
off. -/
def urlSetTarget (url : Url) (rest : Bytes) : Option Url :=
  if !urlBytesOk rest then none
  else
    let text := rest.takeWhile (· != '#'.toUInt8)
    let target := if text.head? = some '/'.toUInt8 then text else '/'.toUInt8 :: text
    if target.length + 1 > urlMax then none else some { url with target }

def literalByte (c : UInt8) : Bool := (hex c).isSome || c == ':'.toUInt8 || c == '.'.toUInt8

def splitAuthority (authority : Bytes) : Option (Bytes × Option Bytes) :=
  if authority.head? = some '['.toUInt8 then
    let host := authority.tail.takeWhile (· != ']'.toUInt8)
    match authority.tail.dropWhile (· != ']'.toUInt8) with
    | [] => none
    | [_] => if host.all literalByte then some (host, none) else none
    | _ :: c :: port =>
      if c ≠ ':'.toUInt8 then none
      else if host.all literalByte then some (host, some port) else none
  else
    match authority.dropWhile (· != ':'.toUInt8) with
    | [] => some (authority, none)
    | _ :: port => some (authority.takeWhile (· != ':'.toUInt8), some port)

def portNumber : Nat → Bytes → Option Nat
  | port, [] => some port
  | port, c :: cs =>
    if !digit c then none else portNumber (port * 10 + (c - '0'.toUInt8).toNat) cs

def parsePort (default : Nat) (text : Bytes) : Option Nat :=
  if text = [] then some default
  else if text.length > 5 then none
  else
    match portNumber 0 text with
    | none => none
    | some port => if port = 0 ∨ port > 65535 then none else some port

def schemePort (tls : Bool) : Nat := if tls then 443 else 80

def urlParseRest (tls : Bool) (rest : Bytes) : Option Url :=
  let ends (c : UInt8) := (ascii "/?#").contains c
  let authority := rest.takeWhile (!ends ·)
  if authority = [] ∨ !urlBytesOk authority ∨ authority.contains '@'.toUInt8 then none
  else
    match splitAuthority authority with
    | none => none
    | some (host, portText) =>
      if host = [] ∨ host.length ≥ hostMax then none
      else
        match parsePort (schemePort tls) (portText.getD []) with
        | none => none
        | some port => urlSetTarget { tls, host, port } (rest.dropWhile (!ends ·))

def urlParse (url : Bytes) : Option Url :=
  if prefixNocase url (ascii "https://") then urlParseRest true (url.drop 8)
  else if prefixNocase url (ascii "http://") then urlParseRest false (url.drop 7)
  else none

def schemeLen (location : Bytes) : Nat :=
  match location with
  | [] => 0
  | c :: cs => if schemeChar c true then (cs.takeWhile (schemeChar · false)).length + 1 else 0

def urlResolve (base : Url) (location : Bytes) : Option Url :=
  let scheme := schemeLen location
  if location = [] then none
  else if scheme > 0 ∧ location.getD scheme 0 = ':'.toUInt8 then urlParse location
  else if location.take 2 = ascii "//" then
    let absolute := ascii (if base.tls then "https" else "http") ++ ascii ":" ++ location
    if absolute.length ≥ urlMax + 8 then none else urlParse absolute
  else if location.head? = some '#'.toUInt8 then some base
  else if location.head? = some '/'.toUInt8 then urlSetTarget base location
  else
    -- relative to the path of the base, or with a query only, to all of it
    let path := base.target.takeWhile (· != '?'.toUInt8)
    let keep :=
      if location.head? = some '?'.toUInt8 then path else path.rdropWhile (· != '/'.toUInt8)
    let merged := keep ++ location
    if merged.length ≥ urlMax then none else urlSetTarget base merged

inductive HttpMethod
  | get | head | post
  deriving DecidableEq

def methodName : HttpMethod → Bytes
  | .get => ascii "GET"
  | .head => ascii "HEAD"
  | .post => ascii "POST"

def formatHeaders (cap : Nat) : (out : Bytes) → List Bytes → Option Bytes
  | out, [] => some out
  | out, header :: headers =>
    if header.any (fun c => c == CR || c == LF) then none
    else
      let line := header ++ [CR, LF]
      if line.length ≥ cap - out.length then none else formatHeaders cap (out ++ line) headers

/-- The head of a request, if it fits into `cap` bytes with its terminator. -/
def requestFormat (cap : Nat) (method : HttpMethod) (url : Url) (headers : List Bytes) :
    Option Bytes :=
  if cap = 0 ∨ url.host = [] ∨ url.target.head? ≠ some '/'.toUInt8 then none
  else
    let v6 := url.host.contains ':'.toUInt8
    let host := if v6 then ascii "[" ++ url.host ++ ascii "]" else url.host
    let port := if url.port = schemePort url.tls then [] else ascii ":" ++ ascii (toString url.port)
    let start :=
      methodName method ++ ascii " " ++ url.target ++ ascii " HTTP/1.1\r\nHost: " ++ host ++
      port ++ ascii "\r\nConnection: close\r\n"
    if start.length ≥ cap then none
    else
      match formatHeaders cap start headers with
      | none => none
      | some out => if cap - out.length < 3 then none else some (out ++ [CR, LF])

end Inkwell.Http
