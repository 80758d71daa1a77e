import Inkwell.Net.Mqtt.Client

namespace Inkwell.Mqtt

def isSpace (c : UInt8) : Bool := c == 0x20 || (0x09 ≤ c && c ≤ 0x0D)

def isDigit (c : UInt8) : Bool := 0x30 ≤ c && c ≤ 0x39

def ulongMax : Nat := 2 ^ 64 - 1

/-- `strtoul` in base ten: the value saturates, a minus sign negates it, and a text without digits
is not consumed. -/
def strtoul (text : Bytes) : Nat × Bytes :=
  let body := text.dropWhile isSpace
  let (negative, body) := match body with
    | 0x2D :: rest => (true, rest)
    | 0x2B :: rest => (false, rest)
    | rest => (false, rest)
  let digits := body.takeWhile isDigit
  if digits = [] then (0, text)
  else
    let value := digits.foldl (fun n c => n * 10 + (c - 0x30).toNat) 0
    if value > ulongMax then (ulongMax, body.dropWhile isDigit)
    else (if negative then (2 ^ 64 - value) % 2 ^ 64 else value, body.dropWhile isDigit)

def splitTarget (target : Bytes) : Option (Bytes × Option Bytes) :=
  match target with
  | 0x5B :: rest =>
    let host := rest.takeWhile (· ≠ 0x5D)
    match rest.dropWhile (· ≠ 0x5D) with
    | [] => none
    | _ :: after =>
      if host = [] then none
      else match after with
        | [] => some (host, none)
        | 0x3A :: port => some (host, some port)
        | _ => none
  | target =>
    match target.dropWhile (· ≠ 0x3A) with
    | [] => some (target, none)
    | _ :: port =>
      if port.contains 0x3A then some (target, none)
      else some (target.takeWhile (· ≠ 0x3A), some port)

/-- `inkwell_mqtt_target_split`, with room for `hostLen` bytes; 0 is a port left out. -/
def targetSplit (target : Bytes) (hostLen : Nat) : Option (Bytes × Nat) :=
  if target = [] || target.length ≥ addressMax then none
  else
    match splitTarget target with
    | none => none
    | some (host, port) =>
      if host = [] || host.length ≥ hostLen then none
      else
        match port with
        | none => some (host, 0)
        | some [] => none
        | some text =>
          let (value, rest) := strtoul text
          if rest ≠ [] || value = 0 || value > 65535 then none else some (host, value)

end Inkwell.Mqtt
