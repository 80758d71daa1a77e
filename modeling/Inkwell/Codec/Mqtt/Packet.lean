import Inkwell.Base.Errno
import Inkwell.Library.Bytes

namespace Inkwell.Mqtt
open Library

/-- The packet types of MQTT 3.1.1; 0 and 15 are reserved and no type. -/
inductive PacketType
  | connect | connack | publish | puback | pubrec | pubrel | pubcomp | subscribe | suback
  | unsubscribe | unsuback | pingreq | pingresp | disconnect
  deriving DecidableEq

def PacketType.code : PacketType → UInt8
  | .connect => 1
  | .connack => 2
  | .publish => 3
  | .puback => 4
  | .pubrec => 5
  | .pubrel => 6
  | .pubcomp => 7
  | .subscribe => 8
  | .suback => 9
  | .unsubscribe => 10
  | .unsuback => 11
  | .pingreq => 12
  | .pingresp => 13
  | .disconnect => 14

def PacketType.ofCode (raw : UInt8) : Option PacketType :=
  [.connect, .connack, .publish, .puback, .pubrec, .pubrel, .pubcomp, .subscribe, .suback,
    .unsubscribe, .unsuback, .pingreq, .pingresp, .disconnect].find? (·.code == raw)

def remainingMax : Nat := 268435455
def remainingBytesMax : Nat := 4
def stringMax : Nat := 65535
def flagsQos1 : UInt8 := 0x02

inductive Decoded (α : Type)
  | more
  | malformed
  | ok (value : α)
  deriving DecidableEq

/-- Seven bits a byte, little end first, in at most `left` bytes: the value and its width. -/
@[grind =] def readVarintFrom : (left value multiplier used : Nat) → Bytes → Decoded (Nat × Nat)
  | 0, _, _, _, _ => .malformed
  | _ + 1, _, _, _, [] => .more
  | left + 1, value, multiplier, used, byte :: data =>
    let value := value + (byte &&& 0x7F).toNat * multiplier
    if byte &&& 0x80 = 0 then .ok (value, used + 1)
    else readVarintFrom left value (multiplier * 128) (used + 1) data

def readVarint (data : Bytes) : Decoded (Nat × Nat) := readVarintFrom remainingBytesMax 0 1 0 data

/-- A `size_t` has at most ten groups of seven bits. -/
@[grind =] def writeVarintGroups : Nat → Nat → Bytes
  | 0, _ => []
  | groups + 1, value =>
    if value / 128 > 0 then
      (UInt8.ofNat (value % 128) ||| 0x80) :: writeVarintGroups groups (value / 128)
    else [UInt8.ofNat (value % 128)]

def writeVarint (value : Nat) : Bytes := writeVarintGroups 10 value

def varintWidthGroups : Nat → Nat → Nat
  | 0, _ => 1
  | groups + 1, value => if value ≥ 128 then varintWidthGroups groups (value / 128) + 1 else 1

def varintWidth (value : Nat) : Nat := varintWidthGroups 9 value

def readU16 (a b : UInt8) : Nat := a.toNat * 256 + b.toNat

def writeU16 (value : Nat) : Bytes := [UInt8.ofNat (value / 256), UInt8.ofNat (value % 256)]

def writeString (text : Bytes) : Bytes := writeU16 text.length ++ text

def flagsAreLegal (type : PacketType) (flags : UInt8) : Bool :=
  match type with
  | .publish => true
  | .pubrel | .subscribe | .unsubscribe => flags == flagsQos1
  | _ => flags == 0

structure Header where
  type : PacketType
  flags : UInt8
  remaining : Nat
  headerLen : Nat
  deriving DecidableEq

def decodeHeader : Bytes → Decoded Header
  | [] => .more
  | first :: data =>
    match PacketType.ofCode (first >>> 4) with
    | none => .malformed
    | some type =>
      if !flagsAreLegal type (first &&& 0x0F) then .malformed
      else match readVarint data with
        | .more => .more
        | .malformed => .malformed
        | .ok (remaining, width) => .ok ⟨type, first &&& 0x0F, remaining, 1 + width⟩

structure Incoming where
  topic : Bytes
  payload : Bytes
  qos : Nat
  retained : Bool
  duplicate : Bool
  packetId : Nat
  deriving DecidableEq

def decodePublish (flags : UInt8) (body : Bytes) : Option Incoming :=
  let qos := ((flags &&& 0x06) >>> 1).toNat
  if qos > 2 then none
  else match body with
    | a :: b :: rest =>
      let topicLen := readU16 a b
      if topicLen = 0 then none
      else if topicLen > rest.length then none
      else
        let topic := rest.take topicLen
        let after := rest.drop topicLen
        let retained := flags &&& 0x01 != 0
        let duplicate := flags &&& 0x08 != 0
        if qos > 0 then
          match after with
          | c :: d :: payload => some ⟨topic, payload, qos, retained, duplicate, readU16 c d⟩
          | _ => none
        else some ⟨topic, after, qos, retained, duplicate, 0⟩
    | _ => none

def decodeConnack : Bytes → Option UInt8
  | [present, code] => if present &&& 0xFE != 0 then none else some code
  | _ => none

def decodeSuback : Bytes → Option (Nat × UInt8)
  | a :: b :: code :: _ => some (readU16 a b, code)
  | _ => none

/-- A fixed header and room for its body, or nothing when the whole does not fit. -/
def beginPacket (cap : Nat) (type : PacketType) (flags : UInt8) (bodyLen : Nat) : Option Bytes :=
  if bodyLen > remainingMax then none
  else if cap < 1 + varintWidth bodyLen + bodyLen then none
  else some ((type.code <<< 4 ||| flags &&& 0x0F) :: writeVarint bodyLen)

def wholePacket (cap : Nat) (type : PacketType) (flags : UInt8) (body : Bytes) :
    Except Errno Bytes :=
  match beginPacket cap type flags body.length with
  | none => .error .enospc
  | some header => .ok (header ++ body)

def protocolHeader : Bytes := [0x00, 0x04, 0x4D, 0x51, 0x54, 0x54, 0x04]

/-- What goes in a CONNECT; an absent string is an empty one. -/
structure Connect where
  clientId : Bytes
  username : Bytes
  password : Bytes
  keepaliveS : Nat
  cleanSession : Bool

def writeOptional (text : Bytes) : Bytes := if text = [] then [] else writeString text

def connectFlags (cleanSession username password : Bool) : UInt8 :=
  (if cleanSession then 0x02 else 0) ||| (if username then 0x80 else 0) |||
    (if password then 0x40 else 0)

def Connect.flags (p : Connect) : UInt8 :=
  connectFlags p.cleanSession (p.username ≠ []) (p.password ≠ [])

def encodeConnect (cap : Nat) (p : Connect) : Except Errno Bytes :=
  if p.clientId.length > stringMax || p.username.length > stringMax
      || p.password.length > stringMax then .error .einval
  else if p.clientId = [] ∧ !p.cleanSession then .error .einval
  else if p.password ≠ [] ∧ p.username = [] then .error .einval
  else
    wholePacket cap .connect 0 (protocolHeader ++ [p.flags] ++ writeU16 p.keepaliveS ++
      writeString p.clientId ++ writeOptional p.username ++ writeOptional p.password)

def encodePublish (cap : Nat) (topic payload : Bytes) (retained : Bool) : Except Errno Bytes :=
  if topic = [] || topic.length > stringMax then .error .einval
  else wholePacket cap .publish (if retained then 0x01 else 0) (writeString topic ++ payload)

def encodeSubscribe (cap packetId : Nat) (filter : Bytes) : Except Errno Bytes :=
  if packetId = 0 then .error .einval
  else if filter = [] || filter.length > stringMax then .error .einval
  else wholePacket cap .subscribe flagsQos1 (writeU16 packetId ++ writeString filter ++ [0])

def encodeEmpty (cap : Nat) (type : PacketType) : Except Errno Bytes :=
  if type ≠ .pingreq ∧ type ≠ .disconnect then .error .einval else wholePacket cap type 0 []

def topicIsPublishable (topic : Bytes) : Bool :=
  topic != [] && topic.length ≤ stringMax && topic.all fun c => c != '+'.toUInt8 && c != '#'.toUInt8

end Inkwell.Mqtt
