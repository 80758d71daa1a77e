import Inkwell.Base.Errno
import Inkwell.Library.Bytes
import Inkwell.Library.Machine

namespace Inkwell.EspRom

def slipEnd : UInt8 := 0xC0
def slipEsc : UInt8 := 0xDB
def slipEscEnd : UInt8 := 0xDC
def slipEscEsc : UInt8 := 0xDD

def checksumSeed : UInt8 := 0xEF
def headerLen : Nat := 8
def statusLen : Nat := 4
def romBlock : Nat := 0x400
def frameMax : Nat := 128

inductive RomOp
  | flashBegin | flashData | flashEnd | sync | readReg | spiSetParams | spiAttach | changeBaudrate
  | spiFlashMd5
  deriving DecidableEq

def RomOp.code : RomOp → UInt8
  | .flashBegin => 0x02
  | .flashData => 0x03
  | .flashEnd => 0x04
  | .sync => 0x08
  | .readReg => 0x0A
  | .spiSetParams => 0x0B
  | .spiAttach => 0x0D
  | .changeBaudrate => 0x0F
  | .spiFlashMd5 => 0x13

inductive Chip
  | esp32 | esp32S2 | esp32C3 | esp32S3 | esp32C6
  deriving DecidableEq

def putU32 (value : Nat) : Bytes :=
  [.ofNat value, .ofNat (value / 2 ^ 8), .ofNat (value / 2 ^ 16), .ofNat (value / 2 ^ 24)]

def getU32 (b₀ b₁ b₂ b₃ : UInt8) : Nat :=
  b₀.toNat + b₁.toNat * 2 ^ 8 + b₂.toNat * 2 ^ 16 + b₃.toNat * 2 ^ 24

def slipPut (outLen : Nat) (out : Bytes) (byte : UInt8) : Option Bytes :=
  if byte = slipEnd ∨ byte = slipEsc then
    if out.length + 2 > outLen then none
    else some (out ++ [slipEsc, if byte = slipEnd then slipEscEnd else slipEscEsc])
  else if out.length + 1 > outLen then none
  else some (out ++ [byte])

def requestPacket (op : RomOp) (head body : Bytes) (checksum : Nat) : Bytes :=
  let size := head.length + body.length
  [0x00, op.code, .ofNat size, .ofNat (size / 2 ^ 8)] ++ putU32 checksum ++ head ++ body

def request (op : RomOp) (head body : Bytes) (checksum outLen : Nat) : Except Errno Bytes :=
  if outLen < 1 then .error .enobufs
  else
    match (requestPacket op head body checksum).foldlM (slipPut outLen) [slipEnd] with
    | none => .error .enobufs
    | some out => if out.length + 1 > outLen then .error .enobufs else .ok (out ++ [slipEnd])

def words (op : RomOp) (values : List Nat) (outLen : Nat) : Except Errno Bytes :=
  request op (values.flatMap putU32) [] 0 outLen

def romSync (outLen : Nat) : Except Errno Bytes :=
  request .sync ([0x07, 0x07, 0x12, 0x20] ++ List.replicate 32 0x55) [] 0 outLen

def romReadReg (address outLen : Nat) : Except Errno Bytes := words .readReg [address] outLen

def romSpiAttach (outLen : Nat) : Except Errno Bytes := words .spiAttach [0, 0] outLen

def romSpiSetParams (flashSize outLen : Nat) : Except Errno Bytes :=
  if flashSize = 0 then .error .einval
  else words .spiSetParams [0, flashSize, 64 * 1024, 4 * 1024, 256, 0xFFFF] outLen

def romChangeBaud (baud outLen : Nat) : Except Errno Bytes :=
  if baud = 0 then .error .einval else words .changeBaudrate [baud, 0] outLen

def romBlocks (size : Nat) : Nat := (size + romBlock - 1) / romBlock

/-- Every ROM after the first takes a fifth word. -/
def romFlashBegin (chip : Chip) (size offset outLen : Nat) : Except Errno Bytes :=
  if size = 0 then .error .einval
  else
    words .flashBegin
      ([size, romBlocks size, romBlock, offset, 0].take (if chip = .esp32 then 4 else 5))
      outLen

def romFlashData (sequence : Nat) (block : Bytes) (outLen : Nat) : Except Errno Bytes :=
  if block.length > romBlock then .error .einval
  else
    let padded := block ++ List.replicate (romBlock - block.length) 0xFF
    let checksum := padded.foldl (· ^^^ ·) checksumSeed
    request .flashData ([romBlock, sequence, 0, 0].flatMap putU32) padded checksum.toNat outLen

/-- The ROM's flag is to stay in download mode. -/
def romFlashEnd (run : Bool) (outLen : Nat) : Except Errno Bytes :=
  words .flashEnd [if run then 0 else 1] outLen

def romFlashMd5 (offset size outLen : Nat) : Except Errno Bytes :=
  if size = 0 then .error .einval else words .spiFlashMd5 [offset, size, 0, 0] outLen

/-- Assembles responses; `frame` is what has been kept of the run since the last delimiter. -/
structure Reader where
  frame : Bytes := []
  inFrame : Bool := false
  escape : Bool := false
  overflow : Bool := false
  deriving DecidableEq

structure Response where
  op : UInt8
  value : Nat
  data : Bytes
  status : UInt8
  error : UInt8
  deriving DecidableEq

def parse (frame : Bytes) : Option Response :=
  match frame with
  | first :: op :: low :: high :: v₀ :: v₁ :: v₂ :: v₃ :: data =>
    if data.length < statusLen ∨ first ≠ 0x01 then none
    else if low.toNat + high.toNat * 2 ^ 8 ≠ data.length then none
    else
      match data.drop (data.length - statusLen) with
      | status :: error :: _ => some { op, value := getU32 v₀ v₁ v₂ v₃, data, status, error }
      | _ => none
  | _ => none

def collect (reader : Reader) (byte : UInt8) : Reader :=
  if reader.escape then
    let reader := { reader with escape := false }
    if byte = slipEscEnd then keep reader slipEnd
    else if byte = slipEscEsc then keep reader slipEsc
    else { reader with overflow := true }
  else if byte = slipEsc then { reader with escape := true }
  else keep reader byte
where
  /-- A byte is kept if there is room for it. -/
  keep (reader : Reader) (value : UInt8) : Reader :=
    if reader.frame.length ≥ frameMax then { reader with overflow := true }
    else { reader with frame := reader.frame ++ [value] }

def ended (reader : Reader) : Option Response :=
  if reader.inFrame ∧ reader.frame.length > 0 ∧ !reader.overflow then parse reader.frame else none

def readerByte (reader : Reader) (byte : UInt8) : Reader × Option Response :=
  if byte = slipEnd then
    match ended reader with
    | some response =>
      ({ reader with inFrame := false, frame := [], escape := false }, some response)
    | none => ({ inFrame := true, frame := [], escape := false, overflow := false }, none)
  else if !reader.inFrame then (reader, none)
  else (collect reader byte, none)

structure Fed where
  reader : Reader
  ready : Option Response
  used : Nat
  deriving DecidableEq

def readerFeed (reader : Reader) : Bytes → Fed
  | [] => ⟨reader, none, 0⟩
  | byte :: data =>
    match readerByte reader byte with
    | (reader, some response) => ⟨reader, some response, 1⟩
    | (reader, none) =>
      let fed := readerFeed reader data
      { fed with used := fed.used + 1 }

def hexNibble (c : UInt8) : Option Nat :=
  if 0x30 ≤ c ∧ c ≤ 0x39 then some (c.toNat - 0x30)
  else if 0x61 ≤ c ∧ c ≤ 0x66 then some (c.toNat - 0x61 + 10)
  else if 0x41 ≤ c ∧ c ≤ 0x46 then some (c.toNat - 0x41 + 10)
  else none

def digitsMatch : Bytes → Bytes → Bool
  | [], _ => true
  | byte :: digest, high :: low :: data =>
    match hexNibble high, hexNibble low with
    | some high, some low => UInt8.ofNat (high * 16 + low) == byte && digitsMatch digest data
    | _, _ => false
  | _ :: _, _ => false

def md5Matches (response : Response) (digest : Bytes) : Bool :=
  response.status == 0 && response.op == RomOp.spiFlashMd5.code &&
    decide (response.data.length ≥ 32 + statusLen) && digitsMatch digest response.data

end Inkwell.EspRom
