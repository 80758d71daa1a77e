import Mathlib.Algebra.Ring.Nat
import Mathlib.Data.List.DropRight
import Inkwell.Library.Bytes

namespace Inkwell.Http
open Library

def ascii (s : String) : Bytes := s.toList.map Char.toUInt8

def LF : UInt8 := 10
def CR : UInt8 := 13

def digit (c : UInt8) : Bool := '0'.toUInt8 ≤ c && c ≤ '9'.toUInt8

def lower (c : UInt8) : UInt8 :=
  if 'A'.toUInt8 ≤ c && c ≤ 'Z'.toUInt8 then c - 'A'.toUInt8 + 'a'.toUInt8 else c

def equalNocase (a b : Bytes) : Bool := a.map lower == b.map lower

/-- Case-blind prefix test; a text shorter than the prefix fails at its end. -/
def prefixNocase : Bytes → Bytes → Bool
  | _, [] => true
  | [], _ :: _ => false
  | t :: text, p :: pre => if lower t != lower p then false else prefixNocase text pre

def alpha (c : UInt8) : Bool :=
  ('a'.toUInt8 ≤ c && c ≤ 'z'.toUInt8) || ('A'.toUInt8 ≤ c && c ≤ 'Z'.toUInt8)

/-- RFC 9110 `tchar`: what a header name is made of. -/
def tokenChar (c : UInt8) : Bool := alpha c || digit c || (ascii "!#$%&'*+-.^_`|~").contains c

def hex (c : UInt8) : Option Nat :=
  if digit c then some (c - '0'.toUInt8).toNat
  else
    let c := lower c
    if 'a'.toUInt8 ≤ c && c ≤ 'f'.toUInt8 then some ((c - 'a'.toUInt8).toNat + 10) else none

/-- RFC 3986 `scheme`: a letter, then letters, digits, '+', '-' and '.'. -/
def schemeChar (c : UInt8) (first : Bool) : Bool :=
  alpha c || (!first && (digit c || c == '+'.toUInt8 || c == '-'.toUInt8 || c == '.'.toUInt8))

def urlByteOk (c : UInt8) : Bool := c > 0x20 && c != 0x7F

def urlBytesOk (text : Bytes) : Bool := text.all urlByteOk

def blank (c : UInt8) : Bool := c == ' '.toUInt8 || c == '\t'.toUInt8

theorem digit_lt (h : digit c) : (c - '0'.toUInt8).toNat < 10 := by
  revert h
  exact forall_byte (p := fun c => digit c → (c - '0'.toUInt8).toNat < 10) (by decide +kernel) c

theorem hex_lt (h : hex c = some v) : v < 16 := by
  have hc := forall_byte (p := fun c => (hex c).all (· < 16) = true) (by decide +kernel) c
  simpa [h] using hc

theorem hex_of_blank (h : blank c) : hex c = none := by
  revert h
  exact forall_byte (p := fun c => blank c = true → hex c = none) (by decide +kernel) c

end Inkwell.Http
