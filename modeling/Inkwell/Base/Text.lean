import Inkwell.Library.Bytes

namespace Inkwell

/-- A C string, without its terminator. -/
abbrev Text := Bytes

def literal (s : String) : Text := s.toList.map Char.toUInt8

/-- What `inkwell_str_copy` leaves in a buffer of `size` bytes. -/
def strCopy (size : Nat) (s : Text) : Text := s.take (size - 1)

def lowerCase (c : UInt8) : UInt8 := if 65 ≤ c && c ≤ 90 then c + 32 else c

def sameNocase (s t : Text) : Bool := s.map lowerCase == t.map lowerCase

/-- What follows the last `c`, or everything when there is none. -/
def afterLast (c : UInt8) (s : Text) : Text := (s.reverse.takeWhile (· != c)).reverse

end Inkwell
