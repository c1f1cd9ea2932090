/-!
# Variable-length quantities

A signed 64-bit number as digits of the Base64 alphabet: the sign is the lowest bit, five bits go
into each digit from the lowest on, and a digit with bit 32 set has a successor.
-/

namespace ScriptCompiler.Vlq

/-- The alphabet of the digits. -/
def alphabet : List Char :=
  "ABCDEFGHIJKLMNOPQRSTUVWXYZabcdefghijklmnopqrstuvwxyz0123456789+/".toList

def digitChar (digit : Nat) : Char :=
  alphabet.getD digit 'A'

/-- The bits of a number, one place up, with the sign as the lowest bit. -/
def word (value : Int64) : UInt64 :=
  if value < 0 then (((-value) <<< 1) ||| 1).toUInt64 else (value <<< 1).toUInt64

/-- At most `bound` digits of a number, lowest first; all but the last carry the mark 32. -/
def digitsWithin : Nat → Nat → List Nat
  | 0, _ => []
  | bound + 1, n => if n < 32 then [n] else (n % 32 + 32) :: digitsWithin bound (n / 32)

/-- The digits of a word. Thirteen of five bits hold every word. -/
def digits (w : UInt64) : List Nat :=
  digitsWithin 13 w.toNat

def encode (value : Int64) : List Char :=
  (digits (word value)).map digitChar

end ScriptCompiler.Vlq
