/-!
# Integers as text

Reading takes an optional sign and one or more ASCII digits, and only values of 64 signed
bits; zeros in front are allowed, and nothing may stand between the sign and the digits.
The bound is on the value and not on the number of digits. Writing is plain decimal;
offsets in listings are padded and opcodes are shown as two hexadecimal digits.
-/

namespace DualMachine.Text

def digitsValue? (digits : List Char) : Option Nat :=
  if !digits.isEmpty && digits.all Char.isDigit then
    some (Nat.ofDigitChars 10 digits 0)
  else none

def signedValue? : List Char → Option Int
  | '-' :: digits => (digitsValue? digits).map fun n => -(n : Int)
  | '+' :: digits => (digitsValue? digits).map Int.ofNat
  | digits => (digitsValue? digits).map Int.ofNat

/-- The integer a word spells, if it is one of 64 signed bits. -/
def readInteger? (word : String) : Option Int :=
  (signedValue? word.toList).filter fun v => -(Nat.pow 2 63 : Int) ≤ v && v < Nat.pow 2 63

/-- Decimal digits, with zeros in front up to `width` of them. -/
def padded (width n : Nat) : String :=
  let digits := Nat.toDigits 10 n
  String.ofList (List.replicate (width - digits.length) '0' ++ digits)

def upperHexDigit (n : Nat) : Char := (Nat.digitChar n).toUpper

def hexByte (b : UInt8) : String :=
  String.ofList [upperHexDigit (b.toNat / 16), upperHexDigit (b.toNat % 16)]

def bracketed (values : List Int) : String :=
  "[" ++ ", ".intercalate (values.map toString) ++ "]"

end DualMachine.Text
