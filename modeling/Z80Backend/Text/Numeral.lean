/-! # Numerals

    Decimal and hexadecimal text of integers and bytes.  Hexadecimal digits
    are upper case when written and may have either case when read. -/

namespace Z80Backend.Text

/-- Decimal text, with a leading minus sign for negative numbers. -/
def decimal (n : Int64) : String := n.toInt.repr

/-- Upper-case hexadecimal digits, at least `width` of them. -/
def hexDigits (width n : Nat) : List Char :=
  (Nat.toDigits 16 n).map Char.toUpper |>.leftpad width '0'

/-- A natural number in hexadecimal, at least `width` digits wide. -/
def hex (width n : Nat) : String := String.ofList (hexDigits width n)

/-- A signed number in hexadecimal: the sign, then the magnitude, together at
    least `width` characters wide. -/
def hexSigned (width : Nat) (n : Int64) : String :=
  if n < 0 then "-" ++ hex (width - 1) n.toInt.natAbs else hex width n.toInt.toNat

/-- One byte as two hexadecimal digits. -/
def hexByte (b : UInt8) : String := hex 2 b.toNat

/-- Bytes as hexadecimal digits without separators. -/
def hexBytes (bs : List UInt8) : String := String.ofList (bs.flatMap fun b => hexDigits 2 b.toNat)

/-- The value of one hexadecimal digit. -/
def hexValue? (c : Char) : Option Nat :=
  if '0' ≤ c ∧ c ≤ '9' then some (c.toNat - '0'.toNat)
  else if 'A' ≤ c ∧ c ≤ 'F' then some (c.toNat - 'A'.toNat + 10)
  else if 'a' ≤ c ∧ c ≤ 'f' then some (c.toNat - 'a'.toNat + 10)
  else none

/-- Reads bytes written as pairs of hexadecimal digits. -/
def readHexBytes? : List Char → Option (List UInt8)
  | [] => some []
  | [_] => none
  | a :: b :: rest => do
    let hi ← hexValue? a
    let lo ← hexValue? b
    return UInt8.ofNat (16 * hi + lo) :: (← readHexBytes? rest)

/-- `s` followed by blanks up to `width` characters. -/
def padRight (width : Nat) (s : String) : String :=
  String.ofList (s.toList.rightpad width ' ')

end Z80Backend.Text
