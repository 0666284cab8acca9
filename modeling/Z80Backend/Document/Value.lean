import Z80Backend.Document.Node
import Z80Backend.Text.Numeral

/-! # Values of scalars

    What a scalar stands for follows from its text, unless it is quoted: an
    integer, another number, a truth value, null, or else the text itself.
    A tag may ask for one of these; a text that stands for something else is
    then refused.

    A number that is no integer is only used for its whole part.  It is rounded
    to 53 significant bits first, as binary fractions in 64 bits are. -/

namespace Z80Backend.Document

/-! ## Integers -/

/-- The value of digits in a base. -/
def digits? (base : Nat) (cs : List Char) : Option Nat :=
  cs.foldlM
    (fun v c => do
      let d ← Text.hexValue? c
      if d < base then some (base * v + d) else none)
    0

/-- The value of digits of which there has to be one. -/
def someDigits? (base : Nat) (cs : List Char) : Option Nat :=
  if cs.isEmpty then none else digits? base cs

/-- The value of a numeral without a sign.  A base is named by `0x`, `0o` or `0b`,
    and a zero in front makes the numeral octal. -/
def natural? : List Char → Option Nat
  | '0' :: c :: d :: ds =>
    if c.toLower == 'x' then digits? 16 (d :: ds)
    else if c.toLower == 'o' then digits? 8 (d :: ds)
    else if c.toLower == 'b' then digits? 2 (d :: ds)
    else digits? 8 (c :: d :: ds)
  | '0' :: ds => digits? 8 ds
  | ds => someDigits? 10 ds

/-- Reads a sign in front of a numeral. -/
def signed? (read : List Char → Option Nat) : List Char → Option Int
  | '-' :: cs => (read cs).map fun n => -(n : Int)
  | '+' :: cs => (read cs).map Int.ofNat
  | cs => (read cs).map Int.ofNat

/-- Keeps a number of 64 bits with a sign. -/
def word? (n : Int) : Option Int :=
  if -Int.pow 2 63 ≤ n && n < Int.pow 2 63 then some n else none

/-- The value of an integer.  Without a sign it may take 64 bits.  Behind a lower
    case `0b` or `0o` the digits may have a sign of their own. -/
def integer? (cs : List Char) : Option Int :=
  let plain := (signed? natural? cs).bind word?
  let wide := ((natural? cs).filter (· < Nat.pow 2 64)).map Int.ofNat
  let inner := match cs with
    | '0' :: 'b' :: ds => (signed? (someDigits? 2) ds).bind word?
    | '0' :: 'o' :: ds => (signed? (someDigits? 8) ds).bind word?
    | _ => none
  plain.or (wide.or inner)

/-! ## Other numbers -/

/-- `n / d`, rounded to the nearest whole number, and to the even one from the
    middle between two. -/
def roundDiv (n d : Nat) : Nat :=
  let q := n / d
  let r := n % d
  if 2 * r < d then q else if d < 2 * r then q + 1 else q + q % 2

/-- The whole part of `n / d` after rounding to 53 significant bits. -/
def wholePart (n d : Nat) : Nat :=
  let guess : Int := (n.log2 : Int) - d.log2
  let top :=
    if n * Nat.pow 2 (-guess).toNat < d * Nat.pow 2 guess.toNat then guess - 1 else guess
  let unit := top - 52
  if 0 ≤ unit then roundDiv n (d * Nat.pow 2 unit.toNat) * Nat.pow 2 unit.toNat
  else roundDiv (n * Nat.pow 2 (-unit).toNat) d / Nat.pow 2 (-unit).toNat

/-- The whole part of `m` times ten to the power `e`, if that is below the first
    number that 64 bits cannot hold. -/
def scaledWhole? (m : Nat) (e : Int) : Option Nat :=
  let magnitude : Int := (Nat.toDigits 10 m).length + e
  if m = 0 || magnitude < 0 then some 0
  else if 310 < magnitude then none
  else
    let n := wholePart (m * Nat.pow 10 e.toNat) (Nat.pow 10 (-e).toNat)
    if n < Nat.pow 2 1024 then some n else none

/-- Reads an exponent: nothing, or `e` with a number. -/
def exponent? : List Char → Option Int
  | [] => some 0
  | c :: cs => if c.toLower == 'e' then signed? (someDigits? 10) cs else none

/-- The whole part of a decimal number without a sign: digits, a point with more
    digits, and an exponent.  There has to be a digit, behind a leading point
    too. -/
def decimalWhole? (cs : List Char) : Option Nat := do
  let whole := cs.takeWhile Char.isDigit
  let rest := cs.drop whole.length
  let (fraction, rest) := match rest with
    | '.' :: ds =>
      let f := ds.takeWhile Char.isDigit
      (f, ds.drop f.length)
    | ds => ([], ds)
  let e ← exponent? rest
  let m ← someDigits? 10 (whole ++ fraction)
  scaledWhole? m (e - fraction.length)

/-- Are all underscores between digits? -/
def underscoresDivide : List Char → Bool
  | [] => true
  | [c] => c != '_'
  | c :: '_' :: d :: cs => c.isDigit && d.isDigit && underscoresDivide (d :: cs)
  | c :: cs => c != '_' && underscoresDivide cs

/-! ## Values -/

/-- What a scalar stands for. -/
inductive Value where
  | null
  | boolean (b : Bool)
  | integer (n : Int)
  /-- A number that is no integer, by its whole part.  Infinite ones count as out
      of range, and what is not a number has none. -/
  | real (whole : Option Int)
  | text (s : String)
  deriving DecidableEq, Repr, Inhabited

namespace Value

/-- A number out of every range. -/
def infinite : Int := Int.pow 2 1024

/-- The words that stand for values. -/
def words : List (String × Value) :=
  ["", "~", "null", "Null", "NULL"].map (·, null) ++
  ["true", "True", "TRUE"].map (·, boolean true) ++
  ["false", "False", "FALSE"].map (·, boolean false) ++
  [".nan", ".NaN", ".NAN"].map (·, real none) ++
  [".inf", ".Inf", ".INF", "+.inf", "+.Inf", "+.INF"].map (·, real (some infinite)) ++
  ["-.inf", "-.Inf", "-.INF"].map (·, real (some (-infinite)))

/-- The number that a text stands for.  Underscores may stand anywhere behind
    the first character, but in a fraction only between digits. -/
def number? (s : String) : Option Value :=
  match s.toList with
  | [] => none
  | '.' :: cs =>
    let ds := cs.filter (· != '_')
    if underscoresDivide ('.' :: cs) then
      (decimalWhole? ('.' :: ds)).map fun n => real (some (n : Int))
    else none
  | c :: cs =>
    if c.isDigit || c == '+' || c == '-' then
      let ds := c :: cs.filter (· != '_')
      ((integer? ds).map integer).or ((signed? decimalWhole? ds).map fun n => real (some n))
    else none

/-- The value of a plain text. -/
def ofPlain (s : String) : Value := ((words.lookup s).or (number? s)).getD (text s)

/-- The tag of a kind of value. -/
def tag : Value → String
  | null => "!!null"
  | boolean _ => "!!bool"
  | integer _ => "!!int"
  | real _ => "!!float"
  | text _ => "!!str"

/-- The tags that ask for a kind of value. -/
def kindTags : List String := ["!!null", "!!bool", "!!int", "!!float", "!!timestamp"]

/-- The value of a text with a tag.  An integer also serves where a fraction is
    asked for, unless it takes all 64 bits without a sign. -/
def ofTagged? (t s : String) : Option Value :=
  if kindTags.contains t then
    let v := ofPlain s
    if v.tag == t then some v
    else
      match v with
      | integer n =>
        if t == "!!float" && n < Int.pow 2 63 then
          let w := wholePart n.natAbs 1
          some (real (some (if n < 0 then -(w : Int) else w)))
        else none
      | _ => none
  else some (text s)

/-- The value of a scalar. -/
def ofScalar? (t s : String) (plain : Bool) : Option Value :=
  if t.isEmpty then some (if plain then ofPlain s else text s) else ofTagged? t s

/-- A number as 64 bits with a sign.  A whole part below the range, or just
    above it, becomes the least number. -/
def word? : Value → Option Int64
  | integer n => if n < Int.pow 2 63 then some (Int64.ofInt n) else none
  | real (some n) =>
    if Int.pow 2 63 < n then none
    else some (if n = Int.pow 2 63 || n < -Int.pow 2 63 then Int64.minValue else Int64.ofInt n)
  | _ => none

end Value

end Z80Backend.Document
