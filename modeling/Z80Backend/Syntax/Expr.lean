import Z80Backend.Text.Numeral

/-! # Immediate expressions

    An immediate expression is built from 64-bit literals, names, unary and
    binary operators, and the size and field-offset operators on types.  The
    text of an expression brackets a right operand that is itself a binary
    expression and nothing else, so every operator reads as left associative
    at one level. -/

namespace Z80Backend

/-! ## Types -/

/-- A reference to a scalar or to a named record or union.  A positive `len`
    makes it an array of that many elements, and `isRef` a two-byte slot that
    holds the address of such storage. -/
structure TypeRef where
  name : String
  len : Int64 := 0
  isRef : Bool := false
  deriving DecidableEq, Repr, Inhabited

namespace TypeRef

/-- Does the reference describe an array? -/
def isArray (t : TypeRef) : Bool := 0 < t.len

/-- The element type of an array type. -/
def elem (t : TypeRef) : TypeRef := { name := t.name }

/-- The type as written: `ref name[len]`. -/
def text (t : TypeRef) : String :=
  let body := if t.isArray then t.name ++ "[" ++ Text.decimal t.len ++ "]" else t.name
  if t.isRef then "ref " ++ body else body

end TypeRef

/-! ## Operators -/

/-- Operators with one operand.  `unknown` keeps a symbol that has no
    meaning, so that it can be reported. -/
inductive UnaryOp where
  | neg
  | plus
  | complement
  | unknown (symbol : String)
  deriving DecidableEq, Repr

/-- The operator written with the given symbol. -/
def UnaryOp.ofSymbol : String → UnaryOp
  | "-" => .neg
  | "+" => .plus
  | "~" => .complement
  | s   => .unknown s

/-- The symbol of an operator. -/
def UnaryOp.symbol : UnaryOp → String
  | .neg        => "-"
  | .plus       => "+"
  | .complement => "~"
  | .unknown s  => s

/-- Operators with two operands.  `unknown` keeps a symbol that has no
    meaning, so that it can be reported. -/
inductive BinaryOp where
  | add
  | sub
  | mul
  | div
  | mod
  | and
  | or
  | xor
  | shl
  | shr
  | unknown (symbol : String)
  deriving DecidableEq, Repr

/-- The operator written with the given symbol. -/
def BinaryOp.ofSymbol : String → BinaryOp
  | "+"  => .add
  | "-"  => .sub
  | "*"  => .mul
  | "/"  => .div
  | "%"  => .mod
  | "&"  => .and
  | "|"  => .or
  | "^"  => .xor
  | "<<" => .shl
  | ">>" => .shr
  | s    => .unknown s

/-- The symbol of an operator. -/
def BinaryOp.symbol : BinaryOp → String
  | .add => "+"
  | .sub => "-"
  | .mul => "*"
  | .div => "/"
  | .mod => "%"
  | .and => "&"
  | .or  => "|"
  | .xor => "^"
  | .shl => "<<"
  | .shr => ">>"
  | .unknown s => s

/-! ## Expressions -/

/-- The text of a node that the front end left out. -/
def missingText : String := "<<nil>>"

/-- An immediate expression. -/
inductive Expr where
  /-- A literal. -/
  | number (n : Int64)
  /-- A constant, a qualified enum member, or else a symbol whose address is
      filled in at link time. -/
  | name (s : String)
  | unary (op : UnaryOp) (x : Expr)
  | binary (op : BinaryOp) (left right : Expr)
  /-- The byte size of a type. -/
  | sizeof (type : TypeRef)
  /-- The byte offset of a field path inside a record or union. -/
  | offsetof (type : String) (path : List String)
  /-- A node that the front end left out. -/
  | missing
  deriving DecidableEq, Repr, Inhabited

namespace Expr

/-- Is the outermost operator binary? -/
def isBinary : Expr → Bool
  | binary .. => true
  | _         => false

/-- The expression as written. -/
def text : Expr → String
  | number n => Text.decimal n
  | name s => s
  | unary op x => op.symbol ++ x.text
  | binary op l r =>
    l.text ++ op.symbol ++ (if r.isBinary then "(" ++ r.text ++ ")" else r.text)
  | sizeof t => "sizeof(" ++ t.text ++ ")"
  | offsetof t path => "offsetof(" ++ t ++ "," ++ ".".intercalate path ++ ")"
  | missing => missingText

/-- The expression as a right operand: bracketed when it is binary. -/
def operandText (e : Expr) : String :=
  if e.isBinary then "(" ++ e.text ++ ")" else e.text

/-- `name + off`, with a zero offset left out and a negative one
    subtracted. -/
def offset (symbol : String) (off : Int64) : Expr :=
  if off = 0 then name symbol
  else if off < 0 then binary .sub (name symbol) (number (-off))
  else binary .add (name symbol) (number off)

end Expr

/-- A literal as an assembler writes it: hexadecimal with a dollar sign, four
    digits when `wide` or above 255 and two otherwise, and decimal when
    negative. -/
def literalText (n : Int64) (wide : Bool) : String :=
  if n < 0 then Text.decimal n
  else if wide || 0xFF < n then "$" ++ Text.hex 4 n.toInt.toNat
  else "$" ++ Text.hex 2 n.toInt.toNat

end Z80Backend
