import Z80Backend.Syntax.Expr

/-! # Effective addresses

    A place is an effective-address expression: a storage or register name,
    or an absolute address, followed by field selections, subscripts and
    constant offsets. -/

namespace Z80Backend

/-- A subscript that reads at most one register or memory cell. -/
inductive Subscript where
  /-- A constant. -/
  | const (e : Expr)
  /-- An 8-bit register, zero-extended. -/
  | reg8 (reg : String)
  /-- A 16-bit register. -/
  | reg16 (reg : String)
  /-- The byte at `(hl)`. -/
  | memHL
  /-- The byte at `(ix+d)` or `(iy+d)`. -/
  | memIndexed (reg : String) (disp : Expr)
  /-- A node that the front end left out. -/
  | missing
  deriving DecidableEq, Repr, Inhabited

/-- An effective-address expression. -/
inductive Place where
  /-- Storage, or a register used as an address. -/
  | name (s : String)
  /-- An absolute address. -/
  | literal (e : Expr)
  /-- A field of a record or union. -/
  | field (base : Place) (name : String)
  /-- An array element with a simple subscript. -/
  | elem (base : Place) (sub : Subscript)
  /-- The array element whose subscript is the value stored at `inner`. -/
  | elemAt (base inner : Place)
  /-- A constant number of bytes further on. -/
  | add (base : Place) (off : Expr)
  /-- A constant number of bytes back. -/
  | sub (base : Place) (off : Expr)
  /-- A node that the front end left out. -/
  | missing
  deriving DecidableEq, Repr, Inhabited

/-- The text of `base + off`; a negative literal is written as a
    subtraction. -/
def offsetText (base : String) (off : Expr) : String :=
  match off with
  | .number n =>
    if n < 0 then base ++ "-" ++ Text.decimal (-n) else base ++ "+" ++ Text.decimal n
  | e => base ++ "+" ++ e.operandText

/-- The subscript as written between brackets. -/
def Subscript.text : Subscript → String
  | const e => e.text
  | reg8 r => r
  | reg16 r => r
  | memHL => "(hl)"
  | memIndexed r d => "(" ++ offsetText r d ++ ")"
  | missing => missingText

/-- The effective address as written. -/
def Place.text : Place → String
  | name s => s
  | literal (.number n) => literalText n true
  | literal e => e.text
  | field b f => b.text ++ "." ++ f
  | elem b i => b.text ++ "[" ++ i.text ++ "]"
  | elemAt b p => b.text ++ "[" ++ p.text ++ "]"
  | add b off => offsetText b.text off
  | sub b off => b.text ++ "-" ++ off.operandText
  | missing => missingText

end Z80Backend
