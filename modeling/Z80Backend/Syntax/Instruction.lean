import Z80Backend.Syntax.Place
import Z80Backend.Syntax.Span

/-! # Instructions as written

    An instruction is a mnemonic with operands.  Names keep the case they were
    written in; only later stages read them without regard to case. -/

namespace Z80Backend

/-- One operand of an instruction. -/
inductive Operand where
  /-- A register or, in a branch, a condition. -/
  | reg (name : String) (span : Span)
  /-- An immediate. -/
  | imm (e : Expr) (span : Span)
  /-- A memory reference in parentheses. -/
  | mem (place : Place) (span : Span)
  /-- A bare effective address that names typed storage. -/
  | place (place : Place) (span : Span)
  /-- The port `(c)`. -/
  | portC (span : Span)
  /-- The port `(n)`. -/
  | port (e : Expr) (span : Span)
  /-- A node that the front end left out. -/
  | missing
  deriving DecidableEq, Repr, Inhabited

/-- A mnemonic with its operands. -/
structure Instruction where
  head : String
  operands : List Operand := []
  span : Span := {}
  deriving DecidableEq, Repr, Inhabited

namespace Operand

/-- Where the operand stands. -/
def span : Operand → Span
  | reg _ s | imm _ s | mem _ s | place _ s | portC s | port _ s => s
  | missing => {}

/-- The operand as written; `wide` asks for four digits in a bare literal. -/
def text (wide : Bool) : Operand → String
  | reg name _ => name
  | imm (.number n) _ => literalText n wide
  | imm e _ => e.text
  | mem p _ => "(" ++ p.text ++ ")"
  | place p _ => p.text
  | portC _ => "(c)"
  | port (.number n) _ => "(" ++ literalText n false ++ ")"
  | port e _ => "(" ++ e.text ++ ")"
  | missing => missingText

/-- Is the operand a register of 16 bits, spelled in lower case? -/
def isWideReg : Operand → Bool
  | reg name _ => ["af", "af'", "bc", "de", "hl", "sp", "ix", "iy"].contains name
  | _ => false

/-! ## Operands without a position -/

/-- A register or condition. -/
def ofReg (name : String) : Operand := .reg name {}

/-- A literal. -/
def ofNum (n : Int64) : Operand := .imm (.number n) {}

/-- A symbol or constant. -/
def ofName (name : String) : Operand := .imm (.name name) {}

/-- A symbol plus an offset. -/
def ofSymbol (name : String) (off : Int64) : Operand := .imm (Expr.offset name off) {}

/-- Memory at a register: `(hl)`. -/
def indirect (reg : String) : Operand := .mem (.name reg) {}

/-- Memory at an index register: `(ix+disp)`. -/
def indexed (reg : String) (disp : Int64) : Operand := .mem (.add (.name reg) (.number disp)) {}

/-- Memory at a symbol plus an offset. -/
def absolute (name : String) (off : Int64) : Operand :=
  if off = 0 then .mem (.name name) {}
  else if off < 0 then .mem (.sub (.name name) (.number (-off))) {}
  else .mem (.add (.name name) (.number off)) {}

/-- Memory at an absolute address. -/
def absoluteAddr (addr : Int64) : Operand := .mem (.literal (.number addr)) {}

/-- Typed storage, named without parentheses. -/
def storage (name : String) : Operand := .place (.name name) {}

end Operand

namespace Instruction

/-- An instruction without a position. -/
def of (head : String) (operands : List Operand) : Instruction := { head, operands }

/-- Are literal operands written with four digits?  They are next to a 16-bit
    register and in branches. -/
def isWide (i : Instruction) : Bool :=
  ["jp", "jr", "call", "djnz"].contains i.head || i.operands.any (·.isWideReg)

/-- The instruction as written. -/
def text (i : Instruction) : String :=
  if i.operands.isEmpty then i.head
  else i.head ++ " " ++ ",".intercalate (i.operands.map (·.text i.isWide))

end Instruction

end Z80Backend
