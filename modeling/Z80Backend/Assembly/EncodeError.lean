import Z80Backend.Register
import Z80Backend.Syntax.Instruction
import Z80Backend.Value

/-! # Why an instruction has no encoding -/

namespace Z80Backend

/-- Why an instruction cannot be encoded.  `head` is its mnemonic in lower
    case. -/
inductive EncodeError where
  | unsupported (head : String)
  /-- An operand has no value. -/
  | noValue (head : String) (e : Expr) (cause : EvalError)
  | displacement (head : String) (d : Int64)
  | imm16Range (head : String) (n : Int64)
  | imm8NotConst (head : String) (e : Expr)
  | imm8Range (head : String) (n : Int64)
  | bitNotConst (head : String) (e : Expr)
  | bitRange (head : String) (n : Int64)
  /-- Short jumps test four conditions only. -/
  | longCondition (cc : Condition)
  | vectorNotConst (e : Expr)
  | vectorRange (n : Int64)
  | mode (e : Expr)
  /-- The number of operands fits and their kinds do not. -/
  | operands (head : String) (i : Instruction)
  | operandCount (head : String) (allowed : List Nat) (got : Nat)
  deriving DecidableEq, Repr

/-- Accepted operand counts in words: `1 or 2 operands`. -/
def countText (allowed : List Nat) : String :=
  " or ".intercalate (allowed.map Nat.repr) ++ (if allowed = [1] then " operand" else " operands")

/-- The wording of an encoding error. -/
def EncodeError.message : EncodeError → String
  | unsupported h => "Unsupported instruction: " ++ h
  | noValue h e (.unresolved n) =>
    h ++ ": unresolved name " ++ Text.quote n ++ " in " ++ e.text ++ "."
  | noValue h e cause => h ++ ": cannot evaluate " ++ e.text ++ ": " ++ cause.message ++ "."
  | displacement h d =>
    h ++ " expects a displacement in range -128..127 (got " ++ Text.decimal d ++ ")."
  | imm16Range h n =>
    h ++ " expects an imm16 value in range -32768..65535 (got " ++ Text.decimal n ++ ")."
  | imm8NotConst h e => h ++ " expects a constant imm8 value (got " ++ e.text ++ ")."
  | imm8Range h n =>
    h ++ " expects an imm8 value in range -128..255 (got " ++ Text.decimal n ++ ")."
  | bitNotConst h e => h ++ " expects a constant bit index (got " ++ e.text ++ ")."
  | bitRange h n => h ++ " expects a bit index in range 0..7 (got " ++ Text.decimal n ++ ")."
  | longCondition cc =>
    "jr supports only nz, z, nc and c conditions (got " ++ cc.text ++ ")."
  | vectorNotConst e => "rst expects a constant vector (got " ++ e.text ++ ")."
  | vectorRange n =>
    "rst expects a vector in $00,$08,...,$38 (got " ++ Text.decimal n ++ ")."
  | mode e => "im expects mode 0, 1 or 2 (got " ++ e.text ++ ")."
  | operands h i => "Invalid operands for " ++ h ++ ": " ++ i.text ++ "."
  | operandCount h allowed got =>
    h ++ " expects " ++ countText allowed ++ " (got " ++ got.repr ++ ")."

end Z80Backend
