import Z80Backend.Assembly.EncodeError
import Z80Backend.MachineInstr
import Z80Backend.Text.LetterCase

/-! # Classified operands

    An operand is read once, without regard to case and with its expressions
    evaluated; what remains is its part in an instruction. -/

namespace Z80Backend

/-- An operand sorted by the part it can play. -/
inductive Arg where
  | reg8 (r : Reg8)
  | half (x : IndexReg) (h : Half)
  | pair (p : Pair)
  | af
  /-- The shadow pair `af'`. -/
  | afShadow
  | index (x : IndexReg)
  | control (s : ControlReg)
  /-- A condition whose name is not also a register. -/
  | cond (cc : Condition)
  | imm (v : Value) (e : Expr)
  /-- `(hl)`, `(ix+d)` or `(iy+d)` -/
  | cell (m : Cell)
  | memBC
  | memDE
  | memSP
  /-- `(nn)` -/
  | memAbs (v : Value) (e : Expr)
  | portC
  | port (v : Value) (e : Expr)
  /-- An operand that no instruction accepts. -/
  | other
  deriving DecidableEq, Repr, Inhabited

namespace Arg

/-- The part of a register or condition name, in lower case. -/
def ofRegName (name : String) : Arg :=
  match Reg8.ofName? name with
  | some r => .reg8 r
  | none =>
    match Half.ofName? name with
    | some (x, h) => .half x h
    | none =>
      match Pair.ofName? name with
      | some p => .pair p
      | none =>
        match IndexReg.ofName? name with
        | some x => .index x
        | none =>
          match name with
          | "af"  => .af
          | "af'" => .afShadow
          | "i"   => .control .i
          | "r"   => .control .r
          | _ =>
            match Condition.ofName? name with
            | some cc => .cond cc
            | none    => .other

/-- Memory at the value of an expression. -/
def ofAddress (r : Resolver) (head : String) (e : Expr) : Except EncodeError Arg :=
  match e.evalSymbolic r with
  | .ok v      => .ok (.memAbs v e)
  | .error err => .error (.noValue head e err)

/-- Memory at an index register plus a displacement of one signed byte. -/
def ofDisplacement (head : String) (x : IndexReg) (d : Int64) : Except EncodeError Arg :=
  if d < -128 ∨ 127 < d then .error (.displacement head d)
  else .ok (.cell (.indexed x (Int8.ofInt d.toInt)))

/-- Memory at a name plus or minus an offset. -/
def ofOffset (r : Resolver) (head : String) (op : BinaryOp) (base : String) (off : Expr) :
    Except EncodeError Arg :=
  match IndexReg.ofName? (Text.lower base) with
  | some x =>
    match off.eval r with
    | .error err => .error (.noValue head off err)
    | .ok d      => ofDisplacement head x (if op = .sub then -d else d)
  | none =>
    match Pair.ofName? (Text.lower base) with
    | some _ => .ok .other
    | none   => ofAddress r head (.binary op (.name base) off)

/-- Memory at a place. -/
def ofPlace (r : Resolver) (head : String) : Place → Except EncodeError Arg
  | .name s =>
    match Text.lower s with
    | "hl" => .ok (.cell .hl)
    | "bc" => .ok .memBC
    | "de" => .ok .memDE
    | "sp" => .ok .memSP
    | "c"  => .ok .portC
    | low =>
      match IndexReg.ofName? low with
      | some x => .ok (.cell (.indexed x 0))
      | none   => ofAddress r head (.name s)
  | .literal e => ofAddress r head e
  | .add (.name base) off => ofOffset r head .add base off
  | .sub (.name base) off => ofOffset r head .sub base off
  | _ => .ok .other

/-- The part of an operand. -/
def ofOperand (r : Resolver) (head : String) : Operand → Except EncodeError Arg
  | .reg name _ => .ok (ofRegName (Text.lower name))
  | .imm e _ =>
    match e.evalSymbolic r with
    | .ok v      => .ok (.imm v e)
    | .error err => .error (.noValue head e err)
  | .mem p _ => ofPlace r head p
  | .portC _ => .ok .portC
  | .port e _ =>
    match e.evalSymbolic r with
    | .ok v      => .ok (.port v e)
    | .error err => .error (.noValue head e err)
  | .place .. => .ok .other
  | .missing => .ok .other

/-- The parts of several operands; the leftmost fault is reported. -/
def ofOperands (r : Resolver) (head : String) : List Operand → Except EncodeError (List Arg)
  | [] => .ok []
  | o :: os =>
    match ofOperand r head o with
    | .error e => .error e
    | .ok a =>
      match ofOperands r head os with
      | .error e => .error e
      | .ok as   => .ok (a :: as)

/-- The condition that an operand names; `c` is the carry condition here. -/
def condition? : Arg → Option Condition
  | cond cc => some cc
  | reg8 .c => some .c
  | _ => none

end Arg

end Z80Backend
