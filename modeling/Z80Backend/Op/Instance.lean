import Z80Backend.Syntax.Module
import Z80Backend.Text.LetterCase

/-! # Instances of op bodies

    An instance puts the operands of a call in the place of the parameters
    and renames the labels of the body, so that each call has labels of its
    own.  Parameters are found without regard to case, labels exactly. -/

namespace Z80Backend

/-- The operands bound to parameters, the latest first, and the labels of the
    body with what their names begin with in this instance. -/
structure Instance where
  bound : List (String × Operand)
  labels : List String
  stem : String

/-- The instance of an overload for the operands of a call. -/
def OpDecl.instantiate (d : OpDecl) (args : List Operand) (stem : String) : Instance where
  bound := ((d.params.zip args).filterMap fun (p, a) =>
    match p.matcher with
    | .token _ => none
    | _ => some (Text.lower p.name, a)).reverse
  labels := d.body.filterMap fun s => match s with | .label name _ => some name | _ => none
  stem := stem

namespace Instance

/-- The operand bound to a parameter. -/
def lookup (x : Instance) (name : String) : Option Operand := x.bound.lookup (Text.lower name)

/-- The name of a label in this instance. -/
def labelName (x : Instance) (name : String) : String :=
  if x.labels.contains name then x.stem ++ "_" ++ name else name

/-- A condition; a parameter bound to a register gives the register's name. -/
def cond (x : Instance) (c : String) : String :=
  match x.lookup c with
  | some (.reg name _) => name
  | _ => c

/-- An expression; a parameter bound to an immediate gives its expression. -/
def expr (x : Instance) : Expr → Expr
  | .name s =>
    match x.lookup s with
    | some (.imm e _) => e
    | some _ => .name s
    | none => .name (x.labelName s)
  | .unary op e => .unary op (x.expr e)
  | .binary op l r => .binary op (x.expr l) (x.expr r)
  | e => e

/-- The place that a bound operand denotes inside parentheses. -/
def placeOf? : Operand → Option Place
  | .reg name _ => some (.name name)
  | .imm e _ => some (.literal e)
  | .mem p _ => some p
  | .place p _ => some p
  | _ => none

/-- A register subscript; a parameter bound to a register gives its name. -/
def subscriptReg (x : Instance) (r : String) : String :=
  match x.lookup r with
  | some (.reg name _) => name
  | _ => r

/-- A subscript. -/
def subscript (x : Instance) : Subscript → Subscript
  | .const e => .const (x.expr e)
  | .reg8 r => .reg8 (x.subscriptReg r)
  | .reg16 r => .reg16 (x.subscriptReg r)
  | .memIndexed r d => .memIndexed r (x.expr d)
  | .memHL => .memHL
  | .missing => .missing

/-- A place. -/
def place (x : Instance) : Place → Place
  | .name s =>
    match (x.lookup s).bind placeOf? with
    | some p => p
    | none   => .name (x.labelName s)
  | .literal e => .literal (x.expr e)
  | .field b f => .field (x.place b) f
  | .elem b i => .elem (x.place b) (x.subscript i)
  | .elemAt b p => .elemAt (x.place b) (x.place p)
  | .add b off => .add (x.place b) (x.expr off)
  | .sub b off => .sub (x.place b) (x.expr off)
  | .missing => .missing

/-- An operand; one that is just a parameter becomes the bound operand. -/
def operand (x : Instance) : Operand → Operand
  | .reg name s => (x.lookup name).getD (.reg name s)
  | .imm (.name n) s => (x.lookup n).getD (.imm (x.expr (.name n)) s)
  | .imm e s => .imm (x.expr e) s
  | .mem p s => .mem (x.place p) s
  | .place (.name n) s => (x.lookup n).getD (.place (x.place (.name n)) s)
  | .place p s => .place (x.place p) s
  | .port e s => .port (x.expr e) s
  | .portC s => .portC s
  | .missing => .missing

/-- An instruction. -/
def instruction (x : Instance) (i : Instruction) : Instruction :=
  { i with operands := i.operands.map x.operand }

/-- A statement. -/
def stmt (x : Instance) : Stmt → Stmt
  | .instr i => .instr (x.instruction i)
  | .label name s => .label (x.labelName name) s
  | .ifOpen c m s => .ifOpen (x.cond c) m s
  | .whileOpen c m s => .whileOpen (x.cond c) m s
  | .untilClose c s => .untilClose (x.cond c) s
  | .selectOpen o m s => .selectOpen (x.operand o) m s
  | .caseArm vs s => .caseArm (vs.map x.expr) s
  | .call f args s => .call f (args.map x.operand) s
  | .elseArm s => .elseArm s
  | .endBlock s => .endBlock s
  | .repeatOpen m s => .repeatOpen m s

end Instance

end Z80Backend
