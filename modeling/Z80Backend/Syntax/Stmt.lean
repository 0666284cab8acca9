import Z80Backend.Syntax.Instruction

/-! # Statements

    A body is a flat stream of statements.  The words of structured control
    open and close blocks in stream order, and nothing in the stream promises
    that they match. -/

namespace Z80Backend

/-- One statement of a function or op body. -/
inductive Stmt where
  | instr (i : Instruction)
  /-- A label local to the body. -/
  | label (name : String) (span : Span)
  /-- Opens a conditional.  `malformed` tells that the front end could not
      read the statement. -/
  | ifOpen (cond : String) (malformed : Bool) (span : Span)
  /-- The other arm of a conditional, or the default arm of a select. -/
  | elseArm (span : Span)
  /-- Closes a conditional, a while loop or a select. -/
  | endBlock (span : Span)
  /-- Opens a loop that tests before each turn. -/
  | whileOpen (cond : String) (malformed : Bool) (span : Span)
  /-- Opens a loop that tests after each turn. -/
  | repeatOpen (malformed : Bool) (span : Span)
  /-- Closes a loop that tests after each turn. -/
  | untilClose (cond : String) (span : Span)
  /-- Opens a dispatch on an 8-bit selector. -/
  | selectOpen (selector : Operand) (malformed : Bool) (span : Span)
  /-- Opens one arm of a select. -/
  | caseArm (values : List Expr) (span : Span)
  /-- A call of a declared function with arguments. -/
  | call (callee : String) (args : List Operand) (span : Span)
  deriving DecidableEq, Repr, Inhabited

/-- Where the statement stands. -/
def Stmt.span : Stmt → Span
  | instr i => i.span
  | label _ s | ifOpen _ _ s | elseArm s | endBlock s | whileOpen _ _ s | repeatOpen _ s
  | untilClose _ s | selectOpen _ _ s | caseArm _ s | call _ _ s => s

end Z80Backend
