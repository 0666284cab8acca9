import Z80Backend.Address.AddressError
import Z80Backend.Layout.Section
import Z80Backend.Op.Overload
import Z80Backend.Stack.Depth
import Z80Backend.Text.Table

/-! # Diagnostics

    A diagnostic is a problem at a source position.  Problems are grouped by
    the part of the compiler that meets them; the group is the category that
    a reader of the diagnostic sees. -/

namespace Z80Backend

/-! ## Problems of functions and calls -/

/-- The statements that open a block. -/
inductive BlockKind where
  | ifBlock
  | whileBlock
  | repeatBlock
  | selectBlock
  deriving DecidableEq, Repr, Inhabited

/-- The word that opens a block. -/
def BlockKind.text : BlockKind → String
  | ifBlock => "if"
  | whileBlock => "while"
  | repeatBlock => "repeat"
  | selectBlock => "select"

/-- What is wrong with the structure of a body. -/
inductive ControlError where
  | condition (cond word : String)
  | strayElse
  | secondElse (kind : BlockKind)
  | strayCase
  | caseAfterElse
  | caseValue (e : Expr)
  | repeatedCase (n : Int64)
  | strayEnd
  | endOfRepeat
  | strayUntil
  | unterminated (kind : BlockKind)
  | repeatedLabel (name fn : String)
  deriving DecidableEq, Repr

/-- The wording of a control error. -/
def ControlError.message : ControlError → String
  | condition c w => "Invalid condition " ++ Text.quote c ++ " in " ++ w ++ "."
  | strayElse => "else without if or select."
  | secondElse k => "Duplicate else in " ++ k.text ++ "."
  | strayCase => "case without select."
  | caseAfterElse => "case after else in select."
  | caseValue e => "Case value " ++ e.text ++ " must be a constant in -128..255."
  | repeatedCase n => "Duplicate case value " ++ Text.decimal n ++ " in select."
  | strayEnd => "end without an open if, while or select."
  | endOfRepeat => "end cannot close repeat; expected until."
  | strayUntil => "until without repeat."
  | unterminated k =>
    "Unterminated " ++ k.text ++ ": missing " ++
      (if k = .repeatBlock then "until" else "end") ++ "."
  | repeatedLabel n f => "Duplicate label " ++ Text.quote n ++ " in " ++ Text.quote f ++ "."

/-- What is wrong with a call or with the declaration of a function. -/
inductive CallError where
  | unknownFunction (name : String)
  | argumentCount (name : String) (want got : Nat)
  /-- The argument, counted from one, has no 16-bit value. -/
  | argument (n : Nat) (callee : String) (o : Operand)
  | aggregateArgument (p : Place)
  | repeatedFunction (name : String)
  | externalAddress (name : String)
  | unknownReturn (fn reg : String)
  | repeatedSlot (role : SlotRole) (name fn : String)
  deriving DecidableEq, Repr

/-- The wording of a call error. -/
def CallError.message : CallError → String
  | unknownFunction n => "Unknown function " ++ Text.quote n ++ "."
  | argumentCount n want got =>
    "Function " ++ Text.quote n ++ " expects " ++ want.repr ++ " argument(s) (got " ++
      got.repr ++ ")."
  | argument n f o =>
    "Argument " ++ n.repr ++ " of call to " ++ Text.quote f ++ " cannot be passed: " ++
      o.text true ++ "."
  | aggregateArgument p => "Aggregate storage " ++ p.text ++ " cannot be passed by value."
  | repeatedFunction n => "Duplicate function " ++ Text.quote n ++ "."
  | externalAddress n =>
    "Extern function " ++ Text.quote n ++ " needs a constant address in 0..65535."
  | unknownReturn f r =>
    "Function " ++ Text.quote f ++ " returns unknown register " ++ Text.quote r ++ "."
  | repeatedSlot role n f =>
    role.text ++ " " ++ Text.quote n ++ " is declared twice in " ++ Text.quote f ++ "."

/-! ## Problems of storage and of the image -/

/-- What is wrong with storage, or with the place of a chunk. -/
inductive LayoutError where
  | invalid (cause : LayoutFault)
  | repeatedStorage (name : String)
  | sectionNotConst (s : Section) (cause : EvalError)
  | sectionRange (s : Section) (n : Int64)
  | sectionAlign (s : Section) (n : Int64)
  | dataSize (name : String) (cause : TypeError)
  | dataCount (name : String) (got : Nat) (room : Int64)
  | byteValue (e : Expr) (name : String)
  | wordValue (e : Expr) (name : String) (cause : EvalError)
  | wordRange (e : Expr) (name : String)
  | varSize (name : String) (cause : TypeError)
  /-- The chunk would end beyond the address space. -/
  | overflow (s : Section) (name : String) (last : Int64)
  | overlap (addr : Nat) (name other : String)
  deriving DecidableEq, Repr

/-- The wording of a layout error. -/
def LayoutError.message : LayoutError → String
  | invalid f => "Invalid layout: " ++ f.message ++ "."
  | repeatedStorage n => "Duplicate storage " ++ Text.quote n ++ "."
  | sectionNotConst s e =>
    "Section " ++ s.text ++ " address must be constant: " ++ e.message ++ "."
  | sectionRange s n =>
    "Section " ++ s.text ++ " address " ++ Text.decimal n ++ " outside 0..65535."
  | sectionAlign s n =>
    "Section " ++ s.text ++ " alignment must be positive (got " ++ Text.decimal n ++ ")."
  | dataSize n e => "Data " ++ Text.quote n ++ " has no size: " ++ e.message ++ "."
  | dataCount n got room =>
    "Data " ++ Text.quote n ++ " has " ++ got.repr ++ " initialiser(s) but room for " ++
      Text.decimal room ++ "."
  | byteValue e n =>
    "Byte initialiser " ++ e.text ++ " of " ++ Text.quote n ++
      " must be a constant in -128..255."
  | wordValue e n cause =>
    "Word initialiser " ++ e.text ++ " of " ++ Text.quote n ++ " cannot be evaluated: " ++
      cause.message ++ "."
  | wordRange e n =>
    "Word initialiser " ++ e.text ++ " of " ++ Text.quote n ++ " must be in -32768..65535."
  | varSize n e => "Var " ++ Text.quote n ++ " has no size: " ++ e.message ++ "."
  | overflow s n last =>
    "Section " ++ s.text ++ " overflows the address space: " ++ Text.quote n ++
      " would end at $" ++ Text.hexSigned 1 last ++ "."
  | overlap a n o =>
    "Byte overlap at $" ++ Text.hex 4 a ++ ": " ++ Text.quote n ++ " collides with " ++
      Text.quote o ++ "."

/-- Why a slot cannot be filled. -/
inductive FixupError where
  | unresolved (symbol : String)
  /-- The branch, named by its mnemonic, does not reach its target. -/
  | distance (branch : String) (n : Int64)
  /-- The address, named by its expression, is out of range. -/
  | address (target : String) (n : Int64)
  deriving DecidableEq, Repr

/-- The wording of a fixup error. -/
def FixupError.message : FixupError → String
  | unresolved s => "Unresolved symbol " ++ Text.quote s ++ "."
  | distance b n =>
    b ++ " target out of range for rel8 branch (" ++ Text.decimal n ++
      ", expected -128..127)."
  | address t n =>
    "abs16 value out of range for " ++ t ++ " (" ++ Text.decimal n ++ ", expected 0..65535)."

/-! ## Diagnostics -/

/-- Anything that can be wrong. -/
inductive Problem where
  | encode (e : EncodeError)
  | expansion (e : ExpansionError)
  | stack (e : StackError)
  | control (e : ControlError)
  | address (e : AddressError)
  | fixup (e : FixupError)
  | layout (e : LayoutError)
  | call (e : CallError)
  /-- A problem that was found elsewhere. -/
  | reported (category text : String)
  deriving DecidableEq, Repr

/-- The category of a problem. -/
def Problem.category : Problem → String
  | encode _ => "ENCODE"
  | expansion _ => "OPEXPAND"
  | stack _ => "STACK"
  | control _ => "CONTROL"
  | address _ => "ADDRESS"
  | fixup _ => "FIXUP"
  | layout _ => "LAYOUT"
  | call _ => "CALL"
  | reported c _ => c

/-- The wording of a problem. -/
def Problem.message : Problem → String
  | encode e => e.message
  | expansion e => e.message
  | stack e => e.message
  | control e => e.message
  | address e => e.message
  | fixup e => e.message
  | layout e => e.message
  | call e => e.message
  | reported _ t => t

/-- How serious a problem is. -/
inductive Severity where
  | error
  | warning
  deriving DecidableEq, Repr, Inhabited

/-- The name of a severity. -/
def Severity.text : Severity → String
  | error => "error"
  | warning => "warning"

/-- A problem at a source position. -/
structure Diagnostic where
  problem : Problem
  span : Span := {}
  severity : Severity := .error
  deriving DecidableEq, Repr

namespace Diagnostic

/-- The category of the problem. -/
def category (d : Diagnostic) : String := d.problem.category

/-- The wording of the problem. -/
def message (d : Diagnostic) : String := d.problem.message

/-- Does the diagnostic withhold the image? -/
def isError (d : Diagnostic) : Bool := d.severity == .error

/-- Moves the diagnostic, unless the position is unknown. -/
def moveTo (d : Diagnostic) (span : Span) : Diagnostic :=
  if span = .unknown then d else { d with span }

/-- The position as `file:line:column`. -/
def place (d : Diagnostic) : String :=
  d.span.file ++ ":" ++ Text.decimal d.span.line ++ ":" ++ Text.decimal d.span.column

/-- The diagnostic on one line. -/
def text (d : Diagnostic) : String :=
  let place := if 0 < d.span.line then d.place else d.span.file
  let rest := d.severity.text ++ " [" ++ d.category ++ "] " ++ d.message
  if place = "" then rest else place ++ ": " ++ rest

/-- Several diagnostics as a table. -/
def report (ds : List Diagnostic) : String :=
  if ds.isEmpty then "No diagnostics.\n"
  else
    Text.Table.render
      { title := "Diagnostics (" ++ ds.length.repr ++ ")"
        columns := [⟨"#", .right⟩, ⟨"SEVERITY", .left⟩, ⟨"ID", .left⟩, ⟨"LOCATION", .left⟩,
                    ⟨"MESSAGE", .left⟩]
        rows := ds.zipIdx.map fun (d, i) =>
          [(i + 1).repr, d.severity.text, d.category,
           if 0 < d.span.line then d.place else "", d.message] }

end Diagnostic

end Z80Backend
