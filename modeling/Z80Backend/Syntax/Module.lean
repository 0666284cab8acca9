import Z80Backend.Syntax.Stmt

/-! # Modules

    A module is a list of declarations: functions, functions at fixed
    addresses, ops, initialised data, reserved variables, and directives that
    place what follows them. -/

namespace Z80Backend

/-- An output section.  `unknown` is a section that no storage lies in. -/
inductive Section where
  | code
  | data
  | var
  | unknown
  deriving DecidableEq, Repr, Inhabited

/-- The section with the given number. -/
def Section.ofCode (n : Int64) : Section :=
  if n = 0 then .code else if n = 1 then .data else if n = 2 then .var else .unknown

/-- The section's name. -/
def Section.text : Section → String
  | code => "code"
  | data => "data"
  | var => "var"
  | unknown => "unknown"

/-- What operands an op parameter accepts. -/
inductive Matcher where
  /-- The given word. -/
  | token (word : String)
  | reg8
  | reg16
  | idx16
  | cc
  | imm8
  | imm16
  | mem8
  | mem16
  | ea
  /-- Nothing at all. -/
  | unknown
  deriving DecidableEq, Repr, Inhabited

/-- The matcher with the given number; `word` is the text of a token. -/
def Matcher.ofCode (n : Int64) (word : String) : Matcher :=
  if n = 0 then .token word
  else if n = 1 then .reg8
  else if n = 2 then .reg16
  else if n = 3 then .idx16
  else if n = 4 then .cc
  else if n = 5 then .imm8
  else if n = 6 then .imm16
  else if n = 7 then .mem8
  else if n = 8 then .mem16
  else if n = 9 then .ea
  else .unknown

/-- The matcher's name. -/
def Matcher.text : Matcher → String
  | token _ => "token"
  | reg8 => "reg8"
  | reg16 => "reg16"
  | idx16 => "idx16"
  | cc => "cc"
  | imm8 => "imm8"
  | imm16 => "imm16"
  | mem8 => "mem8"
  | mem16 => "mem16"
  | ea => "ea"
  | unknown => "unknown"

/-- A parameter of a function. -/
structure Param where
  name : String
  type : TypeRef
  deriving DecidableEq, Repr, Inhabited

/-- A variable local to a function; `init` is `missing` when it starts
    undefined. -/
structure Local where
  name : String
  type : TypeRef
  init : Expr
  deriving DecidableEq, Repr, Inhabited

/-- A function with a body.  `returns` lists those of `af`, `bc`, `de` and
    `hl` that carry results; the others are preserved. -/
structure FuncDecl where
  name : String
  params : List Param := []
  locals : List Local := []
  returns : List String := []
  body : List Stmt := []
  span : Span := {}
  deriving DecidableEq, Repr, Inhabited

/-- A function at a fixed address outside the module. -/
structure ExternDecl where
  name : String
  address : Expr
  params : List Param := []
  span : Span := {}
  deriving DecidableEq, Repr, Inhabited

/-- A parameter of an op. -/
structure OpParam where
  name : String
  matcher : Matcher
  deriving DecidableEq, Repr, Inhabited

/-- One overload of an op, a user-defined instruction. -/
structure OpDecl where
  name : String
  params : List OpParam := []
  body : List Stmt := []
  span : Span := {}
  deriving DecidableEq, Repr, Inhabited

/-- Initialised storage. -/
structure DataDecl where
  name : String
  type : TypeRef
  values : List Expr := []
  span : Span := {}
  deriving DecidableEq, Repr, Inhabited

/-- Reserved storage. -/
structure VarDecl where
  name : String
  type : TypeRef
  span : Span := {}
  deriving DecidableEq, Repr, Inhabited

/-- A directive that pins the next item of a section at `address`, unless it
    is `missing`, and aligns the section's following items. -/
structure SectionDirective where
  kind : Section
  address : Expr
  align : Int64 := 0
  span : Span := {}
  deriving DecidableEq, Repr, Inhabited

/-- A declaration of a module. -/
inductive Item where
  | func (d : FuncDecl)
  | external (d : ExternDecl)
  | op (d : OpDecl)
  | data (d : DataDecl)
  | var (d : VarDecl)
  | place (d : SectionDirective)
  deriving DecidableEq, Repr, Inhabited

/-- A compilation unit. -/
structure Module where
  name : String
  items : List Item := []
  deriving DecidableEq, Repr, Inhabited

end Z80Backend
