import Z80Backend.Chunk
import Z80Backend.Text.Table

/-! # Symbols

    The symbol table of an image: constants, functions at fixed addresses,
    chunks, and the labels that the user defined in them. -/

namespace Z80Backend

/-- An entry of the symbol table. -/
structure Symbol where
  name : String
  kind : SymbolKind
  /-- The address; constants have none. -/
  address : Option Int64 := none
  value : Int64 := 0
  size : Int64 := 0
  /-- Where the name can be used: everywhere, or in one chunk. -/
  scope : String
  file : String := ""
  line : Int64 := 0
  deriving DecidableEq, Repr, Inhabited

namespace Symbol

/-- The scope of names that can be used everywhere. -/
def moduleScope : String := "module"

/-- A constant. -/
def constant (name : String) (value : Int64) (span : Span) : Symbol :=
  { name, kind := .constant, value, scope := moduleScope, file := span.file, line := span.line }

/-- A function at a fixed address. -/
def external (name : String) (address : Int64) (span : Span) : Symbol :=
  { name, kind := .external, address := some address, scope := moduleScope, file := span.file,
    line := span.line }

/-- What the name of the symbol stands for in expressions. -/
def denotes (s : Symbol) : Int64 := s.address.getD s.value

/-- The first symbol of a name that can be used everywhere. -/
def find? (ss : List Symbol) (name : String) : Option Symbol :=
  ss.find? fun s => s.name == name && s.scope == moduleScope

/-- The row of a symbol. -/
def row (s : Symbol) : List String :=
  [ s.name,
    s.kind.text,
    match s.address with
    | some n => "$" ++ Text.hexSigned 4 n
    | none => "",
    if s.kind = .constant then Text.decimal s.value else "",
    if 0 < s.size then Text.decimal s.size else "",
    s.scope ]

/-- The symbols as a table. -/
def table (ss : List Symbol) : String :=
  Text.Table.render
    { title := "Symbols (" ++ ss.length.repr ++ ")"
      columns := ["NAME", "KIND", "ADDRESS", "VALUE", "SIZE", "SCOPE"].map (⟨·, .left⟩)
      rows := ss.map row }

end Symbol

end Z80Backend
