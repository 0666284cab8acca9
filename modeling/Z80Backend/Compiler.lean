import Z80Backend.Image.Listing
import Z80Backend.Program

/-! # Compiling

    Compiling lowers a module and links it.  The image is withheld when
    anything is in error; the listing is always there. -/

namespace Z80Backend

/-- A compiler with its settings. -/
structure Compiler where
  name : String
  layout : Layout := {}

/-- What compiling a module gives. -/
structure CompileResult where
  module : String
  diagnostics : List Diagnostic
  /-- The image, unless something is in error. -/
  image : Option Image
  listing : String
  stack : List StackSummary
  /-- Everything that happened. -/
  journal : Journal

namespace CompileResult

/-- Is anything in error? -/
def hasErrors (x : CompileResult) : Bool := x.diagnostics.any (·.isError)

/-- The wording of all diagnostics. -/
def messages (x : CompileResult) : List String := x.diagnostics.map (·.message)

end CompileResult

namespace Compiler

/-- What happens before anything is lowered: the start, and what is wrong with
    the layout. -/
def opening (c : Compiler) (m : Module) : Journal :=
  .compileStart c.name m.name m.items.length ::
    match c.layout.fault? with
    | some f => [.announced (.diagnostic { problem := .layout (.invalid f) })]
    | none   => []

/-- The linker for a program. -/
def linker (c : Compiler) (env : Environment) (p : Program) : Linker :=
  { layout := c.layout
    resolver := env.resolver
    symbols :=
      p.externals.map (fun x => .external x.name x.address x.span) ++
        env.constants.map fun (name, value) => .constant name value {} }

/-- Compiles a module in an environment. -/
def compile (c : Compiler) (m : Module) (env : Environment) : Except Fault CompileResult := do
  let (program, session) ← m.lower env.resolver { journal := c.opening m }
  let linked ← (c.linker env program).link program.chunks
  let journal : Journal := session.journal ++ linked.events ++
    linked.diagnostics.map fun d => .announced (.diagnostic d)
  let diagnostics := journal.diagnostics
  let errors := diagnostics.any (·.isError)
  return {
    module := m.name
    diagnostics
    image := if errors then none else some linked.image
    listing := linked.image.listing
    stack := program.stack
    journal := journal ++
      [ .compileDone c.name m.name program.chunks.length diagnostics.length errors,
        .announced (.done m.name (diagnostics.map (·.message))) ] }

end Compiler

end Z80Backend
