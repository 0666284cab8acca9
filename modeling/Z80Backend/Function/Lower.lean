import Z80Backend.Function.Frame
import Z80Backend.Function.Statement

/-! # Functions

    A function becomes one chunk: code that builds its frame and saves
    registers, the body, and code that undoes the beginning. -/

namespace Z80Backend

/-- What the items of a module can refer to. -/
structure Declarations where
  ops : List OpDecl := []
  functions : List FnSignature := []
  globals : StorageTable := []
  /-- How deeply op calls made by `select` may nest.  This is a limit of the
      model: a program has none, and past it nothing is emitted or reported. -/
  nesting : Nat := 1000

/-- The width of the typed storage that a place names in a scope.  Storage that
    does not fit a register has none. -/
def Scope.width? (scope : Scope) (r : Resolver) (p : Place) : Option Int64 :=
  if p.isStorage scope then
    match p.resolve scope r with
    | .error _ => none
    | .ok x => if 0 < x.width r then some (x.width r) else none
  else none

namespace FuncDecl

/-- The setting of a function with the given slots. -/
def context (d : FuncDecl) (r : Resolver) (decls : Declarations) (slots : StorageTable)
    (epilogue : Option String) : FnContext :=
  let scope := StorageTable.scope (slots ++ decls.globals)
  { name := d.name
    span := d.span
    resolver := r
    ops := { resolver := r, width? := some (scope.width? r), decls := decls.ops }
    functions := decls.functions
    scope
    preserved := d.preserved
    hasFrame := d.hasFrame
    epilogue
    nesting := decls.nesting }

/-- Checks the end of the body and undoes the beginning. -/
def finish (d : FuncDecl) (ctx : FnContext) (s : FnState) : FnState :=
  let s := if s.tracker.live then s.check (s.tracker.depth.endError? d.name) d.span else s
  let s := match ctx.epilogue with
    | some label => s.placeLabel label d.span
    | none       => s
  ctx.emitAround (ctx.cleanup ++ [.of "ret" []]) s

/-- What was found out about the stack, from the states before and after
    the end of the function. -/
def summary (d : FuncDecl) (before after : FnState) : StackSummary :=
  { name := d.name
    returns := after.returns
    exit := if before.tracker.live then before.tracker.depth else .known 0
    reachable := before.tracker.live
    issues := after.issues }

/-- Lowers a function.  The state gives the labels in use and the journal so
    far, and receives the rest. -/
def lower (d : FuncDecl) (r : Resolver) (decls : Declarations) (s : FnState) :
    Chunk × StackSummary × FnState :=
  let (slots, s) := d.layoutSlots r d.slots ([], d.checkReturns s)
  let (epilogue, s) :=
    if d.hasFrame || !d.preserved.isEmpty then
      let (label, s) := s.freshLabel "epilogue"
      (some label, s)
    else (none, s)
  let ctx := d.context r decls slots epilogue
  let body := ctx.lowerBody d.body (ctx.emitAround (ctx.prologue d.locals) s)
  let s := d.finish ctx body
  let chunk : Chunk := { name := d.name, lines := s.lines, span := d.span }
  let s := s.note (.loweredFunction d.name chunk.size (d.preserved.map (·.text)) d.hasFrame
    s.issues.length)
  (chunk, d.summary body s, s)

end FuncDecl

end Z80Backend
