import Z80Backend.Data
import Z80Backend.Function.Lower

/-! # Programs

    A module becomes a program: the chunks of its functions and storage
    items in declaration order, the functions it expects at fixed addresses,
    and what was found out about the stack.  Everything is declared before
    anything is lowered, so items may refer to later ones.

    Modules lowered in one session share their declarations and the
    numbering of generated labels. -/

namespace Z80Backend

/-- A function at a fixed address. -/
structure FixedFunction where
  name : String
  address : Int64
  span : Span := {}
  deriving DecidableEq, Repr, Inhabited

/-- What a module becomes. -/
structure Program where
  chunks : List Chunk := []
  externals : List FixedFunction := []
  stack : List StackSummary := []

/-- What modules lowered one after the other share. -/
structure Session where
  decls : Declarations := {}
  /-- The last label number in use. -/
  counter : Int := 0
  journal : Journal := []

namespace Session

/-- Notes an event. -/
def note (s : Session) (e : Event) : Session := { s with journal := s.journal ++ [e] }

/-- Reports a problem. -/
def report (s : Session) (p : Problem) (span : Span) : Session :=
  s.note (.announced (.diagnostic { problem := p, span }))

/-! ## Declaring -/

/-- Declares a function. -/
def declareFunction (s : Session) (f : FnSignature) (span : Span) : Session :=
  if s.decls.functions.any (·.name == f.name) then
    s.report (.call (.repeatedFunction f.name)) span
  else { s with decls := { s.decls with functions := s.decls.functions ++ [f] } }

/-- Declares storage. -/
def declareStorage (s : Session) (name : String) (type : TypeRef) (span : Span) : Session :=
  if (s.decls.globals.lookup name).isSome then s.report (.layout (.repeatedStorage name)) span
  else
    let entry := (name, { home := .global name, type })
    { s with decls := { s.decls with globals := s.decls.globals ++ [entry] } }

/-- Declares an item.  Functions at fixed addresses are collected. -/
def declare (r : Resolver) (acc : Session × List FixedFunction) (item : Item) :
    Session × List FixedFunction :=
  let (s, externals) := acc
  match item with
  | .op d => ({ s with decls := { s.decls with ops := s.decls.ops ++ [d] } }, externals)
  | .func d => (s.declareFunction { name := d.name, params := d.params } d.span, externals)
  | .external d =>
    let wrong := (s.report (.call (.externalAddress d.name)) d.span, externals)
    match d.address.eval r with
    | .error _ => wrong
    | .ok n =>
      if n < 0 || 0xFFFF < n then wrong
      else
        (s.declareFunction { name := d.name, params := d.params, isExternal := true } d.span,
         externals ++ [{ name := d.name, address := n, span := d.span }])
  | .data d => (s.declareStorage d.name d.type d.span, externals)
  | .var d => (s.declareStorage d.name d.type d.span, externals)
  | .place _ => acc

end Session

/-! ## Section directives -/

/-- What the section directives so far ask of the chunks that follow. -/
structure Directives where
  /-- The address of the next chunk of a section. -/
  pin : Section → Option Int64 := fun _ => none
  /-- The alignment of all further chunks of a section. -/
  align : Section → Int64 := fun _ => 0

namespace Directives

/-- The address that a directive pins its section to, if it has one. -/
def address? (r : Resolver) (x : SectionDirective) : Except LayoutError (Option Int64) :=
  match x.address with
  | .missing => .ok none
  | e =>
    match e.eval r with
    | .error cause => .error (.sectionNotConst x.kind cause)
    | .ok n => if n < 0 || 0xFFFF < n then .error (.sectionRange x.kind n) else .ok (some n)

/-- Takes a directive into account.  Gives what is wrong with it in order. -/
def apply (r : Resolver) (x : SectionDirective) (ds : Directives) :
    Directives × List LayoutError :=
  let (ds, errors) :=
    match address? r x with
    | .error e => (ds, [e])
    | .ok none => (ds, [])
    | .ok (some n) => ({ ds with pin := fun s => if s = x.kind then some n else ds.pin s }, [])
  if x.align < 0 then (ds, errors ++ [.sectionAlign x.kind x.align])
  else if 0 < x.align then
    ({ ds with align := fun s => if s = x.kind then x.align else ds.align s }, errors)
  else (ds, errors)

/-- Applies what is asked of a chunk.  A pin is used up by it. -/
def place (ds : Directives) (c : Chunk) : Directives × Chunk :=
  let c := if 1 < ds.align c.home then { c with align := ds.align c.home } else c
  match ds.pin c.home with
  | some n =>
    ({ ds with pin := fun s => if s = c.home then none else ds.pin s }, { c with pin := some n })
  | none => (ds, c)

end Directives

/-! ## Lowering -/

/-- A module being lowered. -/
structure ModuleState where
  session : Session
  directives : Directives := {}
  program : Program := {}

namespace ModuleState

/-- Notes an event. -/
def note (m : ModuleState) (e : Event) : ModuleState := { m with session := m.session.note e }

/-- Reports problems of an item. -/
def reportAll (m : ModuleState) (es : List LayoutError) (span : Span) : ModuleState :=
  { m with session := es.foldl (fun s e => s.report (.layout e) span) m.session }

/-- Places a chunk and adds it to the program. -/
def add (m : ModuleState) (c : Chunk) : ModuleState :=
  let (directives, c) := m.directives.place c
  { session := m.session.note (.announced (.chunk c))
    directives
    program := { m.program with chunks := m.program.chunks ++ [c] } }

/-- Lowers a function. -/
def lowerFunction (r : Resolver) (d : FuncDecl) (m : ModuleState) : Except Fault ModuleState :=
  let (chunk, summary, s) := d.lower r m.session.decls { counter := m.session.counter }
  if s.exhausted then .error (.nesting d.name)
  else
    let session :=
      { m.session with counter := s.counter, journal := m.session.journal ++ s.journal }
    let program := { m.program with stack := m.program.stack ++ [summary] }
    .ok ({ m with session, program }.add chunk)

/-- Lowers an item. -/
def lowerItem (r : Resolver) (m : ModuleState) (item : Item) : Except Fault ModuleState :=
  match item with
  | .place x =>
    let (directives, errors) := m.directives.apply r x
    .ok ({ m with directives }.reportAll errors x.span)
  | .func d => m.lowerFunction r d
  | .data d =>
    match d.lower r with
    | .error fault => .error fault
    | .ok (none, errors) => .ok (m.reportAll errors d.span)
    | .ok (some (size, c), errors) =>
      .ok (((m.reportAll errors d.span).note
        (.loweredData d.name size c.fixups.length)).add c)
  | .var d =>
    match d.lower r with
    | .error e => .ok (m.reportAll [e] d.span)
    | .ok c => .ok (m.add c)
  | .op _ => .ok m
  | .external _ => .ok m

end ModuleState

/-- Lowers a module in a session. -/
def Module.lower (m : Module) (r : Resolver) (s : Session) : Except Fault (Program × Session) :=
  let (s, externals) := m.items.foldl (Session.declare r) (s, [])
  match m.items.foldlM (ModuleState.lowerItem r) { session := s, program := { externals } } with
  | .error fault => .error fault
  | .ok x =>
    .ok (x.program, x.session.note
      (.loweredModule m.name x.program.chunks.length x.session.journal.diagnostics.length))

end Z80Backend
