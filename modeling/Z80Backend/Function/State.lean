import Z80Backend.Address.Resolve
import Z80Backend.Event
import Z80Backend.Stack.Report
import Z80Backend.Stack.Tracker

/-! # The state of a function being lowered

    What stays the same while a body is lowered is in `FnContext`, and what
    grows is in `FnState`.  Code goes into the state by `emit`, which follows
    the stack, or by `emitSilent`, for the code around the body. -/

namespace Z80Backend

/-- A function that can be called. -/
structure FnSignature where
  name : String
  params : List Param
  /-- Does it live at a fixed address outside the module? -/
  isExternal : Bool := false
  deriving DecidableEq, Repr, Inhabited

/-- What is fixed while a body is lowered. -/
structure FnContext where
  /-- The name of the function. -/
  name : String
  /-- Where the function is declared. -/
  span : Span := {}
  resolver : Resolver
  ops : Ops
  functions : List FnSignature := []
  scope : Scope
  /-- The registers saved on entry, in that order. -/
  preserved : List StackReg := []
  /-- Does the function address parameters or locals through `ix`? -/
  hasFrame : Bool := false
  /-- The label of the code that undoes the entry, if there is any to undo. -/
  epilogue : Option String := none
  /-- How deeply op calls made by `select` may nest. -/
  nesting : Nat

/-- What grows while a body is lowered. -/
structure FnState where
  lines : List Line := []
  tracker : Tracker := {}
  /-- The last label number in use. -/
  counter : Int := 0
  /-- The labels that the user has defined. -/
  userLabels : List String := []
  /-- The number of returns met. -/
  returns : Int64 := 0
  /-- What was wrong with the stack. -/
  issues : List Diagnostic := []
  journal : Journal := []
  /-- Did ops nest more deeply than can be followed? -/
  exhausted : Bool := false

namespace FnState

/-- Notes an event. -/
def note (s : FnState) (e : Event) : FnState := { s with journal := s.journal ++ [e] }

/-- Reports a problem; those of the stack also go into the summary. -/
def report (s : FnState) (p : Problem) (span : Span) : FnState :=
  let d : Diagnostic := { problem := p, span }
  let s := s.note (.announced (.diagnostic d))
  match p with
  | .stack _ => { s with issues := s.issues ++ [d] }
  | _ => s

/-- Reports a problem of the stack, if there is one. -/
def check (s : FnState) (e : Option StackError) (span : Span) : FnState :=
  match e with
  | some e => s.report (.stack e) span
  | none   => s

/-- A new label, and the state in which its number is in use. -/
def freshLabel (s : FnState) (kind : String) : String × FnState :=
  (Label.make kind (s.counter + 1), { s with counter := s.counter + 1 })

/-- Places a label. -/
def placeLabel (s : FnState) (name : String) (span : Span) : FnState :=
  { s with lines := s.lines ++ [.label name span] }

/-- Emits an instruction of the body and follows its effect on the stack. -/
def emit (r : Resolver) (i : Instruction) (s : FnState) : FnState :=
  match assemble r i with
  | .error e => s.report (.encode e) i.span
  | .ok code => { s with lines := s.lines ++ [.instr i code], tracker := s.tracker.apply i }

/-- Emits several instructions of the body at one position. -/
def emitAll (r : Resolver) (span : Span) (is : List Instruction) (s : FnState) : FnState :=
  is.foldl (fun s i => s.emit r { i with span }) s

/-- Emits an instruction outside the body; what fails is reported at
    `span`. -/
def emitSilent (r : Resolver) (span : Span) (s : FnState) (i : Instruction) : FnState :=
  match assemble r i with
  | .error e => s.report (.encode e) span
  | .ok code => { s with lines := s.lines ++ [.instr i code] }

/-- Goes on at a generated label that is reached with a depth, or not at
    all. -/
def resume (s : FnState) (d : Depth) (live : Bool) : FnState :=
  { s with tracker := { depth := d, live } }

end FnState

/-! ## Code around the body -/

namespace FnContext

/-- Restores the saved registers and takes the frame down. -/
def cleanup (ctx : FnContext) : List Instruction :=
  ctx.preserved.reverse.map (fun r => .of "pop" [.ofReg r.text]) ++
    (if ctx.hasFrame then
      [.of "ld" [.ofReg "sp", .ofReg "ix"], .of "pop" [.ofReg "ix"]]
     else [])

/-- Code that puts the value of a local on the stack and keeps `hl`. -/
def initLocal (l : Local) : List Instruction :=
  let value := match l.init with
    | .missing => Operand.ofNum 0
    | e => Operand.imm e {}
  [.of "push" [.ofReg "hl"], .of "ld" [.ofReg "hl", value],
   .of "ex" [.indirect "sp", .ofReg "hl"]]

/-- Builds the frame, puts the locals into it and saves registers.  A function
    with none of these starts with `nop`. -/
def prologue (ctx : FnContext) (locals : List Local) : List Instruction :=
  let frame :=
    if ctx.hasFrame then
      [.of "push" [.ofReg "ix"], .of "ld" [.ofReg "ix", .ofNum 0],
       .of "add" [.ofReg "ix", .ofReg "sp"]] ++ locals.flatMap initLocal
    else []
  let saves := ctx.preserved.map fun r => Instruction.of "push" [.ofReg r.text]
  if !ctx.hasFrame && ctx.preserved.isEmpty then [.of "nop" []] else frame ++ saves

/-- Emits instructions outside the body. -/
def emitAround (ctx : FnContext) (is : List Instruction) (s : FnState) : FnState :=
  is.foldl (FnState.emitSilent ctx.resolver ctx.span) s

/-- A return.  Where there is something to undo, `ret` branches to the code
    that does, and `reti` and `retn` do it in place. -/
def lowerRet (ctx : FnContext) (i : Instruction) (s : FnState) : FnState :=
  let s := { s with returns := s.returns + 1 }.check s.tracker.depth.returnError? i.span
  match ctx.epilogue with
  | none => s.emit ctx.resolver i
  | some label =>
    if Text.lower i.head ≠ "ret" then (ctx.emitAround ctx.cleanup s).emit ctx.resolver i
    else
      let operands := i.operands.take 1 ++ [.ofName label]
      s.emit ctx.resolver { head := "jp", operands, span := i.span }

/-- A label of the user.  Any jump may arrive here, so the point counts as
    reached with the depth followed so far. -/
def defineLabel (ctx : FnContext) (name : String) (span : Span) (s : FnState) : FnState :=
  if s.userLabels.contains name then s.report (.control (.repeatedLabel name ctx.name)) span
  else
    let s := s.placeLabel name span
    { s with userLabels := s.userLabels ++ [name], tracker := .set s.tracker.depth }

end FnContext

end Z80Backend
