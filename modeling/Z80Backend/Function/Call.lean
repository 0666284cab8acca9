import Z80Backend.Function.Access

/-! # Typed calls

    The arguments of a call are pushed from right to left as 16-bit words,
    the function is called, and the words are dropped.  `hl` keeps its value
    while each argument is pushed. -/

namespace Z80Backend.FnContext

/-- The registers that can be pushed as they are. -/
def isPushable (reg : String) : Bool := ["af", "bc", "de", "hl", "ix", "iy"].contains reg

/-- Code that pushes the word in `hl` under the saved value of `hl`. -/
def swapTop : Instruction := .of "ex" [.indirect "sp", .ofReg "hl"]

/-- Code that pushes typed storage, or what is wrong with it. -/
def pushStorage (ctx : FnContext) (p : Place) : Except Problem (List Instruction) :=
  match p.resolve ctx.scope ctx.resolver with
  | .error e => .error (.address e)
  | .ok x =>
    let width := x.width ctx.resolver
    if width = 1 then
      .ok ([.of "push" [.ofReg "hl"]] ++ (x.address.loadByte .l).map (·.instruction) ++
        [.of "ld" [.ofReg "h", .ofNum 0], swapTop])
    else if width = 2 then
      .ok ([.of "push" [.ofReg "hl"]] ++ (x.address.loadWord .hl).map (·.instruction) ++
        [swapTop])
    else .error (.call (.aggregateArgument p))

/-- Code that pushes argument `n`, counted from one, or what is wrong with
    it. -/
def pushArg (ctx : FnContext) (callee : String) (n : Nat) (arg : Operand) :
    Except Problem (List Instruction) :=
  let refused := Except.error (Problem.call (.argument n callee arg))
  match arg with
  | .reg name _ =>
    let reg := Text.lower name
    if isPushable reg then .ok [.of "push" [.ofReg reg]]
    else if (Reg8.ofName? reg).isSome then
      .ok [.of "push" [.ofReg "hl"], .of "ld" [.ofReg "l", .ofReg reg],
           .of "ld" [.ofReg "h", .ofNum 0], swapTop]
    else refused
  | .imm e span =>
    .ok [.of "push" [.ofReg "hl"], .of "ld" [.ofReg "hl", .imm e span], swapTop]
  | .place p _ => if p.isStorage ctx.scope then ctx.pushStorage p else refused
  | .mem p _ => if p.isStorage ctx.scope then ctx.pushStorage p else refused
  | _ => refused

/-- Pushes arguments, the last one first, up to the first that cannot be
    passed.  Tells whether all were. -/
def pushArgs (ctx : FnContext) (callee : String) (span : Span) :
    List (Operand × Nat) → FnState → Bool × FnState
  | [], s => (true, s)
  | (arg, i) :: rest, s =>
    match ctx.pushArgs callee span rest s with
    | (false, s) => (false, s)
    | (true, s) =>
      match ctx.pushArg callee (i + 1) arg with
      | .error p => (false, s.report p span)
      | .ok code => (true, s.emitAll ctx.resolver span code)

/-- Code that calls a function and drops `n` words. -/
def callCode (callee : String) (n : Nat) : List Instruction :=
  .of "call" [.ofName callee] :: List.replicate (2 * n) (.of "inc" [.ofReg "sp"])

/-- Lowers a call. -/
def lowerCall (ctx : FnContext) (callee : String) (args : List Operand) (span : Span)
    (s : FnState) : FnState :=
  match ctx.functions.find? (·.name == callee) with
  | none => s.report (.call (.unknownFunction callee)) span
  | some f =>
    if args.length ≠ f.params.length then
      s.report (.call (.argumentCount callee f.params.length args.length)) span
    else
      match ctx.pushArgs callee span args.zipIdx s with
      | (false, s) => s
      | (true, s) =>
        (s.emitAll ctx.resolver span (callCode callee args.length)).note
          (.loweredCall ctx.name callee args.length f.isExternal)

end Z80Backend.FnContext
