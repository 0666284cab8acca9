import Z80Backend.Function.Block
import Z80Backend.Function.Call

/-! # Statements

    An instruction of a body is an op call, a return, an access to typed
    storage, or plain code.  An op call is replaced by its expansion, and the
    body of each expansion is a body of its own: blocks do not cross its
    ends.

    Ops are expanded before they are lowered, with one exception: `select`
    loads its selector by an instruction that may itself be an op call.  Such
    calls nest without an op in use being noticed, so their nesting is
    limited. -/

namespace Z80Backend.FnContext

/-- Lowers an instruction; `lowerOp` takes care of op calls. -/
def lowerInstr (ctx : FnContext) (lowerOp : Instruction → FnState → FnState) (i : Instruction)
    (s : FnState) : FnState :=
  let head := Text.lower i.head
  if ctx.ops.isOp head then lowerOp i s
  else if head = "ret" || head = "reti" || head = "retn" then ctx.lowerRet i s
  else if i.operands.any fun o => (o.typedPlace? ctx.scope).isSome then ctx.lowerTyped i s
  else s.emit ctx.resolver i

/-- Lowers the opening of a select.  A selector other than `a` is loaded into
    `a` first. -/
def lowerSelect (ctx : FnContext) (lowerOp : Instruction → FnState → FnState)
    (selector : Operand) (malformed : Bool) (span : Span) (b : Body) : Body :=
  if malformed || selector == .missing then b.openBroken b.fn .selectBlock
  else
    let s :=
      if selector.isReg "a" then b.fn
      else
        ctx.lowerInstr lowerOp { head := "ld", operands := [.ofReg "a", selector], span } b.fn
    { b with fn := s }.openSelect span

/-- Lowers a statement. -/
def lowerStmt (ctx : FnContext) (lowerOp : Instruction → FnState → FnState) (st : Stmt)
    (b : Body) : Body :=
  match st with
  | .instr i => { b with fn := ctx.lowerInstr lowerOp i b.fn }
  | .label name span => { b with fn := ctx.defineLabel name span b.fn }
  | .call callee args span => { b with fn := ctx.lowerCall callee args span b.fn }
  | .ifOpen cond malformed span => b.openIf ctx.resolver cond malformed span
  | .elseArm span => b.elseArm ctx.resolver span
  | .endBlock span => b.endBlock ctx.resolver span
  | .whileOpen cond malformed span => b.openWhile ctx.resolver cond malformed span
  | .repeatOpen malformed span => b.openRepeat malformed span
  | .untilClose cond span => b.untilClose ctx.resolver cond span
  | .selectOpen selector malformed span => ctx.lowerSelect lowerOp selector malformed span b
  | .caseArm values span => b.caseArm ctx.resolver values span

/-- Lowers a whole body. -/
def lowerStmts (ctx : FnContext) (lowerOp : Instruction → FnState → FnState) (stmts : List Stmt)
    (s : FnState) : FnState :=
  (stmts.foldl (fun b st => ctx.lowerStmt lowerOp st b) { fn := s : Body }).close

/-! ## Expanded bodies -/

mutual

/-- Lowers an entry of an expanded body. -/
def lowerNode (ctx : FnContext) (lowerOp : Instruction → FnState → FnState) :
    Node → Body → Body
  | .stmt st, b => ctx.lowerStmt lowerOp st b
  | .nested op nodes, b =>
    let s := b.fn.note (.expandedNestedOp op)
    { b with fn := (lowerNodes ctx lowerOp nodes { fn := s }).close }

/-- Lowers the entries of an expanded body. -/
def lowerNodes (ctx : FnContext) (lowerOp : Instruction → FnState → FnState) :
    List Node → Body → Body
  | [], b => b
  | n :: ns, b => lowerNodes ctx lowerOp ns (lowerNode ctx lowerOp n b)

end

/-- Lowers an op call.  `depth` is how deeply such calls may still nest. -/
def lowerOp (ctx : FnContext) : Nat → Instruction → FnState → FnState
  | 0, _, s => { s with exhausted := true }
  | depth + 1, call, s =>
    if s.exhausted then s
    else
      let (expansion, errors, counter) := ctx.ops.expand call s.counter
      let s := errors.foldl (fun s e => s.report (.expansion e) call.span) { s with counter }
      match expansion with
      | none => s
      | some x =>
        let s := s.note (.expandedOp x.op ctx.name x.instructions.length)
        (ctx.lowerNodes (ctx.lowerOp depth) x.body { fn := s }).close

/-- Lowers the statements of a function. -/
def lowerBody (ctx : FnContext) (stmts : List Stmt) (s : FnState) : FnState :=
  ctx.lowerStmts (ctx.lowerOp ctx.nesting) stmts s

end Z80Backend.FnContext
