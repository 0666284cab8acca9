import Z80Backend.Proofs.Function.Outline

/-! # Passages

    The passages of a function are all statements that are lowered for it, those
    in the expansions of op calls included, each with the body before it and
    behind it.  The body is that of the function or, in an expansion, that of the
    op call, which has blocks of its own.

    * `FuncDecl.passages` are the passages of a function.
    * `FnContext.lowerOp_of_clean`: an op call that is lowered without a report is
      lowered as its expansion. -/

namespace Z80Backend

/-- A statement that is lowered, with the body before it and behind it. -/
structure Passage where
  before : Body
  stmt : Stmt
  after : Body

namespace FnContext

variable (ctx : FnContext)

/-- The passages of an instruction; `ops` are those of op calls. -/
def instrPassages (ops : Instruction → FnState → List Passage) (i : Instruction) (s : FnState) :
    List Passage :=
  if ctx.ops.isOp (Text.lower i.head) then ops i s else []

/-- The passages inside a statement. -/
def innerPassages (ops : Instruction → FnState → List Passage) (st : Stmt) (b : Body) :
    List Passage :=
  match st with
  | .instr i => ctx.instrPassages ops i b.fn
  | .selectOpen selector malformed span =>
    if malformed || selector == .missing || selector.isReg "a" then []
    else ctx.instrPassages ops { head := "ld", operands := [.ofReg "a", selector], span } b.fn
  | _ => []

/-- The passages of a statement, its own one first. -/
def stmtPassages (lowerOp : Instruction → FnState → FnState)
    (ops : Instruction → FnState → List Passage) (st : Stmt) (b : Body) : List Passage :=
  ⟨b, st, ctx.lowerStmt lowerOp st b⟩ :: ctx.innerPassages ops st b

mutual

/-- The passages of an entry of an expanded body. -/
def nodePassages (lowerOp : Instruction → FnState → FnState)
    (ops : Instruction → FnState → List Passage) : Node → Body → List Passage
  | .stmt st, b => ctx.stmtPassages lowerOp ops st b
  | .nested op nodes, b =>
    nodesPassages lowerOp ops nodes { fn := b.fn.note (.expandedNestedOp op) }

/-- The passages of the entries of an expanded body. -/
def nodesPassages (lowerOp : Instruction → FnState → FnState)
    (ops : Instruction → FnState → List Passage) : List Node → Body → List Passage
  | [], _ => []
  | n :: ns, b =>
    nodePassages lowerOp ops n b ++ nodesPassages lowerOp ops ns (ctx.lowerNode lowerOp n b)

end

/-- The passages of an op call.  `depth` is how deeply such calls may still
    nest. -/
def opPassages : Nat → Instruction → FnState → List Passage
  | 0, _, _ => []
  | depth + 1, call, s =>
    if s.exhausted then []
    else
      let (expansion, errors, counter) := ctx.ops.expand call s.counter
      let s := errors.foldl (fun s e => s.report (.expansion e) call.span) { s with counter }
      match expansion with
      | none => []
      | some x =>
        ctx.nodesPassages (ctx.lowerOp depth) (opPassages depth) x.body
          { fn := s.note (.expandedOp x.op ctx.name x.instructions.length) }

end FnContext

/-- The passages of a function, when labels up to `n` are in use. -/
def FuncDecl.passages (d : FuncDecl) (r : Resolver) (decls : Declarations) (n : Int) :
    List Passage :=
  let (ctx, s) := d.entry r decls n
  ctx.nodesPassages (ctx.lowerOp ctx.nesting) (ctx.opPassages ctx.nesting) (d.body.map .stmt)
    { fn := s }

/-! ## Op calls -/

namespace FnContext

variable {ctx : FnContext}

theorem eq_nil_of_reports {errors : List ExpansionError} {span : Span} {s : FnState}
    (h : (errors.foldl (fun s e => s.report (.expansion e) span) s).Clean) : errors = [] := by
  cases errors with
  | nil => rfl
  | cons e errors =>
    refine absurd ?_ (s.not_clean_report (.expansion e) span)
    exact (FnState.Extends.foldl (fun s e => s.extends_report _ _) errors _).clean h

/-- Without a report, an op call is lowered as its expansion, if it has one. -/
theorem lowerOp_of_clean {depth : Nat} {call : Instruction} {s : FnState}
    (hclean : (ctx.lowerOp (depth + 1) call s).Clean) :
    (∃ n, s.counter ≤ n ∧ ctx.lowerOp (depth + 1) call s = { s with counter := n } ∧
      ctx.opPassages (depth + 1) call s = []) ∨
    ∃ n x b, s.counter ≤ n ∧ (ctx.ops.expand call s.counter).1 = some x ∧
      b = { fn := FnState.note { s with counter := n }
              (.expandedOp x.op ctx.name x.instructions.length) } ∧
      ctx.lowerOp (depth + 1) call s = (ctx.lowerNodes (ctx.lowerOp depth) x.body b).close ∧
      ctx.opPassages (depth + 1) call s =
        ctx.nodesPassages (ctx.lowerOp depth) (ctx.opPassages depth) x.body b := by
  rw [lowerOp] at hclean ⊢
  rw [opPassages]
  by_cases hexhausted : s.exhausted = true
  · rw [if_pos hexhausted, if_pos hexhausted]
    exact .inl ⟨s.counter, Int.le_refl _, rfl, rfl⟩
  rw [if_neg hexhausted] at hclean ⊢
  rw [if_neg hexhausted]
  -- all that matters of the expansion is that it counts labels up
  have hcounter := Ops.le_expandCall ctx.ops ctx.ops.decls [] call.span call s.counter
  change s.counter ≤ (ctx.ops.expand call s.counter).2.2 at hcounter
  generalize ctx.ops.expand call s.counter = result at hclean hcounter ⊢
  obtain ⟨expansion, errors, counter⟩ := result
  dsimp only at hclean hcounter ⊢
  -- what is lowered later does not take back a report
  have hreports : (errors.foldl (fun (s : FnState) e => s.report (.expansion e) call.span)
      { s with counter }).Clean := by
    split at hclean
    · exact hclean
    · have hnodes := (Body.extends_close _).clean hclean
      have hnote := (ctx.extends_lowerNodes (ctx.extends_lowerOp depth) _ { fn := _ }).clean hnodes
      exact (FnState.extends_note _ _).clean hnote
  obtain rfl := eq_nil_of_reports hreports
  cases expansion with
  | none => exact .inl ⟨counter, hcounter, rfl, rfl⟩
  | some x => exact .inr ⟨counter, x, _, hcounter, rfl, rfl, rfl, rfl⟩

end FnContext

end Z80Backend
