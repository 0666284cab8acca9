import Z80Backend.Proofs.Function.Comparison
import Z80Backend.Proofs.Function.Straight
import Z80Backend.Proofs.Op.Names

/-! # Bodies side by side

    A comparison that the steps of structured control keep is kept by a whole
    body as soon as it is kept by the statements that open no block, and by the
    expansion of op calls.

    Most often the two runs lower one body in one setting, and differ only in
    where they start.  Then it is enough that states stay alike under the few
    ways in which lowering changes a state.

    * `Comparison.Keeps.lowerStmt` is the step, one case for each statement;
      `Comparison.Keeps.lowerBody` is the run.
    * `Comparison.Follows`: two runs of one body, and with
      `Comparison.follows_of_invariant` what all states of a run have. -/

namespace Z80Backend

/-! ## Statements -/

/-- The statement as it is written in the second run. -/
def Wording.stmt (k : Wording) : Stmt → Stmt
  | .instr i => .instr (k.instr i)
  | .label name span => .label (k.label name) span
  | .ifOpen c malformed span => .ifOpen (k.word c) malformed span
  | .whileOpen c malformed span => .whileOpen (k.word c) malformed span
  | .untilClose c span => .untilClose (k.word c) span
  | .selectOpen o malformed span => .selectOpen (k.operand o) malformed span
  | .caseArm es span => .caseArm (es.map k.expr) span
  | .call f args span => .call f (args.map k.operand) span
  | st => st

mutual

/-- The entry with its statements changed. -/
def Node.map (g : Stmt → Stmt) : Node → Node
  | .stmt st => .stmt (g st)
  | .nested op body => .nested op (Node.mapList g body)

/-- The entries with their statements changed. -/
def Node.mapList (g : Stmt → Stmt) : List Node → List Node
  | [] => []
  | n :: ns => n.map g :: Node.mapList g ns

end

theorem Node.mapList_id (ns : List Node) : Node.mapList id ns = ns := by
  induction ns using Node.listInduction with
  | nil => rfl
  | stmt st ns ih => rw [mapList, Node.map, ih, id]
  | nested op body ns hbody ih => rw [mapList, Node.map, hbody, ih]

/-- The expansion with its statements changed. -/
def Expansion.map (g : Stmt → Stmt) (x : Expansion) : Expansion :=
  { x with body := Node.mapList g x.body }

namespace FnContext

/-- The state once a call is expanded: its label numbers are in use, and what
    is wrong with it is reported. -/
def expanded (ctx : FnContext) (call : Instruction) (s : FnState) : FnState :=
  (ctx.ops.expand call s.counter).2.1.foldl (fun s e => s.report (.expansion e) call.span)
    { s with counter := (ctx.ops.expand call s.counter).2.2 }

/-- An op call is expanded, and the expansion is a body of its own. -/
theorem lowerOp_succ (ctx : FnContext) (depth : Nat) (call : Instruction) {s : FnState}
    (hs : s.exhausted = false) :
    ctx.lowerOp (depth + 1) call s =
      match (ctx.ops.expand call s.counter).1 with
      | none => ctx.expanded call s
      | some x =>
        (ctx.lowerNodes (ctx.lowerOp depth) x.body
          { fn := (ctx.expanded call s).note
              (.expandedOp x.op ctx.name x.instructions.length) }).close := by
  rw [lowerOp, if_neg (by simp [hs])]
  rfl

/-- Lowers statements one after the other. -/
def lowerAll (ctx : FnContext) (lowerOp : Instruction → FnState → FnState) (stmts : List Stmt)
    (b : Body) : Body :=
  stmts.foldl (fun b st => ctx.lowerStmt lowerOp st b) b

section

variable (ctx : FnContext) (lowerOp : Instruction → FnState → FnState)

@[simp] theorem lowerAll_nil (b : Body) : ctx.lowerAll lowerOp [] b = b := rfl

@[simp] theorem lowerAll_cons (st : Stmt) (sts : List Stmt) (b : Body) :
    ctx.lowerAll lowerOp (st :: sts) b = ctx.lowerAll lowerOp sts (ctx.lowerStmt lowerOp st b) :=
  rfl

@[simp] theorem lowerAll_append (sts sts' : List Stmt) (b : Body) :
    ctx.lowerAll lowerOp (sts ++ sts') b =
      ctx.lowerAll lowerOp sts' (ctx.lowerAll lowerOp sts b) := by
  simp [lowerAll]

end

end FnContext

namespace Comparison

/-- Two ways to lower op calls keep what is alike. -/
def KeepsCalls (k : Comparison) (P : Stmt → Prop) (f f' : Instruction → FnState → FnState) : Prop :=
  ∀ {s s' : FnState} (i : Instruction), P (.instr i) → k.state s s' →
    k.state (f i s) (f' (k.instr i) s')

/-- Lowering in two settings keeps what is alike, as far as it makes no use of
    blocks and the statements have the property `P`. -/
structure Keeps (k : Comparison) (P : Stmt → Prop) (c c' : FnContext) : Prop where
  kept : k.IsKept c.resolver
  resolver : c'.resolver = c.resolver
  nesting : c'.nesting = c.nesting
  instr : ∀ {f f'}, k.KeepsCalls P f f' → ∀ {s s'} i, P (.instr i) → k.state s s' →
    k.state (c.lowerInstr f i s) (c'.lowerInstr f' (k.instr i) s')
  define : ∀ {s s'} name span, P (.label name span) → k.state s s' →
    k.state (c.defineLabel name span s) (c'.defineLabel (k.label name) span s')
  functions : c'.functions = c.functions
  straight : ∀ {i}, i.IsStraight → k.code i i
  arg : ∀ callee n o,
    (∃ is, c.pushArg callee n o = .ok is ∧ c'.pushArg callee n (k.operand o) = .ok is) ∨
      ∃ p p', c.pushArg callee n o = .error p ∧ c'.pushArg callee n (k.operand o) = .error p' ∧
        k.problem p p'
  passed : ∀ {s s'} callee n isExternal, k.state s s' →
    k.state (s.note (.loweredCall c.name callee n isExternal))
      (s'.note (.loweredCall c'.name callee n isExternal))
  cond : ∀ w, k.cond w (k.word w)
  value : ∀ es span, P (.caseArm es span) → ∀ e ∈ es, k.value c.resolver e (k.expr e)
  missing : ∀ o, (k.operand o == .missing) = (o == .missing)
  isA : ∀ o, (k.operand o).isReg "a" = o.isReg "a"
  load : ∀ o span, k.instr { head := "ld", operands := [.ofReg "a", o], span } =
    { head := "ld", operands := [.ofReg "a", k.operand o], span }
  loads : ∀ o malformed span, P (.selectOpen o malformed span) →
    P (.instr { head := "ld", operands := [.ofReg "a", o], span })
  exhausted : ∀ {s s'}, k.state s s' → s'.exhausted = s.exhausted
  exhaust : ∀ {s s'}, k.state s s' →
    k.state { s with exhausted := true } { s' with exhausted := true }
  nested : ∀ {s s'} op, k.state s s' →
    k.state (s.note (.expandedNestedOp op)) (s'.note (.expandedNestedOp op))
  called : ∀ {s s'} (x : Expansion), k.state s s' →
    k.state (s.note (.expandedOp x.op c.name x.instructions.length))
      (s'.note (.expandedOp x.op c'.name (x.map k.stmt).instructions.length))
  expand : ∀ {s s'} call, P (.instr call) → k.state s s' →
    (c'.ops.expand (k.instr call) s'.counter).1 =
        (c.ops.expand call s.counter).1.map (Expansion.map k.stmt) ∧
      (∀ x, (c.ops.expand call s.counter).1 = some x → ∀ st ∈ Node.listStmts x.body, P st) ∧
      k.state (c.expanded call s) (c'.expanded (k.instr call) s')

namespace Keeps

variable {k : Comparison} {P : Stmt → Prop} {c c' : FnContext} (hk : k.Keeps P c c')

include hk

theorem emitAll {s s' : FnState} (h : k.state s s') (span : Span) {is : List Instruction}
    (his : ∀ i ∈ is, i.IsStraight) :
    k.state (s.emitAll c.resolver span is) (s'.emitAll c'.resolver span is) := by
  rw [hk.resolver]
  exact hk.kept.emitAll (List.forall₂_same.mpr fun i hi => hk.straight (his i hi)) h

theorem pushArgs {s s' : FnState} (h : k.state s s') (callee : String) (span : Span)
    (args : List (Operand × Nat)) :
    ∃ done t t', c.pushArgs callee span args s = (done, t) ∧
      c'.pushArgs callee span (args.map (Prod.map k.operand id)) s' = (done, t') ∧
      k.state t t' := by
  induction args with
  | nil => exact ⟨true, s, s', rfl, rfl, h⟩
  | cons a rest ih =>
    obtain ⟨o, n⟩ := a
    obtain ⟨done, t, t', hx, hx', ht⟩ := ih
    rw [List.map_cons, Prod.map, FnContext.pushArgs, FnContext.pushArgs, hx, hx']
    cases done with
    | false => exact ⟨false, t, t', rfl, rfl, ht⟩
    | true =>
      rcases hk.arg callee (n + 1) o with ⟨is, his, his'⟩ | ⟨p, p', hp, hp', hproblem⟩
      · simp only [his, his', id]
        exact ⟨true, _, _, rfl, rfl, hk.emitAll ht span (FnContext.isStraight_pushArg his)⟩
      · simp only [hp, hp', id]
        exact ⟨false, _, _, rfl, rfl, hk.kept.report ht hproblem span⟩

theorem lowerCall {s s' : FnState} (h : k.state s s') (callee : String) (args : List Operand)
    (span : Span) :
    k.state (c.lowerCall callee args span s)
      (c'.lowerCall callee (args.map k.operand) span s') := by
  obtain ⟨done, t, t', hx, hx', ht⟩ := hk.pushArgs h callee span args.zipIdx
  unfold FnContext.lowerCall
  rw [hk.functions, List.length_map, List.zipIdx_map]
  split
  · exact hk.kept.report h (hk.kept.same _) span
  split
  · exact hk.kept.report h (hk.kept.same _) span
  rw [hx, hx']
  cases done with
  | false => exact ht
  | true => exact hk.passed _ _ _ (hk.emitAll ht span FnContext.isStraight_callCode)

section

variable {f f' : Instruction → FnState → FnState} (hf : k.KeepsCalls P f f')

include hf

theorem lowerSelect {b b' : Body} (h : k.body b b') (o : Operand) (malformed : Bool) (span : Span)
    (ho : P (.selectOpen o malformed span)) :
    k.body (c.lowerSelect f o malformed span b)
      (c'.lowerSelect f' (k.operand o) malformed span b') := by
  unfold FnContext.lowerSelect
  rw [hk.missing, hk.isA]
  split
  · exact IsKept.openBroken h h.fn .selectBlock
  · have hload := hk.instr hf _ (hk.loads o malformed span ho) h.fn
    rw [hk.load] at hload
    have hbody : k.body { b with fn := _ } { b' with fn := _ } := ⟨hload, h.blocks⟩
    dsimp only
    split
    · exact hk.kept.openSelect h span
    · exact hk.kept.openSelect hbody span

theorem lowerStmt {b b' : Body} (h : k.body b b') (st : Stmt) (hst : P st) :
    k.body (c.lowerStmt f st b) (c'.lowerStmt f' (k.stmt st) b') := by
  cases st with
  | instr i => exact ⟨hk.instr hf i hst h.fn, h.blocks⟩
  | label name span => exact ⟨hk.define name span hst h.fn, h.blocks⟩
  | call callee args span => exact ⟨hk.lowerCall h.fn callee args span, h.blocks⟩
  | selectOpen o malformed span => exact hk.lowerSelect hf h o malformed span hst
  | ifOpen w malformed span =>
    simp only [FnContext.lowerStmt, Wording.stmt, hk.resolver]
    exact hk.kept.openIf h span (hk.cond w) malformed
  | whileOpen w malformed span =>
    simp only [FnContext.lowerStmt, Wording.stmt, hk.resolver]
    exact hk.kept.openWhile h span (hk.cond w) malformed
  | untilClose w span =>
    simp only [FnContext.lowerStmt, Wording.stmt, hk.resolver]
    exact hk.kept.untilClose h span (hk.cond w)
  | elseArm span =>
    simp only [FnContext.lowerStmt, Wording.stmt, hk.resolver]
    exact hk.kept.elseArm h span
  | endBlock span =>
    simp only [FnContext.lowerStmt, Wording.stmt, hk.resolver]
    exact hk.kept.endBlock h span
  | repeatOpen malformed span => exact hk.kept.openRepeat h span malformed
  | caseArm es span =>
    simp only [FnContext.lowerStmt, Wording.stmt, hk.resolver]
    refine hk.kept.caseArm h span ?_
    exact List.forall₂_map_right_iff.mpr (List.forall₂_same.mpr (hk.value es span hst))

theorem lowerAll {b b' : Body} (h : k.body b b') (sts : List Stmt) (hsts : ∀ st ∈ sts, P st) :
    k.body (c.lowerAll f sts b) (c'.lowerAll f' (sts.map k.stmt) b') := by
  induction sts generalizing b b' with
  | nil => exact h
  | cons st sts ih =>
    exact ih (hk.lowerStmt hf h st (hsts st List.mem_cons_self))
      fun st' h' => hsts st' (List.mem_cons_of_mem _ h')

omit hk hf in
/-- A body of its own starts without blocks. -/
theorem start {s s' : FnState} (h : k.state s s') : k.body { fn := s } { fn := s' } := ⟨h, rfl⟩

/-- The entries of an expanded body keep bodies alike. -/
theorem lowerNodes (ns : List Node) {b b' : Body} (hns : ∀ st ∈ Node.listStmts ns, P st)
    (h : k.body b b') :
    k.body (c.lowerNodes f ns b) (c'.lowerNodes f' (Node.mapList k.stmt ns) b') := by
  induction ns using Node.listInduction generalizing b b' with
  | nil =>
    rw [Node.mapList, FnContext.lowerNodes, FnContext.lowerNodes]
    exact h
  | stmt st ns ih =>
    obtain ⟨hst, hns⟩ := List.forall_mem_cons.mp hns
    rw [Node.mapList, Node.map, FnContext.lowerNodes, FnContext.lowerNode, FnContext.lowerNodes,
      FnContext.lowerNode]
    exact ih hns (hk.lowerStmt hf h st hst)
  | nested op body ns hbody ih =>
    obtain ⟨hin, hns⟩ := List.forall_mem_append.mp hns
    rw [Node.mapList, Node.map, FnContext.lowerNodes, FnContext.lowerNode, FnContext.lowerNodes,
      FnContext.lowerNode]
    exact ih hns ⟨hk.kept.close (hbody hin (start (hk.nested op h.fn))), h.blocks⟩

end

/-- Op calls keep states alike.  The induction is on the depth that is left for
    calls made by `select`. -/
theorem lowerOp (depth : Nat) : k.KeepsCalls P (c.lowerOp depth) (c'.lowerOp depth) := by
  induction depth with
  | zero => exact fun _ _ h => hk.exhaust h
  | succ depth ih =>
    intro s s' call hcall h
    obtain ⟨hexpansion, hstmts, hstate⟩ := hk.expand call hcall h
    by_cases hs : s.exhausted = true
    · rw [FnContext.lowerOp, if_pos hs, FnContext.lowerOp,
        if_pos ((hk.exhausted h).trans hs)]
      exact h
    · have hs : s.exhausted = false := by simpa using hs
      rw [c.lowerOp_succ depth call hs, c'.lowerOp_succ depth _ ((hk.exhausted h).trans hs),
        hexpansion]
      cases hx : (c.ops.expand call s.counter).1 with
      | none => exact hstate
      | some x =>
        exact hk.kept.close (hk.lowerNodes ih x.body (hstmts x hx) (start (hk.called x hstate)))

theorem lowerBody {s s' : FnState} (h : k.state s s') (sts : List Stmt) (hsts : ∀ st ∈ sts, P st) :
    k.state (c.lowerBody sts s) (c'.lowerBody (sts.map k.stmt) s') := by
  unfold FnContext.lowerBody
  rw [hk.nesting]
  exact hk.kept.close (hk.lowerAll (hk.lowerOp _) (start h) sts hsts)

end Keeps

end Comparison

/-! ## One body in two runs -/

/-- A line of a function: a label, or an instruction with its code. -/
def Line.IsAssembled : Line → Prop
  | instr i code => ∃ r, assemble r i = .ok code
  | label .. => True
  | _ => False

/-- A line of a function other than a return. -/
def Line.IsPlain (l : Line) : Prop := l.IsAssembled ∧ ∀ i code, l = .instr i code → ¬ i.IsReturn

/-- Expanding a body takes new label numbers only, and gives statements of the
    ops with other operands, if expanding a call does. -/
theorem Ops.sound_expandBody {ops : Ops} {P : Stmt → Prop} {pool : List OpDecl}
    {chain : List String} {span : Span}
    (hcalls : ∀ i n, n ≤ (ops.expandCall pool chain span i n).2.2 ∧
      ∀ e, (ops.expandCall pool chain span i n).1 = some e → ∀ st ∈ Node.listStmts e.body, P st)
    (name : String) (x : Instance) (body : List Stmt) (hbody : ∀ st ∈ body, P (x.stmt st))
    (n : Int) :
    n ≤ (ops.expandBody pool chain span name x body n).2.2 ∧
      ∀ st ∈ Node.listStmts (ops.expandBody pool chain span name x body n).1, P st := by
  induction body generalizing n with
  | nil =>
    rw [Ops.expandBody]
    exact ⟨Int.le_refl n, List.forall_mem_nil _⟩
  | cons st sts ih =>
    obtain ⟨hst, hsts⟩ := List.forall_mem_cons.mp hbody
    have hrest := fun n' => ih hsts n'
    rw [Ops.expandBody]
    split
    · rename_i i hi
      rw [hi] at hst
      split
      · obtain ⟨hle, hcall⟩ := hcalls i n
        obtain ⟨hle', hmore⟩ := hrest (ops.expandCall pool chain span i n).2.2
        dsimp only
        split
        · rename_i e he
          exact ⟨Int.le_trans hle hle', List.forall_mem_append.mpr ⟨hcall e he, hmore⟩⟩
        · exact ⟨Int.le_trans hle hle', hmore⟩
      · dsimp only
        split
        · exact hrest n
        · exact ⟨(hrest n).1, List.forall_mem_cons.mpr ⟨hst, (hrest n).2⟩⟩
    · exact ⟨(hrest n).1, List.forall_mem_cons.mpr ⟨hst, (hrest n).2⟩⟩

/-- So does expanding a call.  Each level takes an op out of the pool. -/
theorem Ops.sound_expandCall (ops : Ops) {P : Stmt → Prop} {pool : List OpDecl}
    (hpool : ∀ d ∈ pool, ∀ st ∈ d.body, ∀ x : Instance, P (x.stmt st)) (chain : List String)
    (span : Span) (call : Instruction) (n : Int) :
    n ≤ (ops.expandCall pool chain span call n).2.2 ∧
      ∀ e, (ops.expandCall pool chain span call n).1 = some e →
        ∀ st ∈ Node.listStmts e.body, P st := by
  rw [Ops.expandCall]
  split
  · exact ⟨Int.le_refl n, fun _ h => by cases h⟩
  · split
    · exact ⟨Int.le_refl n, fun _ h => by cases h⟩
    · rename_i d h
      obtain ⟨hle, hstmts⟩ := Ops.sound_expandBody
        (ops.sound_expandCall (fun d hd => hpool d (List.mem_filter.mp hd).1)
          (chain ++ [Text.lower call.head]) span)
        (Text.lower call.head) (d.instantiate call.operands (ops.stem (n + 1))) d.body
        (fun st hst => hpool d (List.mem_filter.mp (Ops.mem_of_resolve h)).1 st hst _) (n + 1)
      refine ⟨Int.le_trans (by omega) hle, fun e he => ?_⟩
      cases he
      exact hstmts
termination_by pool.length
decreasing_by exact Ops.length_without_lt (by assumption)

theorem Ops.le_expandCall (ops : Ops) (pool : List OpDecl) (chain : List String) (span : Span)
    (call : Instruction) (n : Int) : n ≤ (ops.expandCall pool chain span call n).2.2 :=
  (ops.sound_expandCall (P := fun _ => True) (fun _ _ _ _ _ => trivial) chain span call n).1

namespace FnContext

/-- The setting of a function that saves other registers and has another exit. -/
def leaving (ctx : FnContext) (regs : List StackReg) (exit : Option String) : FnContext :=
  { ctx with preserved := regs, epilogue := exit }

variable (ctx : FnContext) (regs : List StackReg) (exit : Option String)

theorem lowerInstr_leaving (f : Instruction → FnState → FnState) (i : Instruction) (s : FnState) :
    (ctx.leaving regs exit).lowerInstr f i s =
      if ctx.ops.isOp (Text.lower i.head) then f i s
      else if i.IsReturn then (ctx.leaving regs exit).lowerRet i s
      else if i.operands.any fun o => (o.typedPlace? ctx.scope).isSome then ctx.lowerTyped i s
      else s.emit ctx.resolver i := by
  have hreturn : (Text.lower i.head = "ret" || Text.lower i.head = "reti" ||
      Text.lower i.head = "retn") = decide i.IsReturn := by
    simp [Instruction.IsReturn, Bool.or_assoc]
  unfold lowerInstr
  dsimp only
  rw [hreturn]
  simp only [decide_eq_true_eq]
  rfl

end FnContext

namespace Comparison

/-- Lowering reads the same of two states, and they stay alike if both are
    changed in the same way.  Nothing is said of returns. -/
structure Accords (R : FnState → FnState → Prop) : Prop where
  tracker : ∀ {s s'}, R s s' → s'.tracker = s.tracker
  counter : ∀ {s s'}, R s s' → s'.counter = s.counter
  userLabels : ∀ {s s'}, R s s' → s'.userLabels = s.userLabels
  exhausted : ∀ {s s'}, R s s' → s'.exhausted = s.exhausted
  labels : ∀ {s s'}, R s s' → ∀ n, Line.hasLabel n s'.lines = Line.hasLabel n s.lines
  note : ∀ {s s'}, R s s' → ∀ e, R (s.note e) (s'.note e)
  plain : ∀ {s s'}, R s s' → ∀ {l : Line}, l.IsPlain →
    R { s with lines := s.lines ++ [l] } { s' with lines := s'.lines ++ [l] }
  issue : ∀ {s s'}, R s s' → ∀ d,
    R { s with issues := s.issues ++ [d] } { s' with issues := s'.issues ++ [d] }
  track : ∀ {s s'}, R s s' → ∀ t, R { s with tracker := t } { s' with tracker := t }
  define : ∀ {s s'}, R s s' → ∀ us, R { s with userLabels := us } { s' with userLabels := us }
  renumber : ∀ {s s'}, R s s' → ∀ {n}, s.counter ≤ n →
    R { s with counter := n } { s' with counter := n }
  exhaust : ∀ {s s'}, R s s' → R { s with exhausted := true } { s' with exhausted := true }

/-- The same, returns included. -/
structure Follows (R : FnState → FnState → Prop) : Prop extends Accords R where
  line : ∀ {s s'}, R s s' → ∀ {l : Line}, l.IsAssembled →
    R { s with lines := s.lines ++ [l] } { s' with lines := s'.lines ++ [l] }
  plain := fun h _ hl => line h hl.1
  count : ∀ {s s'}, R s s' →
    R { s with returns := s.returns + 1 } { s' with returns := s'.returns + 1 }

/-- The comparison of two runs of one body. -/
def ofRelation (R : FnState → FnState → Prop) : Comparison where
  code i i' := i' = i ∧ ¬ i.IsReturn
  state := R

theorem stmt_ofRelation (R : FnState → FnState → Prop) : (ofRelation R).stmt = id := by
  funext st
  cases st <;> simp [Wording.stmt, ofRelation]

/-- Steps that keep states alike do so together. -/
theorem foldl {R : FnState → FnState → Prop} {α : Type} {f : FnState → α → FnState}
    (hf : ∀ {s s'}, R s s' → ∀ a, R (f s a) (f s' a)) (as : List α) {s s' : FnState} (h : R s s') :
    R (as.foldl f s) (as.foldl f s') := by
  induction as generalizing s s' with
  | nil => exact h
  | cons a as ih => exact ih (hf h a)

namespace Accords

variable {R : FnState → FnState → Prop} (hR : Accords R) {s s' : FnState} (h : R s s')

include hR h

theorem report (p : Problem) (span : Span) : R (s.report p span) (s'.report p span) := by
  have hnote := hR.note h (.announced (.diagnostic { problem := p, span }))
  unfold FnState.report
  cases p with
  | stack e => exact hR.issue hnote _
  | _ => exact hnote

theorem emit_of_line {r : Resolver} {i : Instruction}
    (hline : ∀ code, assemble r i = .ok code → R { s with lines := s.lines ++ [.instr i code] }
      { s' with lines := s'.lines ++ [.instr i code] }) : R (s.emit r i) (s'.emit r i) := by
  unfold FnState.emit
  rw [hR.tracker h]
  split
  · exact hR.report h _ _
  · rename_i code hcode
    exact hR.track (hline code hcode) _

theorem emit (r : Resolver) {i : Instruction} (hi : ¬ i.IsReturn) :
    R (s.emit r i) (s'.emit r i) := by
  refine hR.emit_of_line h fun code hcode => hR.plain h ⟨⟨r, hcode⟩, fun j _ hj => ?_⟩
  cases hj
  exact hi

omit h in
theorem placeLabel (h : R s s') (n : String) (span : Span) :
    R (s.placeLabel n span) (s'.placeLabel n span) :=
  hR.plain h (l := .label n span) ⟨trivial, fun _ _ hj => nomatch hj⟩

omit h in
theorem isKept (r : Resolver) : (ofRelation R).IsKept r where
  same _ := rfl
  jump _ _ := ⟨rfl, show Text.lower "jp" ∉ ["ret", "reti", "retn"] by decide⟩
  branch _ _ _ := ⟨rfl, show Text.lower "jp" ∉ ["ret", "reti", "retn"] by decide⟩
  compare _ _ := ⟨rfl, show Text.lower "cp" ∉ ["ret", "reti", "retn"] by decide⟩
  tracker := hR.tracker
  placed := hR.labels
  report h p p' hp span := by
    obtain rfl : p = p' := hp
    exact hR.report h p span
  freshLabel h kind _ := by
    refine ⟨congrArg (Label.make kind <| · + 1) (hR.counter h), ?_⟩
    unfold FnState.freshLabel
    rw [hR.counter h]
    exact hR.renumber h (by omega)
  placeLabel := hR.placeLabel
  track := hR.track
  emit h i i' hi := by
    obtain ⟨rfl, hi⟩ : i' = i ∧ ¬ i.IsReturn := hi
    exact hR.emit h r hi

theorem emitAll (r : Resolver) (span : Span) {is : List Instruction}
    (his : ∀ i ∈ is, i.IsStraight) : R (s.emitAll r span is) (s'.emitAll r span is) :=
  (hR.isKept r).emitAll
    (List.forall₂_same.mpr fun i hi => ⟨rfl, Instruction.IsStraight.not_isReturn (his i hi)⟩) h

variable (ctx : FnContext)

theorem defineLabel (name : String) (span : Span) :
    R (ctx.defineLabel name span s) (ctx.defineLabel name span s') := by
  unfold FnContext.defineLabel
  rw [hR.userLabels h]
  split
  · exact hR.report h _ _
  · have hline := hR.placeLabel h name span
    dsimp only [FnState.placeLabel] at hline ⊢
    rw [hR.userLabels h, hR.tracker h]
    exact hR.track (hR.define hline _) _

theorem lowerTyped (i : Instruction) : R (ctx.lowerTyped i s) (ctx.lowerTyped i s') := by
  unfold FnContext.lowerTyped
  split
  · exact hR.report h _ _
  · exact hR.emitAll (hR.note h _) _ _ Step.isStraight_map

theorem expanded (call : Instruction) : R (ctx.expanded call s) (ctx.expanded call s') := by
  unfold FnContext.expanded
  rw [hR.counter h]
  exact foldl (R := R) (f := fun s e => s.report (.expansion e) call.span)
    (fun h _ => hR.report h _ _) _
    (hR.renumber h (ctx.ops.le_expandCall ctx.ops.decls [] call.span call s.counter))

omit h

/-- Two runs of one body that start alike stay alike if the returns keep them so,
    however the function is left. -/
theorem keeps_of_returns {P : Stmt → Prop} (regs : List StackReg) (exit : Option String)
    (hret : ∀ {s s'} i, i.IsReturn → P (.instr i) → R s s' →
      R (ctx.lowerRet i s) ((ctx.leaving regs exit).lowerRet i s'))
    (hload : ∀ o span, P (.instr { head := "ld", operands := [.ofReg "a", o], span }))
    (hops : ∀ d ∈ ctx.ops.decls, ∀ st ∈ d.body, ∀ x : Instance, P (x.stmt st)) :
    (ofRelation R).Keeps P ctx (ctx.leaving regs exit) where
  kept := hR.isKept _
  resolver := rfl
  nesting := rfl
  instr {f f'} hf s s' i hi h := by
    change R ((ctx.leaving ctx.preserved ctx.epilogue).lowerInstr f i s)
      ((ctx.leaving regs exit).lowerInstr f' i s')
    rw [FnContext.lowerInstr_leaving, FnContext.lowerInstr_leaving]
    split
    · exact hf i hi h
    split
    · rename_i hreturn
      exact hret i hreturn hi h
    split
    · exact hR.lowerTyped h ctx i
    · rename_i hreturn _
      exact hR.emit h _ hreturn
  define name span _ h := hR.defineLabel h ctx name span
  functions := rfl
  straight hi := ⟨rfl, hi.not_isReturn⟩
  arg callee n o := by
    cases hx : ctx.pushArg callee n o with
    | ok is => exact .inl ⟨is, rfl, hx⟩
    | error p => exact .inr ⟨p, p, rfl, hx, rfl⟩
  passed _ _ _ h := hR.note h _
  cond _ := ⟨rfl, fun _ => rfl⟩
  value _ _ _ _ _ := ⟨rfl, rfl⟩
  missing _ := rfl
  isA _ := rfl
  load _ _ := rfl
  loads o _ span _ := hload o span
  exhausted := hR.exhausted
  exhaust := hR.exhaust
  nested op h := hR.note h _
  called x h := by
    rw [stmt_ofRelation, Expansion.map, Node.mapList_id]
    exact hR.note h _
  expand call _ h := by
    refine ⟨?_, (ctx.ops.sound_expandCall hops [] call.span call _).2, hR.expanded h ctx call⟩
    rw [stmt_ofRelation, hR.counter h]
    have hid : Expansion.map id = id := by
      funext x
      rw [Expansion.map, Node.mapList_id]
      rfl
    rw [hid, Option.map_id]
    rfl

end Accords

namespace Follows

variable {R : FnState → FnState → Prop} (hR : Follows R) {s s' : FnState} (h : R s s')
  (ctx : FnContext)

include hR

include h in
theorem emitSilent (r : Resolver) (span : Span) (i : Instruction) :
    R (s.emitSilent r span i) (s'.emitSilent r span i) := by
  unfold FnState.emitSilent
  split
  · exact hR.report h _ _
  · rename_i code hcode
    exact hR.line h (l := .instr i code) ⟨r, hcode⟩

include h in
theorem emitAround (is : List Instruction) : R (ctx.emitAround is s) (ctx.emitAround is s') :=
  foldl (R := R) (fun h i => hR.emitSilent h _ _ i) is h

include h in
theorem lowerRet (i : Instruction) : R (ctx.lowerRet i s) (ctx.lowerRet i s') := by
  have hcheck := (hR.isKept ctx.resolver).check (hR.count h) s.tracker.depth.returnError? i.span
  have herror : s'.tracker.depth.returnError? = s.tracker.depth.returnError? := by
    rw [hR.tracker h]
  have hemit {s s' : FnState} (h : R s s') (i : Instruction) :
      R (s.emit ctx.resolver i) (s'.emit ctx.resolver i) :=
    hR.emit_of_line h fun code hcode => hR.line h (l := .instr i code) ⟨_, hcode⟩
  unfold FnContext.lowerRet
  rw [herror]
  cases ctx.epilogue with
  | none => exact hemit hcheck i
  | some label =>
    dsimp only
    split
    · exact hemit (hR.emitAround hcheck ctx _) i
    · exact hemit hcheck _

include h in
theorem finish (d : FuncDecl) : R (d.finish ctx s) (d.finish ctx s') := by
  have hcheck : R (if s.tracker.live then s.check (s.tracker.depth.endError? d.name) d.span else s)
      (if s.tracker.live then s'.check (s.tracker.depth.endError? d.name) d.span else s') := by
    split
    · exact (hR.isKept ctx.resolver).check h _ _
    · exact h
  unfold FuncDecl.finish
  rw [hR.tracker h]
  cases ctx.epilogue with
  | none => exact hR.emitAround hcheck ctx _
  | some label => exact hR.emitAround (hR.placeLabel hcheck label d.span) ctx _

/-- Two runs of one body that start alike stay alike. -/
theorem keeps : (ofRelation R).Keeps (fun _ => True) ctx ctx :=
  hR.keeps_of_returns ctx _ _ (fun i _ _ h => hR.lowerRet h ctx i) (fun _ _ => trivial)
    fun _ _ _ _ _ => trivial

end Follows

/-- What each step keeps, all states of a run have. -/
theorem follows_of_invariant {I : FnState → Prop} (hnote : ∀ {s} e, I s → I (s.note e))
    (hline : ∀ {s : FnState} {l : Line}, l.IsAssembled → I s → I { s with lines := s.lines ++ [l] })
    (hsame : ∀ {s : FnState} t us n ds, I s →
      I { s with tracker := t, userLabels := us, returns := n, issues := ds })
    (hcounter : ∀ {s : FnState} {n}, s.counter ≤ n → I s → I { s with counter := n })
    (hexhaust : ∀ {s : FnState}, I s → I { s with exhausted := true }) :
    Follows fun s s' => s' = s ∧ I s where
  tracker h := by rw [h.1]
  counter h := by rw [h.1]
  userLabels h := by rw [h.1]
  exhausted h := by rw [h.1]
  labels h _ := by rw [h.1]
  note h e := ⟨by rw [h.1], hnote e h.2⟩
  line h _ hl := ⟨by rw [h.1], hline hl h.2⟩
  issue h _ := ⟨by rw [h.1], hsame _ _ _ _ h.2⟩
  count h := ⟨by rw [h.1], hsame _ _ _ _ h.2⟩
  track h _ := ⟨by rw [h.1], hsame _ _ _ _ h.2⟩
  define h _ := ⟨by rw [h.1], hsame _ _ _ _ h.2⟩
  renumber h _ hn := ⟨by rw [h.1], hcounter hn h.2⟩
  exhaust h := ⟨by rw [h.1], hexhaust h.2⟩

end Comparison

end Z80Backend
