import Z80Backend.Function.Statement
import Z80Backend.Proofs.Control.Stream

/-! # Structured code

    The bodies that are built from plain instructions and the words of
    structured control, as trees.  `Code.stmts` writes a tree as the flat
    stream of statements that is lowered, and `Code.Exec` says what running
    it means, without labels or jumps:

    * `if` runs its first arm when the condition holds, and otherwise the
      second, if there is one;
    * `while` tests before each turn and `until` after each turn;
    * `select` runs the first case that has the value of the accumulator among
      its values, or else the last arm, if there is one;
    * a return ends all of it. -/

namespace Z80Backend

/-- The two kinds of trees. -/
inductive Part where
  | body
  /-- What stands between `select` and its `end`. -/
  | arms
  deriving DecidableEq, Repr

/-- Structured code, with the position of each word. -/
inductive Code : Part → Type where
  | skip : Code .body
  | instr (i : Instruction) : Code .body
  | seq (c d : Code .body) : Code .body
  | ifThen (cond : String) (span : Span) (c : Code .body) (endSpan : Span) : Code .body
  | ifElse (cond : String) (span : Span) (c : Code .body) (elseSpan : Span) (d : Code .body)
      (endSpan : Span) : Code .body
  | whileDo (cond : String) (span : Span) (c : Code .body) (endSpan : Span) : Code .body
  | repeatUntil (span : Span) (c : Code .body) (cond : String) (untilSpan : Span) : Code .body
  | select (selector : Operand) (span : Span) (arms : Code .arms) (endSpan : Span) : Code .body
  /-- No more arms. -/
  | stop : Code .arms
  | otherwise (span : Span) (c : Code .body) : Code .arms
  | case (values : List Expr) (span : Span) (c : Code .body) (rest : Code .arms) : Code .arms

namespace Code

/-- The statements of structured code. -/
def stmts : {p : Part} → Code p → List Stmt
  | _, skip => []
  | _, instr i => [.instr i]
  | _, seq c d => c.stmts ++ d.stmts
  | _, ifThen cond span c endSpan => .ifOpen cond false span :: c.stmts ++ [.endBlock endSpan]
  | _, ifElse cond span c elseSpan d endSpan =>
    .ifOpen cond false span :: c.stmts ++ .elseArm elseSpan :: d.stmts ++ [.endBlock endSpan]
  | _, whileDo cond span c endSpan =>
    .whileOpen cond false span :: c.stmts ++ [.endBlock endSpan]
  | _, repeatUntil span c cond untilSpan =>
    .repeatOpen false span :: c.stmts ++ [.untilClose cond untilSpan]
  | _, select selector span arms endSpan =>
    .selectOpen selector false span :: arms.stmts ++ [.endBlock endSpan]
  | _, stop => []
  | _, otherwise span c => .elseArm span :: c.stmts
  | _, case values span c rest => .caseArm values span :: c.stmts ++ rest.stmts

theorem stmts_case_append (values : List Expr) (span : Span) (c : Code .body) (rest : Code .arms)
    (ss : List Stmt) :
    (case values span c rest).stmts ++ ss =
      .caseArm values span :: (c.stmts ++ (rest.stmts ++ ss)) := by
  simp [stmts]

/-- The instruction that loads a selector into the accumulator. -/
def loadInstr (selector : Operand) (span : Span) : Instruction :=
  { head := "ld", operands := [.ofReg "a", selector], span }

/-- The code that brings a selector into the accumulator. -/
def load (selector : Operand) (span : Span) : Code .body :=
  if selector.isReg "a" then skip else instr (loadInstr selector span)

end Code

/-! ## Well-formed code -/

/-- An instruction that stands for itself: no op call, no jump, no return
    from an interrupt, no typed storage, and accepted by the assembler. -/
structure FnContext.IsBasic (ctx : FnContext) (i : Instruction) : Prop where
  isOp : ctx.ops.isOp (Text.lower i.head) = false
  head : Text.lower i.head ∉ ["jp", "jr", "djnz", "reti", "retn"]
  untyped : ∀ o ∈ i.operands, o.typedPlace? ctx.scope = none
  accepted : ∃ code, assemble ctx.resolver i = .ok code

/-- Code of basic instructions, with selectors that are present and not typed
    storage. -/
def Code.WellFormed (ctx : FnContext) : {p : Part} → Code p → Prop
  | _, .skip | _, .stop => True
  | _, .instr i => ctx.IsBasic i
  | _, .seq c d => c.WellFormed ctx ∧ d.WellFormed ctx
  | _, .ifThen cond _ c _ => (Condition.ofWord? cond).isSome ∧ c.WellFormed ctx
  | _, .ifElse cond _ c _ d _ =>
    (Condition.ofWord? cond).isSome ∧ c.WellFormed ctx ∧ d.WellFormed ctx
  | _, .whileDo cond _ c _ => (Condition.ofWord? cond).isSome ∧ c.WellFormed ctx
  | _, .repeatUntil _ c cond _ => (Condition.ofWord? cond).isSome ∧ c.WellFormed ctx
  | _, .select selector _ arms _ =>
    selector ≠ .missing ∧ selector.typedPlace? ctx.scope = none ∧ ctx.ops.isOp "ld" = false ∧
      arms.WellFormed ctx
  | _, .otherwise _ c => c.WellFormed ctx
  | _, .case _ _ c rest => c.WellFormed ctx ∧ rest.WellFormed ctx

/-! ## Meaning -/

/-- The byte that an expression stands for. -/
def Expr.byte? (r : Resolver) (e : Expr) : Option UInt8 :=
  match e.eval r with
  | .ok n => some (UInt8.ofInt n.toInt)
  | .error _ => none

/-- The values of a case. -/
def caseBytes (r : Resolver) (es : List Expr) : List UInt8 := es.filterMap (·.byte? r)

namespace Machine

variable {σ : Type} (M : Machine σ)

/-- What an instruction that is not a jump does. -/
def effect (code : MachineInstr) (s : σ) : Option (Outcome σ) :=
  match code.flow with
  | .step i => some (.fell (M.exec i s))
  | .ret => some (.returned s)
  | .retIf cc => some (if cc.holds (M.flags s) then .returned s else .fell s)
  | _ => none

/-- The state after the accumulator was compared with the values in turn, up
    to the first that it equals. -/
def compared : List UInt8 → σ → σ
  | [], s => s
  | v :: vs, s =>
    let s' := M.exec (.aluImm .cp v) s
    if M.acc s = v then s' else compared vs s'

end Machine

namespace Code

variable {σ : Type}

/-- `c.Exec M r s o`: the code, started in state `s`, ends as `o` says. -/
inductive Exec (M : Machine σ) (r : Resolver) : {p : Part} → Code p → σ → Outcome σ → Prop where
  | skip {s} : Exec M r .skip s (.fell s)
  | instr {i code s o} (hcode : assemble r i = .ok code) (ho : M.effect code s = some o) :
      Exec M r (.instr i) s o
  | seq {c d s s' o} (hc : Exec M r c s (.fell s')) (hd : Exec M r d s' o) :
      Exec M r (.seq c d) s o
  | seqReturn {c d s s'} (hc : Exec M r c s (.returned s')) :
      Exec M r (.seq c d) s (.returned s')
  | ifThen {cond span c endSpan cc s o} (hcond : Condition.ofWord? cond = some cc)
      (htest : cc.holds (M.flags s) = true) (hc : Exec M r c s o) :
      Exec M r (.ifThen cond span c endSpan) s o
  | ifSkip {cond span c endSpan cc s} (hcond : Condition.ofWord? cond = some cc)
      (htest : cc.holds (M.flags s) = false) :
      Exec M r (.ifThen cond span c endSpan) s (.fell s)
  | ifFirst {cond span c elseSpan d endSpan cc s o} (hcond : Condition.ofWord? cond = some cc)
      (htest : cc.holds (M.flags s) = true) (hc : Exec M r c s o) :
      Exec M r (.ifElse cond span c elseSpan d endSpan) s o
  | ifSecond {cond span c elseSpan d endSpan cc s o} (hcond : Condition.ofWord? cond = some cc)
      (htest : cc.holds (M.flags s) = false) (hd : Exec M r d s o) :
      Exec M r (.ifElse cond span c elseSpan d endSpan) s o
  | whileStop {cond span c endSpan cc s} (hcond : Condition.ofWord? cond = some cc)
      (htest : cc.holds (M.flags s) = false) :
      Exec M r (.whileDo cond span c endSpan) s (.fell s)
  | whileTurn {cond span c endSpan cc s s' o} (hcond : Condition.ofWord? cond = some cc)
      (htest : cc.holds (M.flags s) = true) (hc : Exec M r c s (.fell s'))
      (hrest : Exec M r (.whileDo cond span c endSpan) s' o) :
      Exec M r (.whileDo cond span c endSpan) s o
  | whileReturn {cond span c endSpan cc s s'} (hcond : Condition.ofWord? cond = some cc)
      (htest : cc.holds (M.flags s) = true) (hc : Exec M r c s (.returned s')) :
      Exec M r (.whileDo cond span c endSpan) s (.returned s')
  | repeatStop {span c cond untilSpan cc s s'} (hcond : Condition.ofWord? cond = some cc)
      (hc : Exec M r c s (.fell s')) (htest : cc.holds (M.flags s') = true) :
      Exec M r (.repeatUntil span c cond untilSpan) s (.fell s')
  | repeatTurn {span c cond untilSpan cc s s' o} (hcond : Condition.ofWord? cond = some cc)
      (hc : Exec M r c s (.fell s')) (htest : cc.holds (M.flags s') = false)
      (hrest : Exec M r (.repeatUntil span c cond untilSpan) s' o) :
      Exec M r (.repeatUntil span c cond untilSpan) s o
  | repeatReturn {span c cond untilSpan s s'} (hc : Exec M r c s (.returned s')) :
      Exec M r (.repeatUntil span c cond untilSpan) s (.returned s')
  | select {selector span arms endSpan s s' o}
      (hload : Exec M r (load selector span) s (.fell s')) (harms : Exec M r arms s' o) :
      Exec M r (.select selector span arms endSpan) s o
  | stop {s} : Exec M r .stop s (.fell s)
  | otherwise {span c s o} (hc : Exec M r c s o) : Exec M r (.otherwise span c) s o
  | case {es span c rest s o} (hmem : M.acc s ∈ caseBytes r es)
      (hc : Exec M r c (M.compared (caseBytes r es) s) o) :
      Exec M r (.case es span c rest) s o
  | caseNext {es span c rest s o} (hmem : M.acc s ∉ caseBytes r es)
      (hrest : Exec M r rest (M.compared (caseBytes r es) s) o) :
      Exec M r (.case es span c rest) s o

namespace Exec

variable {M : Machine σ} {r : Resolver} {c : Code .body} {cond : String} {span last : Span}
  {cc : Condition} {s : σ} {o : Outcome σ} {motive : σ → Outcome σ → Prop}

/-- What holds where a `while` stops, and is kept by the turns before, holds of
    the whole loop. -/
theorem while_induct (h : Exec M r (.whileDo cond span c last) s o)
    (hcond : Condition.ofWord? cond = some cc)
    (hstop : ∀ s, cc.holds (M.flags s) = false → motive s (.fell s))
    (hturn : ∀ s s' o, cc.holds (M.flags s) = true → Exec M r c s (.fell s') → motive s' o →
      motive s o)
    (hreturn : ∀ s s', cc.holds (M.flags s) = true → Exec M r c s (.returned s') →
      motive s (.returned s')) : motive s o := by
  have key : ∀ {p : Part} {w : Code p} {s o}, Exec M r w s o →
      (⟨p, w⟩ : Sigma Code) = ⟨.body, .whileDo cond span c last⟩ → motive s o := by
    intro p w s o h hw
    induction h with
    | whileStop hcond' htest =>
      cases hw
      rw [hcond] at hcond'
      cases hcond'
      exact hstop _ htest
    | whileTurn hcond' htest hc hrest _ ih =>
      cases hw
      rw [hcond] at hcond'
      cases hcond'
      exact hturn _ _ _ htest hc (ih rfl)
    | whileReturn hcond' htest hc =>
      cases hw
      rw [hcond] at hcond'
      cases hcond'
      exact hreturn _ _ htest hc
    | _ => cases hw
  exact key h rfl

/-- What holds where an `until` stops, and is kept by the turns before, holds of
    the whole loop. -/
theorem repeat_induct (h : Exec M r (.repeatUntil span c cond last) s o)
    (hcond : Condition.ofWord? cond = some cc)
    (hstop : ∀ s s', Exec M r c s (.fell s') → cc.holds (M.flags s') = true →
      motive s (.fell s'))
    (hturn : ∀ s s' o, Exec M r c s (.fell s') → cc.holds (M.flags s') = false → motive s' o →
      motive s o)
    (hreturn : ∀ s s', Exec M r c s (.returned s') → motive s (.returned s')) : motive s o := by
  have key : ∀ {p : Part} {w : Code p} {s o}, Exec M r w s o →
      (⟨p, w⟩ : Sigma Code) = ⟨.body, .repeatUntil span c cond last⟩ → motive s o := by
    intro p w s o h hw
    induction h with
    | repeatStop hcond' hc htest =>
      cases hw
      rw [hcond] at hcond'
      cases hcond'
      exact hstop _ _ hc htest
    | repeatTurn hcond' hc htest hrest _ ih =>
      cases hw
      rw [hcond] at hcond'
      cases hcond'
      exact hturn _ _ _ hc htest (ih rfl)
    | repeatReturn hc =>
      cases hw
      exact hreturn _ _ hc
    | _ => cases hw
  exact key h rfl

end Exec

end Code

end Z80Backend
