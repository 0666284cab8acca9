import Z80Backend.Proofs.Call.Parts
import Z80Backend.Proofs.Spelling.Lowering

/-! # What a function saves

    A function saves the registers that it does not return.  One that saves none
    returns where the body says so; any other goes to its exit, where `ret` stands
    for a jump, or undoes its beginning in place.

    * `Line.Exchanged`: two bodies that differ in their returns only.
    * `FuncDecl.lower_exchanged`: two functions with the same body and different returns
      are accepted or not for the same reasons, treat the stack in the same way,
      and differ in the code around the body and at the returns.
    * `FuncDecl.exchanged_of_preserved`: the two may start from one label number if
      both have an exit, or neither has. -/

namespace Z80Backend

/-! ## Returns as jumps -/

/-- The jump to a label that stands for a return. -/
def Instruction.jumpTo (label : String) (i : Instruction) : Instruction :=
  { head := "jp", operands := i.operands ++ [.ofName label], span := i.span }

/-- Its machine code. -/
def MachineInstr.jumpTo (label : String) : MachineInstr → MachineInstr
  | retIf cc => jpIf cc (.symbol label 0)
  | _ => jp (.symbol label 0)

section

variable {r : Resolver} {i : Instruction} {e name : String} {span : Span} {cc : Condition}

/-- A `ret` with one operand at most is read as a return just when the jump with
    this operand is read as a jump, and under the same condition. -/
theorem assemble_jumpTo (hhead : Text.lower i.head = "ret") (hos : i.operands.length ≤ 1)
    (he : e ≠ "") (hvalue : r.value? e = none) :
    (assemble r (i.jumpTo e)).toOption = (assemble r i).toOption.map (MachineInstr.jumpTo e) := by
  have hjp : Mnemonic.ofName? (Text.lower "jp") = some .jp := by decide
  have hret : Mnemonic.ofName? "ret" = some .ret := by decide
  have hname : ∀ head, Arg.ofOperand r head (.ofName e) = .ok (.imm { symbol := e } (.name e)) := by
    intro head
    simp [Operand.ofName, Arg.ofOperand, Expr.evalSymbolic, Expr.eval, hvalue]
  have hword : ∀ head f, Selection.withWord head { symbol := e } f = .found (f (.symbol e 0)) := by
    intro head f
    simp [Selection.withWord, Value.isConst, he]
  unfold Instruction.jumpTo
  rcases hoperands : i.operands with _ | ⟨o, _ | _⟩
  · have hcode : assemble r i = .ok .ret := by
      simp only [assemble, hhead, hret, hoperands, Arg.ofOperands]
      rfl
    rw [hcode]
    simp only [assemble, hjp, List.nil_append, Arg.ofOperands, hname, Selection.ofMnemonic,
      Selection.jp, hword]
    rfl
  · cases hcode : assemble r i with
    | ok code =>
      rcases assemble_ret hhead hcode with ⟨hnil, -⟩ | ⟨name, span, cc, hos, hcc, rfl⟩
      · rw [hnil] at hoperands
        cases hoperands
      · rw [hos] at hoperands
        cases hoperands
        simp only [assemble, hjp, List.singleton_append, Arg.ofOperands, Arg.ofOperand.eq_1, hname,
          Selection.ofMnemonic, Selection.jp, hcc, hword]
        rfl
    | error err =>
      cases hjump : assemble r { head := "jp", operands := [o] ++ [.ofName e], span := i.span } with
      | error err' => rfl
      | ok code =>
        -- a condition of the jump is one of the return
        obtain ⟨cc, a, rfl, ha, hcc⟩ := assemble_branch hjump
        obtain ⟨hother, hform⟩ := Selection.form_of_condition hcc
        obtain ⟨name, span, rfl, -⟩ := Operand.form_eq_reg
          (((Arg.form_ofOperand ha).resolve_left hother).symm.trans hform)
        cases ha
        simp only [assemble, hhead, hret, hoperands, Arg.ofOperands, Arg.ofOperand,
          Selection.ofMnemonic, Selection.ret, hcc, Option.map_some] at hcode
        cases hcode
  · simp [hoperands] at hos

/-- The jump does to the stack and to the flow what the return does. -/
theorem Tracker.apply_jumpTo (hhead : Text.lower i.head = "ret") (hos : i.operands.length ≤ 1)
    (t : Tracker) : t.apply (i.jumpTo e) = t.apply i := by
  have hjp : Text.lower "jp" = "jp" := by decide
  match hoperands : i.operands, hos with
  | [], _ => simp [apply, StackEffect.of, Instruction.jumpTo, hjp, hhead, hoperands]
  | [o], _ => simp [apply, StackEffect.of, Instruction.jumpTo, hjp, hhead, hoperands]

end

/-! ## The lines of a return -/

/-- The line of a jump that stands for a return. -/
def Line.jumpTo (label : String) : Line → Line
  | instr i code => instr (i.jumpTo label) (code.jumpTo label)
  | l => l

namespace FnContext

/-- The lines of a return.  If it has no code, what stands before it stays. -/
def returnLines (ctx : FnContext) (i : Instruction) : List Line :=
  match ctx.epilogue with
  | none => ctx.linesOf [i]
  | some label =>
    if Text.lower i.head = "ret" then (ctx.linesOf [i]).map (Line.jumpTo label)
    else ctx.linesOf (ctx.cleanup ++ [i])

/-- The lines behind the body. -/
def exitLines (ctx : FnContext) : List Line :=
  ctx.epilogue.toList.map (Line.label · ctx.span) ++ ctx.linesOf (ctx.cleanup ++ [.of "ret" []])

variable {ctx : FnContext} {i : Instruction}

@[simp] theorem hasLabel_linesOf (name : String) (is : List Instruction) :
    Line.hasLabel name (ctx.linesOf is) = false := by
  rw [Line.hasLabel, List.any_eq_false]
  intro l hl
  obtain ⟨i, -, hi⟩ := List.mem_filterMap.mp hl
  obtain ⟨code, -, rfl⟩ := Option.map_eq_some_iff.mp hi
  simp

@[simp] theorem hasLabel_returnLines (name : String) (i : Instruction) :
    Line.hasLabel name (ctx.returnLines i) = false := by
  unfold returnLines
  split
  · exact hasLabel_linesOf name _
  split
  · cases hcode : assemble ctx.resolver i with
    | ok code => simp [linesOf_ok hcode, Line.jumpTo, Line.hasLabel]
    | error e => simp [linesOf_error hcode, Line.hasLabel]
  · exact hasLabel_linesOf name _

/-- No constant has the name of the exit. -/
def HasExit (ctx : FnContext) : Prop :=
  ∀ e, ctx.epilogue = some e → e ≠ "" ∧ ctx.resolver.value? e = none

/-- What a return adds: its lines, or a report. -/
def Returned (ctx : FnContext) (i : Instruction) (s s' : FnState) : Prop :=
  match assemble ctx.resolver i with
  | .ok _ => s' = { s with lines := s.lines ++ ctx.returnLines i, tracker := s.tracker.apply i }
  | .error _ => ∃ e, s' = { s with lines := s.lines ++ ctx.returnLines i }.report (.encode e) i.span

/-- A return at its place, with what stands before it. -/
theorem returned_emit {front : List Line} (s : FnState)
    (hlines : ctx.returnLines i = front ++ ctx.linesOf [i]) :
    ctx.Returned i s ({ s with lines := s.lines ++ front }.emit ctx.resolver i) := by
  unfold Returned FnState.emit
  rw [hlines]
  cases hcode : assemble ctx.resolver i with
  | ok code => simp [linesOf_ok hcode]
  | error e => exact ⟨e, by simp [linesOf_error hcode]⟩

theorem returned_jump {label : String} (hexit : ctx.epilogue = some label) (hlabel : label ≠ "")
    (hvalue : ctx.resolver.value? label = none) (hret : Text.lower i.head = "ret")
    (hos : i.operands.length ≤ 1) (s : FnState) :
    ctx.Returned i s (s.emit ctx.resolver (i.jumpTo label)) := by
  have hjump := assemble_jumpTo hret hos hlabel hvalue
  have hlines : ctx.returnLines i = (ctx.linesOf [i]).map (Line.jumpTo label) := by
    simp [returnLines, hexit, hret]
  unfold Returned FnState.emit
  rw [hlines]
  cases hcode : assemble ctx.resolver i <;>
    cases hcode' : assemble ctx.resolver (i.jumpTo label) <;> rw [hcode, hcode'] at hjump
  · exact ⟨_, by simp [linesOf_error hcode, Instruction.jumpTo]; rfl⟩
  · cases hjump
  · cases hjump
  · cases hjump
    simp [linesOf_ok hcode, Line.jumpTo, Tracker.apply_jumpTo hret hos]

/-- A return adds its lines or a report, whatever the way it takes. -/
theorem returned_lowerRet (hexit : ctx.HasExit)
    (hos : Text.lower i.head = "ret" → i.operands.length ≤ 1) (s : FnState) :
    ctx.Returned i ({ s with returns := s.returns + 1 }.check s.tracker.depth.returnError? i.span)
      (ctx.lowerRet i s) := by
  unfold lowerRet
  dsimp only
  generalize { s with returns := s.returns + 1 }.check s.tracker.depth.returnError? i.span = s'
  cases he : ctx.epilogue with
  | none =>
    have hlines : ctx.returnLines i = [] ++ ctx.linesOf [i] := by rw [returnLines, he]; rfl
    simpa using returned_emit s' hlines
  | some label =>
    dsimp only
    split
    · -- `reti` and `retn` have no jump to stand for them
      rename_i hret
      rw [ctx.assembles_cleanup.emitAround]
      refine returned_emit s' ?_
      rw [returnLines, he]
      simp [hret, linesOf]
    · rename_i hret
      have hret : Text.lower i.head = "ret" := Decidable.not_not.mp hret
      rw [List.take_of_length_le (hos hret)]
      exact returned_jump he (hexit label he).1 (hexit label he).2 hret (hos hret) s'

end FnContext

/-! ## Two bodies -/

/-- The lines of two functions up to the end of their bodies: each begins in its
    own way, and returns are replaced. -/
inductive Line.Exchanged (c c' : FnContext) : List Line → List Line → Prop where
  | entry : Exchanged c c' (c.linesOf (c.prologue [])) (c'.linesOf (c'.prologue []))
  | line {ls ls' l} (h : Exchanged c c' ls ls') (hl : l.IsPlain) :
      Exchanged c c' (ls ++ [l]) (ls' ++ [l])
  | ret {ls ls' i} (h : Exchanged c c' ls ls') (hi : i.IsReturn) :
      Exchanged c c' (ls ++ c.returnLines i) (ls' ++ c'.returnLines i)

/-- The states of two functions that differ in what they save. -/
structure FnState.Exchanged (c c' : FnContext) (s s' : FnState) : Prop where
  lines : Line.Exchanged c c' s.lines s'.lines
  reports : s'.journal.outlines = s.journal.outlines
  same : s' = { s with lines := s'.lines, journal := s'.journal }

section

variable {c c' : FnContext}

theorem Line.Exchanged.hasLabel {ls ls' : List Line} (h : Line.Exchanged c c' ls ls')
    (name : String) : Line.hasLabel name ls' = Line.hasLabel name ls := by
  induction h with
  | entry => simp
  | line _ _ ih => simp [ih]
  | ret _ _ ih => simp [ih]

namespace FnState.Exchanged

variable {s s' : FnState}

theorem accords : Comparison.Accords (FnState.Exchanged c c') where
  tracker h := by rw [h.same]
  counter h := by rw [h.same]
  userLabels h := by rw [h.same]
  exhausted h := by rw [h.same]
  labels h := h.lines.hasLabel
  note h e := ⟨h.lines, by simp [note, h.reports], by rw [h.same]; rfl⟩
  plain h _ hl := ⟨h.lines.line hl, h.reports, by rw [h.same]⟩
  issue h _ := ⟨h.lines, h.reports, by rw [h.same]⟩
  track h _ := ⟨h.lines, h.reports, by rw [h.same]⟩
  define h _ := ⟨h.lines, h.reports, by rw [h.same]⟩
  renumber h _ _ := ⟨h.lines, h.reports, by rw [h.same]⟩
  exhaust h := ⟨h.lines, h.reports, by rw [h.same]⟩

theorem returned {i : Instruction} {t t' : FnState} (h : s.Exchanged c c' s')
    (hr : c'.resolver = c.resolver) (hi : i.IsReturn) (ht : c.Returned i s t)
    (ht' : c'.Returned i s' t') : t.Exchanged c c' t' := by
  unfold FnContext.Returned at ht ht'
  rw [hr] at ht'
  cases hcode : assemble c.resolver i with
  | ok code =>
    rw [hcode] at ht ht'
    rw [ht, ht']
    exact ⟨h.lines.ret hi, h.reports, by rw [h.same]⟩
  | error e =>
    rw [hcode] at ht ht'
    obtain ⟨err, rfl⟩ := ht
    obtain ⟨err', rfl⟩ := ht'
    refine ⟨h.lines.ret hi, ?_, by rw [h.same]; rfl⟩
    simp only [report, note, Journal.outlines_append, h.reports]
    rfl

/-- A return keeps the states alike. -/
theorem lowerRet {i : Instruction} (h : s.Exchanged c c' s') (hr : c'.resolver = c.resolver)
    (hexit : c.HasExit) (hexit' : c'.HasExit) (hi : i.IsReturn)
    (hos : Text.lower i.head = "ret" → i.operands.length ≤ 1) :
    (c.lowerRet i s).Exchanged c c' (c'.lowerRet i s') := by
  have hcount : { s with returns := s.returns + 1 }.Exchanged c c'
      { s' with returns := s'.returns + 1 } := ⟨h.lines, h.reports, by rw [h.same]⟩
  have herror : s'.tracker.depth.returnError? = s.tracker.depth.returnError? := by
    rw [accords.tracker h]
  have hret' := FnContext.returned_lowerRet hexit' hos s'
  rw [herror] at hret'
  exact returned ((accords.isKept c.resolver).check hcount _ i.span) hr hi
    (FnContext.returned_lowerRet hexit hos s) hret'

end FnState.Exchanged

end

/-- A `ret` has no operand but its condition. -/
def Stmt.ReturnsPlainly : Stmt → Prop
  | instr i => Text.lower i.head = "ret" → i.operands.length ≤ 1
  | _ => True

theorem Stmt.ReturnsPlainly.stmt {st : Stmt} (h : st.ReturnsPlainly) (x : Instance) :
    (x.stmt st).ReturnsPlainly := by
  cases st with
  | instr i => simpa [Instance.stmt, Instance.instruction, ReturnsPlainly] using h
  | _ => exact trivial

/-! ## Two functions -/

namespace FuncDecl

/-- The function has no frame and returns values in registers that exist. -/
structure IsBare (d : FuncDecl) : Prop where
  params : d.params = []
  locals : d.locals = []
  returns : ∀ reg ∈ d.returns, savedRegs.any (·.text == Text.lower reg) = true

/-- Two functions are accepted or not for the same reasons, treat the stack in the
    same way, and differ in the code around the body and at the returns. -/
structure Exchanged (c c' : FnContext) (x x' : Chunk × StackSummary × FnState) : Prop where
  clean : x'.2.2.Clean ↔ x.2.2.Clean
  reports : x'.2.2.journal.outlines = x.2.2.journal.outlines
  summary : x'.2.1 = x.2.1
  chunk : ∃ ls ls', Line.Exchanged c c' ls ls' ∧ x.1.lines = ls ++ c.exitLines ∧
    x'.1 = { x.1 with lines := ls' ++ c'.exitLines }

variable {d : FuncDecl} {r : Resolver} {decls : Declarations} {n : Int}

/-- The beginning of a function without a frame.  An exit takes a label number. -/
theorem IsBare.entry_eq (h : d.IsBare) (hvalue : ∀ k, r.value? (Label.make "epilogue" k) = none)
    (decls : Declarations) (n : Int) : ∃ c m, d.entry r decls n =
        (c, { lines := c.linesOf (c.prologue []), counter := m }) ∧ c.HasExit ∧
      c = d.context r decls [] c.epilogue ∧ m = if d.preserved = [] then n else n + 1 := by
  have hslots : d.slots = [] := by simp [slots, h.params, h.locals]
  have hframe : d.hasFrame = false := by simp [hasFrame, h.params, h.locals]
  have hreturns : d.checkReturns { counter := n } = { counter := n } := by
    have hall := h.returns
    unfold checkReturns
    generalize d.returns = regs at hall ⊢
    induction regs with
    | nil => rfl
    | cons reg regs ih =>
      obtain ⟨hreg, hregs⟩ := List.forall_mem_cons.mp hall
      rw [List.foldl_cons, if_pos hreg]
      exact ih hregs
  have hcode := fun exit => (d.context r decls [] exit).assembles_linesOf
    ((d.context r decls [] exit).hasCode_prologue (List.forall_mem_nil _))
  unfold entry
  dsimp only
  rw [hslots, layoutSlots, hreturns, h.locals]
  split
  · rename_i hsaves
    refine ⟨_, _, congrArg _ ((hcode _).emitAround _), fun e he => ?_, rfl, ?_⟩
    · cases he
      exact ⟨by simp [FnState.freshLabel, Label.make], hvalue _⟩
    · rw [if_neg (by simpa [hframe] using hsaves)]
      rfl
  · rename_i hsaves
    refine ⟨_, _, congrArg _ ((hcode _).emitAround _), fun e he => ?_, rfl, ?_⟩
    · cases he
    · rw [if_pos (by simpa [hframe] using hsaves)]

/-- What the end of a function adds. -/
theorem finish_eq {ctx : FnContext} (hspan : ctx.span = d.span) (s : FnState) :
    d.finish ctx s =
      let t := if s.tracker.live then s.check (s.tracker.depth.endError? d.name) d.span else s
      { t with lines := t.lines ++ ctx.exitLines } := by
  unfold finish FnContext.exitLines
  dsimp only
  rw [ctx.assembles_end.emitAround]
  cases ctx.epilogue with
  | none => rfl
  | some label => simp [FnState.placeLabel, hspan]

variable {n' : Int} {regs : List String}

/-- Bodies that are alike make functions that are. -/
theorem exchanged_ending {c c' : FnContext} (hc : c.span = d.span) (hc' : c'.span = d.span)
    {s s' : FnState} (h : s.Exchanged c c' s') :
    Exchanged c c' (d.ending c s) ({ d with returns := regs }.ending c' s') := by
  have htracker := FnState.Exchanged.accords.tracker h
  have hcheck : (if s.tracker.live then s.check (s.tracker.depth.endError? d.name) d.span
      else s).Exchanged c c'
      (if s'.tracker.live then s'.check (s'.tracker.depth.endError? d.name) d.span else s') := by
    rw [htracker]
    split
    · exact (FnState.Exchanged.accords.isKept .empty).check h _ _
    · exact h
  have hevent : ∀ size saved frame issues, Journal.outlines
      [.loweredFunction d.name size saved frame issues] = [] := fun _ _ _ _ => rfl
  have hfinish := finish_eq hc s
  have hfinish' := finish_eq (d := { d with returns := regs }) hc' s'
  have hreports : ({ d with returns := regs }.ending c' s').2.2.journal.outlines =
      (d.ending c s).2.2.journal.outlines := by
    dsimp only [ending, FnState.note]
    rw [Journal.outlines_append, Journal.outlines_append, hevent, hevent, hfinish, hfinish']
    exact congrArg (· ++ []) hcheck.reports
  refine ⟨?_, hreports, ?_, _, _, hcheck.lines, congrArg FnState.lines hfinish, ?_⟩
  · rw [FnState.Clean, FnState.Clean, ← List.map_eq_nil_iff (f := Diagnostic.outline),
      ← List.map_eq_nil_iff (f := Diagnostic.outline)]
    exact iff_of_eq (congrArg (· = []) hreports)
  · have hreturns := congrArg FnState.returns hcheck.same
    have hissues := congrArg FnState.issues hcheck.same
    dsimp only [ending, summary, FnState.note]
    rw [hfinish, hfinish']
    dsimp only at hreturns hissues ⊢
    rw [hreturns, hissues, htracker]
  · dsimp only [ending]
    rw [hfinish']

/-- Two functions whose bodies start with the same label number. -/
theorem exchanged_of_entries {c c' : FnContext} {m : Int}
    (hentry : d.entry r decls n = (c, { lines := c.linesOf (c.prologue []), counter := m }))
    (hentry' : { d with returns := regs }.entry r decls n' =
      (c', { lines := c'.linesOf (c'.prologue []), counter := m }))
    (hexit : c.HasExit) (hexit' : c'.HasExit) (hc : c = d.context r decls [] c.epilogue)
    (hc' : c' = { d with returns := regs }.context r decls [] c'.epilogue)
    (hbody : ∀ st ∈ d.body, st.ReturnsPlainly)
    (hops : ∀ o ∈ decls.ops, ∀ st ∈ o.body, st.ReturnsPlainly) :
    Exchanged (d.entry r decls n).1 ({ d with returns := regs }.entry r decls n').1
      (d.lower r decls { counter := n })
      ({ d with returns := regs }.lower r decls { counter := n' }) := by
  have hload : Text.lower "ld" ≠ "ret" := by decide
  -- the settings of the two bodies differ in the way out only
  have hleaving : c' = c.leaving { d with returns := regs }.preserved c'.epilogue := by
    rw [hc', hc]
    rfl
  have hkeeps := FnState.Exchanged.accords.keeps_of_returns (P := Stmt.ReturnsPlainly) c
    { d with returns := regs }.preserved c'.epilogue
    (fun i hi hos hs => hs.lowerRet rfl hexit (hleaving ▸ hexit') hi hos)
    (fun _ _ hhead => absurd hhead hload)
    (by rw [hc]; exact fun o ho st hst x => (hops o ho st hst).stmt x)
  rw [← hleaving] at hkeeps
  have hstart : FnState.Exchanged c c' { lines := c.linesOf (c.prologue []), counter := m }
      { lines := c'.linesOf (c'.prologue []), counter := m } := ⟨.entry, rfl, rfl⟩
  have hrun := hkeeps.lowerBody hstart d.body hbody
  rw [Comparison.stmt_ofRelation, List.map_id] at hrun
  rw [lower_eq_ending, lower_eq_ending, bodyEnd, bodyEnd, hentry, hentry']
  exact exchanged_ending (by rw [hc]; rfl) (by rw [hc']; rfl) hrun

/-- What a function saves changes how it begins and returns, and nothing else: for
    any two lists of registers to return, where the labels of the two bodies have
    the same numbers, no constant is named like an exit, and no `ret` has an operand
    but its condition. -/
theorem lower_exchanged (d : FuncDecl) (r : Resolver) (decls : Declarations) {n n' : Int}
    {regs : List String} (h : d.IsBare) (h' : { d with returns := regs }.IsBare)
    (hvalue : ∀ k, r.value? (Label.make "epilogue" k) = none)
    (hbody : ∀ st ∈ d.body, st.ReturnsPlainly)
    (hops : ∀ o ∈ decls.ops, ∀ st ∈ o.body, st.ReturnsPlainly)
    (hnumbers : (d.entry r decls n).2.counter =
      ({ d with returns := regs }.entry r decls n').2.counter) :
    Exchanged (d.entry r decls n).1 ({ d with returns := regs }.entry r decls n').1
      (d.lower r decls { counter := n })
      ({ d with returns := regs }.lower r decls { counter := n' }) := by
  obtain ⟨c, m, hentry, hexit, hc, -⟩ := h.entry_eq hvalue decls n
  obtain ⟨c', m', hentry', hexit', hc', -⟩ := h'.entry_eq hvalue decls n'
  have hm : (d.entry r decls n).2.counter = m := by rw [hentry]
  have hm' : ({ d with returns := regs }.entry r decls n').2.counter = m' := by rw [hentry']
  obtain rfl : m = m' := by rw [← hm, ← hm', hnumbers]
  exact exchanged_of_entries hentry hentry' hexit hexit' hc hc' hbody hops

/-- A function that returns in three ways, once in an arm. -/
def sentry : FuncDecl where
  name := "sentry"
  body := [.instr (.of "ret" [.ofReg "nz"]), .ifOpen "c" false {}, .instr (.of "retn" []),
    .endBlock {}, .instr (.of "ret" [])]

/-- It may save all registers or none. -/
theorem sentry_exchanged :
    let bare := { sentry with returns := ["af", "bc", "de", "hl"] }
    sentry.IsBare ∧ bare.IsBare ∧
      Exchanged (sentry.entry .empty {} 0).1 (bare.entry .empty {} 1).1
        (sentry.lower .empty {} { counter := 0 }) (bare.lower .empty {} { counter := 1 }) := by
  have hall : sentry.IsBare := ⟨rfl, rfl, List.forall_mem_nil _⟩
  have hbare : { sentry with returns := ["af", "bc", "de", "hl"] }.IsBare :=
    ⟨rfl, rfl, by decide +kernel⟩
  refine ⟨hall, hbare, lower_exchanged sentry .empty {} hall hbare (fun _ => rfl) ?_
    (List.forall_mem_nil _) (by decide +kernel)⟩
  simp [sentry, Stmt.ReturnsPlainly, Instruction.of]

/-- A return with an operand too many. -/
def stray : FuncDecl where
  name := "stray"
  body := [.instr (.of "ret" [.ofReg "nz", .ofReg "z"])]

/-- The jump to the exit drops this operand, so what is saved makes a difference. -/
theorem stray_accepted : (stray.lower .empty {} {}).2.2.Clean ∧
    ¬ ({ stray with returns := ["af", "bc", "de", "hl"] }.lower .empty {} {}).2.2.Clean := by
  unfold FnState.Clean
  decide +kernel

/-- Two functions that both save registers, or both save none, may start from one
    label number.  Of other two only one has an exit, and this takes a number. -/
theorem exchanged_of_preserved (d : FuncDecl) (r : Resolver) (decls : Declarations) (n : Int)
    {regs : List String} (h : d.IsBare) (h' : { d with returns := regs }.IsBare)
    (hvalue : ∀ k, r.value? (Label.make "epilogue" k) = none)
    (hbody : ∀ st ∈ d.body, st.ReturnsPlainly)
    (hops : ∀ o ∈ decls.ops, ∀ st ∈ o.body, st.ReturnsPlainly)
    (hsaves : d.preserved = [] ↔ { d with returns := regs }.preserved = []) :
    Exchanged (d.entry r decls n).1 ({ d with returns := regs }.entry r decls n).1
      (d.lower r decls { counter := n })
      ({ d with returns := regs }.lower r decls { counter := n }) := by
  obtain ⟨c, m, hentry, hexit, hc, hm⟩ := h.entry_eq hvalue decls n
  obtain ⟨c', m', hentry', hexit', hc', hm'⟩ := h'.entry_eq hvalue decls n
  obtain rfl : m = m' := by rw [hm, hm', if_congr hsaves rfl rfl]
  exact exchanged_of_entries hentry hentry' hexit hexit' hc hc' hbody hops

end FuncDecl

end Z80Backend
