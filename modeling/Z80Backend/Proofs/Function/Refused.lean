import Z80Backend.Proofs.Function.Journal
import Z80Backend.Proofs.Function.Outline

/-! # Instructions without an encoding

    An instruction that cannot be encoded is reported where it stands, and
    lowering goes on behind it.  The report is an entry of the journal and
    nothing else: no line is emitted, the tracked depth stays, no label number
    is used and no open block is touched.  Since lowering does not read the
    journal (`Proofs.Function.Journal`), all that follows is lowered as it would
    be without the instruction.

    * `FnContext.lowerInstr_of_error`: the step, one entry in the journal.
    * `FuncDecl.bodyEnd_insert`: the run, the same state but for that entry.
    * `FuncDecl.lower_refused`: the chunk, the summary and the diagnostics. -/

namespace Z80Backend

namespace FnContext

variable {ctx : FnContext} {i : Instruction} {e : EncodeError}

/-- The instruction is emitted as it stands: it is no op call and no return, and
    none of its operands is typed storage. -/
structure EmitsAsIs (ctx : FnContext) (i : Instruction) : Prop where
  op : ctx.ops.isOp (Text.lower i.head) = false
  ret : Text.lower i.head ∉ ["ret", "reti", "retn"]
  typed : ∀ o ∈ i.operands, o.typedPlace? ctx.scope = none

/-- The entry that reports an instruction without an encoding. -/
def refusal (i : Instruction) (e : EncodeError) : Event :=
  .announced (.diagnostic { problem := .encode e, span := i.span })

/-- What is emitted as it stands and has no encoding is reported. -/
theorem lowerInstr_of_error (h : ctx.EmitsAsIs i) (he : assemble ctx.resolver i = .error e)
    (lowerOp : Instruction → FnState → FnState) (s : FnState) :
    ctx.lowerInstr lowerOp i s = s.note (refusal i e) := by
  have hret : ¬ (Text.lower i.head = "ret" || Text.lower i.head = "reti" ||
      Text.lower i.head = "retn") = true := by
    simpa [or_assoc] using h.ret
  have htyped : ¬ (i.operands.any fun o => (o.typedPlace? ctx.scope).isSome) = true := by
    intro hany
    obtain ⟨o, ho, hsome⟩ := List.any_eq_true.mp hany
    rw [h.typed o ho] at hsome
    cases hsome
  unfold lowerInstr
  dsimp only
  rw [if_neg (by simp [h.op]), if_neg hret, if_neg htyped, FnState.emit, he]
  rfl

end FnContext

namespace FuncDecl

variable (d : FuncDecl) (r : Resolver) (decls : Declarations) (n : Int)

/-- The end of a function does not look back either. -/
theorem finish_behind (ctx : FnContext) (j : Journal) (s : FnState) :
    d.finish ctx (s.behind j false) = (d.finish ctx s).behind j false :=
  (follows_behind j).finish rfl ctx d

/-- How a function begins does not depend on its body. -/
theorem entry_body (body : List Stmt) :
    ({ d with body } : FuncDecl).entry r decls n = d.entry r decls n := by
  have hslots : ∀ slots acc,
      ({ d with body } : FuncDecl).layoutSlots r slots acc = d.layoutSlots r slots acc := by
    intro slots
    induction slots with
    | nil => intro acc; rfl
    | cons slot slots ih =>
      intro acc
      rw [layoutSlots, layoutSlots, ih]
  have hlayout : ({ d with body } : FuncDecl).layoutSlots r ({ d with body } : FuncDecl).slots
      ([], ({ d with body } : FuncDecl).checkReturns { counter := n }) =
      d.layoutSlots r d.slots ([], d.checkReturns { counter := n }) := hslots _ _
  unfold entry
  rw [hlayout]
  rfl

/-- The state at the end of a function, from the one at the end of its body. -/
def ended (s : FnState) : FnState :=
  let s := d.finish (d.entry r decls n).1 s
  s.note (.loweredFunction d.name
    ({ name := d.name, lines := s.lines, span := d.span } : Chunk).size
    (d.preserved.map (·.text)) d.hasFrame s.issues.length)

theorem lower_eq_ended :
    d.lower r decls { counter := n } =
      ({ name := d.name, lines := (d.ended r decls n (d.bodyEnd r decls n)).lines, span := d.span },
        d.summary (d.bodyEnd r decls n) (d.ended r decls n (d.bodyEnd r decls n)),
        d.ended r decls n (d.bodyEnd r decls n)) := rfl

/-- What is noted before the end of the body only stays in front in the journal. -/
theorem lower_of_behind {j : Journal} {s : FnState}
    (h : d.bodyEnd r decls n = s.behind j false) :
    d.lower r decls { counter := n } =
      ({ name := d.name, lines := (d.ended r decls n s).lines, span := d.span },
        d.summary s (d.ended r decls n s), (d.ended r decls n s).behind j false) := by
  have hended : d.ended r decls n (s.behind j false) = (d.ended r decls n s).behind j false := by
    unfold ended
    rw [finish_behind]
    exact FnState.note_behind _ _
  rw [lower_eq_ended, h, hended]
  rfl

variable {d r decls n} {front rest : List Stmt} {i : Instruction} {e : EncodeError}

/-- The state at the end of the body, with and without an instruction that is
    refused: both come from one state, put behind what was noted before. -/
theorem bodyEnd_insert (hbody : d.body = front ++ rest)
    (h : (d.entry r decls n).1.EmitsAsIs i) (he : assemble r i = .error e) :
    ∃ (before : Journal) (s : FnState),
      d.bodyEnd r decls n = s.behind before false ∧
      ({ d with body := front ++ .instr i :: rest } : FuncDecl).bodyEnd r decls n =
        s.behind (before ++ [FnContext.refusal i e]) false := by
  let ctx := (d.entry r decls n).1
  let lowerOp := ctx.lowerOp ctx.nesting
  -- `b` is the body where the instruction stands, with its journal taken off
  let b := ctx.lowerAll lowerOp front { fn := (d.entry r decls n).2 }
  let bare : Body := { b with fn := { b.fn with journal := [] } }
  have hb : b = bare.behind b.fn.journal false := by
    simp [bare, Body.behind, FnState.behind]
  have hinstr : ctx.lowerStmt lowerOp (.instr i) b =
      bare.behind (b.fn.journal ++ [FnContext.refusal i e]) false := by
    show { b with fn := ctx.lowerInstr lowerOp i b.fn } = _
    rw [FnContext.lowerInstr_of_error h he]
    simp [bare, Body.behind, FnState.behind, FnState.note]
  have hrest : ∀ j, (ctx.lowerAll lowerOp rest (bare.behind j false)).close =
      (ctx.lowerAll lowerOp rest bare).close.behind j false := by
    intro j
    rw [ctx.lowerAll_behind (fun i s => ctx.lowerOp_behind _ i s), Body.close_behind]
  refine ⟨b.fn.journal, (ctx.lowerAll lowerOp rest bare).close, ?_, ?_⟩
  · show (ctx.lowerAll lowerOp d.body { fn := (d.entry r decls n).2 }).close = _
    rw [hbody, FnContext.lowerAll_append]
    show (ctx.lowerAll lowerOp rest b).close = _
    rw [← hrest, ← hb]
  · unfold bodyEnd
    rw [entry_body]
    show (ctx.lowerAll lowerOp (front ++ .instr i :: rest)
      { fn := (d.entry r decls n).2 }).close = _
    rw [FnContext.lowerAll_append, FnContext.lowerAll_cons]
    show (ctx.lowerAll lowerOp rest (ctx.lowerStmt lowerOp (.instr i) b)).close = _
    rw [hinstr, hrest]

/-- An instruction that is emitted as it stands and has no encoding is reported
    once, where it stands, and has no other effect.  Wherever it is put into a
    body, the function becomes the same chunk with the same summary, and reports
    the same problems in the same order besides. -/
theorem lower_refused (d : FuncDecl) (r : Resolver) (decls : Declarations) (n : Int)
    (front rest : List Stmt) (hbody : d.body = front ++ rest) (i : Instruction) (e : EncodeError)
    (h : (d.entry r decls n).1.EmitsAsIs i) (he : assemble r i = .error e) :
    let without := d.lower r decls { counter := n }
    let within := ({ d with body := front ++ .instr i :: rest } : FuncDecl).lower r decls
      { counter := n }
    let report : Diagnostic := { problem := .encode e, span := i.span }
    within.1 = without.1 ∧ within.2.1 = without.2.1 ∧ report.category = "ENCODE" ∧
    ∃ before after : Journal,
      without.2.2.journal = before ++ after ∧
      within.2.2 = { without.2.2 with
        journal := before ++ .announced (.diagnostic report) :: after } ∧
      without.2.2.journal.diagnostics = before.diagnostics ++ after.diagnostics ∧
      within.2.2.journal.diagnostics = before.diagnostics ++ report :: after.diagnostics := by
  intro without within report
  obtain ⟨before, s, hwithout, hwithin⟩ := bodyEnd_insert hbody h he
  have hout : without = _ := lower_of_behind d r decls n hwithout
  have hin : within = _ := lower_of_behind { d with body := front ++ .instr i :: rest } r decls n
    hwithin
  have hended : ({ d with body := front ++ .instr i :: rest } : FuncDecl).ended r decls n s =
      d.ended r decls n s := by
    unfold ended
    rw [entry_body]
    rfl
  rw [hended] at hin
  rw [hout, hin]
  refine ⟨rfl, rfl, rfl, before, (d.ended r decls n s).journal, rfl, ?_, ?_, ?_⟩
  · simp [FnState.behind, FnContext.refusal, report]
  · simp
  · simp [FnContext.refusal, report]
    rfl

/-- A loop around a select with one arm. -/
def sweep : FuncDecl where
  name := "sweep"
  body := [.whileOpen "nz" false {}, .selectOpen (.ofReg "b") false {}, .caseArm [.number 1] {},
    .instr (.of "inc" [.ofReg "c"]), .endBlock {}, .endBlock {}]

/-- A pair does not fit into a register of 8 bits. -/
def misfit : Instruction :=
  { head := "ld", operands := [.ofReg "b", .ofReg "de"], span := { file := "sweep", line := 4 } }

/-- In the arm, the load is reported and leaves the loop as it was. -/
theorem sweep_refused :
    (sweep.entry .empty {} 0).1.EmitsAsIs misfit ∧
    assemble .empty misfit = .error (.operands "ld" misfit) ∧
    (let within := ({ sweep with
        body := sweep.body.take 3 ++ .instr misfit :: sweep.body.drop 3 } : FuncDecl).lower
          .empty {} {}
     within.1 = (sweep.lower .empty {} {}).1 ∧
     within.2.1 = (sweep.lower .empty {} {}).2.1 ∧
     within.2.2.journal.diagnostics =
       [{ problem := .encode (.operands "ld" misfit), span := misfit.span }]) := by
  have hasis : (sweep.entry .empty {} 0).1.EmitsAsIs misfit :=
    ⟨by decide +kernel, by decide, by decide +kernel⟩
  have herror : assemble .empty misfit = .error (.operands "ld" misfit) := by rfl
  have hclean : (sweep.lower .empty {} {}).2.2.journal.diagnostics = [] := by decide +kernel
  obtain ⟨hchunk, hsummary, -, before, after, -, -, hout, hin⟩ :=
    lower_refused sweep .empty {} 0 (sweep.body.take 3) (sweep.body.drop 3) rfl misfit _ hasis
      herror
  obtain ⟨hbefore, hafter⟩ := List.append_eq_nil_iff.mp (hout.symm.trans hclean)
  rw [hbefore, hafter] at hin
  exact ⟨hasis, herror, hchunk, hsummary, hin⟩

end FuncDecl

end Z80Backend
