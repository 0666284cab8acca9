import Z80Backend.Proofs.Control.Layout
import Z80Backend.Proofs.Function.Blocks
import Z80Backend.Proofs.Stack.Effect

/-! # Lowering lays structured code out

    Lowered without a report, well-formed structured code becomes lines that
    are laid out as its structure says, with labels that were not in use
    before.  The proof goes by induction on the code.  For the arms of a
    select the statement is about the block that is open while they are
    lowered: the arm before them ends with a jump and the label of their first
    test. -/

namespace Z80Backend

/-! ## Basic instructions -/

namespace FnContext

variable {ctx : FnContext} {i : Instruction} {s : FnState} {code : MachineInstr}

/-- No number is named like a label that lowering makes, or like the exit. -/
structure FreesLabels (ctx : FnContext) : Prop where
  label : ∀ kind k, ctx.resolver.IsLabel (Label.make kind k)
  exit : ∀ e, ctx.epilogue = some e → ctx.resolver.IsLabel e

/-- What lowering an instruction leaves: one line that does what the
    instruction does. -/
structure Emits (ctx : FnContext) (code : MachineInstr) (s s' : FnState) (l : Line) : Prop where
  does : l.Does ctx.epilogue code
  noLabel : l.labelName? = none
  lines : s'.lines = s.lines ++ [l]
  live : s'.tracker.live = (s.tracker.live && code.flow != .ret)
  counter : s'.counter = s.counter

/-- A basic instruction that is no return stands for itself. -/
theorem emits_emit (hcode : assemble ctx.resolver i = .ok code)
    (hhead : Text.lower i.head ∉ ["jp", "jr", "djnz", "ret", "reti", "retn"])
    (h : (s.emit ctx.resolver i).Clean) :
    Emits ctx code s (s.emit ctx.resolver i) (.instr i code) := by
  obtain ⟨code', hcode', heq⟩ := FnState.emit_of_clean h
  rw [hcode] at hcode'
  cases hcode'
  have hflow := MachineInstr.flow_of_assemble hcode hhead
  rw [heq]
  exact
    { does := by
        rw [Line.Does, hflow]
        exact hflow
      noLabel := rfl
      lines := rfl
      live := by simp [Tracker.apply_of_assemble _ hcode hhead, hflow]
      counter := rfl }

/-- Counting a return and checking the depth leaves the lines as they are. -/
theorem emits_of_returns {n : Int64} {e : Option StackError} {span : Span} {s' : FnState}
    {l : Line} (hclean : ({ s with returns := n }.check e span).Clean)
    (h : Emits ctx code ({ s with returns := n }.check e span) s' l) : Emits ctx code s s' l := by
  rw [(FnState.check_of_clean hclean).2] at h
  exact { h with }

/-- A return becomes a return or a jump to the exit. -/
theorem emits_lowerRet (hlabels : ctx.FreesLabels) (hcode : assemble ctx.resolver i = .ok code)
    (hhead : Text.lower i.head = "ret") (h : (ctx.lowerRet i s).Clean) :
    ∃ l, Emits ctx code s (ctx.lowerRet i s) l := by
  have hof : StackEffect.of i = { returns := true, terminates := i.operands.isEmpty } := by
    simp [StackEffect.of, hhead]
  unfold lowerRet at h ⊢
  dsimp only at h ⊢
  cases hexit : ctx.epilogue with
  | none =>
    rw [hexit] at h
    dsimp only at h ⊢
    have hcheck := (FnState.extends_emit _ _ _).clean h
    obtain ⟨code', hcode', heq⟩ := FnState.emit_of_clean h
    rw [hcode] at hcode'
    cases hcode'
    refine ⟨.instr i code, emits_of_returns hcheck ?_⟩
    rw [heq]
    refine { does := ?_, noLabel := rfl, lines := rfl, live := ?_, counter := rfl }
    · rcases assemble_ret hhead hcode with ⟨_, rfl⟩ | ⟨_, _, cc, _, _, rfl⟩
      · exact .inl rfl
      · exact .inl rfl
    · rcases assemble_ret hhead hcode with ⟨hos, rfl⟩ | ⟨_, _, cc, hos, _, rfl⟩
      · simp [Tracker.apply, hof, hos, MachineInstr.flow]
      · simp [Tracker.apply, hof, hos, MachineInstr.flow]
  | some e =>
    rw [hexit] at h
    simp only [hhead, ne_eq, not_true_eq_false, if_false] at h ⊢
    have hcheck := (FnState.extends_emit _ _ _).clean h
    rcases assemble_ret hhead hcode with ⟨hos, rfl⟩ | ⟨name, span, cc, hos, hcc, rfl⟩
    · have hops : i.operands.take 1 ++ [Operand.ofName e] = [.ofName e] := by simp [hos]
      rw [hops] at h ⊢
      refine ⟨.jump ctx.resolver i.span e, emits_of_returns hcheck ?_⟩
      change Emits ctx .ret _ (FnState.jump ctx.resolver i.span [.ofName e] _) _
      rw [FnState.jump_of_clean h]
      exact { does := .inr ⟨e, hexit, Line.flow_jump (hlabels.exit e hexit)⟩, noLabel := rfl,
              lines := rfl, counter := rfl, live := by simp [Tracker.kill, MachineInstr.flow] }
    · have hops : i.operands.take 1 ++ [Operand.ofName e] = [.reg name span, .ofName e] := by
        simp [hos]
      rw [hops] at h ⊢
      obtain ⟨code', hcode', heq⟩ := FnState.emit_of_clean h
      obtain ⟨cc', a, rfl, ha, hcc'⟩ := assemble_branch hcode'
      cases ha
      rw [hcc] at hcc'
      cases hcc'
      refine ⟨.instr { head := "jp", operands := [.reg name span, .ofName e], span := i.span }
        (.jpIf cc (ctx.resolver.wordOf e)), emits_of_returns hcheck ?_⟩
      have hflow := congrArg (Flow.branch cc) (hlabels.exit e hexit).label?_wordOf
      rw [heq]
      exact { does := .inr ⟨e, hexit, hflow⟩, noLabel := rfl, lines := rfl, counter := rfl,
              live := by simp [Tracker.apply_branch, MachineInstr.flow] }

/-- A basic instruction becomes one line that does what it says. -/
theorem IsBasic.emits {lowerOp : Instruction → FnState → FnState} (hlabels : ctx.FreesLabels)
    (hi : ctx.IsBasic i) (h : (ctx.lowerInstr lowerOp i s).Clean) :
    ∃ code l, assemble ctx.resolver i = .ok code ∧
      Emits ctx code s (ctx.lowerInstr lowerOp i s) l := by
  obtain ⟨code, hcode⟩ := hi.accepted
  have hhead := hi.head
  simp only [List.mem_cons, List.not_mem_nil, or_false, not_or] at hhead
  obtain ⟨hjp, hjr, hdjnz, hreti, hretn⟩ := hhead
  unfold lowerInstr at h ⊢
  simp only [hi.isOp, Bool.false_eq_true, if_false, hreti, hretn, decide_false, Bool.or_false,
    decide_eq_true_eq] at h ⊢
  by_cases hret : Text.lower i.head = "ret"
  · rw [if_pos hret] at h ⊢
    obtain ⟨l, hl⟩ := emits_lowerRet hlabels hcode hret h
    exact ⟨code, l, hcode, hl⟩
  · have huntyped : (i.operands.any fun o => (o.typedPlace? ctx.scope).isSome) = false := by
      rw [List.any_eq_false]
      intro o ho
      rw [hi.untyped o ho]
      decide
    rw [if_neg hret, huntyped, if_neg Bool.false_ne_true] at h ⊢
    refine ⟨code, .instr i code, hcode, emits_emit hcode ?_ h⟩
    simp [hjp, hjr, hdjnz, hreti, hretn, hret]

end FnContext

/-! ## Reached points -/

@[simp] theorem FnState.isEmpty_reached (s : FnState) : s.reached.isEmpty = !s.tracker.live := by
  unfold reached
  cases s.tracker.live <;> rfl

@[simp] theorem Opening.isEmpty_reached (o : Opening) : o.reached.isEmpty = !o.live := by
  unfold reached
  cases o.live <;> rfl

@[simp] theorem Body.joined_live (t : Tracker) (ds : List Depth) :
    (Body.joined t ds).live = !ds.isEmpty := rfl

theorem Depth.isEmpty_append (ds es : List Depth) :
    (ds ++ es).isEmpty = (ds.isEmpty && es.isEmpty) := by
  cases ds <;> rfl

/-! ## Lines of blocks -/

theorem Body.lead_leadLines {r : Resolver} {leaves : Bool} {span : Span} {name : String}
    {P : Prop} (hname : r.IsLabel name) (h : leaves = false → P) :
    Lead name P (Body.leadLines r leaves span name) := by
  cases leaves with
  | false => exact .none (h rfl)
  | true => exact .some (Line.flow_jump hname)

/-- Only where there are several values does one of the comparisons go to the
    arm. -/
theorem Body.Compares.tests {r : Resolver} {span : Span} {arm next : String} {vs : List Int64}
    {ls : List Line} (h : Body.Compares r span arm next vs ls) (hnext : r.IsLabel next)
    (harm : vs.length ≤ 1 ∨ r.IsLabel arm) :
    Tests next arm (vs.map fun v => UInt8.ofInt v.toInt) ls := by
  induction h with
  | none => exact .none (Line.flow_jump hnext)
  | last v => exact .last rfl (Line.flow_branch hnext)
  | @more vs ls v hne _ ih =>
    have hlen := List.length_pos_of_ne_nil hne
    have harm := harm.resolve_left (by rw [List.length_cons]; omega)
    exact .more rfl (Line.flow_branch harm) (by simpa using hne) (ih (.inr harm))

/-! ## Structured code -/

/-- The lines that stand for code were appended, with new labels. -/
structure Lowers (ctx : FnContext) (stop : String) {p : Part} (c : Code p) (s s' : FnState)
    (ls : List Line) : Prop where
  lines : s'.lines = s.lines ++ ls
  laidOut : LaidOut ctx.resolver ctx.epilogue stop c s.tracker.live ls s'.tracker.live
  counter : s.counter ≤ s'.counter
  fresh : Line.Fresh (fun n => s.counter < n ∧ n ≤ s'.counter) ls

/-- The arms of a select were lowered, up to the common label.  The arm before
    them was left by `lead`, and its values go on at the label `next`. -/
structure LowersArms (ctx : FnContext) (last : String) (c : Code .arms) (o : Opening)
    (next : Option String) (armOpen : Bool) (exits : List Depth) (s s' : FnState)
    (lead labels ms : List Line) (t : Span) (live' : Bool) : Prop where
  lines : s'.lines = s.lines ++ (lead ++ labels ++ (ms ++ [.label last t]))
  leads : Lead last ((armOpen && s.tracker.live) = false ∨ c = .stop) lead
  noLabel : Line.labelNames lead = []
  closed : armOpen = false → lead = []
  goesOn : ∃ span, labels = next.toList.map (.label · span)
  laidOut : LaidOut ctx.resolver ctx.epilogue last c o.live (ms ++ [.label last t]) live'
  live : s'.tracker.live = (!exits.isEmpty || (armOpen && s.tracker.live) || live')
  counter : s.counter ≤ s'.counter
  fresh : Line.Fresh (fun n => s.counter < n ∧ n ≤ s'.counter) ms

/-- What lowering makes of code. -/
def Code.LoweredWell (ctx : FnContext) (lowerOp : Instruction → FnState → FnState) :
    {p : Part} → Code p → Prop
  | .body, c => ∀ stop b, (ctx.lowerAll lowerOp c.stmts b).fn.Clean →
      (ctx.lowerAll lowerOp c.stmts b).blocks = b.blocks ∧
        ∃ ls, Lowers ctx stop c b.fn (ctx.lowerAll lowerOp c.stmts b).fn ls
  | .arms, c => ∀ endSpan b o last next armOpen exits values rest,
      b.blocks = .selectBlock o last next false armOpen exits values :: rest →
      ctx.resolver.IsLabel last →
      (ctx.lowerAll lowerOp (c.stmts ++ [.endBlock endSpan]) b).fn.Clean →
      (ctx.lowerAll lowerOp (c.stmts ++ [.endBlock endSpan]) b).blocks = rest ∧
        ∃ lead labels ms t live', LowersArms ctx last c o next armOpen exits b.fn
          (ctx.lowerAll lowerOp (c.stmts ++ [.endBlock endSpan]) b).fn lead labels ms t live'

namespace Code

section

variable {ctx : FnContext} {lowerOp : Instruction → FnState → FnState}

/-- What lowering makes of the code in a block. -/
theorem LoweredWell.inner {c : Code .body} (hc : c.LoweredWell ctx lowerOp) (stop : String)
    {s : FnState} {xs : List Line} {t : Tracker} {n : Int} {blocks : List Block}
    (h : (ctx.lowerAll lowerOp c.stmts { fn := s.grow xs t n, blocks }).fn.Clean) :
    ∃ ls b, ctx.lowerAll lowerOp c.stmts { fn := s.grow xs t n, blocks } = b ∧ b.blocks = blocks ∧
      b.fn.lines = s.lines ++ xs ++ ls ∧
      LaidOut ctx.resolver ctx.epilogue stop c t.live ls b.fn.tracker.live ∧
      n ≤ b.fn.counter ∧ Line.Fresh (fun k => n < k ∧ k ≤ b.fn.counter) ls := by
  obtain ⟨hblocks, ls, hls⟩ := hc stop _ h
  exact ⟨ls, _, rfl, hblocks, hls.lines, hls.laidOut, hls.counter, hls.fresh⟩

theorem loweredWell_skip : (Code.skip).LoweredWell ctx lowerOp := by
  intro stop b _
  exact ⟨rfl, [], { lines := by simp [stmts], laidOut := .skip, counter := Int.le_refl _,
                    fresh := .of_labelNames_eq_nil rfl }⟩

theorem loweredWell_instr {i : Instruction} (hlabels : ctx.FreesLabels) (hi : ctx.IsBasic i) :
    (Code.instr i).LoweredWell ctx lowerOp := by
  intro stop b hclean
  obtain ⟨code, l, hcode, hl⟩ := hi.emits hlabels hclean
  refine ⟨rfl, [l], { lines := hl.lines, laidOut := ?_, counter := ?_, fresh := ?_ }⟩
  · have hlive : (ctx.lowerAll lowerOp (Code.instr i).stmts b).fn.tracker.live =
        (b.fn.tracker.live && code.flow != .ret) := hl.live
    rw [hlive]
    exact .instr hcode hl.does
  · exact Int.le_of_eq hl.counter.symm
  · exact .of_labelNames_eq_nil (by simp [Line.labelNames, hl.noLabel])

section

variable (hop : ∀ i (s : FnState), s.Extends (lowerOp i s)) {c d : Code .body}
  (hc : c.LoweredWell ctx lowerOp) (hd : d.LoweredWell ctx lowerOp)

include hop hc

theorem loweredWell_seq (hd : d.LoweredWell ctx lowerOp) :
    (Code.seq c d).LoweredWell ctx lowerOp := by
  intro stop b hclean
  rw [stmts, ctx.lowerAll_append] at hclean ⊢
  obtain ⟨hblocks, ms, hms⟩ := hd stop _ hclean
  obtain ⟨hblocks', ls, hls⟩ := hc stop b ((ctx.extends_lowerAll hop _ _).clean hclean)
  refine ⟨hblocks.trans hblocks', ls ++ ms, ?_⟩
  exact
    { lines := by rw [hms.lines, hls.lines, List.append_assoc]
      laidOut := .seq hls.laidOut hms.laidOut
      counter := Int.le_trans hls.counter hms.counter
      fresh := by
        have h₁ := hls.counter
        have h₂ := hms.counter
        refine (hls.fresh.append hms.fresh fun n => by omega).mono fun n => by omega }

theorem loweredWell_ifThen (hlabels : ctx.FreesLabels) {cond : String} {span endSpan : Span} :
    (Code.ifThen cond span c endSpan).LoweredWell ctx lowerOp := by
  intro stop b hclean
  simp only [stmts, List.cons_append, ctx.lowerAll_cons, ctx.lowerAll_append, ctx.lowerAll_nil,
    FnContext.lowerStmt] at hclean ⊢
  have hbody := (Body.extends_endBlock _ _ _).clean hclean
  obtain ⟨cc, hcond, hopen⟩ := Body.openIf_of_clean ((ctx.extends_lowerAll hop _ _).clean hbody)
  rw [hopen] at hclean hbody ⊢
  obtain ⟨ls, b₂, heq, hblocks, hlines, hlaid, hcount, hfresh⟩ := hc.inner stop hbody
  rw [heq] at hclean ⊢
  rw [(Body.endBlock_if_of_clean hblocks hclean).2]
  refine ⟨rfl, .branch ctx.resolver span cc.negate (Label.make "if_else" (b.fn.counter + 1)) ::
    ls ++
    [Line.label (Label.make "if_else" (b.fn.counter + 1)) endSpan,
     .label (Label.make "if_end" (b.fn.counter + 2)) endSpan], ?_⟩
  refine { lines := by simp [hlines], laidOut := ?_, counter := ?_, fresh := ?_ }
  · have hlive : (Body.joined b₂.fn.tracker ([] ++ b₂.fn.reached ++
        (b.fn.opening span).reached)).live = (b₂.fn.tracker.live || b.fn.tracker.live) := by
      simp [FnState.opening, Depth.isEmpty_append]
    exact hlive ▸ .ifThen hcond (Line.flow_branch (hlabels.label _ _)) hlaid
  · show b.fn.counter ≤ b₂.fn.counter
    omega
  · simp only [List.cons_append, FnState.grow_counter]
    refine .mono (.cons rfl (.append hfresh (.cons_label .label ?_) ?_)) ?_
    all_goals omega

theorem loweredWell_ifElse (hlabels : ctx.FreesLabels) (hd : d.LoweredWell ctx lowerOp)
    {cond : String} {span elseSpan endSpan : Span} :
    (Code.ifElse cond span c elseSpan d endSpan).LoweredWell ctx lowerOp := by
  intro stop b hclean
  simp only [stmts, List.cons_append, List.append_assoc, ctx.lowerAll_cons, ctx.lowerAll_append,
    ctx.lowerAll_nil, FnContext.lowerStmt] at hclean ⊢
  have hsecond := (Body.extends_endBlock _ _ _).clean hclean
  have helse := (ctx.extends_lowerAll hop _ _).clean hsecond
  have hfirst := (Body.extends_elseArm _ _ _).clean helse
  obtain ⟨cc, hcond, hopen⟩ := Body.openIf_of_clean
    ((ctx.extends_lowerAll hop _ _).clean hfirst)
  rw [hopen] at hclean hsecond helse hfirst ⊢
  obtain ⟨ls, b₂, heq, hblocks, hlines, hlaid, hcount, hfresh⟩ := hc.inner stop hfirst
  rw [heq] at hclean hsecond helse ⊢
  have helseArm := Body.elseArm_if_of_clean hblocks helse
  rw [helseArm] at hclean hsecond ⊢
  obtain ⟨ms, b₃, heq', hblocks', hlines', hlaid', hcount', hfresh'⟩ := hd.inner stop hsecond
  rw [heq'] at hclean ⊢
  rw [(Body.endBlock_if_of_clean hblocks' hclean).2]
  refine ⟨rfl, .branch ctx.resolver span cc.negate (Label.make "if_else" (b.fn.counter + 1)) ::
    ls ++
    Body.leadLines ctx.resolver b₂.fn.tracker.live elseSpan
      (Label.make "if_end" (b.fn.counter + 2)) ++
    .label (Label.make "if_else" (b.fn.counter + 1)) elseSpan :: ms ++
    [Line.label (Label.make "if_end" (b.fn.counter + 2)) endSpan], ?_⟩
  refine { lines := by simp [hlines, hlines'], laidOut := ?_, counter := ?_, fresh := ?_ }
  · have hlive : (Body.joined b₃.fn.tracker ([] ++ b₂.fn.reached ++ b₃.fn.reached ++ [])).live =
        (b₂.fn.tracker.live || b₃.fn.tracker.live) := by
      simp [Depth.isEmpty_append]
    exact hlive ▸ .ifElse hcond (Line.flow_branch (hlabels.label _ _)) hlaid
      (Body.lead_leadLines (hlabels.label _ _) id) hlaid'
  · show b.fn.counter ≤ b₃.fn.counter
    omega
  · simp only [List.cons_append, List.append_assoc, FnState.grow_counter]
    refine .mono (.cons rfl (.append hfresh (.append_left Body.labelNames_leadLines
      (.cons_label (.append hfresh' .label ?_) ?_)) ?_)) ?_
    all_goals omega

theorem loweredWell_whileDo (hlabels : ctx.FreesLabels) {cond : String} {span endSpan : Span} :
    (Code.whileDo cond span c endSpan).LoweredWell ctx lowerOp := by
  intro stop b hclean
  simp only [stmts, List.cons_append, ctx.lowerAll_cons, ctx.lowerAll_append, ctx.lowerAll_nil,
    FnContext.lowerStmt] at hclean ⊢
  have hbody := (Body.extends_endBlock _ _ _).clean hclean
  obtain ⟨cc, hcond, hopen⟩ := Body.openWhile_of_clean
    ((ctx.extends_lowerAll hop _ _).clean hbody)
  rw [hopen] at hclean hbody ⊢
  obtain ⟨ls, b₂, heq, hblocks, hlines, hlaid, hcount, hfresh⟩ := hc.inner stop hbody
  rw [heq] at hclean ⊢
  rw [(Body.endBlock_while_of_clean hblocks hclean).2]
  refine ⟨rfl, .jump ctx.resolver span (Label.make "while_cond" (b.fn.counter + 2)) ::
    .label (Label.make "while_top" (b.fn.counter + 1)) span :: ls ++
    [Line.label (Label.make "while_cond" (b.fn.counter + 2)) endSpan,
     .branch ctx.resolver endSpan cc (Label.make "while_top" (b.fn.counter + 1))], ?_⟩
  refine { lines := by simp [hlines], laidOut := ?_, counter := ?_, fresh := ?_ }
  · have hlive : (Body.joined b₂.fn.tracker ((b.fn.opening span).reached ++
        b₂.fn.reached)).live = (b.fn.tracker.live || b₂.fn.tracker.live) := by
      simp [FnState.opening, Depth.isEmpty_append]
    exact hlive ▸ .whileDo hcond (Line.flow_jump (hlabels.label _ _)) hlaid
      (Line.flow_branch (hlabels.label _ _))
  · show b.fn.counter ≤ b₂.fn.counter
    omega
  · have htest : Line.Fresh (· = b.fn.counter + 2)
        ([Line.label (Label.make "while_cond" (b.fn.counter + 2)) endSpan] ++
          [Line.branch ctx.resolver endSpan cc (Label.make "while_top" (b.fn.counter + 1))]) :=
      .append_right .label rfl
    simp only [List.cons_append, FnState.grow_counter]
    refine .mono (.cons rfl (.cons_label (.append hfresh htest ?_) ?_)) ?_
    all_goals omega

omit hop in
theorem loweredWell_repeatUntil (hlabels : ctx.FreesLabels) {cond : String}
    {span untilSpan : Span} :
    (Code.repeatUntil span c cond untilSpan).LoweredWell ctx lowerOp := by
  intro stop b hclean
  simp only [stmts, List.cons_append, ctx.lowerAll_cons, ctx.lowerAll_append, ctx.lowerAll_nil,
    FnContext.lowerStmt] at hclean ⊢
  have hbody := (Body.extends_untilClose _ _ _ _).clean hclean
  rw [Body.openRepeat_eq] at hclean hbody ⊢
  obtain ⟨ls, b₂, heq, hblocks, hlines, hlaid, hcount, hfresh⟩ := hc.inner stop hbody
  rw [heq] at hclean ⊢
  obtain ⟨_, cc, hcond, hend⟩ := Body.untilClose_of_clean hblocks hclean
  rw [hend]
  refine ⟨rfl, .label (Label.make "repeat_top" (b.fn.counter + 1)) span :: ls ++
    [Line.branch ctx.resolver untilSpan cc.negate (Label.make "repeat_top" (b.fn.counter + 1))], ?_⟩
  refine { lines := by simp [hlines], laidOut := ?_, counter := ?_, fresh := ?_ }
  · have hlive : (Body.joined b₂.fn.tracker ((b.fn.opening span).reached ++
        b₂.fn.reached)).live = (b.fn.tracker.live || b₂.fn.tracker.live) := by
      simp [FnState.opening, Depth.isEmpty_append]
    exact hlive ▸ .repeatUntil hcond hlaid (Line.flow_branch (hlabels.label _ _))
  · show b.fn.counter ≤ b₂.fn.counter
    omega
  · simp only [List.cons_append, FnState.grow_counter]
    refine .mono (.cons_label (.append_right hfresh rfl) ?_) ?_
    all_goals omega

end

/-! ### Arms -/

theorem loweredWell_stop : (Code.stop).LoweredWell ctx lowerOp := by
  intro endSpan b o last next armOpen exits values rest hb _ hclean
  simp only [stmts, List.nil_append, ctx.lowerAll_cons, ctx.lowerAll_nil,
    FnContext.lowerStmt] at hclean ⊢
  rw [(Body.endBlock_select_of_clean hb hclean).2]
  refine ⟨rfl, [], next.toList.map (Line.label · endSpan), [], endSpan, o.live, ?_⟩
  exact
    { lines := by simp
      leads := .none (.inr rfl)
      noLabel := rfl
      closed := fun _ => rfl
      goesOn := ⟨endSpan, rfl⟩
      laidOut := .stop
      live := by
        cases armOpen <;> simp [Depth.isEmpty_append, Bool.or_assoc]
      counter := Int.le_refl _
      fresh := .of_labelNames_eq_nil rfl }

theorem loweredWell_otherwise {c : Code .body}
    (hop : ∀ i (s : FnState), s.Extends (lowerOp i s)) (hc : c.LoweredWell ctx lowerOp)
    {span : Span} : (Code.otherwise span c).LoweredWell ctx lowerOp := by
  intro endSpan b o last next armOpen exits values rest hb hlast hclean
  simp only [stmts, List.cons_append, ctx.lowerAll_cons, ctx.lowerAll_append, ctx.lowerAll_nil,
    FnContext.lowerStmt] at hclean ⊢
  have hbody := (Body.extends_endBlock _ _ _).clean hclean
  have helse := Body.elseArm_select_of_clean hb ((ctx.extends_lowerAll hop _ _).clean hbody)
  rw [helse] at hclean hbody ⊢
  obtain ⟨ls, b₂, heq, hblocks, hlines, hlaid, hcount, hfresh⟩ := hc.inner last hbody
  rw [heq] at hclean ⊢
  rw [(Body.endBlock_select_of_clean hblocks hclean).2]
  refine ⟨rfl, Body.leadLines ctx.resolver (armOpen && b.fn.tracker.live) span last,
    next.toList.map (Line.label · span), ls, endSpan, b₂.fn.tracker.live, ?_⟩
  exact
    { lines := by simp [hlines]
      leads := Body.lead_leadLines hlast .inl
      noLabel := Body.labelNames_leadLines
      closed := by rintro rfl; rfl
      goesOn := ⟨span, rfl⟩
      laidOut := .otherwise hlaid
      live := by
        cases armOpen <;> cases b.fn.tracker.live <;> simp [Depth.isEmpty_append]
      counter := hcount
      fresh := hfresh }

theorem loweredWell_case {c : Code .body} {rest : Code .arms}
    (hop : ∀ i (s : FnState), s.Extends (lowerOp i s)) (hlabels : ctx.FreesLabels)
    (hc : c.LoweredWell ctx lowerOp) (hrest : rest.LoweredWell ctx lowerOp) {es : List Expr}
    {span : Span} : (Code.case es span c rest).LoweredWell ctx lowerOp := by
  intro endSpan b o last next armOpen exits values blocks hb hlast hclean
  rw [stmts_case_append, ctx.lowerAll_cons, ctx.lowerAll_append] at hclean ⊢
  have hbody := (ctx.extends_lowerAll hop _ _).clean hclean
  obtain ⟨vs, arm, ts, al, hts, hal, hbytes, hcase⟩ := Body.caseArm_of_clean hb
    ((ctx.extends_lowerAll hop _ _).clean hbody)
  rw [FnContext.lowerStmt, hcase] at hclean hbody ⊢
  obtain ⟨ls, b₂, heq, hblocks, hlines, hlaid, hcount, hfresh⟩ := hc.inner last hbody
  rw [heq] at hclean ⊢
  obtain ⟨hblocks', lead, labels, ms, t, live', hrest⟩ := hrest endSpan b₂ _ _ _ _ _ _ _ hblocks
    hlast hclean
  generalize ctx.lowerAll lowerOp (rest.stmts ++ [Stmt.endBlock endSpan]) b₂ = b₃ at *
  obtain ⟨u, rfl⟩ := hrest.goesOn
  refine ⟨hblocks', Body.leadLines ctx.resolver (armOpen && b.fn.tracker.live) span last,
    next.toList.map (Line.label · span),
    ts ++ al ++ ls ++ lead ++ .label (Label.make "select_next" (b.fn.counter + 1)) u :: ms, t,
    b₂.fn.tracker.live || live', ?_⟩
  have hcount' := hrest.counter
  have hvs : (caseBytes ctx.resolver es) = vs.map fun v => UInt8.ofInt v.toInt := hbytes.symm
  refine { lines := ?_, leads := Body.lead_leadLines hlast .inl,
           noLabel := Body.labelNames_leadLines, closed := by rintro rfl; rfl,
           goesOn := ⟨span, rfl⟩, laidOut := ?_, live := ?_, counter := ?_, fresh := ?_ }
  · rw [hrest.lines, hlines]
    simp
  · have hsymbol : vs.length ≤ 1 ∨ ctx.resolver.IsLabel arm := by
      rcases hal with ⟨_, hlen⟩ | ⟨rfl, _⟩
      · exact .inl hlen
      · exact .inr (hlabels.label _ _)
    have harm : ArmLabel arm (caseBytes ctx.resolver es) al := by
      rcases hal with ⟨rfl, hlen⟩ | ⟨_, rfl⟩
      · exact .none (by rwa [hvs, List.length_map])
      · exact .some span
    have hbodyLaid : LaidOut ctx.resolver ctx.epilogue last c
        (o.live && !(caseBytes ctx.resolver es).isEmpty) ls b₂.fn.tracker.live := by
      rwa [hvs, List.isEmpty_map]
    have hlead : Lead last (b₂.fn.tracker.live = false ∨ rest = .stop) lead := by
      simpa using hrest.leads
    have hassoc := List.append_assoc (ts ++ al ++ ls ++ lead)
      (.label (Label.make "select_next" (b.fn.counter + 1)) u :: ms) [.label last t]
    rw [hassoc]
    exact .case (hvs ▸ hts.tests (hlabels.label _ _) hsymbol) harm hbodyLaid hlead hrest.laidOut
  · rw [hrest.live]
    cases armOpen <;> cases b.fn.tracker.live <;> simp [Bool.or_assoc, Depth.isEmpty_append]
  · omega
  · simp only [List.append_assoc]
    rcases hal with ⟨rfl, _⟩ | ⟨rfl, rfl⟩
    · simp only [List.length_nil] at hcount hfresh
      refine .mono (.append_left hts.labelNames (.append_left rfl
        (.append hfresh (.append_left hrest.noLabel (.cons_label hrest.fresh ?_)) ?_))) ?_
      all_goals omega
    · simp only [List.length_singleton] at hcount hfresh
      refine .mono (.append_left hts.labelNames (.append .label (.append hfresh
        (.append_left hrest.noLabel (.cons_label hrest.fresh ?_)) ?_) ?_)) ?_
      all_goals omega

/-- The selector of a select is brought into the accumulator. -/
theorem loads_of_clean {selector : Operand} {span : Span} {s : FnState}
    (huntyped : selector.typedPlace? ctx.scope = none) (hld : ctx.ops.isOp "ld" = false)
    (h : (if selector.isReg "a" then s
      else ctx.lowerInstr lowerOp (loadInstr selector span) s).Clean) :
    ∃ ls t, Loads ctx.resolver selector span ls ∧ Line.labelNames ls = [] ∧
      t.live = s.tracker.live ∧
      (if selector.isReg "a" then s else ctx.lowerInstr lowerOp (loadInstr selector span) s) =
        s.grow ls t s.counter := by
  cases ha : selector.isReg "a" with
  | true => exact ⟨[], s.tracker, .held ha, rfl, rfl, s.grow_self.symm⟩
  | false =>
    have hlower : Text.lower "ld" = "ld" := by decide
    have hemit : ctx.lowerInstr lowerOp (loadInstr selector span) s =
        s.emit ctx.resolver (loadInstr selector span) := by
      have ha : (Operand.ofReg "a").typedPlace? ctx.scope = none := rfl
      simp [FnContext.lowerInstr, loadInstr, hlower, hld, huntyped, ha]
    simp only [ha, Bool.false_eq_true, if_false, hemit] at h ⊢
    obtain ⟨code, hcode, heq⟩ := FnState.emit_of_clean h
    have hhead : Text.lower (loadInstr selector span).head ∉
        ["jp", "jr", "djnz", "ret", "reti", "retn"] := by
      rw [loadInstr, hlower]
      decide
    have hemits := FnContext.emits_emit hcode hhead h
    have hflow := MachineInstr.flow_of_assemble hcode hhead
    refine ⟨[.instr (loadInstr selector span) code], _, ?_, rfl, ?_, heq⟩
    · exact .ld ha hcode hflow hflow
    · have hlive := hemits.live
      have hne : (Flow.step code != .ret) = true := by simp
      rwa [heq, hflow, hne, Bool.and_true] at hlive

theorem loweredWell_select (hlabels : ctx.FreesLabels) {selector : Operand} {span endSpan : Span}
    {arms : Code .arms}
    (hop : ∀ i (s : FnState), s.Extends (lowerOp i s)) (hsel : selector ≠ .missing)
    (huntyped : selector.typedPlace? ctx.scope = none) (hld : ctx.ops.isOp "ld" = false)
    (harms : arms.LoweredWell ctx lowerOp) :
    (Code.select selector span arms endSpan).LoweredWell ctx lowerOp := by
  intro stop b hclean
  have hmissing : (false || selector == .missing) = false := by simpa using hsel
  simp only [stmts, List.cons_append, ctx.lowerAll_cons, FnContext.lowerStmt,
    FnContext.lowerSelect, hmissing, Bool.false_eq_true, if_false] at hclean ⊢
  have hload := (Body.extends_openSelect _ _).clean ((ctx.extends_lowerAll hop _ _).clean hclean)
  obtain ⟨ls, t, hloads, hnames, hlive, heq⟩ := loads_of_clean huntyped hld hload
  rw [loadInstr] at heq
  rw [heq, Body.openSelect_eq] at hclean ⊢
  simp only [FnState.grow_grow, FnState.grow_tracker, FnState.grow_counter,
    List.append_nil] at hclean ⊢
  obtain ⟨hblocks, lead, labels, ms, u, live', hms⟩ := harms endSpan _ _ _ _ _ _ _ _ rfl
    (hlabels.label _ _) hclean
  generalize ctx.lowerAll lowerOp (arms.stmts ++ [Stmt.endBlock endSpan]) _ = b₂ at *
  -- no arm is open yet, so that nothing stands before the first test
  obtain ⟨_, rfl⟩ := hms.goesOn
  obtain rfl := hms.closed rfl
  have hlast := hms.live
  simp only [List.isEmpty_nil, Bool.not_true, Bool.false_and, Bool.false_or] at hlast
  refine ⟨hblocks, ls ++ (ms ++ [Line.label (Label.make "select_end" (b.fn.counter + 1)) u]), ?_⟩
  refine { lines := by simp [hms.lines], laidOut := ?_, counter := ?_, fresh := ?_ }
  · rw [hlast]
    have hlaid := hms.laidOut
    simp only [FnState.opening, FnState.grow_tracker, hlive] at hlaid
    exact .select hloads hlaid
  · have := hms.counter
    simp only [FnState.grow_counter] at this
    omega
  · have hcount := hms.counter
    have hfresh := hms.fresh
    simp only [FnState.grow_counter] at hcount hfresh
    refine .mono (.append_left hnames (.append hfresh .label ?_)) ?_
    all_goals omega

/-- Lowering lays well-formed code out. -/
theorem WellFormed.loweredWell (hop : ∀ i (s : FnState), s.Extends (lowerOp i s))
    (hlabels : ctx.FreesLabels) {p : Part} {c : Code p} (hwf : c.WellFormed ctx) :
    c.LoweredWell ctx lowerOp := by
  induction c with
  | skip => exact loweredWell_skip
  | instr i => exact loweredWell_instr hlabels hwf
  | seq c d ihc ihd => exact loweredWell_seq hop (ihc hwf.1) (ihd hwf.2)
  | ifThen cond span c endSpan ih => exact loweredWell_ifThen hop (ih hwf.2) hlabels
  | ifElse cond span c elseSpan d endSpan ihc ihd =>
    exact loweredWell_ifElse hop (ihc hwf.2.1) hlabels (ihd hwf.2.2)
  | whileDo cond span c endSpan ih => exact loweredWell_whileDo hop (ih hwf.2) hlabels
  | repeatUntil span c cond untilSpan ih => exact loweredWell_repeatUntil (ih hwf.2) hlabels
  | select selector span arms endSpan ih =>
    obtain ⟨hsel, huntyped, hld, harms⟩ := hwf
    exact loweredWell_select hlabels hop hsel huntyped hld (ih harms)
  | stop => exact loweredWell_stop
  | otherwise span c ih => exact loweredWell_otherwise hop (ih hwf)
  | case es span c rest ihc ihrest =>
    exact loweredWell_case hop hlabels (ihc hwf.1) (ihrest hwf.2)

end

end Code

end Z80Backend
