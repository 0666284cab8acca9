import Z80Backend.Proofs.Function.Enclosed
import Z80Backend.Proofs.Function.Journal
import Z80Backend.Proofs.Op.Names
import Z80Backend.Proofs.Op.Stepwise

/-! # Op calls stand for their expansion

    The body of each expansion is lowered as a body of its own, with no block
    open at its start and with the blocks that it leaves open closed at its
    end.  Written out in the caller's body, the same statements share the
    blocks that are open there.

    It makes no difference for bodies that close what they open: such a body
    never looks at a block below its own (`FnContext.within_lowerStmt`), and it
    leaves none for its end to close.  What remains are the notices of the
    expansions themselves in the journal, and lowering does not read these.

    * `FnContext.lowerAll_of_balanced`: the blocks that enclose statements.
    * `FnContext.alike_lowerNodes`: nested expansions, level by level.
    * `FnContext.lowerAll_of_ends`: how deeply calls may nest does not matter
      where they end.
    * `FnContext.alike_inlined`: an op call and its expansion written out. -/

namespace Z80Backend

/-! ## Balanced bodies -/

/-- The kinds of the blocks that are open behind a statement, given those before
    it, the innermost first.  There are none where the statement continues or
    closes a block that is not open, or not of its kind. -/
def Stmt.nest : Stmt → List BlockKind → Option (List BlockKind)
  | .ifOpen .., ks => some (.ifBlock :: ks)
  | .whileOpen .., ks => some (.whileBlock :: ks)
  | .repeatOpen .., ks => some (.repeatBlock :: ks)
  | .selectOpen .., ks => some (.selectBlock :: ks)
  | .elseArm _, ks =>
    match ks with
    | .ifBlock :: _ | .selectBlock :: _ => some ks
    | _ => none
  | .caseArm .., ks =>
    match ks with
    | .selectBlock :: _ => some ks
    | _ => none
  | .endBlock _, ks =>
    match ks with
    | .ifBlock :: ks | .whileBlock :: ks | .selectBlock :: ks => some ks
    | _ => none
  | .untilClose .., ks =>
    match ks with
    | .repeatBlock :: ks => some ks
    | _ => none
  | .instr _, ks | .label .., ks | .call .., ks => some ks

/-- The kinds of the blocks that are open behind several statements. -/
def Stmt.nestAll : List Stmt → List BlockKind → Option (List BlockKind)
  | [], ks => some ks
  | st :: sts, ks => (st.nest ks).bind (nestAll sts)

mutual

/-- The kinds of the blocks that are open behind an entry of an expanded body.
    A nested body has to close all that it opens. -/
def Node.nest : Node → List BlockKind → Option (List BlockKind)
  | .stmt st, ks => st.nest ks
  | .nested _ body, ks => if Node.nestAll body [] = some [] then some ks else none

/-- The kinds of the blocks that are open behind several entries. -/
def Node.nestAll : List Node → List BlockKind → Option (List BlockKind)
  | [], ks => some ks
  | n :: ns, ks => (n.nest ks).bind (Node.nestAll ns)

end

/-- Does every body of the expansion, on every level, close the blocks that it
    opens, and no others? -/
def Expansion.IsBalanced (x : Expansion) : Prop := Node.nestAll x.body [] = some []

instance (x : Expansion) : Decidable x.IsBalanced :=
  inferInstanceAs (Decidable (Node.nestAll x.body [] = some []))

/-- The statements of an expansion, written out in order. -/
def Expansion.stmts (x : Expansion) : List Stmt := Node.listStmts x.body

namespace Stmt

/-- Blocks further out do not matter to a statement that nests without them. -/
theorem nest_append {st : Stmt} {ks ks' : List BlockKind} (h : st.nest ks = some ks')
    (rest : List BlockKind) : st.nest (ks ++ rest) = some (ks' ++ rest) := by
  cases st with
  | instr | label | call | ifOpen | whileOpen | repeatOpen | selectOpen =>
    cases h
    rfl
  | elseArm | caseArm | endBlock | untilClose =>
    cases ks with
    | nil => cases h
    | cons k ks => cases k <;> cases h <;> rfl

theorem nestAll_append_blocks {sts : List Stmt} {ks ks' : List BlockKind}
    (h : nestAll sts ks = some ks') (rest : List BlockKind) :
    nestAll sts (ks ++ rest) = some (ks' ++ rest) := by
  induction sts generalizing ks with
  | nil =>
    cases h
    rfl
  | cons st sts ih =>
    obtain ⟨ks₁, hst, hsts⟩ := Option.bind_eq_some_iff.mp h
    rw [nestAll, nest_append hst rest]
    exact ih hsts

theorem nestAll_append (sts sts' : List Stmt) (ks : List BlockKind) :
    nestAll (sts ++ sts') ks = (nestAll sts ks).bind (nestAll sts') := by
  induction sts generalizing ks with
  | nil => rfl
  | cons st sts ih =>
    rw [List.cons_append, nestAll, nestAll, Option.bind_assoc]
    exact congrArg _ (funext ih)

end Stmt

/-- Written out, an expanded body nests as it does with its levels kept apart. -/
theorem Node.nestAll_listStmts (ns : List Node) {ks ks' : List BlockKind}
    (h : Node.nestAll ns ks = some ks') : Stmt.nestAll (Node.listStmts ns) ks = some ks' := by
  induction ns using Node.listInduction generalizing ks ks' with
  | nil =>
    rw [Node.nestAll] at h
    rw [Node.listStmts]
    exact h
  | stmt st ns ih =>
    rw [Node.nestAll, Node.nest] at h
    obtain ⟨ks₁, hst, hns⟩ := Option.bind_eq_some_iff.mp h
    rw [Node.listStmts, Node.stmts, List.singleton_append, Stmt.nestAll, hst]
    exact ih hns
  | nested op body ns hbody ih =>
    rw [Node.nestAll, Node.nest] at h
    obtain ⟨ks₁, hin, hns⟩ := Option.bind_eq_some_iff.mp h
    obtain ⟨hclosed, heq⟩ := Option.ite_none_right_eq_some.mp hin
    cases heq
    have hsame : Stmt.nestAll (Node.listStmts body) ks = some ks :=
      Stmt.nestAll_append_blocks (hbody hclosed) ks
    rw [Node.listStmts, Node.stmts, Stmt.nestAll_append, hsame]
    exact ih hns

/-! ## Enclosing blocks -/

/-- The kind of a block, broken or not. -/
def Block.kind : Block → BlockKind
  | ifBlock .. => .ifBlock
  | whileBlock .. => .whileBlock
  | repeatBlock .. => .repeatBlock
  | selectBlock .. => .selectBlock
  | broken k => k

namespace Body

/-- The kinds of the open blocks. -/
def kinds (b : Body) : List BlockKind := b.blocks.map Block.kind

/-- What is done to a body stays within its own blocks, and these become `ks`. -/
structure Within (f : Body → Body) (b : Body) (ks : List BlockKind) : Prop where
  kinds : (f b).kinds = ks
  under : ∀ rest, f (b.under rest) = (f b).under rest

variable {r : Resolver} {span : Span} {b : Body} {ks : List BlockKind}

theorem within_openIf (cond : String) (malformed : Bool) :
    Within (openIf r cond malformed span) b (.ifBlock :: b.kinds) := by
  refine ⟨?_, fun rest => openIf_under r span b rest cond malformed⟩
  unfold openIf FnState.condition
  cases malformed with
  | true => rfl
  | false => cases Condition.ofWord? cond <;> rfl

theorem within_openWhile (cond : String) (malformed : Bool) :
    Within (openWhile r cond malformed span) b (.whileBlock :: b.kinds) := by
  refine ⟨?_, fun rest => openWhile_under r span b rest cond malformed⟩
  unfold openWhile FnState.condition
  cases malformed with
  | true => rfl
  | false => cases Condition.ofWord? cond <;> rfl

theorem within_openRepeat (malformed : Bool) :
    Within (openRepeat malformed span) b (.repeatBlock :: b.kinds) := by
  cases malformed <;> exact ⟨rfl, fun _ => rfl⟩

theorem within_elseArm (h : (Stmt.elseArm span).nest b.kinds = some ks) :
    Within (elseArm r span) b ks := by
  obtain ⟨s, blocks⟩ := b
  cases blocks with
  | nil => cases h
  | cons k blocks =>
    refine ⟨?_, fun rest => elseArm_under r span rest (List.cons_ne_nil k blocks)⟩
    cases k with
    | ifBlock o elseLabel endLabel elseSeen exits =>
      cases h
      cases elseSeen <;> rfl
    | selectBlock o endLabel next elseSeen armOpen exits values =>
      cases h
      cases elseSeen <;> rfl
    | whileBlock => cases h
    | repeatBlock => cases h
    | broken kind => cases kind <;> cases h <;> rfl

theorem within_caseArm {es : List Expr} (h : (Stmt.caseArm es span).nest b.kinds = some ks) :
    Within (caseArm r es span) b ks := by
  obtain ⟨s, blocks⟩ := b
  cases blocks with
  | nil => cases h
  | cons k blocks =>
    refine ⟨?_, fun rest => caseArm_under r span rest es (List.cons_ne_nil k blocks)⟩
    cases k with
    | selectBlock o endLabel next elseSeen armOpen exits values =>
      cases h
      cases elseSeen <;> rfl
    | ifBlock => cases h
    | whileBlock => cases h
    | repeatBlock => cases h
    | broken kind =>
      cases kind <;> cases h
      rfl

theorem within_endBlock (h : (Stmt.endBlock span).nest b.kinds = some ks) :
    Within (endBlock r span) b ks := by
  obtain ⟨s, blocks⟩ := b
  cases blocks with
  | nil => cases h
  | cons k blocks =>
    refine ⟨?_, fun rest => endBlock_under r span rest (List.cons_ne_nil k blocks)⟩
    cases k with
    | ifBlock | whileBlock | selectBlock =>
      cases h
      rfl
    | repeatBlock => cases h
    | broken kind => cases kind <;> cases h <;> rfl

theorem within_untilClose {cond : String}
    (h : (Stmt.untilClose cond span).nest b.kinds = some ks) :
    Within (untilClose r cond span) b ks := by
  obtain ⟨s, blocks⟩ := b
  cases blocks with
  | nil => cases h
  | cons k blocks =>
    refine ⟨?_, fun rest => untilClose_under r span rest cond (List.cons_ne_nil k blocks)⟩
    cases k with
    | repeatBlock o top =>
      cases h
      unfold untilClose FnState.condition
      cases Condition.ofWord? cond <;> rfl
    | ifBlock => cases h
    | whileBlock => cases h
    | selectBlock => cases h
    | broken kind =>
      cases kind <;> cases h
      rfl

end Body

namespace FnContext

variable (ctx : FnContext) (lowerOp : Instruction → FnState → FnState)

/-- A statement that nests does not look at the blocks that enclose its body. -/
theorem within_lowerStmt {st : Stmt} {b : Body} {ks : List BlockKind}
    (h : st.nest b.kinds = some ks) : Body.Within (ctx.lowerStmt lowerOp st) b ks := by
  cases st with
  | instr | label | call =>
    cases h
    exact ⟨rfl, fun _ => rfl⟩
  | ifOpen cond malformed span =>
    cases h
    exact Body.within_openIf cond malformed
  | whileOpen cond malformed span =>
    cases h
    exact Body.within_openWhile cond malformed
  | repeatOpen malformed span =>
    cases h
    exact Body.within_openRepeat malformed
  | selectOpen selector malformed span =>
    cases h
    unfold lowerStmt lowerSelect
    dsimp only
    by_cases hbroken : (malformed || selector == .missing) = true
    · simp only [hbroken, if_true]
      exact ⟨rfl, fun _ => rfl⟩
    · simp only [hbroken, Bool.false_eq_true, if_false]
      exact ⟨rfl, fun _ => rfl⟩
  | elseArm span => exact Body.within_elseArm h
  | caseArm es span => exact Body.within_caseArm h
  | endBlock span => exact Body.within_endBlock h
  | untilClose cond span => exact Body.within_untilClose h

/-- Statements that nest do not look at the blocks that enclose them. -/
theorem within_lowerAll {sts : List Stmt} {b : Body} {ks : List BlockKind}
    (h : Stmt.nestAll sts b.kinds = some ks) : Body.Within (ctx.lowerAll lowerOp sts) b ks := by
  induction sts generalizing b with
  | nil =>
    cases h
    exact ⟨rfl, fun _ => rfl⟩
  | cons st sts ih =>
    obtain ⟨ks₁, hst, hsts⟩ := Option.bind_eq_some_iff.mp h
    have hfirst := ctx.within_lowerStmt lowerOp hst
    have hrest := ih (hfirst.kinds ▸ hsts)
    refine ⟨hrest.kinds, fun rest => ?_⟩
    rw [lowerAll_cons, hfirst.under, hrest.under, lowerAll_cons]

/-- Balanced statements leave the enclosing blocks as they are, and do to the
    function what they do with no block around them. -/
theorem lowerAll_of_balanced {sts : List Stmt} (h : Stmt.nestAll sts [] = some []) (b : Body) :
    ctx.lowerAll lowerOp sts b =
      { fn := (ctx.lowerAll lowerOp sts { fn := b.fn }).fn, blocks := b.blocks } := by
  have hown := ctx.within_lowerAll lowerOp (b := { fn := b.fn }) h
  have hempty : (ctx.lowerAll lowerOp sts { fn := b.fn }).blocks = [] :=
    List.map_eq_nil_iff.mp hown.kinds
  have hunder := hown.under b.blocks
  have hb : ({ fn := b.fn } : Body).under b.blocks = b := rfl
  rw [hb] at hunder
  rw [hunder, Body.under, hempty, List.nil_append]

end FnContext

/-! ## Alike but for notices -/

/-- Does the event tell that an op call was expanded? -/
def Event.isExpansion : Event → Bool
  | .expandedOp .. | .expandedNestedOp _ => true
  | _ => false

/-- The events that do not tell of expansions. -/
def Journal.withoutExpansions (j : Journal) : Journal := j.filter fun e => !e.isExpansion

@[simp] theorem Journal.withoutExpansions_append (j k : Journal) :
    Journal.withoutExpansions (j ++ k) =
      Journal.withoutExpansions j ++ Journal.withoutExpansions k :=
  List.filter_append ..

/-- Diagnostics are no notices of expansions. -/
theorem Journal.diagnostics_withoutExpansions (j : Journal) :
    Journal.diagnostics j.withoutExpansions = j.diagnostics := by
  induction j with
  | nil => rfl
  | cons e j ih =>
    rw [← List.singleton_append, withoutExpansions_append, diagnostics_append, ih,
      diagnostics_append]
    cases e <;> rfl

/-- The bodies agree in all but the notices of expansions: in the lines, and so
    in bytes, labels, fixups and listing, in the state of the tracker, the label
    numbers, the diagnostics and the open blocks. -/
structure Body.Alike (b b' : Body) : Prop where
  lines : b.fn.lines = b'.fn.lines
  tracker : b.fn.tracker = b'.fn.tracker
  counter : b.fn.counter = b'.fn.counter
  userLabels : b.fn.userLabels = b'.fn.userLabels
  returns : b.fn.returns = b'.fn.returns
  issues : b.fn.issues = b'.fn.issues
  exhausted : b.fn.exhausted = b'.fn.exhausted
  diagnostics : b.fn.journal.diagnostics = b'.fn.journal.diagnostics
  journal : b.fn.journal.withoutExpansions = b'.fn.journal.withoutExpansions
  blocks : b.blocks = b'.blocks

namespace Body.Alike

/-- One body behind two histories that differ in notices only. -/
theorem of_behind (b : Body) {j j' : Journal}
    (h : j.withoutExpansions = j'.withoutExpansions) :
    (b.behind j false).Alike (b.behind j' false) where
  lines := rfl
  tracker := rfl
  counter := rfl
  userLabels := rfl
  returns := rfl
  issues := rfl
  exhausted := rfl
  diagnostics := by
    rw [behind_fn, behind_fn, FnState.behind_journal, FnState.behind_journal,
      Journal.diagnostics_append, Journal.diagnostics_append,
      ← Journal.diagnostics_withoutExpansions j, h, Journal.diagnostics_withoutExpansions]
  journal := by simp [h]
  blocks := rfl

/-- Bodies that are alike are one body behind two histories. -/
theorem exists_behind {b b' : Body} (h : b.Alike b') :
    ∃ (c : Body) (j j' : Journal), j.withoutExpansions = j'.withoutExpansions ∧
      b = c.behind j false ∧ b' = c.behind j' false := by
  obtain ⟨⟨lines, tracker, counter, userLabels, returns, issues, journal, exhausted⟩, blocks⟩ := b
  obtain ⟨⟨lines', tracker', counter', userLabels', returns', issues', journal', exhausted'⟩,
    blocks'⟩ := b'
  obtain ⟨hlines, htracker, hcounter, huser, hreturns, hissues, hexhausted, -, hjournal,
    hblocks⟩ := h
  dsimp only at *
  subst hlines htracker hcounter huser hreturns hissues hexhausted hblocks
  refine ⟨{ fn := { lines, tracker, counter, userLabels, returns, issues, exhausted }, blocks },
    journal, journal', hjournal, ?_, ?_⟩
  · simp [Body.behind, FnState.behind]
  · simp [Body.behind, FnState.behind]

theorem refl (b : Body) : b.Alike b := ⟨rfl, rfl, rfl, rfl, rfl, rfl, rfl, rfl, rfl, rfl⟩

theorem trans {b b' b'' : Body} (h : b.Alike b') (h' : b'.Alike b'') : b.Alike b'' where
  lines := h.lines.trans h'.lines
  tracker := h.tracker.trans h'.tracker
  counter := h.counter.trans h'.counter
  userLabels := h.userLabels.trans h'.userLabels
  returns := h.returns.trans h'.returns
  issues := h.issues.trans h'.issues
  exhausted := h.exhausted.trans h'.exhausted
  diagnostics := h.diagnostics.trans h'.diagnostics
  journal := h.journal.trans h'.journal
  blocks := h.blocks.trans h'.blocks

/-- Bodies stay alike inside of the same blocks. -/
theorem enclose {b b' : Body} (h : b.Alike b') (bs : List Block) :
    Body.Alike { b with blocks := bs } { b' with blocks := bs } :=
  { h with blocks := rfl }

/-- A notice makes no difference. -/
theorem note (b : Body) {e : Event} (he : e.isExpansion = true) :
    Body.Alike { b with fn := b.fn.note e } b where
  lines := rfl
  tracker := rfl
  counter := rfl
  userLabels := rfl
  returns := rfl
  issues := rfl
  exhausted := rfl
  diagnostics := by
    rw [← Journal.diagnostics_withoutExpansions]
    simp [FnState.note, Journal.withoutExpansions, he, ← Journal.diagnostics_withoutExpansions]
  journal := by simp [FnState.note, Journal.withoutExpansions, he]
  blocks := rfl

end Body.Alike

namespace FnContext

variable (ctx : FnContext)

section

variable {lowerOp : Instruction → FnState → FnState}
  (hop : ∀ (j : Journal) i (s : FnState),
    lowerOp i (s.behind j false) = (lowerOp i s).behind j false)

include hop

/-- Statements lowered after alike histories leave alike bodies. -/
theorem alike_lowerAll (sts : List Stmt) {b b' : Body} (h : b.Alike b') :
    (ctx.lowerAll lowerOp sts b).Alike (ctx.lowerAll lowerOp sts b') := by
  obtain ⟨c, j, j', hj, rfl, rfl⟩ := h.exists_behind
  rw [ctx.lowerAll_behind (hop j), ctx.lowerAll_behind (hop j')]
  exact .of_behind _ hj

/-- An expanded body does what its statements do when they are written out. -/
theorem alike_lowerNodes (ns : List Node) {ks : List BlockKind} (b : Body)
    (h : Node.nestAll ns b.kinds = some ks) :
    (ctx.lowerNodes lowerOp ns b).Alike (ctx.lowerAll lowerOp (Node.listStmts ns) b) := by
  induction ns using Node.listInduction generalizing ks b with
  | nil =>
    rw [lowerNodes, Node.listStmts]
    exact .refl _
  | stmt st ns ih =>
    rw [Node.nestAll, Node.nest] at h
    obtain ⟨ks₁, hst, hns⟩ := Option.bind_eq_some_iff.mp h
    have hkinds := (ctx.within_lowerStmt lowerOp hst).kinds
    rw [lowerNodes, lowerNode, Node.listStmts, Node.stmts]
    exact ih _ (hkinds ▸ hns)
  | nested op body ns hbody ih =>
    rw [Node.nestAll, Node.nest] at h
    obtain ⟨ks₁, hin, hns⟩ := Option.bind_eq_some_iff.mp h
    obtain ⟨hclosed, heq⟩ := Option.ite_none_right_eq_some.mp hin
    cases heq
    have hstmts := Node.nestAll_listStmts body hclosed
    have hself := hbody { fn := b.fn.note (.expandedNestedOp op) } hclosed
    have hnote := ctx.alike_lowerAll hop (Node.listStmts body)
      (Body.Alike.note { fn := b.fn } (e := .expandedNestedOp op) rfl)
    -- The nested body has closed all its blocks, so there is nothing for its end to do.
    have hempty : (ctx.lowerNodes lowerOp body
        { fn := b.fn.note (.expandedNestedOp op) }).blocks = [] := by
      rw [hself.blocks]
      exact List.map_eq_nil_iff.mp (ctx.within_lowerAll lowerOp hstmts).kinds
    have hfirst : (ctx.lowerNode lowerOp (.nested op body) b).Alike
        (ctx.lowerAll lowerOp (Node.listStmts body) b) := by
      rw [lowerNode, ctx.lowerAll_of_balanced lowerOp hstmts b, Body.close, hempty]
      exact (hself.trans hnote).enclose b.blocks
    have hrest := ih (ctx.lowerNode lowerOp (.nested op body) b) hns
    rw [lowerNodes, Node.listStmts, Node.stmts, lowerAll_append]
    exact hrest.trans (ctx.alike_lowerAll hop (Node.listStmts ns) hfirst)

end

/-! ## How deeply calls may nest -/

section

variable {lowerOp lowerOp' : Instruction → FnState → FnState}
  (hmore : ∀ i (s : FnState), (lowerOp i s).exhausted = false → lowerOp' i s = lowerOp i s)

include hmore

theorem lowerInstr_of_ends {i : Instruction} {s : FnState}
    (h : (ctx.lowerInstr lowerOp i s).exhausted = false) :
    ctx.lowerInstr lowerOp' i s = ctx.lowerInstr lowerOp i s := by
  unfold lowerInstr at h ⊢
  dsimp only at h ⊢
  split at h
  · rename_i hisOp
    rw [if_pos hisOp, if_pos hisOp, hmore i s h]
  · rename_i hisOp
    rw [if_neg hisOp, if_neg hisOp]

theorem lowerStmt_of_ends {st : Stmt} {b : Body}
    (h : (ctx.lowerStmt lowerOp st b).fn.exhausted = false) :
    ctx.lowerStmt lowerOp' st b = ctx.lowerStmt lowerOp st b := by
  cases st with
  | instr i => exact congrArg (Body.mk · b.blocks) (ctx.lowerInstr_of_ends hmore h)
  | selectOpen selector malformed span =>
    unfold lowerStmt lowerSelect at h ⊢
    dsimp only at h ⊢
    split
    · rfl
    · rename_i hbroken
      rw [if_neg hbroken] at h
      split
      · rfl
      · rename_i hother
        rw [if_neg hother] at h
        rw [ctx.lowerInstr_of_ends hmore h]
  | label | call | ifOpen | elseArm | endBlock | whileOpen | repeatOpen | untilClose
  | caseArm => rfl

variable (hkeep : ∀ i (s : FnState), s.exhausted = true → (lowerOp i s).exhausted = true)

include hkeep

theorem lowerAll_of_ends {sts : List Stmt} {b : Body}
    (h : (ctx.lowerAll lowerOp sts b).fn.exhausted = false) :
    ctx.lowerAll lowerOp' sts b = ctx.lowerAll lowerOp sts b := by
  induction sts generalizing b with
  | nil => rfl
  | cons st sts ih =>
    have hst : (ctx.lowerStmt lowerOp st b).fn.exhausted = false := by
      refine Bool.eq_false_iff.mpr fun hspent => ?_
      exact Bool.eq_false_iff.mp h (ctx.exhausted_lowerAll hkeep sts hspent)
    rw [lowerAll_cons, lowerAll_cons, ctx.lowerStmt_of_ends hmore hst]
    exact ih h

theorem lowerNodes_of_ends (ns : List Node) (b : Body)
    (h : (ctx.lowerNodes lowerOp ns b).fn.exhausted = false) :
    ctx.lowerNodes lowerOp' ns b = ctx.lowerNodes lowerOp ns b := by
  have hfirst : ∀ (n : Node) ns (b : Body),
      (ctx.lowerNodes lowerOp (n :: ns) b).fn.exhausted = false →
      (ctx.lowerNode lowerOp n b).fn.exhausted = false := by
    intro n ns b h
    rw [lowerNodes] at h
    exact Bool.eq_false_iff.mpr fun hspent =>
      Bool.eq_false_iff.mp h (ctx.exhausted_lowerNodes hkeep ns _ hspent)
  induction ns using Node.listInduction generalizing b with
  | nil => rw [lowerNodes, lowerNodes]
  | stmt st ns ih =>
    have hst := hfirst _ _ _ h
    rw [lowerNodes] at h ⊢
    rw [lowerNode] at h hst ⊢
    rw [lowerNodes, lowerNode, ctx.lowerStmt_of_ends hmore hst, ih _ h]
  | nested op body ns hbody ih =>
    have hn := hfirst _ _ _ h
    rw [lowerNodes] at h ⊢
    rw [lowerNode] at h hn ⊢
    have hin : (ctx.lowerNodes lowerOp body
        { fn := b.fn.note (.expandedNestedOp op) }).fn.exhausted = false :=
      Bool.eq_false_iff.mpr fun hspent => Bool.eq_false_iff.mp hn (Body.exhausted_close hspent)
    rw [lowerNodes, lowerNode, hbody _ hin, ih _ h]

end

/-- An op call that ends within a limit does the same within the next one. -/
theorem lowerOp_of_ends (depth : Nat) (call : Instruction) (s : FnState)
    (h : (ctx.lowerOp depth call s).exhausted = false) :
    ctx.lowerOp (depth + 1) call s = ctx.lowerOp depth call s := by
  induction depth generalizing call s with
  | zero =>
    rw [lowerOp] at h
    cases h
  | succ depth ih =>
    have hs : s.exhausted = false :=
      Bool.eq_false_iff.mpr fun hspent =>
        Bool.eq_false_iff.mp h (ctx.exhausted_lowerOp _ call s hspent)
    rw [ctx.lowerOp_succ depth call hs] at h
    rw [ctx.lowerOp_succ (depth + 1) call hs, ctx.lowerOp_succ depth call hs]
    cases hx : (ctx.ops.expand call s.counter).1 with
    | none => rfl
    | some x =>
      rw [hx] at h
      have hnodes : (ctx.lowerNodes (ctx.lowerOp depth) x.body
          { fn := (ctx.expanded call s).note
              (.expandedOp x.op ctx.name x.instructions.length) }).fn.exhausted = false :=
        Bool.eq_false_iff.mpr fun hspent => Bool.eq_false_iff.mp h (Body.exhausted_close hspent)
      dsimp only
      rw [ctx.lowerNodes_of_ends ih (ctx.exhausted_lowerOp depth) x.body _ hnodes]

/-! ## Calls -/

/-- An op call does what its expansion does, written out in the body of the
    caller once the call has taken its label numbers.

    The call is one level of nesting by itself.  Where it ends within the limit,
    its expansion ends within that limit too when it is written out. -/
theorem alike_inlined (depth : Nat) (call : Instruction) (x : Expansion) (n : Int) (b : Body)
    (hcall : ctx.ops.isOp (Text.lower call.head) = true)
    (hx : ctx.ops.expand call b.fn.counter = (some x, [], n)) (hbalanced : x.IsBalanced)
    (hb : b.fn.exhausted = false) :
    let called : Body := { b with fn := ctx.lowerInstr (ctx.lowerOp (depth + 1)) call b.fn }
    let start : Body := { b with fn := { b.fn with counter := n } }
    called.Alike (ctx.lowerAll (ctx.lowerOp depth) x.stmts start) ∧
      (called.fn.exhausted = false →
        called.Alike (ctx.lowerAll (ctx.lowerOp (depth + 1)) x.stmts start)) := by
  intro called start
  let notice := Event.expandedOp x.op ctx.name x.instructions.length
  let inner : Body := { fn := start.fn.note notice }
  have hstmts : Stmt.nestAll x.stmts [] = some [] := Node.nestAll_listStmts x.body hbalanced
  have hcalled : called =
      { fn := (ctx.lowerNodes (ctx.lowerOp depth) x.body inner).close, blocks := b.blocks } := by
    have hop : ctx.lowerInstr (ctx.lowerOp (depth + 1)) call b.fn =
        ctx.lowerOp (depth + 1) call b.fn := if_pos hcall
    have hexpanded : ctx.expanded call b.fn = start.fn := by
      rw [expanded, hx]
      rfl
    show ({ fn := _, blocks := b.blocks } : Body) = _
    rw [hop, ctx.lowerOp_succ depth call hb, hx, hexpanded]
  have hlevels : (ctx.lowerNodes (ctx.lowerOp depth) x.body inner).Alike
      (ctx.lowerAll (ctx.lowerOp depth) x.stmts inner) :=
    ctx.alike_lowerNodes (fun _ => ctx.lowerOp_behind depth) x.body inner hbalanced
  have hnote : (ctx.lowerAll (ctx.lowerOp depth) x.stmts inner).Alike
      (ctx.lowerAll (ctx.lowerOp depth) x.stmts { fn := start.fn }) :=
    ctx.alike_lowerAll (fun _ => ctx.lowerOp_behind depth) x.stmts (.note { fn := start.fn } rfl)
  have hclosed : (ctx.lowerNodes (ctx.lowerOp depth) x.body inner).blocks = [] := by
    rw [hlevels.blocks]
    exact List.map_eq_nil_iff.mp (ctx.within_lowerAll _ hstmts).kinds
  have halike : called.Alike (ctx.lowerAll (ctx.lowerOp depth) x.stmts start) := by
    rw [hcalled, ctx.lowerAll_of_balanced _ hstmts start, Body.close, hclosed]
    exact (hlevels.trans hnote).enclose b.blocks
  refine ⟨halike, fun hends => ?_⟩
  have hends' : (ctx.lowerAll (ctx.lowerOp depth) x.stmts start).fn.exhausted = false :=
    halike.exhausted ▸ hends
  rw [ctx.lowerAll_of_ends (ctx.lowerOp_of_ends depth) (ctx.exhausted_lowerOp depth) hends']
  exact halike

/-! ### A loop that calls another op

    `pulse` is a loop with a label of its own whose body calls `nudge`, a
    conditional with two arms.  It is called while a conditional of the caller is
    open. -/

/-- `op nudge(r: reg8)`: counts up or down by the carry. -/
def nudge : OpDecl where
  name := "nudge"
  params := [{ name := "r", matcher := .reg8 }]
  body := [.ifOpen "c" false {}, .instr (.of "inc" [.ofReg "r"]), .elseArm {},
    .instr (.of "dec" [.ofReg "r"]), .endBlock {}]

/-- `op pulse()`: nudges `d` until the result is zero. -/
def pulse : OpDecl where
  name := "pulse"
  body := [.repeatOpen false {}, .label "again" {}, .instr (.of "nudge" [.ofReg "d"]),
    .untilClose "z" {}]

/-- A function that can call both. -/
def pulsing : FnContext where
  name := "main"
  resolver := .empty
  ops := { resolver := .empty, decls := [nudge, pulse] }
  scope := fun _ => none
  nesting := 1

/-- What `nudge d` becomes. -/
def nudgeNodes : List Node :=
  [.stmt (.ifOpen "c" false {}), .stmt (.instr (.of "inc" [.ofReg "d"])), .stmt (.elseArm {}),
    .stmt (.instr (.of "dec" [.ofReg "d"])), .stmt (.endBlock {})]

/-- What `pulse` becomes when label number 3 is the next one. -/
def pulseExpansion : Expansion where
  op := { name := "pulse", signature := "pulse()", chain := ["pulse"], span := {} }
  body := [.stmt (.repeatOpen false {}), .stmt (.label "__zax_op_3_again" {}),
    .nested { name := "nudge", signature := "nudge(r: reg8)", chain := ["pulse", "nudge"],
              span := {} }
      nudgeNodes,
    .stmt (.untilClose "z" {})]

/-- The point of the call, inside of a conditional. -/
def pulsePoint : Body := Body.openIf .empty "nz" false {} { fn := {} }

theorem expand_pulse :
    pulsing.ops.expand (.of "Pulse" []) pulsePoint.fn.counter = (some pulseExpansion, [], 4) := by
  have hbody : pulsing.ops.expandDecl [nudge] ["pulse"] {} (.of "nudge" [.ofReg "d"]) nudge 3 =
      (nudgeNodes, [], 4) :=
    Ops.expandBody_cons_of rfl (Ops.expandBody_cons_of rfl (Ops.expandBody_cons_of rfl
      (Ops.expandBody_cons_of rfl (Ops.expandBody_cons_of rfl Ops.expandBody_nil))))
  have hcall : pulsing.ops.expandCall [nudge] ["pulse"] {} (.of "nudge" [.ofReg "d"]) 3 =
      (some { op := Ops.useOf ["pulse"] {} (.of "nudge" [.ofReg "d"]) nudge, body := nudgeNodes },
        [], 4) := by
    rw [Ops.expandCall_of_ok (d := nudge) rfl rfl, hbody]
  have hnudge := Ops.expandStmt_call "pulse" rfl hcall
  have hend : pulsing.ops.expandBody [nudge] ["pulse"] {} "pulse"
      (pulse.instantiate [] "__zax_op_3") [.untilClose "z" {}] 4 =
      ([.stmt (.untilClose "z" {})], [], 4) :=
    Ops.expandBody_cons_of rfl Ops.expandBody_nil
  have hrest := Ops.expandBody_cons_of (s := .instr (.of "nudge" [.ofReg "d"])) hnudge hend
  have hpulse : pulsing.ops.expandDecl pulsing.ops.decls [] {} (.of "Pulse" []) pulse 2 =
      (pulseExpansion.body, [], 4) :=
    Ops.expandBody_cons_of rfl (Ops.expandBody_cons_of rfl hrest)
  show pulsing.ops.expandCall pulsing.ops.decls [] {} (.of "Pulse" []) 2 = _
  rw [Ops.expandCall_of_ok (d := pulse) rfl rfl, hpulse]
  rfl

theorem pulse_ends : (pulsing.lowerInstr (pulsing.lowerOp 1) (.of "Pulse" [])
    pulsePoint.fn).exhausted = false := by
  have hop : pulsing.lowerInstr (pulsing.lowerOp 1) (.of "Pulse" [])
      pulsePoint.fn = pulsing.lowerOp 1 (.of "Pulse" []) pulsePoint.fn := by
    unfold lowerInstr
    exact if_pos rfl
  rw [hop, lowerOp_succ pulsing 0 (.of "Pulse" []) rfl, expand_pulse]
  dsimp only
  rw [expanded, expand_pulse]
  rfl

/-- The call of `pulse` is balanced on both levels, takes two label numbers, and
    does what its eight statements do. -/
theorem pulse_inlined :
    pulseExpansion.IsBalanced ∧ pulseExpansion.stmts.length = 8 ∧
      Body.Alike
        { pulsePoint with
          fn := pulsing.lowerInstr (pulsing.lowerOp 1) (.of "Pulse" []) pulsePoint.fn }
        (pulsing.lowerAll (pulsing.lowerOp 1) pulseExpansion.stmts
          { pulsePoint with fn := { pulsePoint.fn with counter := 4 } }) :=
  ⟨by decide, rfl, (pulsing.alike_inlined 0 (.of "Pulse" []) pulseExpansion 4 pulsePoint rfl
    expand_pulse (by decide) rfl).2 pulse_ends⟩

end FnContext

end Z80Backend
