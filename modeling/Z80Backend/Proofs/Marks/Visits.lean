import Z80Backend.Proofs.Function.Passages
import Z80Backend.Proofs.Marks.Words

/-! # Marks at every statement

    `Body.Visits` says that a step adds lines that marks fit, and that it goes
    through the states before and behind each statement that is lowered on the
    way.  Statements do so one by one, and bodies, expansions and op calls as a
    whole, as long as control enters the blocks as their words expect
    (`Body.Enters`).

    * `FnContext.visits_lowerStmt`: the step lemma, one case for each statement.
    * `FnContext.visits_lowerNodes`, `FnContext.Walks.traces`: expansions. -/

namespace Z80Backend

/-! ## How control enters blocks -/

namespace Body

/-- The select whose lead-in the statement ends, as it was opened: the statement
    is its first arm or, if it has none, its end. -/
def leadIn? (b : Body) (st : Stmt) : Option Opening :=
  match st, b.blocks with
  | .caseArm _ _, .selectBlock o _ _ _ false _ _ :: _ => some o
  | .elseArm _, .selectBlock o _ _ _ false _ _ :: _ => some o
  | .endBlock _, .selectBlock o _ _ _ false _ _ :: _ => some o
  | _, _ => none

/-- The words that end a lead-in. -/
theorem leadIn?_eq_some {b : Body} {st : Stmt} {o : Opening} (h : b.leadIn? st = some o) :
    ∃ last next elseSeen ds vs ks,
      b.blocks = .selectBlock o last next elseSeen false ds vs :: ks ∧
      ((∃ es span, st = .caseArm es span) ∨ (∃ span, st = .elseArm span) ∨
        ∃ span, st = .endBlock span) := by
  unfold leadIn? at h
  split at h
  · rename_i hb
    cases h
    exact ⟨_, _, _, _, _, _, hb, .inl ⟨_, _, rfl⟩⟩
  · rename_i hb
    cases h
    exact ⟨_, _, _, _, _, _, hb, .inr (.inl ⟨_, rfl⟩)⟩
  · rename_i hb
    cases h
    exact ⟨_, _, _, _, _, _, hb, .inr (.inr ⟨_, rfl⟩)⟩
  · cases h

/-- The loop that the statement ends, as it was opened. -/
def loop? (b : Body) (st : Stmt) : Option Opening :=
  match st, b.blocks with
  | .endBlock _, .whileBlock o _ _ _ :: _ => some o
  | .untilClose _ _, .repeatBlock o _ :: _ => some o
  | _, _ => none

theorem loop?_eq_some {b : Body} {st : Stmt} {o : Opening} (h : b.loop? st = some o) :
    ∃ k ks, b.blocks = k :: ks ∧ k.opening? = some o := by
  unfold loop? at h
  split at h
  · rename_i hb
    exact ⟨_, _, hb, h⟩
  · rename_i hb
    exact ⟨_, _, hb, h⟩
  · cases h

/-- Control comes to the end of a lead-in with the mark of the select, and to the
    end of a loop only if it came to its top. -/
structure Enters {α : Type} (T : Marking α) (b : Body) (st : Stmt) : Prop where
  leadIn : ∀ o, b.leadIn? st = some o → ∀ a, T.mark b.fn.tracker = some a → T.entry o = some a
  loop : ∀ o, b.loop? st = some o → b.fn.tracker.live = true → o.live = true

end Body

/-- Control enters the blocks of a passage, if the body before it is grounded. -/
def Passage.Admitted {α : Type} (T : Marking α) (x : Passage) : Prop :=
  ∀ base, x.before.Grounded T base → x.before.Enters T x.stmt

namespace Body.Grounded

variable {α : Type} {T : Marking α} {base : Bool} {b : Body} {r : Resolver} {span : Span}

theorem elseArm (h : b.Grounded T base) (henters : b.Enters T (.elseArm span))
    (hclean : (b.elseArm r span).fn.Clean) :
    (b.elseArm r span).Grounded T base ∧ b.Advances T (b.elseArm r span) := by
  rcases elseArm_cases hclean with ⟨_, _, _, heq⟩ | ⟨_, _, _, _, _, hb⟩ | ⟨o, _, _, _, _, _, _, hb⟩
  · rw [heq]
    exact ⟨h, .refl b⟩
  · exact h.elseArm_if hb hclean
  · refine h.elseArm_select hb ?_ hclean
    rintro rfl
    exact henters.leadIn o (by simp [leadIn?, hb])

theorem nextArm {es : List Expr} (h : b.Grounded T base)
    (henters : b.Enters T (.caseArm es span)) (hclean : (b.caseArm r es span).fn.Clean) :
    (b.caseArm r es span).Grounded T base ∧ b.Advances T (b.caseArm r es span) := by
  rcases caseArm_cases hclean with ⟨_, _, _, heq⟩ | ⟨o, _, _, _, _, _, _, hb⟩
  · rw [heq]
    exact ⟨h, .refl b⟩
  · refine h.caseArm hb ?_ hclean
    rintro rfl
    exact henters.leadIn o (by simp [leadIn?, hb])

theorem endBlock (h : b.Grounded T base) (henters : b.Enters T (.endBlock span))
    (hclean : (b.endBlock r span).fn.Clean) :
    (b.endBlock r span).Grounded T base ∧ b.Advances T (b.endBlock r span) := by
  rcases endBlock_cases hclean with ⟨_, _, hb, heq | heq⟩ | ⟨_, _, _, _, _, _, hb⟩ |
    ⟨o, _, _, _, _, hb⟩ | ⟨o, _, _, _, _, _, _, _, hb⟩
  · rw [heq]
    exact ⟨h, .refl b⟩
  · rw [heq]
    exact h.closeBroken hb
  · exact h.endBlock_if hb hclean
  · exact h.endBlock_while hb (henters.loop o (by simp [loop?, hb])) hclean
  · refine h.endBlock_select hb ?_ hclean
    rintro rfl
    exact henters.leadIn o (by simp [leadIn?, hb])

theorem endRepeat {cond : String} (h : b.Grounded T base)
    (henters : b.Enters T (.untilClose cond span)) (hclean : (b.untilClose r cond span).fn.Clean) :
    (b.untilClose r cond span).Grounded T base ∧ b.Advances T (b.untilClose r cond span) := by
  rcases untilClose_cases hclean with ⟨_, _, hb, heq⟩ | ⟨o, _, _, hb⟩
  · rw [heq]
    exact h.closeBroken hb
  · exact h.untilClose hb (henters.loop o (by simp [loop?, hb])) hclean

end Body.Grounded

/-! ## Visits -/

/-- The passage is a statement that is lowered without a report, starting with a
    body that is grounded and whose blocks control enters. -/
def Passage.IsLowered {α : Type} (T : Marking α) (ctx : FnContext) (x : Passage) : Prop :=
  ∃ base lowerOp, x.before.Grounded T base ∧ x.before.Enters T x.stmt ∧
    x.after = ctx.lowerStmt lowerOp x.stmt x.before ∧ x.after.fn.Clean

namespace Body

variable {α : Type}

/-- The step from `b` to `b'` goes through `c`, a state of the body itself or of
    one that is lowered inside of its blocks. -/
def Through (T : Marking α) (b c b' : Body) : Prop :=
  ∃ ks, Advances T b (c.under ks) ∧ Advances T (c.under ks) b'

/-- The step from `b` to `b'` adds lines that marks fit.  The statements `seen`
    are lowered on the way. -/
structure Visits (T : Marking α) (ctx : FnContext) (b b' : Body) (seen : List Passage) : Prop where
  advances : Advances T b b'
  before : ∀ x ∈ seen, Through T b x.before b'
  behind : ∀ x ∈ seen, Through T b x.after b'
  lowered : ∀ x ∈ seen, x.IsLowered T ctx

variable {T : Marking α} {ctx : FnContext} {b b' b'' c : Body} {seen seen' : List Passage}

theorem Through.append (h : Through T b c b') (h' : Advances T b' b'') : Through T b c b'' := by
  obtain ⟨ks, hbefore, hbehind⟩ := h
  exact ⟨ks, hbefore, hbehind.trans h'⟩

theorem Through.prepend (h : Advances T b b') (h' : Through T b' c b'') : Through T b c b'' := by
  obtain ⟨ks, hbefore, hbehind⟩ := h'
  exact ⟨ks, h.trans hbefore, hbehind⟩

theorem Through.under (h : Through T b c b') (ks : List Block) :
    Through T (b.under ks) c (b'.under ks) := by
  obtain ⟨ks', hbefore, hbehind⟩ := h
  refine ⟨ks' ++ ks, ?_, ?_⟩
  · rw [← under_under]
    exact hbefore.under ks
  · rw [← under_under]
    exact hbehind.under ks

namespace Visits

/-- A step on which no statement is lowered. -/
theorem of_advances (h : Advances T b b') : Visits T ctx b b' [] :=
  ⟨h, List.forall_mem_nil _, List.forall_mem_nil _, List.forall_mem_nil _⟩

theorem trans (h : Visits T ctx b b' seen) (h' : Visits T ctx b' b'' seen') :
    Visits T ctx b b'' (seen ++ seen') where
  advances := h.advances.trans h'.advances
  before := List.forall_mem_append.mpr
    ⟨fun x hx => (h.before x hx).append h'.advances,
      fun x hx => .prepend h.advances (h'.before x hx)⟩
  behind := List.forall_mem_append.mpr
    ⟨fun x hx => (h.behind x hx).append h'.advances,
      fun x hx => .prepend h.advances (h'.behind x hx)⟩
  lowered := List.forall_mem_append.mpr ⟨h.lowered, h'.lowered⟩

theorem under (h : Visits T ctx b b' seen) (ks : List Block) :
    Visits T ctx (b.under ks) (b'.under ks) seen where
  advances := h.advances.under ks
  before x hx := (h.before x hx).under ks
  behind x hx := (h.behind x hx).under ks
  lowered := h.lowered

/-- The whole step is a statement. -/
theorem here {st : Stmt} (h : Visits T ctx b b' seen)
    (hlowered : Passage.IsLowered T ctx ⟨b, st, b'⟩) :
    Visits T ctx b b' (⟨b, st, b'⟩ :: seen) where
  advances := h.advances
  before := List.forall_mem_cons.mpr
    ⟨⟨[], by rw [under_nil]; exact .refl b, by rw [under_nil]; exact h.advances⟩, h.before⟩
  behind := List.forall_mem_cons.mpr
    ⟨⟨[], by rw [under_nil]; exact h.advances, by rw [under_nil]; exact .refl b'⟩, h.behind⟩
  lowered := List.forall_mem_cons.mpr ⟨hlowered, h.lowered⟩

end Visits

end Body

/-! ## Statements -/

namespace FnContext

variable {α : Type}

/-- Marks fit the lines of the statements that are `ok` and leave the blocks
    alone, those in the expansions of op calls included. -/
structure Traces (ctx : FnContext) (T : Marking α) (lowerOp : Instruction → FnState → FnState)
    (ops : Instruction → FnState → List Passage) (ok : Stmt → Prop) : Prop where
  instr : ∀ {i} {s : FnState}, ok (.instr i) → s.InBounds T →
    (ctx.lowerInstr lowerOp i s).Clean → (∀ x ∈ ctx.instrPassages ops i s, x.Admitted T) →
    s.Moves T (ctx.lowerInstr lowerOp i s) ∧
      Body.Visits T ctx { fn := s } { fn := ctx.lowerInstr lowerOp i s } (ctx.instrPassages ops i s)
  label : ∀ {name span} {s : FnState}, ok (.label name span) →
    (ctx.defineLabel name span s).Clean → s.Moves T (ctx.defineLabel name span s)
  call : ∀ {callee args span} {s : FnState}, ok (.call callee args span) →
    (ctx.lowerCall callee args span s).Clean → s.Moves T (ctx.lowerCall callee args span s)
  load : ∀ {selector span}, ok (.selectOpen selector false span) → selector ≠ .missing →
    selector.isReg "a" = false →
    ok (.instr { head := "ld", operands := [.ofReg "a", selector], span })

variable {ctx : FnContext} {T : Marking α} {lowerOp : Instruction → FnState → FnState}
  {ops : Instruction → FnState → List Passage} {ok : Stmt → Prop} {base : Bool} {st : Stmt}
  {b : Body}

theorem visits_lowerSelect {selector : Operand} {malformed : Bool} {span : Span}
    (htraces : ctx.Traces T lowerOp ops ok) (h : b.Grounded T base)
    (hst : ok (.selectOpen selector malformed span))
    (hclean : (ctx.lowerSelect lowerOp selector malformed span b).fn.Clean)
    (hadmitted : ∀ x ∈ ctx.innerPassages ops (.selectOpen selector malformed span) b,
      x.Admitted T) :
    (ctx.lowerSelect lowerOp selector malformed span b).Grounded T base ∧
      b.Visits T ctx (ctx.lowerSelect lowerOp selector malformed span b)
        (ctx.innerPassages ops (.selectOpen selector malformed span) b) := by
  -- the select opens behind the code that loads its selector
  have hopened : ∀ s seen, b.fn.Moves T s → Body.Visits T ctx { fn := b.fn } { fn := s } seen →
      (Body.openSelect span { b with fn := s }).Grounded T base ∧
        b.Visits T ctx (Body.openSelect span { b with fn := s }) seen := by
    intro s seen hmoves hvisits
    have hopen : (Body.openSelect span { b with fn := s }).Grounded T base ∧
        Body.Advances T { b with fn := s } (Body.openSelect span { b with fn := s }) :=
      (h.moves hmoves).openSelect
    refine ⟨hopen.1, ?_⟩
    have hsteps := (hvisits.under b.blocks).trans (.of_advances hopen.2)
    rwa [List.append_nil] at hsteps
  unfold lowerSelect at hclean ⊢
  unfold innerPassages at hadmitted ⊢
  by_cases hbroken : (malformed || selector == .missing) = true
  · simp only [hbroken, if_true, Bool.true_or] at hclean ⊢
    obtain ⟨hgrounded, hadv⟩ := h.openBroken .selectBlock
    exact ⟨hgrounded, .of_advances hadv⟩
  simp only [hbroken, Bool.false_or] at hclean hadmitted ⊢
  by_cases hreg : selector.isReg "a" = true
  · simp only [hreg, if_true] at hclean ⊢
    exact hopened b.fn [] (.refl _) (.of_advances (.refl _))
  simp only [hreg] at hclean hadmitted ⊢
  simp only [Bool.or_eq_true, beq_iff_eq, not_or, Bool.not_eq_true] at hbroken
  obtain ⟨rfl, hmissing⟩ := hbroken
  have hload := htraces.load hst hmissing (by simpa using hreg)
  obtain ⟨hmoves, hvisits⟩ := htraces.instr hload h.inBounds
    ((Body.extends_openSelect span _).clean hclean) hadmitted
  exact hopened _ _ hmoves hvisits

/-- A statement keeps a body grounded. -/
theorem visits_lowerStmt (htraces : ctx.Traces T lowerOp ops ok) (h : b.Grounded T base)
    (hst : ok st) (hclean : (ctx.lowerStmt lowerOp st b).fn.Clean)
    (hadmitted : ∀ x ∈ ctx.stmtPassages lowerOp ops st b, x.Admitted T) :
    (ctx.lowerStmt lowerOp st b).Grounded T base ∧
      b.Visits T ctx (ctx.lowerStmt lowerOp st b) (ctx.stmtPassages lowerOp ops st b) := by
  obtain ⟨hown, hinner⟩ := List.forall_mem_cons.mp hadmitted
  have hown : b.Enters T st := hown base h
  -- the statement is the first of its own passages, the others are inside of it
  suffices hvisits : (ctx.lowerStmt lowerOp st b).Grounded T base ∧
      b.Visits T ctx (ctx.lowerStmt lowerOp st b) (ctx.innerPassages ops st b) by
    exact ⟨hvisits.1, hvisits.2.here ⟨base, lowerOp, h, hown, rfl, hclean⟩⟩
  have hword : ∀ b' : Body, b'.Grounded T base ∧ b.Advances T b' →
      b'.Grounded T base ∧ b.Visits T ctx b' [] :=
    fun b' hb' => ⟨hb'.1, .of_advances hb'.2⟩
  have hmoves : ∀ s : FnState, b.fn.Moves T s →
      Body.Grounded T base { b with fn := s } ∧ b.Advances T { b with fn := s } :=
    fun s hs => ⟨h.moves hs, hs.advances.under b.blocks⟩
  cases st with
  | instr i =>
    obtain ⟨hmoves, hvisits⟩ := htraces.instr hst h.inBounds hclean hinner
    exact ⟨h.moves hmoves, hvisits.under b.blocks⟩
  | label name span => exact hword _ (hmoves _ (htraces.label hst hclean))
  | call callee args span => exact hword _ (hmoves _ (htraces.call hst hclean))
  | ifOpen cond malformed span => exact hword _ (h.openIf hclean)
  | whileOpen cond malformed span => exact hword _ (h.openWhile hclean)
  | repeatOpen malformed span => exact hword _ h.openRepeat
  | selectOpen selector malformed span => exact visits_lowerSelect htraces h hst hclean hinner
  | elseArm span => exact hword _ (h.elseArm hown hclean)
  | caseArm es span => exact hword _ (h.nextArm hown hclean)
  | endBlock span => exact hword _ (h.endBlock hown hclean)
  | untilClose cond span => exact hword _ (h.endRepeat hown hclean)

/-! ## Expansions -/

/-- A body that ends without a report is left as one step. -/
theorem visits_close {s : FnState} {seen : List Passage} (h : b.Grounded T s.tracker.live)
    (hvisits : Body.Visits T ctx { fn := s } b seen) (hclean : b.close.Clean) :
    s.Moves T b.close ∧ Body.Visits T ctx { fn := s } { fn := b.close } seen := by
  -- only broken blocks are left open without a report
  obtain ⟨hclose, hbroken⟩ := Body.close_eq_of_clean hclean
  have hfn : b.close = b.fn := hclose
  have hpending : b.blocks.flatMap Block.pending = [] := by
    refine List.flatMap_eq_nil_iff.mpr fun k hk => ?_
    obtain ⟨kind, rfl⟩ := hbroken k hk
    rfl
  have hadv : Body.Advances T b { fn := b.fn } := by
    refine .of_blocks rfl rfl (fun _ => Int.le_refl _) hpending.symm
      (fun _ _ => List.forall_mem_nil _) fun Λ _ k hk => ?_
    obtain ⟨kind, rfl⟩ := hbroken k hk
    trivial
  have hsteps := hvisits.trans (.of_advances hadv)
  rw [List.append_nil] at hsteps
  have hrooted : ∀ ks : List Block, (∀ k ∈ ks, ∃ kind, k = .broken kind) →
      Block.Rooted s.tracker.live b.fn.tracker.live ks →
      b.fn.tracker.live = true → s.tracker.live = true := by
    intro ks hks hrooted
    induction ks with
    | nil => exact hrooted
    | cons k ks ih =>
      obtain ⟨⟨kind, rfl⟩, hrest⟩ := List.forall_mem_cons.mp hks
      exact ih hrest hrooted
  rw [hfn]
  exact ⟨⟨hsteps.advances, fun hbare => hrooted b.blocks hbroken (h.rooted hbare),
    fun _ => h.inBounds⟩, hsteps⟩

section

variable (htraces : ctx.Traces T lowerOp ops ok)
  (hext : ∀ i (s : FnState), s.Extends (lowerOp i s))

include htraces hext

theorem visits_lowerNodes (ns : List Node) (base : Bool) (b : Body) (h : b.Grounded T base)
    (hns : ∀ st ∈ Node.listStmts ns, ok st) (hclean : (ctx.lowerNodes lowerOp ns b).fn.Clean)
    (hadmitted : ∀ x ∈ ctx.nodesPassages lowerOp ops ns b, x.Admitted T) :
    (ctx.lowerNodes lowerOp ns b).Grounded T base ∧
      b.Visits T ctx (ctx.lowerNodes lowerOp ns b) (ctx.nodesPassages lowerOp ops ns b) := by
  induction ns using Node.listInduction generalizing base b with
  | nil =>
    rw [lowerNodes, nodesPassages]
    exact ⟨h, .of_advances (.refl b)⟩
  | stmt st ns ih =>
    rw [nodesPassages, nodePassages, lowerNode] at hadmitted ⊢
    rw [lowerNodes, lowerNode] at hclean ⊢
    obtain ⟨hst, hns⟩ := List.forall_mem_cons.mp hns
    obtain ⟨hadmitted, hadmitted'⟩ := List.forall_mem_append.mp hadmitted
    have hfirst := (ctx.extends_lowerNodes hext ns _).clean hclean
    obtain ⟨h', hvisits⟩ := visits_lowerStmt htraces h hst hfirst hadmitted
    obtain ⟨hend, hvisits'⟩ := ih base _ h' hns hclean hadmitted'
    exact ⟨hend, hvisits.trans hvisits'⟩
  | nested op body ns hbody ih =>
    rw [nodesPassages, nodePassages, lowerNode] at hadmitted ⊢
    rw [lowerNodes, lowerNode] at hclean ⊢
    obtain ⟨hin, hns⟩ := List.forall_mem_append.mp hns
    obtain ⟨hadmitted, hadmitted'⟩ := List.forall_mem_append.mp hadmitted
    have hfirst := (ctx.extends_lowerNodes hext ns _).clean hclean
    have hnote : b.fn.Moves T (b.fn.note (.expandedNestedOp op)) := .note _
    -- the body of the nested op has blocks of its own
    obtain ⟨hend, hvisits⟩ := hbody _ { fn := b.fn.note (.expandedNestedOp op) }
      (.start (hnote.inBounds h.inBounds)) hin ((Body.extends_close _).clean hfirst) hadmitted
    obtain ⟨hmoves, hsteps⟩ := visits_close hend hvisits hfirst
    obtain ⟨hend', hvisits'⟩ := ih base _ (h.moves (hnote.trans hmoves)) hns hclean hadmitted'
    exact ⟨hend', (((Body.Visits.of_advances hnote.advances).trans hsteps).under b.blocks).trans
      hvisits'⟩

theorem visits_body {ns : List Node} {s : FnState} (hs : s.InBounds T)
    (hns : ∀ st ∈ Node.listStmts ns, ok st)
    (hclean : (ctx.lowerNodes lowerOp ns { fn := s }).close.Clean)
    (hadmitted : ∀ x ∈ ctx.nodesPassages lowerOp ops ns { fn := s }, x.Admitted T) :
    s.Moves T (ctx.lowerNodes lowerOp ns { fn := s }).close ∧
      Body.Visits T ctx { fn := s } { fn := (ctx.lowerNodes lowerOp ns { fn := s }).close }
        (ctx.nodesPassages lowerOp ops ns { fn := s }) := by
  obtain ⟨hend, hvisits⟩ := visits_lowerNodes htraces hext ns _ { fn := s } (.start hs) hns
    ((Body.extends_close _).clean hclean) hadmitted
  exact visits_close hend hvisits hclean

end

/-- Marks fit the lines of the statements that are `ok` where op calls may still
    nest so deeply, op calls apart, and these expand to such statements. -/
structure Walks (ctx : FnContext) (T : Marking α) (ok : Nat → Stmt → Prop) : Prop where
  instr : ∀ {depth lowerOp i} {s : FnState}, ok depth (.instr i) →
    ctx.ops.isOp (Text.lower i.head) = false → (ctx.lowerInstr lowerOp i s).Clean →
    s.Moves T (ctx.lowerInstr lowerOp i s)
  expand : ∀ {depth call n x}, ok (depth + 1) (.instr call) →
    ctx.ops.isOp (Text.lower call.head) = true → (ctx.ops.expand call n).1 = some x →
    ∀ st ∈ Node.listStmts x.body, ok depth st
  label : ∀ {depth name span} {s : FnState}, ok depth (.label name span) →
    (ctx.defineLabel name span s).Clean → s.Moves T (ctx.defineLabel name span s)
  call : ∀ {depth callee args span} {s : FnState}, ok depth (.call callee args span) →
    (ctx.lowerCall callee args span s).Clean → s.Moves T (ctx.lowerCall callee args span s)
  load : ∀ {depth selector span}, ok depth (.selectOpen selector false span) →
    selector ≠ .missing → selector.isReg "a" = false →
    ok depth (.instr { head := "ld", operands := [.ofReg "a", selector], span })

namespace Walks

variable {ok : Nat → Stmt → Prop} (h : ctx.Walks T ok)

include h

/-- Marks fit the lines of statements once they fit those of op calls. -/
theorem traces_of_lowerOp {depth : Nat}
    (hop : ∀ {call} {s : FnState}, ok depth (.instr call) →
      ctx.ops.isOp (Text.lower call.head) = true → s.InBounds T →
      (ctx.lowerOp depth call s).Clean → (∀ x ∈ ctx.opPassages depth call s, x.Admitted T) →
      s.Moves T (ctx.lowerOp depth call s) ∧
        Body.Visits T ctx { fn := s } { fn := ctx.lowerOp depth call s }
          (ctx.opPassages depth call s)) :
    ctx.Traces T (ctx.lowerOp depth) (ctx.opPassages depth) (ok depth) := by
  refine ⟨fun {i s} hi hs hclean hadmitted => ?_, h.label, h.call, h.load⟩
  by_cases hisOp : ctx.ops.isOp (Text.lower i.head) = true
  · unfold lowerInstr at hclean ⊢
    unfold instrPassages at hadmitted ⊢
    dsimp only at hclean ⊢
    rw [if_pos hisOp] at hclean hadmitted ⊢
    rw [if_pos hisOp]
    exact hop hi hisOp hs hclean hadmitted
  · have hmoves := h.instr hi (by simpa using hisOp) hclean
    rw [instrPassages, if_neg hisOp]
    exact ⟨hmoves, .of_advances hmoves.advances⟩

/-- Marks fit the lines of statements, however deeply op calls nest. -/
theorem traces (depth : Nat) :
    ctx.Traces T (ctx.lowerOp depth) (ctx.opPassages depth) (ok depth) := by
  have hcount : ∀ (s : FnState) (n : Int), s.counter ≤ n → s.Moves T { s with counter := n } :=
    fun s n hn => .of_eq rfl rfl fun _ => hn
  induction depth with
  | zero =>
    refine h.traces_of_lowerOp fun {call s} _ _ _ _ _ => ?_
    have hmoves : s.Moves T (ctx.lowerOp 0 call s) := .of_eq rfl rfl fun _ => Int.le_refl _
    exact ⟨hmoves, .of_advances hmoves.advances⟩
  | succ depth ih =>
    refine h.traces_of_lowerOp fun {call s} hcall hisOp hs hclean hadmitted => ?_
    -- the call may also be one that ended without an expansion
    rcases lowerOp_of_clean hclean with ⟨n, hn, heq, hseen⟩ | ⟨n, x, b, hn, hx, rfl, heq, hseen⟩
    · rw [heq, hseen]
      exact ⟨hcount s n hn, .of_advances (hcount s n hn).advances⟩
    · have hnote := (hcount s n hn).trans (.note (.expandedOp x.op ctx.name x.instructions.length))
      rw [heq] at hclean ⊢
      rw [hseen] at hadmitted ⊢
      obtain ⟨hmoves, hvisits⟩ := visits_body ih (ctx.extends_lowerOp depth) (hnote.inBounds hs)
        (h.expand hcall hisOp hx) hclean hadmitted
      exact ⟨hnote.trans hmoves, (Body.Visits.of_advances hnote.advances).trans hvisits⟩

end Walks

end FnContext

end Z80Backend
