import Z80Backend.Proofs.Stack.LeadIns

/-! # Structured bodies

    Control is structured in a body that has no labels and no jumps of its
    own, whose opening words could be read, and in which an arm or the end
    follows each `select` directly.  Op calls count as what they expand to.
    Such a body is free of jumps, and all of its lead-ins are empty, hence
    level (`FnContext.isLevel_lowerNodes`). -/

namespace Z80Backend

/-! ## Structured control -/

/-- Does the statement open a select? -/
def Stmt.opensSelect : Stmt → Bool
  | selectOpen .. => true
  | _ => false

/-- May the statement follow the opening of a select? -/
def Stmt.continuesSelect : Stmt → Bool
  | caseArm .. | elseArm _ | endBlock _ => true
  | _ => false

/-- Control is structured in a statement; `plain` says so of an instruction. -/
def Stmt.IsStructured (plain : Instruction → Prop) : Stmt → Prop
  | instr i => plain i
  | label _ _ => False
  | ifOpen _ malformed _ | whileOpen _ malformed _ | repeatOpen malformed _ => malformed = false
  | selectOpen selector malformed span =>
    malformed = false ∧ selector ≠ .missing ∧
      (selector.isReg "a" = false →
        plain { head := "ld", operands := [.ofReg "a", selector], span })
  | _ => True

/-- Does the entry open a select? -/
def Node.opensSelect : Node → Bool
  | stmt st => st.opensSelect
  | nested .. => false

/-- May the entry follow the opening of a select? -/
def Node.continuesSelect : Node → Bool
  | stmt st => st.continuesSelect
  | nested .. => false

mutual

/-- Control is structured in an entry of an expanded body. -/
def Node.IsStructured (plain : Instruction → Prop) : Node → Prop
  | .stmt st => st.IsStructured plain
  | .nested _ body => Node.ListStructured plain false body

/-- Control is structured in the entries of an expanded body; `after` tells
    whether the entry before them opened a select. -/
def Node.ListStructured (plain : Instruction → Prop) : Bool → List Node → Prop
  | _, [] => True
  | after, n :: ns =>
    (after = true → n.continuesSelect = true) ∧ n.IsStructured plain ∧
      Node.ListStructured plain n.opensSelect ns

end

/-- Control is structured in an instruction: it is an op call whose expansion
    is structured, whatever numbers the labels get, or else no jump.  `depth`
    is how deeply op calls may still nest. -/
def FnContext.IsStructured (ctx : FnContext) : Nat → Instruction → Prop
  | 0, i => ctx.ops.isOp (Text.lower i.head) = false → Text.lower i.head ∉ ["jp", "jr", "djnz"]
  | depth + 1, i =>
    if ctx.ops.isOp (Text.lower i.head) then
      ∀ n x, (ctx.ops.expand i n).1 = some x →
        Node.ListStructured (ctx.IsStructured depth) false x.body
    else Text.lower i.head ∉ ["jp", "jr", "djnz"]

/-! ## Structured bodies are free of jumps -/

theorem Stmt.IsStructured.isJumpFree {plain plain' : Instruction → Prop}
    (hplain : ∀ i, plain i → plain' i) {st : Stmt} (h : st.IsStructured plain) :
    st.IsJumpFree plain' := by
  cases st with
  | instr i => exact hplain i h
  | label name span => exact h
  | selectOpen selector malformed span => exact fun _ _ hreg => hplain _ (h.2.2 hreg)
  | _ => trivial

theorem Node.ListStructured.listJumpFree {plain plain' : Instruction → Prop}
    (hplain : ∀ i, plain i → plain' i) (ns : List Node) (after : Bool)
    (h : Node.ListStructured plain after ns) : Node.ListJumpFree plain' ns := by
  induction ns using Node.listInduction generalizing after with
  | nil =>
    rw [Node.ListJumpFree]
    trivial
  | stmt st ns ih =>
    rw [Node.ListStructured, Node.IsStructured] at h
    rw [Node.ListJumpFree, Node.IsJumpFree]
    exact ⟨h.2.1.isJumpFree hplain, ih _ h.2.2⟩
  | nested op body ns hbody ih =>
    rw [Node.ListStructured, Node.IsStructured] at h
    rw [Node.ListJumpFree, Node.IsJumpFree]
    exact ⟨hbody false h.2.1, ih _ h.2.2⟩

theorem FnContext.IsStructured.isJumpFree {ctx : FnContext} {depth : Nat} {i : Instruction}
    (h : ctx.IsStructured depth i) : ctx.IsJumpFree depth i := by
  induction depth generalizing i with
  | zero => exact h
  | succ depth ih =>
    rw [IsStructured] at h
    rw [IsJumpFree]
    split at h
    · rename_i hop
      rw [if_pos hop]
      exact fun n x hx => Node.ListStructured.listJumpFree (fun _ => ih) x.body false (h n x hx)
    · rename_i hop
      rwa [if_neg hop]

/-! ## Blocks -/

/-- The block is no select, or one inside an arm. -/
def Block.InArm : Block → Prop
  | selectBlock _ _ _ _ armOpen _ _ => armOpen = true
  | _ => True

/-- All selects are inside an arm, but for the innermost block if a select was
    just opened, as `after` tells: the tracker is where it was opened. -/
def Body.Even (after : Bool) (b : Body) : Prop :=
  if after then
    ∃ o last ks, b.blocks = .selectBlock o last none false false [] [] :: ks ∧
      o.depth = b.fn.tracker.depth ∧ ∀ k ∈ ks, k.InArm
  else ∀ k ∈ b.blocks, k.InArm

namespace Body.Even

variable {after : Bool} {b : Body} {k : Block} {ks : List Block} {r : Resolver} {span : Span}

theorem start (s : FnState) : Even false { fn := s } := List.forall_mem_nil _

theorem outer (h : b.Even after) (hb : b.blocks = k :: ks) : ∀ k ∈ ks, k.InArm := by
  cases after with
  | true =>
    obtain ⟨o, last, ks', hb', _, hks⟩ := h
    cases hb.symm.trans hb'
    exact hks
  | false => exact fun k' hk => h k' (hb ▸ List.mem_cons_of_mem k hk)

theorem of_broken {kind : BlockKind} (h : b.Even after) (hb : b.blocks = .broken kind :: ks) :
    b.Even false := by
  cases after with
  | true =>
    obtain ⟨_, _, _, hb', _⟩ := h
    cases hb.symm.trans hb'
  | false => exact h

theorem isLevel (h : b.Even after) (st : Stmt) : b.isLevel st = true := by
  cases ho : b.leadIn? st with
  | none => rw [Body.isLevel, ho]
  | some o =>
    obtain ⟨last, next, elseSeen, ds, vs, ks, hb, _⟩ := leadIn?_eq_some ho
    cases after with
    | true =>
      obtain ⟨_, _, _, hb', hdepth, _⟩ := h
      cases hb.symm.trans hb'
      simp [Body.isLevel, ho, hdepth]
    | false => cases h _ (hb ▸ List.mem_cons_self)

theorem elseArm (h : b.Even after) (hclean : (b.elseArm r span).fn.Clean) :
    (b.elseArm r span).Even false := by
  rcases elseArm_cases hclean with ⟨_, _, hb, heq⟩ | ⟨_, _, _, _, _, hb⟩ | ⟨_, _, _, _, _, _, _, hb⟩
  · rw [heq]
    exact h.of_broken hb
  · rw [elseArm_if_of_clean hb hclean]
    exact List.forall_mem_cons.mpr ⟨trivial, h.outer hb⟩
  · rw [elseArm_select_of_clean hb hclean]
    exact List.forall_mem_cons.mpr ⟨rfl, h.outer hb⟩

theorem caseArm {es : List Expr} (h : b.Even after) (hclean : (b.caseArm r es span).fn.Clean) :
    (b.caseArm r es span).Even false := by
  rcases caseArm_cases hclean with ⟨_, _, hb, heq⟩ | ⟨_, _, _, _, _, _, _, hb⟩
  · rw [heq]
    exact h.of_broken hb
  · obtain ⟨_, _, _, _, _, _, _, heq⟩ := caseArm_of_clean hb hclean
    rw [heq]
    exact List.forall_mem_cons.mpr ⟨rfl, h.outer hb⟩

theorem endBlock (h : b.Even after) (hclean : (b.endBlock r span).fn.Clean) :
    (b.endBlock r span).Even false := by
  rcases endBlock_cases hclean with ⟨_, _, hb, heq | heq⟩ | ⟨_, _, _, _, _, _, hb⟩ |
    ⟨_, _, _, _, _, hb⟩ | ⟨_, _, _, _, _, _, _, _, hb⟩
  · rw [heq]
    exact h.of_broken hb
  · rw [heq]
    exact h.outer hb
  · rw [(endBlock_if_of_clean hb hclean).2]
    exact h.outer hb
  · rw [(endBlock_while_of_clean hb hclean).2]
    exact h.outer hb
  · rw [(endBlock_select_of_clean hb hclean).2]
    exact h.outer hb

theorem untilClose {cond : String} (h : b.Even after)
    (hclean : (b.untilClose r cond span).fn.Clean) : (b.untilClose r cond span).Even false := by
  rcases untilClose_cases hclean with ⟨_, _, hb, heq⟩ | ⟨_, _, _, hb⟩
  · rw [heq]
    exact h.outer hb
  · obtain ⟨_, _, _, heq⟩ := untilClose_of_clean hb hclean
    rw [heq]
    exact h.outer hb

end Body.Even

/-! ## Statements -/

namespace FnContext

/-- The lead-ins in the expansions of op calls are level. -/
def OpsLevel (ctx : FnContext) (lowerOp : Instruction → FnState → FnState)
    (ops : Instruction → FnState → List Passage) (plain : Instruction → Prop) : Prop :=
  ∀ i (s : FnState), ctx.ops.isOp (Text.lower i.head) = true → plain i → (lowerOp i s).Clean →
    ∀ x ∈ ops i s, x.isLevel = true

variable {ctx : FnContext} {lowerOp : Instruction → FnState → FnState}
  {ops : Instruction → FnState → List Passage} {plain : Instruction → Prop} {after : Bool}
  {b : Body}

theorem isLevel_lowerInstr (hops : ctx.OpsLevel lowerOp ops plain) {i : Instruction} {s : FnState}
    (hi : plain i) (hclean : (ctx.lowerInstr lowerOp i s).Clean) :
    ∀ x ∈ ctx.instrPassages ops i s, x.isLevel = true := by
  unfold lowerInstr at hclean
  unfold instrPassages
  dsimp only at hclean
  split
  · rename_i hop
    rw [if_pos hop] at hclean
    exact hops i s hop hi hclean
  · exact List.forall_mem_nil _

/-- A select that was just opened is even, and so is what loads its selector. -/
theorem even_lowerSelect (hops : ctx.OpsLevel lowerOp ops plain) {selector : Operand} {span : Span}
    (h : b.Even false) (hst : (Stmt.selectOpen selector false span).IsStructured plain)
    (hclean : (ctx.lowerSelect lowerOp selector false span b).fn.Clean) :
    (ctx.lowerSelect lowerOp selector false span b).Even true ∧
      ∀ x ∈ ctx.innerPassages ops (.selectOpen selector false span) b, x.isLevel = true := by
  obtain ⟨_, hmissing, hload⟩ := hst
  unfold lowerSelect at hclean ⊢
  unfold innerPassages
  rw [if_neg (by simp [hmissing])] at hclean ⊢
  dsimp only at hclean ⊢
  refine ⟨⟨_, _, _, rfl, rfl, h⟩, ?_⟩
  cases hreg : selector.isReg "a" with
  | true => simp
  | false =>
    simp only [hreg] at hclean
    simp only [Bool.false_or, Bool.or_false, beq_iff_eq, hmissing, if_false]
    exact isLevel_lowerInstr hops (hload hreg) ((Body.extends_openSelect span _).clean hclean)

/-- A statement keeps a body even. -/
theorem even_lowerStmt (hops : ctx.OpsLevel lowerOp ops plain) {st : Stmt} (h : b.Even after)
    (hafter : after = true → st.continuesSelect = true) (hst : st.IsStructured plain)
    (hclean : (ctx.lowerStmt lowerOp st b).fn.Clean) :
    (ctx.lowerStmt lowerOp st b).Even st.opensSelect ∧
      ∀ x ∈ ctx.stmtPassages lowerOp ops st b, x.isLevel = true := by
  suffices heven : (ctx.lowerStmt lowerOp st b).Even st.opensSelect ∧
      ∀ x ∈ ctx.innerPassages ops st b, x.isLevel = true by
    exact ⟨heven.1, List.forall_mem_cons.mpr ⟨h.isLevel st, heven.2⟩⟩
  -- behind a select stand the words that go on with it, and no others
  have hbefore : st.continuesSelect = false → b.Even false := by
    intro hst
    cases after with
    | false => exact h
    | true => exact absurd (hafter rfl) (by rw [hst]; decide)
  have hword : ∀ {P : Prop}, P → P ∧ ∀ x ∈ ([] : List Passage), x.isLevel = true :=
    fun h => ⟨h, List.forall_mem_nil _⟩
  cases st with
  | instr i => exact ⟨hbefore rfl, isLevel_lowerInstr hops hst hclean⟩
  | label name span => exact hword (hbefore rfl)
  | call callee args span => exact hword (hbefore rfl)
  | ifOpen cond malformed span =>
    cases hst
    obtain ⟨_, _, heq⟩ := Body.openIf_of_clean hclean
    rw [lowerStmt, heq]
    exact hword (List.forall_mem_cons.mpr ⟨trivial, hbefore rfl⟩)
  | whileOpen cond malformed span =>
    cases hst
    obtain ⟨_, _, heq⟩ := Body.openWhile_of_clean hclean
    rw [lowerStmt, heq]
    exact hword (List.forall_mem_cons.mpr ⟨trivial, hbefore rfl⟩)
  | repeatOpen malformed span =>
    cases hst
    exact hword (List.forall_mem_cons.mpr ⟨trivial, hbefore rfl⟩)
  | selectOpen selector malformed span =>
    cases hst.1
    exact even_lowerSelect hops (hbefore rfl) hst hclean
  | elseArm span => exact hword (h.elseArm hclean)
  | caseArm es span => exact hword (h.caseArm hclean)
  | endBlock span => exact hword (h.endBlock hclean)
  | untilClose cond span => exact hword (h.untilClose hclean)

/-! ## Expansions -/

section

variable (hops : ctx.OpsLevel lowerOp ops plain) (hext : ∀ i (s : FnState), s.Extends (lowerOp i s))

include hops hext

/-- The lead-ins in structured entries are level. -/
theorem isLevel_lowerNodes (ns : List Node) (after : Bool) (b : Body) (h : b.Even after)
    (hns : Node.ListStructured plain after ns) (hclean : (ctx.lowerNodes lowerOp ns b).fn.Clean) :
    ∀ x ∈ ctx.nodesPassages lowerOp ops ns b, x.isLevel = true := by
  induction ns using Node.listInduction generalizing after b with
  | nil =>
    rw [nodesPassages]
    exact List.forall_mem_nil _
  | stmt st ns ih =>
    rw [lowerNodes, lowerNode] at hclean
    rw [nodesPassages, nodePassages, lowerNode]
    rw [Node.ListStructured, Node.IsStructured] at hns
    obtain ⟨hafter, hst, hns⟩ := hns
    have hfirst := (ctx.extends_lowerNodes hext ns _).clean hclean
    obtain ⟨heven, hlevel⟩ := even_lowerStmt hops h hafter hst hfirst
    exact List.forall_mem_append.mpr ⟨hlevel, ih _ _ heven hns hclean⟩
  | nested op body ns hbody ih =>
    rw [lowerNodes, lowerNode] at hclean
    rw [nodesPassages, nodePassages, lowerNode]
    rw [Node.ListStructured, Node.IsStructured] at hns
    obtain ⟨hafter, hin, hns⟩ := hns
    have hfirst := (ctx.extends_lowerNodes hext ns _).clean hclean
    have hlevel := hbody false _ (.start _) hin ((Body.extends_close _).clean hfirst)
    cases after with
    | false => exact List.forall_mem_append.mpr ⟨hlevel, ih _ _ h hns hclean⟩
    | true => exact absurd (hafter rfl) Bool.false_ne_true

end

/-- The lead-ins in structured op calls are level, however deeply these nest. -/
theorem opsLevel_lowerOp (ctx : FnContext) (depth : Nat) :
    ctx.OpsLevel (ctx.lowerOp depth) (ctx.opPassages depth) (ctx.IsStructured depth) := by
  induction depth with
  | zero => exact fun _ _ _ _ _ => List.forall_mem_nil _
  | succ depth ih =>
    intro call s hop hcall hclean
    rcases lowerOp_of_clean hclean with ⟨_, _, _, hseen⟩ | ⟨n, x, b, _, hx, rfl, heq, hseen⟩
    · rw [hseen]
      exact List.forall_mem_nil _
    · rw [heq] at hclean
      rw [IsStructured, if_pos hop] at hcall
      rw [hseen]
      exact isLevel_lowerNodes ih (ctx.extends_lowerOp depth) x.body false _ (.start _)
        (hcall _ x hx) ((Body.extends_close _).clean hclean)

end FnContext

end Z80Backend
