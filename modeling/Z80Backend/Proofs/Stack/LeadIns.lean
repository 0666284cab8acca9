import Z80Backend.Proofs.Marks.Visits
import Z80Backend.Proofs.Stack.Statements

/-! # Depths and the lead-ins of selects

    Statements may stand between a `select` and its first arm.  They are its
    lead-in: control runs through them before it comes to the first test.  The
    tracker goes through them, too, but at the first arm it goes back to the
    depth at the `select`, and so it does where no arm is taken.  This is right
    as long as lead-ins are level: their end has the depth of their beginning.

    * `Passage.admitted_of_isLevel`: control enters blocks as it should.
    * `FnContext.walks_depths`: depths fit the lines of bodies without labels and
      jumps of their own. -/

namespace Z80Backend

/-! ## Lead-ins -/

namespace Body

/-- If the statement ends a lead-in to whose end control comes, then the tracker
    is back at the depth of the select. -/
def isLevel (b : Body) (st : Stmt) : Bool :=
  match b.leadIn? st with
  | some o => !b.fn.tracker.live || o.depth == b.fn.tracker.depth
  | none => true

theorem depth_of_isLevel {b : Body} {st : Stmt} {o : Opening} {d : Depth}
    (hlevel : b.isLevel st = true) (ho : b.leadIn? st = some o)
    (hd : b.fn.tracker.mark = some d) : o.depth = d := by
  have hlive := Tracker.live_of_mark hd
  rw [isLevel, ho] at hlevel
  rw [← Tracker.depth_of_mark hd]
  simpa [hlive] using hlevel

end Body

namespace Passage

/-- The select whose lead-in the statement ends. -/
def leadIn? (x : Passage) : Option Opening := x.before.leadIn? x.stmt

/-- Is the lead-in level that the statement ends? -/
def isLevel (x : Passage) : Bool := x.before.isLevel x.stmt

/-- The depth at the end of a lead-in is the one that the tracker goes on with. -/
def Keeps (x : Passage) : Prop :=
  ∀ d, x.leadIn?.isSome = true → x.before.fn.tracker.mark = some d → x.after.fn.tracker.depth = d

variable {x : Passage} {exit : Option String} {undo : List Line}

/-- Where lead-ins are level, control enters blocks with the depth that they were
    opened with. -/
theorem admitted_of_isLevel (h : x.isLevel = true) : x.Admitted (Depth.marking exit undo) := by
  intro base hground
  refine ⟨fun o ho d hd => ?_, fun o ho hlive => ?_⟩
  · obtain ⟨last, next, elseSeen, ds, vs, ks, hb, _⟩ := Body.leadIn?_eq_some ho
    refine Marking.entry_eq_some.mpr ⟨?_, Body.depth_of_isLevel h ho hd⟩
    exact hground.entered hb rfl trivial (.inr (.inr hd))
  · obtain ⟨k, ks, hb, hk⟩ := Body.loop?_eq_some ho
    exact hground.entered hb hk trivial (.inr (.inr (Marking.mark_eq_some.mpr ⟨hlive, rfl⟩)))

/-- A lead-in through which control comes with the depth of the select is left
    with the depth at its end. -/
theorem IsLowered.keeps {ctx : FnContext} (h : x.IsLowered (Depth.marking exit undo) ctx) :
    x.Keeps := by
  obtain ⟨base, lowerOp, hground, henters, hafter, hclean⟩ := h
  intro d hsome hd
  obtain ⟨o, ho⟩ := Option.isSome_iff_exists.mp hsome
  obtain ⟨hopen, hdepth⟩ := Marking.entry_eq_some.mp (henters.leadIn o ho d hd)
  have hdepth : o.depth = d := hdepth
  obtain ⟨last, next, elseSeen, ds, vs, ks, hb, hst⟩ := Body.leadIn?_eq_some ho
  -- a select without an arm is as it was opened
  obtain ⟨hseen, hnone⟩ := hground.shaped _ (hb ▸ List.mem_cons_self)
  obtain rfl : elseSeen = false := Bool.eq_false_iff.mpr fun hs => nomatch (hseen hs).1
  rw [hafter] at hclean ⊢
  rcases hst with ⟨es, span, hst⟩ | ⟨span, hst⟩ | ⟨span, hst⟩
  · rw [hst, FnContext.lowerStmt] at hclean ⊢
    obtain ⟨_, _, _, _, _, _, _, heq⟩ := Body.caseArm_of_clean hb hclean
    rw [heq]
    exact hdepth
  · rw [hst, FnContext.lowerStmt] at hclean ⊢
    rw [Body.elseArm_select_of_clean hb hclean]
    exact hdepth
  · rw [hst, FnContext.lowerStmt] at hclean ⊢
    obtain ⟨_, heq⟩ := Body.endBlock_select_of_clean hb hclean
    rw [heq, hnone rfl]
    simpa [Opening.reached, hopen, Body.joined] using hdepth

end Passage

theorem Body.Visits.keeps {exit : Option String} {undo : List Line} {ctx : FnContext}
    {b b' : Body} {seen : List Passage} (h : b.Visits (Depth.marking exit undo) ctx b' seen) :
    ∀ x ∈ seen, x.Keeps :=
  fun x hx => (h.lowered x hx).keeps

/-! ## Control without labels and jumps -/

/-- The statement has no label and no jump of its own; `plain` says so of an
    instruction. -/
def Stmt.IsJumpFree (plain : Instruction → Prop) : Stmt → Prop
  | instr i => plain i
  | label _ _ => False
  | selectOpen selector malformed span =>
    malformed = false → selector ≠ .missing → selector.isReg "a" = false →
      plain { head := "ld", operands := [.ofReg "a", selector], span }
  | _ => True

mutual

/-- An entry of an expanded body has no labels and no jumps of its own. -/
def Node.IsJumpFree (plain : Instruction → Prop) : Node → Prop
  | .stmt st => st.IsJumpFree plain
  | .nested _ body => Node.ListJumpFree plain body

/-- The entries of an expanded body have no labels and no jumps of their own. -/
def Node.ListJumpFree (plain : Instruction → Prop) : List Node → Prop
  | [] => True
  | n :: ns => n.IsJumpFree plain ∧ Node.ListJumpFree plain ns

end

/-- All statements of entries without labels and jumps are so. -/
theorem Node.ListJumpFree.stmts {plain : Instruction → Prop} (ns : List Node)
    (h : Node.ListJumpFree plain ns) : ∀ st ∈ Node.listStmts ns, st.IsJumpFree plain := by
  induction ns using Node.listInduction with
  | nil => exact List.forall_mem_nil _
  | stmt st ns ih =>
    rw [Node.ListJumpFree, Node.IsJumpFree] at h
    exact List.forall_mem_cons.mpr ⟨h.1, ih h.2⟩
  | nested op body ns hbody ih =>
    rw [Node.ListJumpFree, Node.IsJumpFree] at h
    exact List.forall_mem_append.mpr ⟨hbody h.1, ih h.2⟩

/-- The instruction is an op call whose expansion has no labels and no jumps of
    its own, whatever numbers the labels get, or else no jump.  `depth` is how
    deeply op calls may still nest. -/
def FnContext.IsJumpFree (ctx : FnContext) : Nat → Instruction → Prop
  | 0, i => ctx.ops.isOp (Text.lower i.head) = false → Text.lower i.head ∉ ["jp", "jr", "djnz"]
  | depth + 1, i =>
    if ctx.ops.isOp (Text.lower i.head) then
      ∀ n x, (ctx.ops.expand i n).1 = some x → Node.ListJumpFree (ctx.IsJumpFree depth) x.body
    else Text.lower i.head ∉ ["jp", "jr", "djnz"]

namespace FnContext

variable {ctx : FnContext} {undo : List Line}

theorem IsJumpFree.head {depth : Nat} {i : Instruction} (h : ctx.IsJumpFree depth i)
    (hop : ctx.ops.isOp (Text.lower i.head) = false) :
    Text.lower i.head ∉ ["jp", "jr", "djnz"] := by
  cases depth with
  | zero => exact h hop
  | succ depth =>
    rw [IsJumpFree, hop] at h
    exact h

/-- Depths fit the lines of an instruction that is neither a jump nor an op
    call. -/
theorem moves_lowerInstr {lowerOp : Instruction → FnState → FnState} {i : Instruction}
    {s : FnState} (hundo : Line.Assembles ctx.resolver ctx.cleanup undo)
    (hnone : ctx.epilogue = none → ctx.cleanup = [])
    (hop : ctx.ops.isOp (Text.lower i.head) = false)
    (hhead : Text.lower i.head ∉ ["jp", "jr", "djnz"])
    (hclean : (ctx.lowerInstr lowerOp i s).Clean) :
    s.Moves (Depth.marking ctx.epilogue undo) (ctx.lowerInstr lowerOp i s) := by
  unfold lowerInstr at hclean ⊢
  dsimp only at hclean ⊢
  rw [if_neg (by simp [hop])] at hclean ⊢
  split at hclean
  · rename_i hret
    rw [if_pos hret]
    refine moves_lowerRet hundo hnone ?_ hclean
    simpa [or_assoc] using hret
  · rename_i hret
    rw [if_neg hret]
    split at hclean
    · rename_i htyped
      rw [if_pos htyped]
      exact moves_lowerTyped hclean
    · rename_i htyped
      rw [if_neg htyped]
      refine .emit ?_ hclean
      unfold Instruction.IsStraight
      simp only [Bool.or_eq_true, decide_eq_true_eq, not_or] at hret
      simp only [List.mem_cons, List.not_mem_nil, or_false, not_or] at hhead ⊢
      exact ⟨hhead.1, hhead.2.1, hhead.2.2, hret.1.1, hret.1.2, hret.2⟩

/-- Depths fit the lines of statements without labels and jumps. -/
theorem walks_depths (hundo : Line.Assembles ctx.resolver ctx.cleanup undo)
    (hnone : ctx.epilogue = none → ctx.cleanup = []) :
    ctx.Walks (Depth.marking ctx.epilogue undo) fun depth => Stmt.IsJumpFree (ctx.IsJumpFree depth)
    where
  instr hi hop hclean := moves_lowerInstr hundo hnone hop (IsJumpFree.head hi hop) hclean
  expand {depth call n x} hcall hop hx := by
    have hfree : ctx.IsJumpFree (depth + 1) call := hcall
    rw [IsJumpFree, if_pos hop] at hfree
    exact Node.ListJumpFree.stmts x.body (hfree n x hx)
  -- what jumps to a label of the function may come with any depth
  label hst _ := hst.elim
  call _ hclean := moves_lowerCall hclean
  load hst hmissing hreg := hst rfl hmissing hreg

end FnContext

end Z80Backend
