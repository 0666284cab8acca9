import Z80Backend.Function.Statement

/-! # Blocks around a body

    The words of structured control do not look at the blocks around the
    innermost one, and those that open a block look at none.  What they do to a
    body they do to the same body inside of more blocks. -/

namespace Z80Backend

namespace Body

/-- The body inside of more blocks. -/
def under (ks : List Block) (b : Body) : Body := { b with blocks := b.blocks ++ ks }

variable (r : Resolver) (span : Span) (b : Body) (ks : List Block)

theorem under_nil : b.under [] = b := by
  rw [under, List.append_nil]

theorem under_under (ks' : List Block) : (b.under ks).under ks' = b.under (ks ++ ks') := by
  rw [under, under, under, List.append_assoc]

/-! ## Opening words -/

theorem openIf_under (cond : String) (malformed : Bool) :
    (b.under ks).openIf r cond malformed span = (b.openIf r cond malformed span).under ks := by
  unfold openIf under
  dsimp only
  cases malformed with
  | true => rfl
  | false => cases b.fn.condition cond "if" span <;> rfl

theorem openWhile_under (cond : String) (malformed : Bool) :
    (b.under ks).openWhile r cond malformed span =
      (b.openWhile r cond malformed span).under ks := by
  unfold openWhile under
  dsimp only
  cases malformed with
  | true => rfl
  | false => cases b.fn.condition cond "while" span <;> rfl

/-! ## Words that look at the innermost block -/

variable {b}

theorem elseArm_under (hb : b.blocks ≠ []) :
    (b.under ks).elseArm r span = (b.elseArm r span).under ks := by
  obtain ⟨fn, _ | ⟨k, rest⟩⟩ := b
  · exact absurd rfl hb
  cases k with
  | ifBlock o other last elseSeen ds => cases elseSeen <;> rfl
  | selectBlock o last next elseSeen armOpen ds vs => cases elseSeen <;> rfl
  | whileBlock o cc top test => rfl
  | repeatBlock o top => rfl
  | broken kind => cases kind <;> rfl

theorem caseArm_under (es : List Expr) (hb : b.blocks ≠ []) :
    (b.under ks).caseArm r es span = (b.caseArm r es span).under ks := by
  obtain ⟨fn, _ | ⟨k, rest⟩⟩ := b
  · exact absurd rfl hb
  cases k with
  | selectBlock o last next elseSeen armOpen ds vs => cases elseSeen <;> rfl
  | ifBlock o other last elseSeen ds => rfl
  | whileBlock o cc top test => rfl
  | repeatBlock o top => rfl
  | broken kind => cases kind <;> rfl

theorem endBlock_under (hb : b.blocks ≠ []) :
    (b.under ks).endBlock r span = (b.endBlock r span).under ks := by
  obtain ⟨fn, _ | ⟨k, rest⟩⟩ := b
  · exact absurd rfl hb
  cases k with
  | broken kind => cases kind <;> rfl
  | ifBlock _ _ _ _ _ | selectBlock _ _ _ _ _ _ _ | whileBlock _ _ _ _ | repeatBlock _ _ => rfl

theorem untilClose_under (cond : String) (hb : b.blocks ≠ []) :
    (b.under ks).untilClose r cond span = (b.untilClose r cond span).under ks := by
  obtain ⟨fn, _ | ⟨k, rest⟩⟩ := b
  · exact absurd rfl hb
  cases k with
  | repeatBlock o top =>
    -- the condition is read with the depths joined, which no outer block changes
    unfold untilClose under
    dsimp only [List.cons_append]
    cases (fn.join .repeatBackEdge span (o.reached ++ fn.reached)).condition cond "until" span <;>
      rfl
  | broken kind => cases kind <;> rfl
  | ifBlock _ _ _ _ _ | selectBlock _ _ _ _ _ _ _ | whileBlock _ _ _ _ => rfl

end Body

end Z80Backend
