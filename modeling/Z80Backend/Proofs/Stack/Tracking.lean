import Z80Backend.Proofs.Stack.Balance

/-! # The depth at every statement

    The tracker goes through the statements of a function once, in the order in
    which they stand, while control goes through the code on many paths.  In a
    function without labels and jumps of its own, the tracker is right at every
    statement as long as the lead-ins of selects are level: whichever path
    control takes to the point, it comes with the depth that the tracker has
    there (`FuncDecl.comesWith_tracked`).

    A lead-in that is not level is forgotten.  The function is lowered without a
    report, and paths come to the first arm with a depth that is not the one of
    the tracker (`FuncDecl.leadIns_forgotten`). -/

namespace Z80Backend

namespace FuncDecl

variable (d : FuncDecl) (r : Resolver) (decls : Declarations) (n : Int)

/-- The body of a function has no labels and no jumps of its own, once its op
    calls are expanded. -/
def IsJumpFree : Prop :=
  Node.ListJumpFree ((d.entry r decls n).1.IsJumpFree decls.nesting) (d.body.map .stmt)

/-- The lines of `s` are a beginning of those of the function up to the end of
    its body, and every path through the body that falls into the point behind
    them comes with the depth: it adds this to `sp`, up to multiples of 2⁶⁴, and
    exactly unless the function has 2⁶² lines. -/
def ComesWith (s : FnState) (depth : Depth) : Prop :=
  ∃ ls ls', s.lines = (d.entry r decls n).2.lines ++ ls ∧ d.bodyLines r decls n = ls ++ ls' ∧
    ∀ m loaded, Line.FallsIn (d.bodyLines r decls n) ls.length m loaded →
      depth.Tells ((d.lower r decls { counter := n }).1.lines.length < 2 ^ 62) m loaded

variable {d r decls n} {undo : List Line}

/-- Every path that falls into a state on the way through a body comes with the
    depth that the tracker has there. -/
theorem comesWith_of_through {c : Body}
    (hundo : Line.Assembles r (d.entry r decls n).1.cleanup undo)
    (hclean : (d.lower r decls { counter := n }).2.2.Clean)
    (hthrough : Body.Through (Depth.marking (d.entry r decls n).1.epilogue undo)
      { fn := (d.entry r decls n).2 } c { fn := d.bodyEnd r decls n }) {depth : Depth}
    (hdepth : ∀ x, c.fn.tracker.mark = some x → x = depth) :
    d.ComesWith r decls n c.fn depth := by
  obtain ⟨ks, hbefore, hbehind⟩ := hthrough
  obtain ⟨Λ, ls, ls', _, hlines, hall, hflow, hflow'⟩ :=
    hbefore.exists_flows (fun e he => entry_epilogue d r decls n he) hbehind
  have hbody : d.bodyLines r decls n = ls ++ ls' :=
    List.append_cancel_left (bodyEnd_lines.symm.trans hall)
  -- the body is a part of the function
  have hsmall : (d.lower r decls { counter := n }).1.lines.length < 2 ^ 62 →
      (d.entry r decls n).2.lines.length + (ls ++ ls').length < 2 ^ 62 := by
    intro hshort
    obtain ⟨tail, _, hlower⟩ := lines_lower hclean
    rw [hlower, hbody] at hshort
    simp only [List.length_append] at hshort ⊢
    omega
  refine ⟨ls, ls', hlines, hbody, fun m loaded hfalls => ?_⟩
  rw [hbody] at hfalls
  rw [entry_tracker] at hflow
  obtain ⟨x, hx, htells⟩ := StackFlow.tells_of_fallsIn hflow hflow'
    (hundo.flow_step FnContext.isStraight_cleanup) hsmall hfalls
  rw [← hdepth x hx]
  exact htells

/-- The tracker is right at every statement.  In a function without labels and
    jumps of its own that is lowered without a report, and whose lead-ins are
    level, every path through a lead-in comes to the first arm, or to the end of
    the select, with the depth that the tracker goes on with there; and behind
    each statement, such as the end of a select where the paths that take no arm
    come out, every path comes with the depth that the tracker has. -/
theorem comesWith_tracked (d : FuncDecl) (r : Resolver) (decls : Declarations) (n : Int)
    (hfree : d.IsJumpFree r decls n) (hclean : (d.lower r decls { counter := n }).2.2.Clean)
    (hlevel : ∀ x ∈ d.passages r decls n, x.isLevel = true) :
    ∀ x ∈ d.passages r decls n,
      (x.leadIn?.isSome = true →
        d.ComesWith r decls n x.before.fn x.after.fn.tracker.depth) ∧
      d.ComesWith r decls n x.after.fn x.after.fn.tracker.depth := by
  intro x hx
  -- the code at the end of the function starts with what undoes its beginning
  obtain ⟨tail, htail, _⟩ := lines_lower hclean
  obtain ⟨undo, _, _, hundo, _⟩ := htail.of_append
  have hvisits := (visits_bodyEnd hundo hfree (bodyEnd_clean hclean) hlevel).2
  refine ⟨fun hleads => ?_, ?_⟩
  · refine comesWith_of_through hundo hclean (hvisits.before x hx) fun y hy => ?_
    exact (hvisits.keeps x hx y hleads hy).symm
  · refine comesWith_of_through hundo hclean (hvisits.behind x hx) fun y hy => ?_
    exact (Tracker.depth_of_mark hy).symm

end FuncDecl

/-- Where no ops are declared, all instructions but jumps are free of jumps. -/
theorem FnContext.isJumpFree_of_no_ops {ctx : FnContext} {i : Instruction}
    (hops : ctx.ops.decls = []) (hhead : Text.lower i.head ∉ ["jp", "jr", "djnz"]) (depth : Nat) :
    ctx.IsJumpFree depth i := by
  cases depth with
  | zero => exact fun _ => hhead
  | succ depth =>
    rw [IsJumpFree, Ops.isOp_of_no_decls hops]
    exact hhead

namespace FuncDecl

/-- A select between a `push` and a `pop`.  Its lead-in has another pair of them
    and, between these, a select with a lead-in of its own. -/
def nestedLeadIns : FuncDecl where
  name := "nested"
  returns := ["af", "bc", "de", "hl"]
  body := [.instr (.of "push" [.ofReg "hl"]), .selectOpen (.ofReg "a") false {},
    .instr (.of "push" [.ofReg "bc"]), .selectOpen (.ofReg "a") false {},
    .instr (.of "inc" [.ofReg "b"]), .elseArm {}, .endBlock {}, .instr (.of "pop" [.ofReg "bc"]),
    .caseArm [.number 1, .number 2] {}, .instr (.of "inc" [.ofReg "c"]), .endBlock {},
    .instr (.of "pop" [.ofReg "hl"])]

/-- The inner lead-in is left with four bytes on the stack and the outer one with
    two, as on the path through them. -/
theorem nestedLeadIns_tracked :
    nestedLeadIns.IsJumpFree .empty {} 0 ∧
    (nestedLeadIns.lower .empty {} { counter := 0 }).2.2.Clean ∧
    (((nestedLeadIns.passages .empty {} 0).filter (·.leadIn?.isSome)).map
      (·.after.fn.tracker.depth)) = [.known (-4), .known (-2)] ∧
    Line.FallsIn (nestedLeadIns.bodyLines .empty {} 0) 5 (-2) false ∧
    ∀ x ∈ nestedLeadIns.passages .empty {} 0,
      (x.leadIn?.isSome = true →
        nestedLeadIns.ComesWith .empty {} 0 x.before.fn x.after.fn.tracker.depth) ∧
      nestedLeadIns.ComesWith .empty {} 0 x.after.fn x.after.fn.tracker.depth := by
  -- none of the instructions is a jump
  have hbody : ∀ plain : Instruction → Prop,
      (∀ i, Text.lower i.head ∉ ["jp", "jr", "djnz"] → plain i) →
      Node.ListJumpFree plain (nestedLeadIns.body.map .stmt) := by
    intro plain hplain
    refine ⟨?_, nofun, ?_, nofun, ?_, trivial, trivial, ?_, trivial, ?_, trivial, ?_, trivial⟩
    all_goals exact hplain _ (by decide)
  have hfree : nestedLeadIns.IsJumpFree .empty {} 0 :=
    hbody _ fun i hi => FnContext.isJumpFree_of_no_ops rfl hi _
  have hclean : (nestedLeadIns.lower .empty {} { counter := 0 }).2.2.Clean :=
    List.isEmpty_iff.mp (by decide +kernel)
  have hlevel : ∀ x ∈ nestedLeadIns.passages .empty {} 0, x.isLevel = true := by decide +kernel
  refine ⟨hfree, hclean, by decide +kernel, ?_, comesWith_tracked _ _ _ _ hfree hclean hlevel⟩
  -- the path over both pushes, the inner select and the inner pop
  have hline : ∀ step ∈ [(0, -2), (1, -2), (2, 0), (3, 0), (4, 2)],
      (nestedLeadIns.bodyLines .empty {} 0)[step.1]?.bind (·.flow.onward?) =
        some (step.2, false) := by
    decide +kernel
  have hpush := Line.FallsIn.start.onward (hline (0, -2) (by simp))
  have hpushes := hpush.onward (hline (1, -2) (by simp))
  have hinner := (hpushes.onward (hline (2, 0) (by simp))).onward (hline (3, 0) (by simp))
  exact hinner.onward (hline (4, 2) (by simp))

/-! ## Lead-ins that are forgotten -/

/-- The function has no labels and no jumps of its own and is lowered without a
    report, and yet a path comes through a lead-in with a depth that is not the
    one that the tracker goes on with. -/
def ForgetsLeadIn (d : FuncDecl) : Prop :=
  d.IsJumpFree .empty {} 0 ∧ (d.lower .empty {} { counter := 0 }).2.2.Clean ∧
    ∃ x ∈ d.passages .empty {} 0, x.leadIn?.isSome = true ∧
      ¬ d.ComesWith .empty {} 0 x.before.fn x.after.fn.tracker.depth

/-- A select whose lead-in is a `push`. -/
def pushing (arms : List Stmt) : FuncDecl where
  name := "main"
  returns := ["af", "bc", "de", "hl"]
  body := [.selectOpen (.ofReg "a") false {}, .instr (.of "push" [.ofReg "bc"])] ++ arms ++
    [.endBlock {}]

/-- The function forgets the `push` if the tracker goes on with depth 0 behind
    its line. -/
theorem forgetsLeadIn_pushing {arms : List Stmt}
    (harms : ∀ plain, Node.ListJumpFree plain (arms.map .stmt ++ [.stmt (.endBlock {})]))
    (hclean : ((pushing arms).lower .empty {} { counter := 0 }).2.2.Clean)
    (hpush : ((pushing arms).bodyLines .empty {} 0)[0]?.bind (·.flow.onward?) = some (-2, false))
    (hx : (((pushing arms).passages .empty {} 0).any fun x =>
      x.leadIn?.isSome && (x.after.fn.tracker.depth == .known 0) &&
        (x.before.fn.lines.length == ((pushing arms).entry .empty {} 0).2.lines.length + 1)) =
      true) :
    (pushing arms).ForgetsLeadIn := by
  have hfree : (pushing arms).IsJumpFree .empty {} 0 := by
    unfold IsJumpFree
    rw [pushing, List.append_assoc, List.map_append, List.map_append]
    exact ⟨nofun, FnContext.isJumpFree_of_no_ops rfl (by decide) _, harms _⟩
  obtain ⟨x, hmem, hx⟩ := List.any_eq_true.mp hx
  simp only [Bool.and_eq_true, beq_iff_eq] at hx
  obtain ⟨⟨hleads, hdepth⟩, hbefore⟩ := hx
  refine ⟨hfree, hclean, x, hmem, hleads, ?_⟩
  rintro ⟨ls, ls', hlines, hbody, htells⟩
  have hlen : ls.length = 1 := by
    rw [hlines, List.length_append] at hbefore
    omega
  -- the path over the `push` comes with -2
  have hfalls := Line.FallsIn.start.onward hpush
  rw [hlen, hdepth] at htells
  cases htells _ _ hfalls with
  | moved hmod _ => exact absurd hmod (by decide)

/-- What a lead-in does to the stack is forgotten at the first case, at `else`
    and at the end of the select. -/
theorem leadIns_forgotten :
    (pushing [.caseArm [.number 1] {}]).ForgetsLeadIn ∧ (pushing [.elseArm {}]).ForgetsLeadIn ∧
      (pushing []).ForgetsLeadIn := by
  have hclean : ∀ arms ∈ [[.caseArm [.number 1] {}], [.elseArm {}], ([] : List Stmt)],
      ((pushing arms).lower .empty {} { counter := 0 }).2.2.Clean := by
    unfold FnState.Clean
    decide +kernel
  refine ⟨forgetsLeadIn_pushing ?_ (hclean _ (by simp)) (by decide +kernel) (by decide +kernel),
    forgetsLeadIn_pushing ?_ (hclean _ (by simp)) (by decide +kernel) (by decide +kernel),
    forgetsLeadIn_pushing ?_ (hclean _ (by simp)) (by decide +kernel) (by decide +kernel)⟩
  · exact fun _ => ⟨trivial, trivial, trivial⟩
  · exact fun _ => ⟨trivial, trivial, trivial⟩
  · exact fun _ => ⟨trivial, trivial⟩

end FuncDecl

end Z80Backend
