import Z80Backend.Proofs.Control.Liveness
import Z80Backend.Proofs.Stack.Balance

/-! # Arms that nothing falls out of

    Where the tracker takes the end of an arm for dead, lowering leaves out the
    jump over the arms behind it.  That is right if control never falls out of
    the arm, and it never does unless a block is revived: opened in dead code
    and yet reached by a label in it (`Proofs.Control.Liveness`).

    * `FuncDecl.live_of_fallsInto`: the tracker takes no statement for dead that
      control falls into.
    * `FuncDecl.not_fallsInto_omitted`: functions.
    * `FuncDecl.arms_fall`: functions in which one arm falls into the next. -/

namespace Z80Backend

/-! ## Words that end an arm -/

theorem Body.armExit?_eq_some {b : Body} {st : Stmt} {last : String}
    (h : b.armExit? st = some last) :
    (∃ span o other ds ks, st = .elseArm span ∧ b.blocks = .ifBlock o other last false ds :: ks) ∨
      ∃ o next ds vs ks, b.blocks = .selectBlock o last next false true ds vs :: ks ∧
        ((∃ span, st = .elseArm span) ∨ ∃ es span, st = .caseArm es span) := by
  unfold armExit? at h
  split at h
  · rename_i hblocks
    cases h
    exact .inl ⟨_, _, _, _, _, rfl, hblocks⟩
  · rename_i hblocks
    cases h
    exact .inr ⟨_, _, _, _, _, hblocks, .inl ⟨_, rfl⟩⟩
  · rename_i hblocks
    cases h
    exact .inr ⟨_, _, _, _, _, hblocks, .inr ⟨_, _, rfl⟩⟩
  · cases h

/-- A jump behind an arm is left out only where the tracker is dead. -/
theorem FnContext.not_live_of_omitsJump {ctx : FnContext}
    {lowerOp : Instruction → FnState → FnState} {b : Body} {st : Stmt}
    (hclean : (ctx.lowerStmt lowerOp st b).fn.Clean)
    (h : Passage.omitsJump ⟨b, st, ctx.lowerStmt lowerOp st b⟩ = true) :
    b.fn.tracker.live = false := by
  -- in live code the arm is left by a jump, which stands first
  have hlead : ∀ {r : Resolver} {last : String} {span : Span} {ls : List Line} {t : Tracker}
      {n : Int},
      ((b.fn.grow (Body.leadLines r true span last ++ ls) t n).lines.drop
        b.fn.lines.length).any (Line.isJumpTo last) = true := by
    intro r last span ls t n
    simp [Body.leadLines, Line.jump, Line.isJumpTo]
  refine Bool.eq_false_iff.mpr fun hlive => ?_
  unfold Passage.omitsJump at h
  cases hexit : b.armExit? st with
  | none =>
    rw [hexit] at h
    cases h
  | some last =>
    simp only [hexit, Passage.added, Bool.not_eq_true'] at h
    refine absurd h (Bool.not_eq_false _ ▸ ?_)
    rcases Body.armExit?_eq_some hexit with ⟨span, o, other, ds, ks, rfl, hblocks⟩ |
      ⟨o, next, ds, vs, ks, hblocks, ⟨span, rfl⟩ | ⟨es, span, rfl⟩⟩
    · have heq := Body.elseArm_if_of_clean hblocks hclean
      rw [lowerStmt, heq, hlive]
      exact hlead
    · have heq := Body.elseArm_select_of_clean hblocks hclean
      rw [lowerStmt, heq, hlive]
      exact hlead
    · obtain ⟨_, _, _, _, _, _, _, heq⟩ := Body.caseArm_of_clean hblocks hclean
      rw [lowerStmt, heq, hlive, List.append_assoc]
      exact hlead

/-! ## Functions -/

/-- Distinct labels that are marked, those of the user as live, can be guessed as
    they are marked. -/
theorem Label.exists_guess {exit : Option String} {marks : List (String × Option Unit)}
    (hnodup : (marks.map Prod.fst).Nodup) (hforeign : ∀ x ∈ marks, IsForeign x.1 → x.2 = some ())
    (hexit : ∀ e, exit = some e → e ∉ marks.map Prod.fst) :
    ∃ Λ : String → Option Unit, (guessing exit).Fits Λ ∧ ∀ x ∈ marks, Λ x.1 = x.2 := by
  obtain ⟨Λ, hΛ, hrest⟩ := exists_marks (some ()) hnodup
  refine ⟨Λ, ⟨fun x hx => ?_, fun e he => ?_⟩, hΛ⟩
  · by_cases hmem : x ∈ marks.map Prod.fst
    · obtain ⟨mark, hmark, rfl⟩ := List.mem_map.mp hmem
      simp [hΛ mark hmark, hforeign mark hmark hx]
    · simp [hrest x hmem]
  · simp [hrest e (hexit e he)]

/-- Code that goes to no generated label fits all guesses. -/
theorem Line.Assembles.liveFlow {exit : Option String} {Λ : String → Bool}
    (hΛ : Label.Guess exit Λ) {r : Resolver} {is : List Instruction} {ls : List Line}
    (h : Line.Assembles r is ls) (his : ∀ i ∈ is, i.IsPlain) (m : Bool) :
    Line.LiveFlow Λ m ls true := by
  induction h generalizing m with
  | nil => exact fun _ => rfl
  | cons hcode _ ih =>
    obtain ⟨hi, his⟩ := List.forall_mem_cons.mp his
    exact ⟨Line.guards_of_asks hΛ hi.asks hcode m, ih his _⟩

namespace FuncDecl

variable {d : FuncDecl} {r : Resolver} {decls : Declarations} {n : Int}

theorem assembles_entry (hclean : (d.entry r decls n).2.Clean) :
    Line.Assembles r ((d.entry r decls n).1.prologue d.locals) (d.entry r decls n).2.lines := by
  rw [entry_lines]
  exact (d.entry r decls n).1.assembles_of_clean hclean

theorem isPlain_entry (hdecls : ∀ x ∈ decls.names, Label.isGenerated x = false) :
    (d.entry r decls n).1.IsPlain :=
  isPlain_context (d.adds_layout (K := fun _ => False) r { counter := n }).2 hdecls _

/-- Guesses fit the beginning of a function. -/
theorem liveFlow_entry {Λ : String → Bool} {exit : Option String}
    (hd : ∀ x ∈ d.names, Label.isGenerated x = false) (hΛ : Label.Guess exit Λ)
    (hclean : (d.entry r decls n).2.Clean) :
    Line.LiveFlow Λ true (d.entry r decls n).2.lines true := by
  refine (assembles_entry hclean).liveFlow hΛ (isPlain_prologue _ fun l hl x hx => ?_) true
  exact hd x (List.mem_append_right _ (List.mem_flatMap.mpr ⟨l, hl, hx⟩))

/-- Guesses fit the end of a function. -/
theorem liveFlow_end {ctx : FnContext} {Λ : String → Bool} {tail : List Line} {span : Span}
    (hΛ : Label.Guess ctx.epilogue Λ)
    (htail : Line.Assembles ctx.resolver (ctx.cleanup ++ [Instruction.of "ret" []]) tail)
    (m : Bool) :
    Line.LiveFlow Λ m (ctx.epilogue.toList.map (Line.label · span) ++ tail) true := by
  have hplain : ∀ i ∈ ctx.cleanup ++ [Instruction.of "ret" []], i.IsPlain := by
    simp only [List.forall_mem_append, List.forall_mem_cons]
    exact ⟨ctx.isPlain_cleanup, .of_names (by simp), by simp⟩
  have hcode := fun m => htail.liveFlow hΛ hplain m
  cases hexit : ctx.epilogue with
  | none => exact hcode m
  | some e => exact ⟨fun _ => hΛ.exit e hexit, hcode _⟩

section

variable (hd : ∀ x ∈ d.names, Label.isGenerated x = false)
  (hdecls : ∀ x ∈ decls.names, Label.isGenerated x = false)
  (hclean : (d.lower r decls { counter := n }).2.2.Clean)
  (hrevives : ∀ x ∈ d.passages r decls n, x.revives = false)

include hd hdecls hclean hrevives

/-- Guesses fit the lines of the body of a function, statement by statement. -/
theorem guesses_bodyEnd :
    Body.Visits (Label.guessing (d.entry r decls n).1.epilogue) (d.entry r decls n).1
      { fn := (d.entry r decls n).2 } { fn := d.bodyEnd r decls n } (d.passages r decls n) := by
  have hbody := bodyEnd_clean hclean
  have hnames : ∀ st ∈ Node.listStmts (d.body.map .stmt), ∀ x ∈ st.names, Label.IsForeign x := by
    intro st hst x hx
    have hstmts : Node.listStmts (d.body.map .stmt) = d.body := by
      induction d.body with
      | nil => rw [List.map_nil, Node.listStmts]
      | cons st sts ih => rw [List.map_cons, Node.listStmts, Node.stmts, ih, List.singleton_append]
    refine Label.isForeign_of_not_generated (hd x (List.mem_append_left _ ?_))
    exact List.mem_flatMap.mpr ⟨st, hstmts ▸ hst, hx⟩
  rw [bodyEnd_eq_lowerNodes] at hbody ⊢
  have hwalks := FnContext.walks_guesses (isPlain_entry (d := d) (r := r) (n := n) hdecls)
  exact (FnContext.visits_body (hwalks.traces _) ((d.entry r decls n).1.extends_lowerOp _)
    (fun _ _ => trivial) hnames hbody fun x hx => Passage.admitted_of_revives (hrevives x hx)).2

/-- The tracker takes no statement for dead that control falls into: there are
    guesses that fit all lines, and up to the statement they tell what the
    tracker noted there. -/
theorem live_of_fallsInto {x : Passage} (hx : x ∈ d.passages r decls n) :
    x.before.fn.lines <+: (d.lower r decls { counter := n }).1.lines ∧
      (Line.FallsInto (d.lower r decls { counter := n }).1.lines x.before.fn.lines.length →
        x.before.fn.tracker.live = true) := by
  obtain ⟨ks, ⟨ls, marks, new, hadds⟩, ⟨ls', marks', new', hadds'⟩⟩ :=
    (guesses_bodyEnd hd hdecls hclean hrevives).before x hx
  have hboth := hadds.trans hadds'
  obtain ⟨tail, htail, hfinish⟩ := lines_finish (finish_clean hclean)
  have hlines : (d.lower r decls { counter := n }).1.lines =
      (d.entry r decls n).2.lines ++ (ls ++ ls') ++
        ((d.entry r decls n).1.epilogue.toList.map (Line.label · d.span) ++ tail) := by
    rw [lower_lines_eq_finish, hfinish, ← hboth.lines]
  -- each label is placed once, so that it has one mark
  have hnodup : (Line.labelNames (d.lower r decls { counter := n }).1.lines).Nodup := by
    have hlabelled := (labelled_lower (r := r) hd hdecls n).nodup
    rwa [List.append_nil] at hlabelled
  rw [hlines, Line.labelNames_append, Line.labelNames_append, ← hboth.named] at hnodup
  obtain ⟨hbefore, _, hdisjoint⟩ := List.nodup_append.mp hnodup
  have hexit : ∀ e, (d.entry r decls n).1.epilogue = some e →
      e ∉ (marks ++ marks').map Prod.fst := by
    intro e he hmem
    refine hdisjoint e (List.mem_append_right _ hmem) e ?_ rfl
    rw [he]
    simp
  obtain ⟨Λ, hguess, hmarks⟩ :=
    Label.exists_guess (List.nodup_append.mp hbefore).2.1 hboth.user hexit
  obtain ⟨hflow, hflow'⟩ := hadds.flows hadds' hguess hmarks
  simp only [Marking.isSome_mark] at hflow hflow'
  rw [entry_tracker] at hflow
  have hstart := liveFlow_entry hd hguess
    (((d.entry r decls n).1.extends_lowerBody d.body _).clean (bodyEnd_clean hclean))
  have hpre := hstart.append hflow
  have hwhole : Line.LiveFlow (fun x => (Λ x).isSome) true
      (d.lower r decls { counter := n }).1.lines true := by
    rw [hlines, ← List.append_assoc (d.entry r decls n).2.lines]
    exact (hpre.append hflow').append (liveFlow_end hguess htail _)
  have hbefore : (d.entry r decls n).2.lines ++ ls = x.before.fn.lines := hadds.lines.symm
  have hpart : x.before.fn.lines <+: (d.lower r decls { counter := n }).1.lines := by
    rw [hlines, ← List.append_assoc (d.entry r decls n).2.lines, hbefore, List.append_assoc]
    exact List.prefix_append _ _
  refine ⟨hpart, fun hfalls => ?_⟩
  have hlive := hwhole.live_of_fallsInto hguess.foreign (fun i code => isAssembled_lines) hfalls
  rw [Line.liveAt, ← List.prefix_iff_eq_take.mp hpart, ← hbefore] at hlive
  exact hpre.live hlive

end

/-- A jump behind an arm is left out only where no path falls out of the arm:
    in a function that is lowered without a report, whatever its labels, jumps
    and blocks are, as long as it revives no block and no name in it is like a
    generated label. -/
theorem not_fallsInto_omitted (d : FuncDecl) (r : Resolver) (decls : Declarations) (n : Int)
    (hd : ∀ x ∈ d.names, Label.isGenerated x = false)
    (hdecls : ∀ x ∈ decls.names, Label.isGenerated x = false)
    (hclean : (d.lower r decls { counter := n }).2.2.Clean)
    (hrevives : ∀ x ∈ d.passages r decls n, x.revives = false) :
    ∀ x ∈ d.passages r decls n, x.omitsJump = true →
      x.before.fn.lines <+: (d.lower r decls { counter := n }).1.lines ∧
        ¬ Line.FallsInto (d.lower r decls { counter := n }).1.lines x.before.fn.lines.length := by
  intro x hx homits
  obtain ⟨hbefore, hlive⟩ := live_of_fallsInto hd hdecls hclean hrevives hx
  refine ⟨hbefore, fun hfalls => ?_⟩
  obtain ⟨_, lowerOp, _, _, hafter, hxclean⟩ :=
    (guesses_bodyEnd hd hdecls hclean hrevives).lowered x hx
  obtain ⟨before, st, after⟩ := x
  dsimp only at hafter
  subst hafter
  -- control is there, and the tracker said that it is not
  have hdead := FnContext.not_live_of_omitsJump hxclean homits
  exact absurd (hlive hfalls) (by simp [hdead])

/-- A function in which control goes up and down: a loop with a jump out of it,
    an arm that goes on at a label behind its return, and one that jumps
    there. -/
def ladder : FuncDecl where
  name := "ladder"
  returns := ["bc"]
  body := [.label "again" {}, .whileOpen "nz" false {}, .ifOpen "c" false {},
    .instr (.of "jp" [.ofName "again"]), .elseArm {}, .instr (.of "inc" [.ofReg "c"]),
    .endBlock {}, .endBlock {}, .selectOpen (.ofReg "a") false {},
    .caseArm [.number 1, .number 2] {}, .instr (.of "ret" []), .label "aside" {},
    .instr (.of "jp" [.ofName "again"]), .caseArm [.number 3] {},
    .instr (.of "jr" [.ofName "aside"]), .elseArm {}, .endBlock {}]

theorem ladder_not_fallsInto :
    ((ladder.passages .empty {} 0).filter (·.omitsJump)).length = 3 ∧
      ∀ x ∈ ladder.passages .empty {} 0, x.omitsJump = true →
        x.before.fn.lines <+: (ladder.lower .empty {} { counter := 0 }).1.lines ∧
          ¬ Line.FallsInto (ladder.lower .empty {} { counter := 0 }).1.lines
            x.before.fn.lines.length := by
  have hclean : (ladder.lower .empty {} { counter := 0 }).2.2.Clean := by
    unfold FnState.Clean
    decide +kernel
  have hrevives : ∀ x ∈ ladder.passages .empty {} 0, x.revives = false := by decide +kernel
  refine ⟨by decide +kernel, ?_⟩
  exact not_fallsInto_omitted ladder .empty {} 0 (by decide) (by decide) hclean hrevives

/-! ### Arms that control falls out of -/

/-- The function is lowered without a report, and it leaves out the jump behind
    an arm although control falls out of it. -/
def FallsOut (d : FuncDecl) : Prop :=
  (d.lower .empty {} { counter := 0 }).2.2.Clean ∧
    ∃ x ∈ d.passages .empty {} 0, x.omitsJump = true ∧
      x.before.fn.lines <+: (d.lower .empty {} { counter := 0 }).1.lines ∧
      Line.FallsInto (d.lower .empty {} { counter := 0 }).1.lines x.before.fn.lines.length

theorem fallsOut_of_fallsInto {ls : List Line} {p : Nat}
    (hclean : (d.lower .empty {} { counter := 0 }).2.2.Clean)
    (hlines : (d.lower .empty {} { counter := 0 }).1.lines = ls) (hp : p ≤ ls.length)
    (hx : ((d.passages .empty {} 0).any fun x =>
      x.omitsJump && x.before.fn.lines = ls.take p) = true)
    (h : Line.FallsInto ls p) : d.FallsOut := by
  obtain ⟨x, hmem, hx⟩ := List.any_eq_true.mp hx
  obtain ⟨homits, hbefore⟩ := Bool.and_eq_true_iff.mp hx
  have hbefore : x.before.fn.lines = ls.take p := of_decide_eq_true hbefore
  refine ⟨hclean, x, hmem, homits, ?_⟩
  rw [hlines, hbefore, List.length_take_of_le hp]
  exact ⟨List.take_prefix p ls, h⟩

/-- A loop in dead code that a label in it brings to life. -/
def revivedLoop : FuncDecl where
  name := "main"
  returns := ["af", "bc", "de", "hl"]
  body := [.instr (.of "jp" [.ofName "resume"]), .whileOpen "nz" false {}, .ifOpen "c" false {},
    .instr (.of "inc" [.ofReg "b"]), .elseArm {}, .instr (.of "inc" [.ofReg "c"]), .endBlock {},
    .label "resume" {}, .endBlock {}]

theorem fallsOut_revivedLoop : revivedLoop.FallsOut := by
  have hlines : (revivedLoop.lower .empty {} { counter := 0 }).1.lines =
      [.instr (.of "nop" []) (.plain .nop),
       .jump .empty {} "resume",
       .jump .empty {} "__zax_while_cond_2",
       .label "__zax_while_top_1" {},
       .branch .empty {} .nc "__zax_if_else_3",
       .instr (.of "inc" [.ofReg "b"]) (.inc8 (.reg .b)),
       .label "__zax_if_else_3" {},
       .instr (.of "inc" [.ofReg "c"]) (.inc8 (.reg .c)),
       .label "__zax_if_end_4" {},
       .label "resume" {},
       .label "__zax_while_cond_2" {},
       .branch .empty {} .nz "__zax_while_top_1",
       .instr (.of "ret" []) .ret] := by decide +kernel
  have hclean : (revivedLoop.lower .empty {} { counter := 0 }).2.2.Clean := by
    unfold FnState.Clean
    decide +kernel
  refine fallsOut_of_fallsInto (p := 6) hclean hlines (by decide) (by decide +kernel) ?_
  -- the test leads back to the top of the loop, and the jump to the test
  refine .next (.next (.next (.jump (p := 11) ?_ rfl (by decide) rfl) rfl rfl) rfl rfl) rfl rfl
  exact .next (.next (.jump (p := 1) (.next .entry rfl rfl) rfl (by decide) rfl) rfl rfl) rfl rfl

/-- A select in dead code that a label before its first arm brings to life. -/
def revivedSelect : FuncDecl where
  name := "main"
  returns := ["af", "bc", "de", "hl"]
  body := [.instr (.of "jp" [.ofName "resume"]), .selectOpen (.ofReg "a") false {},
    .label "resume" {}, .caseArm [.number 1] {}, .instr (.of "inc" [.ofReg "b"]),
    .caseArm [.number 2] {}, .instr (.of "inc" [.ofReg "c"]), .endBlock {}]

theorem fallsOut_revivedSelect : revivedSelect.FallsOut := by
  have hlines : (revivedSelect.lower .empty {} { counter := 0 }).1.lines =
      [.instr (.of "nop" []) (.plain .nop),
       .jump .empty {} "resume",
       .label "resume" {},
       .compare {} 1,
       .branch .empty {} .nz "__zax_select_next_2",
       .instr (.of "inc" [.ofReg "b"]) (.inc8 (.reg .b)),
       .label "__zax_select_next_2" {},
       .compare {} 2,
       .branch .empty {} .nz "__zax_select_next_3",
       .instr (.of "inc" [.ofReg "c"]) (.inc8 (.reg .c)),
       .label "__zax_select_next_3" {},
       .label "__zax_select_end_1" {},
       .instr (.of "ret" []) .ret] := by decide +kernel
  have hclean : (revivedSelect.lower .empty {} { counter := 0 }).2.2.Clean := by
    unfold FnState.Clean
    decide +kernel
  refine fallsOut_of_fallsInto (p := 6) hclean hlines (by decide) (by decide +kernel) ?_
  refine .next (.next (.next (.next ?_ rfl rfl) rfl rfl) rfl rfl) rfl rfl
  exact .jump (p := 1) (.next .entry rfl rfl) rfl (by decide) rfl

/-- A function that jumps to the label of a block in dead code. -/
def intruder : FuncDecl where
  name := "main"
  returns := ["af", "bc", "de", "hl"]
  body := [.instr (.of "jp" [.ofReg "z", .ofName "__zax_if_end_4"]), .ifOpen "c" false {},
    .instr (.of "jp" [.ofName "done"]), .ifOpen "nz" false {}, .instr (.of "inc" [.ofReg "b"]),
    .endBlock {}, .elseArm {}, .instr (.of "inc" [.ofReg "c"]), .endBlock {}, .label "done" {}]

theorem fallsOut_intruder : intruder.FallsOut := by
  have hlines : (intruder.lower .empty {} { counter := 0 }).1.lines =
      [.instr (.of "nop" []) (.plain .nop),
       .branch .empty {} .z "__zax_if_end_4",
       .branch .empty {} .nc "__zax_if_else_1",
       .jump .empty {} "done",
       .branch .empty {} .z "__zax_if_else_3",
       .instr (.of "inc" [.ofReg "b"]) (.inc8 (.reg .b)),
       .label "__zax_if_else_3" {},
       .label "__zax_if_end_4" {},
       .label "__zax_if_else_1" {},
       .instr (.of "inc" [.ofReg "c"]) (.inc8 (.reg .c)),
       .label "__zax_if_end_2" {},
       .label "done" {},
       .instr (.of "ret" []) .ret] := by decide +kernel
  have hclean : (intruder.lower .empty {} { counter := 0 }).2.2.Clean := by
    unfold FnState.Clean
    decide +kernel
  refine fallsOut_of_fallsInto (p := 8) hclean hlines (by decide) (by decide +kernel) ?_
  exact .next (.jump (p := 1) (.next .entry rfl rfl) rfl (by decide) rfl) rfl rfl

/-- Arms fall into the next ones where a loop or a select is revived, and where
    a jump of the user goes to a generated label. -/
theorem arms_fall : revivedLoop.FallsOut ∧ revivedSelect.FallsOut ∧ intruder.FallsOut :=
  ⟨fallsOut_revivedLoop, fallsOut_revivedSelect, fallsOut_intruder⟩

end FuncDecl

end Z80Backend
