import Z80Backend.Proofs.Control.Reach
import Z80Backend.Proofs.Function.LabelsDefined
import Z80Backend.Proofs.Marks.Visits

/-! # Liveness while a body is lowered

    The tracker goes through a body once and notes whether control comes to the
    current point.  What it notes at a label is its guess for that label.  Guesses
    are marks (`Label.guessing`): a point has one if it counts as live.

    Jumps backwards go to the top of a loop, where the guess was made when the
    loop was opened.  A loop that is opened in dead code and reached by a label
    in its body makes that guess wrong (`Body.revives`), and so does a select
    that is opened in dead code and reached by a label before its first arm.

    * `Passage.admitted_of_revives`: as long as no block is revived, control
      enters blocks as the tracker expects.
    * `FnContext.walks_guesses`: guesses fit the lines of all statements. -/

namespace Z80Backend

/-! ## Labels of lowering and of the user -/

theorem Label.isForeign_condition (cc : Condition) : IsForeign cc.text := by
  apply isForeign_of_not_generated
  cases cc <;> decide

/-- Guesses for the labels of a function: control may come to every label of the
    user, and it comes to the label of the exit. -/
structure Label.Guess (exit : Option String) (Λ : String → Bool) : Prop where
  foreign : ∀ x, IsForeign x → Λ x = true
  exit : ∀ e, exit = some e → Λ e = true

/-- The labels that code of the user can go to: its own ones, and that of the
    exit. -/
def Label.IsOpen (exit : Option String) (x : String) : Prop := IsForeign x ∨ exit = some x

theorem Label.Guess.isOpen {exit : Option String} {Λ : String → Bool} (hΛ : Guess exit Λ)
    {x : String} (hx : IsOpen exit x) : Λ x = true :=
  hx.elim (hΛ.foreign x) (hΛ.exit x)

/-! ## Guesses as marks -/

section

variable {Λ : String → Bool} {m : Bool} {span : Span} {name : String} {r : Resolver}

theorem Line.guards_jump (h : m = true → Λ name = true) : (Line.jump r span name).Guards Λ m := by
  intro hlive x _ hx
  rw [List.mem_singleton.mp (show x ∈ [name] from hx)]
  exact h hlive

theorem Line.guards_branch {exit : Option String} (hΛ : Label.Guess exit Λ) {cc : Condition}
    (h : m = true → Λ name = true) : (Line.branch r span cc name).Guards Λ m := by
  intro hlive x _ hx
  rcases List.mem_cons.mp (show x ∈ [cc.text, name] from hx) with rfl | hx
  · exact hΛ.foreign _ (Label.isForeign_condition cc)
  · rw [List.mem_singleton.mp hx]
    exact h hlive

end

theorem isSome_of_marks {m m' : Option Unit} (h : ∀ a, m = some a → m' = some a)
    (hm : m.isSome = true) : m'.isSome = true := by
  obtain ⟨a, ha⟩ := Option.isSome_iff_exists.mp hm
  rw [h a ha]
  rfl

/-- Guesses as marks: a point or label that counts as live has the mark. -/
abbrev Label.guessing (exit : Option String) : Marking Unit where
  ofDepth _ := ()
  Within _ _ := True
  bare := False
  User m := m = some ()
  Fits Λ := Guess exit fun x => (Λ x).isSome
  Flow Λ _ m ls m' := Line.LiveFlow (fun x => (Λ x).isSome) m.isSome ls m'.isSome
  within_mono _ _ := trivial
  nil h := isSome_of_marks h
  append := .append
  label h _ := ⟨isSome_of_marks h, id⟩
  jump h :=
    ⟨Line.guards_jump (isSome_of_marks h), fun hlive => nomatch (Bool.and_eq_true_iff.mp hlive).2⟩
  branch hΛ h :=
    ⟨Line.guards_branch hΛ (isSome_of_marks h), fun hlive => (Bool.and_eq_true_iff.mp hlive).1⟩
  compare := ⟨fun _ _ => nofun, fun hlive => (Bool.and_eq_true_iff.mp hlive).1⟩

/-! ## Revived blocks -/

namespace Body

/-- Does the statement bring control to the innermost block although the tracker
    took it for dead when it was opened?  A loop is reached at its end, and a
    select before its first arm. -/
def revives (b : Body) (st : Stmt) : Bool :=
  b.fn.tracker.live &&
    match st, b.blocks with
    | .endBlock _, .whileBlock o _ _ _ :: _ => !o.live
    | .untilClose _ _, .repeatBlock o _ :: _ => !o.live
    | .caseArm _ _, .selectBlock o _ _ _ armOpen _ _ :: _ => !armOpen && !o.live
    | .elseArm _, .selectBlock o _ _ _ armOpen _ _ :: _ => !armOpen && !o.live
    | .endBlock _, .selectBlock o _ _ _ armOpen _ _ :: _ => !armOpen && !o.live
    | _, _ => false

/-- The label behind the block to which the arm goes that the statement ends. -/
def armExit? (b : Body) (st : Stmt) : Option String :=
  match st, b.blocks with
  | .elseArm _, .ifBlock _ _ last false _ :: _ => some last
  | .elseArm _, .selectBlock _ last _ false true _ _ :: _ => some last
  | .caseArm _ _, .selectBlock _ last _ false true _ _ :: _ => some last
  | _, _ => none

end Body

/-! ## Passages -/

/-- The line is a jump to the label. -/
def Line.isJumpTo (name : String) : Line → Bool
  | .instr i _ => i.head = "jp" && i.operands = [.ofName name]
  | _ => false

namespace Passage

/-- The lines that the statement adds. -/
def added (x : Passage) : List Line := x.after.fn.lines.drop x.before.fn.lines.length

/-- Does the statement end an arm without a jump to the label behind its block? -/
def omitsJump (x : Passage) : Bool :=
  match x.before.armExit? x.stmt with
  | some last => !x.added.any (Line.isJumpTo last)
  | none => false

/-- Does the statement bring control to a block that was taken for dead? -/
def revives (x : Passage) : Bool := x.before.revives x.stmt

end Passage

/-- As long as no block is revived, control enters blocks as the tracker expects. -/
theorem Passage.admitted_of_revives {x : Passage} {exit : Option String}
    (h : x.revives = false) : x.Admitted (Label.guessing exit) := by
  have hlive : ∀ {o : Opening}, x.before.leadIn? x.stmt = some o ∨ x.before.loop? x.stmt = some o →
      x.before.fn.tracker.live = true → o.live = true := by
    intro o ho hlive
    unfold revives Body.revives at h
    rw [hlive, Bool.true_and] at h
    rcases ho with ho | ho
    · obtain ⟨_, _, _, _, _, _, hb, ⟨_, _, hst⟩ | ⟨_, hst⟩ | ⟨_, hst⟩⟩ := Body.leadIn?_eq_some ho
      · simpa [hst, hb] using h
      · simpa [hst, hb] using h
      · simpa [hst, hb] using h
    · unfold Body.loop? at ho
      split at ho
      · rename_i hst hb
        cases ho
        simpa [hst, hb] using h
      · rename_i hst hb
        cases ho
        simpa [hst, hb] using h
      · cases ho
  refine fun _ _ => ⟨fun o ho a ha => ?_, fun o ho => hlive (.inr ho)⟩
  exact Marking.entry_eq_some.mpr ⟨hlive (.inl ho) (Marking.mark_eq_some.mp ha).1, rfl⟩

/-! ## Code -/

section

variable {exit : Option String}

/-- Code that goes only to open labels guards them. -/
theorem Line.guards_of_asks {Λ : String → Bool} (hΛ : Label.Guess exit Λ) {i : Instruction}
    (hi : i.Asks (Label.IsOpen exit)) {r : Resolver} {code : MachineInstr}
    (hcode : assemble r i = .ok code) (m : Bool) : (Line.instr i code).Guards Λ m := by
  intro _ x hx _
  by_cases hgen : Label.isGenerated x = true
  · exact hΛ.isOpen (hi r code hcode x hx hgen)
  · exact hΛ.foreign x (Label.isForeign_of_not_generated (by simpa using hgen))

theorem FnState.Moves.of_instr {s s' : FnState} {i : Instruction} {r : Resolver}
    {code : MachineInstr} (hi : i.Asks (Label.IsOpen exit)) (hcode : assemble r i = .ok code)
    (hlines : s'.lines = s.lines ++ [Line.instr i code])
    (hlive : (s.tracker.live && !code.effect.terminates) = true → s'.tracker.live = true) :
    Moves (Label.guessing exit) s s' := by
  refine of_lines hlines nofun rfl nofun (fun _ _ _ => trivial) fun Λ hΛ => ?_
  refine ⟨Line.guards_of_asks hΛ hi hcode _, ?_⟩
  rw [Marking.isSome_mark, Marking.isSome_mark]
  intro h
  exact hlive (by rwa [← code.goesOn_flow])

/-- What is noted, reported and emitted without a report. -/
theorem FnState.Appends.moves {s s' : FnState} (h : Appends (Label.IsOpen exit) s s')
    (hclean : s'.Clean) : s.Moves (Label.guessing exit) s' := by
  induction h with
  | refl => exact .refl _
  | note _ e ih => exact (ih ((extends_note _ e).clean hclean)).trans (.note e)
  | report _ p span _ => exact absurd hclean (not_clean_report _ p span)
  | count _ n ih => exact (ih hclean).trans (.of_eq rfl rfl nofun)
  | @emit t i _ hi r ih =>
    obtain ⟨code, hcode, heq⟩ := emit_of_clean hclean
    refine (ih ((t.extends_emit r i).clean hclean)).trans ?_
    rw [heq]
    refine .of_instr hi hcode rfl fun hlive => ?_
    show (t.tracker.live && !(StackEffect.of i).terminates) = true
    rwa [StackEffect.of_assemble hcode]
  | @emitSilent t i _ hi r span ih =>
    obtain ⟨code, hcode, heq⟩ := emitSilent_of_clean hclean
    refine (ih ((t.extends_emitSilent r span i).clean hclean)).trans ?_
    rw [heq]
    exact .of_instr hi hcode rfl fun hlive => (Bool.and_eq_true_iff.mp hlive).1

theorem FnContext.moves_defineLabel {ctx : FnContext} {name : String} {span : Span} {s : FnState}
    (hname : Label.IsForeign name) (hclean : (ctx.defineLabel name span s).Clean) :
    s.Moves (Label.guessing exit) (ctx.defineLabel name span s) := by
  unfold defineLabel at hclean ⊢
  by_cases hseen : s.userLabels.contains name = true
  · rw [if_pos hseen] at hclean
    exact absurd hclean (FnState.not_clean_report _ _ _)
  · rw [if_neg hseen]
    refine ⟨⟨[.label name span], [(name, some ())], [name], ?_⟩, nofun, fun _ _ _ => trivial⟩
    exact
      { lines := rfl
        named := rfl
        user := by simp
        counter := nofun
        fresh := nofun
        perm := by simp [Body.pending]
        known := by simp
        flow := fun Λ hΛ hmarks _ h => by
          have hmark := hmarks _ List.mem_cons_self
          exact ⟨h, fun _ => hΛ.foreign name hname, fun _ => rfl⟩ }

end

/-! ## Statements -/

namespace FnContext

variable {ctx : FnContext}

/-- The names in an expansion are foreign if those in the call are: the labels
    of the op get names that no other label has. -/
theorem isForeign_expansion (hctx : ctx.IsPlain) {call : Instruction} {n : Int} {x : Expansion}
    (hcall : ∀ y ∈ call.names, Label.IsForeign y) (hx : (ctx.ops.expand call n).1 = some x) :
    ∀ y ∈ Node.names x.body, Label.IsForeign y := by
  have hnamed := Ops.named_expand
    (fun d hd y hy => Label.isForeign_of_not_generated (hctx.ops d hd y hy)) hcall hx
  intro y hy
  rcases hnamed.names y hy with hforeign | hlabel
  · exact hforeign
  · obtain ⟨k, name, rfl⟩ := hnamed.labels y hlabel
    rw [hctx.stem]
    exact Label.isForeign_renamed k name

/-- Guesses fit the lines of an instruction that is no op call. -/
theorem guesses_lowerInstr (hctx : ctx.IsPlain) {lowerOp : Instruction → FnState → FnState}
    {i : Instruction} {s : FnState} (hi : ∀ x ∈ i.names, Label.IsForeign x)
    (hop : ctx.ops.isOp (Text.lower i.head) = false)
    (hclean : (ctx.lowerInstr lowerOp i s).Clean) :
    s.Moves (Label.guessing ctx.epilogue) (ctx.lowerInstr lowerOp i s) := by
  have hopen : ∀ x ∈ i.names, Label.isGenerated x = true → Label.IsOpen ctx.epilogue x :=
    fun x hx _ => .inl (hi x hx)
  unfold lowerInstr at hclean ⊢
  dsimp only at hclean ⊢
  rw [if_neg (by simp [hop])] at hclean ⊢
  split at hclean
  · rename_i hret
    rw [if_pos hret]
    exact (appends_lowerRet hopen (fun _ => .inr) s).moves hclean
  rename_i hret
  rw [if_neg hret]
  split at hclean
  · rename_i htyped
    rw [if_pos htyped]
    exact (appends_lowerTyped hctx i s).moves hclean
  · rename_i htyped
    rw [if_neg htyped]
    exact (FnState.Appends.refl.emit (.of_names hopen) _).moves hclean

/-- Guesses fit the lines of all statements in which no generated label is
    named. -/
theorem walks_guesses (hctx : ctx.IsPlain) :
    ctx.Walks (Label.guessing ctx.epilogue) fun _ st => ∀ x ∈ st.names, Label.IsForeign x where
  instr hi hop hclean := guesses_lowerInstr hctx hi hop hclean
  expand hcall _ hx st hst y hy :=
    isForeign_expansion hctx hcall hx y (List.mem_flatMap.mpr ⟨st, hst, hy⟩)
  label hst hclean := moves_defineLabel (hst _ List.mem_cons_self) hclean
  call hst hclean := (appends_lowerCall hctx (fun x hx _ => .inl (hst x hx)) _ _).moves hclean
  load {_ selector span} hst _ _ x hx := by
    rcases List.mem_cons.mp (show x ∈ "a" :: (selector.names ++ []) from hx) with rfl | hx
    · exact Label.isForeign_of_not_generated (by decide)
    · rw [List.append_nil] at hx
      exact hst x hx

end FnContext

end Z80Backend
