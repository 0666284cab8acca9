import Z80Backend.Function.Lower
import Z80Backend.Proofs.Control.Labels
import Z80Backend.Proofs.Function.Growth

/-! # The parts of a function's code

    The code of a function is the code of its beginning, the body, the label
    of its exit, if there is one, and the code of its end.  The body is
    lowered with a tracker that knows the stack to be as the beginning leaves
    it, and with label numbers above the one of the exit. -/

namespace Z80Backend

/-! ## Code around the body -/

/-- The lines of instructions that stand for themselves. -/
inductive Line.Assembles (r : Resolver) : List Instruction → List Line → Prop where
  | nil : Assembles r [] []
  | cons {i code is ls} (hcode : assemble r i = .ok code) (h : Assembles r is ls) :
      Assembles r (i :: is) (.instr i code :: ls)

namespace Line.Assembles

variable {r : Resolver} {is is' : List Instruction} {ls ls' : List Line}

theorem labelNames (h : Assembles r is ls) : Line.labelNames ls = [] := by
  induction h with
  | nil => rfl
  | cons _ _ ih => exact ih

theorem length (h : Assembles r is ls) : ls.length = is.length := by
  induction h with
  | nil => rfl
  | cons _ _ ih => rw [List.length_cons, List.length_cons, ih]

theorem exists_of_mem (h : Assembles r is ls) {l : Line} (hl : l ∈ ls) :
    ∃ i ∈ is, ∃ code, assemble r i = .ok code ∧ l = .instr i code := by
  induction h with
  | nil => cases hl
  | @cons i code is ls hcode _ ih =>
    rcases List.mem_cons.mp hl with rfl | hl
    · exact ⟨i, List.mem_cons_self, code, hcode, rfl⟩
    · obtain ⟨i', hi', hrest⟩ := ih hl
      exact ⟨i', List.mem_cons_of_mem i hi', hrest⟩

theorem of_append (h : Assembles r (is ++ is') ls) :
    ∃ ms ns, ls = ms ++ ns ∧ Assembles r is ms ∧ Assembles r is' ns := by
  induction is generalizing ls with
  | nil => exact ⟨[], ls, rfl, .nil, h⟩
  | cons i is ih =>
    cases h with
    | cons hcode h =>
      obtain ⟨ms, ns, rfl, hms, hns⟩ := ih h
      exact ⟨_, ns, rfl, .cons hcode hms, hns⟩

end Line.Assembles

namespace FnState

variable {s : FnState}

theorem emitSilent_of_clean {r : Resolver} {span : Span} {i : Instruction}
    (h : (emitSilent r span s i).Clean) :
    ∃ code, assemble r i = .ok code ∧
      emitSilent r span s i = { s with lines := s.lines ++ [Line.instr i code] } := by
  unfold emitSilent at h ⊢
  cases hcode : assemble r i with
  | error e =>
    rw [hcode] at h
    exact absurd h (not_clean_report _ _ _)
  | ok code => exact ⟨code, rfl, rfl⟩

@[simp] theorem tracker_report (p : Problem) (span : Span) :
    (s.report p span).tracker = s.tracker := by
  unfold report
  cases p <;> rfl

@[simp] theorem lines_report (p : Problem) (span : Span) :
    (s.report p span).lines = s.lines := by
  unfold report
  cases p <;> rfl

@[simp] theorem lines_check (e : Option StackError) (span : Span) :
    (s.check e span).lines = s.lines := by
  cases e with
  | none => rfl
  | some e => exact lines_report _ _

@[simp] theorem tracker_emitSilent (r : Resolver) (span : Span) (i : Instruction) :
    (emitSilent r span s i).tracker = s.tracker := by
  unfold emitSilent
  split
  · exact tracker_report _ _
  · rfl

@[simp] theorem tracker_emitAround (ctx : FnContext) (is : List Instruction) :
    (ctx.emitAround is s).tracker = s.tracker := by
  induction is generalizing s with
  | nil => rfl
  | cons i is ih => exact ih.trans (tracker_emitSilent _ _ _)

end FnState

namespace FnContext

/-- The lines of those instructions that have code. -/
def linesOf (ctx : FnContext) (is : List Instruction) : List Line :=
  is.filterMap fun i => (assemble ctx.resolver i).toOption.map (Line.instr i)

variable {ctx : FnContext} {is : List Instruction} {i : Instruction} {s : FnState}

@[simp] theorem linesOf_nil : ctx.linesOf [] = [] := rfl

theorem linesOf_ok {code : MachineInstr} (h : assemble ctx.resolver i = .ok code) :
    ctx.linesOf (i :: is) = .instr i code :: ctx.linesOf is := by
  simp [linesOf, h, Except.toOption]

theorem linesOf_error {e : EncodeError} (h : assemble ctx.resolver i = .error e) :
    ctx.linesOf (i :: is) = ctx.linesOf is := by
  simp [linesOf, h, Except.toOption]

/-- Code around the body is appended. -/
theorem lines_emitAround (ctx : FnContext) (is : List Instruction) (s : FnState) :
    (ctx.emitAround is s).lines = s.lines ++ ctx.linesOf is := by
  induction is generalizing s with
  | nil => simp [emitAround, linesOf]
  | cons i is ih =>
    refine (ih _).trans ?_
    unfold FnState.emitSilent
    cases hcode : assemble ctx.resolver i with
    | error e => simp [linesOf_error hcode]
    | ok code => simp [linesOf_ok hcode]

/-- Code around the body has lines if nothing is reported. -/
theorem assembles_of_clean (ctx : FnContext) (h : (ctx.emitAround is s).Clean) :
    Line.Assembles ctx.resolver is (ctx.linesOf is) := by
  induction is generalizing s with
  | nil => exact .nil
  | cons i is ih =>
    obtain ⟨code, hcode, -⟩ := FnState.emitSilent_of_clean
      ((ctx.extends_emitAround is (s.emitSilent ctx.resolver ctx.span i)).clean h)
    rw [linesOf_ok hcode]
    exact .cons hcode (ih h)

end FnContext

/-- Code around the body is appended, and the stack is not followed. -/
theorem Line.Assembles.emitAround {ctx : FnContext} {is : List Instruction} {ls : List Line}
    (h : Line.Assembles ctx.resolver is ls) (s : FnState) :
    ctx.emitAround is s = { s with lines := s.lines ++ ls } := by
  induction h generalizing s with
  | nil => simp [FnContext.emitAround]
  | @cons i code is ls hcode _ ih =>
    refine (ih _).trans ?_
    simp [FnState.emitSilent, hcode]

/-! ## Beginning, body and end -/

namespace FuncDecl

variable (d : FuncDecl) (r : Resolver) (decls : Declarations) (n : Int)

/-- The setting of the body, and the state at its beginning, when labels up to
    `n` are in use. -/
def entry : FnContext × FnState :=
  let (slots, s) := d.layoutSlots r d.slots ([], d.checkReturns { counter := n })
  let (epilogue, s) :=
    if d.hasFrame || !d.preserved.isEmpty then
      let (label, s) := s.freshLabel "epilogue"
      (some label, s)
    else (none, s)
  let ctx := d.context r decls slots epilogue
  (ctx, ctx.emitAround (ctx.prologue d.locals) s)

/-- The state at the end of the body. -/
def bodyEnd : FnState := (d.entry r decls n).1.lowerBody d.body (d.entry r decls n).2

/-- The lines of the body. -/
def bodyLines : List Line :=
  (d.bodyEnd r decls n).lines.drop (d.entry r decls n).2.lines.length

theorem lower_lines_eq_finish :
    (d.lower r decls { counter := n }).1.lines =
      (d.finish (d.entry r decls n).1 (d.bodyEnd r decls n)).lines := rfl

@[simp] theorem entry_resolver : (d.entry r decls n).1.resolver = r := rfl

/-- The state before the beginning of the function is emitted. -/
theorem unchanged_slots :
    (d.layoutSlots r d.slots ([], d.checkReturns { counter := n })).2.lines = [] ∧
      (d.layoutSlots r d.slots ([], d.checkReturns { counter := n })).2.tracker = {} :=
  d.layout_of (Q := fun _ s => s.lines = [] ∧ s.tracker = {})
    (fun _ _ h => by rwa [FnState.lines_report, FnState.tracker_report]) (fun _ _ h => h) ⟨rfl, rfl⟩

/-- The body starts with the stack as the beginning leaves it. -/
@[simp] theorem entry_tracker : (d.entry r decls n).2.tracker = {} := by
  have hslots := (d.unchanged_slots r n).2
  unfold entry
  dsimp only
  rw [FnState.tracker_emitAround]
  split
  · exact hslots
  · exact hslots

theorem entry_lines : (d.entry r decls n).2.lines =
    (d.entry r decls n).1.linesOf ((d.entry r decls n).1.prologue d.locals) := by
  have hlines := (d.unchanged_slots r n).1
  unfold entry
  dsimp only
  rw [FnContext.lines_emitAround]
  split
  · exact congrArg (· ++ _) hlines
  · exact congrArg (· ++ _) hlines

/-- The label of the exit has a number that is in use when the body starts. -/
theorem entry_epilogue {e : String} (h : (d.entry r decls n).1.epilogue = some e) :
    ∃ k, e = Label.make "epilogue" k ∧ k ≤ (d.entry r decls n).2.counter := by
  unfold entry at h ⊢
  dsimp only at h ⊢
  by_cases hexit : (d.hasFrame || !d.preserved.isEmpty) = true
  · rw [if_pos hexit] at h ⊢
    exact ⟨_, (Option.some.inj h).symm, (FnContext.extends_emitAround _ _ _).counter⟩
  · rw [if_neg hexit] at h
    cases h

/-- Without an exit there is nothing to undo. -/
theorem entry_cleanup (h : (d.entry r decls n).1.epilogue = none) :
    (d.entry r decls n).1.cleanup = [] := by
  unfold entry at h ⊢
  dsimp only at h ⊢
  by_cases hexit : (d.hasFrame || !d.preserved.isEmpty) = true
  · rw [if_pos hexit] at h
    cases h
  · obtain ⟨hframe, hsaved⟩ : d.hasFrame = false ∧ d.preserved = [] := by simpa using hexit
    simp [FnContext.cleanup, context, hframe, hsaved]

variable {d r decls n}

/-- A function without reports has an end, a body and a beginning without
    reports. -/
theorem finish_clean (h : (d.lower r decls { counter := n }).2.2.Clean) :
    (d.finish (d.entry r decls n).1 (d.bodyEnd r decls n)).Clean :=
  (FnState.extends_note _ _).clean h

theorem bodyEnd_clean (h : (d.lower r decls { counter := n }).2.2.Clean) :
    (d.bodyEnd r decls n).Clean :=
  (d.extends_finish _ _).clean (finish_clean h)

theorem bodyEnd_lines :
    (d.bodyEnd r decls n).lines = (d.entry r decls n).2.lines ++ d.bodyLines r decls n := by
  obtain ⟨ls, hls⟩ := ((d.entry r decls n).1.extends_lowerBody d.body _).lines
  have hbody : (d.bodyEnd r decls n).lines = (d.entry r decls n).2.lines ++ ls := hls.symm
  rw [bodyLines, hbody, List.drop_left]

theorem extends_entry : FnState.Extends { counter := n } (d.entry r decls n).2 := by
  have hslots : FnState.Extends { counter := n }
      (d.layoutSlots r d.slots ([], d.checkReturns { counter := n })).2 :=
    d.layout_of (Q := fun _ s => FnState.Extends { counter := n } s)
      (fun p span h => h.trans (FnState.extends_report _ p span)) (fun _ _ h => h) (.refl _)
  unfold entry
  dsimp only
  refine FnState.Extends.trans ?_ (FnContext.extends_emitAround _ _ _)
  split
  · exact hslots.trans (FnState.extends_freshLabel _ "epilogue")
  · exact hslots

/-- The lines of a function are labels and instructions with their code. -/
theorem isAssembled_lines {l : Line} (h : l ∈ (d.lower r decls { counter := n }).1.lines) :
    l.IsAssembled := by
  have hbody := (d.entry r decls n).1.extends_lowerBody d.body (d.entry r decls n).2
  have hall := (extends_entry.trans hbody).trans
    (d.extends_finish (d.entry r decls n).1 (d.bodyEnd r decls n))
  rw [lower_lines_eq_finish] at h
  refine (hall.assembled l h).resolve_left ?_
  simp

/-- The end of a function without reports finds the stack in order. -/
theorem check_of_finish {ctx : FnContext} {s : FnState} (h : (d.finish ctx s).Clean) :
    (if s.tracker.live then s.check (s.tracker.depth.endError? d.name) d.span else s).Clean := by
  refine (FnState.Extends.trans ?_ (ctx.extends_emitAround _ _)).clean h
  cases ctx.epilogue with
  | some label => exact FnState.extends_placeLabel _ label d.span
  | none => exact .refl _

theorem endError?_of_finish {ctx : FnContext} {s : FnState} (h : (d.finish ctx s).Clean)
    (hlive : s.tracker.live = true) : s.tracker.depth.endError? d.name = none := by
  have hcheck := check_of_finish h
  rw [if_pos hlive] at hcheck
  exact (FnState.check_of_clean hcheck).1

/-- What the end of a function appends. -/
theorem lines_finish_eq (d : FuncDecl) (ctx : FnContext) (s : FnState) :
    (d.finish ctx s).lines = s.lines ++ (ctx.epilogue.toList.map (Line.label · d.span) ++
      ctx.linesOf (ctx.cleanup ++ [Instruction.of "ret" []])) := by
  have hcheck : (if s.tracker.live then s.check (s.tracker.depth.endError? d.name) d.span
      else s).lines = s.lines := by
    split
    · exact FnState.lines_check _ _
    · rfl
  unfold finish
  dsimp only
  rw [FnContext.lines_emitAround]
  cases ctx.epilogue with
  | some label => simp [FnState.placeLabel, hcheck]
  | none => simp [hcheck]

theorem lines_finish {ctx : FnContext} {s : FnState} (h : (d.finish ctx s).Clean) :
    ∃ tail, Line.Assembles ctx.resolver (ctx.cleanup ++ [Instruction.of "ret" []]) tail ∧
      (d.finish ctx s).lines =
        s.lines ++ (ctx.epilogue.toList.map (Line.label · d.span) ++ tail) :=
  ⟨_, ctx.assembles_of_clean h, d.lines_finish_eq ctx s⟩

/-- The parts of a function that is lowered without a report. -/
theorem lines_lower (h : (d.lower r decls { counter := n }).2.2.Clean) :
    ∃ tail, Line.Assembles r ((d.entry r decls n).1.cleanup ++ [Instruction.of "ret" []]) tail ∧
      (d.lower r decls { counter := n }).1.lines =
        (d.entry r decls n).2.lines ++ d.bodyLines r decls n ++
          ((d.entry r decls n).1.epilogue.toList.map (Line.label · d.span) ++ tail) := by
  obtain ⟨tail, htail, hlines⟩ := lines_finish (finish_clean h)
  refine ⟨tail, htail, ?_⟩
  rw [lower_lines_eq_finish, hlines, bodyEnd_lines]

end FuncDecl

end Z80Backend
