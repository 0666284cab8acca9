import Z80Backend.Proofs.Function.Growth
import Z80Backend.Proofs.Spelling.Storage

/-! # Two spellings of a body, side by side

    Two functions that differ in spelling are lowered side by side.  After each
    step the two states match: the same code up to the spelling of registers in
    address slots, the same labels, the same stack, and a problem reported by
    the one for each problem reported by the other.

    * `FnState.Matches` is the relation between the states.
    * `FnState.Matches.emit`: it is kept by instructions with the same code.
    * `isKept_spelling`: so it is by the steps of structured control. -/

namespace Z80Backend

/-! ## What is compared -/

/-- What a diagnostic tells apart from its wording. -/
def Diagnostic.outline (d : Diagnostic) : String × Span × Severity :=
  (d.category, d.span, d.severity)

/-- The outlines of the diagnostics among the events. -/
def Journal.outlines (j : Journal) : List (String × Span × Severity) :=
  j.diagnostics.map Diagnostic.outline

@[simp] theorem Journal.outlines_append (j k : Journal) :
    outlines (j ++ k) = j.outlines ++ k.outlines := by
  simp [outlines]

/-- The line without what was written, its code in caseless form. -/
def Line.caseless : Line → Line
  | .instr i code => .instr { head := "", span := i.span } code.caseless
  | l => l

/-- Two instructions that can stand for one another. -/
structure Instruction.Alike (r : Resolver) (i i' : Instruction) : Prop where
  outcome : i'.outcome r = i.outcome r
  span : i'.span = i.span
  effect : StackEffect.of i' = StackEffect.of i

theorem Instruction.Alike.refl (r : Resolver) (i : Instruction) : i.Alike r i := ⟨rfl, rfl, rfl⟩

theorem Instruction.alike_caseless {r : Resolver} (hr : r.SparesRegisters) (i : Instruction) :
    i.Alike r i.caseless :=
  ⟨assemble_caseless hr i, rfl, StackEffect.of_caseless i⟩

namespace FnState

/-- The states of two functions that are lowered side by side. -/
structure Matches (s s' : FnState) : Prop where
  lines : s'.lines.map Line.caseless = s.lines.map Line.caseless
  tracker : s'.tracker = s.tracker
  counter : s'.counter = s.counter
  userLabels : s'.userLabels = s.userLabels
  returns : s'.returns = s.returns
  issues : s'.issues = s.issues
  exhausted : s'.exhausted = s.exhausted
  reports : s'.journal.outlines = s.journal.outlines

namespace Matches

variable {s s' : FnState} (h : s.Matches s')

theorem refl (s : FnState) : s.Matches s := ⟨rfl, rfl, rfl, rfl, rfl, rfl, rfl, rfl⟩

include h

/-- Labels are compared as they stand. -/
theorem hasLabel (name : String) : Line.hasLabel name s'.lines = Line.hasLabel name s.lines := by
  have hcase : ∀ ls, Line.hasLabel name (ls.map Line.caseless) = Line.hasLabel name ls := by
    intro ls
    unfold Line.hasLabel
    rw [List.any_map]
    congr 1
    funext l
    cases l <;> rfl
  rw [← hcase s'.lines, h.lines, hcase]

/-! ## Steps of a function -/

theorem note {e e' : Event} (he : Journal.outlines [e'] = Journal.outlines [e]) :
    (s.note e).Matches (s'.note e') :=
  { h with reports := by simp only [FnState.note, Journal.outlines_append, h.reports, he] }

theorem report {p p' : Problem} {span : Span} (hp : p'.kind = p.kind) :
    (s.report p span).Matches (s'.report p' span) := by
  have hreport : ∀ (t : FnState) (q : Problem), t.report q span =
      { t.note (.announced (.diagnostic { problem := q, span })) with
        issues := t.issues ++ (q.kind.2.map fun e => { problem := .stack e, span }).toList } := by
    intro t q
    cases q with
    | stack e => rfl
    | _ => simp [FnState.report, FnState.note, Problem.kind]
  have hcategory : p'.category = p.category := congrArg Prod.fst hp
  rw [hreport s p, hreport s' p', hp, h.issues]
  have houtline : Journal.outlines [.announced (.diagnostic { problem := p', span })] =
      Journal.outlines [.announced (.diagnostic { problem := p, span })] := by
    simp [Journal.outlines, Journal.diagnostics, Journal.announcements, Diagnostic.outline,
      Diagnostic.category, hcategory]
  have hnote := h.note houtline
  exact { hnote with issues := rfl }

/-- Appends the code of one instruction on either side. -/
theorem appendCode {i i' : Instruction} {code code' : MachineInstr} (hspan : i'.span = i.span)
    (hcode : code'.caseless = code.caseless) :
    ({ s with lines := s.lines ++ [Line.instr i code] } : FnState).Matches
      { s' with lines := s'.lines ++ [Line.instr i' code'] } :=
  { h with lines := by simp [Line.caseless, h.lines, hspan, hcode] }

/-- Instructions with the same code keep the states alike. -/
theorem emit {r : Resolver} {i i' : Instruction} (hi : i.Alike r i') :
    (s.emit r i).Matches (s'.emit r i') := by
  have houtcome := hi.outcome
  unfold Instruction.outcome at houtcome
  unfold FnState.emit
  cases hc : assemble r i with
  | error e =>
    cases hc' : assemble r i' with
    | error e' =>
      dsimp only
      rw [hi.span]
      exact h.report rfl
    | ok code' =>
      rw [hc, hc'] at houtcome
      cases houtcome
  | ok code =>
    cases hc' : assemble r i' with
    | error e' =>
      rw [hc, hc'] at houtcome
      cases houtcome
    | ok code' =>
      rw [hc, hc'] at houtcome
      have hcode : code'.caseless = code.caseless := Option.some.inj houtcome
      have htracker : s'.tracker.apply i' = s.tracker.apply i := by
        unfold Tracker.apply
        rw [hi.effect, h.tracker]
      exact { h.appendCode hi.span hcode with tracker := htracker }

theorem emitSilent (r : Resolver) (span : Span) (i : Instruction) :
    (s.emitSilent r span i).Matches (s'.emitSilent r span i) := by
  unfold FnState.emitSilent
  cases assemble r i with
  | error e => exact h.report rfl
  | ok code => exact h.appendCode rfl rfl

end Matches

end FnState

/-- A body and its caseless form. -/
def spelling (r : Resolver) : Comparison where
  word := Text.asciiLower
  operand := Operand.caseless
  instr := Instruction.caseless
  problem p p' := p'.kind = p.kind
  code := Instruction.Alike r
  state := FnState.Matches

theorem stmt_spelling (r : Resolver) : (spelling r).stmt = Stmt.caseless := by
  funext st
  cases st <;> simp [Wording.stmt, spelling, Stmt.caseless]

theorem isKept_spelling (r : Resolver) : (spelling r).IsKept r where
  same _ := rfl
  jump _ _ := .refl r _
  branch _ _ _ := .refl r _
  compare _ _ := .refl r _
  tracker := FnState.Matches.tracker
  placed := FnState.Matches.hasLabel
  report h _ _ hp _ := FnState.Matches.report h hp
  freshLabel h kind _ := ⟨congrArg (Label.make kind <| · + 1) h.counter,
    { h with counter := congrArg (· + 1) h.counter }⟩
  placeLabel h _ _ :=
    { h with lines := by simp only [FnState.placeLabel, List.map_append, h.lines]; rfl }
  track h _ := { h with tracker := rfl }
  emit h _ _ hi := FnState.Matches.emit h hi

namespace FnState.Matches

variable {s s' : FnState} (h : s.Matches s')

include h

theorem check (e : Option StackError) (span : Span) : (s.check e span).Matches (s'.check e span) :=
  (isKept_spelling .empty).check h e span

theorem emitAll (r : Resolver) (span : Span) (is : List Instruction) :
    (s.emitAll r span is).Matches (s'.emitAll r span is) :=
  (isKept_spelling r).emitAll (List.forall₂_same.mpr fun _ _ => .refl r _) h

end FnState.Matches

end Z80Backend
