import Z80Backend.Proofs.Function.Journal
import Z80Backend.Proofs.Stack.AddressCode

/-! # Rejected calls

    A call is rejected when its callee is unknown, when the number of arguments
    is wrong, or at the last argument that cannot be passed
    (`FnContext.Refuses`).  In the third case the arguments behind that one were
    pushed already, and their code stays: each of them leaves the tracked depth
    two bytes lower.

    * `FnContext.shifts_pushArg`: the code of an argument moves the tracked depth
      by two bytes, also when some of it has no encoding.
    * `FnContext.lowerAll_report`: what follows a report is lowered as without it.
    * `FnContext.lowerCall_rejected`: what a rejected call leaves behind. -/

namespace Z80Backend

/-! ## Arguments -/

namespace FnContext

variable {ctx : FnContext} {callee : String}

theorem exists_stackReg_of_isPushable {name : String} (h : isPushable name = true) :
    ∃ reg : StackReg, reg.text = name := by
  have hmem : name ∈ ["af", "bc", "de", "hl", "ix", "iy"] := by simpa [isPushable] using h
  have hall : ∀ n ∈ ["af", "bc", "de", "hl", "ix", "iy"],
      ∃ reg ∈ [StackReg.af, .bc, .de, .hl, .index .ix, .index .iy], reg.text = n := by decide
  obtain ⟨reg, _, hreg⟩ := hall name hmem
  exact ⟨reg, hreg⟩

theorem shifts_swapTop {is : List Instruction} (h : Shifts is 0) : Shifts (is ++ [swapTop]) 0 := by
  have hswap : Shifts [swapTop] 0 := by
    refine .neutral fun span => StackEffect.of_neutral ?_
    show Text.lower "ex" ∉ _
    decide
  exact h.level hswap

/-- `h` is cleared with the stack as it was. -/
theorem shifts_clear : Shifts [.of "ld" [.ofReg "h", .ofNum 0]] 0 := Shifts.step (.ldByte .h 0)

/-- A pair is loaded with the stack as it was. -/
theorem shifts_ldWord (reg : WordReg) (o : Operand) : Shifts [.of "ld" [.ofReg reg.text, o]] 0 :=
  .neutral fun span => StackEffect.of_ld_reg reg.isReg_sp o span

theorem pushStorage_eq_ok {p : Place} {code : List Instruction}
    (h : ctx.pushStorage p = .ok code) :
    ∃ is, code = .of "push" [.ofReg StackReg.hl.text] :: is ∧ Shifts is 0 := by
  unfold pushStorage at h
  split at h
  · cases h
  rename_i x hx
  have hlevel := Place.isLevel_of_resolve hx
  dsimp only at h
  split at h
  · cases h
    have hload := Shifts.steps (x.address.loadByte .l)
    rw [Address.listDelta_loadByte hlevel] at hload
    refine ⟨_, rfl, ?_⟩
    simpa using shifts_swapTop (hload.level shifts_clear)
  split at h
  · cases h
    have hload := Shifts.steps (x.address.loadWord .hl)
    rw [Address.listDelta_loadWord hlevel] at hload
    exact ⟨_, rfl, shifts_swapTop hload⟩
  · cases h

/-- The code of an argument is a push and code that leaves the stack as it is. -/
theorem pushArg_eq_ok {n : Nat} {arg : Operand} {code : List Instruction}
    (h : ctx.pushArg callee n arg = .ok code) :
    ∃ (reg : StackReg) (is : List Instruction),
      code = .of "push" [.ofReg reg.text] :: is ∧ Shifts is 0 := by
  unfold pushArg at h
  dsimp only at h
  split at h
  · split at h
    · rename_i hpushable
      cases h
      obtain ⟨reg, hreg⟩ := exists_stackReg_of_isPushable hpushable
      exact ⟨reg, [], by rw [hreg], Shifts.steps []⟩
    · split at h
      · rename_i hsome
        cases h
        obtain ⟨reg, hreg⟩ := Option.isSome_iff_exists.mp hsome
        rw [← Reg8.text_of_ofName? hreg]
        have hmove : Shifts [.of "ld" [.ofReg "l", .ofReg reg.text]] 0 :=
          Shifts.step (.ldReg .l reg)
        exact ⟨.hl, _, rfl, shifts_swapTop (hmove.level shifts_clear)⟩
      · cases h
  · cases h
    exact ⟨.hl, _, rfl, shifts_swapTop (shifts_ldWord .hl _)⟩
  · split at h
    · exact ⟨.hl, pushStorage_eq_ok h⟩
    · cases h
  · split at h
    · exact ⟨.hl, pushStorage_eq_ok h⟩
    · cases h
  · cases h

/-- An argument takes the depth two bytes down. -/
theorem shifts_pushArg {n : Nat} {arg : Operand} {code : List Instruction}
    (h : ctx.pushArg callee n arg = .ok code) : Shifts code (-2) := by
  obtain ⟨reg, is, rfl, his⟩ := pushArg_eq_ok h
  have hpush : Shifts [.of "push" [.ofReg reg.text]] (-2) := Shifts.step (.push reg)
  simpa using hpush.append his

end FnContext

/-! ## Reports -/

/-- Does the problem lie in a call or in an address? -/
def Problem.isRejection : Problem → Bool
  | .call _ | .address _ => true
  | _ => false

theorem FnState.report_of_isRejection {p : Problem} (h : p.isRejection = true) (s : FnState)
    (span : Span) : s.report p span =
      { s with journal := s.journal ++ [.announced (.diagnostic { problem := p, span })] } := by
  cases p with
  | call | address => rfl
  | _ => cases h

/-- Nothing is reported from one state to a later one but what has no
    encoding. -/
def FnState.OnlyEncodes (s s' : FnState) : Prop :=
  ∃ j : Journal, s'.journal = s.journal ++ j ∧ ∀ d ∈ j.diagnostics, d.problem.isRejection = false

namespace FnState.OnlyEncodes

theorem refl (s : FnState) : OnlyEncodes s s := ⟨[], by simp, by simp [Journal.diagnostics,
  Journal.announcements]⟩

theorem trans {s t u : FnState} (h : OnlyEncodes s t) (h' : OnlyEncodes t u) : OnlyEncodes s u := by
  obtain ⟨j, hj, hds⟩ := h
  obtain ⟨k, hk, hes⟩ := h'
  refine ⟨j ++ k, by rw [hk, hj, List.append_assoc], fun d hd => ?_⟩
  rw [Journal.diagnostics_append, List.mem_append] at hd
  exact hd.elim (hds d) (hes d)

theorem emit (r : Resolver) (i : Instruction) (s : FnState) : OnlyEncodes s (s.emit r i) := by
  unfold FnState.emit
  split
  · refine ⟨_, journal_report _ _ _, fun d hd => ?_⟩
    simp only [Journal.diagnostics, Journal.announcements] at hd
    simp at hd
    rw [hd]
    rfl
  · exact refl s

theorem emitAll (r : Resolver) (span : Span) (is : List Instruction) (s : FnState) :
    OnlyEncodes s (s.emitAll r span is) := by
  induction is generalizing s with
  | nil => exact refl s
  | cons i is ih => exact (emit r { i with span } s).trans (ih _)

end FnState.OnlyEncodes

namespace FnContext

variable {ctx : FnContext} {callee : String}

/-- What a statement reports in calls and addresses does not change how the
    statements behind it are lowered. -/
theorem lowerAll_report (ctx : FnContext) (s : FnState) (e : Event) (rest : List Stmt)
    (blocks : List Block) :
    let lowered := fun t : FnState =>
      (ctx.lowerAll (ctx.lowerOp ctx.nesting) rest { fn := t, blocks }).close
    ∃ j, (lowered s).journal = s.journal ++ j ∧
      lowered { s with journal := s.journal ++ [e] } =
        { lowered s with journal := s.journal ++ e :: j } := by
  intro lowered
  -- the journal of the state is only put in front of what is written next
  have hbehind : ∀ j, lowered { s with journal := j } =
      (lowered { s with journal := [] }).behind j false := by
    intro j
    have hself : ({ s with journal := j } : FnState) =
        ({ s with journal := [] } : FnState).behind j false := by
      simp [FnState.behind]
    show (ctx.lowerAll _ rest { fn := { s with journal := j }, blocks }).close = _
    rw [hself, Body.mk_behind, ctx.lowerAll_behind (fun i t => ctx.lowerOp_behind _ i t),
      Body.close_behind]
  have hs : lowered s = (lowered { s with journal := [] }).behind s.journal false :=
    hbehind s.journal
  refine ⟨(lowered { s with journal := [] }).journal, by rw [hs]; rfl, ?_⟩
  rw [hbehind, hs]
  simp [FnState.behind]

/-! ## Calls -/

/-- All of the arguments, given with their positions, can be passed. -/
def AllPass (ctx : FnContext) (callee : String) (xs : List (Operand × Nat)) : Prop :=
  ∀ x ∈ xs, ∃ code, ctx.pushArg callee (x.2 + 1) x.1 = .ok code

/-- The code that pushes arguments, the last one first. -/
def pushCode (ctx : FnContext) (callee : String) (xs : List (Operand × Nat)) : List Instruction :=
  xs.reverse.flatMap fun (arg, i) => (ctx.pushArg callee (i + 1) arg).toOption.getD []

/-- What is wrong with a call, and the arguments that are pushed before it is
    found: those behind the last one that cannot be passed. -/
inductive Refuses (ctx : FnContext) (callee : String) (args : List Operand) :
    Problem → List (Operand × Nat) → Prop where
  | unknownFunction (hnone : ctx.functions.find? (·.name == callee) = none) :
      Refuses ctx callee args (.call (.unknownFunction callee)) []
  | argumentCount {f} (hf : ctx.functions.find? (·.name == callee) = some f)
      (hcount : args.length ≠ f.params.length) :
      Refuses ctx callee args (.call (.argumentCount callee f.params.length args.length)) []
  | argument {f left arg i right p} (hf : ctx.functions.find? (·.name == callee) = some f)
      (hcount : args.length = f.params.length) (hargs : args.zipIdx = left ++ (arg, i) :: right)
      (hright : ctx.AllPass callee right) (harg : ctx.pushArg callee (i + 1) arg = .error p) :
      Refuses ctx callee args p right

/-- Lowering the call reports a problem that lies in a call or in an address. -/
def Rejects (ctx : FnContext) (callee : String) (args : List Operand) (span : Span)
    (s : FnState) : Prop :=
  ∃ j : Journal, (ctx.lowerCall callee args span s).journal = s.journal ++ j ∧
    ∃ d ∈ j.diagnostics, d.problem.isRejection = true

section

variable {xs : List (Operand × Nat)} {span : Span}

theorem AllPass.of_cons {x : Operand × Nat} (h : ctx.AllPass callee (x :: xs)) :
    ctx.AllPass callee xs := fun y hy => h y (List.mem_cons_of_mem x hy)

theorem pushCode_cons {x : Operand × Nat} {code : List Instruction}
    (h : ctx.pushArg callee (x.2 + 1) x.1 = .ok code) :
    ctx.pushCode callee (x :: xs) = ctx.pushCode callee xs ++ code := by
  simp [pushCode, h, Except.toOption]

/-- All arguments pass, or there is a last one that does not. -/
theorem allPass_or (ctx : FnContext) (callee : String) (xs : List (Operand × Nat)) :
    ctx.AllPass callee xs ∨ ∃ left arg i right p, xs = left ++ (arg, i) :: right ∧
      ctx.AllPass callee right ∧ ctx.pushArg callee (i + 1) arg = .error p := by
  -- from the right, as the arguments are pushed
  induction xs with
  | nil => exact .inl nofun
  | cons x xs ih =>
    rcases ih with hpass | ⟨left, arg, i, right, p, rfl, hright, harg⟩
    · cases hx : ctx.pushArg callee (x.2 + 1) x.1 with
      | ok code => exact .inl (List.forall_mem_cons.mpr ⟨⟨code, hx⟩, hpass⟩)
      | error p => exact .inr ⟨[], x.1, x.2, xs, p, rfl, hpass, hx⟩
    · exact .inr ⟨x :: left, arg, i, right, p, rfl, hright, harg⟩

/-- Arguments that can be passed are all pushed. -/
theorem pushArgs_of_allPass (h : ctx.AllPass callee xs) (s : FnState) :
    ctx.pushArgs callee span xs s =
      (true, s.emitAll ctx.resolver span (ctx.pushCode callee xs)) := by
  induction xs with
  | nil => rfl
  | cons x xs ih =>
    obtain ⟨arg, i⟩ := x
    obtain ⟨code, hcode⟩ := h (arg, i) List.mem_cons_self
    rw [pushArgs, ih h.of_cons, pushCode_cons hcode]
    dsimp only at hcode ⊢
    rw [hcode]
    simp [FnState.emitAll]

/-- Pushing stops at the last argument that cannot be passed. -/
theorem pushArgs_of_error {left right : List (Operand × Nat)} {arg : Operand} {i : Nat}
    {p : Problem} (hright : ctx.AllPass callee right)
    (harg : ctx.pushArg callee (i + 1) arg = .error p) (s : FnState) :
    ctx.pushArgs callee span (left ++ (arg, i) :: right) s =
      (false, (s.emitAll ctx.resolver span (ctx.pushCode callee right)).report p span) := by
  induction left with
  | nil =>
    rw [List.nil_append, pushArgs, pushArgs_of_allPass hright]
    dsimp only
    rw [harg]
  | cons x left ih => rw [List.cons_append, pushArgs, ih]

/-- Each argument that is pushed takes the depth two bytes down. -/
theorem shifts_pushCode (h : ctx.AllPass callee xs) :
    Shifts (ctx.pushCode callee xs) (-2 * xs.length) := by
  induction xs with
  | nil =>
    rw [List.length_nil, Int.natCast_zero, Int.mul_zero]
    exact Shifts.steps []
  | cons x xs ih =>
    obtain ⟨code, hcode⟩ := h x List.mem_cons_self
    have hlength : (-2 * (x :: xs).length : Int) = -2 * xs.length + -2 := by
      rw [List.length_cons]
      omega
    rw [pushCode_cons hcode, hlength]
    exact (ih h.of_cons).append (shifts_pushArg hcode)

/-- The push of an argument is a line of its own. -/
theorem length_lines_pushArg {n : Nat} {arg : Operand} {code : List Instruction}
    (h : ctx.pushArg callee n arg = .ok code) (r : Resolver) (span : Span) (s : FnState) :
    s.lines.length < (s.emitAll r span code).lines.length := by
  obtain ⟨reg, is, rfl, -⟩ := pushArg_eq_ok h
  -- a push always has an encoding, whatever becomes of the rest
  have hcode : assemble r { Instruction.of "push" [.ofReg reg.text] with span } = .ok (.push reg) :=
    assemble_span (i := { Instruction.of _ _ with span }) (assemble_push reg)
  have hfirst : (s.emit r { Instruction.of "push" [.ofReg reg.text] with span }).lines.length =
      s.lines.length + 1 := by
    simp [FnState.emit, hcode]
  have hrest := ((s.emit r { Instruction.of "push" [.ofReg reg.text] with span }).extends_emitAll r
    span is).lines.length_le
  rw [hfirst] at hrest
  exact hrest

/-- Only a call that pushes nothing leaves the lines as they are. -/
theorem lines_pushCode (h : ctx.AllPass callee xs) (r : Resolver) (s : FnState) :
    (s.emitAll r span (ctx.pushCode callee xs)).lines = s.lines ↔ xs = [] := by
  constructor
  · intro hlines
    cases xs with
    | nil => rfl
    | cons x xs =>
      obtain ⟨code, hcode⟩ := h x List.mem_cons_self
      rw [pushCode_cons hcode, FnState.emitAll, List.foldl_append] at hlines
      have hpushed := (s.extends_emitAll r span (ctx.pushCode callee xs)).lines.length_le
      have hgrown := length_lines_pushArg hcode r span
        (s.emitAll r span (ctx.pushCode callee xs))
      have hlength := congrArg List.length hlines
      exact absurd (Nat.lt_of_le_of_lt hpushed hgrown) (Nat.not_lt.mpr (Nat.le_of_eq hlength))
  · rintro rfl
    rfl

end

theorem isRejection_of_pushArg {n : Nat} {arg : Operand} {p : Problem}
    (h : ctx.pushArg callee n arg = .error p) : p.isRejection = true := by
  have hstorage : ∀ {place}, ctx.pushStorage place = .error p → p.isRejection = true := by
    intro place hplace
    unfold pushStorage at hplace
    split at hplace
    · cases hplace
      rfl
    dsimp only at hplace
    split at hplace
    · cases hplace
    split at hplace
    · cases hplace
    · cases hplace
      rfl
  unfold pushArg at h
  dsimp only at h
  split at h
  · split at h
    · cases h
    split at h
    · cases h
    · cases h
      rfl
  · cases h
  · split at h
    · exact hstorage h
    · cases h
      rfl
  · split at h
    · exact hstorage h
    · cases h
      rfl
  · cases h
    rfl

namespace Refuses

variable {args : List Operand} {p : Problem} {pushed : List (Operand × Nat)}

theorem isRejection (h : ctx.Refuses callee args p pushed) : p.isRejection = true := by
  cases h with
  | unknownFunction | argumentCount => rfl
  | argument _ _ _ _ harg => exact isRejection_of_pushArg harg

theorem allPass (h : ctx.Refuses callee args p pushed) : ctx.AllPass callee pushed := by
  cases h with
  | unknownFunction | argumentCount => nofun
  | argument _ _ _ hright => exact hright

/-- A call that is refused pushes what it pushes, and is reported. -/
theorem lowerCall (h : ctx.Refuses callee args p pushed) (span : Span) (s : FnState) :
    ctx.lowerCall callee args span s =
      (s.emitAll ctx.resolver span (ctx.pushCode callee pushed)).report p span := by
  unfold FnContext.lowerCall
  cases h with
  | unknownFunction hnone =>
    rw [hnone]
    rfl
  | argumentCount hf hcount =>
    rw [hf]
    dsimp only
    rw [if_pos hcount]
    rfl
  | argument hf hcount hargs hright harg =>
    rw [hf]
    dsimp only
    rw [if_neg (not_not.mpr hcount), hargs, pushArgs_of_error hright harg]

end Refuses

/-- A call is refused, or all it reports is what has no encoding. -/
theorem refuses_or_onlyEncodes (ctx : FnContext) (callee : String) (args : List Operand)
    (span : Span) (s : FnState) :
    (∃ p pushed, ctx.Refuses callee args p pushed) ∨
      s.OnlyEncodes (ctx.lowerCall callee args span s) := by
  cases hf : ctx.functions.find? (·.name == callee) with
  | none => exact .inl ⟨_, _, .unknownFunction hf⟩
  | some f =>
    by_cases hcount : args.length = f.params.length
    · rcases ctx.allPass_or callee args.zipIdx with hpass | ⟨left, arg, i, right, p, h⟩
      · right
        rw [FnContext.lowerCall, hf]
        dsimp only
        rw [if_neg (not_not.mpr hcount), pushArgs_of_allPass hpass]
        refine (FnState.OnlyEncodes.emitAll _ span _ s).trans
          ((FnState.OnlyEncodes.emitAll _ span _ _).trans ⟨_, rfl, fun d hd => ?_⟩)
        simp [Journal.diagnostics, Journal.announcements] at hd
      · exact .inl ⟨p, right, .argument hf hcount h.1 h.2.1 h.2.2⟩
    · exact .inl ⟨_, _, .argumentCount hf hcount⟩

/-- A call is rejected exactly if its callee is unknown, its number of arguments
    is wrong, or one of them cannot be passed.  It leaves behind the code of the
    arguments to the right of the last such one, the depth two bytes lower for
    each of them, and one report.  So it leaves no trace exactly if there are
    none, and then all that follows is lowered as if the call were not there. -/
theorem lowerCall_rejected (ctx : FnContext) (callee : String) (args : List Operand) (span : Span)
    (s : FnState) :
    let after := ctx.lowerCall callee args span s
    (ctx.Rejects callee args span s ↔ ∃ p pushed, ctx.Refuses callee args p pushed) ∧
    ∀ p pushed, ctx.Refuses callee args p pushed →
      let e := Event.announced (.diagnostic { problem := p, span })
      after = (s.emitAll ctx.resolver span (ctx.pushCode callee pushed)).report p span ∧
      after.tracker =
        { s.tracker with depth := s.tracker.depth.add (Int64.ofInt (-2 * pushed.length)) } ∧
      (after.lines = s.lines ↔ pushed = []) ∧
      (pushed = [] → after = { s with journal := s.journal ++ [e] } ∧
        ∀ rest blocks,
          let lowered := fun t : FnState =>
            (ctx.lowerAll (ctx.lowerOp ctx.nesting) rest { fn := t, blocks }).close
          ∃ j, (lowered s).journal = s.journal ++ j ∧
            lowered after = { lowered s with journal := s.journal ++ e :: j }) := by
  intro after
  refine ⟨⟨?_, ?_⟩, fun p pushed h => ?_⟩
  · rintro ⟨j, hj, d, hd, hrejection⟩
    rcases ctx.refuses_or_onlyEncodes callee args span s with hrefused | ⟨k, hk, hother⟩
    · exact hrefused
    · -- a call that is not refused reports nothing of the kind
      obtain rfl : j = k := List.append_cancel_left (hj.symm.trans hk)
      rw [hother d hd] at hrejection
      cases hrejection
  · rintro ⟨p, pushed, h⟩
    obtain ⟨j, hj, -⟩ := FnState.OnlyEncodes.emitAll ctx.resolver span
      (ctx.pushCode callee pushed) s
    refine ⟨j ++ [.announced (.diagnostic { problem := p, span })], ?_, { problem := p, span }, ?_,
      h.isRejection⟩
    · rw [h.lowerCall, FnState.journal_report, hj, List.append_assoc]
    · rw [Journal.diagnostics_append]
      exact List.mem_append_right _ List.mem_cons_self
  · have hafter : after = _ := h.lowerCall span s
    refine ⟨hafter, ?_, ?_, ?_⟩
    · rw [hafter, FnState.tracker_report, shifts_pushCode h.allPass]
    · rw [hafter, FnState.lines_report, lines_pushCode h.allPass]
    · rintro rfl
      have hreport : after = { s with journal := s.journal ++ [_] } :=
        hafter.trans (s.report_of_isRejection h.isRejection span)
      refine ⟨hreport, fun rest blocks => ?_⟩
      rw [hreport]
      exact ctx.lowerAll_report s _ rest blocks

/-- A function of two words that can be called. -/
def joinWords : FnSignature where
  name := "join"
  params := [⟨"first", { name := "word" }⟩, ⟨"second", { name := "word" }⟩]

/-- A setting in which it can be called. -/
def joinSetting : FnContext where
  name := "main"
  resolver := .empty
  ops := { resolver := .empty, decls := [] }
  functions := [joinWords]
  scope _ := none
  nesting := 1

/-- A port can be passed neither as the first word nor as the second, but only
    as the first does it leave something behind. -/
theorem join_rejected :
    joinSetting.Refuses "join" [.portC {}, .ofReg "bc"]
      (.call (.argument 1 "join" (.portC {}))) [(.ofReg "bc", 1)] ∧
    (joinSetting.lowerCall "join" [.portC {}, .ofReg "bc"] {} {}).tracker.depth = .known (-2) ∧
    joinSetting.Refuses "join" [.ofReg "bc", .portC {}]
      (.call (.argument 2 "join" (.portC {}))) [] ∧
    (joinSetting.lowerCall "join" [.ofReg "bc", .portC {}] {} {}).lines = [] := by
  have hfound : joinSetting.functions.find? (·.name == "join") = some joinWords := by decide
  have hfirst : joinSetting.Refuses "join" [.portC {}, .ofReg "bc"]
      (.call (.argument 1 "join" (.portC {}))) [(.ofReg "bc", 1)] := by
    have hargs : [Operand.portC {}, .ofReg "bc"].zipIdx =
        [] ++ (.portC {}, 0) :: [(.ofReg "bc", 1)] := rfl
    refine .argument hfound rfl hargs ?_ rfl
    intro x hx
    obtain rfl := List.mem_singleton.mp hx
    have hname : Text.lower "bc" = "bc" := by decide
    exact ⟨[.of "push" [.ofReg "bc"]], by simp [pushArg, Operand.ofReg, hname, isPushable]⟩
  have hsecond : joinSetting.Refuses "join" [.ofReg "bc", .portC {}]
      (.call (.argument 2 "join" (.portC {}))) [] := by
    have hargs : [Operand.ofReg "bc", .portC {}].zipIdx =
        [(.ofReg "bc", 0)] ++ (.portC {}, 1) :: [] := rfl
    refine .argument hfound rfl hargs ?_ rfl
    intro x hx
    cases hx
  obtain ⟨-, hpushed⟩ := lowerCall_rejected joinSetting "join" [.portC {}, .ofReg "bc"] {} {}
  obtain ⟨-, hnothing⟩ := lowerCall_rejected joinSetting "join" [.ofReg "bc", .portC {}] {} {}
  obtain ⟨-, htracker, -⟩ := hpushed _ _ hfirst
  obtain ⟨-, -, hlines, -⟩ := hnothing _ _ hsecond
  refine ⟨hfirst, ?_, hsecond, hlines.mpr rfl⟩
  rw [htracker]
  decide

/-- The push of the second word stays when the first one is refused, so that the
    stack is reported to be unbalanced as well. -/
theorem refused_call_unbalances :
    joinSetting.Rejects "join" [.portC {}, .ofReg "bc"] {} {} ∧
    (joinSetting.lowerCall "join" [.portC {}, .ofReg "bc"] {} {}).lines ≠ [] ∧
    (joinSetting.lowerCall "join" [.portC {}, .ofReg "bc"] {} {}).tracker ≠ {} ∧
    let main : FuncDecl :=
      { name := "main", returns := ["af", "bc", "de", "hl"]
        body := [.call "join" [.portC {}, .ofReg "bc"] {}] }
    ((main.lower .empty { functions := [joinWords] } {}).2.2.journal.diagnostics.map (·.problem)) =
      [.call (.argument 1 "join" (.portC {})), .stack (.endUnbalanced "main" (-2))] := by
  refine ⟨⟨_, rfl, { problem := .call (.argument 1 "join" (.portC {})), span := {} }, ?_, rfl⟩,
    by decide +kernel, by decide +kernel, by decide +kernel⟩
  decide +kernel

end FnContext

end Z80Backend
