import Z80Backend.Proofs.Call.Frame

/-! # The parts of a call

    The code of the callee begins and ends with the code around its body, also
    where the body is in error; the code of the caller is argument code, a call,
    and steps of the stack pointer.

    * `FuncDecl.renders_entry`: the lines with which a function begins.
    * `FuncDecl.Exit` are the lines by which a function is left, and
      `FuncDecl.Exit.parts` tells what they do.
    * `Line.splitCall` cuts the lines of a call behind the call itself, and
      `FnContext.parts_of_lowerCall` tells what is on either side. -/

namespace Z80Backend

/-! ## The code of the callee -/

namespace FnContext

variable (ctx : FnContext) {r : Resolver}

theorem hasCode_prologue {locals : List Local} (h : ∀ l ∈ locals, l.HasWord r) :
    ∀ i ∈ ctx.prologue locals, i.HasCode r :=
  forall_mem_prologue ⟨_, rfl⟩ hasCode_push ⟨_, rfl⟩ ⟨_, rfl⟩ fun l hl => (h l hl).hasCode

theorem hasCode_cleanup : ∀ i ∈ ctx.cleanup, i.HasCode r :=
  forall_mem_cleanup hasCode_pop ⟨_, rfl⟩

theorem assembles_cleanup : Line.Assembles ctx.resolver ctx.cleanup (ctx.linesOf ctx.cleanup) :=
  ctx.assembles_linesOf ctx.hasCode_cleanup

theorem assembles_end : Line.Assembles ctx.resolver (ctx.cleanup ++ [Instruction.of "ret" []])
    (ctx.linesOf (ctx.cleanup ++ [Instruction.of "ret" []])) :=
  ctx.assembles_linesOf (List.forall_mem_append.mpr
    ⟨ctx.hasCode_cleanup, List.forall_mem_singleton.mpr ⟨_, rfl⟩⟩)

end FnContext

namespace FuncDecl

variable {d : FuncDecl} {r : Resolver} {decls : Declarations} {n : Int}

theorem mem_savedRegs_of_preserved : ∀ x ∈ d.preserved, x ∈ savedRegs :=
  fun _ hx => (List.mem_filter.mp hx).1

theorem nodup_preserved : d.preserved.Nodup := by
  have hall : savedRegs.Nodup := by decide
  exact hall.filter _

theorem renders_entry (d : FuncDecl) (decls : Declarations) (n : Int)
    (h : ∀ l ∈ d.locals, l.HasWord r) :
    Line.Renders r ((d.entry r decls n).1.prologue d.locals) (d.entry r decls n).2.lines := by
  rw [entry_lines]
  exact ((d.entry r decls n).1.assembles_linesOf (FnContext.hasCode_prologue _ h)).renders

/-- The lines by which a function is left: those at its end, or those that
    stand for `reti` or `retn`. -/
inductive Exit (d : FuncDecl) (r : Resolver) (decls : Declarations) (n : Int) :
    List Line → Prop where
  | epilogue {back} (h : (d.lower r decls { counter := n }).1.lines =
      (d.entry r decls n).2.lines ++ d.bodyLines r decls n ++ back) : Exit d r decls n back
  | inline {i s back} (hhead : Text.lower i.head ∈ ["reti", "retn"]) (hcode : i.HasCode r)
      (h : ((d.entry r decls n).1.lowerRet i s).lines = s.lines ++ back) : Exit d r decls n back

/-- The code of a function starts with its beginning and goes on with its
    body. -/
theorem prefix_lower (d : FuncDecl) (r : Resolver) (decls : Declarations) (n : Int) :
    (d.entry r decls n).2.lines ++ d.bodyLines r decls n <+:
      (d.lower r decls { counter := n }).1.lines := by
  rw [lower_lines_eq_finish, lines_finish_eq, bodyEnd_lines]
  exact List.prefix_append _ _

/-- The lines that stand for `reti` or `retn`. -/
theorem exists_lines_lowerRet (d : FuncDecl) (decls : Declarations) (n : Int) {i : Instruction}
    (hhead : Text.lower i.head ∈ ["reti", "retn"]) {code : MachineInstr}
    (hcode : assemble r i = .ok code) (s : FnState) :
    ∃ ls, Line.Renders r (d.entry r decls n).1.cleanup ls ∧
      ((d.entry r decls n).1.lowerRet i s).lines = s.lines ++ (ls ++ [Line.instr i code]) := by
  have hemit : ∀ s : FnState, (s.emit r i).lines = s.lines ++ [Line.instr i code] := by
    intro s
    simp [FnState.emit, hcode]
  have hchecked : ({ s with returns := s.returns + 1 }.check s.tracker.depth.returnError?
      i.span).lines = s.lines := FnState.lines_check _ _
  have hne : Text.lower i.head ≠ "ret" := by
    intro heq
    rw [heq] at hhead
    exact absurd hhead (by decide)
  unfold FnContext.lowerRet
  dsimp only
  generalize { s with returns := s.returns + 1 }.check s.tracker.depth.returnError? i.span = s'
    at hchecked ⊢
  cases hepilogue : (d.entry r decls n).1.epilogue with
  | none =>
    refine ⟨[], ?_, ?_⟩
    · rw [d.entry_cleanup r decls n hepilogue]
      exact .nil
    · rw [← hchecked]
      exact hemit s'
  | some label =>
    have hcleanup := (d.entry r decls n).1.assembles_cleanup
    refine ⟨_, hcleanup.renders, ?_⟩
    dsimp only
    rw [if_pos hne, hcleanup.emitAround, ← hchecked, ← List.append_assoc]
    exact hemit { s' with lines := s'.lines ++ _ }

/-- A function is left by cleaning up and returning. -/
theorem Exit.parts {back : List Line} (h : d.Exit r decls n back) :
    ∃ labels ls i code, back = labels ++ (ls ++ [Line.instr i code]) ∧
      (∀ σ c, Line.run σ labels c = some c) ∧
      Line.Renders r (d.entry r decls n).1.cleanup ls ∧
      ∀ σ c, code.exec σ c = some c.ret := by
  cases h with
  | epilogue h =>
    rw [lower_lines_eq_finish, lines_finish_eq, bodyEnd_lines, List.append_cancel_left_eq] at h
    obtain ⟨ls, ms, hlines, hls, hms⟩ := (d.entry r decls n).1.assembles_end.renders.of_append
    rw [hlines] at h
    obtain ⟨i, code, rfl, hcode⟩ := hms.of_singleton
    have hret : assemble (d.entry r decls n).1.resolver (.of "ret" []) = .ok .ret := rfl
    rw [hret] at hcode
    cases hcode
    refine ⟨_, ls, i, .ret, h.symm, fun σ c => ?_, hls, fun _ _ => rfl⟩
    cases (d.entry r decls n).1.epilogue <;> rfl
  | @inline i s back hhead hcode h =>
    obtain ⟨code, hcode⟩ := hcode
    obtain ⟨ls, hls, hlines⟩ := d.exists_lines_lowerRet decls n hhead hcode s
    rw [hlines, List.append_cancel_left_eq] at h
    refine ⟨[], ls, i, code, h.symm, fun _ _ => rfl, hls, ?_⟩
    simp only [List.mem_cons, List.not_mem_nil, or_false] at hhead
    rcases MachineInstr.interruptReturn_of_assemble hcode hhead with rfl | rfl
    · exact fun _ _ => rfl
    · exact fun _ _ => rfl

end FuncDecl

/-! ## The code of the caller -/

namespace Line

variable {σ : String → UInt16} {r : Resolver} {ls : List Line} {c : Core}

/-- Is the line a call? -/
def isCall : Line → Bool
  | instr _ (.call _) => true
  | _ => false

/-- The lines up to the first call, which is the last of them, and the lines
    behind it. -/
def splitCall : List Line → List Line × List Line
  | [] => ([], [])
  | l :: ls => if l.isCall then ([l], ls) else (l :: (splitCall ls).1, (splitCall ls).2)

theorem splitCall_append {p q : List Line} {l : Line} (hp : ∀ l ∈ p, l.isCall = false)
    (hl : l.isCall = true) : splitCall (p ++ l :: q) = (p ++ [l], q) := by
  induction p with
  | nil => simp [splitCall, hl]
  | cons l' p ih =>
    have hfirst := hp l' List.mem_cons_self
    have hrest := ih fun l hl => hp l (List.mem_cons_of_mem _ hl)
    simp [splitCall, hfirst, hrest]

/-- Lines without transfers have no call among them. -/
theorem isCall_eq_false {l : Line} (h : ∀ j code, l = .instr j code → ¬ code.IsTransfer) :
    l.isCall = false := by
  unfold isCall
  split
  · rename_i j t
    exact absurd (.inl ⟨t, rfl⟩) (h j _ rfl)
  · rfl

/-- The stack pointer goes up by one for each step. -/
theorem exists_drops {m : Nat}
    (h : Line.Renders r (List.replicate m (.of "inc" [.ofReg "sp"])) ls) :
    ∃ c', Line.run σ ls c = some c' ∧
      c'.toCpu = { c.toCpu with sp := c.sp + UInt16.ofNat m } := by
  induction m generalizing ls c with
  | zero =>
    cases h
    exact ⟨c, rfl, by simp⟩
  | succ m ih =>
    rw [List.replicate_succ] at h
    obtain ⟨p, q, rfl, hp, hq⟩ := h.of_cons
    obtain ⟨i, code, rfl, hcode⟩ := hp.of_singleton
    have hinc : assemble r (.of "inc" [.ofReg "sp"]) = .ok (.inc16 .sp) := rfl
    rw [hinc] at hcode
    cases hcode
    obtain ⟨c', hrun, hc'⟩ := ih (c := (c.skip 1).setPair .sp (c.sp + 1)) hq
    refine ⟨c', hrun, ?_⟩
    rw [hc', Nat.add_comm m 1, UInt16.ofNat_add, ← UInt16.add_assoc]
    rfl

end Line

theorem Line.Renders.not_isTransfer_of_straight {r : Resolver} {is : List Instruction}
    {ls : List Line} (h : Line.Renders r is ls) (hheads : ∀ i ∈ is, i.head ∈ straightHeads) :
    ∀ j code, .instr j code ∈ ls → ¬ code.IsTransfer := by
  have hstraight : ∀ head ∈ straightHeads, Text.lower head ∉ ["call", "ret", "reti", "retn"] := by
    decide
  exact h.not_isTransfer fun i hi => hstraight _ (hheads i hi)

/-- A call of a name leads to its value. -/
theorem assemble_call {r : Resolver} {callee : String} {code : MachineInstr}
    (h : assemble r (.of "call" [.ofName callee]) = .ok code) :
    ∃ w, code = .call w ∧ ∀ σ, w.value σ = (Expr.name callee).word r σ := by
  obtain ⟨m, args, hm, hargs, hsel⟩ := assemble_eq_ok h
  have hlower : Text.lower "call" = "call" := by decide
  have hcall : Mnemonic.ofName? "call" = some .call := by decide
  simp only [Instruction.of, hlower] at hm hargs hsel
  rw [hcall] at hm
  cases hm
  obtain ⟨a, as, rfl, ha, has⟩ := Arg.ofOperands_cons_eq_ok hargs
  cases has
  rw [Operand.ofName, Arg.ofOperand] at ha
  split at ha
  · rename_i v hv
    cases ha
    obtain ⟨w, rfl, hw⟩ := Selection.word_of_withWord hsel
    exact ⟨w, rfl, fun σ => by rw [hw, Expr.word_of_evalSymbolic hv]⟩
  · cases ha

namespace FnContext

variable {ctx : FnContext} {callee : String}

theorem Passes.not_isTransfer {args : List Operand} {ls : List Line}
    (h : ctx.Passes callee args ls) : ∀ j code, .instr j code ∈ ls → ¬ code.IsTransfer := by
  induction h with
  | nil =>
    intro j code hmem
    cases hmem
  | cons hcode hms _ ih =>
    intro j code hmem
    rcases List.mem_append.mp hmem with hmem | hmem
    · exact ih j code hmem
    · exact hms.not_isTransfer_of_straight (head_of_pushArg hcode) j code hmem

/-- An argument that cannot be passed is reported. -/
theorem not_silent_of_pushArgs {span : Span} {args : List (Operand × Nat)} {s s' : FnState}
    (h : ctx.pushArgs callee span args s = (false, s')) : ¬ s.Silent s' := by
  induction args generalizing s' with
  | nil => cases h
  | cons a args ih =>
    obtain ⟨arg, i⟩ := a
    rw [pushArgs] at h
    split at h
    · rename_i s₁ hrest
      cases h
      exact ih hrest
    rename_i s₁ hrest
    split at h
    · cases h
      intro hsilent
      have hextends := ctx.extends_pushArgs callee span args s
      rw [hrest] at hextends
      exact s₁.not_silent_report _ _ (hextends.silent (s₁.extends_report _ _) hsilent).2
    · cases h

/-- A call that is lowered without a report passes its arguments, calls, and
    drops the arguments. -/
theorem parts_of_lowerCall {f : FnSignature} {args : List Operand} {span : Span} {s : FnState}
    {code : List Line} (hfind : ctx.functions.find? (·.name == callee) = some f)
    (hsilent : s.Silent (ctx.lowerCall callee args span s))
    (hcode : (ctx.lowerCall callee args span s).lines = s.lines ++ code) :
    args.length = f.params.length ∧ ∃ pushes i w drops,
      code = pushes ++ .instr i (.call w) :: drops ∧ ctx.Passes callee args pushes ∧
      (∀ σ, w.value σ = (Expr.name callee).word ctx.resolver σ) ∧
      Line.Renders ctx.resolver (List.replicate (2 * args.length) (.of "inc" [.ofReg "sp"]))
        drops := by
  simp only [lowerCall, hfind] at hsilent hcode
  split at hsilent
  · exact absurd hsilent (s.not_silent_report _ _)
  rename_i hlen
  refine ⟨Decidable.not_not.mp hlen, ?_⟩
  rw [if_neg hlen] at hcode
  cases hpush : ctx.pushArgs callee span args.zipIdx s with
  | mk ok s₁ =>
    simp only [hpush] at hsilent hcode
    cases ok with
    | false => exact absurd hsilent (not_silent_of_pushArgs hpush)
    | true =>
      have hextends := ctx.extends_pushArgs callee span args.zipIdx s
      rw [hpush] at hextends
      -- the note about the call is no report
      have hcalls : s.Silent (s₁.emitAll ctx.resolver span (callCode callee args.length)) := by
        have hrest := s₁.extends_emitAll ctx.resolver span (callCode callee args.length)
        exact ((hextends.trans hrest).silent (FnState.extends_note _ _) hsilent).1
      obtain ⟨hpushes, hcall⟩ :=
        hextends.silent (s₁.extends_emitAll ctx.resolver span _) hcalls
      obtain ⟨pushes, hlines, hpasses⟩ := passes_of_pushArgs hpush hpushes
      obtain ⟨ls, hls, hrenders⟩ := Line.Renders.of_silent hcall
      obtain ⟨ms, drops, rfl, hms, hdrops⟩ := Line.Renders.of_cons hrenders
      obtain ⟨i, m, rfl, hassemble⟩ := hms.of_singleton
      obtain ⟨w, rfl, hw⟩ := assemble_call hassemble
      have hall : (s₁.emitAll ctx.resolver span (callCode callee args.length)).lines =
          s.lines ++ code := hcode
      rw [hls, hlines, List.append_assoc, List.append_cancel_left_eq] at hall
      have hargs : args.zipIdx.map (·.1) = args := by simp
      rw [hargs] at hpasses
      exact ⟨pushes, i, w, drops, hall.symm, hpasses, hw, hdrops⟩

end FnContext

end Z80Backend
