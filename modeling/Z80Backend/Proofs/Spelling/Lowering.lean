import Z80Backend.Function.Lower
import Z80Backend.Proofs.Function.Outline
import Z80Backend.Proofs.Spelling.Blocks
import Z80Backend.Proofs.Spelling.Ops

/-! # Lowering a spelling

    A function and its caseless form are lowered side by side, and the states
    match after every statement.  Both have the same op calls, the same
    accesses to storage and the same code around the body.

    * `FnContext.lowerInstr_matches`: instructions.
    * `FnContext.keeps_spelling`: lowering keeps the states alike.
    * `FuncDecl.lower_matches`: the chunk, the summary and the state of a
      function. -/

namespace Z80Backend

/-! ## Settings -/

/-- What a body is lowered with leaves the names of registers alone. -/
structure FnContext.SparesRegisters (ctx : FnContext) : Prop where
  value : ctx.resolver.SparesRegisters
  scope : ctx.scope.SparesRegisters
  ops : ctx.ops.SparesRegisters

/-- The setting with the bodies of ops in lower case. -/
def FnContext.caseless (ctx : FnContext) : FnContext := { ctx with ops := ctx.ops.caseless }

namespace FnContext

variable {ctx : FnContext} {s s' : FnState} {b b' : Body}

@[simp] theorem resolver_caseless : ctx.caseless.resolver = ctx.resolver := rfl

@[simp] theorem scope_caseless : ctx.caseless.scope = ctx.scope := rfl

@[simp] theorem ops_caseless : ctx.caseless.ops = ctx.ops.caseless := rfl

@[simp] theorem epilogue_caseless : ctx.caseless.epilogue = ctx.epilogue := rfl

/-! ## Instructions -/

theorem emitAround_matches (h : s.Matches s') (is : List Instruction) :
    (ctx.emitAround is s).Matches (ctx.emitAround is s') :=
  Comparison.foldl (fun h i => h.emitSilent ctx.resolver ctx.span i) is h

theorem lowerRet_matches (hctx : ctx.SparesRegisters) (h : s.Matches s') (i : Instruction) :
    (ctx.lowerRet i s).Matches (ctx.caseless.lowerRet i.caseless s') := by
  have hreturn : ({ s with returns := s.returns + 1 } : FnState).Matches
      { s' with returns := s'.returns + 1 } :=
    { h with returns := congrArg (· + 1) h.returns }
  have hcheck := hreturn.check s.tracker.depth.returnError? i.span
  have hi := Instruction.alike_caseless hctx.value i
  have herror : s'.tracker.depth.returnError? = s.tracker.depth.returnError? := by rw [h.tracker]
  unfold lowerRet
  rw [herror, i.lower_head_caseless, i.span_caseless, epilogue_caseless, resolver_caseless]
  cases ctx.epilogue with
  | none =>
    dsimp only
    exact hcheck.emit hi
  | some label =>
    dsimp only
    split
    · exact (emitAround_matches hcheck ctx.cleanup).emit hi
    · -- The jump to the epilogue of the one is the caseless form of the other's.
      have hjump := Instruction.alike_caseless hctx.value
        { head := "jp", operands := i.operands.take 1 ++ [Operand.ofName label], span := i.span }
      have hhead : Text.asciiLower "jp" = "jp" := by decide
      rw [Instruction.caseless, List.map_append, List.map_take, hhead] at hjump
      exact hcheck.emit hjump

theorem defineLabel_matches (h : s.Matches s') (name : String) (span : Span) :
    (ctx.defineLabel name span s).Matches (ctx.caseless.defineLabel name span s') := by
  unfold defineLabel
  rw [h.userLabels]
  split
  · exact h.report rfl
  · have hlabel := (isKept_spelling ctx.resolver).placeLabel h name span
    exact { hlabel with
      userLabels := congrArg (· ++ [name]) h.userLabels
      tracker := congrArg (fun t : Tracker => Tracker.set t.depth) h.tracker }

theorem lowerTyped_matches (hctx : ctx.SparesRegisters) (h : s.Matches s') (i : Instruction) :
    (ctx.lowerTyped i s).Matches (ctx.caseless.lowerTyped i.caseless s') := by
  have hsteps : (ctx.caseless.typedSteps i.caseless).toOption = (ctx.typedSteps i).toOption :=
    typedSteps_caseless hctx.scope i
  unfold lowerTyped
  rw [i.span_caseless, resolver_caseless]
  rcases cases_of_toOption_eq hsteps with ⟨steps, hx', hx⟩ | ⟨e', e, hx', hx⟩
  · rw [hx, hx']
    refine (h.note ?_).emitAll ctx.resolver i.span _
    rfl
  · rw [hx, hx']
    dsimp only
    exact h.report rfl

/-! ## Statements -/

theorem lowerInstr_matches {f f' : Instruction → FnState → FnState} (hctx : ctx.SparesRegisters)
    (hf : (spelling ctx.resolver).KeepsCalls (fun _ => True) f f') (h : s.Matches s')
    (i : Instruction) :
    (ctx.lowerInstr f i s).Matches (ctx.caseless.lowerInstr f' i.caseless s') := by
  have htyped : (i.caseless.operands.any fun o => (o.typedPlace? ctx.scope).isSome) =
      i.operands.any fun o => (o.typedPlace? ctx.scope).isSome := by
    rw [Instruction.operands_caseless, List.any_map]
    congr 1
    funext o
    simp [Operand.typedPlace?_caseless hctx.scope]
  have hop : ctx.ops.caseless.isOp (Text.lower i.head) = ctx.ops.isOp (Text.lower i.head) :=
    Ops.isOp_caseless _
  unfold lowerInstr
  dsimp only
  rw [i.lower_head_caseless, ops_caseless, scope_caseless, resolver_caseless, hop, htyped]
  split
  · exact hf i trivial h
  split
  · exact lowerRet_matches hctx h i
  split
  · exact lowerTyped_matches hctx h i
  · exact h.emit (Instruction.alike_caseless hctx.value i)

theorem reportAll_matches (span : Span) (es es' : List ExpansionError)
    (hlength : es'.length = es.length) (h : s.Matches s') :
    (es.foldl (fun s e => s.report (.expansion e) span) s).Matches
      (es'.foldl (fun s e => s.report (.expansion e) span) s') := by
  induction es generalizing es' s s' with
  | nil =>
    obtain rfl := List.length_eq_zero_iff.mp hlength
    exact h
  | cons e es ih =>
    cases es' with
    | nil => cases hlength
    | cons e' es' => exact ih es' (Nat.succ.inj hlength) (h.report rfl)

/-- A call in any spelling is expanded alike. -/
theorem expanded_matches (hctx : ctx.SparesRegisters) (h : s.Matches s') (call : Instruction) :
    (ctx.caseless.ops.expand call.caseless s'.counter).1 =
        (ctx.ops.expand call s.counter).1.map (Expansion.map Stmt.caseless) ∧
      (ctx.expanded call s).Matches (ctx.caseless.expanded call.caseless s') := by
  obtain ⟨hexpansion, herrors, hcounter⟩ := Ops.mirrors_expand hctx.ops call s.counter
  unfold expanded
  rw [h.counter]
  exact ⟨hexpansion, reportAll_matches call.span _ _ herrors { h with counter := hcounter }⟩

/-- Lowering keeps the states of two spellings alike. -/
theorem keeps_spelling (hctx : ctx.SparesRegisters) :
    (spelling ctx.resolver).Keeps (fun _ => True) ctx ctx.caseless where
  kept := isKept_spelling _
  resolver := rfl
  nesting := rfl
  instr hf _ _ i _ h := lowerInstr_matches hctx hf h i
  define name span _ h := defineLabel_matches h name span
  functions := rfl
  straight _ := .refl _ _
  arg callee n o := by
    rcases cases_of_mapError_eq (pushArg_caseless hctx.scope callee n o) with
      ⟨is, h', h⟩ | ⟨p', p, h', h, hkind⟩
    · exact .inl ⟨is, h, h'⟩
    · exact .inr ⟨p, p', h, h', hkind⟩
  passed _ _ _ h := FnState.Matches.note h rfl
  cond w := by
    refine ⟨?_, fun _ => rfl⟩
    simp only [spelling, Condition.ofWord?, Text.lower_asciiLower]
  value _ _ _ _ _ := ⟨rfl, rfl⟩
  missing o := by cases o <;> rfl
  isA := Operand.isReg_caseless "a"
  load o span := by
    have hhead : Text.asciiLower "ld" = "ld" := by decide
    have ha : (Operand.ofReg "a").caseless = .ofReg "a" := by decide
    simp only [spelling, Instruction.caseless, List.map_cons, List.map_nil, hhead, ha]
  loads _ _ _ _ := trivial
  exhausted := FnState.Matches.exhausted
  exhaust h := { h with exhausted := rfl }
  nested _ h := FnState.Matches.note h rfl
  called _ h := FnState.Matches.note h rfl
  expand call _ h := by
    obtain ⟨hexpansion, hstate⟩ := expanded_matches hctx h call
    rw [stmt_spelling]
    exact ⟨hexpansion, fun _ _ _ _ => trivial, hstate⟩

theorem lowerBody_matches (hctx : ctx.SparesRegisters) (h : s.Matches s') (sts : List Stmt) :
    (ctx.lowerBody sts s).Matches (ctx.caseless.lowerBody (sts.map (·.caseless)) s') := by
  have hbody := (keeps_spelling hctx).lowerBody h sts fun _ _ => trivial
  rwa [stmt_spelling] at hbody

end FnContext

/-! ## Functions -/

/-- The chunk without what was written, its code in caseless form. -/
def Chunk.caseless (c : Chunk) : Chunk := { c with lines := c.lines.map Line.caseless }

/-- The declarations with the bodies of ops in lower case. -/
def Declarations.caseless (decls : Declarations) : Declarations :=
  { decls with ops := decls.ops.map (·.caseless) }

/-- Neither storage nor a label of an op is named like a register, and no
    parameter for a condition stands in an address. -/
structure Declarations.SparesRegisters (decls : Declarations) : Prop where
  globals : ∀ x ∈ decls.globals, isRegisterName x.1 = false
  names : ∀ d ∈ decls.ops, d.SparesRegisters
  conditions : ∀ d ∈ decls.ops, d.KeepsConditions

/-- No parameter or local of the function is named like a register. -/
def FuncDecl.SparesRegisters (d : FuncDecl) : Prop :=
  (∀ p ∈ d.params, isRegisterName p.name = false) ∧ ∀ l ∈ d.locals, isRegisterName l.name = false

/-- A table without the names of registers says nothing of registers. -/
theorem lookup_of_isRegisterName {β : Type} {t : List (String × β)}
    (h : ∀ x ∈ t, isRegisterName x.1 = false) {w : String} (hw : isRegisterName w = true) :
    t.lookup w = none := by
  refine List.lookup_eq_none_iff.mpr fun x hx => ?_
  have hne : w ≠ x.1 := by
    rintro rfl
    rw [h x hx] at hw
    cases hw
  simpa using hne

/-- Generated names are longer than those of registers. -/
theorem Label.isRegisterName_make (kind l : String) (n : Int) :
    isRegisterName (make kind n ++ "_" ++ l) = false := by
  refine isRegisterName_of_length ?_
  have hreserved : reserved.toList.length = 6 := by decide
  simp only [make, String.toList_append, List.length_append, hreserved]
  omega

namespace FuncDecl

variable {d : FuncDecl} {r : Resolver} {decls : Declarations} {s s' : FnState}

theorem isRegisterName_slots (hd : d.SparesRegisters) :
    ∀ x ∈ d.slots, isRegisterName x.2.1 = false := by
  intro x hx
  rcases List.mem_append.mp hx with hx | hx
  · obtain ⟨⟨p, i⟩, hp, rfl⟩ := List.mem_map.mp hx
    exact hd.1 p (List.fst_mem_of_mem_zipIdx hp)
  · obtain ⟨⟨l, i⟩, hl, rfl⟩ := List.mem_map.mp hx
    exact hd.2 l (List.fst_mem_of_mem_zipIdx hl)

/-- The names in the table are those of slots. -/
theorem isRegisterName_layout (hd : d.SparesRegisters) (s : FnState) :
    ∀ x ∈ (d.layoutSlots r d.slots ([], d.checkReturns s)).1, isRegisterName x.1 = false := by
  refine d.layout_of (Q := fun t _ => ∀ x ∈ t, isRegisterName x.1 = false) (fun _ _ h => h)
    (fun hslot _ h => ?_) (List.forall_mem_nil _)
  have hname := isRegisterName_slots hd _ hslot
  rw [List.forall_mem_append, List.forall_mem_singleton]
  exact ⟨h, hname⟩

theorem layoutSlots_matches (slots : List (SlotRole × String × TypeRef × Int64))
    (table : StorageTable) (h : s.Matches s') :
    (d.caseless.layoutSlots r slots (table, s')).1 = (d.layoutSlots r slots (table, s)).1 ∧
      (d.layoutSlots r slots (table, s)).2.Matches
        (d.caseless.layoutSlots r slots (table, s')).2 := by
  induction slots generalizing table s s' with
  | nil => exact ⟨rfl, h⟩
  | cons slot slots ih =>
    obtain ⟨role, name, type, disp⟩ := slot
    rw [layoutSlots, layoutSlots]
    split
    · exact ih table (h.report rfl)
    · split
      · exact ih table (h.report rfl)
      · exact ih _ h

theorem checkReturns_matches (h : s.Matches s') :
    (d.checkReturns s).Matches (d.caseless.checkReturns s') := by
  unfold checkReturns
  rw [caseless, List.foldl_map]
  simp only [Text.lower_asciiLower]
  refine Comparison.foldl (fun {s s'} h reg => ?_) d.returns h
  split
  · exact h
  · exact h.report rfl

@[simp] theorem preserved_caseless (d : FuncDecl) : d.caseless.preserved = d.preserved := by
  have hreturns : d.caseless.returns.map Text.lower = d.returns.map Text.lower := by
    rw [caseless, List.map_map]
    exact List.map_congr_left fun reg _ => Text.lower_asciiLower reg
  unfold preserved
  rw [hreturns]

theorem context_caseless (slots : StorageTable) (epilogue : Option String) :
    d.caseless.context r decls.caseless slots epilogue =
      (d.context r decls slots epilogue).caseless := by
  unfold context
  rw [preserved_caseless]
  rfl

theorem sparesRegisters_context (hr : r.SparesRegisters) (hdecls : decls.SparesRegisters)
    {slots : StorageTable} (hslots : ∀ x ∈ slots, isRegisterName x.1 = false)
    (epilogue : Option String) : (d.context r decls slots epilogue).SparesRegisters := by
  have hscope : (StorageTable.scope (slots ++ decls.globals)).SparesRegisters := by
    refine fun w hw => lookup_of_isRegisterName (fun x hx => ?_) hw
    rcases List.mem_append.mp hx with hx | hx
    · exact hslots x hx
    · exact hdecls.globals x hx
  exact
    { value := hr
      scope := hscope
      ops :=
        { value := hr
          width := fun p => p.width?_caseless hscope
          stem := fun n l => Label.isRegisterName_make "op" l n
          names := hdecls.names
          conditions := hdecls.conditions } }

theorem finish_matches {ctx : FnContext} (h : s.Matches s') :
    (d.finish ctx s).Matches (d.caseless.finish ctx.caseless s') := by
  have hcheck : (if s.tracker.live then s.check (s.tracker.depth.endError? d.name) d.span
      else s).Matches
      (if s.tracker.live then s'.check (s.tracker.depth.endError? d.name) d.span else s') := by
    split
    · exact h.check _ d.span
    · exact h
  unfold finish
  rw [h.tracker, FnContext.epilogue_caseless]
  cases ctx.epilogue with
  | none => exact FnContext.emitAround_matches hcheck _
  | some label =>
    exact FnContext.emitAround_matches
      ((isKept_spelling ctx.resolver).placeLabel hcheck label d.span) _

/-- The chunk, the summary and the state of a function from the end of its
    body. -/
def ending (d : FuncDecl) (ctx : FnContext) (body : FnState) : Chunk × StackSummary × FnState :=
  let s := d.finish ctx body
  let chunk : Chunk := { name := d.name, lines := s.lines, span := d.span }
  let s := s.note (.loweredFunction d.name chunk.size (d.preserved.map (·.text)) d.hasFrame
    s.issues.length)
  (chunk, d.summary body s, s)

theorem lower_eq_ending (d : FuncDecl) (r : Resolver) (decls : Declarations) (n : Int) :
    d.lower r decls { counter := n } = d.ending (d.entry r decls n).1 (d.bodyEnd r decls n) := rfl

theorem ending_matches {ctx : FnContext} (h : s.Matches s') :
    (d.caseless.ending ctx.caseless s').1.caseless = (d.ending ctx s).1.caseless ∧
      (d.caseless.ending ctx.caseless s').2.1 = (d.ending ctx s).2.1 ∧
      (d.ending ctx s).2.2.Matches (d.caseless.ending ctx.caseless s').2.2 := by
  have hend : (d.finish ctx s).Matches (d.caseless.finish ctx.caseless s') := finish_matches h
  have hevent : ∀ size saved frame issues, Journal.outlines
      [.loweredFunction d.name size saved frame issues] = [] := fun _ _ _ _ => rfl
  refine ⟨?_, ?_, hend.note ((hevent _ _ _ _).trans (hevent _ _ _ _).symm)⟩
  · exact congrArg (fun ls => ({ name := d.name, lines := ls, span := d.span } : Chunk)) hend.lines
  · unfold ending
    dsimp only [summary, FnState.note]
    rw [h.tracker, hend.returns, hend.issues]
    rfl

/-- The setting and the beginning of a function in lower case. -/
theorem entry_matches (d : FuncDecl) (r : Resolver) (decls : Declarations) (n : Int) :
    (d.caseless.entry r decls.caseless n).1 = (d.entry r decls n).1.caseless ∧
      (d.entry r decls n).2.Matches (d.caseless.entry r decls.caseless n).2 := by
  obtain ⟨hslots, hs⟩ := layoutSlots_matches (d := d) (r := r) d.slots []
    (checkReturns_matches (d := d) (FnState.Matches.refl { counter := n }))
  have hsame : d.caseless.slots = d.slots := rfl
  have hframe : d.caseless.hasFrame = d.hasFrame := rfl
  have hfresh := (isKept_spelling r).freshLabel hs (show "epilogue" ∈ Label.kinds by decide)
  unfold entry
  dsimp only
  rw [hsame, hframe, preserved_caseless, hslots]
  split
  · dsimp only
    rw [hfresh.1, context_caseless]
    exact ⟨rfl, FnContext.emitAround_matches hfresh.2 _⟩
  · dsimp only
    rw [context_caseless]
    exact ⟨rfl, FnContext.emitAround_matches hs _⟩

theorem sparesRegisters_entry (hr : r.SparesRegisters) (hdecls : decls.SparesRegisters)
    (hd : d.SparesRegisters) (n : Int) : (d.entry r decls n).1.SparesRegisters :=
  sparesRegisters_context hr hdecls (isRegisterName_layout hd _) _

/-- A function in lower case has the same chunk up to spelling, the same
    summary, and leaves the same state. -/
theorem lower_matches (hr : r.SparesRegisters) (hdecls : decls.SparesRegisters)
    (hd : d.SparesRegisters) (n : Int) :
    (d.caseless.lower r decls.caseless { counter := n }).1.caseless =
        (d.lower r decls { counter := n }).1.caseless ∧
      (d.caseless.lower r decls.caseless { counter := n }).2.1 =
        (d.lower r decls { counter := n }).2.1 ∧
      (d.lower r decls { counter := n }).2.2.Matches
        (d.caseless.lower r decls.caseless { counter := n }).2.2 := by
  obtain ⟨hctx, hentry⟩ := entry_matches d r decls n
  have hbody : (d.bodyEnd r decls n).Matches (d.caseless.bodyEnd r decls.caseless n) := by
    unfold bodyEnd
    rw [hctx]
    exact FnContext.lowerBody_matches (sparesRegisters_entry hr hdecls hd n) hentry d.body
  rw [lower_eq_ending, lower_eq_ending, hctx]
  exact ending_matches hbody

end FuncDecl

end Z80Backend
