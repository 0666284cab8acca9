import Z80Backend.Assembly.EncodeError
import Z80Backend.Label
import Z80Backend.Register
import Z80Backend.Syntax.Module
import Z80Backend.Text.LetterCase

/-! # Op overloads

    An op is a user-defined instruction with any number of overloads.  A call
    is meant for the overload that accepts its operands and is more specific
    than every other one that does.  One overload is more specific than
    another when each of its parameters accepts no more, and at least one of
    them accepts less. -/

namespace Z80Backend

/-! ## Declared ops -/

/-- The declared ops and what deciding between them depends on. -/
structure Ops where
  resolver : Resolver
  /-- The width of the typed storage that a place names, if it names any;
      absent when no storage is known. -/
  width? : Option (Place → Option Int64) := none
  /-- The overloads of all ops in declaration order. -/
  decls : List OpDecl := []
  /-- What the labels of the expansion with a number begin with. -/
  stem : Int → String := Label.make "op"

namespace Ops

/-- The overloads, among `pool`, of the op with a lower-case name. -/
def overloadsIn (pool : List OpDecl) (name : String) : List OpDecl :=
  pool.filter fun d => Text.lower d.name == name

/-- The overloads of an op in declaration order. -/
def overloads (ops : Ops) (name : String) : List OpDecl :=
  overloadsIn ops.decls (Text.lower name)

/-- Does the name have an overload? -/
def isOp (ops : Ops) (name : String) : Bool := !(ops.overloads name).isEmpty

/-- Declares one more overload. -/
def declare (ops : Ops) (d : OpDecl) : Ops := { ops with decls := ops.decls ++ [d] }

end Ops

/-! ## Signatures -/

/-- The parameter as it stands in a signature. -/
def OpParam.text (p : OpParam) : String :=
  match p.matcher with
  | .token word => Text.lower word
  | m => p.name ++ ": " ++ m.text

/-- The overload as written in messages: `name(p: kind, ...)`. -/
def OpDecl.signature (d : OpDecl) : String :=
  d.name ++ "(" ++ ", ".intercalate (d.params.map (·.text)) ++ ")"

/-- Several signatures, separated by semicolons. -/
def OpDecl.signatures (ds : List OpDecl) : String := "; ".intercalate (ds.map (·.signature))

/-- Operands as written in messages. -/
def Operand.listText (os : List Operand) : String := ", ".intercalate (os.map (·.text false))

/-! ## Errors -/

/-- Why an op call cannot be expanded, in whole or in part.  Names are in
    lower case. -/
inductive ExpansionError where
  /-- No overload takes that many operands. -/
  | operandCount (name : String) (got : Nat) (declared : List OpDecl)
  /-- No overload accepts the operands. -/
  | noMatch (name : String) (operands : List Operand) (declared : List OpDecl)
  /-- No accepting overload is more specific than all the others. -/
  | ambiguous (name : String) (operands : List Operand) (candidates : List OpDecl)
  /-- The op is being expanded already; `chain` ends with the repeated name. -/
  | cyclic (name : String) (chain : List String)
  /-- An instruction of the expansion has no encoding. -/
  | invalid (name : String) (i : Instruction) (cause : EncodeError) (chain : List String)
  deriving DecidableEq, Repr

/-- A chain of expansions, the outermost first. -/
def chainText (chain : List String) : String := " -> ".intercalate chain

/-- The wording of an expansion error. -/
def ExpansionError.message : ExpansionError → String
  | operandCount n got ds =>
    "No op overload of " ++ Text.quote n ++ " accepts " ++ got.repr ++
      " operand(s). Declared overloads: " ++ OpDecl.signatures ds ++ "."
  | noMatch n os ds =>
    "No matching op overload for " ++ Text.quote n ++ " with operands (" ++
      Operand.listText os ++ "). Declared overloads: " ++ OpDecl.signatures ds ++ "."
  | ambiguous n os ds =>
    "Ambiguous op overload for " ++ Text.quote n ++ " with operands (" ++
      Operand.listText os ++ "). Candidates: " ++ OpDecl.signatures ds ++ "."
  | cyclic n chain =>
    "Cyclic op expansion detected for " ++ Text.quote n ++ ". Expansion chain: " ++
      chainText chain ++ "."
  | invalid n i cause chain =>
    "Invalid op expansion in " ++ Text.quote n ++ ": " ++ i.text ++ " (" ++ cause.message ++
      ") Expansion chain: " ++ chainText chain ++ "."

/-! ## Acceptance -/

/-- The word that an operand spells, in lower case. -/
def Operand.word : Operand → String
  | .reg name _ => Text.lower name
  | .imm (.name s) _ => Text.lower s
  | _ => ""

/-- The lower-case register name that an operand spells. -/
def Operand.regName? : Operand → Option String
  | .reg name _ => some (Text.lower name)
  | _ => none

namespace Ops

/-- Is the operand an immediate between `lo` and `hi`?  One that waits for a
    symbol counts when `symbolic`. -/
def acceptsImm (ops : Ops) (lo hi : Int64) (symbolic : Bool) : Operand → Bool
  | .imm e _ =>
    match e.evalSymbolic ops.resolver with
    | .ok v    => if v.isConst then lo ≤ v.addend && v.addend ≤ hi else symbolic
    | .error _ => false
  | _ => false

/-- Is the operand memory of the given width?  Memory that is not typed
    storage has any width. -/
def acceptsMem (ops : Ops) (width : Int64) : Operand → Bool
  | .mem p _ =>
    match ops.width?.bind (· p) with
    | some w => w == width
    | none   => true
  | _ => false

/-- Does a matcher accept an operand? -/
def accepts (ops : Ops) (m : Matcher) (o : Operand) : Bool :=
  match m with
  | .token word => o.word == Text.lower word
  | .reg8 => (o.regName?.bind Reg8.ofName?).isSome
  | .reg16 => (o.regName?.bind Pair.ofName?).isSome
  | .idx16 => (o.regName?.bind IndexReg.ofName?).isSome
  | .cc => (o.regName?.bind Condition.ofName?).isSome
  | .imm8 => ops.acceptsImm (-128) 255 false o
  | .imm16 => ops.acceptsImm (-32768) 65535 true o
  | .mem8 => ops.acceptsMem 1 o
  | .mem16 => ops.acceptsMem 2 o
  | .ea => match o with | .place .. => true | _ => false
  | .unknown => false

/-- Do the parameters accept the operands, one by one? -/
def acceptsAll (ops : Ops) : List OpParam → List Operand → Bool
  | [], [] => true
  | p :: ps, o :: os => ops.accepts p.matcher o && acceptsAll ops ps os
  | _, _ => false

end Ops

/-! ## Specificity -/

/-- Are the matchers of one kind?  All tokens are. -/
def Matcher.sameKind : Matcher → Matcher → Bool
  | .token _, .token _ => true
  | a, b => a == b

/-- Does the first matcher accept strictly less by its kind? -/
def Matcher.narrower (a b : Matcher) : Bool :=
  !a.sameKind b &&
    match a, b with
    | .token _, _ => true
    | .imm8, .imm16 => true
    | .reg8, .ea | .reg16, .ea | .idx16, .ea | .cc, .ea | .mem8, .ea | .mem16, .ea => true
    | _, _ => false

/-- Is each parameter of the first list of the same kind or narrower? -/
def OpParam.listLE : List OpParam → List OpParam → Bool
  | p :: ps, q :: qs =>
    (p.matcher.sameKind q.matcher || p.matcher.narrower q.matcher) && listLE ps qs
  | _, _ => true

/-- Is some parameter of the first list narrower? -/
def OpParam.listLT : List OpParam → List OpParam → Bool
  | p :: ps, q :: qs => p.matcher.narrower q.matcher || listLT ps qs
  | _, _ => false

/-- Is the first overload more specific than the second? -/
def OpDecl.dominates (a b : OpDecl) : Bool :=
  OpParam.listLE a.params b.params && OpParam.listLT a.params b.params

/-- The overload that is more specific than all the others. -/
def OpDecl.mostSpecific? (ds : List OpDecl) : Option OpDecl :=
  (ds.zipIdx.find? fun (d, i) => ds.zipIdx.all fun (e, j) => i == j || d.dominates e).map (·.1)

/-- The overloads that no other one is more specific than. -/
def OpDecl.undominated (ds : List OpDecl) : List OpDecl :=
  ds.filter fun d => !ds.any (·.dominates d)

/-! ## Resolution -/

/-- The overload, among `pool`, that a call is meant for. -/
def Ops.resolve (ops : Ops) (pool : List OpDecl) (call : Instruction) :
    Except ExpansionError OpDecl :=
  let name := Text.lower call.head
  let declared := overloadsIn pool name
  let sameArity := declared.filter (·.params.length == call.operands.length)
  let candidates := sameArity.filter (ops.acceptsAll ·.params call.operands)
  if sameArity.isEmpty then .error (.operandCount name call.operands.length declared)
  else if candidates.isEmpty then .error (.noMatch name call.operands declared)
  else
    match OpDecl.mostSpecific? candidates with
    | some d => .ok d
    | none   => .error (.ambiguous name call.operands (OpDecl.undominated candidates))

theorem OpDecl.mem_of_mostSpecific? {ds : List OpDecl} {d : OpDecl}
    (h : mostSpecific? ds = some d) : d ∈ ds := by
  obtain ⟨⟨e, i⟩, hfind, rfl⟩ := Option.map_eq_some_iff.1 h
  exact List.fst_mem_of_mem_zipIdx (List.mem_of_find?_eq_some hfind)

/-- A call resolves to an overload of its own name. -/
theorem Ops.mem_of_resolve {ops : Ops} {pool : List OpDecl} {call : Instruction} {d : OpDecl}
    (h : ops.resolve pool call = .ok d) : d ∈ overloadsIn pool (Text.lower call.head) := by
  simp only [resolve] at h
  split at h
  · cases h
  · split at h
    · cases h
    · split at h
      · next hbest =>
        cases h
        exact (List.mem_filter.1 (List.mem_filter.1 (OpDecl.mem_of_mostSpecific? hbest)).1).1
      · cases h

end Z80Backend
