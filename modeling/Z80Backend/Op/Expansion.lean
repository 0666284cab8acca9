import Z80Backend.Assembly.Select
import Z80Backend.Label
import Z80Backend.Op.Instance
import Z80Backend.Op.Overload

/-! # Op expansion

    A call of an op is replaced by an instance of the body of its overload,
    in which calls of ops are replaced in turn.  An op that is being expanded
    may not be called again from within: each level takes its name out of the
    pool of ops that deeper levels may use, so expansion ends.

    What fails inside a body is reported and left out; the rest stays. -/

namespace Z80Backend

/-! ## Expanded bodies -/

/-- Which overload a call was expanded by, and from which calls it was
    reached, the outermost first. -/
structure OpUse where
  name : String
  signature : String
  chain : List String
  span : Span
  deriving DecidableEq, Repr, Inhabited

/-- One entry of an expanded body. -/
inductive Node where
  | stmt (s : Stmt)
  /-- The expansion of a call inside the body. -/
  | nested (op : OpUse) (body : List Node)
  deriving Repr, Inhabited

/-- Induction on the entries of an expanded body, and on those of every body
    nested in it. -/
@[elab_as_elim]
theorem Node.listInduction {motive : List Node → Prop} (nil : motive [])
    (stmt : ∀ st ns, motive ns → motive (.stmt st :: ns))
    (nested : ∀ op body ns, motive body → motive ns → motive (.nested op body :: ns)) :
    ∀ ns, motive ns
  | [] => nil
  | .stmt st :: ns => stmt st ns (listInduction nil stmt nested ns)
  | .nested op body :: ns =>
    nested op body ns (listInduction nil stmt nested body) (listInduction nil stmt nested ns)

/-- The expansion of a call. -/
structure Expansion where
  op : OpUse
  body : List Node
  deriving Repr, Inhabited

/-- The expansion as named in logs. -/
def OpUse.text (u : OpUse) : String := u.signature ++ " [" ++ chainText u.chain ++ "]"

mutual

/-- The instructions of an entry, in order. -/
def Node.instructions : Node → List Instruction
  | .stmt (.instr i) => [i]
  | .stmt _ => []
  | .nested _ body => Node.listInstructions body

/-- The instructions of several entries, in order. -/
def Node.listInstructions : List Node → List Instruction
  | [] => []
  | n :: ns => n.instructions ++ Node.listInstructions ns

end

/-- The instructions of an expansion, in order. -/
def Expansion.instructions (x : Expansion) : List Instruction := Node.listInstructions x.body

/-! ## Expansion -/

namespace Ops

/-- The overloads in `pool` of all ops but one. -/
def without (pool : List OpDecl) (name : String) : List OpDecl :=
  pool.filter fun d => Text.lower d.name != name

/-- Taking a resolved op out of the pool leaves fewer overloads. -/
theorem length_without_lt {ops : Ops} {pool : List OpDecl} {call : Instruction} {d : OpDecl}
    (h : ops.resolve pool call = .ok d) :
    (without pool (Text.lower call.head)).length < pool.length := by
  have hmem := List.mem_filter.1 (mem_of_resolve h)
  exact List.length_filter_lt_length_iff_exists.2 ⟨d, hmem.1, by simpa using hmem.2⟩

/-- Does the operand name typed storage?  Instructions that do are checked
    only once their storage is accessed. -/
def isTyped (ops : Ops) : Operand → Bool
  | .place .. => true
  | .mem p _ => (ops.width?.bind (· p)).isSome
  | _ => false

/-- What is wrong with an instruction of an expanded body. -/
def invalid? (ops : Ops) (chain : List String) (name : String) (i : Instruction) :
    Option ExpansionError :=
  if i.operands.any ops.isTyped then none
  else
    match assemble ops.resolver i with
    | .ok _    => none
    | .error e => some (.invalid name i e chain)

mutual

/-- Expands a call by the overloads in `pool`.  `chain` lists the ops that are
    being expanded, and `n` is the last label number in use; the result ends
    with the number in use afterwards. -/
def expandCall (ops : Ops) (pool : List OpDecl) (chain : List String) (span : Span)
    (call : Instruction) (n : Int) : Option Expansion × List ExpansionError × Int :=
  let name := Text.lower call.head
  if chain.contains name then (none, [.cyclic name (chain ++ [name])], n)
  else
    match _h : ops.resolve pool call with
    | .error e => (none, [e], n)
    | .ok d =>
      let x := d.instantiate call.operands (ops.stem (n + 1))
      let (body, errors, n') :=
        expandBody ops (without pool name) (chain ++ [name]) span name x d.body (n + 1)
      let op := { name, signature := d.signature, chain := chain ++ [name], span }
      (some { op, body }, errors, n')
termination_by (pool.length, 0)
decreasing_by exact Prod.Lex.left _ _ (length_without_lt _h)

/-- Expands the statements of a body. -/
def expandBody (ops : Ops) (pool : List OpDecl) (chain : List String) (span : Span)
    (name : String) (x : Instance) (body : List Stmt) (n : Int) :
    List Node × List ExpansionError × Int :=
  match body with
  | [] => ([], [], n)
  | s :: ss =>
    match x.stmt s with
    | .instr i =>
      if ops.isOp i.head then
        let (nested, errors, n') := expandCall ops pool chain span i n
        let (nodes, more, n'') := expandBody ops pool chain span name x ss n'
        match nested with
        | some e => (.nested e.op e.body :: nodes, errors ++ more, n'')
        | none   => (nodes, errors ++ more, n'')
      else
        let (nodes, more, n') := expandBody ops pool chain span name x ss n
        match ops.invalid? chain name i with
        | some e => (nodes, e :: more, n')
        | none   => (.stmt (.instr i) :: nodes, more, n')
    | s' =>
      let (nodes, more, n') := expandBody ops pool chain span name x ss n
      (.stmt s' :: nodes, more, n')
termination_by (pool.length, body.length)
decreasing_by all_goals (apply Prod.Lex.right; simp)

end

/-- Expands a call.  The expansion is absent only when the call itself has no
    overload to go by. -/
def expand (ops : Ops) (call : Instruction) (n : Int) :
    Option Expansion × List ExpansionError × Int :=
  expandCall ops ops.decls [] call.span call n

end Ops

end Z80Backend
