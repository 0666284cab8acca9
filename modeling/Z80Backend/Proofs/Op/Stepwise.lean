import Z80Backend.Op.Expansion

/-! # Expansion, step by step

    Expanding a call and expanding a body take turns, and the call has to be
    resolved before the pool of ops is known to shrink.  The equations here say
    what one turn does: one for each way in which a call ends, and one for each
    kind of statement at the head of a body. -/

namespace Z80Backend.Ops

variable {ops : Ops} {pool : List OpDecl} {chain : List String} {span : Span} {n : Int}

/-! ## Calls -/

section

variable {call : Instruction}

theorem expandCall_of_mem (h : chain.contains (Text.lower call.head) = true) :
    ops.expandCall pool chain span call n =
      (none, [.cyclic (Text.lower call.head) (chain ++ [Text.lower call.head])], n) := by
  rw [expandCall, if_pos h]

theorem expandCall_of_error {e : ExpansionError}
    (hc : chain.contains (Text.lower call.head) = false) (h : ops.resolve pool call = .error e) :
    ops.expandCall pool chain span call n = (none, [e], n) := by
  rw [expandCall, if_neg (Bool.eq_false_iff.mp hc)]
  split
  · rename_i e' h'
    rw [h] at h'
    cases h'
    rfl
  · rename_i d h'
    rw [h] at h'
    cases h'

/-- The body of a call that is resolved, with the instance of its overload. -/
def expandDecl (ops : Ops) (pool : List OpDecl) (chain : List String) (span : Span)
    (call : Instruction) (d : OpDecl) (n : Int) : List Node × List ExpansionError × Int :=
  ops.expandBody (without pool (Text.lower call.head)) (chain ++ [Text.lower call.head]) span
    (Text.lower call.head) (d.instantiate call.operands (ops.stem (n + 1))) d.body (n + 1)

/-- How the expansion by an overload is named. -/
def useOf (chain : List String) (span : Span) (call : Instruction) (d : OpDecl) : OpUse where
  name := Text.lower call.head
  signature := d.signature
  chain := chain ++ [Text.lower call.head]
  span := span

theorem expandCall_of_ok {d : OpDecl} (hc : chain.contains (Text.lower call.head) = false)
    (h : ops.resolve pool call = .ok d) :
    ops.expandCall pool chain span call n =
      (some { op := useOf chain span call d, body := (ops.expandDecl pool chain span call d n).1 },
        (ops.expandDecl pool chain span call d n).2) := by
  rw [expandCall, if_neg (Bool.eq_false_iff.mp hc)]
  split
  · rename_i e h'
    rw [h] at h'
    cases h'
  · rename_i d' h'
    rw [h] at h'
    cases h'
    rfl

end

/-! ## Bodies -/

section

variable {name : String} {x : Instance}

theorem expandBody_nil : ops.expandBody pool chain span name x [] n = ([], [], n) := by
  rw [expandBody]

/-- What a statement of an instance becomes.  A call that cannot be resolved
    and an instruction without machine code become nothing. -/
def expandStmt (ops : Ops) (pool : List OpDecl) (chain : List String) (span : Span)
    (name : String) (st : Stmt) (n : Int) : List Node × List ExpansionError × Int :=
  match st with
  | .instr i =>
    if ops.isOp i.head then
      let c := ops.expandCall pool chain span i n
      ((c.1.map fun e => Node.nested e.op e.body).toList, c.2)
    else
      match ops.invalid? chain name i with
      | some e => ([], [e], n)
      | none => ([.stmt (.instr i)], [], n)
  | st => ([.stmt st], [], n)

/-- A call that is resolved becomes a nested body. -/
theorem expandStmt_call (name : String) {i : Instruction} {e : Expansion}
    {es : List ExpansionError} {n' : Int} (hop : ops.isOp i.head = true)
    (hcall : ops.expandCall pool chain span i n = (some e, es, n')) :
    ops.expandStmt pool chain span name (.instr i) n = ([.nested e.op e.body], es, n') := by
  unfold expandStmt
  dsimp only
  rw [if_pos hop, hcall]
  rfl

/-- A call that is not becomes nothing. -/
theorem expandStmt_refused (name : String) {i : Instruction} {es : List ExpansionError} {n' : Int}
    (hop : ops.isOp i.head = true)
    (hcall : ops.expandCall pool chain span i n = (none, es, n')) :
    ops.expandStmt pool chain span name (.instr i) n = ([], es, n') := by
  unfold expandStmt
  dsimp only
  rw [if_pos hop, hcall]
  rfl

/-- The statements of a body are expanded one after the other. -/
theorem expandBody_cons (s : Stmt) (ss : List Stmt) :
    ops.expandBody pool chain span name x (s :: ss) n =
      let a := ops.expandStmt pool chain span name (x.stmt s) n
      let m := ops.expandBody pool chain span name x ss a.2.2
      (a.1 ++ m.1, a.2.1 ++ m.2.1, m.2.2) := by
  rw [expandBody]
  unfold expandStmt
  generalize x.stmt s = st
  cases st with
  | instr i =>
    dsimp only
    by_cases hop : ops.isOp i.head = true
    · simp only [hop, if_true]
      cases (ops.expandCall pool chain span i n).1 <;> rfl
    · simp only [hop, Bool.false_eq_true, if_false]
      cases ops.invalid? chain name i <;> rfl
  | _ => rfl

/-- What the first statement and the others become, put together. -/
theorem expandBody_cons_of {s : Stmt} {ss : List Stmt} {ns ms : List Node}
    {es fs : List ExpansionError} {n' n'' : Int}
    (hs : ops.expandStmt pool chain span name (x.stmt s) n = (ns, es, n'))
    (hss : ops.expandBody pool chain span name x ss n' = (ms, fs, n'')) :
    ops.expandBody pool chain span name x (s :: ss) n = (ns ++ ms, es ++ fs, n'') := by
  rw [expandBody_cons, hs]
  dsimp only
  rw [hss]

end

end Z80Backend.Ops
