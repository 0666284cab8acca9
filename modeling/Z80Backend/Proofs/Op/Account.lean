import Z80Backend.Proofs.Op.Stepwise

/-! # Accounts of expansions

    An expansion shows the statements that stand and the list of errors those
    that do not, but neither says which error belongs to which statement.  An
    account does: it holds one fate for each statement of a body, and the account
    of a nested body for each call that is replaced.

    `Ops.Settles` gives the rules for fates.  They know the chain of ops that are
    being expanded and look every call up among all declared ops, so nothing in
    them gets smaller from one level to the next.  Expansion itself takes the ops
    on the chain out of its pool, which is why it ends; a call that is not
    refused as cyclic does not miss them.

    * `Ops.callsSettle`: expansion follows the rules.
    * `Ops.Settles.unique`: the rules leave no choice.
    * `Account.Holds` leads to all levels of an account, and `Ops.Accounts` says
      what is true on each. -/

namespace Z80Backend

/-! ## Fates -/

/-- What becomes of one statement of an instance. -/
inductive Fate where
  /-- It stands as it is. -/
  | kept (st : Stmt)
  /-- It is left out, for a reason that is reported. -/
  | refused (i : Instruction) (e : ExpansionError)
  /-- It is a call, and a nested body takes its place. -/
  | replaced (i : Instruction) (op : OpUse) (body : List Fate)

namespace Fate

/-- The statement. -/
def source : Fate → Stmt
  | kept st => st
  | refused i _ => .instr i
  | replaced i _ _ => .instr i

mutual

/-- The entry for the statement in the expanded body. -/
def node? : Fate → Option Node
  | kept st => some (.stmt st)
  | refused .. => none
  | replaced _ op body => some (.nested op (nodes body))

/-- The entries for several statements. -/
def nodes : List Fate → List Node
  | [] => []
  | f :: fs => f.node?.toList ++ nodes fs

end

mutual

/-- The errors that the statement accounts for. -/
def errors : Fate → List ExpansionError
  | kept _ => []
  | refused _ e => [e]
  | replaced _ _ body => listErrors body

/-- The errors that several statements account for. -/
def listErrors : List Fate → List ExpansionError
  | [] => []
  | f :: fs => f.errors ++ listErrors fs

end

theorem nodes_eq_filterMap (fs : List Fate) : nodes fs = fs.filterMap node? := by
  induction fs with
  | nil => rw [nodes, List.filterMap_nil]
  | cons f fs ih =>
    rw [nodes, ih, List.filterMap_cons]
    cases f.node? <;> rfl

theorem listErrors_eq_flatMap (fs : List Fate) : listErrors fs = fs.flatMap errors := by
  induction fs with
  | nil => rw [listErrors, List.flatMap_nil]
  | cons f fs ih => rw [listErrors, ih, List.flatMap_cons]

end Fate

/-! ## Rules -/

namespace Ops

/-- What becomes of the statements in a body of `op`, one after the other.  The
    numbers are the last label numbers in use before and after. -/
inductive Settles (ops : Ops) : OpUse → List Stmt → Int → List Fate → Int → Prop
  | nil {op : OpUse} {n : Int} : Settles ops op [] n [] n
  /-- A statement that is no instruction stands. -/
  | plain {op : OpUse} {st : Stmt} {sts : List Stmt} {fs : List Fate} {n n' : Int}
    (hst : ∀ i, st ≠ .instr i) (hsts : Settles ops op sts n fs n') :
    Settles ops op (st :: sts) n (.kept st :: fs) n'
  /-- An instruction stands if nothing is wrong with it. -/
  | valid {op : OpUse} {i : Instruction} {sts : List Stmt} {fs : List Fate} {n n' : Int}
    (hop : ops.isOp i.head = false) (hi : ops.invalid? op.chain op.name i = none)
    (hsts : Settles ops op sts n fs n') :
    Settles ops op (.instr i :: sts) n (.kept (.instr i) :: fs) n'
  | invalid {op : OpUse} {i : Instruction} {e : ExpansionError} {sts : List Stmt}
    {fs : List Fate} {n n' : Int} (hop : ops.isOp i.head = false)
    (hi : ops.invalid? op.chain op.name i = some e) (hsts : Settles ops op sts n fs n') :
    Settles ops op (.instr i :: sts) n (.refused i e :: fs) n'
  /-- A call of an op on the chain is refused. -/
  | cyclic {op : OpUse} {i : Instruction} {sts : List Stmt} {fs : List Fate} {n n' : Int}
    (hop : ops.isOp i.head = true) (hchain : Text.lower i.head ∈ op.chain)
    (hsts : Settles ops op sts n fs n') :
    Settles ops op (.instr i :: sts) n
      (.refused i (.cyclic (Text.lower i.head) (op.chain ++ [Text.lower i.head])) :: fs) n'
  /-- So is a call that no overload is meant for. -/
  | unresolved {op : OpUse} {i : Instruction} {e : ExpansionError} {sts : List Stmt}
    {fs : List Fate} {n n' : Int} (hop : ops.isOp i.head = true)
    (hchain : Text.lower i.head ∉ op.chain) (hresolve : ops.resolve ops.decls i = .error e)
    (hsts : Settles ops op sts n fs n') :
    Settles ops op (.instr i :: sts) n (.refused i e :: fs) n'
  /-- The body of the overload takes the place of any other call, with a label
      number of its own. -/
  | call {op : OpUse} {i : Instruction} {d : OpDecl} {body : List Fate} {sts : List Stmt}
    {fs : List Fate} {n n₁ n₂ : Int} (hop : ops.isOp i.head = true)
    (hchain : Text.lower i.head ∉ op.chain) (hresolve : ops.resolve ops.decls i = .ok d)
    (hbody : Settles ops (useOf op.chain op.span i d)
      (d.body.map (d.instantiate i.operands (ops.stem (n + 1))).stmt) (n + 1) body n₁)
    (hsts : Settles ops op sts n₁ fs n₂) :
    Settles ops op (.instr i :: sts) n (.replaced i (useOf op.chain op.span i d) body :: fs) n₂

variable {ops : Ops} {op : OpUse} {sts : List Stmt} {fs : List Fate} {n n' : Int}

/-- The rules leave no choice. -/
theorem Settles.unique (h : ops.Settles op sts n fs n') {fs₂ : List Fate} {n₂ : Int}
    (h₂ : ops.Settles op sts n fs₂ n₂) : fs₂ = fs ∧ n₂ = n' := by
  -- For each kind of statement, two rules that both apply would need a condition
  -- and its opposite.
  induction h generalizing fs₂ n₂ with
  | nil =>
    cases h₂
    exact ⟨rfl, rfl⟩
  | plain hst _ ih =>
    cases h₂ with
    | plain _ hsts₂ =>
      obtain ⟨rfl, rfl⟩ := ih hsts₂
      exact ⟨rfl, rfl⟩
    | _ => exact absurd rfl (hst _)
  | valid hop hi _ ih =>
    cases h₂ with
    | plain hst₂ => exact absurd rfl (hst₂ _)
    | valid _ _ hsts₂ =>
      obtain ⟨rfl, rfl⟩ := ih hsts₂
      exact ⟨rfl, rfl⟩
    | invalid _ hi₂ => exact absurd (hi.symm.trans hi₂) (by simp)
    | cyclic hop₂ | unresolved hop₂ | call hop₂ => exact absurd (hop.symm.trans hop₂) (by simp)
  | invalid hop hi _ ih =>
    cases h₂ with
    | plain hst₂ => exact absurd rfl (hst₂ _)
    | valid _ hi₂ => exact absurd (hi.symm.trans hi₂) (by simp)
    | invalid _ hi₂ hsts₂ =>
      obtain ⟨rfl, rfl⟩ := ih hsts₂
      cases hi.symm.trans hi₂
      exact ⟨rfl, rfl⟩
    | cyclic hop₂ | unresolved hop₂ | call hop₂ => exact absurd (hop.symm.trans hop₂) (by simp)
  | cyclic hop hchain _ ih =>
    cases h₂ with
    | plain hst₂ => exact absurd rfl (hst₂ _)
    | valid hop₂ | invalid hop₂ => exact absurd (hop.symm.trans hop₂) (by simp)
    | cyclic _ _ hsts₂ =>
      obtain ⟨rfl, rfl⟩ := ih hsts₂
      exact ⟨rfl, rfl⟩
    | unresolved _ hchain₂ | call _ hchain₂ => exact absurd hchain hchain₂
  | unresolved hop hchain hresolve _ ih =>
    cases h₂ with
    | plain hst₂ => exact absurd rfl (hst₂ _)
    | valid hop₂ | invalid hop₂ => exact absurd (hop.symm.trans hop₂) (by simp)
    | cyclic _ hchain₂ => exact absurd hchain₂ hchain
    | unresolved _ _ hresolve₂ hsts₂ =>
      obtain ⟨rfl, rfl⟩ := ih hsts₂
      cases hresolve.symm.trans hresolve₂
      exact ⟨rfl, rfl⟩
    | call _ _ hresolve₂ => cases hresolve.symm.trans hresolve₂
  | call hop hchain hresolve _ _ ihbody ih =>
    cases h₂ with
    | plain hst₂ => exact absurd rfl (hst₂ _)
    | valid hop₂ | invalid hop₂ => exact absurd (hop.symm.trans hop₂) (by simp)
    | cyclic _ hchain₂ => exact absurd hchain₂ hchain
    | unresolved _ _ hresolve₂ => cases hresolve.symm.trans hresolve₂
    | call _ _ hresolve₂ hbody₂ hsts₂ =>
      cases hresolve.symm.trans hresolve₂
      obtain ⟨rfl, rfl⟩ := ihbody hbody₂
      obtain ⟨rfl, rfl⟩ := ih hsts₂
      exact ⟨rfl, rfl⟩

/-! ## Expansion follows the rules -/

/-- The declared ops that are not on the chain. -/
def spared (ops : Ops) (chain : List String) : List OpDecl :=
  ops.decls.filter fun d => !chain.contains (Text.lower d.name)

theorem spared_nil (ops : Ops) : ops.spared [] = ops.decls := by
  simp [spared]

theorem without_spared (ops : Ops) (chain : List String) (name : String) :
    without (ops.spared chain) name = ops.spared (chain ++ [name]) := by
  unfold without spared
  rw [List.filter_filter]
  refine List.filter_congr fun d _ => ?_
  rw [Bool.eq_iff_iff]
  simp [and_comm]

/-- A call of an op that is not on the chain does not miss those that are. -/
theorem resolve_spared {chain : List String} {i : Instruction} (h : Text.lower i.head ∉ chain) :
    ops.resolve (ops.spared chain) i = ops.resolve ops.decls i := by
  have hoverloads : overloadsIn (ops.spared chain) (Text.lower i.head) =
      overloadsIn ops.decls (Text.lower i.head) := by
    unfold overloadsIn spared
    rw [List.filter_filter]
    refine List.filter_congr fun d _ => ?_
    by_cases hname : Text.lower d.name = Text.lower i.head
    · simp [hname, h]
    · simp [hname]
  simp only [resolve, hoverloads]

/-- What expansion does with the calls in a body is as the rules have it. -/
def CallsSettle (ops : Ops) (op : OpUse) : Prop :=
  ∀ (i : Instruction) (d : OpDecl) (n : Int), Text.lower i.head ∉ op.chain →
    ops.resolve ops.decls i = .ok d → ∃ body n₁,
      ops.Settles (useOf op.chain op.span i d)
        (d.body.map (d.instantiate i.operands (ops.stem (n + 1))).stmt) (n + 1) body n₁ ∧
      ops.expandDecl (ops.spared op.chain) op.chain op.span i d n =
        (Fate.nodes body, Fate.listErrors body, n₁)

/-- One statement is expanded as the rules have it. -/
theorem exists_settles_expandStmt (hcalls : ops.CallsSettle op) (st : Stmt) (n : Int) :
    ∃ f n₁, ops.expandStmt (ops.spared op.chain) op.chain op.span op.name st n =
        (f.node?.toList, f.errors, n₁) ∧
      ∀ sts fs n₂, ops.Settles op sts n₁ fs n₂ → ops.Settles op (st :: sts) n (f :: fs) n₂ := by
  cases st with
  | instr i =>
    unfold expandStmt
    dsimp only
    by_cases hop : ops.isOp i.head = true
    · rw [if_pos hop]
      -- The chain is looked at before the overloads are, here and in the rules.
      by_cases hchain : Text.lower i.head ∈ op.chain
      · rw [expandCall_of_mem (by simpa using hchain)]
        exact ⟨_, n, rfl, fun _ _ _ => .cyclic hop hchain⟩
      have hfresh : op.chain.contains (Text.lower i.head) = false := by simpa using hchain
      cases hresolve : ops.resolve ops.decls i with
      | error e =>
        rw [expandCall_of_error hfresh ((resolve_spared hchain).trans hresolve)]
        exact ⟨.refused i e, n, rfl, fun _ _ _ => .unresolved hop hchain hresolve⟩
      | ok d =>
        obtain ⟨body, n₁, hbody, hdecl⟩ := hcalls i d n hchain hresolve
        rw [expandCall_of_ok hfresh ((resolve_spared hchain).trans hresolve), hdecl]
        exact ⟨.replaced i (useOf op.chain op.span i d) body, n₁, rfl,
          fun _ _ _ => .call hop hchain hresolve hbody⟩
    · rw [if_neg hop]
      have hop : ops.isOp i.head = false := by simpa using hop
      cases hi : ops.invalid? op.chain op.name i with
      | some e => exact ⟨.refused i e, n, rfl, fun _ _ _ => .invalid hop hi⟩
      | none => exact ⟨.kept (.instr i), n, rfl, fun _ _ _ => .valid hop hi⟩
  | _ => exact ⟨.kept _, n, rfl, fun _ _ _ => .plain (by simp)⟩

/-- So is a whole body. -/
theorem exists_settles_expandBody (hcalls : ops.CallsSettle op) (x : Instance) (body : List Stmt)
    (n : Int) :
    ∃ fs n', ops.Settles op (body.map x.stmt) n fs n' ∧
      ops.expandBody (ops.spared op.chain) op.chain op.span op.name x body n =
        (Fate.nodes fs, Fate.listErrors fs, n') := by
  induction body generalizing n with
  | nil => exact ⟨[], n, .nil, expandBody_nil⟩
  | cons s ss ih =>
    obtain ⟨f, n₁, hexpand, hsettle⟩ := exists_settles_expandStmt hcalls (x.stmt s) n
    obtain ⟨fs, n₂, hrest, hbody⟩ := ih n₁
    exact ⟨f :: fs, n₂, hsettle _ _ _ hrest, expandBody_cons_of hexpand hbody⟩

/-- Expansion follows the rules on every level.  Each level has fewer ops in its
    pool, so there is a deepest one. -/
theorem callsSettle (ops : Ops) (op : OpUse) : ops.CallsSettle op := by
  intro i d n hchain hresolve
  have hshrink : (ops.spared (op.chain ++ [Text.lower i.head])).length <
      (ops.spared op.chain).length := by
    rw [← without_spared]
    exact length_without_lt ((resolve_spared hchain).trans hresolve)
  -- The calls inside the body have one op less to go by.
  have hcalls := callsSettle ops (useOf op.chain op.span i d)
  obtain ⟨body, n₁, hbody, hexpand⟩ := exists_settles_expandBody hcalls
    (d.instantiate i.operands (ops.stem (n + 1))) d.body (n + 1)
  refine ⟨body, n₁, hbody, ?_⟩
  unfold expandDecl
  rw [without_spared]
  exact hexpand
termination_by (ops.spared op.chain).length
decreasing_by exact hshrink

/-! ## One fate -/

/-- There is one fate for each statement, in order. -/
theorem Settles.map_source (h : ops.Settles op sts n fs n') : fs.map Fate.source = sts := by
  induction h with
  | nil => rfl
  | plain _ _ ih | valid _ _ _ ih | invalid _ _ _ ih | cyclic _ _ _ ih | unresolved _ _ _ _ ih
  | call _ _ _ _ _ _ ih => simp [Fate.source, ih]

/-- The rules settle each fate on its own. -/
theorem Settles.mem (h : ops.Settles op sts n fs n') {f : Fate} (hf : f ∈ fs) :
    ∃ m m', ops.Settles op [f.source] m [f] m' := by
  induction h with
  | nil => cases hf
  | plain hst _ ih =>
    rcases List.mem_cons.mp hf with rfl | hf
    · exact ⟨0, 0, .plain hst .nil⟩
    · exact ih hf
  | valid hop hi _ ih =>
    rcases List.mem_cons.mp hf with rfl | hf
    · exact ⟨0, 0, .valid hop hi .nil⟩
    · exact ih hf
  | invalid hop hi _ ih =>
    rcases List.mem_cons.mp hf with rfl | hf
    · exact ⟨0, 0, .invalid hop hi .nil⟩
    · exact ih hf
  | cyclic hop hchain _ ih =>
    rcases List.mem_cons.mp hf with rfl | hf
    · exact ⟨0, 0, .cyclic hop hchain .nil⟩
    · exact ih hf
  | unresolved hop hchain hresolve _ ih =>
    rcases List.mem_cons.mp hf with rfl | hf
    · exact ⟨0, 0, .unresolved hop hchain hresolve .nil⟩
    · exact ih hf
  | call hop hchain hresolve hbody _ _ ih =>
    rcases List.mem_cons.mp hf with rfl | hf
    · exact ⟨_, _, .call hop hchain hresolve hbody .nil⟩
    · exact ih hf

end Ops

/-! ## Levels -/

/-- The second expansion is the first one or nested in it, at any depth. -/
inductive Expansion.Holds : Expansion → Expansion → Prop
  | self (x : Expansion) : Holds x x
  | nested {x y : Expansion} {op : OpUse} {body : List Node} (h : Holds x y)
    (hmem : .nested op body ∈ y.body) : Holds x { op, body }

/-- A call, how its expansion is named, and the fates of the statements of its
    body. -/
structure Account where
  call : Instruction
  op : OpUse
  fates : List Fate

namespace Account

/-- The expansion that the account is of. -/
def expansion (a : Account) : Expansion where
  op := a.op
  body := Fate.nodes a.fates

/-- The errors on this level and deeper. -/
def errors (a : Account) : List ExpansionError := Fate.listErrors a.fates

/-- The second account is the first one or part of it, at any depth. -/
inductive Holds : Account → Account → Prop
  | self (a : Account) : Holds a a
  | inner {a b : Account} {i : Instruction} {op : OpUse} {fates : List Fate} (h : Holds a b)
    (hmem : .replaced i op fates ∈ b.fates) : Holds a { call := i, op, fates }

variable {a b : Account}

theorem mem_expansion_body {node : Node} :
    node ∈ a.expansion.body ↔ ∃ f ∈ a.fates, f.node? = some node := by
  show node ∈ Fate.nodes a.fates ↔ _
  rw [Fate.nodes_eq_filterMap, List.mem_filterMap]

theorem mem_errors {e : ExpansionError} : e ∈ a.errors ↔ ∃ f ∈ a.fates, e ∈ f.errors := by
  show e ∈ Fate.listErrors a.fates ↔ _
  rw [Fate.listErrors_eq_flatMap, List.mem_flatMap]

/-- Nothing is nested in the expansion that the account does not hold. -/
theorem exists_of_holds {y : Expansion} (h : a.expansion.Holds y) :
    ∃ b, a.Holds b ∧ b.expansion = y := by
  induction h with
  | self => exact ⟨a, .self a, rfl⟩
  | nested _ hmem ih =>
    obtain ⟨b, hb, rfl⟩ := ih
    obtain ⟨f, hf, hnode⟩ := mem_expansion_body.mp hmem
    cases f with
    | kept st => cases hnode
    | refused i e => cases hnode
    | replaced i op fates =>
      cases hnode
      exact ⟨_, .inner hb hf, rfl⟩

/-- The errors of each level are among those of the whole, in their order. -/
theorem Holds.errors_sublist (h : a.Holds b) : b.errors.Sublist a.errors := by
  induction h with
  | self => exact List.Sublist.refl _
  | @inner b i op fates _ hmem ih =>
    refine List.Sublist.trans ?_ ih
    show (Fate.replaced i op fates).errors.Sublist (Fate.listErrors b.fates)
    rw [Fate.listErrors_eq_flatMap, List.flatMap_def]
    exact List.sublist_flatten_of_mem (List.mem_map_of_mem hmem)

end Account

namespace Ops

/-- The account is what the rules give for its call. -/
structure Accounts (ops : Ops) (a : Account) : Prop where
  name : a.op.name = Text.lower a.call.head
  settles : ∃ d n n', ops.resolve ops.decls a.call = .ok d ∧
    ops.Settles a.op (d.body.map (d.instantiate a.call.operands (ops.stem (n + 1))).stmt) (n + 1)
      a.fates n'

namespace Accounts

variable {ops : Ops} {a b : Account}

theorem mem (h : ops.Accounts a) {f : Fate} (hf : f ∈ a.fates) :
    ∃ m m', ops.Settles a.op [f.source] m [f] m' := by
  obtain ⟨d, n, n', -, hsettles⟩ := h.settles
  exact hsettles.mem hf

/-- What holds on one level holds on the next. -/
theorem inner (h : ops.Accounts a) {i : Instruction} {op : OpUse} {fates : List Fate}
    (hmem : .replaced i op fates ∈ a.fates) : ops.Accounts { call := i, op, fates } := by
  obtain ⟨m, m', hfate⟩ := h.mem hmem
  cases hfate with
  | call hop hchain hresolve hbody hsts => exact ⟨rfl, _, _, _, hresolve, hbody⟩

theorem holds (h : ops.Accounts a) (hb : a.Holds b) : ops.Accounts b := by
  induction hb with
  | self => exact h
  | inner _ hmem ih => exact ih.inner hmem

end Accounts

/-- The account of a call from outside. -/
theorem exists_accounts {ops : Ops} {call : Instruction} {d : OpDecl} (n : Int)
    (h : ops.resolve ops.decls call = .ok d) :
    ∃ (a : Account) (n' : Int), ops.expand call n = (some a.expansion, a.errors, n') ∧
      a.call = call ∧ a.op = useOf [] call.span call d ∧ ops.Accounts a ∧
      ops.Settles a.op (d.body.map (d.instantiate call.operands (ops.stem (n + 1))).stmt) (n + 1)
        a.fates n' := by
  -- From outside, the call is as in a body with nothing on its chain.
  have hcalls := ops.callsSettle { name := "", signature := "", chain := [], span := call.span }
  obtain ⟨fates, n', hsettles, hdecl⟩ := hcalls call d n (by simp) h
  refine ⟨{ call, op := useOf [] call.span call d, fates }, n', ?_, rfl, rfl,
    ⟨rfl, d, n, n', h, hsettles⟩, hsettles⟩
  rw [spared_nil] at hdecl
  unfold expand
  rw [expandCall_of_ok (by simp) h, hdecl]
  rfl

end Ops

end Z80Backend
