import Mathlib.Data.List.Forall2
import Z80Backend.Proofs.Op.Account

/-! # Nothing is lost in an expansion

    Expansion goes on after a failure: what fails is left out, and the rest
    stays.  So the body of an expansion can be shorter than that of its overload.
    But each statement that is left out, on whatever level, has an error of its
    own in the list; and what is left in has been checked.

    * `Ops.Accounts.covers`: on each level statements, entries and errors match.
    * `Ops.Accounts.forall₂_renders`: without errors nothing is left out.
    * `Ops.Settles.isSound`: instructions that stand are sound.
    * `Ops.expand_conserves`: all of this for the expansion of a call. -/

namespace Z80Backend

/-! ## Entries -/

/-- The entry stands for the statement: it is the statement itself, or the body
    that takes the place of a call. -/
def Node.Renders (st : Stmt) : Node → Prop
  | .stmt st' => st' = st
  | .nested op _ => ∃ i, st = .instr i ∧ op.name = Text.lower i.head

namespace Fate

@[simp] theorem nodes_kept (st : Stmt) (fs : List Fate) :
    nodes (.kept st :: fs) = .stmt st :: nodes fs := rfl

@[simp] theorem nodes_refused (i : Instruction) (e : ExpansionError) (fs : List Fate) :
    nodes (.refused i e :: fs) = nodes fs := rfl

@[simp] theorem nodes_replaced (i : Instruction) (op : OpUse) (body fs : List Fate) :
    nodes (.replaced i op body :: fs) = .nested op (nodes body) :: nodes fs := rfl

/-- A statement without an entry accounts for an error. -/
theorem errors_ne_nil {f : Fate} (h : f.node? = none) : f.errors ≠ [] := by
  cases f with
  | kept st => cases h
  | refused i e => exact List.cons_ne_nil e []
  | replaced i op body => cases h

/-- Without errors every statement has its entry. -/
theorem forall₂_node? {fs : List Fate} (h : listErrors fs = []) :
    List.Forall₂ (fun f node => f.node? = some node) fs (nodes fs) := by
  induction fs with
  | nil =>
    rw [nodes]
    exact .nil
  | cons f fs ih =>
    rw [listErrors, List.append_eq_nil_iff] at h
    rw [nodes]
    cases hnode : f.node? with
    | none => exact absurd h.1 (errors_ne_nil hnode)
    | some node => exact .cons hnode (ih h.2)

end Fate

namespace Ops

variable {ops : Ops} {a b : Account}

/-! ## Levels -/

/-- What the account of a call says of statements, entries and errors. -/
structure Covers (ops : Ops) (b : Account) : Prop where
  /-- There is a fate for each statement of the overload that the call is meant
      for, in order. -/
  images : ∃ d m, ops.resolve ops.decls b.call = .ok d ∧
    b.fates.map Fate.source = d.body.map (d.instantiate b.call.operands (ops.stem m)).stmt
  /-- The body has the entries of the statements that have one, in order. -/
  entries : b.expansion.body = b.fates.filterMap Fate.node?
  renders : ∀ f ∈ b.fates, ∀ node, f.node? = some node → node.Renders f.source
  /-- The errors are those that the statements account for, in order. -/
  errors : b.errors = b.fates.flatMap Fate.errors
  reports : ∀ f ∈ b.fates, f.node? = none → f.errors ≠ []

/-- The entry of a statement stands for it. -/
theorem Accounts.renders (h : ops.Accounts b) {f : Fate} (hf : f ∈ b.fates) {node : Node}
    (hnode : f.node? = some node) : node.Renders f.source := by
  cases f with
  | kept st =>
    cases hnode
    exact rfl
  | refused i e => cases hnode
  | replaced i op body =>
    cases hnode
    exact ⟨i, rfl, (h.inner hf).name⟩

theorem Accounts.covers (h : ops.Accounts b) : ops.Covers b where
  images := by
    obtain ⟨d, n, n', hresolve, hsettles⟩ := h.settles
    exact ⟨d, n + 1, hresolve, hsettles.map_source⟩
  entries := Fate.nodes_eq_filterMap b.fates
  renders f hf node hnode := h.renders hf hnode
  errors := Fate.listErrors_eq_flatMap b.fates
  reports f hf hnone := Fate.errors_ne_nil hnone

/-- Without errors the entries of a body stand for the statements of the
    overload, one for one. -/
theorem Accounts.forall₂_renders (h : ops.Accounts b) (herrors : b.errors = []) :
    ∃ d m, ops.resolve ops.decls b.call = .ok d ∧
      List.Forall₂ (fun st node => node.Renders st)
        (d.body.map (d.instantiate b.call.operands (ops.stem m)).stmt) b.expansion.body := by
  obtain ⟨d, m, hresolve, himages⟩ := h.covers.images
  refine ⟨d, m, hresolve, ?_⟩
  rw [← himages, List.forall₂_map_left_iff]
  -- Membership goes along: whether an entry renders its call is known on the next level.
  have hpairs := (List.forall₂_and_left b.fates b.expansion.body).mpr
    ⟨fun f hf => hf, Fate.forall₂_node? herrors⟩
  exact hpairs.imp fun f node ⟨hf, hnode⟩ => h.renders hf hnode

/-! ## Instructions that stand -/

/-- The instruction is no op call, and has machine code or names typed storage,
    as a bare place or in parentheses. -/
structure IsSound (ops : Ops) (i : Instruction) : Prop where
  isOp : ops.isOp i.head = false
  checked : (∃ code, assemble ops.resolver i = .ok code) ∨
    (∃ p span, .place p span ∈ i.operands) ∨
    ∃ p span width w, .mem p span ∈ i.operands ∧ ops.width? = some width ∧ width p = some w

theorem isTyped_iff {o : Operand} : ops.isTyped o = true ↔
    (∃ p span, o = .place p span) ∨
      ∃ p span width w, o = .mem p span ∧ ops.width? = some width ∧ width p = some w := by
  cases o with
  | mem p span =>
    show (ops.width?.bind (· p)).isSome = true ↔ _
    rw [Option.isSome_iff_exists]
    constructor
    · rintro ⟨w, hw⟩
      obtain ⟨width, hwidth, hp⟩ := Option.bind_eq_some_iff.mp hw
      exact .inr ⟨p, span, width, w, rfl, hwidth, hp⟩
    · rintro (⟨_, _, heq⟩ | ⟨_, _, width, w, heq, hwidth, hp⟩)
      · cases heq
      · cases heq
        exact ⟨w, Option.bind_eq_some_iff.mpr ⟨width, hwidth, hp⟩⟩
  | _ => simp [isTyped]

theorem isSound_of_valid {chain : List String} {name : String} {i : Instruction}
    (hop : ops.isOp i.head = false) (h : ops.invalid? chain name i = none) : ops.IsSound i := by
  refine ⟨hop, ?_⟩
  unfold invalid? at h
  split at h
  · rename_i htyped
    obtain ⟨o, ho, htyped⟩ := List.any_eq_true.mp htyped
    rcases isTyped_iff.mp htyped with ⟨p, span, rfl⟩ | ⟨p, span, width, w, rfl, hwidth⟩
    · exact .inr (.inl ⟨p, span, ho⟩)
    · exact .inr (.inr ⟨p, span, width, w, ho, hwidth⟩)
  · split at h
    · rename_i code hcode
      exact .inl ⟨code, hcode⟩
    · cases h

/-- Every instruction in an expanded body is sound, on all levels. -/
theorem Settles.isSound {op : OpUse} {sts : List Stmt} {fs : List Fate} {n n' : Int}
    (h : ops.Settles op sts n fs n') :
    ∀ i ∈ Node.listInstructions (Fate.nodes fs), ops.IsSound i := by
  induction h with
  | nil => simp [Fate.nodes, Node.listInstructions]
  | @plain op st _ _ _ _ hst _ ih =>
    have hnone : (Node.stmt st).instructions = [] := by
      cases st with
      | instr i => exact absurd rfl (hst i)
      | _ => rfl
    rw [Fate.nodes_kept, Node.listInstructions, hnone]
    exact ih
  | @valid _ i _ _ _ _ hop hi _ ih =>
    intro j hj
    rw [Fate.nodes_kept, Node.listInstructions, List.mem_append] at hj
    rcases hj with hj | hj
    · obtain rfl : j = i := List.mem_singleton.mp hj
      exact isSound_of_valid hop hi
    · exact ih j hj
  | invalid _ _ _ ih | cyclic _ _ _ ih | unresolved _ _ _ _ ih =>
    rw [Fate.nodes_refused]
    exact ih
  | call _ _ _ _ _ ihbody ih =>
    intro j hj
    rw [Fate.nodes_replaced, Node.listInstructions, List.mem_append] at hj
    rcases hj with hj | hj
    · exact ihbody j hj
    · exact ih j hj

/-! ## The result -/

/-- The expansion of a call that is resolved has an account.  On each level of
    the expansion it gives every statement of the overload, in order, an entry
    that stands for it or an error in the list that is returned.  So without
    errors the entries stand for the statements one for one.  The instructions of
    the expansion are no op calls, and have machine code or name typed storage. -/
theorem expand_conserves {ops : Ops} {call : Instruction} {d : OpDecl} (n : Int)
    (h : ops.resolve ops.decls call = .ok d) :
    ∃ (a : Account) (n' : Int), ops.expand call n = (some a.expansion, a.errors, n') ∧
      a.call = call ∧
      (∀ y, a.expansion.Holds y → ∃ b, a.Holds b ∧ b.expansion = y) ∧
      (∀ b, a.Holds b → ops.Covers b ∧ b.errors.Sublist a.errors) ∧
      (a.errors = [] → ∀ b, a.Holds b → ∃ d m, ops.resolve ops.decls b.call = .ok d ∧
        List.Forall₂ (fun st node => node.Renders st)
          (d.body.map (d.instantiate b.call.operands (ops.stem m)).stmt) b.expansion.body) ∧
      ∀ i ∈ a.expansion.instructions, ops.IsSound i := by
  obtain ⟨a, n', hexpand, rfl, -, haccounts, hsettles⟩ := exists_accounts n h
  refine ⟨a, n', hexpand, rfl, fun y => Account.exists_of_holds, ?_, ?_, hsettles.isSound⟩
  · intro b hb
    exact ⟨(haccounts.holds hb).covers, hb.errors_sublist⟩
  · intro herrors b hb
    -- No errors in all means none on any level.
    have hnone : b.errors = [] := List.sublist_nil.mp (herrors ▸ hb.errors_sublist)
    exact (haccounts.holds hb).forall₂_renders hnone

end Ops

/-- `op frail(r: reg8)`: its third statement is no instruction, and its fourth
    calls the op itself. -/
def frail : OpDecl where
  name := "frail"
  params := [{ name := "r", matcher := .reg8 }]
  body := [.label "top" {}, .instr (.of "inc" [.ofReg "r"]), .instr (.of "frob" [.ofReg "r"]),
    .instr (.of "frail" [.ofReg "r"]), .instr (.of "dec" [.ofReg "r"])]

/-- The op alone. -/
def frailOps : Ops where
  resolver := .empty
  decls := [frail]

/-- What stands of `frail b`. -/
def frailExpansion : Expansion where
  op := { name := "frail", signature := "frail(r: reg8)", chain := ["frail"], span := {} }
  body := [.stmt (.label "__zax_op_1_top" {}), .stmt (.instr (.of "inc" [.ofReg "b"])),
    .stmt (.instr (.of "dec" [.ofReg "b"]))]

/-- What is reported. -/
def frailErrors : List ExpansionError :=
  [.invalid "frail" (.of "frob" [.ofReg "b"]) (.unsupported "frob") ["frail"],
    .cyclic "frail" ["frail", "frail"]]

theorem expand_frail :
    frailOps.expand (.of "frail" [.ofReg "b"]) 0 = (some frailExpansion, frailErrors, 1) := by
  have hcycle : frailOps.expandStmt [] ["frail"] {} "frail" (.instr (.of "frail" [.ofReg "b"])) 1 =
      ([], [.cyclic "frail" ["frail", "frail"]], 1) := by
    have hcall : frailOps.expandCall [] ["frail"] {} (.of "frail" [.ofReg "b"]) 1 =
        (none, [.cyclic "frail" ["frail", "frail"]], 1) :=
      Ops.expandCall_of_mem rfl
    exact Ops.expandStmt_refused "frail" rfl hcall
  have hlast : frailOps.expandBody [] ["frail"] {} "frail"
      (frail.instantiate [.ofReg "b"] (frailOps.stem 1)) [.instr (.of "dec" [.ofReg "r"])] 1 =
      ([.stmt (.instr (.of "dec" [.ofReg "b"]))], [], 1) :=
    Ops.expandBody_cons_of rfl Ops.expandBody_nil
  have hend : frailOps.expandBody [] ["frail"] {} "frail"
      (frail.instantiate [.ofReg "b"] (frailOps.stem 1))
      [.instr (.of "frail" [.ofReg "r"]), .instr (.of "dec" [.ofReg "r"])] 1 =
      ([.stmt (.instr (.of "dec" [.ofReg "b"]))], [.cyclic "frail" ["frail", "frail"]], 1) :=
    Ops.expandBody_cons_of (s := .instr (.of "frail" [.ofReg "r"])) hcycle hlast
  have hbody : frailOps.expandDecl frailOps.decls [] {} (.of "frail" [.ofReg "b"]) frail 0 =
      (frailExpansion.body, frailErrors, 1) :=
    Ops.expandBody_cons_of rfl (Ops.expandBody_cons_of rfl (Ops.expandBody_cons_of rfl hend))
  show frailOps.expandCall frailOps.decls [] {} (.of "frail" [.ofReg "b"]) 0 = _
  rw [Ops.expandCall_of_ok (d := frail) rfl rfl, hbody]
  rfl

/-- Of five statements three stand, and the two others have an error each. -/
theorem frail_conserves :
    frailOps.resolve frailOps.decls (.of "frail" [.ofReg "b"]) = .ok frail ∧
      frailOps.expand (.of "frail" [.ofReg "b"]) 0 = (some frailExpansion, frailErrors, 1) ∧
      (∃ a : Account, a.expansion = frailExpansion ∧ a.errors = frailErrors ∧
        a.fates.length = 5 ∧ frailOps.Covers a) ∧
      ∀ i ∈ frailExpansion.instructions, frailOps.IsSound i := by
  have hresolve : frailOps.resolve frailOps.decls (.of "frail" [.ofReg "b"]) = .ok frail := rfl
  obtain ⟨a, n', hexpand, hcall, -, hlevels, -, hsound⟩ := Ops.expand_conserves 0 hresolve
  have hboth := hexpand.symm.trans expand_frail
  have hexpansion : a.expansion = frailExpansion := by
    simpa using congrArg Prod.fst hboth
  have herrors : a.errors = frailErrors := congrArg (fun r => r.2.1) hboth
  have hcovers : frailOps.Covers a := (hlevels a (.self a)).1
  have hlength : a.fates.length = 5 := by
    obtain ⟨d, m, hd, himages⟩ := hcovers.images
    rw [hcall, hresolve] at hd
    cases hd
    simpa [frail] using congrArg List.length himages
  exact ⟨hresolve, expand_frail, ⟨a, hexpansion, herrors, hlength, hcovers⟩, hexpansion ▸ hsound⟩

end Z80Backend
