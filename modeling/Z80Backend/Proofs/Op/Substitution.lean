import Mathlib.Tactic.Push
import Z80Backend.Op.Instance
import Z80Backend.Proofs.Assembly.Symbolic

/-! # Substitution into op bodies

    The expressions of an op body are rewritten for each call: immediates go in
    the place of parameters, and labels get names of their own.  One can as well
    leave an expression as it is and say what its names mean, and this is how a
    body is read.  Both ways give the same values.

    An instance keeps its operands in one list, so what it does to a name is told
    in two steps: `OpDecl.lookup_instantiate` says which operand a name has, and
    `Instance.toOption_eval_expr` what comes of it in any expression.

    * `OpDecl.eval_instantiate` is the substitution lemma. -/

namespace Z80Backend

/-! ## What names mean in a body -/

/-- What a parameter is found by, if it stands for an operand.  One that matches a
    token does not. -/
def OpParam.key? (p : OpParam) : Option String :=
  match p.matcher with
  | .token _ => none
  | _ => some (Text.lower p.name)

namespace OpDecl

/-- Parameters can be told apart by their names without regard to case. -/
def KeysDistinct (d : OpDecl) : Prop := (d.params.filterMap OpParam.key?).Nodup

/-- The name is that of a parameter, in some case, and the operand is the one that
    the call has for it. -/
def Binds (d : OpDecl) (args : List Operand) (name : String) (o : Operand) : Prop :=
  ∃ p, (p, o) ∈ d.params.zip args ∧ p.key? = some (Text.lower name)

/-- The name is that of a label of the body. -/
def HasLabel (d : OpDecl) (name : String) : Prop := ∃ span, .label name span ∈ d.body

/-- What the names in a body mean for a call, where `r` says what names mean to
    the caller. -/
structure Interprets (d : OpDecl) (args : List Operand) (stem : String) (r r' : Resolver) :
    Prop where
  /-- A parameter with an immediate has the value that the caller gives it. -/
  param : ∀ name e span, d.Binds args name (.imm e span) → r'.value? name = (e.eval r).toOption
  /-- A label that is no parameter is the label of the instance. -/
  label : ∀ name, d.HasLabel name → (∀ o, ¬ d.Binds args name o) →
    r'.value? name = r.value? (stem ++ "_" ++ name)
  /-- All other names mean what they mean to the caller. -/
  other : ∀ name, (∀ e span, ¬ d.Binds args name (.imm e span)) →
    (d.HasLabel name → ∃ o, d.Binds args name o) → r'.value? name = r.value? name
  types : r'.layout? = r.layout?

/-! ## The operand of a name -/

variable {d : OpDecl} {args : List Operand} {stem name : String} {r r' : Resolver}

theorem bound_instantiate (d : OpDecl) (args : List Operand) (stem : String) :
    (d.instantiate args stem).bound =
      ((d.params.zip args).filterMap fun x => x.1.key?.map (·, x.2)).reverse := by
  unfold instantiate
  dsimp only
  congr 2
  funext x
  unfold OpParam.key?
  cases x.1.matcher <;> rfl

/-- The operands of a call are found by the keys of parameters. -/
theorem keys_sublist (ps : List OpParam) (args : List Operand) :
    (((ps.zip args).filterMap fun x => x.1.key?.map (·, x.2)).map Prod.fst).Sublist
      (ps.filterMap OpParam.key?) := by
  induction ps generalizing args with
  | nil => simp
  | cons p ps ih =>
    cases args with
    | nil => simp
    | cons o args =>
      simp only [List.zip_cons_cons, List.filterMap_cons]
      cases p.key? with
      | none => exact ih args
      | some key => exact (ih args).cons_cons key

/-- Among different keys, the first entry for a key is the only one. -/
theorem lookup_eq_some_iff_mem {β : Type} {l : List (String × β)} (h : (l.map Prod.fst).Nodup)
    {key : String} {b : β} : l.lookup key = some b ↔ (key, b) ∈ l := by
  induction l with
  | nil => simp
  | cons x l ih =>
    obtain ⟨key', b'⟩ := x
    rw [List.map_cons, List.nodup_cons] at h
    rw [List.lookup_cons, List.mem_cons, Prod.mk.injEq]
    by_cases hkey : key = key'
    · subst hkey
      have hrest : (key, b) ∉ l := fun hmem => h.1 (List.mem_map.mpr ⟨_, hmem, rfl⟩)
      simp [hrest, eq_comm]
    · have hbeq : (key == key') = false := beq_eq_false_iff_ne.mpr hkey
      simp only [hbeq, ih h.2, hkey, false_and, false_or]

/-- The operand that an instance has for a name is the one of the call. -/
theorem lookup_instantiate (h : d.KeysDistinct) {o : Operand} :
    (d.instantiate args stem).lookup name = some o ↔ d.Binds args name o := by
  have hkeys : ((d.instantiate args stem).bound.map Prod.fst).Nodup := by
    rw [bound_instantiate, List.map_reverse]
    exact List.pairwise_reverse.mpr (((keys_sublist d.params args).nodup h).imp Ne.symm)
  rw [Instance.lookup, lookup_eq_some_iff_mem hkeys, bound_instantiate, List.mem_reverse,
    List.mem_filterMap]
  constructor
  · rintro ⟨⟨p, o'⟩, hmem, heq⟩
    obtain ⟨key, hkey, heq⟩ := Option.map_eq_some_iff.mp heq
    cases heq
    exact ⟨p, hmem, hkey⟩
  · rintro ⟨p, hmem, hkey⟩
    exact ⟨(p, o), hmem, by simp [hkey]⟩

theorem labelName_instantiate_of_hasLabel (h : d.HasLabel name) :
    (d.instantiate args stem).labelName name = stem ++ "_" ++ name := by
  obtain ⟨span, hmem⟩ := h
  have hlabel : (d.instantiate args stem).labels.contains name = true := by
    rw [List.contains_iff_mem]
    exact List.mem_filterMap.mpr ⟨_, hmem, rfl⟩
  rw [Instance.labelName, if_pos hlabel]
  rfl

theorem labelName_instantiate_of_not_hasLabel (h : ¬ d.HasLabel name) :
    (d.instantiate args stem).labelName name = name := by
  have hlabel : ¬ (d.instantiate args stem).labels.contains name = true := by
    rw [List.contains_iff_mem]
    intro hmem
    obtain ⟨st, hst, heq⟩ := List.mem_filterMap.mp hmem
    cases st with
    | label n span =>
      cases heq
      exact h ⟨span, hst⟩
    | _ => cases heq
  rw [Instance.labelName, if_neg hlabel]

end OpDecl

/-! ## Values of expressions -/

namespace Expr

variable (r : Resolver)

theorem toOption_eval_name (s : String) : ((name s).eval r).toOption = r.value? s := by
  unfold eval
  cases r.value? s <;> rfl

theorem toOption_eval_unary (op : UnaryOp) (e : Expr) :
    ((unary op e).eval r).toOption = (e.eval r).toOption.bind fun v => (op.apply v).toOption := by
  rw [eval]
  cases e.eval r <;> rfl

theorem toOption_eval_binary (op : BinaryOp) (e f : Expr) :
    ((binary op e f).eval r).toOption =
      (e.eval r).toOption.bind fun v =>
        (f.eval r).toOption.bind fun w => (op.apply v w).toOption := by
  rw [eval]
  cases e.eval r with
  | error err => rfl
  | ok v => cases f.eval r <;> rfl

end Expr

/-- An expression that an instance rewrites has the value that it has before, if
    names mean what they are rewritten to. -/
theorem Instance.toOption_eval_expr (x : Instance) {r r' : Resolver}
    (hnames : ∀ s, ((x.expr (.name s)).eval r).toOption = r'.value? s)
    (htypes : r'.layout? = r.layout?) (e : Expr) :
    ((x.expr e).eval r).toOption = (e.eval r').toOption := by
  induction e with
  | number n => rfl
  | missing => rfl
  | name s => rw [hnames, Expr.toOption_eval_name]
  | unary op e ih => rw [expr, Expr.toOption_eval_unary, Expr.toOption_eval_unary, ih]
  | binary op e f ihe ihf =>
    rw [expr, Expr.toOption_eval_binary, Expr.toOption_eval_binary, ihe, ihf]
  | sizeof t => simp only [expr, Expr.eval, Resolver.sizeOf_congr htypes]
  | offsetof t path => simp only [expr, Expr.eval, Resolver.pathOffset_congr htypes]

namespace OpDecl

variable {d : OpDecl} {args : List Operand} {stem name : String} {r r' : Resolver}

/-- An immediate stands as the caller wrote it in the place of its parameter. -/
theorem expr_instantiate_of_binds (h : d.KeysDistinct) {e : Expr} {span : Span}
    (hbinds : d.Binds args name (.imm e span)) :
    (d.instantiate args stem).expr (.name name) = e := by
  rw [Instance.expr, (lookup_instantiate h).mpr hbinds]

theorem expr_instantiate_of_hasLabel (h : d.KeysDistinct) (hlabel : d.HasLabel name)
    (hnone : ∀ o, ¬ d.Binds args name o) :
    (d.instantiate args stem).expr (.name name) = .name (stem ++ "_" ++ name) := by
  have hlookup : (d.instantiate args stem).lookup name = none :=
    Option.eq_none_iff_forall_ne_some.mpr fun o ho => hnone o ((lookup_instantiate h).mp ho)
  rw [Instance.expr, hlookup]
  exact congrArg Expr.name (labelName_instantiate_of_hasLabel hlabel)

theorem expr_instantiate_other (h : d.KeysDistinct)
    (himm : ∀ e span, ¬ d.Binds args name (.imm e span))
    (hlabel : d.HasLabel name → ∃ o, d.Binds args name o) :
    (d.instantiate args stem).expr (.name name) = .name name := by
  rw [Instance.expr]
  cases hlookup : (d.instantiate args stem).lookup name with
  | some o =>
    have hbinds := (lookup_instantiate h).mp hlookup
    cases o with
    | imm e span => exact absurd hbinds (himm e span)
    | _ => rfl
  | none =>
    refine congrArg Expr.name (labelName_instantiate_of_not_hasLabel fun hl => ?_)
    obtain ⟨o, ho⟩ := hlabel hl
    rw [(lookup_instantiate h).mpr ho] at hlookup
    cases hlookup

/-- Names mean what the instance makes of them. -/
theorem interprets_iff (h : d.KeysDistinct) : d.Interprets args stem r r' ↔
    (∀ name, (((d.instantiate args stem).expr (.name name)).eval r).toOption = r'.value? name) ∧
      r'.layout? = r.layout? := by
  constructor
  · intro hr
    refine ⟨fun name => ?_, hr.types⟩
    by_cases himm : ∃ e span, d.Binds args name (.imm e span)
    · obtain ⟨e, span, hbinds⟩ := himm
      rw [expr_instantiate_of_binds h hbinds, hr.param name e span hbinds]
    by_cases hlabel : d.HasLabel name ∧ ∀ o, ¬ d.Binds args name o
    · rw [expr_instantiate_of_hasLabel h hlabel.1 hlabel.2, hr.label name hlabel.1 hlabel.2,
        Expr.toOption_eval_name]
    · push Not at himm hlabel
      rw [expr_instantiate_other h himm hlabel, hr.other name himm hlabel, Expr.toOption_eval_name]
  · rintro ⟨hnames, htypes⟩
    refine ⟨fun name e span hbinds => ?_, fun name hlabel hnone => ?_,
      fun name himm hlabel => ?_, htypes⟩
    · rw [← hnames, expr_instantiate_of_binds h hbinds]
    · rw [← hnames, expr_instantiate_of_hasLabel h hlabel hnone, Expr.toOption_eval_name]
    · rw [← hnames, expr_instantiate_other h himm hlabel, Expr.toOption_eval_name]

/-- The substitution lemma.  There is a meaning of the names in a body for each
    call, and with it every expression of the body has the value, or fails to have
    one, that the caller gives to what the instance makes of it.  The names in an
    operand of the call mean what they mean to the caller, whatever parameters and
    labels the op has, for the operand goes in as it stands. -/
theorem eval_instantiate (d : OpDecl) (args : List Operand) (stem : String) (r : Resolver)
    (h : d.KeysDistinct) :
    (∃ r', d.Interprets args stem r r') ∧
    (∀ r', d.Interprets args stem r r' → ∀ e : Expr,
      (((d.instantiate args stem).expr e).eval r).toOption = (e.eval r').toOption) ∧
    ∀ name e span, d.Binds args name (.imm e span) →
      (d.instantiate args stem).expr (.name name) = e := by
  refine ⟨?_, fun r' hr e => ?_, fun name e span => expr_instantiate_of_binds h⟩
  · exact ⟨⟨_, r.layout?⟩, (interprets_iff h).mpr ⟨fun _ => rfl, rfl⟩⟩
  · obtain ⟨hnames, htypes⟩ := (interprets_iff h).mp hr
    exact Instance.toOption_eval_expr _ hnames htypes e

/-- A body with a parameter and a label, called with an operand that has names of
    both.  The parameter is written in another case. -/
theorem eval_instantiate_wait :
    ∃ r', OpDecl.Interprets
        { name := "wait", params := [{ name := "count", matcher := .imm16 }],
          body := [.label "again" {}] }
        [.imm (.binary .mul (.name "count") (.name "again")) {}] "wait_1"
        { value? := fun s => [("count", 6), ("again", 7), ("wait_1_again", 100)].lookup s
          layout? := fun _ => none } r' ∧
      ((Expr.binary .add (.name "COUNT") (.name "again")).eval r').toOption = some 142 := by
  obtain ⟨⟨r', hr⟩, heval, _⟩ := eval_instantiate
    { name := "wait", params := [{ name := "count", matcher := .imm16 }],
      body := [.label "again" {}] }
    [.imm (.binary .mul (.name "count") (.name "again")) {}] "wait_1"
    { value? := fun s => [("count", 6), ("again", 7), ("wait_1_again", 100)].lookup s
      layout? := fun _ => none } (List.pairwise_singleton _ _)
  exact ⟨r', hr, (heval r' hr _).symm.trans (by decide +kernel)⟩

end OpDecl

end Z80Backend
