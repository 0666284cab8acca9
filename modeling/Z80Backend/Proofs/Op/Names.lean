import Z80Backend.Op.Expansion
import Z80Backend.Proofs.Assembly.Names

/-! # Names in expansions

    An expansion writes no names of its own, labels apart: every name in it
    comes from the call, from the bodies of the ops, or is a renamed label of
    one of these bodies.  A label that is renamed in one place is renamed
    everywhere, and its definition is never left out of the expansion, so each
    renamed label that is used is also defined.

    * `Instance.Keeps`: substitution keeps a property that the names of the
      operands and the renamed labels have.
    * `Node.Named` is the account of an expanded body.
    * `Ops.named_expand`: every expansion is so. -/

namespace Z80Backend

/-! ## Names of statements -/

namespace Stmt

/-- The names in a statement that its code can wait for or define.  Conditions
    and the values of a case are read at once and leave none. -/
def names : Stmt → List String
  | instr i => i.names
  | label name _ => [name]
  | selectOpen selector _ _ => selector.names
  | call callee args _ => callee :: args.flatMap Operand.names
  | _ => []

/-- The labels that a statement defines. -/
def labels : Stmt → List String
  | label name _ => [name]
  | _ => []

end Stmt

/-- The names in the body of an op. -/
def OpDecl.names (d : OpDecl) : List String := d.body.flatMap Stmt.names

mutual

/-- The statements of an entry, in order. -/
def Node.stmts : Node → List Stmt
  | .stmt s => [s]
  | .nested _ body => Node.listStmts body

/-- The statements of several entries, in order. -/
def Node.listStmts : List Node → List Stmt
  | [] => []
  | n :: ns => n.stmts ++ Node.listStmts ns

end

namespace Node

/-- The names in an expanded body. -/
def names (ns : List Node) : List String := (listStmts ns).flatMap Stmt.names

/-- The labels that an expanded body defines. -/
def labels (ns : List Node) : List String := (listStmts ns).flatMap Stmt.labels

theorem listStmts_stmt (s : Stmt) (ns : List Node) :
    listStmts (.stmt s :: ns) = s :: listStmts ns := rfl

theorem listStmts_nested (op : OpUse) (body ns : List Node) :
    listStmts (.nested op body :: ns) = listStmts body ++ listStmts ns := rfl

@[simp] theorem names_nil : names [] = [] := rfl

@[simp] theorem names_stmt (s : Stmt) (ns : List Node) :
    names (.stmt s :: ns) = s.names ++ names ns := by
  rw [names, listStmts_stmt, List.flatMap_cons, names]

@[simp] theorem names_nested (op : OpUse) (body ns : List Node) :
    names (.nested op body :: ns) = names body ++ names ns := by
  rw [names, listStmts_nested, List.flatMap_append, names, names]

@[simp] theorem labels_nil : labels [] = [] := rfl

@[simp] theorem labels_stmt (s : Stmt) (ns : List Node) :
    labels (.stmt s :: ns) = s.labels ++ labels ns := by
  rw [labels, listStmts_stmt, List.flatMap_cons, labels]

@[simp] theorem labels_nested (op : OpUse) (body ns : List Node) :
    labels (.nested op body :: ns) = labels body ++ labels ns := by
  rw [labels, listStmts_nested, List.flatMap_append, labels, labels]

end Node

/-! ## Substitution -/

namespace Instance

variable {x : Instance} {P : String → Prop}

/-- The names in the bound operands and the renamed labels have a property. -/
structure Keeps (x : Instance) (P : String → Prop) : Prop where
  bound : ∀ b ∈ x.bound, ∀ y ∈ b.2.names, P y
  labels : ∀ l ∈ x.labels, P (x.stem ++ "_" ++ l)

namespace Keeps

theorem lookup (h : x.Keeps P) {n : String} {o : Operand} (ho : x.lookup n = some o) :
    ∀ y ∈ o.names, P y := by
  obtain ⟨before, after, hbound, _⟩ := List.lookup_eq_some_iff.mp ho
  exact h.bound (Text.lower n, o) (by simp [hbound])

theorem labelName (h : x.Keeps P) {n : String} (hn : P n) : P (x.labelName n) := by
  unfold Instance.labelName
  split
  · rename_i hmem
    exact h.labels n (by simpa using hmem)
  · exact hn

theorem expr (h : x.Keeps P) {e : Expr} (he : ∀ y ∈ e.names, P y) :
    ∀ y ∈ (x.expr e).names, P y := by
  induction e with
  | name s =>
    have hs : P s := he s List.mem_cons_self
    intro y hy
    rw [Instance.expr] at hy
    split at hy
    · rename_i e span hlookup
      exact h.lookup hlookup y hy
    · obtain rfl := List.mem_singleton.mp hy
      exact hs
    · obtain rfl := List.mem_singleton.mp hy
      exact h.labelName hs
  | unary op a ih => exact ih he
  | binary op a b iha ihb =>
    intro y hy
    rcases List.mem_append.mp hy with hy | hy
    · exact iha (fun z hz => he z (List.mem_append_left _ hz)) y hy
    · exact ihb (fun z hz => he z (List.mem_append_right _ hz)) y hy
  | number n | sizeof t | offsetof t path | missing => exact he

theorem subscriptReg (h : x.Keeps P) {reg : String} (hreg : P reg) : P (x.subscriptReg reg) := by
  unfold Instance.subscriptReg
  split
  · rename_i name span hlookup
    exact h.lookup hlookup name List.mem_cons_self
  · exact hreg

theorem subscript (h : x.Keeps P) {i : Subscript} (hi : ∀ y ∈ i.names, P y) :
    ∀ y ∈ (x.subscript i).names, P y := by
  cases i with
  | const e => exact h.expr hi
  | reg8 reg | reg16 reg =>
    intro y hy
    obtain rfl := List.mem_singleton.mp hy
    exact h.subscriptReg (hi reg List.mem_cons_self)
  | memIndexed reg d =>
    intro y hy
    rcases List.mem_cons.mp hy with rfl | hy
    · exact hi y List.mem_cons_self
    · exact h.expr (fun z hz => hi z (List.mem_cons_of_mem _ hz)) y hy
  | memHL | missing => exact hi

/-- The place that an operand denotes has the names of the operand. -/
theorem names_placeOf? {o : Operand} {p : Place} (h : placeOf? o = some p) :
    p.names = o.names := by
  cases o <;> cases h <;> rfl

theorem place (h : x.Keeps P) {p : Place} (hp : ∀ y ∈ p.names, P y) :
    ∀ y ∈ (x.place p).names, P y := by
  -- What the base and the rest of a place have, the whole place has.
  have happend : ∀ {ns ms : List String}, (∀ y ∈ ns, P y) → (∀ y ∈ ms, P y) →
      ∀ y ∈ ns ++ ms, P y := by
    intro ns ms hns hms y hy
    rcases List.mem_append.mp hy with hy | hy
    · exact hns y hy
    · exact hms y hy
  induction p with
  | name s =>
    intro y hy
    rw [Instance.place] at hy
    split at hy
    · rename_i p hp
      obtain ⟨o, hlookup, hplace⟩ := Option.bind_eq_some_iff.mp hp
      rw [names_placeOf? hplace] at hy
      exact h.lookup hlookup y hy
    · obtain rfl := List.mem_singleton.mp hy
      exact h.labelName (hp s List.mem_cons_self)
  | literal e => exact h.expr hp
  | field b f ih => exact ih hp
  | elem b i ih =>
    exact happend (ih fun y hy => hp y (List.mem_append_left _ hy))
      (h.subscript fun y hy => hp y (List.mem_append_right _ hy))
  | elemAt b q ihb ihq =>
    exact happend (ihb fun y hy => hp y (List.mem_append_left _ hy))
      (ihq fun y hy => hp y (List.mem_append_right _ hy))
  | add b off ih | sub b off ih =>
    exact happend (ih fun y hy => hp y (List.mem_append_left _ hy))
      (h.expr fun y hy => hp y (List.mem_append_right _ hy))
  | missing => exact hp

/-- An operand that is just a parameter becomes the bound one. -/
theorem getD (h : x.Keeps P) {n : String} {o : Operand} (ho : ∀ y ∈ o.names, P y) :
    ∀ y ∈ ((x.lookup n).getD o).names, P y := by
  cases hlookup : x.lookup n with
  | none => exact ho
  | some o' => exact h.lookup hlookup

theorem operand (h : x.Keeps P) {o : Operand} (ho : ∀ y ∈ o.names, P y) :
    ∀ y ∈ (x.operand o).names, P y := by
  unfold Instance.operand
  split
  · exact h.getD ho
  · exact h.getD (h.expr ho)
  · exact h.expr ho
  · exact h.place ho
  · exact h.getD (h.place ho)
  · exact h.place ho
  · exact h.expr ho
  · exact ho
  · exact ho

theorem operands (h : x.Keeps P) {os : List Operand} (hos : ∀ y ∈ os.flatMap Operand.names, P y) :
    ∀ y ∈ (os.map x.operand).flatMap Operand.names, P y := by
  intro y hy
  obtain ⟨o', ho', hy⟩ := List.mem_flatMap.mp hy
  obtain ⟨o, ho, rfl⟩ := List.mem_map.mp ho'
  exact h.operand (fun z hz => hos z (List.mem_flatMap.mpr ⟨o, ho, hz⟩)) y hy

/-- Substitution keeps a property of all names. -/
theorem stmt (h : x.Keeps P) {s : Stmt} (hs : ∀ y ∈ s.names, P y) :
    ∀ y ∈ (x.stmt s).names, P y := by
  cases s with
  | instr i => exact h.operands hs
  | label name span =>
    intro y hy
    obtain rfl := List.mem_singleton.mp hy
    exact h.labelName (hs name List.mem_cons_self)
  | selectOpen o malformed span => exact h.operand hs
  | call callee args span =>
    intro y hy
    rcases List.mem_cons.mp hy with rfl | hy
    · exact hs y List.mem_cons_self
    · exact h.operands (fun z hz => hs z (List.mem_cons_of_mem _ hz)) y hy
  | _ => exact hs

end Keeps

end Instance

/-! ## Expansion -/

/-- Every name in an expanded body has a property or is a label that the body
    defines, and these labels are as they should be. -/
structure Node.Named (P L : String → Prop) (ns : List Node) : Prop where
  names : ∀ y ∈ Node.names ns, P y ∨ y ∈ Node.labels ns
  labels : ∀ y ∈ Node.labels ns, L y

namespace Node.Named

variable {P L : String → Prop} {ns body : List Node}

theorem nil : Named P L [] := ⟨by simp, by simp⟩

theorem stmt {s : Stmt} (hs : ∀ y ∈ s.names, P y) (hl : ∀ y ∈ s.labels, L y)
    (h : Named P L ns) : Named P L (.stmt s :: ns) where
  names y hy := by
    rw [names_stmt, List.mem_append] at hy
    rw [labels_stmt, List.mem_append]
    rcases hy with hy | hy
    · exact .inl (hs y hy)
    · exact (h.names y hy).imp_right .inr
  labels y hy := by
    rw [labels_stmt, List.mem_append] at hy
    rcases hy with hy | hy
    · exact hl y hy
    · exact h.labels y hy

theorem nested {op : OpUse} (hbody : Named P L body) (h : Named P L ns) :
    Named P L (.nested op body :: ns) where
  names y hy := by
    rw [names_nested, List.mem_append] at hy
    rw [labels_nested, List.mem_append]
    rcases hy with hy | hy
    · exact (hbody.names y hy).imp_right .inl
    · exact (h.names y hy).imp_right .inr
  labels y hy := by
    rw [labels_nested, List.mem_append] at hy
    rcases hy with hy | hy
    · exact hbody.labels y hy
    · exact h.labels y hy

end Node.Named

namespace Ops

/-- A renamed label of an expansion. -/
def IsRenamed (ops : Ops) (y : String) : Prop := ∃ k l, y = ops.stem k ++ "_" ++ l

/-- No label of a body is left out of its expansion. -/
theorem mem_labels_expandBody (ops : Ops) (pool : List OpDecl) (chain : List String) (span : Span)
    (name : String) (x : Instance) {body : List Stmt} (n : Int) {l : String} {at' : Span}
    (h : .label l at' ∈ body) :
    x.labelName l ∈ Node.labels (ops.expandBody pool chain span name x body n).1 := by
  induction body generalizing n with
  | nil => cases h
  | cons s ss ih =>
    rw [expandBody]
    rcases List.mem_cons.mp h with rfl | h
    · simp [Instance.stmt, Stmt.labels]
    · split
      · split
        · dsimp only
          split
          · rw [Node.labels_nested]
            exact List.mem_append_right _ (ih _ h)
          · exact ih _ h
        · dsimp only
          split
          · exact ih _ h
          · rw [Node.labels_stmt]
            exact List.mem_append_right _ (ih _ h)
      · dsimp only
        rw [Node.labels_stmt]
        exact List.mem_append_right _ (ih _ h)

/-- The labels of an instance are those of the body. -/
theorem mem_labels_instantiate {d : OpDecl} {args : List Operand} {stem l : String} :
    l ∈ (d.instantiate args stem).labels ↔ ∃ at', .label l at' ∈ d.body := by
  unfold OpDecl.instantiate
  rw [List.mem_filterMap]
  constructor
  · rintro ⟨s, hs, hl⟩
    split at hl
    · rename_i name at'
      cases hl
      exact ⟨at', hs⟩
    · cases hl
  · rintro ⟨at', hs⟩
    exact ⟨_, hs, rfl⟩

/-- The operands of a call are bound as they stand. -/
theorem mem_of_mem_bound {d : OpDecl} {args : List Operand} {stem : String} {b : String × Operand}
    (h : b ∈ (d.instantiate args stem).bound) : b.2 ∈ args := by
  unfold OpDecl.instantiate at h
  rw [List.mem_reverse, List.mem_filterMap] at h
  obtain ⟨⟨p, a⟩, hmem, hb⟩ := h
  dsimp only at hb
  split at hb
  · cases hb
  · cases hb
    exact (List.of_mem_zip hmem).2

/-- The names in the expansion of a body come from the body and the operands, as
    long as those in the expansions of the calls inside do. -/
theorem named_expandBody {ops : Ops} {pool : List OpDecl} {chain : List String} {span : Span}
    {P : String → Prop}
    (hcalls : ∀ (i : Instruction) (n : Int) (e : Expansion), (∀ y ∈ i.names, P y) →
      (ops.expandCall pool chain span i n).1 = some e → Node.Named P ops.IsRenamed e.body)
    (name : String) {x : Instance} (hx : x.Keeps P) (hstem : ∃ k, x.stem = ops.stem k)
    {body : List Stmt} (n : Int) (hbody : ∀ s ∈ body, ∀ y ∈ s.names, P y)
    (hlabels : ∀ l at', .label l at' ∈ body → l ∈ x.labels) :
    Node.Named P ops.IsRenamed (ops.expandBody pool chain span name x body n).1 := by
  induction body generalizing n with
  | nil =>
    rw [expandBody]
    exact .nil
  | cons s ss ih =>
    have hs := hx.stmt (hbody s List.mem_cons_self)
    have hrest := fun n' => ih n' (fun t ht => hbody t (List.mem_cons_of_mem _ ht))
      (fun l at' hl => hlabels l at' (List.mem_cons_of_mem _ hl))
    rw [expandBody]
    split
    · rename_i i hi
      rw [hi] at hs
      split
      · dsimp only
        split
        · rename_i e he
          exact .nested (hcalls i n e hs he) (hrest _)
        · exact hrest _
      · dsimp only
        split
        · exact hrest _
        · exact .stmt hs (by simp [Stmt.labels]) (hrest _)
    · refine .stmt hs ?_ (hrest _)
      -- Only a label statement defines a label, and the instance renames it.
      cases s with
      | label l at' =>
        have hl : l ∈ x.labels := hlabels l at' List.mem_cons_self
        obtain ⟨k, hk⟩ := hstem
        simp only [Instance.stmt, Stmt.labels, Instance.labelName, List.mem_singleton,
          forall_eq, List.contains_iff_mem, hl, if_true]
        exact ⟨k, l, by rw [hk]⟩
      | _ => simp [Instance.stmt, Stmt.labels]

/-- The names in the expansion of a call come from the call and from the bodies
    of the ops.  Each level takes an op out of the pool, so the levels end. -/
theorem named_expandCall (ops : Ops) (pool : List OpDecl) (chain : List String) (span : Span)
    (call : Instruction) (n : Int) {P : String → Prop} (hpool : ∀ d ∈ pool, ∀ y ∈ d.names, P y)
    (hcall : ∀ y ∈ call.names, P y) {e : Expansion}
    (h : (ops.expandCall pool chain span call n).1 = some e) :
    Node.Named P ops.IsRenamed e.body := by
  rw [expandCall] at h
  split at h
  · cases h
  split at h
  · cases h
  rename_i d hd
  cases h
  have hmem : d ∈ pool := (List.mem_filter.mp (mem_of_resolve hd)).1
  -- Inside the body the renamed labels count as known; they are all defined there.
  let Q : String → Prop := fun y => P y ∨ ∃ l at', .label l at' ∈ d.body ∧
    y = ops.stem (n + 1) ++ "_" ++ l
  have hkeeps : (d.instantiate call.operands (ops.stem (n + 1))).Keeps Q := by
    refine ⟨fun b hb y hy => .inl ?_, fun l hl => .inr ?_⟩
    · exact hcall y (List.mem_flatMap.mpr ⟨b.2, mem_of_mem_bound hb, hy⟩)
    · obtain ⟨at', hl⟩ := mem_labels_instantiate.mp hl
      exact ⟨l, at', hl, rfl⟩
  have hnamed := named_expandBody
    (fun i k e hi he => named_expandCall ops (without pool (Text.lower call.head))
      (chain ++ [Text.lower call.head]) span i k
      (fun d' hd' y hy => .inl (hpool d' (List.mem_filter.mp hd').1 y hy)) hi he)
    (Text.lower call.head) hkeeps ⟨n + 1, rfl⟩ (n + 1)
    (fun s hs y hy => .inl (hpool d hmem y (List.mem_flatMap.mpr ⟨s, hs, hy⟩)))
    (fun l at' hl => mem_labels_instantiate.mpr ⟨at', hl⟩)
  refine ⟨fun y hy => ?_, hnamed.labels⟩
  rcases hnamed.names y hy with (hP | ⟨l, at', hl, rfl⟩) | hlabel
  · exact .inl hP
  · right
    have hrenamed := mem_labels_expandBody ops (without pool (Text.lower call.head))
      (chain ++ [Text.lower call.head]) span (Text.lower call.head)
      (d.instantiate call.operands (ops.stem (n + 1))) (n + 1) hl
    have hlabels : l ∈ (d.instantiate call.operands (ops.stem (n + 1))).labels :=
      mem_labels_instantiate.mpr ⟨at', hl⟩
    rw [Instance.labelName, if_pos (by simpa using hlabels)] at hrenamed
    exact hrenamed
  · exact .inr hlabel
termination_by pool.length
decreasing_by exact length_without_lt (by assumption)

/-- The names in an expansion come from the call and from the bodies of the
    ops, and each renamed label is defined in it. -/
theorem named_expand {ops : Ops} {call : Instruction} {n : Int} {P : String → Prop}
    (hops : ∀ d ∈ ops.decls, ∀ y ∈ d.names, P y) (hcall : ∀ y ∈ call.names, P y) {e : Expansion}
    (h : (ops.expand call n).1 = some e) : Node.Named P ops.IsRenamed e.body :=
  named_expandCall ops ops.decls [] call.span call n hops hcall h

end Ops

end Z80Backend
