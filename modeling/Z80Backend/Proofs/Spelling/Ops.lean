import Z80Backend.Proofs.Function.Runs
import Z80Backend.Proofs.Op.Stepwise
import Z80Backend.Proofs.Spelling.Storage

/-! # Op calls of a spelling

    An op call and its caseless form mean the same overload, and the one
    expands to the caseless form of what the other expands to.

    A register that is bound to a parameter is put into addresses as it was
    written, so its spelling goes on into the expansion.  There it is free as
    long as the word is the name of a register.  A condition is not, and
    `OpDecl.KeepsConditions` keeps the parameters for conditions out of
    addresses.

    * `Instance.stmt_caseless`: substitution and spelling commute.
    * `Ops.resolve_caseless`: the overload of a call.
    * `Ops.mirrors_expand`: the expansion of a call. -/

namespace Z80Backend

/-! ## Names in addresses -/

/-- The names at which a place starts, those inside subscripts included. -/
def Place.addressNames : Place → List String
  | name s => [s]
  | field b _ | elem b _ | add b _ | sub b _ => b.addressNames
  | elemAt b p => b.addressNames ++ p.addressNames
  | literal _ | missing => []

/-- The names at which the addresses in an operand start.  A bare name is an
    operand of its own. -/
def Operand.addressNames : Operand → List String
  | mem p _ => p.addressNames
  | place (.name _) _ => []
  | place p _ => p.addressNames
  | _ => []

/-- The names at which the addresses in a statement start. -/
def Stmt.addressNames : Stmt → List String
  | instr i => i.operands.flatMap Operand.addressNames
  | selectOpen selector _ _ => selector.addressNames
  | call _ args _ => args.flatMap Operand.addressNames
  | _ => []

/-- No parameter for a condition stands in an address. -/
def OpDecl.KeepsConditions (d : OpDecl) : Prop :=
  ∀ p ∈ d.params, p.matcher = .cc →
    ∀ st ∈ d.body, ∀ n ∈ st.addressNames, Text.lower n ≠ Text.lower p.name

/-- No parameter or label of the op is named like a register. -/
def OpDecl.SparesRegisters (d : OpDecl) : Prop :=
  (∀ p ∈ d.params, isRegisterName p.name = false) ∧
    ∀ st ∈ d.body, ∀ l ∈ st.labels, isRegisterName l = false

/-! ## Names of registers -/

/-- A word that is found among names of registers is one. -/
theorem isRegisterName_of_find? {α : Type} (text : α → String) {rs : List α}
    (hrs : ∀ x ∈ rs, text x ∈ registerNames) {s : String}
    (h : (rs.find? fun x => text x == Text.lower s).isSome = true) : isRegisterName s = true := by
  obtain ⟨x, hx⟩ := Option.isSome_iff_exists.mp h
  have htext := List.find?_some hx
  have hname : text x = Text.lower s := by simpa using htext
  have hmem := hrs x (List.mem_of_find?_eq_some hx)
  rw [hname] at hmem
  simpa [isRegisterName] using hmem

/-! ## Instances -/

namespace Instance

variable {x : Instance}

/-- The instance with its operands in lower case. -/
def caseless (x : Instance) : Instance :=
  { x with bound := x.bound.map fun b => (b.1, b.2.caseless) }

@[simp] theorem lookup_caseless (n : String) :
    x.caseless.lookup n = (x.lookup n).map Operand.caseless := by
  obtain ⟨bound, labels, stem⟩ := x
  simp only [lookup, caseless]
  induction bound with
  | nil => rfl
  | cons b bs ih =>
    rw [List.map_cons, List.lookup_cons, List.lookup_cons]
    split
    · rfl
    · exact ih

theorem lookup_congr {n n' : String} (h : Text.lower n = Text.lower n') :
    x.lookup n = x.lookup n' := by
  unfold lookup
  rw [h]

@[simp] theorem lookup_asciiLower (n : String) : x.lookup (Text.asciiLower n) = x.lookup n :=
  lookup_congr (Text.lower_asciiLower n)

@[simp] theorem lookup_addressWord (n : String) : x.lookup (addressWord n) = x.lookup n :=
  lookup_congr (lower_addressWord n)

@[simp] theorem labelName_caseless (n : String) : x.caseless.labelName n = x.labelName n := rfl

theorem expr_caseless (e : Expr) : x.caseless.expr e = x.expr e := by
  induction e with
  | name s =>
    simp only [expr, lookup_caseless, labelName_caseless]
    cases x.lookup s with
    | none => rfl
    | some o => cases o <;> rfl
  | unary op e ih => simp only [expr, ih]
  | binary op l r ihl ihr => simp only [expr, ihl, ihr]
  | _ => rfl

theorem cond_caseless (c : String) :
    x.caseless.cond (Text.asciiLower c) = Text.asciiLower (x.cond c) := by
  simp only [cond, lookup_caseless, lookup_asciiLower]
  cases x.lookup c with
  | none => rfl
  | some o => cases o <;> rfl

theorem subscriptReg_caseless (reg : String) :
    x.caseless.subscriptReg (Text.asciiLower reg) = Text.asciiLower (x.subscriptReg reg) := by
  simp only [subscriptReg, lookup_caseless, lookup_asciiLower]
  cases x.lookup reg with
  | none => rfl
  | some o => cases o <;> rfl

theorem subscript_caseless (i : Subscript) :
    x.caseless.subscript i.caseless = (x.subscript i).caseless := by
  cases i with
  | const e => simp only [Subscript.caseless, subscript, expr_caseless]
  | reg8 reg => simp only [Subscript.caseless, subscript, subscriptReg_caseless]
  | reg16 reg => simp only [Subscript.caseless, subscript, subscriptReg_caseless]
  | memIndexed reg d => simp only [Subscript.caseless, subscript, expr_caseless]
  | memHL => rfl
  | missing => rfl

/-- No label of the instance is named like a register, before and after it is
    renamed. -/
structure SparesRegisters (x : Instance) : Prop where
  labels : ∀ l ∈ x.labels, isRegisterName l = false
  stem : ∀ l, isRegisterName (x.stem ++ "_" ++ l) = false

/-- Whatever the names stand for, if it is written like a register then it is
    one. -/
def Binds (x : Instance) (names : List String) : Prop :=
  ∀ n ∈ names, ∀ name span, x.lookup n = some (.reg name span) → isRegisterName name = true

theorem Binds.append_left {ns ms : List String} (h : x.Binds (ns ++ ms)) : x.Binds ns :=
  fun n hn => h n (List.mem_append_left _ hn)

theorem Binds.append_right {ns ms : List String} (h : x.Binds (ns ++ ms)) : x.Binds ms :=
  fun n hn => h n (List.mem_append_right _ hn)

theorem Binds.of_flatMap {os : List Operand} (h : x.Binds (os.flatMap Operand.addressNames))
    {o : Operand} (ho : o ∈ os) : x.Binds o.addressNames :=
  fun n hn => h n (List.mem_flatMap.mpr ⟨o, ho, hn⟩)

/-- A name in an address keeps its spelling through renaming. -/
theorem addressWord_labelName (hx : x.SparesRegisters) (s : String) :
    x.labelName (addressWord s) = addressWord (x.labelName s) := by
  unfold labelName
  cases hs : isRegisterName s with
  | false =>
    rw [addressWord_of_false hs]
    split
    · rw [addressWord_of_false (hx.stem s)]
    · rw [addressWord_of_false hs]
  | true =>
    have hnot : ∀ w, isRegisterName w = true → ¬ x.labels.contains w = true := by
      intro w hw hmem
      have hlabel := hx.labels w (by simpa using hmem)
      rw [hw] at hlabel
      cases hlabel
    rw [if_neg (hnot s hs), if_neg (hnot _ (by simpa using hs))]

theorem place_name_caseless (hx : x.SparesRegisters) {s : String} (hs : x.Binds [s]) :
    x.caseless.place (Place.caseless (.name s)) = (x.place (.name s)).caseless := by
  simp only [Place.caseless, place, lookup_caseless, lookup_addressWord, labelName_caseless]
  cases hlookup : x.lookup s with
  | none => exact congrArg Place.name (addressWord_labelName hx s)
  | some o =>
    cases o with
    | reg name span =>
      have hreg := hs s List.mem_cons_self name span hlookup
      exact congrArg Place.name (addressWord_of_true hreg).symm
    | imm e span | mem p span | place p span => rfl
    | portC span | port e span | missing =>
      exact congrArg Place.name (addressWord_labelName hx s)

/-- Substitution in a place commutes with spelling. -/
theorem place_caseless (hx : x.SparesRegisters) {p : Place} (hp : x.Binds p.addressNames) :
    x.caseless.place p.caseless = (x.place p).caseless := by
  induction p with
  | name s => exact place_name_caseless hx hp
  | literal e => exact congrArg Place.literal (expr_caseless e)
  | field b f ih => exact congrArg (Place.field · f) (ih hp)
  | elem b i ih => exact congrArg₂ Place.elem (ih hp) (subscript_caseless i)
  | elemAt b p ihb ihp =>
    exact congrArg₂ Place.elemAt (ihb hp.append_left) (ihp hp.append_right)
  | add b off ih => exact congrArg₂ Place.add (ih hp) (expr_caseless off)
  | sub b off ih => exact congrArg₂ Place.sub (ih hp) (expr_caseless off)
  | missing => rfl

/-- A parameter that is an operand of its own becomes the bound operand. -/
theorem getD_caseless (n : String) {o o' : Operand} (h : o' = o.caseless) :
    ((x.lookup n).map Operand.caseless).getD o' = ((x.lookup n).getD o).caseless := by
  cases x.lookup n with
  | none => exact h
  | some b => rfl

theorem operand_caseless (hx : x.SparesRegisters) {o : Operand} (ho : x.Binds o.addressNames) :
    x.caseless.operand o.caseless = (x.operand o).caseless := by
  cases o with
  | reg name span =>
    simp only [Operand.caseless, operand, lookup_caseless, lookup_asciiLower]
    exact getD_caseless name rfl
  | imm e span =>
    cases e with
    | name n =>
      simp only [Operand.caseless, operand, lookup_caseless, expr_caseless]
      exact getD_caseless n rfl
    | _ => exact congrArg (Operand.imm · span) (expr_caseless _)
  | mem p span => exact congrArg (Operand.mem · span) (place_caseless hx ho)
  | place p span =>
    cases p with
    | name n =>
      simp only [Operand.caseless, Place.caseless, operand, place, lookup_caseless,
        lookup_addressWord, labelName_caseless, addressWord_labelName hx]
      cases x.lookup n with
      | some o => rfl
      | none => rfl
    | _ => exact congrArg (Operand.place · span) (place_caseless hx ho)
  | port e span => exact congrArg (Operand.port · span) (expr_caseless e)
  | portC span => rfl
  | missing => rfl

theorem operands_caseless (hx : x.SparesRegisters) {os : List Operand}
    (hos : x.Binds (os.flatMap Operand.addressNames)) :
    (os.map (·.caseless)).map x.caseless.operand = (os.map x.operand).map (·.caseless) := by
  rw [List.map_map, List.map_map]
  exact List.map_congr_left fun o ho => operand_caseless hx (hos.of_flatMap ho)

/-- Substitution in a statement commutes with spelling. -/
theorem stmt_caseless (hx : x.SparesRegisters) {st : Stmt} (hst : x.Binds st.addressNames) :
    x.caseless.stmt st.caseless = (x.stmt st).caseless := by
  cases st with
  | instr i =>
    simp only [Stmt.caseless, stmt, instruction, Instruction.caseless, operands_caseless hx hst]
  | label name span => rfl
  | ifOpen c malformed span => exact congrArg (Stmt.ifOpen · malformed span) (cond_caseless c)
  | whileOpen c malformed span =>
    exact congrArg (Stmt.whileOpen · malformed span) (cond_caseless c)
  | untilClose c span => exact congrArg (Stmt.untilClose · span) (cond_caseless c)
  | selectOpen o malformed span =>
    exact congrArg (Stmt.selectOpen · malformed span) (operand_caseless hx hst)
  | caseArm vs span =>
    exact congrArg (Stmt.caseArm · span) (List.map_congr_left fun e _ => expr_caseless e)
  | call f args span => exact congrArg (Stmt.call f · span) (operands_caseless hx hst)
  | elseArm span | endBlock span | repeatOpen malformed span => rfl

end Instance

/-! ## Overloads -/

/-- What the expansion of ops depends on leaves the names of registers alone. -/
structure Ops.SparesRegisters (ops : Ops) : Prop where
  value : ops.resolver.SparesRegisters
  width : ∀ p, ops.width?.bind (· p.caseless) = ops.width?.bind (· p)
  stem : ∀ n l, isRegisterName (ops.stem n ++ "_" ++ l) = false
  names : ∀ d ∈ ops.decls, d.SparesRegisters
  conditions : ∀ d ∈ ops.decls, d.KeepsConditions

namespace Ops

variable {ops : Ops}

/-- The ops with their bodies in lower case. -/
def caseless (ops : Ops) : Ops := { ops with decls := ops.decls.map (·.caseless) }

theorem accepts_caseless (hops : ops.SparesRegisters) (m : Matcher) (o : Operand) :
    ops.accepts m o.caseless = ops.accepts m o := by
  have hword : o.caseless.word = o.word := by
    cases o with
    | reg name span => exact Text.lower_asciiLower name
    | _ => rfl
  have hreg : o.caseless.regName? = o.regName? := by
    cases o with
    | reg name span => exact congrArg some (Text.lower_asciiLower name)
    | _ => rfl
  have himm : ∀ lo hi symbolic,
      ops.acceptsImm lo hi symbolic o.caseless = ops.acceptsImm lo hi symbolic o := by
    intro lo hi symbolic
    cases o <;> rfl
  have hmem : ∀ width, ops.acceptsMem width o.caseless = ops.acceptsMem width o := by
    intro width
    cases o with
    | mem p span => simp only [Operand.caseless, acceptsMem, hops.width]
    | _ => rfl
  cases m with
  | ea => cases o <;> rfl
  | _ => simp only [accepts, hword, hreg, himm, hmem]

theorem acceptsAll_caseless (hops : ops.SparesRegisters) (ps : List OpParam) (os : List Operand) :
    ops.caseless.acceptsAll ps (os.map (·.caseless)) = ops.acceptsAll ps os := by
  induction ps generalizing os with
  | nil => cases os <;> rfl
  | cons p ps ih =>
    cases os with
    | nil => rfl
    | cons o os =>
      have hself : ops.caseless.accepts p.matcher o.caseless =
          ops.accepts p.matcher o.caseless := rfl
      simp only [List.map_cons, acceptsAll, hself, accepts_caseless hops, ih]

theorem overloadsIn_caseless (pool : List OpDecl) (name : String) :
    overloadsIn (pool.map (·.caseless)) name = (overloadsIn pool name).map (·.caseless) := by
  unfold overloadsIn
  rw [List.filter_map]
  rfl

theorem without_caseless (pool : List OpDecl) (name : String) :
    without (pool.map (·.caseless)) name = (without pool name).map (·.caseless) := by
  unfold without
  rw [List.filter_map]
  rfl

theorem isOp_asciiLower (name : String) : ops.isOp (Text.asciiLower name) = ops.isOp name := by
  unfold isOp overloads
  rw [Text.lower_asciiLower]

theorem isOp_caseless (name : String) : ops.caseless.isOp name = ops.isOp name := by
  unfold isOp overloads caseless
  rw [overloadsIn_caseless, List.isEmpty_map]

theorem mostSpecific?_caseless (ds : List OpDecl) :
    OpDecl.mostSpecific? (ds.map (·.caseless)) =
      (OpDecl.mostSpecific? ds).map (·.caseless) := by
  unfold OpDecl.mostSpecific?
  rw [List.zipIdx_map, List.find?_map, Option.map_map, Option.map_map]
  simp only [List.all_map]
  rfl

/-- A call in any spelling is meant for the same overload. -/
theorem resolve_caseless (hops : ops.SparesRegisters) (pool : List OpDecl) (call : Instruction) :
    (ops.caseless.resolve (pool.map (·.caseless)) call.caseless).toOption =
      (ops.resolve pool call).toOption.map (·.caseless) := by
  have hfilter : ∀ (f : OpDecl → Bool) (ds : List OpDecl), (∀ d, f d.caseless = f d) →
      (ds.map (·.caseless)).filter f = (ds.filter f).map (·.caseless) := by
    intro f ds hf
    rw [List.filter_map]
    exact congrArg _ (List.filter_congr fun d _ => hf d)
  simp only [resolve, Instruction.lower_head_caseless, Instruction.operands_caseless,
    overloadsIn_caseless, List.length_map, acceptsAll_caseless hops]
  rw [hfilter _ _ fun _ => rfl, hfilter _ _ fun _ => rfl, List.isEmpty_map, List.isEmpty_map,
    mostSpecific?_caseless]
  split
  · rfl
  split
  · rfl
  cases OpDecl.mostSpecific? _ <;> rfl

theorem acceptsAll_of_resolve {pool : List OpDecl} {call : Instruction} {d : OpDecl}
    (h : ops.resolve pool call = .ok d) : ops.acceptsAll d.params call.operands = true := by
  simp only [resolve] at h
  split at h
  · cases h
  split at h
  · cases h
  split at h
  · rename_i hbest
    cases h
    exact (List.mem_filter.mp (OpDecl.mem_of_mostSpecific? hbest)).2
  · cases h

theorem accepts_of_mem_zip {ps : List OpParam} {os : List Operand}
    (h : ops.acceptsAll ps os = true) {p : OpParam} {o : Operand} (hmem : (p, o) ∈ ps.zip os) :
    ops.accepts p.matcher o = true := by
  induction ps generalizing os with
  | nil => cases hmem
  | cons q ps ih =>
    cases os with
    | nil => cases hmem
    | cons o' os =>
      rw [acceptsAll, Bool.and_eq_true] at h
      rcases List.mem_cons.mp hmem with heq | hmem
      · cases heq
        exact h.1
      · exact ih h.2 hmem

/-- A register or condition that a parameter for registers accepts is a
    register. -/
theorem isRegisterName_of_accepts {m : Matcher} {name : String} {span : Span}
    (h : ops.accepts m (.reg name span) = true) (htoken : ∀ word, m ≠ .token word)
    (hcc : m ≠ .cc) : isRegisterName name = true := by
  cases m with
  | token word => exact absurd rfl (htoken word)
  | cc => exact absurd rfl hcc
  | reg8 => exact isRegisterName_of_find? Reg8.text (by decide) h
  | reg16 => exact isRegisterName_of_find? Pair.text (by decide) h
  | idx16 => exact isRegisterName_of_find? IndexReg.text (by decide) h
  | imm8 | imm16 | mem8 | mem16 | ea | unknown => cases h

end Ops

/-! ## Instances of overloads -/

theorem OpDecl.instantiate_caseless (d : OpDecl) (args : List Operand) (stem : String) :
    d.caseless.instantiate (args.map (·.caseless)) stem = (d.instantiate args stem).caseless := by
  unfold instantiate Instance.caseless
  rw [Instance.mk.injEq]
  refine ⟨?_, ?_, rfl⟩
  · rw [List.map_reverse, List.map_filterMap, OpDecl.caseless, List.zip_map_right,
      List.filterMap_map]
    congr 2
    funext x
    obtain ⟨p, a⟩ := x
    simp only [Function.comp_apply, Prod.map_apply, id_eq]
    cases p.matcher <;> rfl
  · -- a label keeps its spelling
    rw [OpDecl.caseless, List.filterMap_map]
    congr 1
    funext st
    cases st <;> rfl

namespace Ops

variable {ops : Ops}

/-- The operands of a resolved call put only registers into addresses. -/
theorem binds_of_resolve (hops : ops.SparesRegisters) {pool : List OpDecl}
    (hpool : ∀ d ∈ pool, d ∈ ops.decls) {call : Instruction} {d : OpDecl}
    (h : ops.resolve pool call = .ok d) (stem : String) {st : Stmt} (hst : st ∈ d.body) :
    (d.instantiate call.operands stem).Binds st.addressNames := by
  intro n hn name span hlookup
  have hd : d ∈ ops.decls := hpool d (List.mem_filter.mp (mem_of_resolve h)).1
  obtain ⟨before, after, hbound, _⟩ := List.lookup_eq_some_iff.mp hlookup
  have hmem : (Text.lower n, Operand.reg name span) ∈ (d.instantiate call.operands stem).bound := by
    rw [hbound]
    simp
  unfold OpDecl.instantiate at hmem
  rw [List.mem_reverse, List.mem_filterMap] at hmem
  obtain ⟨⟨p, a⟩, hzip, hentry⟩ := hmem
  have haccepts := accepts_of_mem_zip (acceptsAll_of_resolve h) hzip
  dsimp only at hentry
  split at hentry
  · cases hentry
  · rename_i htoken
    rw [Option.some.injEq, Prod.mk.injEq] at hentry
    obtain ⟨hname, rfl⟩ := hentry
    refine isRegisterName_of_accepts haccepts htoken fun hcc => ?_
    exact hops.conditions d hd p (List.of_mem_zip hzip).1 hcc st hst n hn hname.symm

theorem sparesRegisters_instantiate (hops : ops.SparesRegisters) {d : OpDecl}
    (hd : d ∈ ops.decls) (args : List Operand) (n : Int) :
    (d.instantiate args (ops.stem n)).SparesRegisters where
  labels l hl := by
    obtain ⟨span, hst⟩ := mem_labels_instantiate.mp hl
    exact (hops.names d hd).2 _ hst l List.mem_cons_self
  stem l := hops.stem n l

end Ops

/-! ## Expansion -/

theorem Node.mapList_append (g : Stmt → Stmt) (ns ms : List Node) :
    mapList g (ns ++ ms) = mapList g ns ++ mapList g ms := by
  induction ns with
  | nil => simp [mapList]
  | cons n ns ih => simp [mapList, ih]

namespace Ops

variable {ops : Ops} {pool : List OpDecl} {chain : List String} {span : Span}

/-- The second expansion is the caseless form of the first, with as many errors
    and the same label numbers. -/
structure Mirrors (x y : List Node × List ExpansionError × Int) : Prop where
  nodes : y.1 = Node.mapList Stmt.caseless x.1
  errors : y.2.1.length = x.2.1.length
  counter : y.2.2 = x.2.2

theorem isSome_invalid? (ops : Ops) (name : String) (i : Instruction) :
    (ops.invalid? chain name i).isSome =
      (!i.operands.any ops.isTyped && (i.outcome ops.resolver).isNone) := by
  unfold invalid? Instruction.outcome
  cases i.operands.any ops.isTyped with
  | true => rfl
  | false => cases assemble ops.resolver i <;> rfl

theorem invalid?_caseless (hops : ops.SparesRegisters) (name : String) (i : Instruction) :
    (ops.caseless.invalid? chain name i.caseless).isSome = (ops.invalid? chain name i).isSome := by
  have htyped : ∀ o : Operand, ops.caseless.isTyped o.caseless = ops.isTyped o := by
    intro o
    cases o with
    | mem p span => exact congrArg Option.isSome (hops.width p)
    | _ => rfl
  have hany : i.caseless.operands.any ops.caseless.isTyped = i.operands.any ops.isTyped := by
    rw [Instruction.operands_caseless, List.any_map]
    exact congrArg (i.operands.any ·) (funext htyped)
  have hcode : i.caseless.outcome ops.caseless.resolver = i.outcome ops.resolver :=
    assemble_caseless hops.value i
  rw [isSome_invalid?, isSome_invalid?, hany, hcode]

/-- The second expansion of a call is the caseless form of the first, with as
    many errors and the same label numbers. -/
structure MirrorsCall (x y : Option Expansion × List ExpansionError × Int) : Prop where
  expansion : y.1 = x.1.map (Expansion.map Stmt.caseless)
  errors : y.2.1.length = x.2.1.length
  counter : y.2.2 = x.2.2

theorem mirrors_expandStmt (hops : ops.SparesRegisters)
    (hcalls : ∀ (i : Instruction) (n : Int), MirrorsCall (ops.expandCall pool chain span i n)
      (ops.caseless.expandCall (pool.map (·.caseless)) chain span i.caseless n))
    (name : String) (st : Stmt) (n : Int) :
    Mirrors (ops.expandStmt pool chain span name st n)
      (ops.caseless.expandStmt (pool.map (·.caseless)) chain span name st.caseless n) := by
  cases st with
  | instr i =>
    have hop : ops.caseless.isOp i.caseless.head = ops.isOp i.head := by
      rw [isOp_caseless]
      exact isOp_asciiLower i.head
    simp only [Stmt.caseless, expandStmt, hop]
    split
    · obtain ⟨hexp, herrors, hcounter⟩ := hcalls i n
      refine ⟨?_, herrors, hcounter⟩
      rw [hexp]
      cases (ops.expandCall pool chain span i n).1 <;> simp [Node.mapList, Node.map,
        Expansion.map]
    · have hvalid : (ops.caseless.invalid? chain name i.caseless).isSome =
          (ops.invalid? chain name i).isSome := invalid?_caseless hops name i
      cases h : ops.invalid? chain name i with
      | none =>
        cases h' : ops.caseless.invalid? chain name i.caseless with
        | none => exact ⟨by simp [Node.mapList, Node.map, Stmt.caseless], rfl, rfl⟩
        | some e => simp [h, h'] at hvalid
      | some e =>
        cases h' : ops.caseless.invalid? chain name i.caseless with
        | none => simp [h, h'] at hvalid
        | some e' => exact ⟨by simp [Node.mapList], rfl, rfl⟩
  | _ => exact ⟨by simp [expandStmt, Stmt.caseless, Node.mapList, Node.map], rfl, rfl⟩

theorem mirrors_expandBody (hops : ops.SparesRegisters)
    (hcalls : ∀ (i : Instruction) (n : Int), MirrorsCall (ops.expandCall pool chain span i n)
      (ops.caseless.expandCall (pool.map (·.caseless)) chain span i.caseless n))
    (name : String) {x : Instance} (hx : x.SparesRegisters) {body : List Stmt}
    (hbody : ∀ st ∈ body, x.Binds st.addressNames) (n : Int) :
    Mirrors (ops.expandBody pool chain span name x body n)
      (ops.caseless.expandBody (pool.map (·.caseless)) chain span name x.caseless
        (body.map (·.caseless)) n) := by
  induction body generalizing n with
  | nil =>
    rw [List.map_nil, expandBody_nil, expandBody_nil]
    exact ⟨by simp [Node.mapList], rfl, rfl⟩
  | cons st sts ih =>
    rw [List.map_cons, expandBody_cons, expandBody_cons,
      Instance.stmt_caseless hx (hbody st List.mem_cons_self)]
    obtain ⟨hnodes, herrors, hcounter⟩ := mirrors_expandStmt hops hcalls name (x.stmt st) n
    dsimp only
    rw [hcounter]
    obtain ⟨hnodes', herrors', hcounter'⟩ := ih (fun t ht => hbody t (List.mem_cons_of_mem _ ht))
      (ops.expandStmt pool chain span name (x.stmt st) n).2.2
    refine ⟨?_, ?_, hcounter'⟩
    · rw [hnodes, hnodes', Node.mapList_append]
    · rw [List.length_append, List.length_append, herrors, herrors']

/-- The expansion of a call in any spelling.  Each level takes an op out of the
    pool, so the levels end. -/
theorem mirrors_expandCall (hops : ops.SparesRegisters) (pool : List OpDecl)
    (hpool : ∀ d ∈ pool, d ∈ ops.decls) (chain : List String) (span : Span) (call : Instruction)
    (n : Int) :
    MirrorsCall (ops.expandCall pool chain span call n)
      (ops.caseless.expandCall (pool.map (·.caseless)) chain span call.caseless n) := by
  have hname : Text.lower call.caseless.head = Text.lower call.head := call.lower_head_caseless
  cases hc : chain.contains (Text.lower call.head) with
  | true =>
    rw [expandCall_of_mem hc, expandCall_of_mem (by rw [hname]; exact hc), hname]
    exact ⟨rfl, rfl, rfl⟩
  | false =>
    have hresolve := resolve_caseless hops pool call
    cases hd : ops.resolve pool call with
    | error e =>
      cases hd' : ops.caseless.resolve (pool.map (·.caseless)) call.caseless with
      | error e' =>
        rw [expandCall_of_error hc hd, expandCall_of_error (by rw [hname]; exact hc) hd']
        exact ⟨rfl, rfl, rfl⟩
      | ok d' =>
        rw [hd, hd'] at hresolve
        cases hresolve
    | ok d =>
      cases hd' : ops.caseless.resolve (pool.map (·.caseless)) call.caseless with
      | error e' =>
        rw [hd, hd'] at hresolve
        cases hresolve
      | ok d' =>
        rw [hd, hd'] at hresolve
        obtain rfl : d' = d.caseless := Option.some.inj hresolve
        rw [expandCall_of_ok hc hd, expandCall_of_ok (by rw [hname]; exact hc) hd']
        have hmem : d ∈ ops.decls := hpool d (List.mem_filter.mp (mem_of_resolve hd)).1
        have hbody := mirrors_expandBody hops
          (fun i k => mirrors_expandCall hops (without pool (Text.lower call.head))
            (fun d' hd' => hpool d' (List.mem_filter.mp hd').1)
            (chain ++ [Text.lower call.head]) span i k)
          (Text.lower call.head) (sparesRegisters_instantiate hops hmem call.operands (n + 1))
          (fun st hst => binds_of_resolve hops hpool hd _ hst) (n + 1)
        rw [← without_caseless, ← OpDecl.instantiate_caseless] at hbody
        unfold expandDecl useOf
        rw [hname, Instruction.operands_caseless]
        refine ⟨?_, hbody.errors, hbody.counter⟩
        rw [Option.map_some, Expansion.map, ← hbody.nodes]
        rfl
termination_by pool.length
decreasing_by exact length_without_lt hd

/-- A call in any spelling expands to the same code. -/
theorem mirrors_expand (hops : ops.SparesRegisters) (call : Instruction) (n : Int) :
    MirrorsCall (ops.expand call n) (ops.caseless.expand call.caseless n) :=
  mirrors_expandCall hops ops.decls (fun _ hd => hd) [] call.span call n

end Ops

end Z80Backend
