import Z80Backend.Program
import Z80Backend.Proofs.Spelling.Lowering

/-! # Modules of a spelling

    A module and its caseless form declare the same names and become the same
    program, up to the spelling of registers in address slots.  Two modules
    with one caseless form are then compared through it.

    * `Module.SparesRegisters` and `Module.KeepsConditions` are what is asked
      of a module; both are the same for all spellings of it.
    * `Session.declare_matches` and `ModuleState.lowerItem_matches` are the
      steps of the two passes over a module.
    * `Module.lower_spelling`: two spellings of a module. -/

namespace Z80Backend

/-! ## What is asked of a module -/

instance (d : OpDecl) : Decidable d.SparesRegisters :=
  inferInstanceAs (Decidable ((∀ p ∈ d.params, isRegisterName p.name = false) ∧
    ∀ st ∈ d.body, ∀ l ∈ st.labels, isRegisterName l = false))

instance (d : OpDecl) : Decidable d.KeepsConditions :=
  inferInstanceAs (Decidable (∀ p ∈ d.params, p.matcher = .cc →
    ∀ st ∈ d.body, ∀ n ∈ st.addressNames, Text.lower n ≠ Text.lower p.name))

instance (d : FuncDecl) : Decidable d.SparesRegisters :=
  inferInstanceAs (Decidable ((∀ p ∈ d.params, isRegisterName p.name = false) ∧
    ∀ l ∈ d.locals, isRegisterName l.name = false))

namespace Item

/-- No storage, parameter or local of the item is named like a register, and no
    label if the item is an op. -/
def SparesRegisters : Item → Prop
  | func d => d.SparesRegisters
  | op d => d.SparesRegisters
  | data d => isRegisterName d.name = false
  | var d => isRegisterName d.name = false
  | external _ | place _ => True

/-- If the item is an op, no parameter for a condition stands in an address. -/
def KeepsConditions : Item → Prop
  | op d => d.KeepsConditions
  | _ => True

instance : (item : Item) → Decidable item.SparesRegisters
  | func d => inferInstanceAs (Decidable d.SparesRegisters)
  | op d => inferInstanceAs (Decidable d.SparesRegisters)
  | data d => inferInstanceAs (Decidable (isRegisterName d.name = false))
  | var d => inferInstanceAs (Decidable (isRegisterName d.name = false))
  | external _ | place _ => .isTrue trivial

instance : (item : Item) → Decidable item.KeepsConditions
  | op d => inferInstanceAs (Decidable d.KeepsConditions)
  | func _ | external _ | data _ | var _ | place _ => .isTrue trivial

end Item

/-- No storage, parameter or local of the module is named like a register, and
    no label of an op. -/
def Module.SparesRegisters (m : Module) : Prop := ∀ item ∈ m.items, item.SparesRegisters

/-- No parameter for a condition stands in an address. -/
def Module.KeepsConditions (m : Module) : Prop := ∀ item ∈ m.items, item.KeepsConditions

/-- No constant or enum member is named like a register. -/
def Environment.SparesRegisters (env : Environment) : Prop :=
  ∀ x ∈ env.consts ++ env.enums, isRegisterName x.1 = false

instance (m : Module) : Decidable m.SparesRegisters :=
  inferInstanceAs (Decidable (∀ item ∈ m.items, item.SparesRegisters))

instance (m : Module) : Decidable m.KeepsConditions :=
  inferInstanceAs (Decidable (∀ item ∈ m.items, item.KeepsConditions))

instance (env : Environment) : Decidable env.SparesRegisters :=
  inferInstanceAs (Decidable (∀ x ∈ env.consts ++ env.enums, isRegisterName x.1 = false))

theorem Environment.sparesRegisters_resolver {env : Environment} (h : env.SparesRegisters) :
    env.resolver.SparesRegisters := by
  intro w hw
  have hconst : env.const? w = none :=
    lookup_of_isRegisterName (fun x hx => h x (List.mem_append_left _ hx)) hw
  have henum : env.enum? w = none :=
    lookup_of_isRegisterName (fun x hx => h x (List.mem_append_right _ hx)) hw
  show (env.const? w <|> env.enum? w) = none
  rw [hconst, henum]
  rfl

/-! ### In any spelling -/

theorem Place.addressNames_caseless (p : Place) :
    p.caseless.addressNames = p.addressNames.map addressWord := by
  induction p with
  | name s => rfl
  | field b f ih | elem b i ih | add b off ih | sub b off ih => exact ih
  | elemAt b p ihb ihp =>
    rw [caseless, addressNames, addressNames, ihb, ihp, List.map_append]
  | literal e | missing => rfl

theorem Operand.addressNames_caseless (o : Operand) :
    o.caseless.addressNames = o.addressNames.map addressWord := by
  cases o with
  | mem p span => exact p.addressNames_caseless
  | place p span =>
    cases p with
    | name s => rfl
    | _ => exact Place.addressNames_caseless _
  | _ => rfl

theorem Stmt.addressNames_caseless (st : Stmt) :
    st.caseless.addressNames = st.addressNames.map addressWord := by
  have hlist : ∀ os : List Operand, (os.map (·.caseless)).flatMap Operand.addressNames =
      (os.flatMap Operand.addressNames).map addressWord := by
    intro os
    rw [List.flatMap_map, List.map_flatMap]
    exact List.flatMap_congr fun o _ => o.addressNames_caseless
  cases st with
  | instr i => exact hlist i.operands
  | selectOpen selector malformed span => exact selector.addressNames_caseless
  | call callee args span => exact hlist args
  | _ => rfl

theorem Stmt.labels_caseless (st : Stmt) : st.caseless.labels = st.labels := by
  cases st <;> rfl

namespace OpDecl

theorem sparesRegisters_caseless {d : OpDecl} : d.caseless.SparesRegisters ↔ d.SparesRegisters := by
  unfold SparesRegisters caseless
  rw [List.forall_mem_map]
  simp only [Stmt.labels_caseless]

theorem keepsConditions_caseless {d : OpDecl} : d.caseless.KeepsConditions ↔ d.KeepsConditions := by
  unfold KeepsConditions caseless
  simp only [List.forall_mem_map, Stmt.addressNames_caseless, lower_addressWord]

end OpDecl

theorem Item.sparesRegisters_caseless {item : Item} :
    item.caseless.SparesRegisters ↔ item.SparesRegisters := by
  cases item with
  | op d => exact OpDecl.sparesRegisters_caseless
  | _ => exact Iff.rfl

theorem Item.keepsConditions_caseless {item : Item} :
    item.caseless.KeepsConditions ↔ item.KeepsConditions := by
  cases item with
  | op d => exact OpDecl.keepsConditions_caseless
  | _ => exact Iff.rfl

namespace Module

variable {m m' : Module}

theorem sparesRegisters_caseless : m.caseless.SparesRegisters ↔ m.SparesRegisters := by
  unfold SparesRegisters caseless
  simp only [List.forall_mem_map, Item.sparesRegisters_caseless]

theorem keepsConditions_caseless : m.caseless.KeepsConditions ↔ m.KeepsConditions := by
  unfold KeepsConditions caseless
  simp only [List.forall_mem_map, Item.keepsConditions_caseless]

end Module

/-! ## Declaring -/

/-- Two sessions, the second with the bodies of ops in lower case. -/
structure Session.Matches (s s' : Session) : Prop where
  decls : s'.decls = s.decls.caseless
  counter : s'.counter = s.counter
  reports : s'.journal.outlines = s.journal.outlines

namespace Session

variable {s s' : Session} {r : Resolver}

theorem Matches.note (h : s.Matches s') {e e' : Event}
    (he : Journal.outlines [e'] = Journal.outlines [e]) : (s.note e).Matches (s'.note e') :=
  { h with reports := by simp only [Session.note, Journal.outlines_append, h.reports, he] }

theorem Matches.report (h : s.Matches s') (p : Problem) (span : Span) :
    (s.report p span).Matches (s'.report p span) :=
  h.note rfl

theorem Matches.declareFunction (h : s.Matches s') (f : FnSignature) (span : Span) :
    (s.declareFunction f span).Matches (s'.declareFunction f span) := by
  have hfunctions : s'.decls.functions = s.decls.functions := by rw [h.decls, Declarations.caseless]
  unfold Session.declareFunction
  rw [hfunctions]
  split
  · exact h.report _ span
  · exact { h with decls := by rw [h.decls]; rfl }

theorem Matches.declareStorage (h : s.Matches s') (name : String) (type : TypeRef) (span : Span) :
    (s.declareStorage name type span).Matches (s'.declareStorage name type span) := by
  have hglobals : s'.decls.globals = s.decls.globals := by rw [h.decls, Declarations.caseless]
  unfold Session.declareStorage
  rw [hglobals]
  split
  · exact h.report _ span
  · exact { h with decls := by rw [h.decls]; rfl }

/-- An item and its caseless form declare the same. -/
theorem declare_matches (h : s.Matches s') (externals : List FixedFunction) (item : Item) :
    (declare r (s, externals) item).1.Matches (declare r (s', externals) item.caseless).1 ∧
      (declare r (s', externals) item.caseless).2 = (declare r (s, externals) item).2 := by
  cases item with
  | op d =>
    refine ⟨{ h with decls := ?_ }, rfl⟩
    simp only [Item.caseless, declare, h.decls, Declarations.caseless, List.map_append,
      List.map_cons, List.map_nil]
  | func d => exact ⟨h.declareFunction _ d.span, rfl⟩
  | data d => exact ⟨h.declareStorage _ _ d.span, rfl⟩
  | var d => exact ⟨h.declareStorage _ _ d.span, rfl⟩
  | place x => exact ⟨h, rfl⟩
  | external d =>
    simp only [Item.caseless, declare]
    split
    · exact ⟨h.report _ d.span, rfl⟩
    · split
      · exact ⟨h.report _ d.span, rfl⟩
      · exact ⟨h.declareFunction _ d.span, rfl⟩

theorem declareAll_matches (h : s.Matches s') (externals : List FixedFunction)
    (items : List Item) :
    (items.foldl (declare r) (s, externals)).1.Matches
        ((items.map (·.caseless)).foldl (declare r) (s', externals)).1 ∧
      ((items.map (·.caseless)).foldl (declare r) (s', externals)).2 =
        (items.foldl (declare r) (s, externals)).2 := by
  induction items generalizing s s' externals with
  | nil => exact ⟨h, rfl⟩
  | cons item items ih =>
    obtain ⟨hitem, hexternals⟩ := declare_matches (r := r) h externals item
    have hpair : declare r (s', externals) item.caseless =
        ((declare r (s', externals) item.caseless).1, (declare r (s, externals) item).2) :=
      Prod.ext rfl hexternals
    rw [List.map_cons, List.foldl_cons, List.foldl_cons, hpair]
    exact ih hitem _

/-- What is declared spares the names of registers if the items do. -/
theorem sparesRegisters_declare {item : Item} (hitem : item.SparesRegisters)
    (hconds : item.KeepsConditions) {acc : Session × List FixedFunction}
    (h : acc.1.decls.SparesRegisters) : (declare r acc item).1.decls.SparesRegisters := by
  obtain ⟨s, externals⟩ := acc
  have hfunction : ∀ f span, (s.declareFunction f span).decls.SparesRegisters := by
    intro f span
    unfold declareFunction
    split
    · exact h
    · exact { h with }
  have hstorage : ∀ name type span, isRegisterName name = false →
      (s.declareStorage name type span).decls.SparesRegisters := by
    intro name type span hname
    unfold declareStorage
    split
    · exact h
    · refine { h with globals := fun x hx => ?_ }
      rcases List.mem_append.mp hx with hx | hx
      · exact h.globals x hx
      · obtain rfl := List.mem_singleton.mp hx
        exact hname
  cases item with
  | op d =>
    refine { h with names := fun d' hd' => ?_, conditions := fun d' hd' => ?_ }
    · rcases List.mem_append.mp hd' with hd' | hd'
      · exact h.names d' hd'
      · obtain rfl := List.mem_singleton.mp hd'
        exact hitem
    · rcases List.mem_append.mp hd' with hd' | hd'
      · exact h.conditions d' hd'
      · obtain rfl := List.mem_singleton.mp hd'
        exact hconds
  | func d => exact hfunction _ _
  | data d => exact hstorage _ _ _ hitem
  | var d => exact hstorage _ _ _ hitem
  | place x => exact h
  | external d =>
    simp only [declare]
    split
    · exact h
    · split
      · exact h
      · exact hfunction _ _

theorem sparesRegisters_declareAll {items : List Item} (hitems : ∀ x ∈ items, x.SparesRegisters)
    (hconds : ∀ x ∈ items, x.KeepsConditions) (acc : Session × List FixedFunction)
    (h : acc.1.decls.SparesRegisters) :
    (items.foldl (declare r) acc).1.decls.SparesRegisters := by
  induction items generalizing acc with
  | nil => exact h
  | cons item items ih =>
    rw [List.forall_mem_cons] at hitems hconds
    exact ih hitems.2 hconds.2 _ (sparesRegisters_declare hitems.1 hconds.1 h)

end Session

/-! ## Lowering -/

/-- Two computations with the same fault or with results that are related. -/
inductive SameOutcome {α : Type} (R : α → α → Prop) : Except Fault α → Except Fault α → Prop
  | fault (f : Fault) : SameOutcome R (.error f) (.error f)
  | result {a b : α} (h : R a b) : SameOutcome R (.ok a) (.ok b)

theorem SameOutcome.mono {α : Type} {R S : α → α → Prop} {x y : Except Fault α}
    (h : SameOutcome R x y) (hRS : ∀ a b, x = .ok a → R a b → S a b) : SameOutcome S x y := by
  cases h with
  | fault f => exact .fault f
  | result h => exact .result (hRS _ _ rfl h)

/-- Two programs with the same code up to the spelling of registers in address
    slots. -/
structure Program.Matches (p p' : Program) : Prop where
  chunks : p'.chunks.map Chunk.caseless = p.chunks.map Chunk.caseless
  externals : p'.externals = p.externals
  stack : p'.stack = p.stack

/-- What placing asks of a chunk does not depend on its lines. -/
theorem Directives.place_caseless (ds : Directives) (c : Chunk) :
    ds.place c.caseless = ((ds.place c).1, (ds.place c).2.caseless) := by
  by_cases halign : 1 < ds.align c.home
  · cases hpin : ds.pin c.home <;> simp [place, Chunk.caseless, halign, hpin]
  · cases hpin : ds.pin c.home <;> simp [place, Chunk.caseless, halign, hpin]

namespace ModuleState

/-- Two modules that are lowered side by side, the second in lower case. -/
structure Matches (m m' : ModuleState) : Prop where
  session : m.session.Matches m'.session
  directives : m'.directives = m.directives
  program : m.program.Matches m'.program

variable {r : Resolver} {m m' : ModuleState}

theorem Matches.note (h : m.Matches m') (e : Event) : (m.note e).Matches (m'.note e) :=
  { h with session := h.session.note rfl }

theorem Matches.reportAll (h : m.Matches m') (es : List LayoutError) (span : Span) :
    (m.reportAll es span).Matches (m'.reportAll es span) := by
  have hsession : ∀ {s s' : Session}, s.Matches s' →
      (es.foldl (fun s e => s.report (.layout e) span) s).Matches
        (es.foldl (fun s e => s.report (.layout e) span) s') := by
    induction es with
    | nil => exact id
    | cons e es ih => exact fun h => ih (h.report _ span)
  exact { h with session := hsession h.session }

/-- Chunks that are alike are placed alike. -/
theorem Matches.add (h : m.Matches m') {c c' : Chunk} (hc : c'.caseless = c.caseless) :
    (m.add c).Matches (m'.add c') := by
  have hplace := m.directives.place_caseless c'
  rw [hc, m.directives.place_caseless c, Prod.mk.injEq] at hplace
  have hevent : ∀ c : Chunk, Journal.outlines [.announced (.chunk c)] = [] := fun _ => rfl
  unfold ModuleState.add
  rw [h.directives]
  refine ⟨h.session.note ((hevent _).trans (hevent _).symm), hplace.1.symm, ?_⟩
  refine { h.program with chunks := ?_ }
  dsimp only
  rw [List.map_append, List.map_append, h.program.chunks, List.map_singleton, List.map_singleton,
    hplace.2]

/-- The module with a function that was lowered. -/
def addFunction (m : ModuleState) (x : Chunk × StackSummary × FnState) : ModuleState :=
  { m with
    session := { m.session with
      counter := x.2.2.counter, journal := m.session.journal ++ x.2.2.journal }
    program := { m.program with stack := m.program.stack ++ [x.2.1] } }.add x.1

theorem lowerFunction_eq (m : ModuleState) (r : Resolver) (d : FuncDecl) :
    m.lowerFunction r d =
      if (d.lower r m.session.decls { counter := m.session.counter }).2.2.exhausted then
        .error (.nesting d.name)
      else .ok (m.addFunction (d.lower r m.session.decls { counter := m.session.counter })) := rfl

theorem Matches.addFunction (h : m.Matches m') {x x' : Chunk × StackSummary × FnState}
    (hchunk : x'.1.caseless = x.1.caseless) (hsummary : x'.2.1 = x.2.1)
    (hstate : x.2.2.Matches x'.2.2) : (m.addFunction x).Matches (m'.addFunction x') := by
  have hreports : (m'.session.journal ++ x'.2.2.journal).outlines =
      (m.session.journal ++ x.2.2.journal).outlines := by
    rw [Journal.outlines_append, Journal.outlines_append, h.session.reports, hstate.reports]
  have hstack : m'.program.stack ++ [x'.2.1] = m.program.stack ++ [x.2.1] := by
    rw [h.program.stack, hsummary]
  unfold ModuleState.addFunction
  refine Matches.add ?_ hchunk
  exact
    { session := ⟨h.session.decls, hstate.counter, hreports⟩
      directives := h.directives
      program := { h.program with stack := hstack } }

theorem lowerFunction_matches (hr : r.SparesRegisters) (h : m.Matches m')
    (hdecls : m.session.decls.SparesRegisters) {d : FuncDecl} (hd : d.SparesRegisters) :
    SameOutcome Matches (m.lowerFunction r d) (m'.lowerFunction r d.caseless) := by
  obtain ⟨hchunk, hsummary, hstate⟩ := d.lower_matches hr hdecls hd m.session.counter
  rw [lowerFunction_eq, lowerFunction_eq, h.session.decls, h.session.counter, hstate.exhausted]
  split
  · exact .fault _
  · exact .result (h.addFunction hchunk hsummary hstate)

/-- An item and its caseless form are lowered alike. -/
theorem lowerItem_matches (hr : r.SparesRegisters) (h : m.Matches m')
    (hdecls : m.session.decls.SparesRegisters) {item : Item} (hitem : item.SparesRegisters) :
    SameOutcome Matches (m.lowerItem r item) (m'.lowerItem r item.caseless) := by
  cases item with
  | func d => exact lowerFunction_matches hr h hdecls hitem
  | op d => exact .result h
  | external d => exact .result h
  | place x =>
    simp only [Item.caseless, lowerItem, h.directives]
    have hplaced : Matches { m with directives := (m.directives.apply r x).1 }
        { m' with directives := (m.directives.apply r x).1 } := { h with directives := rfl }
    exact .result (hplaced.reportAll _ x.span)
  | data d =>
    simp only [Item.caseless, lowerItem]
    split
    · exact .fault _
    · exact .result (h.reportAll _ d.span)
    · exact .result (((h.reportAll _ d.span).note _).add rfl)
  | var d =>
    simp only [Item.caseless, lowerItem]
    split
    · exact .result (h.reportAll _ d.span)
    · exact .result (h.add rfl)

theorem decls_reportAll (es : List LayoutError) (span : Span) :
    (m.reportAll es span).session.decls = m.session.decls := by
  have hsession : ∀ s : Session,
      (es.foldl (fun s e => s.report (.layout e) span) s).decls = s.decls := by
    induction es with
    | nil => exact fun _ => rfl
    | cons e es ih => exact fun s => ih (s.report (.layout e) span)
  exact hsession m.session

/-- Nothing is declared any more while items are lowered. -/
theorem decls_lowerItem {item : Item} (h : m.lowerItem r item = .ok m') :
    m'.session.decls = m.session.decls := by
  cases item with
  | func d =>
    simp only [lowerItem, lowerFunction] at h
    split at h
    · cases h
    · cases h
      rfl
  | op d | external d =>
    cases h
    rfl
  | place x =>
    cases h
    exact decls_reportAll _ x.span
  | data d =>
    simp only [lowerItem] at h
    split at h
    · cases h
    · cases h
      exact decls_reportAll _ d.span
    · cases h
      exact decls_reportAll _ d.span
  | var d =>
    simp only [lowerItem] at h
    split at h
    · cases h
      exact decls_reportAll _ d.span
    · cases h
      rfl

theorem lowerAll_matches (hr : r.SparesRegisters) {items : List Item}
    (hitems : ∀ item ∈ items, item.SparesRegisters) (h : m.Matches m')
    (hdecls : m.session.decls.SparesRegisters) :
    SameOutcome Matches (items.foldlM (lowerItem r) m)
      ((items.map (·.caseless)).foldlM (lowerItem r) m') := by
  induction items generalizing m m' with
  | nil => exact .result h
  | cons item items ih =>
    rw [List.forall_mem_cons] at hitems
    have hstep := lowerItem_matches hr h hdecls hitems.1
    rw [List.map_cons, List.foldlM_cons, List.foldlM_cons]
    revert hstep
    generalize hx : m.lowerItem r item = x
    generalize m'.lowerItem r item.caseless = x'
    intro hstep
    cases hstep with
    | fault f => exact .fault f
    | result hnext => exact ih hitems.2 hnext ((decls_lowerItem hx).symm ▸ hdecls)

end ModuleState

namespace Module

variable {r : Resolver} {m m' : Module}

/-- A module and its caseless form become the same program, up to the spelling
    of registers in address slots. -/
theorem lower_caseless (hr : r.SparesRegisters) (hnames : m.SparesRegisters)
    (hconds : m.KeepsConditions) {s s' : Session} (hs : s.Matches s')
    (hdecls : s.decls.SparesRegisters) :
    SameOutcome (fun x x' => x.1.Matches x'.1 ∧ x.2.Matches x'.2) (m.lower r s)
      (m.caseless.lower r s') := by
  obtain ⟨hsession, hexternals⟩ := Session.declareAll_matches (r := r) hs [] m.items
  have hdeclared := Session.sparesRegisters_declareAll (r := r) hnames hconds (s, []) hdecls
  unfold lower
  rw [caseless]
  revert hsession hexternals hdeclared
  generalize m.items.foldl (Session.declare r) (s, []) = x
  generalize (m.items.map (·.caseless)).foldl (Session.declare r) (s', []) = x'
  obtain ⟨t, externals⟩ := x
  obtain ⟨t', externals'⟩ := x'
  intro hsession hexternals hdeclared
  obtain rfl : externals' = externals := hexternals
  have hstart : ModuleState.Matches
      { session := t, program := { externals := externals' } }
      { session := t', program := { externals := externals' } } :=
    ⟨hsession, rfl, ⟨rfl, rfl, rfl⟩⟩
  have hall := ModuleState.lowerAll_matches hr hnames hstart hdeclared
  dsimp only
  revert hall
  generalize m.items.foldlM (ModuleState.lowerItem r) _ = y
  generalize (m.items.map (·.caseless)).foldlM (ModuleState.lowerItem r) _ = y'
  intro hall
  cases hall with
  | fault f => exact .fault f
  | result h => exact .result ⟨h.program, h.session.note rfl⟩

/-- Two spellings of a module become the same program, up to the spelling of
    registers in address slots, with a report of the one for each report of the
    other. -/
theorem lower_spelling (hr : r.SparesRegisters) (hspell : m'.caseless = m.caseless)
    (hnames : m.SparesRegisters) (hconds : m.KeepsConditions) (j : Journal) :
    SameOutcome (fun x x' => x.1.Matches x'.1 ∧ x'.2.journal.outlines = x.2.journal.outlines)
      (m.lower r { journal := j }) (m'.lower r { journal := j }) := by
  have hnames' : m'.SparesRegisters := by
    rw [← sparesRegisters_caseless, hspell, sparesRegisters_caseless]
    exact hnames
  have hconds' : m'.KeepsConditions := by
    rw [← keepsConditions_caseless, hspell, keepsConditions_caseless]
    exact hconds
  have hstart : Session.Matches { journal := j } { journal := j } := ⟨rfl, rfl, rfl⟩
  have hempty : Declarations.SparesRegisters {} :=
    ⟨fun _ h => (List.not_mem_nil h).elim, fun _ h => (List.not_mem_nil h).elim,
      fun _ h => (List.not_mem_nil h).elim⟩
  -- Both runs are compared with the run of the caseless form.
  have hleft := lower_caseless hr hnames hconds hstart hempty
  have hright := lower_caseless hr hnames' hconds' hstart hempty
  rw [hspell] at hright
  revert hleft hright
  generalize m.lower r { journal := j } = x
  generalize m'.lower r { journal := j } = x'
  generalize m.caseless.lower r { journal := j } = y
  intro hleft hright
  cases hleft with
  | fault f =>
    cases hright with
    | fault _ => exact .fault f
  | result h =>
    cases hright with
    | result h' =>
      refine .result ⟨⟨?_, ?_, ?_⟩, ?_⟩
      · rw [← h.1.chunks, h'.1.chunks]
      · rw [← h.1.externals, h'.1.externals]
      · rw [← h.1.stack, h'.1.stack]
      · rw [← h.2.reports, h'.2.reports]

end Module

end Z80Backend
