import Mathlib.Data.List.Nodup
import Z80Backend.Proofs.Function.Growth
import Z80Backend.Program

/-! # What a module declares

    Functions are told apart from functions, and storage from storage: of two
    declarations of the same kind with one name the second is reported.  So in
    a module without errors the declared names of each kind are different, and
    there is one chunk for each item that has code or takes storage.

    Lowering a module only adds to its journal, and what was reported on the
    way is in it at the end.

    * `Journal.IsFree`: nothing that was reported is an error.
    * `Session.Declares` and `ModuleState.Lowers` say what declaring and
      lowering items adds; `Session.declares_all` and `ModuleState.lowers_all`
      follow the two passes over a module.
    * `Module.yields_of_lower`: the names and chunks of a module without errors. -/

namespace Z80Backend

/-! ## Journals without errors -/

namespace Journal

/-- Nothing that was reported is an error. -/
def IsFree (j : Journal) : Prop := ∀ d ∈ j.diagnostics, d.isError = false

theorem isFree_append {j k : Journal} : IsFree (j ++ k) ↔ j.IsFree ∧ k.IsFree := by
  simp only [IsFree, diagnostics_append, List.forall_mem_append]

theorem mem_diagnostics {j : Journal} {d : Diagnostic}
    (h : .announced (.diagnostic d) ∈ j) : d ∈ j.diagnostics :=
  List.mem_filterMap.mpr ⟨_, List.mem_filterMap.mpr ⟨_, h, rfl⟩, rfl⟩

/-- An error is not allowed. -/
theorem not_isFree_report (j : Journal) (p : Problem) (span : Span) :
    ¬ IsFree (j ++ [Event.announced (.diagnostic { problem := p, span })]) := by
  intro h
  have hd := (isFree_append.mp h).2 { problem := p, span } List.mem_cons_self
  cases hd

theorem IsFree.of_prefix {j k : Journal} (h : k.IsFree) (hjk : j <+: k) : j.IsFree := by
  obtain ⟨es, rfl⟩ := hjk
  exact (isFree_append.mp h).1

end Journal

/-! ## Names of items -/

namespace Item

/-- The name of a function, with a body or at a fixed address. -/
def functionName? : Item → Option String
  | .func d => some d.name
  | .external d => some d.name
  | _ => none

/-- The name of a function at a fixed address. -/
def externalName? : Item → Option String
  | .external d => some d.name
  | _ => none

/-- The name of storage. -/
def storageName? : Item → Option String
  | .data d => some d.name
  | .var d => some d.name
  | _ => none

/-- The name of an item that becomes a chunk. -/
def chunkName? : Item → Option String
  | .func d => some d.name
  | .data d => some d.name
  | .var d => some d.name
  | _ => none

end Item

/-- The names of functions in a module. -/
def Module.functionNames (m : Module) : List String := m.items.filterMap Item.functionName?

/-- The names of storage in a module. -/
def Module.storageNames (m : Module) : List String := m.items.filterMap Item.storageName?

/-! ## Declaring -/

namespace Session

variable {r : Resolver} {s : Session}

theorem journal_report (p : Problem) (span : Span) :
    (s.report p span).journal =
      s.journal ++ [Event.announced (.diagnostic { problem := p, span })] :=
  rfl

/-- A function that is declared without an error is new. -/
theorem declareFunction_of_isFree {f : FnSignature} {span : Span}
    (h : (s.declareFunction f span).journal.IsFree) :
    f.name ∉ s.decls.functions.map (·.name) ∧ s.declareFunction f span =
      { s with decls := { s.decls with functions := s.decls.functions ++ [f] } } := by
  unfold declareFunction at h ⊢
  split at h
  · exact absurd h (Journal.not_isFree_report _ _ _)
  · rename_i hnew
    refine ⟨fun hmem => hnew ?_, if_neg hnew⟩
    obtain ⟨g, hg, hname⟩ := List.mem_map.mp hmem
    exact List.any_eq_true.mpr ⟨g, hg, by simp [hname]⟩

/-- Storage that is declared without an error is new. -/
theorem declareStorage_of_isFree {name : String} {type : TypeRef} {span : Span}
    (h : (s.declareStorage name type span).journal.IsFree) :
    name ∉ s.decls.globals.map (·.1) ∧ s.declareStorage name type span =
      { s with decls := { s.decls with
          globals := s.decls.globals ++ [(name, { home := .global name, type })] } } := by
  unfold declareStorage at h ⊢
  split at h
  · exact absurd h (Journal.not_isFree_report _ _ _)
  · rename_i hnew
    refine ⟨fun hmem => hnew ?_, if_neg hnew⟩
    obtain ⟨entry, hentry, hname⟩ := List.mem_map.mp hmem
    exact List.lookup_isSome_iff.mpr ⟨entry, hentry, by simp [hname]⟩

/-- Declaring only adds to the journal. -/
theorem prefix_journal_declare (acc : Session × List FixedFunction) (item : Item) :
    acc.1.journal <+: (declare r acc item).1.journal := by
  obtain ⟨s, externals⟩ := acc
  have hfunction : ∀ f span, s.journal <+: (s.declareFunction f span).journal := by
    intro f span
    unfold declareFunction
    split
    · exact List.prefix_append _ _
    · exact List.prefix_rfl
  have hstorage : ∀ name type span, s.journal <+: (s.declareStorage name type span).journal := by
    intro name type span
    unfold declareStorage
    split
    · exact List.prefix_append _ _
    · exact List.prefix_rfl
  cases item with
  | op d => exact List.prefix_rfl
  | func d => exact hfunction _ _
  | data d => exact hstorage _ _ _
  | var d => exact hstorage _ _ _
  | place x => exact List.prefix_rfl
  | external d =>
    simp only [declare]
    split
    · exact List.prefix_append _ _
    · split
      · exact List.prefix_append _ _
      · exact hfunction _ _

theorem prefix_journal_declareAll (items : List Item) (acc : Session × List FixedFunction) :
    acc.1.journal <+: (items.foldl (declare r) acc).1.journal := by
  induction items generalizing acc with
  | nil => exact List.prefix_rfl
  | cons item items ih => exact (prefix_journal_declare acc item).trans (ih _)

/-- Items were declared: their names were added, and none of them was there
    already. -/
structure Declares (acc : Session × List FixedFunction) (items : List Item)
    (acc' : Session × List FixedFunction) : Prop where
  functions : acc'.1.decls.functions.map (·.name) =
    acc.1.decls.functions.map (·.name) ++ items.filterMap Item.functionName?
  globals : acc'.1.decls.globals.map (·.1) =
    acc.1.decls.globals.map (·.1) ++ items.filterMap Item.storageName?
  externals : acc'.2.map (·.name) = acc.2.map (·.name) ++ items.filterMap Item.externalName?
  functions_nodup : (acc.1.decls.functions.map (·.name)).Nodup →
    (acc'.1.decls.functions.map (·.name)).Nodup
  globals_nodup : (acc.1.decls.globals.map (·.1)).Nodup →
    (acc'.1.decls.globals.map (·.1)).Nodup

namespace Declares

theorem refl (acc : Session × List FixedFunction) : Declares acc [] acc :=
  ⟨by simp, by simp, by simp, id, id⟩

theorem trans {acc acc' acc'' : Session × List FixedFunction} {items items' : List Item}
    (h : Declares acc items acc') (h' : Declares acc' items' acc'') :
    Declares acc (items ++ items') acc'' where
  functions := by rw [h'.functions, h.functions, List.filterMap_append, List.append_assoc]
  globals := by rw [h'.globals, h.globals, List.filterMap_append, List.append_assoc]
  externals := by rw [h'.externals, h.externals, List.filterMap_append, List.append_assoc]
  functions_nodup := h'.functions_nodup ∘ h.functions_nodup
  globals_nodup := h'.globals_nodup ∘ h.globals_nodup

end Declares

theorem declares_function {externals externals' : List FixedFunction} {f : FnSignature}
    {span : Span} {item : Item} (h : (s.declareFunction f span).journal.IsFree)
    (hname : item.functionName? = some f.name) (hglobal : item.storageName? = none)
    (hexternals : externals'.map (·.name) =
      externals.map (·.name) ++ item.externalName?.toList) :
    Declares (s, externals) [item] (s.declareFunction f span, externals') := by
  obtain ⟨hnew, heq⟩ := declareFunction_of_isFree h
  rw [heq]
  refine ⟨by simp [hname], by simp [hglobal], ?_, fun hnodup => ?_, id⟩
  · cases hext : item.externalName? <;> simpa [hext] using hexternals
  · rw [List.map_append]
    exact List.nodup_append_comm.mp (List.nodup_cons.mpr ⟨hnew, hnodup⟩)

theorem declares_storage {externals : List FixedFunction} {name : String} {type : TypeRef}
    {span : Span} {item : Item} (h : (s.declareStorage name type span).journal.IsFree)
    (hfunction : item.functionName? = none) (hname : item.storageName? = some name)
    (hexternal : item.externalName? = none) :
    Declares (s, externals) [item] (s.declareStorage name type span, externals) := by
  obtain ⟨hnew, heq⟩ := declareStorage_of_isFree h
  rw [heq]
  refine ⟨by simp [hfunction], by simp [hname], by simp [hexternal], id, fun hnodup => ?_⟩
  rw [List.map_append]
  exact List.nodup_append_comm.mp (List.nodup_cons.mpr ⟨hnew, hnodup⟩)

/-- An item that is declared without an error. -/
theorem declares_item {acc : Session × List FixedFunction} {item : Item}
    (h : (declare r acc item).1.journal.IsFree) : Declares acc [item] (declare r acc item) := by
  obtain ⟨s, externals⟩ := acc
  cases item with
  | op d => exact ⟨by simp [declare, Item.functionName?], by simp [declare, Item.storageName?],
      by simp [declare, Item.externalName?], id, id⟩
  | place x => exact ⟨by simp [declare, Item.functionName?], by simp [declare, Item.storageName?],
      by simp [declare, Item.externalName?], id, id⟩
  | func d => exact declares_function h rfl rfl (by simp [Item.externalName?])
  | data d => exact declares_storage h rfl rfl rfl
  | var d => exact declares_storage h rfl rfl rfl
  | external d =>
    simp only [declare] at h ⊢
    split at h
    · exact absurd h (Journal.not_isFree_report _ _ _)
    · split at h
      · exact absurd h (Journal.not_isFree_report _ _ _)
      · rename_i hrange
        rw [if_neg hrange]
        exact declares_function h rfl rfl (by simp [Item.externalName?])

/-- Items that are declared without an error, one after the other. -/
theorem declares_all {items : List Item} {acc : Session × List FixedFunction}
    (h : (items.foldl (declare r) acc).1.journal.IsFree) :
    Declares acc items (items.foldl (declare r) acc) := by
  induction items generalizing acc with
  | nil => exact .refl acc
  | cons item items ih =>
    have hitem := h.of_prefix (prefix_journal_declareAll items (declare r acc item))
    exact (declares_item hitem).trans (ih h)

end Session

/-! ## Lowering -/

/-- Directives say where a chunk goes and how it is aligned, and nothing else. -/
theorem Directives.place_eq (ds : Directives) (c : Chunk) :
    ∃ pin align, (ds.place c).2 = { c with pin, align } := by
  unfold place
  dsimp only
  split
  · split
    · exact ⟨_, _, rfl⟩
    · exact ⟨_, _, rfl⟩
  · split
    · exact ⟨_, _, rfl⟩
    · exact ⟨_, _, rfl⟩

/-- Storage that gets no chunk is in error. -/
theorem DataDecl.lower_ne_none (d : DataDecl) (r : Resolver) : d.lower r ≠ .ok (none, []) := by
  intro h
  unfold DataDecl.lower at h
  split at h
  · cases h
  · split at h
    · cases h
    · cases h

namespace ModuleState

/-- The chunk of an item: it is in a section, and only functions have labels. -/
structure IsChunkOf (item : Item) (c : Chunk) : Prop where
  name : item.chunkName? = some c.name
  home : c.home ∈ [Section.code, .data, .var]
  labels : c.labels = [] ∨ c.name ∈ item.functionName?

/-- Items were lowered: their chunks were added. -/
structure Lowers (m : ModuleState) (items : List Item) (m' : ModuleState) : Prop where
  names : m'.program.chunks.map (·.name) =
    m.program.chunks.map (·.name) ++ items.filterMap Item.chunkName?
  externals : m'.program.externals = m.program.externals
  chunks : ∀ c ∈ m'.program.chunks,
    c ∈ m.program.chunks ∨ ∃ item ∈ items, IsChunkOf item c

namespace Lowers

theorem refl (m : ModuleState) : Lowers m [] m :=
  ⟨by simp, rfl, fun c hc => .inl hc⟩

theorem trans {m m' m'' : ModuleState} {items items' : List Item} (h : Lowers m items m')
    (h' : Lowers m' items' m'') : Lowers m (items ++ items') m'' where
  names := by rw [h'.names, h.names, List.filterMap_append, List.append_assoc]
  externals := h'.externals.trans h.externals
  chunks c hc := by
    rcases h'.chunks c hc with hc | ⟨item, hitem, hchunk⟩
    · rcases h.chunks c hc with hc | ⟨item, hitem, hchunk⟩
      · exact .inl hc
      · exact .inr ⟨item, List.mem_append_left _ hitem, hchunk⟩
    · exact .inr ⟨item, List.mem_append_right _ hitem, hchunk⟩

end Lowers

variable {r : Resolver} {m m' : ModuleState}

theorem lowers_of_none {item : Item} (hname : item.chunkName? = none)
    (hprogram : m'.program = m.program) : Lowers m [item] m' :=
  ⟨by simp [hprogram, hname], by rw [hprogram], fun c hc => .inl (hprogram ▸ hc)⟩

theorem lowers_add {item : Item} {c : Chunk} (hc : IsChunkOf item c)
    (hchunks : m'.program.chunks = m.program.chunks)
    (hexternals : m'.program.externals = m.program.externals) :
    Lowers m [item] (m'.add c) := by
  obtain ⟨pin, align, heq⟩ := m'.directives.place_eq c
  have hadd : (m'.add c).program.chunks = m.program.chunks ++ [{ c with pin, align }] := by
    rw [← hchunks, ← heq]
    rfl
  refine ⟨by simp [hadd, hc.name], hexternals, fun c' hc' => ?_⟩
  rw [hadd, List.mem_append] at hc'
  refine hc'.imp_right fun hc' => ⟨item, List.mem_cons_self, ?_⟩
  obtain rfl := List.mem_singleton.mp hc'
  exact ⟨hc.name, hc.home, hc.labels⟩

/-- Problems of an item are reported, and nothing else changes. -/
theorem reportAll_eq (m : ModuleState) (es : List LayoutError) (span : Span) :
    (m.reportAll es span).session.journal = m.session.journal ++
      es.map fun e => Event.announced (.diagnostic { problem := .layout e, span }) := by
  obtain ⟨s, ds, p⟩ := m
  unfold reportAll
  dsimp only
  induction es generalizing s with
  | nil => simp
  | cons e es ih =>
    rw [List.foldl_cons, ih, Session.journal_report]
    simp

theorem reportAll_of_isFree {es : List LayoutError} {span : Span}
    (h : (m.reportAll es span).session.journal.IsFree) : es = [] := by
  rw [reportAll_eq] at h
  cases es with
  | nil => rfl
  | cons e es =>
    rw [List.map_cons, ← List.singleton_append, ← List.append_assoc] at h
    exact absurd (Journal.isFree_append.mp h).1 (Journal.not_isFree_report _ _ _)

theorem prefix_journal_reportAll (m : ModuleState) (es : List LayoutError) (span : Span) :
    m.session.journal <+: (m.reportAll es span).session.journal := by
  rw [reportAll_eq]
  exact List.prefix_append _ _

/-- Lowering an item only adds to the journal. -/
theorem prefix_journal_lowerItem {item : Item} (h : m.lowerItem r item = .ok m') :
    m.session.journal <+: m'.session.journal := by
  cases item with
  | place x =>
    cases h
    exact prefix_journal_reportAll { m with directives := (m.directives.apply r x).1 } _ _
  | op d =>
    cases h
    exact List.prefix_rfl
  | external d =>
    cases h
    exact List.prefix_rfl
  | func d =>
    simp only [lowerItem, lowerFunction] at h
    generalize d.lower r m.session.decls { counter := m.session.counter } = x at h
    split at h
    · cases h
    · cases h
      exact (List.prefix_append _ _).trans (List.prefix_append _ _)
  | data d =>
    simp only [lowerItem] at h
    split at h
    · cases h
    · cases h
      exact prefix_journal_reportAll m _ _
    · cases h
      have hadd : ∀ (m : ModuleState) (e : Event) (c : Chunk),
          m.session.journal <+: ((m.note e).add c).session.journal := fun m e c =>
        (List.prefix_append _ _).trans (List.prefix_append _ _)
      exact (prefix_journal_reportAll m _ _).trans (hadd _ _ _)
  | var d =>
    simp only [lowerItem] at h
    split at h
    · cases h
      exact prefix_journal_reportAll m _ _
    · cases h
      exact List.prefix_append _ _

theorem isChunkOf_func (d : FuncDecl) (r : Resolver) (decls : Declarations) (s : FnState) :
    IsChunkOf (.func d) (d.lower r decls s).1 :=
  ⟨rfl, List.mem_cons_self, .inr rfl⟩

theorem isChunkOf_data {d : DataDecl} {size : Int64} {c : Chunk} {errors : List LayoutError}
    (h : d.lower r = .ok (some (size, c), errors)) : IsChunkOf (.data d) c := by
  have hlabels : ∀ (pos : Nat) (fs : List Fixup),
      Line.listLabels pos (fs.map fun f => .fixup { f with span := d.span }) = [] := by
    intro pos fs
    induction fs generalizing pos with
    | nil => rfl
    | cons f fs ih => exact ih _
  unfold DataDecl.lower at h
  split at h
  · cases h
  · split at h
    · cases h
    · cases h
      refine ⟨rfl, List.mem_cons_of_mem _ List.mem_cons_self, .inl ?_⟩
      rw [Chunk.labels, Line.listLabels_cons, hlabels]
      rfl

theorem isChunkOf_var {d : VarDecl} {c : Chunk} (h : d.lower r = .ok c) :
    IsChunkOf (.var d) c := by
  unfold VarDecl.lower at h
  split at h
  · cases h
  · cases h
    exact ⟨rfl, List.mem_cons_of_mem _ (List.mem_cons_of_mem _ List.mem_cons_self), .inl rfl⟩

/-- An item that is lowered without an error.  Storage without a size, which
    gets no chunk, is an error. -/
theorem lowers_item {item : Item} (h : m.lowerItem r item = .ok m')
    (hfree : m'.session.journal.IsFree) : Lowers m [item] m' := by
  cases item with
  | place x =>
    cases h
    exact lowers_of_none rfl rfl
  | op d =>
    cases h
    exact lowers_of_none rfl rfl
  | external d =>
    cases h
    exact lowers_of_none rfl rfl
  | func d =>
    have hchunk := isChunkOf_func d r m.session.decls { counter := m.session.counter }
    simp only [lowerItem, lowerFunction] at h
    generalize d.lower r m.session.decls { counter := m.session.counter } = x at h hchunk
    split at h
    · cases h
    · cases h
      exact lowers_add hchunk rfl rfl
  | data d =>
    simp only [lowerItem] at h
    split at h
    · cases h
    · rename_i errors hlower
      cases h
      rw [reportAll_of_isFree hfree] at hlower
      exact absurd hlower (DataDecl.lower_ne_none d r)
    · rename_i hlower
      cases h
      exact lowers_add (isChunkOf_data hlower) rfl rfl
  | var d =>
    simp only [lowerItem] at h
    split at h
    · cases h
      exact absurd (reportAll_of_isFree hfree) (List.cons_ne_nil _ _)
    · rename_i hlower
      cases h
      exact lowers_add (isChunkOf_var hlower) rfl rfl

theorem lowerAll_cons_eq_ok {item : Item} {items : List Item}
    (h : (item :: items).foldlM (lowerItem r) m = .ok m') :
    ∃ m₁, m.lowerItem r item = .ok m₁ ∧ items.foldlM (lowerItem r) m₁ = .ok m' := by
  rw [List.foldlM_cons] at h
  cases hitem : m.lowerItem r item with
  | error fault =>
    rw [hitem] at h
    cases h
  | ok m₁ =>
    rw [hitem] at h
    exact ⟨m₁, rfl, h⟩

theorem prefix_journal_lowerAll {items : List Item}
    (h : items.foldlM (lowerItem r) m = .ok m') : m.session.journal <+: m'.session.journal := by
  induction items generalizing m with
  | nil =>
    cases h
    exact List.prefix_rfl
  | cons item items ih =>
    obtain ⟨m₁, hitem, h⟩ := lowerAll_cons_eq_ok h
    exact (prefix_journal_lowerItem hitem).trans (ih h)

/-- Items that are lowered without an error, one after the other. -/
theorem lowers_all {items : List Item} (h : items.foldlM (lowerItem r) m = .ok m')
    (hfree : m'.session.journal.IsFree) : Lowers m items m' := by
  induction items generalizing m with
  | nil =>
    cases h
    exact .refl _
  | cons item items ih =>
    obtain ⟨m₁, hitem, h⟩ := lowerAll_cons_eq_ok h
    have hfree₁ := hfree.of_prefix (prefix_journal_lowerAll h)
    exact (lowers_item hitem hfree₁).trans (ih h)

end ModuleState

/-! ## Modules -/

/-- A module and its program: names of one kind are different, and there is a
    chunk for each item that has code or takes storage. -/
structure Module.Yields (m : Module) (p : Program) : Prop where
  functions : m.functionNames.Nodup
  storage : m.storageNames.Nodup
  names : p.chunks.map (·.name) = m.items.filterMap Item.chunkName?
  externals : p.externals.map (·.name) = m.items.filterMap Item.externalName?
  chunks : ∀ c ∈ p.chunks, ∃ item ∈ m.items, ModuleState.IsChunkOf item c

/-- What lowering a module gives when nothing is in error. -/
theorem Module.yields_of_lower {m : Module} {r : Resolver} {j : Journal} {p : Program}
    {s : Session} (h : m.lower r { journal := j } = .ok (p, s)) (hfree : s.journal.IsFree) :
    m.Yields p := by
  unfold Module.lower at h
  dsimp only at h
  split at h
  · cases h
  · rename_i x hx
    cases h
    have hlowered := (Journal.isFree_append.mp hfree).1
    have hdeclared := hlowered.of_prefix (ModuleState.prefix_journal_lowerAll hx)
    have hd := Session.declares_all hdeclared
    have hl := ModuleState.lowers_all hx hlowered
    have hfunctions := hd.functions_nodup List.nodup_nil
    have hglobals := hd.globals_nodup List.nodup_nil
    rw [hd.functions] at hfunctions
    rw [hd.globals] at hglobals
    refine ⟨hfunctions, hglobals, hl.names, ?_, fun c hc => ?_⟩
    · rw [hl.externals]
      exact hd.externals
    · exact (hl.chunks c hc).resolve_left List.not_mem_nil

end Z80Backend
