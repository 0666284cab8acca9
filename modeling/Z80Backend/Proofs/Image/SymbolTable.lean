import Z80Backend.Compiler
import Z80Backend.Proofs.Image.Relocation
import Z80Backend.Proofs.Program.Declared

/-! # The symbol table and the patched code

    The symbol table is searched from its start, and the names in code are
    looked up from the end of the same definitions.  The two agree where no
    name that can be used everywhere is defined twice.

    Functions are told apart from functions and storage from storage when a
    module is declared, but a function is not told apart from storage, nor
    either of them from a constant, nor a constant from an enum member.  The
    labels of a function are in the scope of its name, so a function with the
    name of the module scope makes them usable everywhere.
    `Module.NamesApart` says that nothing of this kind happens.

    * `Image.Agrees`: the table agrees with the code.
    * `Compiler.image_agrees`: it does so for every module whose names are
      apart.
    * `Compiler.twins_disagree`: a function and data of one name. -/

namespace Z80Backend

/-! ## Tables -/

namespace Symbol

/-- Can the name be used everywhere? -/
def isGlobal (s : Symbol) : Bool := s.scope == moduleScope

/-- Where no global name occurs twice, every global symbol is found. -/
theorem find?_of_nodup {ss : List Symbol} (hnodup : ((ss.filter isGlobal).map (·.name)).Nodup)
    {s : Symbol} (hs : s ∈ ss.filter isGlobal) : find? ss s.name = some s := by
  obtain ⟨hmem, hglobal⟩ := List.mem_filter.mp hs
  have hsome : (find? ss s.name).isSome :=
    List.find?_isSome.mpr ⟨s, hmem, Bool.and_eq_true_iff.mpr ⟨beq_self_eq_true _, hglobal⟩⟩
  obtain ⟨t, ht⟩ := Option.isSome_iff_exists.mp hsome
  have hfound := List.find?_some ht
  obtain ⟨hname, htglobal⟩ := Bool.and_eq_true_iff.mp hfound
  have hst : t = s := List.inj_on_of_nodup_map hnodup
    (List.mem_filter.mpr ⟨List.mem_of_find?_eq_some ht, htglobal⟩) hs (by simpa using hname)
  rw [ht, hst]

end Symbol

/-- Where no name occurs twice, the last entry of a name is its only one. -/
theorem lastOf_of_nodup {entries : List (String × Int64)} (hnodup : (entries.map (·.1)).Nodup)
    {name : String} {v : Int64} (h : (name, v) ∈ entries) : lastOf name entries = some v := by
  rcases lastOf_cases name entries with ⟨w, hw, before, after, heq, _⟩ | ⟨_, hall⟩
  · have hmem : (name, w) ∈ entries := by
      rw [heq]
      exact List.mem_append_right _ List.mem_cons_self
    have hvw : (name, w) = (name, v) := List.inj_on_of_nodup_map hnodup hmem h rfl
    cases hvw
    exact hw
  · exact absurd rfl (hall _ h)

/-- The target that a patch leads to. -/
def Patch.target (q : Patch) : Int64 :=
  if q.kind = .rel8 then q.address + 1 + q.value else q.value

/-- The symbol table agrees with the code.  The bytes are those of the chunks
    with the patches applied, no name that can be used everywhere is there
    twice, and where a fixup refers to one of the names and the chunk has no
    such label, the patch of its slot leads to the address that the table
    gives for the name. -/
structure Image.Agrees (img : Image) (names : List String) (patches : List Patch) : Prop where
  bytes : img.bytes = patches.foldl ByteMap.applyPatch
    (({} : ByteMap Nat).writeAll img.placements 0 img.placements).1
  unique : ((img.symbols.filter Symbol.isGlobal).map (·.name)).Nodup
  targets : ∀ p ∈ img.placements, ∀ f ∈ p.chunk.fixups, f.symbol ≠ "" →
    (∀ x ∈ p.chunk.labels, x.name ≠ f.symbol) → f.symbol ∈ names →
    ∃ s a, Symbol.find? img.symbols f.symbol = some s ∧ s.address = some a ∧
      ∃ q ∈ patches, q.chunk = p.chunk.name ∧ q.kind = f.kind ∧
        q.address = p.start + f.offset ∧ q.target = a + f.addend

/-! ## Placed chunks -/

namespace Placement

/-- The symbol of the chunk itself. -/
def symbol (p : Placement) : Symbol :=
  { name := p.chunk.name, kind := p.chunk.kind, address := some p.start, size := p.chunk.size,
    scope := Symbol.moduleScope, file := p.chunk.span.file, line := p.chunk.span.line }

/-- The labels of a chunk cannot be used everywhere, unless they are in a chunk
    with the name of the module scope. -/
theorem filter_isGlobal_symbols {p : Placement}
    (h : p.chunk.labels = [] ∨ p.chunk.name ≠ Symbol.moduleScope) :
    p.symbols.filter Symbol.isGlobal = [p.symbol] := by
  have hlabels : ∀ ls : List (LocalLabel × Int64), p.chunk.name ≠ Symbol.moduleScope →
      (ls.map fun x =>
        { name := x.1.name, kind := .label, address := some x.2, scope := p.chunk.name,
          file := x.1.span.file, line := x.1.span.line : Symbol }).filter Symbol.isGlobal = [] := by
    intro ls hname
    rw [List.filter_eq_nil_iff]
    intro s hs
    obtain ⟨_, _, rfl⟩ := List.mem_map.mp hs
    simpa [Symbol.isGlobal] using hname
  rw [symbols, List.filter_cons_of_pos rfl]
  congr 1
  rcases h with hnone | hname
  · rw [labels, hnone]
    rfl
  · exact hlabels _ hname

end Placement

/-- Every collision is an error. -/
theorem ByteMap.isError_writeAll {all ps : List Placement} {n : Nat} {m : ByteMap Nat}
    {d : Diagnostic} (h : d ∈ (m.writeAll all n ps).2) : d.isError = true := by
  induction ps generalizing n m with
  | nil => cases h
  | cons p ps ih =>
    unfold writeAll at h
    split at h
    · rcases List.mem_append.mp h with h | h
      · obtain ⟨_, _, rfl⟩ := List.mem_map.mp h
        rfl
      · exact ih h
    · exact ih h

namespace Linker

variable {l : Linker} {chunks : List Chunk} {x : Linked} {ps : List Placement} {p : Placement}

/-- The table and the patches of a link that gives a result. -/
theorem symbols_of_link (h : l.link chunks = .ok x) :
    x.image.symbols = l.symbols ++ (x.image.placements.filter (·.fits)).flatMap (·.symbols) ∧
    x.patches = filled (l.patches x.image.placements) := by
  unfold link at h
  dsimp only at h
  split at h
  · cases h
  · split at h
    · cases h
    · cases h
      exact ⟨rfl, rfl⟩

/-- Everything that linking reports is an error. -/
theorem isError_of_link (h : l.link chunks = .ok x) : ∀ d ∈ x.diagnostics, d.isError = true := by
  obtain ⟨_, _, _, hdiag⟩ := link_eq_ok h
  rw [hdiag]
  intro d hd
  rcases List.mem_append.mp hd with hd | hd
  · rcases List.mem_append.mp hd with hd | hd
    · obtain ⟨_, _, rfl⟩ := List.mem_map.mp hd
      rfl
    · exact ByteMap.isError_writeAll hd
  · obtain ⟨_, ho, heq⟩ := List.mem_filterMap.mp hd
    obtain ⟨p, _, hp⟩ := List.mem_flatMap.mp ho
    obtain ⟨f, _, rfl⟩ := List.mem_map.mp hp
    split at heq
    · cases heq
    · rename_i hf
      split at hf
      · cases heq
        cases hf
        rfl
      · cases hf

/-- The symbols that can be used everywhere: those of the linker, and one for
    each chunk. -/
def globals (l : Linker) (ps : List Placement) : List Symbol :=
  l.symbols ++ ps.map Placement.symbol

theorem filter_isGlobal (hfits : ∀ p ∈ ps, p.fits = true)
    (hl : ∀ s ∈ l.symbols, s.isGlobal = true)
    (hps : ∀ p ∈ ps, p.chunk.labels = [] ∨ p.chunk.name ≠ Symbol.moduleScope) :
    (l.symbols ++ (ps.filter (·.fits)).flatMap (·.symbols)).filter Symbol.isGlobal =
      l.globals ps := by
  rw [List.filter_append, List.filter_eq_self.mpr hl, List.filter_eq_self.mpr hfits, globals,
    List.filter_flatMap]
  congr 1
  rw [← List.flatMap_singleton' (ps.map Placement.symbol), List.flatMap_map]
  exact List.flatMap_congr fun p hp => Placement.filter_isGlobal_symbols (hps p hp)

theorem moduleNames_eq (hfits : ∀ p ∈ ps, p.fits = true) :
    l.moduleNames ps = (l.globals ps).map fun s => (s.name, s.denotes) := by
  rw [moduleNames, List.filter_eq_self.mpr hfits, globals, List.map_append, List.map_map]
  rfl

/-- A global symbol with an address is what its name means in a chunk without a
    label of that name. -/
theorem value?_of_globals (hfits : ∀ p ∈ ps, p.fits = true)
    (hnodup : ((l.globals ps).map (·.name)).Nodup) (hchunks : (ps.map (·.chunk.name)).Nodup)
    (hp : p ∈ ps) {s : Symbol} (hs : s ∈ l.globals ps)
    (hlabel : ∀ x ∈ p.chunk.labels, x.name ≠ s.name) :
    l.value? ps p.chunk.name s.name = some s.denotes := by
  have hlocal : lastOf s.name (localNames ps p.chunk.name) = none := by
    rw [localNames_eq hfits hchunks hp]
    rcases lastOf_cases s.name (p.labels.map fun x => (x.1.name, x.2)) with
      ⟨v, _, before, after, heq, _⟩ | ⟨hnone, _⟩
    · have hmem : (s.name, v) ∈ p.labels.map fun x => (x.1.name, x.2) := by
        rw [heq]
        exact List.mem_append_right _ List.mem_cons_self
      obtain ⟨_, hx, hname⟩ := List.mem_map.mp hmem
      obtain ⟨x, hx', rfl⟩ := List.mem_map.mp hx
      exact absurd (congrArg Prod.fst hname) (hlabel x hx')
    · exact hnone
  have hmodule : lastOf s.name (l.moduleNames ps) = some s.denotes := by
    rw [moduleNames_eq hfits]
    refine lastOf_of_nodup ?_ (List.mem_map.mpr ⟨s, hs, rfl⟩)
    rw [List.map_map]
    exact hnodup
  rw [value?, hlocal, hmodule]
  rfl

theorem chunk_of_patchOf {f : Fixup} {q : Patch} (h : l.patchOf ps p f = .ok q) :
    q.chunk = p.chunk.name := by
  unfold patchOf at h
  split at h
  · cases h
  · dsimp only at h
    split at h
    · split at h
      · cases h
      · cases h
        rfl
    · split at h
      · cases h
      · cases h
        rfl

/-- The patch of a slot leads to the address of the symbol plus the addend. -/
theorem target_of_patchOf {f : Fixup} {q : Patch} {a : Int64}
    (hq : l.patchOf ps p f = .ok q) (hsymbol : f.symbol ≠ "")
    (hvalue : l.value? ps p.chunk.name f.symbol = some a) : q.target = a + f.addend := by
  obtain ⟨n, hn, hkind, _, hbranch, hword⟩ := patchOf_eq_ok hq
  rw [target, if_neg hsymbol, hvalue] at hn
  cases hn
  by_cases hrel : f.kind = .rel8
  · rw [Patch.target, if_pos (hkind.trans hrel), (hbranch hrel).1, Int64.add_comm a]
    grind
  · rw [Patch.target, if_neg (hkind ▸ hrel), (hword hrel).1, Int64.add_comm a]

/-- Linking without a report gives a table that agrees with the code, for all
    names that a global symbol with an address has. -/
theorem agrees_of_link {names : List String} (h : l.link chunks = .ok x)
    (hclean : x.diagnostics = []) (hl : ∀ s ∈ l.symbols, s.isGlobal = true)
    (hps : ∀ p ∈ x.image.placements, p.chunk.labels = [] ∨ p.chunk.name ≠ Symbol.moduleScope)
    (hnodup : ((l.globals x.image.placements).map (·.name)).Nodup)
    (hnames : ∀ name ∈ names, ∃ s ∈ l.globals x.image.placements,
      s.name = name ∧ s.address.isSome = true) :
    x.image.Agrees names x.patches := by
  obtain ⟨_, _, hbytes, _⟩ := link_eq_ok h
  obtain ⟨hsymbols, hpatches⟩ := symbols_of_link h
  obtain ⟨hplaced, _, hfailed⟩ := link_of_clean h hclean
  have hfits : ∀ p ∈ x.image.placements, p.fits = true := fun p hp => (hplaced p hp).1
  have hglobals := filter_isGlobal hfits hl hps
  rw [← hsymbols] at hglobals
  have hchunks : (x.image.placements.map (·.chunk.name)).Nodup := by
    rw [globals, List.map_append, List.map_map] at hnodup
    exact (List.nodup_append.mp hnodup).2.1
  refine ⟨hpatches ▸ hbytes, hglobals ▸ hnodup, fun p hp f hf hne hlabel hname => ?_⟩
  obtain ⟨s, hs, hsname, haddress⟩ := hnames f.symbol hname
  obtain ⟨a, ha⟩ := Option.isSome_iff_exists.mp haddress
  have hvalue := value?_of_globals hfits hnodup hchunks hp hs (hsname ▸ hlabel)
  rw [hsname, Symbol.denotes, ha, Option.getD_some] at hvalue
  have hfind := Symbol.find?_of_nodup (hglobals ▸ hnodup) (hglobals ▸ hs)
  rw [hsname] at hfind
  have hslot : l.outcome x.image.placements (p, f) ∈ l.patches x.image.placements := by
    rw [patches_eq hfits]
    exact List.mem_map_of_mem (mem_slots.mpr ⟨hp, hf⟩)
  obtain ⟨q, hq⟩ := exists_of_not_failed hfailed hslot
  have hmem : q ∈ x.patches := by
    rw [hpatches]
    exact mem_filled.mpr (hq ▸ hslot)
  have hpatch := patchOf_of_outcome hq
  obtain ⟨_, _, hkind, hat, _⟩ := patchOf_eq_ok hpatch
  exact ⟨s, a, hfind, ha, q, hmem, chunk_of_patchOf hpatch, hkind, hat,
    target_of_patchOf hpatch hne hvalue⟩

end Linker

/-! ## Names of a module -/

/-- No name of a module is defined twice: no function has the name of storage,
    no constant the name of either, no enum member that of a constant, and no
    function that of the module scope. -/
structure Module.NamesApart (m : Module) (env : Environment) : Prop where
  storage : ∀ name ∈ m.functionNames, name ∉ m.storageNames
  items : ∀ x ∈ env.constants, x.1 ∉ m.functionNames ++ m.storageNames
  constants : (env.constants.map (·.1)).Nodup
  scope : Symbol.moduleScope ∉ m.functionNames

/-- Functions at fixed addresses and items with chunks are the functions and
    the storage. -/
theorem Item.perm_names (items : List Item) :
    (items.filterMap externalName? ++ items.filterMap chunkName?).Perm
      (items.filterMap functionName? ++ items.filterMap storageName?) := by
  induction items with
  | nil => exact .refl _
  | cons item items ih =>
    cases item with
    | op d => exact ih
    | place d => exact ih
    | external d => exact ih.cons d.name
    | func d => exact List.perm_middle.trans (ih.cons d.name)
    | data d => exact List.perm_middle.trans ((ih.cons d.name).trans List.perm_middle.symm)
    | var d => exact List.perm_middle.trans ((ih.cons d.name).trans List.perm_middle.symm)

namespace Module.NamesApart

variable {m : Module} {env : Environment}

theorem nodup (h : m.NamesApart env) (hfunctions : m.functionNames.Nodup)
    (hstorage : m.storageNames.Nodup) :
    (m.items.filterMap Item.externalName? ++ env.constants.map (·.1) ++
      m.items.filterMap Item.chunkName?).Nodup := by
  have hnames : (m.functionNames ++ m.storageNames).Nodup := by
    rw [List.nodup_append]
    exact ⟨hfunctions, hstorage, fun a ha b hb hab => h.storage a ha (hab ▸ hb)⟩
  have hperm := Item.perm_names m.items
  have hitems := hperm.nodup_iff.mpr hnames
  have hall : (env.constants.map (·.1) ++
      (m.items.filterMap Item.externalName? ++ m.items.filterMap Item.chunkName?)).Nodup := by
    rw [List.nodup_append]
    refine ⟨h.constants, hitems, fun a ha b hb hab => ?_⟩
    obtain ⟨x, hx, rfl⟩ := List.mem_map.mp ha
    exact h.items x hx (hperm.mem_iff.mp (hab ▸ hb))
  rw [← List.append_assoc] at hall
  exact (List.perm_append_comm.append_right _).nodup_iff.mp hall

end Module.NamesApart

/-! ## Compiling -/

namespace Compiler

variable {c : Compiler} {m : Module} {env : Environment} {result : CompileResult} {img : Image}

/-- What compiling comes to when it gives an image. -/
theorem compile_eq_ok (h : c.compile m env = .ok result) (himg : result.image = some img) :
    ∃ program session linked,
      m.lower env.resolver { journal := c.opening m } = .ok (program, session) ∧
      (c.linker env program).link program.chunks = .ok linked ∧ img = linked.image ∧
      session.journal.IsFree ∧ linked.diagnostics = [] ∧
      ∀ q ∈ linked.patches, Event.announced (.patch q) ∈ result.journal := by
  unfold compile at h
  cases hlower : m.lower env.resolver { journal := c.opening m } with
  | error fault =>
    rw [hlower] at h
    cases h
  | ok x =>
    obtain ⟨program, session⟩ := x
    rw [hlower] at h
    simp only [bind, Except.bind] at h
    cases hlink : (c.linker env program).link program.chunks with
    | error fault =>
      rw [hlink] at h
      cases h
    | ok linked =>
      rw [hlink] at h
      cases h
      dsimp only at himg
      split at himg
      · cases himg
      · rename_i hfree
        cases himg
        rw [List.any_eq_true] at hfree
        have hall : Journal.IsFree (session.journal ++ linked.events ++
            linked.diagnostics.map fun d => Event.announced (.diagnostic d)) := by
          intro d hd
          by_contra hd'
          exact hfree ⟨d, hd, by simpa using hd'⟩
        obtain ⟨hfront, hback⟩ := Journal.isFree_append.mp hall
        refine ⟨program, session, linked, rfl, hlink, rfl, (Journal.isFree_append.mp hfront).1,
          ?_, fun q hq => ?_⟩
        · rw [List.eq_nil_iff_forall_not_mem]
          intro d hd
          have hwarning := hback d (Journal.mem_diagnostics (List.mem_map.mpr ⟨d, hd, rfl⟩))
          exact absurd (Linker.isError_of_link hlink d hd) (by simp [hwarning])
        · have hevent : Event.announced (.patch q) ∈ linked.events :=
            List.mem_append_right _ (List.mem_map.mpr ⟨q, hq, rfl⟩)
          exact List.mem_append_left _ (List.mem_append_left _ (List.mem_append_right _ hevent))

/-- The symbols that the linker has from the start can be used everywhere. -/
theorem isGlobal_linker (program : Program) :
    ∀ s ∈ (c.linker env program).symbols, s.isGlobal = true := by
  intro s hs
  rcases List.mem_append.mp hs with hs | hs
  · obtain ⟨_, _, rfl⟩ := List.mem_map.mp hs
    rfl
  · obtain ⟨_, _, rfl⟩ := List.mem_map.mp hs
    rfl

/-- The names of the global symbols. -/
theorem names_globals (program : Program) (ps : List Placement) :
    ((c.linker env program).globals ps).map (·.name) =
      program.externals.map (·.name) ++ env.constants.map (·.1) ++ ps.map (·.chunk.name) := by
  unfold Linker.globals linker
  simp only [List.map_append, List.map_map]
  rfl

/-- The symbol table of a compiled module agrees with the patched code. -/
theorem image_agrees (c : Compiler) (m : Module) (env : Environment) (result : CompileResult)
    (img : Image) (hnames : m.NamesApart env) (h : c.compile m env = .ok result)
    (himg : result.image = some img) :
    ∃ patches : List Patch, (∀ q ∈ patches, Event.announced (.patch q) ∈ result.journal) ∧
      img.Agrees (m.functionNames ++ m.storageNames) patches := by
  obtain ⟨program, session, linked, hlower, hlink, rfl, hfree, hclean, hpatches⟩ :=
    compile_eq_ok h himg
  have hyields := Module.yields_of_lower hlower hfree
  obtain ⟨_, hplaces, _, _⟩ := Linker.link_eq_ok hlink
  have hperm : (linked.image.placements.map (·.chunk)).Perm program.chunks := by
    rw [hplaces]
    exact Placement.perm_ofChunks _ fun ch hch => by
      obtain ⟨item, _, hitem⟩ := hyields.chunks ch hch
      exact hitem.home
  have hchunks : (linked.image.placements.map (·.chunk.name)).Perm
      (m.items.filterMap Item.chunkName?) := by
    have hnamed := hperm.map Chunk.name
    rw [List.map_map] at hnamed
    exact hyields.names ▸ hnamed
  refine ⟨linked.patches, hpatches,
    Linker.agrees_of_link hlink hclean (isGlobal_linker program) ?_ ?_ ?_⟩
  · intro p hp
    obtain ⟨item, hitem, hchunk⟩ :=
      hyields.chunks p.chunk (hperm.mem_iff.mp (List.mem_map_of_mem hp))
    refine hchunk.labels.imp_right fun hname heq => hnames.scope ?_
    exact List.mem_filterMap.mpr ⟨item, hitem, heq ▸ hname⟩
  · rw [names_globals, hyields.externals]
    exact (hchunks.append_left _).nodup_iff.mpr (hnames.nodup hyields.functions hyields.storage)
  · intro name hname
    rcases List.mem_append.mp ((Item.perm_names m.items).mem_iff.mpr hname) with hname | hname
    · rw [← hyields.externals] at hname
      obtain ⟨x, hx, rfl⟩ := List.mem_map.mp hname
      refine ⟨.external x.name x.address x.span, ?_, rfl, rfl⟩
      exact List.mem_append_left _ (List.mem_append_left _ (List.mem_map.mpr ⟨x, hx, rfl⟩))
    · obtain ⟨p, hp, rfl⟩ := List.mem_map.mp (hchunks.mem_iff.mpr hname)
      exact ⟨p.symbol, List.mem_append_right _ (List.mem_map_of_mem hp), rfl, rfl⟩

end Compiler

/-- Everything that a name can stand for: a function at a fixed address, a
    function with a body, initialised and uninitialised storage. -/
def Module.census : Module where
  name := "census"
  items := [
    .external { name := "print", address := .number 5 },
    .func {
      name := "main"
      body := [.label "again" {}, .call "print" [] {},
        .instr (.of "ld" [.ofReg "hl", .ofSymbol "tally" 1]),
        .instr (.of "djnz" [.ofName "main"]), .instr (.of "jp" [.ofName "again"])] },
    .data {
      name := "heads"
      type := { name := "word", len := 2 }
      values := [.name "main", .binary .add (.name "tally") (.name "limit")] },
    .var { name := "tally", type := { name := "word" } }]

/-- A constant for `Module.census`. -/
def Environment.limit : Environment where
  consts := [("limit", 2)]

/-- Calls, branches and words that refer to every kind of item. -/
theorem Compiler.census_agrees :
    Module.census.NamesApart .limit ∧
    ∃ result img, ({ name := "c" } : Compiler).compile .census .limit = .ok result ∧
      result.image = some img ∧
      (img.placements.flatMap (·.chunk.fixups)).map (·.symbol) =
        ["print", "tally", "main", "again", "main", "tally"] ∧
      ∃ patches : List Patch, (∀ q ∈ patches, Event.announced (.patch q) ∈ result.journal) ∧
        img.Agrees ["print", "main", "heads", "tally"] patches := by
  have happart : Module.census.NamesApart .limit :=
    ⟨by decide, by decide +kernel, by decide +kernel, by decide⟩
  have h : (match ({ name := "c" } : Compiler).compile .census .limit with
      | .error _ => false
      | .ok result => match result.image with
        | none => false
        | some img => (img.placements.flatMap (·.chunk.fixups)).map (·.symbol) ==
            ["print", "tally", "main", "again", "main", "tally"]) = true := by decide +kernel
  split at h
  · cases h
  · rename_i result hresult
    split at h
    · cases h
    · rename_i img himg
      exact ⟨happart, result, img, hresult, himg, beq_iff_eq.mp h,
        image_agrees _ _ _ result img happart hresult himg⟩

/-- A function that another one calls, and data of the same name. -/
def Module.twins : Module where
  name := "twins"
  items := [
    .func { name := "twin", returns := ["af", "bc", "de", "hl"] },
    .func { name := "main", returns := ["af", "bc", "de", "hl"], body := [.call "twin" [] {}] },
    .data { name := "twin", type := { name := "byte" }, values := [.number 7] }]

/-- Does the event announce that a slot was filled in this way? -/
def Event.fills (q : Patch) : Event → Bool
  | announced (.patch q') => q' == q
  | _ => false

theorem Event.eq_of_fills {e : Event} {q : Patch} (h : e.fills q = true) :
    e = .announced (.patch q) := by
  unfold fills at h
  split at h
  · rw [beq_iff_eq.mp h]
  · cases h

/-- Both have an entry in the table.  The first one is the function, and the
    call goes to the data. -/
theorem Compiler.twins_disagree :
    ∃ result img, ({ name := "c" } : Compiler).compile .twins {} = .ok result ∧
      result.image = some img ∧
      (img.symbols.filter Symbol.isGlobal).map (·.name) = ["twin", "main", "twin"] ∧
      (Symbol.find? img.symbols "twin").map (·.address) = some (some 0) ∧
      ∃ q : Patch, Event.announced (.patch q) ∈ result.journal ∧ q.chunk = "main" ∧
        q.symbol = "twin" ∧ q.address = 4 ∧ q.target = 7 := by
  let call : Patch :=
    { chunk := "main", kind := .abs16, symbol := "twin", address := 4, value := 7 }
  have h : ((({ name := "c" } : Compiler).compile .twins {}).toOption.any fun result =>
      result.image.any fun img =>
        (img.symbols.filter Symbol.isGlobal).map (·.name) == ["twin", "main", "twin"] &&
        (Symbol.find? img.symbols "twin").map (·.address) == some (some 0) &&
        result.journal.any (·.fills call)) = true := by decide +kernel
  cases hresult : ({ name := "c" } : Compiler).compile .twins {} with
  | error e =>
    rw [hresult] at h
    cases h
  | ok result =>
    rw [hresult] at h
    change result.image.any _ = true at h
    obtain ⟨img, himg, h⟩ := (Option.any_eq_true _ _).mp h
    simp only [Bool.and_eq_true, beq_iff_eq, List.any_eq_true] at h
    obtain ⟨⟨hnames, hfirst⟩, e, he, hcall⟩ := h
    rw [Event.eq_of_fills hcall] at he
    exact ⟨result, img, rfl, himg, hnames, hfirst, call, he, rfl, rfl, rfl, rfl⟩

end Z80Backend
