import Z80Backend.Proofs.Address.Symbols
import Z80Backend.Proofs.Function.Labelled
import Z80Backend.Proofs.Op.Names

/-! # Every generated label is defined once

    Whatever the statements of a function are, balanced or not, the chunk that
    it becomes defines no label twice, and every generated label that its code
    waits for stands in the chunk.

    Statements keep the body sound (`Proofs.Function.Labelled`) as long as the
    generated names that are written in them are known.  In a function of the
    user there are none.  In an expansion there are the renamed labels; they
    count as known while the expansion is lowered, and when it is done they are
    all placed.

    * `FnContext.sound_lowerStmt`: the step lemma, one case for each statement.
    * `FnContext.sound_lowerNodes`, `FnContext.labelled_lowerOp`: expansions.
    * `FuncDecl.labels_defined_once`: functions. -/

namespace Z80Backend

open FnState

/-- The generated names among `xs` are in `K`. -/
def Label.Knows (K : String → Prop) (xs : List String) : Prop :=
  ∀ x ∈ xs, isGenerated x = true → K x

namespace FnContext

variable {ctx : FnContext} {K : String → Prop} {s : FnState}

/-- Neither storage nor the bodies of ops name a generated label. -/
structure IsPlain (ctx : FnContext) : Prop where
  scope : ctx.scope.IsPlain
  ops : ∀ d ∈ ctx.ops.decls, ∀ x ∈ d.names, Label.isGenerated x = false
  stem : ctx.ops.stem = Label.make "op"

/-! ## Code without labels -/

theorem appends_emitAround (ctx : FnContext) {is : List Instruction} (h : ∀ i ∈ is, i.Asks K)
    (s : FnState) : Appends K s (ctx.emitAround is s) :=
  .foldl (fun i hi s => (Appends.refl (s := s)).emitSilent (h i hi) _ _) s

theorem isPlain_stack (head : String) (r : StackReg) :
    (Instruction.of head [.ofReg r.text]).IsPlain := by
  apply Instruction.IsPlain.of_names
  cases r with
  | index x => cases x <;> simp [StackReg.text, IndexReg.text] <;> decide
  | bc | de | hl | af =>
    simp [StackReg.text]
    decide

theorem isPlain_cleanup (ctx : FnContext) : ∀ i ∈ ctx.cleanup, i.IsPlain :=
  forall_mem_cleanup (isPlain_stack "pop") (.of_names (by simp; decide))

theorem appends_lowerRet {i : Instruction} (hi : Label.Knows K i.names)
    (hepilogue : ∀ l, ctx.epilogue = some l → K l) (s : FnState) :
    Appends K s (ctx.lowerRet i s) := by
  have hcheck := ((Appends.refl (K := K) (s := s)).count (s.returns + 1)).check
    s.tracker.depth.returnError? i.span
  unfold lowerRet
  dsimp only
  split
  · exact hcheck.emit (.of_names hi) _
  · rename_i label hlabel
    split
    · refine (hcheck.trans (ctx.appends_emitAround (fun i hi => ?_) _)).emit (.of_names hi) _
      exact (ctx.isPlain_cleanup i hi).asks
    · refine hcheck.emit (.of_names fun x hx hgen => ?_) _
      obtain ⟨o, ho, hx⟩ := List.mem_flatMap.mp hx
      rcases List.mem_append.mp ho with ho | ho
      · exact hi x (List.mem_flatMap.mpr ⟨o, List.mem_of_mem_take ho, hx⟩) hgen
      · obtain rfl := List.mem_singleton.mp ho
        obtain rfl := List.mem_singleton.mp hx
        exact hepilogue x hlabel

/-- The steps of typed access are plain. -/
theorem allPlain_typedSteps (hctx : ctx.IsPlain) {i : Instruction} {steps : List Step}
    (h : ctx.typedSteps i = .ok steps) : Step.AllPlain steps := by
  have hsides : ∀ {p other x reg}, ctx.typedSides i p other = .ok (x, reg) →
      x.address.IsPlain := by
    intro p other x reg hs
    unfold typedSides at hs
    split at hs
    · dsimp only at hs
      split at hs
      · cases hs
      rename_i y hy
      split at hs
      · cases hs
      split at hs
      · cases hs
      split at hs
      · cases hs
      cases hs
      exact Place.isPlain_of_resolve hctx.scope hy
    · cases hs
  unfold typedSteps at h
  split at h
  · cases h
  split at h
  · split at h
    · split at h
      · cases h
      rename_i hs
      exact Address.allPlain_store (hsides hs) h
    · split at h
      · split at h
        · cases h
        rename_i hs
        exact Address.allPlain_load (hsides hs) h
      · cases h
  · cases h

theorem appends_lowerTyped (hctx : ctx.IsPlain) (i : Instruction) (s : FnState) :
    Appends K s (ctx.lowerTyped i s) := by
  unfold lowerTyped
  split
  · exact Appends.refl.report _ _
  · rename_i steps hsteps
    have hplain := (allPlain_typedSteps hctx hsteps).instruction
    exact (Appends.refl.note _).trans (.emitAll (fun i hi => (hplain i hi).asks) _ _ _)

/-! ## Calls -/

theorem isPlain_pushHL : (Instruction.of "push" [.ofReg "hl"]).IsPlain := isPlain_stack "push" .hl

theorem isPlain_swapTop : swapTop.IsPlain := by
  apply Instruction.IsPlain.of_names
  simp [swapTop]
  decide

theorem isPlain_clearH : (Instruction.of "ld" [.ofReg "h", .ofNum 0]).IsPlain := by
  apply Instruction.IsPlain.of_names
  simp
  decide

theorem isPlain_pushStorage (hctx : ctx.IsPlain) {p : Place} {code : List Instruction}
    (h : ctx.pushStorage p = .ok code) : ∀ i ∈ code, i.IsPlain := by
  unfold pushStorage at h
  split at h
  · cases h
  rename_i x hx
  have haddr := Place.isPlain_of_resolve hctx.scope hx
  have hbyte := (Address.allPlain_loadByte haddr .l).instruction
  have hword := (Address.allPlain_loadWord haddr .hl).instruction
  dsimp only at h
  split at h
  · cases h
    simp only [List.forall_mem_append, List.forall_mem_cons]
    exact ⟨⟨⟨isPlain_pushHL, by simp⟩, hbyte⟩, isPlain_clearH, isPlain_swapTop, by simp⟩
  split at h
  · cases h
    simp only [List.forall_mem_append, List.forall_mem_cons]
    exact ⟨⟨⟨isPlain_pushHL, by simp⟩, hword⟩, isPlain_swapTop, by simp⟩
  · cases h

/-- The code of an argument waits for what the argument names. -/
theorem asks_pushArg (hctx : ctx.IsPlain) {callee : String} {n : Nat} {arg : Operand}
    (harg : Label.Knows K arg.names) {code : List Instruction}
    (h : ctx.pushArg callee n arg = .ok code) : ∀ i ∈ code, i.Asks K := by
  cases arg with
  | reg name span =>
    simp only [pushArg] at h
    split at h
    · rename_i hreg
      cases h
      have hplain : ∀ reg ∈ ["af", "bc", "de", "hl", "ix", "iy"],
          Label.isGenerated reg = false := by
        decide
      have hname := hplain _ (List.contains_iff_mem.mp hreg)
      simp only [List.forall_mem_cons]
      exact ⟨(Instruction.IsPlain.of_names (by simp [hname])).asks, by simp⟩
    · split at h
      · rename_i hreg
        cases h
        obtain ⟨r, hr⟩ := Option.isSome_iff_exists.mp hreg
        have hfound := List.find?_some hr
        have htext : r.text = Text.lower name := beq_iff_eq.mp hfound
        have hname : Label.isGenerated (Text.lower name) = false := by
          rw [← htext]
          cases r <;> decide
        have hl : Label.isGenerated "l" = false := by decide
        simp only [List.forall_mem_cons]
        exact ⟨isPlain_pushHL.asks, (Instruction.IsPlain.of_names (by simp [hname, hl])).asks,
          isPlain_clearH.asks, isPlain_swapTop.asks, by simp⟩
      · cases h
  | imm e span =>
    cases h
    simp only [List.forall_mem_cons]
    refine ⟨isPlain_pushHL.asks, .of_names fun x hx hgen => ?_, isPlain_swapTop.asks, by simp⟩
    rcases List.mem_cons.mp (show x ∈ "hl" :: (e.names ++ []) from hx) with rfl | hx
    · exact absurd hgen (by decide)
    · have hname : x ∈ e.names := by simpa using hx
      exact harg x hname hgen
  | place p span | mem p span =>
    simp only [pushArg] at h
    split at h
    · exact fun i hi => (isPlain_pushStorage hctx h i hi).asks
    · cases h
  | portC span | port e span | missing => cases h

theorem appends_pushArgs (hctx : ctx.IsPlain) (callee : String) (span : Span)
    {args : List (Operand × Nat)} (hargs : ∀ a ∈ args, Label.Knows K a.1.names) (s : FnState) :
    Appends K s (ctx.pushArgs callee span args s).2 := by
  induction args with
  | nil => exact .refl
  | cons a rest ih =>
    have hrest := ih fun b hb => hargs b (List.mem_cons_of_mem _ hb)
    rw [pushArgs]
    split
    · rename_i s' heq
      rwa [heq] at hrest
    · rename_i s' heq
      rw [heq] at hrest
      split
      · exact hrest.report _ _
      · rename_i code hcode
        exact hrest.trans (.emitAll (asks_pushArg hctx (hargs a List.mem_cons_self) hcode) _ _ s')

theorem appends_lowerCall (hctx : ctx.IsPlain) {callee : String} {args : List Operand}
    (hnames : Label.Knows K (callee :: args.flatMap Operand.names))
    (span : Span) (s : FnState) : Appends K s (ctx.lowerCall callee args span s) := by
  have hargs : ∀ a ∈ args.zipIdx, Label.Knows K a.1.names := by
    intro a ha x hx
    have hmem : a.1 ∈ args := List.fst_mem_of_mem_zipIdx ha
    exact hnames x (List.mem_cons_of_mem _ (List.mem_flatMap.mpr ⟨a.1, hmem, hx⟩))
  have hcall : ∀ i ∈ callCode callee args.length, i.Asks K := by
    intro i hi
    rcases List.mem_cons.mp hi with rfl | hi
    · refine .of_names fun x hx => ?_
      obtain rfl := List.mem_singleton.mp (show x ∈ [callee] from hx)
      exact hnames x List.mem_cons_self
    · obtain rfl := List.eq_of_mem_replicate hi
      exact (Instruction.IsPlain.of_names (by simp; decide)).asks
  unfold lowerCall
  split
  · exact Appends.refl.report _ _
  split
  · exact Appends.refl.report _ _
  have hpush := appends_pushArgs hctx callee span hargs s
  split
  · rename_i heq
    rwa [heq] at hpush
  · rename_i heq
    rw [heq] at hpush
    exact (hpush.trans (.emitAll hcall _ _ _)).note _

/-! ## Statements -/

/-- Lowering an op call keeps the promises of a state, as long as the names in the
    call are known. -/
def KeepsLabels (ctx : FnContext) (lowerOp : Instruction → FnState → FnState) : Prop :=
  ∀ (there pending : List String) (K : String → Prop) (i : Instruction) (s : FnState),
    s.Labelled there pending K → (∀ l, ctx.epilogue = some l → l ∈ pending) →
      Label.Knows K i.names → (lowerOp i s).Labelled there pending K

section

variable {lowerOp : Instruction → FnState → FnState} (hctx : ctx.IsPlain)
  (hop : ctx.KeepsLabels lowerOp) {there pending outer : List String} {b : Body}

include hctx hop

theorem labelled_lowerInstr (h : s.Labelled there pending K)
    (hepilogue : ∀ l, ctx.epilogue = some l → l ∈ pending) {i : Instruction}
    (hi : Label.Knows K i.names) : (ctx.lowerInstr lowerOp i s).Labelled there pending K := by
  have hknown : Label.Knows (Labelled.Known pending K s) i.names :=
    fun x hx hgen => .inr (hi x hx hgen)
  unfold lowerInstr
  dsimp only
  split
  · exact hop there pending K i s h hepilogue hi
  split
  · refine h.adds (appends_lowerRet hknown (fun l hl => ?_) s).adds
    exact .inl (List.mem_append_right _ (hepilogue l hl))
  split
  · exact h.adds (appends_lowerTyped hctx i s).adds
  · exact h.adds (s.adds_emit (.of_names hknown) _)

theorem sound_lowerSelect (h : b.Sound there outer K)
    (hepilogue : ∀ l, ctx.epilogue = some l → l ∈ outer) {selector : Operand}
    (hselector : Label.Knows K selector.names) (malformed : Bool) (span : Span) :
    (ctx.lowerSelect lowerOp selector malformed span b).Sound there outer K := by
  unfold lowerSelect
  split
  · exact h
  dsimp only
  split
  · exact Body.sound_openSelect span h
  · refine Body.sound_openSelect span (labelled_lowerInstr hctx hop h
      (fun l hl => List.mem_append_right _ (hepilogue l hl)) ?_)
    intro x hx hgen
    rcases List.mem_cons.mp (show x ∈ "a" :: (selector.names ++ []) from hx) with rfl | hx
    · exact absurd hgen (by decide)
    · exact hselector x (by simpa using hx) hgen

/-- Every statement keeps a body sound and places its label. -/
theorem sound_lowerStmt (h : b.Sound there outer K)
    (hepilogue : ∀ l, ctx.epilogue = some l → l ∈ outer) {st : Stmt}
    (hst : Label.Knows K st.names) (hlabels : ∀ l ∈ st.labels, Label.IsForeign l) :
    (ctx.lowerStmt lowerOp st b).Sound (st.labels ++ there) outer K := by
  cases st with
  | instr i =>
    exact labelled_lowerInstr hctx hop h (fun l hl => List.mem_append_right _ (hepilogue l hl)) hst
  | label name span =>
    refine (h.define ctx (hlabels name List.mem_cons_self) span).perm ?_ (.refl _)
    exact List.perm_middle.subset
  | call callee args span =>
    exact h.adds (appends_lowerCall hctx (fun x hx hgen => .inr (hst x hx hgen)) span b.fn).adds
  | ifOpen cond malformed span => exact Body.sound_openIf _ span h cond malformed
  | elseArm span => exact Body.sound_elseArm _ span h
  | endBlock span => exact Body.sound_endBlock _ span h
  | whileOpen cond malformed span => exact Body.sound_openWhile _ span h cond malformed
  | repeatOpen malformed span => exact Body.sound_openRepeat span h malformed
  | untilClose cond span => exact Body.sound_untilClose _ span h cond
  | selectOpen selector malformed span =>
    exact sound_lowerSelect hctx hop h hepilogue hst malformed span
  | caseArm es span => exact Body.sound_caseArm _ span h es

/-! ## Expansions -/

/-- An expanded body keeps a body sound and places its labels. -/
theorem sound_lowerNodes {there outer : List String} (ns : List Node) {b : Body}
    (hepilogue : ∀ l, ctx.epilogue = some l → l ∈ outer) (h : b.Sound there outer K)
    (hnames : Label.Knows K (Node.names ns)) (hlabels : ∀ l ∈ Node.labels ns, Label.IsForeign l) :
    (ctx.lowerNodes lowerOp ns b).Sound (Node.labels ns ++ there) outer K := by
  induction ns using Node.listInduction generalizing there outer b with
  | nil =>
    rw [lowerNodes]
    exact h
  | stmt st ns ih =>
    rw [Node.names_stmt] at hnames
    rw [Node.labels_stmt] at hlabels ⊢
    obtain ⟨hst, hns⟩ := List.forall_mem_append.mp hnames
    obtain ⟨hplaced, hlabels⟩ := List.forall_mem_append.mp hlabels
    rw [lowerNodes, lowerNode, List.append_assoc]
    exact (ih hepilogue (sound_lowerStmt hctx hop h hepilogue hst hplaced) hns hlabels).mono
      (List.perm_append_comm_assoc _ _ _).subset
  | nested op body ns hbody ih =>
    rw [Node.names_nested] at hnames
    rw [Node.labels_nested] at hlabels ⊢
    obtain ⟨hin, hns⟩ := List.forall_mem_append.mp hnames
    obtain ⟨hplaced, hlabels⟩ := List.forall_mem_append.mp hlabels
    rw [lowerNodes, lowerNode, List.append_assoc]
    -- The body of the expansion has blocks of its own; those around it wait.
    have hstart : Body.Sound (b.blocks.flatMap Block.placed ++ there)
        (b.blocks.flatMap Block.promised ++ outer) K { fn := b.fn.note (.expandedNestedOp op) } :=
      h.adds (b.fn.adds_note _)
    have hsound := hbody (fun l hl => List.mem_append_right _ (hepilogue l hl)) hstart hin hplaced
    have hend : Body.Sound (Node.labels body ++ there) outer K
        (ctx.lowerNode lowerOp (.nested op body) b) := by
      rw [lowerNode]
      exact (Body.labelled_close hsound).perm (List.perm_append_comm_assoc _ _ _).subset (.refl _)
    rw [lowerNode] at hend
    exact (ih hepilogue hend hns hlabels).mono (List.perm_append_comm_assoc _ _ _).subset

/-- An expansion keeps the promises.  Its labels count as known until they are
    placed. -/
theorem labelled_expansion (hepilogue : ∀ l, ctx.epilogue = some l → l ∈ pending)
    (h : s.Labelled there pending K) {body : List Node}
    (hnames : ∀ y ∈ Node.names body, (Label.isGenerated y = true → K y) ∨ y ∈ Node.labels body)
    (hlabels : ∀ l ∈ Node.labels body, Label.IsForeign l) :
    (ctx.lowerNodes lowerOp body { fn := s }).close.Labelled there pending K := by
  have hstart : Body.Sound there pending (fun y => K y ∨ y ∈ Node.labels body) { fn := s } :=
    h.mono fun y hy => .inl (.inl hy)
  have hknows : Label.Knows (fun y => K y ∨ y ∈ Node.labels body) (Node.names body) :=
    fun y hy hgen => (hnames y hy).imp_left fun hknown => hknown hgen
  have hsound := sound_lowerNodes hctx hop body hepilogue hstart hknows hlabels
  refine ((Body.labelled_close hsound).mono fun y hy => ?_).perm
    (List.subset_append_right _ _) (.refl _)
  exact hy.imp_right (List.mem_append_left _)

end

theorem adds_expansionErrors (errors : List ExpansionError) (span : Span) (s : FnState) :
    Adds K s (errors.foldl (fun s e => s.report (.expansion e) span) s) :=
  .foldl (fun e _ s => s.adds_report (.expansion e) span) s

/-- Op calls keep the promises, however deeply they nest. -/
theorem labelled_lowerOp (hctx : ctx.IsPlain) (depth : Nat) :
    ctx.KeepsLabels (ctx.lowerOp depth) := by
  induction depth with
  | zero =>
    intro there pending K i s h _ _
    exact h.adds (.of_same rfl rfl (Int.le_refl _))
  | succ depth ih =>
    intro there pending K call s h hepilogue hcall
    rw [lowerOp]
    split
    · exact h
    have hcounter := Ops.le_expandCall ctx.ops ctx.ops.decls [] call.span call s.counter
    have hnumber : Adds (Labelled.Known pending K s) s
        { s with counter := (ctx.ops.expand call s.counter).2.2 } := .of_same rfl rfl hcounter
    have herrors := hnumber.trans
      (adds_expansionErrors (ctx.ops.expand call s.counter).2.1 call.span _)
    dsimp only
    split
    · exact h.adds herrors
    rename_i x hx
    have hstart := herrors.trans
      (adds_note _ (.expandedOp x.op ctx.name x.instructions.length))
    refine labelled_expansion hctx ih hepilogue (h.adds hstart) ?_ ?_
    · refine (Ops.named_expand (fun d hd y hy hgen => ?_) hcall hx).names
      rw [hctx.ops d hd y hy] at hgen
      cases hgen
    · have hlabels := (Ops.named_expand (P := fun _ => True) (fun _ _ _ _ => trivial)
        (fun _ _ => trivial) hx).labels
      intro l hl
      obtain ⟨k, name, rfl⟩ := hlabels l hl
      rw [hctx.stem]
      exact Label.isForeign_renamed k name

/-- The statements of a function keep its promises. -/
theorem labelled_lowerBody (hctx : ctx.IsPlain) {pending : List String} {stmts : List Stmt}
    (h : s.Labelled [] pending K) (hepilogue : ∀ l, ctx.epilogue = some l → l ∈ pending)
    (hstmts : ∀ st ∈ stmts, ∀ x ∈ st.names, Label.isGenerated x = false) :
    (ctx.lowerBody stmts s).Labelled [] pending K := by
  have hop := labelled_lowerOp hctx ctx.nesting
  suffices hrun : ∀ b : Body, b.Sound [] pending K →
      (ctx.lowerAll (ctx.lowerOp ctx.nesting) stmts b).Sound [] pending K by
    exact Body.labelled_close (hrun { fn := s } h)
  induction stmts with
  | nil => exact fun b hb => hb
  | cons st sts ih =>
    intro b hb
    have hnames := hstmts st List.mem_cons_self
    have hknows : Label.Knows K st.names := by
      intro x hx hgen
      rw [hnames x hx] at hgen
      cases hgen
    have hlabels : ∀ l ∈ st.labels, Label.IsForeign l := by
      intro l hl
      cases st with
      | label name span => exact Label.isForeign_of_not_generated (hnames l hl)
      | _ => cases hl
    have hstep := sound_lowerStmt hctx hop hb hepilogue hknows hlabels
    exact ih (fun t ht => hstmts t (List.mem_cons_of_mem _ ht)) _ (hstep.mono (List.nil_subset _))

end FnContext

/-! ## Functions -/

theorem Line.names_listLabels (pos : Nat) (ls : List Line) :
    (listLabels pos ls).map (·.name) = labelNames ls := by
  induction ls generalizing pos with
  | nil => rfl
  | cons l ls ih =>
    rw [listLabels_cons, List.map_append, ih]
    cases l <;> rfl

/-- The names that a function writes: those in its statements and those in the
    initial values of its locals. -/
def FuncDecl.names (d : FuncDecl) : List String :=
  d.body.flatMap Stmt.names ++ d.locals.flatMap fun l => l.init.names

/-- The symbol of a piece of storage. -/
def Storage.symbol? (st : Storage) : Option String :=
  match st.home with
  | .global sym => some sym
  | _ => none

/-- The names that the rest of the module writes: those in the bodies of ops and
    the symbols of storage. -/
def Declarations.names (decls : Declarations) : List String :=
  decls.ops.flatMap OpDecl.names ++ decls.globals.filterMap fun entry => entry.2.symbol?

namespace FuncDecl

variable {d : FuncDecl} {r : Resolver} {decls : Declarations}

/-- A slot lies in the frame. -/
theorem symbol?_slotHome {role : SlotRole} {name : String} {t : TypeRef} {disp : Int64}
    {home : Home} (h : slotHome r role name t disp = .ok home) :
    Storage.symbol? { home, type := t } = none := by
  unfold slotHome at h
  split at h
  · cases h
    rfl
  split at h
  · cases h
  split at h
  · cases h
  · cases h
    rfl

/-- Laying out the slots only reports, and slots have no symbols. -/
theorem adds_layout {K : String → Prop} (d : FuncDecl) (r : Resolver) (s : FnState) :
    Adds K s (d.layoutSlots r d.slots ([], d.checkReturns s)).2 ∧
      ∀ entry ∈ (d.layoutSlots r d.slots ([], d.checkReturns s)).1, entry.2.symbol? = none := by
  refine d.layout_of (Q := fun t s' => Adds K s s' ∧ ∀ entry ∈ t, entry.2.symbol? = none)
    (fun p span h => ⟨h.1.trans (adds_report _ p span), h.2⟩) (fun _ hhome h => ⟨h.1, ?_⟩)
    ⟨.refl s, List.forall_mem_nil _⟩
  rw [List.forall_mem_append, List.forall_mem_singleton]
  exact ⟨h.2, symbol?_slotHome hhome⟩

/-- Where the module names no generated label, neither does the setting of a
    function. -/
theorem isPlain_context {slots : StorageTable}
    (hslots : ∀ entry ∈ slots, entry.2.symbol? = none)
    (hdecls : ∀ x ∈ decls.names, Label.isGenerated x = false) (epilogue : Option String) :
    (d.context r decls slots epilogue).IsPlain where
  scope name st sym hst hhome := by
    have hsym : st.symbol? = some sym := by rw [Storage.symbol?, hhome]
    obtain ⟨before, after, htable, _⟩ := List.lookup_eq_some_iff.mp hst
    have hentry : (name, st) ∈ slots ++ decls.globals := by rw [htable]; simp
    rcases List.mem_append.mp hentry with hentry | hentry
    · rw [hslots _ hentry] at hsym
      cases hsym
    · exact hdecls sym (List.mem_append_right _ (List.mem_filterMap.mpr ⟨_, hentry, hsym⟩))
  ops d hd x hx := hdecls x (List.mem_append_left _ (List.mem_flatMap.mpr ⟨d, hd, hx⟩))
  stem := rfl

/-- The code that puts a local on the stack names what its initial value
    names. -/
theorem isPlain_initLocal {l : Local} (hl : ∀ x ∈ l.init.names, Label.isGenerated x = false) :
    ∀ i ∈ FnContext.initLocal l, i.IsPlain := by
  have hhl : Label.isGenerated "hl" = false := by decide
  unfold FnContext.initLocal
  simp only [List.forall_mem_cons]
  refine ⟨FnContext.isPlain_pushHL, .of_names ?_, FnContext.isPlain_swapTop, by simp⟩
  split
  · simp [hhl]
  · simpa [hhl] using hl

theorem isPlain_prologue (ctx : FnContext) {locals : List Local}
    (hlocals : ∀ l ∈ locals, ∀ x ∈ l.init.names, Label.isGenerated x = false) :
    ∀ i ∈ ctx.prologue locals, i.IsPlain := by
  have hix : Label.isGenerated "ix" = false := by decide
  have hsp : Label.isGenerated "sp" = false := by decide
  exact FnContext.forall_mem_prologue (.of_names (by simp)) (FnContext.isPlain_stack "push")
    (.of_names (by simp [hix])) (.of_names (by simp [hix, hsp]))
    fun l hl => isPlain_initLocal (hlocals l hl)

/-- The end of a function places the label of the code there. -/
theorem labelled_finish {K : String → Prop} (d : FuncDecl) (ctx : FnContext) {s : FnState}
    (h : s.Labelled [] ctx.epilogue.toList K) : (d.finish ctx s).Labelled [] [] K := by
  have hret : (Instruction.of "ret" []).IsPlain := .of_names (by simp)
  have hcode : ∀ i ∈ ctx.cleanup ++ [Instruction.of "ret" []], i.IsPlain := by
    simp only [List.forall_mem_append, List.forall_mem_cons]
    exact ⟨ctx.isPlain_cleanup, hret, by simp⟩
  have hend : (if s.tracker.live then s.check (s.tracker.depth.endError? d.name) d.span
      else s).Labelled [] ctx.epilogue.toList K := by
    split
    · exact h.adds (s.adds_check _ _)
    · exact h
  unfold finish
  dsimp only
  refine Labelled.adds ?_ (ctx.appends_emitAround (fun i hi => (hcode i hi).asks) _).adds
  cases hlabel : ctx.epilogue with
  | none =>
    rw [hlabel] at hend
    exact hend
  | some label =>
    rw [hlabel] at hend
    exact hend.place d.span

/-- The code of a function, from the promise of the label at its end to its
    placing. -/
theorem labelled_code {K : String → Prop} (d : FuncDecl) {ctx : FnContext} (hctx : ctx.IsPlain)
    (hd : ∀ x ∈ d.names, Label.isGenerated x = false) {s : FnState}
    (h : s.Labelled [] ctx.epilogue.toList K) :
    (d.finish ctx (ctx.lowerBody d.body
      (ctx.emitAround (ctx.prologue d.locals) s))).Labelled [] [] K := by
  have hstmts : ∀ st ∈ d.body, ∀ x ∈ st.names, Label.isGenerated x = false := by
    intro st hst x hx
    exact hd x (List.mem_append_left _ (List.mem_flatMap.mpr ⟨st, hst, hx⟩))
  have hlocals : ∀ l ∈ d.locals, ∀ x ∈ l.init.names, Label.isGenerated x = false := by
    intro l hl x hx
    exact hd x (List.mem_append_right _ (List.mem_flatMap.mpr ⟨l, hl, hx⟩))
  have hplain := isPlain_prologue ctx hlocals
  have hbefore := h.adds (ctx.appends_emitAround (fun i hi => (hplain i hi).asks) s).adds
  apply labelled_finish
  apply FnContext.labelled_lowerBody hctx hbefore ?_ hstmts
  intro l hl
  simp [hl]

/-- The lines of a function keep all promises and wait for nothing else. -/
theorem labelled_lower (hd : ∀ x ∈ d.names, Label.isGenerated x = false)
    (hdecls : ∀ x ∈ decls.names, Label.isGenerated x = false) (n : Int) :
    (d.lower r decls { counter := n }).2.2.Labelled [] [] fun _ => False := by
  have hstart : FnState.Labelled [] [] (fun _ => False) { counter := n } :=
    ⟨by simp, by simp, by simp, by simp, by simp⟩
  obtain ⟨hslots, hsymbols⟩ := d.adds_layout r { counter := n }
  have hlaid := hstart.adds hslots
  unfold lower
  dsimp only
  refine Labelled.adds ?_ (adds_note _ _)
  apply labelled_code d (isPlain_context hsymbols hdecls _) hd
  show FnState.Labelled [] (Option.toList (ite _ _ _ : Option String × FnState).1) _ _
  split
  · exact hlaid.fresh "epilogue" (by decide)
  · exact hlaid

/-- Whatever the body of a function is, its chunk defines no label twice, and a
    generated label that a fixup names is defined in the chunk, as long as no
    name that is written in the function, in the ops or for the storage is
    itself like a generated label. -/
theorem labels_defined_once (d : FuncDecl) (r : Resolver) (decls : Declarations) (n : Int)
    (hd : ∀ x ∈ d.names, Label.isGenerated x = false)
    (hdecls : ∀ x ∈ decls.names, Label.isGenerated x = false) :
    (((d.lower r decls { counter := n }).1.labels.map (·.name)).Nodup) ∧
      ∀ f ∈ (d.lower r decls { counter := n }).1.fixups, Label.isGenerated f.symbol = true →
        f.symbol ∈ (d.lower r decls { counter := n }).1.labels.map (·.name) := by
  have h := labelled_lower (r := r) hd hdecls n
  -- The lines of the chunk are those of the last state.
  have hlabels : (d.lower r decls { counter := n }).1.labels.map (·.name) =
      Line.labelNames (d.lower r decls { counter := n }).2.2.lines :=
    Line.names_listLabels 0 _
  have hsymbols : (d.lower r decls { counter := n }).1.fixups.map (·.symbol) =
      Line.listSymbols (d.lower r decls { counter := n }).2.2.lines :=
    Line.symbols_listFixups 0 _
  rw [hlabels]
  refine ⟨by simpa using h.nodup, fun f hf hgen => ?_⟩
  have hf' : f.symbol ∈ Line.listSymbols (d.lower r decls { counter := n }).2.2.lines := by
    rw [← hsymbols]
    exact List.mem_map_of_mem hf
  simpa using h.known f.symbol hf' hgen

/-- A body whose words of control do not match: the `else` belongs to no block
    that has one, a label is defined twice, and two blocks stay open around a
    call of an op with a label of its own. -/
def tangled : FuncDecl where
  name := "tangled"
  body := [.elseArm {}, .ifOpen "z" false {}, .whileOpen "nz" false {}, .elseArm {},
    .instr (.of "spin" [.ofReg "b"]), .label "here" {}, .label "here" {}, .untilClose "c" {},
    .selectOpen (.ofReg "b") false {}, .caseArm [.number 1, .number 2] {},
    .instr (.of "ret" [.ofReg "z"])]

/-- An op that counts a register down, with a block that stays open. -/
def spin : OpDecl where
  name := "spin"
  params := [{ name := "r", matcher := .reg8 }]
  body := [.label "again" {}, .instr (.of "dec" [.ofReg "r"]), .ifOpen "nz" false {},
    .instr (.of "jp" [.ofName "again"])]

theorem tangled_labels_defined :
    ((tangled.lower .empty { ops := [spin] } { counter := 0 }).1.labels.map (·.name)).Nodup ∧
      ∀ f ∈ (tangled.lower .empty { ops := [spin] } { counter := 0 }).1.fixups,
        Label.isGenerated f.symbol = true → f.symbol ∈
          (tangled.lower .empty { ops := [spin] } { counter := 0 }).1.labels.map (·.name) :=
  labels_defined_once tangled .empty { ops := [spin] } 0 (by decide) (by decide)

end FuncDecl

end Z80Backend
