import Z80Backend.Proofs.Function.Runs

/-! # States only grow

    Lowering appends to the lines and to the journal and moves the label
    numbers up; nothing is taken back.  So a state without diagnostics was
    reached through states without diagnostics, and whatever could have
    reported a problem on the way did not: that is how the lemmas about code
    lowered without diagnostics learn what was lowered. -/

namespace Z80Backend

namespace FnState

/-- The second state has all that the first has, and its other lines are labels
    and instructions that were assembled. -/
structure Extends (s s' : FnState) : Prop where
  lines : s.lines <+: s'.lines
  journal : s.journal <+: s'.journal
  counter : s.counter ≤ s'.counter
  assembled : ∀ l ∈ s'.lines, l ∈ s.lines ∨ l.IsAssembled

namespace Extends

theorem of_lines_eq {s s' : FnState} (hlines : s'.lines = s.lines)
    (hjournal : s.journal <+: s'.journal) (hcounter : s.counter ≤ s'.counter) : s.Extends s' where
  lines := hlines ▸ List.prefix_rfl
  journal := hjournal
  counter := hcounter
  assembled _ h := .inl (hlines ▸ h)

theorem of_line {s s' : FnState} {l : Line} (hlines : s'.lines = s.lines ++ [l])
    (hjournal : s'.journal = s.journal) (hcounter : s'.counter = s.counter)
    (hl : l.IsAssembled) : s.Extends s' where
  lines := hlines ▸ List.prefix_append _ _
  journal := hjournal ▸ List.prefix_rfl
  counter := Int.le_of_eq hcounter.symm
  assembled l' h := by
    rw [hlines] at h
    refine (List.mem_append.mp h).imp_right fun h => ?_
    rwa [List.mem_singleton.mp h]

theorem refl (s : FnState) : s.Extends s := of_lines_eq rfl List.prefix_rfl (Int.le_refl _)

theorem trans {s s' s'' : FnState} (h : s.Extends s') (h' : s'.Extends s'') : s.Extends s'' where
  lines := h.lines.trans h'.lines
  journal := h.journal.trans h'.journal
  counter := Int.le_trans h.counter h'.counter
  assembled l hline := (h'.assembled l hline).elim (h.assembled l) .inr

/-- What each element of a list adds, the whole list adds. -/
theorem foldl {α : Type} {f : FnState → α → FnState} (h : ∀ (s : FnState) a, s.Extends (f s a))
    (as : List α) (s : FnState) : s.Extends (as.foldl f s) := by
  induction as generalizing s with
  | nil => exact refl s
  | cons a as ih => exact (h s a).trans (ih (f s a))

end Extends

/-! ## Steps of a function -/

section

variable (s : FnState)

theorem extends_note (e : Event) : s.Extends (s.note e) :=
  .of_lines_eq rfl (List.prefix_append _ _) (Int.le_refl _)

theorem extends_report (p : Problem) (span : Span) : s.Extends (s.report p span) := by
  refine (s.extends_note (.announced (.diagnostic { problem := p, span }))).trans ?_
  unfold report
  split
  · exact .of_lines_eq rfl List.prefix_rfl (Int.le_refl _)
  · exact .refl _

theorem extends_freshLabel (kind : String) : s.Extends (s.freshLabel kind).2 :=
  .of_lines_eq rfl List.prefix_rfl (by simp only [freshLabel]; omega)

theorem extends_placeLabel (name : String) (span : Span) : s.Extends (s.placeLabel name span) :=
  .of_line rfl rfl rfl trivial

theorem extends_emit (r : Resolver) (i : Instruction) : s.Extends (s.emit r i) := by
  unfold emit
  split
  · exact s.extends_report _ _
  · rename_i hcode
    exact .of_line rfl rfl rfl ⟨r, hcode⟩

theorem extends_emitAll (r : Resolver) (span : Span) (is : List Instruction) :
    s.Extends (s.emitAll r span is) :=
  .foldl (fun s _ => s.extends_emit r _) is s

theorem extends_emitSilent (r : Resolver) (span : Span) (i : Instruction) :
    s.Extends (s.emitSilent r span i) := by
  unfold emitSilent
  split
  · exact s.extends_report _ _
  · rename_i hcode
    exact .of_line rfl rfl rfl ⟨r, hcode⟩

theorem extends_resume (d : Depth) (live : Bool) : s.Extends (s.resume d live) :=
  .of_lines_eq rfl List.prefix_rfl (Int.le_refl _)

theorem extends_jump (r : Resolver) (span : Span) (os : List Operand) :
    s.Extends (s.jump r span os) :=
  s.extends_emit r _

theorem extends_placeMissing (names : List String) (span : Span) :
    s.Extends (s.placeMissing names span) := by
  refine .foldl (fun s n => ?_) names s
  split
  · exact .refl s
  · exact s.extends_placeLabel n span

end

end FnState

/-! ## Blocks -/

/-- All states of a run extend the first. -/
theorem follows_extends (s : FnState) : Comparison.Follows fun t t' => t' = t ∧ s.Extends t :=
  Comparison.follows_of_invariant (fun e h => h.trans (FnState.extends_note _ e))
    (fun hl h => h.trans (.of_line rfl rfl rfl hl))
    (fun _ _ _ _ h => h.trans (.of_lines_eq rfl List.prefix_rfl (Int.le_refl _)))
    (fun hn h => h.trans (.of_lines_eq rfl List.prefix_rfl hn))
    (fun h => h.trans (.of_lines_eq rfl List.prefix_rfl (Int.le_refl _)))

namespace Body

theorem self (b : Body) :
    (Comparison.ofRelation fun t t' => t' = t ∧ b.fn.Extends t).body b b :=
  ⟨⟨rfl, .refl _⟩, by simp [Comparison.ofRelation, Block.relabel_id]⟩

variable (r : Resolver) (span : Span) (b : Body)

theorem extends_openSelect : b.fn.Extends (b.openSelect span).fn :=
  b.fn.extends_freshLabel "select_end"

theorem extends_elseArm : b.fn.Extends (b.elseArm r span).fn :=
  (((follows_extends b.fn).isKept r).elseArm b.self span).fn.2

theorem extends_caseValues (seen : List Int64) (es : List Expr) (s : FnState) :
    s.Extends (caseValues r span seen es s).2 :=
  (((follows_extends s).isKept r).caseValues span (List.forall₂_same.mpr fun _ _ => ⟨rfl, rfl⟩)
    seen ⟨rfl, .refl s⟩).2.2

theorem extends_testCase (next : String) (vs : List Int64) (s : FnState) :
    s.Extends (testCase r span next vs s) :=
  (((follows_extends s).isKept r).testCase span next vs ⟨rfl, .refl s⟩).2

theorem extends_endBlock : b.fn.Extends (b.endBlock r span).fn :=
  (((follows_extends b.fn).isKept r).endBlock b.self span).fn.2

theorem extends_untilClose (cond : String) : b.fn.Extends (b.untilClose r cond span).fn :=
  (((follows_extends b.fn).isKept r).untilClose b.self span ⟨rfl, fun _ => rfl⟩).fn.2

theorem extends_closeBlock (s : FnState) (k : Block) : s.Extends (closeBlock s k) :=
  (((follows_extends s).isKept .empty).closeBlock ⟨rfl, .refl s⟩ k).2

theorem extends_close : b.fn.Extends b.close :=
  (((follows_extends b.fn).isKept .empty).close b.self).2

end Body

/-! ## Statements -/

namespace FnContext

variable (ctx : FnContext)

theorem extends_emitAround (is : List Instruction) (s : FnState) :
    s.Extends (ctx.emitAround is s) :=
  .foldl (fun s i => s.extends_emitSilent _ _ i) is s

theorem extends_pushArgs (callee : String) (span : Span) (args : List (Operand × Nat))
    (s : FnState) : s.Extends (ctx.pushArgs callee span args s).2 := by
  obtain ⟨done, t, t', hx, -, ht⟩ :=
    ((follows_extends s).keeps ctx).pushArgs ⟨rfl, .refl s⟩ callee span args
  rw [hx]
  exact ht.2

section

variable {lowerOp : Instruction → FnState → FnState}
  (hop : ∀ i (s : FnState), s.Extends (lowerOp i s))

include hop

theorem keepsCalls_of_extends (s : FnState) :
    (Comparison.ofRelation fun t t' => t' = t ∧ s.Extends t).KeepsCalls (fun _ => True)
      lowerOp lowerOp :=
  fun i _ h => ⟨congrArg (lowerOp i) h.1, h.2.trans (hop i _)⟩

theorem extends_lowerNodes (ns : List Node) (b : Body) :
    b.fn.Extends (ctx.lowerNodes lowerOp ns b).fn :=
  (((follows_extends b.fn).keeps ctx).lowerNodes (keepsCalls_of_extends hop b.fn) ns
    (fun _ _ => trivial) b.self).fn.2

theorem extends_lowerAll (sts : List Stmt) (b : Body) :
    b.fn.Extends (ctx.lowerAll lowerOp sts b).fn :=
  (((follows_extends b.fn).keeps ctx).lowerAll (keepsCalls_of_extends hop b.fn) b.self sts
    fun _ _ => trivial).fn.2

end

/-- Op calls only add to the state, however deeply they nest. -/
theorem extends_lowerOp (depth : Nat) (call : Instruction) (s : FnState) :
    s.Extends (ctx.lowerOp depth call s) :=
  (((follows_extends s).keeps ctx).lowerOp depth call trivial ⟨rfl, .refl s⟩).2

theorem extends_lowerBody (sts : List Stmt) (s : FnState) : s.Extends (ctx.lowerBody sts s) :=
  (((follows_extends s).keeps ctx).lowerBody ⟨rfl, .refl s⟩ sts fun _ _ => trivial).2

end FnContext

/-! ## Functions -/

namespace FuncDecl

variable (d : FuncDecl)

/-- What reports and entries for slots keep, the table of a function and the state
    before its beginning have. -/
theorem layout_of {Q : StorageTable → FnState → Prop} {r : Resolver} {s : FnState}
    (hreport : ∀ {t s} p span, Q t s → Q t (s.report p span))
    (hslot : ∀ {role name type disp home t s}, (role, name, type, disp) ∈ d.slots →
      slotHome r role name type disp = .ok home → Q t s → Q (t ++ [(name, .mk home type)]) s)
    (h : Q [] s) : Q (d.layoutSlots r d.slots ([], d.checkReturns s)).1
      (d.layoutSlots r d.slots ([], d.checkReturns s)).2 := by
  have hreturns : Q [] (d.checkReturns s) := by
    unfold checkReturns
    generalize d.returns = regs
    induction regs generalizing s with
    | nil => exact h
    | cons reg regs ih =>
      refine ih ?_
      dsimp only
      split
      · exact h
      · exact hreport _ _ h
  have hlayout : ∀ slots, (∀ x ∈ slots, x ∈ d.slots) → ∀ t s, Q t s →
      Q (d.layoutSlots r slots (t, s)).1 (d.layoutSlots r slots (t, s)).2 := by
    intro slots hslots
    induction slots with
    | nil => exact fun _ _ h => h
    | cons slot slots ih =>
      intro t s h
      obtain ⟨hmem, hslots⟩ := List.forall_mem_cons.mp hslots
      rw [layoutSlots]
      split
      · exact ih hslots _ _ (hreport _ _ h)
      split
      · exact ih hslots _ _ (hreport _ _ h)
      · exact ih hslots _ _ (hslot hmem ‹_› h)
  exact hlayout d.slots (fun _ hx => hx) _ _ hreturns

theorem extends_finish (ctx : FnContext) (s : FnState) : s.Extends (d.finish ctx s) :=
  ((follows_extends s).finish ⟨rfl, .refl s⟩ ctx d).2

end FuncDecl

/-! ## Clean states -/

/-- Depths that join without an error are all the same. -/
theorem Depth.join_eq_of_none {site : JoinSite} {d : Depth} {ds : List Depth}
    (h : (Depth.join site (d :: ds)).2 = none) :
    (∀ d' ∈ d :: ds, d' = d) ∧ (Depth.join site (d :: ds)).1 = d := by
  simp only [Depth.join] at h ⊢
  split at h
  · rename_i hfind
    refine ⟨?_, rfl⟩
    intro d' hd'
    rcases List.mem_cons.mp hd' with rfl | hmem
    · rfl
    · simpa using List.find?_eq_none.mp hfind d' hmem
  · split at h
    · cases h
    · split at h <;> cases h

@[simp] theorem Journal.diagnostics_append (j k : Journal) :
    Journal.diagnostics (j ++ k) = Journal.diagnostics j ++ Journal.diagnostics k := by
  simp [diagnostics, announcements]

namespace FnState

/-- Nothing was reported so far. -/
def Clean (s : FnState) : Prop := s.journal.diagnostics = []

/-- A clean state comes from clean states. -/
theorem Extends.clean {s s' : FnState} (h : s.Extends s') (hclean : s'.Clean) : s.Clean := by
  obtain ⟨es, hes⟩ := h.journal
  rw [Clean, ← hes, Journal.diagnostics_append, List.append_eq_nil_iff] at hclean
  exact hclean.1

theorem journal_report (s : FnState) (p : Problem) (span : Span) :
    (s.report p span).journal =
      s.journal ++ [Event.announced (.diagnostic { problem := p, span })] := by
  unfold report
  split <;> rfl

/-- A state with a report is not clean. -/
theorem not_clean_report (s : FnState) (p : Problem) (span : Span) :
    ¬ (s.report p span).Clean := by
  intro h
  rw [Clean, journal_report, Journal.diagnostics_append] at h
  simp [Journal.diagnostics, Journal.announcements] at h

/-- Nothing is reported from one state to a later one. -/
def Silent (s s' : FnState) : Prop := s'.journal.diagnostics = s.journal.diagnostics

/-- Where nothing is reported, nothing is on either part of the way. -/
theorem Extends.silent {s s₁ s₂ : FnState} (h : s.Extends s₁) (h' : s₁.Extends s₂)
    (hsilent : s.Silent s₂) : s.Silent s₁ ∧ s₁.Silent s₂ := by
  obtain ⟨es, hes⟩ := h.journal
  obtain ⟨es', hes'⟩ := h'.journal
  unfold Silent at hsilent ⊢
  rw [← hes', ← hes, Journal.diagnostics_append, Journal.diagnostics_append,
    List.append_assoc] at hsilent
  have hnil := List.append_eq_nil_iff.mp (List.append_right_eq_self.mp hsilent)
  simp [← hes', ← hes, Journal.diagnostics_append, hnil.1, hnil.2]

theorem not_silent_report (s : FnState) (p : Problem) (span : Span) :
    ¬ s.Silent (s.report p span) := by
  intro h
  rw [Silent, journal_report, Journal.diagnostics_append, List.append_right_eq_self] at h
  simp [Journal.diagnostics, Journal.announcements] at h

variable {s : FnState}

/-- A check that reports nothing does nothing. -/
theorem check_of_clean {e : Option StackError} {span : Span} (h : (s.check e span).Clean) :
    e = none ∧ s.check e span = s := by
  cases e with
  | none => exact ⟨rfl, rfl⟩
  | some e => exact absurd h (s.not_clean_report _ _)

/-- An instruction that is emitted cleanly has machine code. -/
theorem emit_of_clean {r : Resolver} {i : Instruction} (h : (s.emit r i).Clean) :
    ∃ code, assemble r i = .ok code ∧
      s.emit r i =
        { s with lines := s.lines ++ [Line.instr i code], tracker := s.tracker.apply i } := by
  unfold emit at h ⊢
  split at h
  · exact absurd h (s.not_clean_report _ _)
  · rename_i code heq
    exact ⟨code, heq, rfl⟩

/-- Depths that join cleanly agree, and their point is reached if there are
    any. -/
theorem join_of_clean {site : JoinSite} {span : Span} {ds : List Depth}
    (h : (s.join site span ds).Clean) :
    ∃ d, (∀ d' ∈ ds, d' = d) ∧ s.join site span ds =
      { s with tracker := { depth := if ds.isEmpty then s.tracker.depth else d,
                            live := !ds.isEmpty } } := by
  cases ds with
  | nil => exact ⟨.unknown, by simp, rfl⟩
  | cons d ds =>
    have hcheck : (s.check (Depth.join site (d :: ds)).2 span).Clean := h
    obtain ⟨hnone, hsame⟩ := check_of_clean hcheck
    obtain ⟨hall, hjoin⟩ := Depth.join_eq_of_none hnone
    refine ⟨d, hall, ?_⟩
    unfold join
    simp only [List.isEmpty_cons, Bool.false_eq_true, if_false, hsame, hjoin]
    rfl

end FnState

end Z80Backend
