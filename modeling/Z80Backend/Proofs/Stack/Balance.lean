import Mathlib.Algebra.Group.Int.Defs
import Mathlib.Algebra.Group.Nat.Defs
import Z80Backend.Proofs.Stack.Bodies

/-! # Balance of the stack

    A function whose control is structured and that is lowered without a
    report leaves the stack as it found it: whichever way a path goes through
    its body, what the path adds to `sp` comes to nothing wherever the
    function returns or its body ends, and `sp` is not loaded on the way. -/

namespace Z80Backend

/-! ## Depths of labels -/

section

variable {exit : Option String} {undo : List Line} {s s' : FnState}
  (hexit : ∀ e, exit = some e → ∃ k, e = Label.make "epilogue" k ∧ k ≤ s.counter)

include hexit

/-- The labels of a step can be given their depths, and the exit depth 0, when
    the number of the exit was in use before. -/
theorem Body.Adds.exists_depths {ls : List Line} {marks : List (String × Option Depth)}
    {new : List String} (h : Adds (Depth.marking exit undo) { fn := s } { fn := s' } ls marks new) :
    ∃ Λ : String → Option Depth, (∀ e, exit = some e → Λ e = some (.known 0)) ∧
      ∀ x ∈ marks, Λ x.1 = x.2 := by
  have hperm : (Line.labelNames ls).Perm new := by simpa [Body.pending] using h.perm
  have hnodup : (marks.map Prod.fst).Nodup := by
    rw [h.named]
    exact hperm.nodup_iff.mpr (h.fresh trivial).nodup
  have hnew : ∀ e, exit = some e → e ∉ marks.map Prod.fst := by
    intro e he hmem
    rw [h.named] at hmem
    obtain ⟨k, rfl, hk⟩ := hexit e he
    obtain ⟨kind, _, m, hname, hm, _⟩ := (h.fresh trivial).named _ (hperm.mem_iff.mp hmem)
    have hkm := Label.make_inj hname
    exact absurd hm (by dsimp only; omega)
  have hall : (((exit.toList.map fun e => (e, some (Depth.known 0))) ++ marks).map
      Prod.fst).Nodup := by
    cases exit with
    | none => exact hnodup
    | some e => exact List.nodup_cons.mpr ⟨hnew e rfl, hnodup⟩
  obtain ⟨Λ, hΛ, _⟩ := exists_marks none hall
  refine ⟨Λ, ?_, fun x hx => hΛ x (List.mem_append_right _ hx)⟩
  rintro e rfl
  exact hΛ (e, some (.known 0)) List.mem_cons_self

/-- Depths fit the lines of two steps. -/
theorem Body.Advances.exists_flows {c : Body}
    (h : Advances (Depth.marking exit undo) { fn := s } c)
    (h' : Advances (Depth.marking exit undo) c { fn := s' }) :
    ∃ (Λ : String → Option Depth) (ls ls' : List Line),
      (∀ e, exit = some e → Λ e = some (.known 0)) ∧
      c.fn.lines = s.lines ++ ls ∧ s'.lines = s.lines ++ (ls ++ ls') ∧
      StackFlow Λ undo s.lines.length s.tracker.mark ls c.fn.tracker.mark ∧
      StackFlow Λ undo (s.lines.length + ls.length) c.fn.tracker.mark ls' s'.tracker.mark := by
  obtain ⟨ls, marks, new, hadds⟩ := h
  obtain ⟨ls', marks', new', hadds'⟩ := h'
  obtain ⟨Λ, hzero, hmarks⟩ := (hadds.trans hadds').exists_depths hexit
  exact ⟨Λ, ls, ls', hzero, hadds.lines, (hadds.trans hadds').lines,
    hadds.flows hadds' hzero hmarks⟩

end

/-- Depths fit the lines of a step. -/
theorem FnState.Moves.exists_flow {exit : Option String} {undo ls : List Line} {s s' : FnState}
    (h : Moves (Depth.marking exit undo) s s') (hlines : s'.lines = s.lines ++ ls)
    (hexit : ∀ e, exit = some e → ∃ k, e = Label.make "epilogue" k ∧ k ≤ s.counter) :
    ∃ Λ : String → Option Depth, (∀ e, exit = some e → Λ e = some (.known 0)) ∧
      StackFlow Λ undo s.lines.length s.tracker.mark ls s'.tracker.mark := by
  obtain ⟨ls', marks, new, hadds⟩ := h.advances
  obtain rfl : ls' = ls := List.append_cancel_left (hadds.lines.symm.trans hlines)
  obtain ⟨Λ, hzero, hmarks⟩ := hadds.exists_depths hexit
  exact ⟨Λ, hzero, (hadds.flow Λ hzero hmarks (by simp) (by simp)).2⟩

/-! ## Functions -/

theorem FnContext.lowerNodes_stmts (ctx : FnContext) (lowerOp : Instruction → FnState → FnState)
    (sts : List Stmt) (b : Body) :
    ctx.lowerNodes lowerOp (sts.map .stmt) b = ctx.lowerAll lowerOp sts b := by
  induction sts generalizing b with
  | nil =>
    rw [List.map_nil, lowerNodes]
    rfl
  | cons st sts ih =>
    rw [List.map_cons, lowerNodes, ih, lowerNode]
    rfl

/-- What undoes the beginning of a function is straight code. -/
theorem FnContext.isStraight_cleanup {ctx : FnContext} : ∀ i ∈ ctx.cleanup, i.IsStraight :=
  forall_mem_cleanup (fun _ => Instruction.isStraight_of _ (by decide))
    (Instruction.isStraight_of _ (by decide))

theorem Line.Assembles.flow_step {r : Resolver} {is : List Instruction} {ls : List Line}
    (h : Line.Assembles r is ls) (his : ∀ i ∈ is, i.IsStraight) :
    ∀ l ∈ ls, ∃ code, l.flow = .step code := by
  intro l hl
  obtain ⟨i, hi, code, hcode, rfl⟩ := h.exists_of_mem hl
  exact ⟨code, MachineInstr.flow_of_assemble hcode (his i hi)⟩

theorem Depth.eq_zero_of_endError? {d : Depth} {fn : String} (h : d.endError? fn = none) :
    d = .known 0 := by
  cases d with
  | known n =>
    rw [endError?] at h
    split at h
    · rename_i hn
      rw [hn]
    · cases h
  | unknown => cases h
  | untracked => cases h

namespace FuncDecl

/-- Control is structured in the body of a function, once its op calls are
    expanded. -/
def IsStructured (d : FuncDecl) (r : Resolver) (decls : Declarations) (n : Int) : Prop :=
  Node.ListStructured ((d.entry r decls n).1.IsStructured decls.nesting) false (d.body.map .stmt)

variable {d : FuncDecl} {r : Resolver} {decls : Declarations} {n : Int} {undo : List Line}

theorem inBounds_entry {exit : Option String} :
    (d.entry r decls n).2.InBounds (Depth.marking exit undo) := by
  intro x hx
  rw [entry_tracker] at hx
  cases hx
  exact Nat.zero_le _

theorem bodyEnd_eq_lowerNodes :
    d.bodyEnd r decls n = ((d.entry r decls n).1.lowerNodes
      ((d.entry r decls n).1.lowerOp decls.nesting) (d.body.map .stmt)
      { fn := (d.entry r decls n).2 }).close := by
  rw [FnContext.lowerNodes_stmts]
  rfl

/-- The body of a function without labels and jumps of its own, whose lead-ins
    are level, as one step that visits all of its statements. -/
theorem visits_bodyEnd (hundo : Line.Assembles r (d.entry r decls n).1.cleanup undo)
    (hfree : Node.ListJumpFree ((d.entry r decls n).1.IsJumpFree decls.nesting) (d.body.map .stmt))
    (hclean : (d.bodyEnd r decls n).Clean)
    (hlevel : ∀ x ∈ d.passages r decls n, x.isLevel = true) :
    (d.entry r decls n).2.Moves (Depth.marking (d.entry r decls n).1.epilogue undo)
        (d.bodyEnd r decls n) ∧
      Body.Visits (Depth.marking (d.entry r decls n).1.epilogue undo) (d.entry r decls n).1
        { fn := (d.entry r decls n).2 } { fn := d.bodyEnd r decls n } (d.passages r decls n) := by
  rw [bodyEnd_eq_lowerNodes] at hclean ⊢
  have hwalks := FnContext.walks_depths hundo (entry_cleanup d r decls n)
  exact FnContext.visits_body (hwalks.traces decls.nesting)
    ((d.entry r decls n).1.extends_lowerOp _) inBounds_entry (Node.ListJumpFree.stmts _ hfree)
    hclean fun x hx => Passage.admitted_of_isLevel (hlevel x hx)

theorem moves_body (hundo : Line.Assembles r (d.entry r decls n).1.cleanup undo)
    (hstruct : d.IsStructured r decls n) (hclean : (d.bodyEnd r decls n).Clean) :
    (d.entry r decls n).2.Moves (Depth.marking (d.entry r decls n).1.epilogue undo)
      (d.bodyEnd r decls n) := by
  have hnodes := hclean
  rw [bodyEnd_eq_lowerNodes] at hnodes
  have hlevel := FnContext.isLevel_lowerNodes
    ((d.entry r decls n).1.opsLevel_lowerOp decls.nesting)
    ((d.entry r decls n).1.extends_lowerOp _) _ false _ (.start _) hstruct
    ((Body.extends_close _).clean hnodes)
  exact (visits_bodyEnd hundo (Node.ListStructured.listJumpFree
    (fun _ => FnContext.IsStructured.isJumpFree) _ false hstruct) hclean hlevel).1

/-- A body that ends without a report ends with depth 0. -/
theorem depth_bodyEnd (hclean : (d.lower r decls { counter := n }).2.2.Clean) {x : Depth}
    (hx : (d.bodyEnd r decls n).tracker.mark = some x) : x = .known 0 := by
  have hlive := Tracker.live_of_mark hx
  rw [← Tracker.depth_of_mark hx]
  exact Depth.eq_zero_of_endError? (endError?_of_finish (finish_clean hclean) hlive)

/-- The verifier of the stack is sound.  The lines of a function whose control is
    structured, lowered without a report, are its beginning, its body and its
    end, and every path through the body, either way at each branch and any
    number of times round each loop, comes to the places where the function
    returns and to the end of the body without a load of `sp` and with
    additions to it that amount to nothing.  They are multiples of 2⁶⁴, and 0
    unless the function has 2⁶² lines. -/
theorem stack_balanced (d : FuncDecl) (r : Resolver) (decls : Declarations) (n : Int)
    (hstruct : d.IsStructured r decls n)
    (hclean : (d.lower r decls { counter := n }).2.2.Clean) :
    ∃ undo ret, Line.Assembles r (d.entry r decls n).1.cleanup undo ∧
      Line.Assembles r [.of "ret" []] ret ∧
      (d.lower r decls { counter := n }).1.lines =
        (d.entry r decls n).2.lines ++ d.bodyLines r decls n ++
          ((d.entry r decls n).1.epilogue.toList.map (.label · d.span) ++ undo ++ ret) ∧
      ∀ p m loaded, Line.Path (d.bodyLines r decls n) p m loaded →
        Line.Returns (d.entry r decls n).1.epilogue undo.length (d.bodyLines r decls n) p ∨
          p = (d.bodyLines r decls n).length →
        loaded = false ∧ (2 ^ 64 : Int) ∣ m ∧
          ((d.lower r decls { counter := n }).1.lines.length < 2 ^ 62 → m = 0) := by
  obtain ⟨tail, htail, hlines⟩ := lines_lower hclean
  obtain ⟨undo, ret, rfl, hundo, hret⟩ := htail.of_append
  refine ⟨undo, ret, hundo, hret, by rw [hlines]; simp, ?_⟩
  have hmoves := moves_body hundo hstruct (bodyEnd_clean hclean)
  obtain ⟨Λ, hzero, hflow⟩ :=
    hmoves.exists_flow bodyEnd_lines (fun e he => entry_epilogue d r decls n he)
  rw [entry_tracker] at hflow
  intro p m loaded hpath hsite
  obtain ⟨hloaded, hdvd, hexact⟩ := hflow.balanced
    (hundo.flow_step FnContext.isStraight_cleanup) hzero (fun _ => depth_bodyEnd hclean) hpath hsite
  refine ⟨hloaded, hdvd, fun hshort => hexact ?_⟩
  rw [hlines] at hshort
  simp only [List.length_append] at hshort
  omega

end FuncDecl

/-- A loop that keeps `bc` on the stack for a while and that can be left by a
    return; behind it the function returns from an interrupt. -/
def FuncDecl.keeper : FuncDecl where
  name := "keeper"
  locals := [{ name := "turns", type := { name := "word" }, init := .number 3 }]
  body := [.whileOpen "nz" false {}, .instr (.of "push" [.ofReg "bc"]),
    .instr (.of "inc" [.ofReg "bc"]), .instr (.of "pop" [.ofReg "bc"]), .ifOpen "c" false {},
    .instr (.of "ret" []), .endBlock {}, .endBlock {}, .instr (.of "reti" [])]

theorem Ops.isOp_of_no_decls {ops : Ops} (hops : ops.decls = []) (name : String) :
    ops.isOp name = false := by
  simp [isOp, overloads, overloadsIn, hops]

/-- Where no ops are declared, control is structured in all instructions but
    jumps. -/
theorem FnContext.isStructured_of_no_ops {ctx : FnContext} {i : Instruction}
    (hops : ctx.ops.decls = []) (hhead : Text.lower i.head ∉ ["jp", "jr", "djnz"]) (depth : Nat) :
    ctx.IsStructured depth i := by
  cases depth with
  | zero => exact fun _ => hhead
  | succ depth =>
    rw [IsStructured, Ops.isOp_of_no_decls hops]
    exact hhead

/-- Paths to the return in the loop and to the one from an interrupt. -/
theorem FuncDecl.keeper_stack_balanced :
    keeper.IsStructured .empty {} 0 ∧ (keeper.lower .empty {} { counter := 0 }).2.2.Clean ∧
    Line.Path (keeper.bodyLines .empty {} 0) 11 0 false ∧
    ∀ p ∈ [6, 11], ∀ m loaded, Line.Path (keeper.bodyLines .empty {} 0) p m loaded →
      loaded = false ∧ m = 0 := by
  have hbody : ∀ plain : Instruction → Prop,
      (∀ i, Text.lower i.head ∉ ["jp", "jr", "djnz"] → plain i) →
      Node.ListStructured plain false (keeper.body.map .stmt) := by
    intro plain hplain
    refine ⟨nofun, rfl, nofun, ?_, nofun, ?_, nofun, ?_, nofun, rfl, nofun, ?_, nofun, trivial,
      nofun, trivial, nofun, ?_, trivial⟩
    all_goals exact hplain _ (by decide)
  have hstruct : keeper.IsStructured .empty {} 0 :=
    hbody _ fun i hi => FnContext.isStructured_of_no_ops rfl hi _
  have hclean : (keeper.lower .empty {} { counter := 0 }).2.2.Clean :=
    List.isEmpty_iff.mp (by decide +kernel)
  obtain ⟨undo, _, hundo, _, _, hbalanced⟩ := stack_balanced keeper .empty {} 0 hstruct hclean
  have hlines := hundo.length
  generalize hls : keeper.bodyLines .empty {} 0 = ls at *
  have hline : ∀ (p : Nat) (f : Flow),
      (keeper.bodyLines .empty {} 0)[p]?.map Line.flow = some f →
      ∃ l : Line, ls[p]? = some l ∧ l.flow = f := by
    intro p f h
    exact Option.map_eq_some_iff.mp (hls ▸ h)
  refine ⟨hstruct, hclean, ?_, ?_⟩
  · obtain ⟨l₀, hl₀, hflow₀⟩ := hline 0 (.jump (Label.make "while_cond" 3)) (by decide +kernel)
    obtain ⟨l₁, hl₁, hflow₁⟩ := hline 10 (.branch (some .nz) (Label.make "while_top" 2))
      (by decide +kernel)
    have htest : ls[9]? = some (.label (Label.make "while_cond" 3) {}) := by
      rw [← hls]
      decide +kernel
    have hpath : Line.Path ls 9 0 false := .goes .start hl₀ (by rw [hflow₀]; rfl) htest
    exact .onward (.onward hpath htest rfl) hl₁ (by rw [hflow₁]; rfl)
  · intro p hp m loaded hpath
    have hshort : (keeper.lower .empty {} { counter := 0 }).1.lines.length < 2 ^ 62 := by
      decide +kernel
    have hsite : Line.Returns (keeper.entry .empty {} 0).1.epilogue undo.length ls p := by
      rcases List.mem_cons.mp hp with rfl | hp
      · obtain ⟨l, hl, hflow⟩ := hline 6 (.jump (Label.make "epilogue" 1)) (by decide +kernel)
        exact .jump hl (by rw [hflow]; rfl) (by decide +kernel)
      · obtain rfl := List.mem_singleton.mp hp
        have hreti : ls[11 + undo.length]? = some (.instr (.of "reti" []) (.plain .reti)) := by
          rw [← hls, hlines]
          decide +kernel
        exact .interrupt hreti (.inl rfl)
    obtain ⟨hloaded, _, hzero⟩ := hbalanced p m loaded hpath (.inl hsite)
    exact ⟨hloaded, hzero hshort⟩

end Z80Backend
