import Mathlib.Data.List.Forall2
import Z80Backend.Function.Lower
import Z80Backend.Proofs.Control.Labels

/-! # Two runs side by side

    Two bodies are lowered side by side, and the states of the two runs are
    compared after each step.  What counts as alike is left open: a relation
    between states, between instructions and between problems, and a map from
    the labels of one run to those of the other.

    Structured control acts on a state by a few steps: it reports, makes and
    places labels, jumps, and goes on with another depth.  A relation that these
    steps keep is kept by every word of structured control.

    * `Comparison.IsKept`: the steps keep the relation.
    * `Comparison.IsKept.openIf` and its companions: so do the words, one lemma
      for each. -/

namespace Z80Backend

/-! ## What is compared -/

/-- How the second run is written. -/
structure Wording where
  label : String → String := id
  word : String → String := id
  expr : Expr → Expr := id
  operand : Operand → Operand := id
  instr : Instruction → Instruction := id

/-- How the second run is written, and what is alike in the two. -/
structure Comparison extends Wording where
  problem : Problem → Problem → Prop := Eq
  code : Instruction → Instruction → Prop := Eq
  state : FnState → FnState → Prop

/-- The block with other labels. -/
def Block.relabel (ρ : String → String) : Block → Block
  | ifBlock o elseLabel endLabel elseSeen exits =>
    ifBlock o (ρ elseLabel) (ρ endLabel) elseSeen exits
  | whileBlock o cond top test => whileBlock o cond (ρ top) (ρ test)
  | repeatBlock o top => repeatBlock o (ρ top)
  | selectBlock o endLabel next elseSeen armOpen exits values =>
    selectBlock o (ρ endLabel) (next.map ρ) elseSeen armOpen exits values
  | broken kind => broken kind

theorem Block.relabel_id : relabel id = id := by
  funext k
  cases k with
  | selectBlock o endLabel next elseSeen armOpen exits values => simp [relabel]
  | _ => rfl

namespace Comparison

/-- The steps of structured control keep what is alike. -/
structure IsKept (k : Comparison) (r : Resolver) : Prop where
  same : ∀ p, k.problem p p
  jump : ∀ span l, k.code { head := "jp", operands := [.ofName l], span }
    { head := "jp", operands := [.ofName (k.label l)], span }
  branch : ∀ span (cc : Condition) l,
    k.code { head := "jp", operands := [.ofReg cc.text, .ofName l], span }
      { head := "jp", operands := [.ofReg cc.text, .ofName (k.label l)], span }
  compare : ∀ span v, k.code { head := "cp", operands := [.ofNum v], span }
    { head := "cp", operands := [.ofNum v], span }
  tracker : ∀ {s s'}, k.state s s' → s'.tracker = s.tracker
  placed : ∀ {s s'}, k.state s s' → ∀ n,
    Line.hasLabel (k.label n) s'.lines = Line.hasLabel n s.lines
  report : ∀ {s s'}, k.state s s' → ∀ {p p'}, k.problem p p' → ∀ span,
    k.state (s.report p span) (s'.report p' span)
  freshLabel : ∀ {s s'}, k.state s s' → ∀ {kind}, kind ∈ Label.kinds →
    (s'.freshLabel kind).1 = k.label (s.freshLabel kind).1 ∧
      k.state (s.freshLabel kind).2 (s'.freshLabel kind).2
  placeLabel : ∀ {s s'}, k.state s s' → ∀ n span,
    k.state (s.placeLabel n span) (s'.placeLabel (k.label n) span)
  track : ∀ {s s'}, k.state s s' → ∀ t, k.state { s with tracker := t } { s' with tracker := t }
  emit : ∀ {s s'}, k.state s s' → ∀ {i i'}, k.code i i' → k.state (s.emit r i) (s'.emit r i')

/-- The bodies of two runs are alike. -/
structure body (k : Comparison) (b b' : Body) : Prop where
  fn : k.state b.fn b'.fn
  blocks : b'.blocks = b.blocks.map (Block.relabel k.label)

theorem body.exists_blocks {k : Comparison} {b b' : Body} (h : k.body b b') :
    ∃ s s' blocks, k.state s s' ∧ b = ⟨s, blocks⟩ ∧
      b' = ⟨s', blocks.map (Block.relabel k.label)⟩ :=
  ⟨_, _, _, h.fn, rfl, by rw [← h.blocks]⟩

/-- Two words that are read as the same condition. -/
structure cond (k : Comparison) (c c' : String) : Prop where
  read : Condition.ofWord? c' = Condition.ofWord? c
  problem : ∀ word, k.problem (.control (.condition c word)) (.control (.condition c' word))

/-- Two expressions with the same value. -/
structure value (k : Comparison) (r : Resolver) (e e' : Expr) : Prop where
  eval : (e'.eval r).toOption = (e.eval r).toOption
  problem : k.problem (.control (.caseValue e)) (.control (.caseValue e'))

/-! ## Steps -/

namespace IsKept

variable {k : Comparison} {r : Resolver} (hk : k.IsKept r) {s s' : FnState} (h : k.state s s')

include hk h

theorem reached : s'.reached = s.reached := by
  unfold FnState.reached
  rw [hk.tracker h]

theorem opening (span : Span) : s'.opening span = s.opening span := by
  unfold FnState.opening
  rw [hk.tracker h]

theorem check (e : Option StackError) (span : Span) :
    k.state (s.check e span) (s'.check e span) := by
  cases e with
  | none => exact h
  | some e => exact hk.report h (hk.same (.stack e)) span

theorem reenter (o : Opening) : k.state (s.reenter o) (s'.reenter o) := hk.track h _

theorem goto (span : Span) (l : String) :
    k.state (s.jump r span [.ofName l]) (s'.jump r span [.ofName (k.label l)]) :=
  hk.emit h (hk.jump span l)

theorem gotoIf (span : Span) (cc : Condition) (l : String) :
    k.state (s.jump r span [.ofReg cc.text, .ofName l])
      (s'.jump r span [.ofReg cc.text, .ofName (k.label l)]) :=
  hk.emit h (hk.branch span cc l)

omit h in
/-- Steps that keep the states alike do so together. -/
theorem emitAll {span : Span} {is is' : List Instruction}
    (his : List.Forall₂ (fun i i' => k.code { i with span } { i' with span }) is is')
    {s s' : FnState} (h : k.state s s') :
    k.state (s.emitAll r span is) (s'.emitAll r span is') := by
  induction his generalizing s s' with
  | nil => exact h
  | cons hi _ ih => exact ih (hk.emit h hi)

theorem join (site : JoinSite) (span : Span) (ds : List Depth) :
    k.state (s.join site span ds) (s'.join site span ds) := by
  unfold FnState.join
  rw [hk.tracker h]
  split
  · exact hk.track h _
  · exact hk.track (hk.check h _ span) _

theorem condition {c c' : String} (hc : k.cond c c') (word : String) (span : Span) :
    (∃ cc, s.condition c word span = .ok cc ∧ s'.condition c' word span = .ok cc) ∨
      ∃ t t', s.condition c word span = .error t ∧ s'.condition c' word span = .error t' ∧
        k.state t t' := by
  unfold FnState.condition
  rw [hc.read]
  cases Condition.ofWord? c with
  | some cc => exact .inl ⟨cc, rfl, rfl⟩
  | none => exact .inr ⟨_, _, rfl, rfl, hk.report h (hc.problem word) span⟩

omit h in
theorem placeMissing (names : List String) (span : Span) {s s' : FnState} (h : k.state s s') :
    k.state (s.placeMissing names span) (s'.placeMissing (names.map k.label) span) := by
  induction names generalizing s s' with
  | nil => exact h
  | cons name names ih =>
    have hstep : k.state (if Line.hasLabel name s.lines then s else s.placeLabel name span)
        (if Line.hasLabel (k.label name) s'.lines then s'
          else s'.placeLabel (k.label name) span) := by
      rw [hk.placed h]
      split
      · exact h
      · exact hk.placeLabel h name span
    exact ih hstep

end IsKept

/-! ## Words of structured control -/

namespace IsKept

variable {k : Comparison} {r : Resolver} (hk : k.IsKept r) {b b' : Body} (h : k.body b b')
  (span : Span)

include hk h

theorem reportBody {p p' : Problem} (hp : k.problem p p') :
    k.body { b with fn := b.fn.report p span } { b' with fn := b'.fn.report p' span } :=
  ⟨hk.report h.fn hp span, h.blocks⟩

omit hk in
theorem openBroken {s s' : FnState} (hs : k.state s s') (kind : BlockKind) :
    k.body (b.openBroken s kind) (b'.openBroken s' kind) :=
  ⟨hs, by simp [Body.openBroken, h.blocks, Block.relabel]⟩

theorem openIf {c c' : String} (hc : k.cond c c') (malformed : Bool) :
    k.body (b.openIf r c malformed span) (b'.openIf r c' malformed span) := by
  unfold Body.openIf
  split
  · exact openBroken h h.fn .ifBlock
  · rcases hk.condition h.fn hc "if" span with ⟨cc, hcc, hcc'⟩ | ⟨t, t', hcc, hcc', ht⟩
    · obtain ⟨hlabel, hs⟩ := hk.freshLabel h.fn (show "if_else" ∈ Label.kinds by decide)
      obtain ⟨hlabel', hs'⟩ := hk.freshLabel hs (show "if_end" ∈ Label.kinds by decide)
      rw [hcc, hcc', hk.opening h.fn, h.blocks]
      dsimp only
      rw [hlabel, hlabel']
      exact ⟨hk.gotoIf hs' span _ _, rfl⟩
    · rw [hcc, hcc']
      exact openBroken h ht .ifBlock

theorem openWhile {c c' : String} (hc : k.cond c c') (malformed : Bool) :
    k.body (b.openWhile r c malformed span) (b'.openWhile r c' malformed span) := by
  unfold Body.openWhile
  split
  · exact openBroken h h.fn .whileBlock
  · rcases hk.condition h.fn hc "while" span with ⟨cc, hcc, hcc'⟩ | ⟨t, t', hcc, hcc', ht⟩
    · obtain ⟨hlabel, hs⟩ := hk.freshLabel h.fn (show "while_top" ∈ Label.kinds by decide)
      obtain ⟨hlabel', hs'⟩ := hk.freshLabel hs (show "while_cond" ∈ Label.kinds by decide)
      rw [hcc, hcc', hk.opening h.fn, h.blocks]
      dsimp only
      rw [hlabel, hlabel']
      exact ⟨hk.reenter (hk.placeLabel (hk.goto hs' span _) _ span) _, rfl⟩
    · rw [hcc, hcc']
      exact openBroken h ht .whileBlock

theorem openRepeat (malformed : Bool) :
    k.body (b.openRepeat malformed span) (b'.openRepeat malformed span) := by
  unfold Body.openRepeat
  split
  · exact openBroken h h.fn .repeatBlock
  · obtain ⟨hlabel, hs⟩ := hk.freshLabel h.fn (show "repeat_top" ∈ Label.kinds by decide)
    dsimp only
    rw [hlabel, hk.opening h.fn, h.blocks]
    exact ⟨hk.placeLabel hs _ span, rfl⟩

theorem openSelect : k.body (b.openSelect span) (b'.openSelect span) := by
  obtain ⟨hlabel, hs⟩ := hk.freshLabel h.fn (show "select_end" ∈ Label.kinds by decide)
  unfold Body.openSelect
  dsimp only
  rw [hlabel, hk.opening h.fn, h.blocks]
  exact ⟨hs, rfl⟩

omit h in
theorem closeArm {s s' : FnState} (hs : k.state s s') (endLabel : String) (next : Option String)
    (armOpen : Bool) (exits : List Depth) :
    (Body.closeArm r span (k.label endLabel) (next.map k.label) armOpen exits s').1 =
        (Body.closeArm r span endLabel next armOpen exits s).1 ∧
      k.state (Body.closeArm r span endLabel next armOpen exits s).2
        (Body.closeArm r span (k.label endLabel) (next.map k.label) armOpen exits s').2 := by
  have hjump := hk.goto hs span endLabel
  unfold Body.closeArm
  rw [hk.tracker hs]
  cases armOpen && s.tracker.live with
  | true =>
    cases next with
    | none => exact ⟨rfl, hjump⟩
    | some label => exact ⟨rfl, hk.placeLabel hjump label span⟩
  | false =>
    cases next with
    | none => exact ⟨rfl, hs⟩
    | some label => exact ⟨rfl, hk.placeLabel hs label span⟩

theorem elseArm : k.body (b.elseArm r span) (b'.elseArm r span) := by
  obtain ⟨s, s', blocks, hs, rfl, rfl⟩ := h.exists_blocks
  have hreport {p : Problem} := hk.reportBody h span (hk.same p)
  match blocks with
  | [] => exact hreport
  | .broken kind :: _ =>
    cases kind with
    | ifBlock | selectBlock => exact h
    | whileBlock | repeatBlock => exact hreport
  | .whileBlock .. :: _ => exact hreport
  | .repeatBlock .. :: _ => exact hreport
  | .ifBlock o elseLabel endLabel elseSeen exits :: rest =>
    simp only [Body.elseArm, List.map_cons, Block.relabel]
    split
    · exact hreport
    · rw [hk.tracker hs, hk.reached hs]
      refine ⟨hk.reenter (hk.placeLabel ?_ elseLabel span) o, rfl⟩
      split
      · exact hk.goto hs span endLabel
      · exact hs
  | .selectBlock o endLabel next elseSeen armOpen exits values :: rest =>
    simp only [Body.elseArm, List.map_cons, Block.relabel]
    split
    · exact hreport
    · obtain ⟨hexits, hclose⟩ := hk.closeArm span hs endLabel next armOpen exits
      rw [hexits]
      exact ⟨hk.reenter hclose o, rfl⟩

omit h in
theorem caseValues {es es' : List Expr} (hes : List.Forall₂ (k.value r) es es') (seen : List Int64)
    {s s' : FnState} (hs : k.state s s') :
    (Body.caseValues r span seen es' s').1 = (Body.caseValues r span seen es s).1 ∧
      k.state (Body.caseValues r span seen es s).2 (Body.caseValues r span seen es' s').2 := by
  induction hes generalizing seen s s' with
  | nil => exact ⟨rfl, hs⟩
  | @cons e e' es es' he _ ih =>
    have hvalue := he.eval
    simp only [Body.caseValues]
    match hx : e.eval r, hx' : e'.eval r, hvalue with
    | .error err, .error err', _ => exact ih seen (hk.report hs he.problem span)
    | .ok n, .ok n', hvalue =>
      obtain rfl : n' = n := Option.some.inj hvalue
      dsimp only
      split
      · exact ih seen (hk.report hs he.problem span)
      split
      · exact ih seen (hk.report hs (hk.same _) span)
      · have hrest := ih (seen ++ [n' &&& 0xFF]) hs
        exact ⟨congrArg ((n' &&& 0xFF) :: ·) hrest.1, hrest.2⟩

omit h in
/-- The jumps of a test go to the labels of their run. -/
theorem compareCode (arm next : String) (vs : List Int64) :
    List.Forall₂ (fun i i' => k.code { i with span } { i' with span })
      (Body.compareCode arm next vs) (Body.compareCode (k.label arm) (k.label next) vs) := by
  induction vs with
  | nil => exact .cons (hk.jump span next) .nil
  | cons v vs ih =>
    cases vs with
    | nil => exact .cons (hk.compare span v) (.cons (hk.branch span .nz next) .nil)
    | cons w vs => exact .cons (hk.compare span v) (.cons (hk.branch span .z arm) ih)

omit h in
theorem testCase (next : String) (vs : List Int64) {s s' : FnState} (hs : k.state s s') :
    k.state (Body.testCase r span next vs s) (Body.testCase r span (k.label next) vs s') := by
  unfold Body.testCase
  by_cases hlength : vs.length ≤ 1
  · -- one value at most: no label for the arm
    rw [if_pos hlength, if_pos hlength]
    have hsame : Body.compareCode "" (k.label next) vs =
        Body.compareCode (k.label "") (k.label next) vs := by
      match vs, hlength with
      | [], _ => rfl
      | [_], _ => rfl
    rw [hsame]
    exact hk.emitAll (hk.compareCode span "" next vs) hs
  · rw [if_neg hlength, if_neg hlength]
    obtain ⟨hlabel, hfresh⟩ := hk.freshLabel hs (show "select_arm" ∈ Label.kinds by decide)
    dsimp only
    rw [hlabel]
    exact hk.placeLabel (hk.emitAll (hk.compareCode span _ next vs) hfresh) _ span

theorem caseArm {es es' : List Expr} (hes : List.Forall₂ (k.value r) es es') :
    k.body (b.caseArm r es span) (b'.caseArm r es' span) := by
  obtain ⟨s, s', blocks, hs, rfl, rfl⟩ := h.exists_blocks
  have hreport {p : Problem} := hk.reportBody h span (hk.same p)
  match blocks with
  | [] => exact hreport
  | .broken kind :: _ =>
    cases kind with
    | selectBlock => exact h
    | ifBlock | whileBlock | repeatBlock => exact hreport
  | .ifBlock .. :: _ => exact hreport
  | .whileBlock .. :: _ => exact hreport
  | .repeatBlock .. :: _ => exact hreport
  | .selectBlock o endLabel next elseSeen armOpen exits values :: rest =>
    simp only [Body.caseArm, List.map_cons, Block.relabel]
    split
    · exact hreport
    · obtain ⟨hexits, hclose⟩ := hk.closeArm span hs endLabel next armOpen exits
      obtain ⟨hvalues, hcases⟩ := hk.caseValues span hes values (hk.reenter hclose o)
      obtain ⟨hlabel, hfresh⟩ := hk.freshLabel hcases (show "select_next" ∈ Label.kinds by decide)
      rw [hexits, hvalues, hlabel]
      exact ⟨hk.testCase span _ _ hfresh, rfl⟩

theorem endBlock : k.body (b.endBlock r span) (b'.endBlock r span) := by
  obtain ⟨s, s', blocks, hs, rfl, rfl⟩ := h.exists_blocks
  have hreport {p : Problem} := hk.reportBody h span (hk.same p)
  match blocks with
  | [] => exact hreport
  | .broken kind :: _ =>
    cases kind with
    | repeatBlock => exact h
    | ifBlock | whileBlock | selectBlock => exact ⟨hs, rfl⟩
  | .repeatBlock .. :: _ => exact hreport
  | .ifBlock o elseLabel endLabel elseSeen exits :: rest =>
    simp only [Body.endBlock, List.map_cons, Block.relabel]
    rw [hk.reached hs]
    refine ⟨hk.join (hk.placeLabel ?_ endLabel span) _ span _, rfl⟩
    split
    · exact hs
    · exact hk.placeLabel hs elseLabel span
  | .whileBlock o cc top test :: rest =>
    simp only [Body.endBlock, List.map_cons, Block.relabel]
    rw [hk.reached hs]
    exact ⟨hk.gotoIf (hk.join (hk.placeLabel hs test span) _ span _) span cc top, rfl⟩
  | .selectBlock o endLabel next elseSeen armOpen exits values :: rest =>
    simp only [Body.endBlock, List.map_cons, Block.relabel]
    rw [hk.reached hs]
    refine ⟨hk.join (hk.placeLabel ?_ endLabel span) _ span _, rfl⟩
    cases next with
    | some label => exact hk.placeLabel hs label span
    | none => exact hs

theorem untilClose {c c' : String} (hc : k.cond c c') :
    k.body (b.untilClose r c span) (b'.untilClose r c' span) := by
  obtain ⟨s, s', blocks, hs, rfl, rfl⟩ := h.exists_blocks
  have hreport {p : Problem} := hk.reportBody h span (hk.same p)
  match blocks with
  | [] => exact hreport
  | .broken kind :: _ =>
    cases kind with
    | repeatBlock => exact ⟨hs, rfl⟩
    | ifBlock | whileBlock | selectBlock => exact hreport
  | .ifBlock .. :: _ => exact hreport
  | .whileBlock .. :: _ => exact hreport
  | .selectBlock .. :: _ => exact hreport
  | .repeatBlock o top :: rest =>
    have hjoin := hk.join hs .repeatBackEdge span (o.reached ++ s.reached)
    simp only [Body.untilClose, List.map_cons, Block.relabel]
    rw [hk.reached hs]
    rcases hk.condition hjoin hc "until" span with ⟨cc, hcc, hcc'⟩ | ⟨t, t', hcc, hcc', ht⟩
    · rw [hcc, hcc']
      exact ⟨hk.gotoIf hjoin span _ top, rfl⟩
    · rw [hcc, hcc']
      exact ⟨ht, rfl⟩

omit h in
theorem closeBlock {s s' : FnState} (hs : k.state s s') (blk : Block) :
    k.state (Body.closeBlock s blk) (Body.closeBlock s' (blk.relabel k.label)) := by
  have hreport (kind : BlockKind) (span : Span) :=
    hk.report hs (hk.same (.control (.unterminated kind))) span
  cases blk with
  | broken kind => exact hs
  | repeatBlock o top => exact hreport _ o.span
  | ifBlock o elseLabel endLabel elseSeen exits =>
    exact hk.placeMissing [elseLabel, endLabel] o.span (hreport _ o.span)
  | whileBlock o cond top test => exact hk.placeMissing [test] o.span (hreport _ o.span)
  | selectBlock o endLabel next elseSeen armOpen exits values =>
    have hnames : (next.map k.label).toList ++ [k.label endLabel] =
        (next.toList ++ [endLabel]).map k.label := by cases next <;> rfl
    simp only [Body.closeBlock, Block.relabel, hnames]
    exact hk.placeMissing _ o.span (hreport _ o.span)

theorem close : k.state b.close b'.close := by
  obtain ⟨s, s', blocks, hs, rfl, rfl⟩ := h.exists_blocks
  clear h
  unfold Body.close
  induction blocks generalizing s s' with
  | nil => exact hs
  | cons blk rest ih => exact ih _ _ (hk.closeBlock hs blk)

end IsKept

end Comparison

end Z80Backend
