import Z80Backend.Proofs.Assembly.Generated
import Z80Backend.Proofs.Function.Growth

/-! # What the words of structured control do

    One equation for each word that opens, divides or closes a block, for
    states in which nothing was reported.  Each gives the lines that are
    appended, the tracker and the block that is left open; everything else
    about the words follows from these.  Which blocks a word is for say
    `Body.elseArm_cases` and its companions. -/

namespace Z80Backend

/-! ## Generated lines -/

namespace Line

/-- A jump to a label. -/
def jump (r : Resolver) (span : Span) (name : String) : Line :=
  .instr { head := "jp", operands := [.ofName name], span } (.jp (r.wordOf name))

/-- A jump to a label under a condition. -/
def branch (r : Resolver) (span : Span) (cc : Condition) (name : String) : Line :=
  .instr { head := "jp", operands := [.ofReg cc.text, .ofName name], span }
    (.jpIf cc (r.wordOf name))

/-- A comparison of the accumulator. -/
def compare (span : Span) (v : Int64) : Line :=
  .instr { head := "cp", operands := [.ofNum v], span } (.aluImm .cp (UInt8.ofInt v.toInt))

variable {r : Resolver} {span : Span} {cc : Condition} {name : String}

theorem flow_jump (h : r.IsLabel name) : (jump r span name).flow = .jump name :=
  congrArg Flow.jump h.label?_wordOf

theorem flow_branch (h : r.IsLabel name) : (branch r span cc name).flow = .branch cc name :=
  congrArg (Flow.branch cc) h.label?_wordOf

@[simp] theorem flow_compare (span : Span) (v : Int64) :
    (compare span v).flow = .step (.aluImm .cp (UInt8.ofInt v.toInt)) := rfl

@[simp] theorem labelName?_jump : (jump r span name).labelName? = none := rfl

@[simp] theorem labelName?_branch : (branch r span cc name).labelName? = none := rfl

@[simp] theorem labelName?_compare (span : Span) (v : Int64) :
    (compare span v).labelName? = none := rfl

end Line

@[simp] theorem Depth.add_zero (d : Depth) : d.add 0 = d := by
  cases d <;> simp [Depth.add]

namespace Tracker

theorem apply_jump (t : Tracker) (span : Span) (o : Operand) :
    t.apply { head := "jp", operands := [o], span } = t.kill := by
  simp [apply, StackEffect.of_jump, kill]

theorem apply_branch (t : Tracker) (span : Span) (o o' : Operand) :
    t.apply { head := "jp", operands := [o, o'], span } = t := by
  simp [apply, StackEffect.of_branch]

theorem apply_compare (t : Tracker) (span : Span) (v : Int64) :
    t.apply { head := "cp", operands := [.ofNum v], span } = t := by
  simp [apply, StackEffect.of_compare]

end Tracker

namespace FnState

variable {s : FnState} {r : Resolver} {span : Span} {name : String}

/-- The state with more lines, another tracker and another label number. -/
def grow (s : FnState) (ls : List Line) (t : Tracker) (n : Int) : FnState :=
  { s with lines := s.lines ++ ls, tracker := t, counter := n }

section

variable {ls ms : List Line} {t t' : Tracker} {n n' : Int}

@[simp] theorem grow_lines : (s.grow ls t n).lines = s.lines ++ ls := rfl

@[simp] theorem grow_tracker : (s.grow ls t n).tracker = t := rfl

@[simp] theorem grow_counter : (s.grow ls t n).counter = n := rfl

@[simp] theorem grow_grow : (s.grow ls t n).grow ms t' n' = s.grow (ls ++ ms) t' n' := by
  simp [grow]

@[simp] theorem grow_clean : (s.grow ls t n).Clean ↔ s.Clean := Iff.rfl

@[simp] theorem grow_resume {d : Depth} {live : Bool} :
    (s.grow ls t n).resume d live = s.grow ls { depth := d, live } n := rfl

@[simp] theorem grow_placeLabel : (s.grow ls t n).placeLabel name span =
    s.grow (ls ++ [Line.label name span]) t n := by
  simp [grow, placeLabel]

@[simp] theorem grow_freshLabel {kind : String} :
    (s.grow ls t n).freshLabel kind = (Label.make kind (n + 1), s.grow ls t (n + 1)) := rfl

theorem grow_self : s.grow [] s.tracker s.counter = s := by
  simp [grow]

theorem placeLabel_eq : s.placeLabel name span =
    s.grow [.label name span] s.tracker s.counter := rfl

end

/-- A clean jump is one line, and nothing passes it. -/
theorem jump_of_clean (h : (s.jump r span [.ofName name]).Clean) :
    s.jump r span [.ofName name] = s.grow [.jump r span name] s.tracker.kill s.counter := by
  obtain ⟨code, hcode, heq⟩ := emit_of_clean h
  rw [assemble_jump hcode, Tracker.apply_jump] at heq
  exact heq

/-- A clean jump under a condition is one line. -/
theorem branch_of_clean (cc : Condition)
    (h : (s.jump r span [.ofReg cc.text, .ofName name]).Clean) :
    s.jump r span [.ofReg cc.text, .ofName name] =
      s.grow [.branch r span cc name] s.tracker s.counter := by
  obtain ⟨code, hcode, heq⟩ := emit_of_clean h
  rw [assemble_branch_text hcode, Tracker.apply_branch] at heq
  exact heq

/-- A clean comparison is one line. -/
theorem compare_of_clean {v : Int64}
    (h : (s.emit r { head := "cp", operands := [.ofNum v], span }).Clean) :
    s.emit r { head := "cp", operands := [.ofNum v], span } =
      s.grow [.compare span v] s.tracker s.counter := by
  obtain ⟨code, hcode, heq⟩ := emit_of_clean h
  rw [assemble_compare hcode, Tracker.apply_compare] at heq
  exact heq

/-- A condition that is read cleanly is one. -/
theorem condition_eq_ok {cond word : String} {cc : Condition}
    (h : s.condition cond word span = .ok cc) : Condition.ofWord? cond = some cc := by
  unfold condition at h
  split at h
  · cases h
    assumption
  · cases h

theorem condition_not_clean {cond word : String} {s' : FnState}
    (h : s.condition cond word span = .error s') : ¬ s'.Clean := by
  unfold condition at h
  split at h
  · cases h
  · cases h
    exact s.not_clean_report _ _

end FnState

/-! ## Openings -/

namespace Body

variable {r : Resolver} {span : Span} {b : Body}

/-- `if` jumps to the other arm when its condition fails. -/
theorem openIf_of_clean {cond : String} (h : (b.openIf r cond false span).fn.Clean) :
    ∃ cc, Condition.ofWord? cond = some cc ∧
      let other := Label.make "if_else" (b.fn.counter + 1)
      let last := Label.make "if_end" (b.fn.counter + 2)
      b.openIf r cond false span =
        { fn := b.fn.grow [.branch r span cc.negate other] b.fn.tracker (b.fn.counter + 2)
          blocks := .ifBlock (b.fn.opening span) other last false [] :: b.blocks } := by
  unfold openIf at h ⊢
  simp only [Bool.false_eq_true, if_false] at h ⊢
  split at h
  · rename_i hc
    exact absurd h (FnState.condition_not_clean hc)
  · rename_i cc hc
    have hjump := FnState.branch_of_clean cc.negate h
    refine ⟨cc, FnState.condition_eq_ok hc, ?_⟩
    simp only [FnState.freshLabel, Int.add_assoc] at hjump ⊢
    rw [hjump]
    rfl

/-- `while` jumps to its test. -/
theorem openWhile_of_clean {cond : String} (h : (b.openWhile r cond false span).fn.Clean) :
    ∃ cc, Condition.ofWord? cond = some cc ∧
      let top := Label.make "while_top" (b.fn.counter + 1)
      let test := Label.make "while_cond" (b.fn.counter + 2)
      b.openWhile r cond false span =
        { fn := b.fn.grow [.jump r span test, .label top span] b.fn.tracker (b.fn.counter + 2)
          blocks := .whileBlock (b.fn.opening span) cc top test :: b.blocks } := by
  unfold openWhile at h ⊢
  simp only [Bool.false_eq_true, if_false] at h ⊢
  split at h
  · rename_i hc
    exact absurd h (FnState.condition_not_clean hc)
  · rename_i cc hc
    have hjump := FnState.jump_of_clean
      (((FnState.extends_placeLabel _ _ _).trans (FnState.extends_resume _ _ _)).clean h)
    refine ⟨cc, FnState.condition_eq_ok hc, ?_⟩
    simp only [FnState.freshLabel, Int.add_assoc] at hjump ⊢
    rw [hjump, FnState.grow_placeLabel, FnState.reenter, FnState.grow_resume]
    rfl

/-- `repeat` places its label. -/
theorem openRepeat_eq :
    b.openRepeat false span =
      { fn := b.fn.grow [.label (Label.make "repeat_top" (b.fn.counter + 1)) span] b.fn.tracker
          (b.fn.counter + 1)
        blocks := .repeatBlock (b.fn.opening span)
          (Label.make "repeat_top" (b.fn.counter + 1)) :: b.blocks } := rfl

/-- `select` takes a label for its end. -/
theorem openSelect_eq :
    b.openSelect span =
      { fn := b.fn.grow [] b.fn.tracker (b.fn.counter + 1)
        blocks := .selectBlock (b.fn.opening span)
          (Label.make "select_end" (b.fn.counter + 1)) none false false [] [] :: b.blocks } := by
  simp [openSelect, FnState.freshLabel, FnState.grow]

/-! ## Arms -/

/-- The jump that leaves an arm, when its end can be reached. -/
def leadLines (r : Resolver) (leaves : Bool) (span : Span) (name : String) : List Line :=
  if leaves then [.jump r span name] else []

@[simp] theorem labelNames_leadLines {leaves : Bool} {name : String} :
    Line.labelNames (leadLines r leaves span name) = [] := by
  cases leaves <;> rfl

/-- `else` leaves the first arm of a conditional and goes on as at its
    opening. -/
theorem elseArm_if_of_clean {o : Opening} {other last : String} {exits : List Depth}
    {rest : List Block} (hb : b.blocks = .ifBlock o other last false exits :: rest)
    (h : (b.elseArm r span).fn.Clean) :
    b.elseArm r span =
      { fn := b.fn.grow (leadLines r b.fn.tracker.live span last ++ [Line.label other span])
          { depth := o.depth, live := o.live } b.fn.counter
        blocks := .ifBlock o other last true (exits ++ b.fn.reached) :: rest } := by
  unfold elseArm at h ⊢
  rw [hb] at h ⊢
  simp only [Bool.false_eq_true, if_false] at h ⊢
  cases hlive : b.fn.tracker.live with
  | false => rfl
  | true =>
    simp only [hlive, if_true] at h ⊢
    rw [FnState.jump_of_clean
      (((FnState.extends_placeLabel _ _ _).trans (FnState.extends_resume _ _ _)).clean h),
      FnState.grow_placeLabel, FnState.reenter, FnState.grow_resume]
    rfl

/-- Where one arm of a select ends, the label of the next test follows. -/
theorem closeArm_of_clean {last : String} {next : Option String} {armOpen : Bool}
    {exits : List Depth} {s : FnState}
    (h : (closeArm r span last next armOpen exits s).2.Clean) :
    ∃ t : Tracker, closeArm r span last next armOpen exits s =
      (exits ++ (if armOpen && s.tracker.live then [s.tracker.depth] else []),
        s.grow (leadLines r (armOpen && s.tracker.live) span last ++
          next.toList.map (Line.label · span)) t s.counter) := by
  unfold closeArm at h ⊢
  cases hleaves : armOpen && s.tracker.live with
  | false =>
    refine ⟨s.tracker, ?_⟩
    cases next with
    | none => simp [leadLines, FnState.grow_self]
    | some n => simp [leadLines, FnState.placeLabel_eq]
  | true =>
    simp only [hleaves, if_true] at h ⊢
    have hjump : (s.jump r span [.ofName last]).Clean := by
      cases next with
      | none => exact h
      | some n => exact (FnState.extends_placeLabel _ n span).clean h
    refine ⟨s.tracker.kill, ?_⟩
    rw [FnState.jump_of_clean hjump]
    cases next with
    | none => simp [leadLines]
    | some n => simp [leadLines]

/-- `else` leaves the open arm of a select and goes on as at its opening. -/
theorem elseArm_select_of_clean {o : Opening} {last : String} {next : Option String}
    {armOpen : Bool} {exits : List Depth} {values : List Int64} {rest : List Block}
    (hb : b.blocks = .selectBlock o last next false armOpen exits values :: rest)
    (h : (b.elseArm r span).fn.Clean) :
    b.elseArm r span =
      { fn := b.fn.grow (leadLines r (armOpen && b.fn.tracker.live) span last ++
            next.toList.map (Line.label · span)) { depth := o.depth, live := o.live } b.fn.counter
        blocks := .selectBlock o last none true true
          (exits ++ (if armOpen && b.fn.tracker.live then [b.fn.tracker.depth] else [])) values ::
            rest } := by
  unfold elseArm at h ⊢
  rw [hb] at h ⊢
  simp only [Bool.false_eq_true, if_false] at h ⊢
  obtain ⟨t, hclose⟩ := closeArm_of_clean ((FnState.extends_resume _ _ _).clean h)
  rw [hclose]
  rfl

/-! ## Cases -/

/-- The lines that compare the accumulator with values. -/
inductive Compares (r : Resolver) (span : Span) (arm next : String) :
    List Int64 → List Line → Prop where
  | none : Compares r span arm next [] [.jump r span next]
  | last (v : Int64) : Compares r span arm next [v] [.compare span v, .branch r span .nz next]
  | more {vs ls} (v : Int64) (hne : vs ≠ []) (h : Compares r span arm next vs ls) :
      Compares r span arm next (v :: vs) (.compare span v :: .branch r span .z arm :: ls)

theorem Compares.labelNames {arm next : String} {vs : List Int64} {ls : List Line}
    (h : Compares r span arm next vs ls) : Line.labelNames ls = [] := by
  induction h with
  | none => rfl
  | last v => rfl
  | more v hne _ ih => exact ih

/-- The code of one comparison with a number. -/
def compareWith (r : Resolver) (span : Span) (v : Int64) (s : FnState) : FnState :=
  s.emit r { head := "cp", operands := [.ofNum v], span }

theorem emitAll_compareCode_none (arm next : String) (s : FnState) :
    s.emitAll r span (compareCode arm next []) = s.jump r span [.ofName next] := by
  simp [compareCode, FnState.emitAll, Instruction.of, FnState.jump]

theorem emitAll_compareCode_last (arm next : String) (v : Int64) (s : FnState) :
    s.emitAll r span (compareCode arm next [v]) =
      (compareWith r span v s).jump r span [.ofReg Condition.nz.text, .ofName next] := by
  simp [compareCode, FnState.emitAll, Instruction.of, compareWith, FnState.jump, Condition.text]

theorem emitAll_compareCode_more (arm next : String) (v v' : Int64) (vs : List Int64)
    (s : FnState) :
    s.emitAll r span (compareCode arm next (v :: v' :: vs)) =
      ((compareWith r span v s).jump r span [.ofReg Condition.z.text, .ofName arm]).emitAll r span
        (compareCode arm next (v' :: vs)) := by
  simp [compareCode, FnState.emitAll, Instruction.of, compareWith, FnState.jump, Condition.text]

/-- Comparisons that are emitted cleanly. -/
theorem compareCode_of_clean {arm next : String} {vs : List Int64} {s : FnState}
    (h : (s.emitAll r span (compareCode arm next vs)).Clean) :
    ∃ ls, Compares r span arm next vs ls ∧ s.emitAll r span (compareCode arm next vs) =
      s.grow ls (if vs.isEmpty then s.tracker.kill else s.tracker) s.counter := by
  induction vs generalizing s with
  | nil =>
    rw [emitAll_compareCode_none] at h ⊢
    exact ⟨_, .none, FnState.jump_of_clean h⟩
  | cons v vs ih =>
    cases vs with
    | nil =>
      rw [emitAll_compareCode_last] at h ⊢
      have hcompare : compareWith r span v s = _ :=
        FnState.compare_of_clean ((FnState.extends_jump _ r span _).clean h)
      rw [hcompare] at h ⊢
      exact ⟨_, .last v, by simp [FnState.branch_of_clean .nz h]⟩
    | cons v' vs =>
      rw [emitAll_compareCode_more] at h ⊢
      have hjump := (FnState.extends_emitAll _ r span _).clean h
      have hcompare : compareWith r span v s = _ :=
        FnState.compare_of_clean ((FnState.extends_jump _ r span _).clean hjump)
      rw [hcompare] at h hjump ⊢
      rw [FnState.branch_of_clean .z hjump] at h ⊢
      obtain ⟨ls, hls, heq⟩ := ih h
      exact ⟨_, .more v (by simp) hls, by rw [heq]; simp⟩

/-- Only the low byte of a value is compared. -/
theorem ofInt_lowByte (n : Int64) : UInt8.ofInt (n &&& 0xFF).toInt = UInt8.ofInt n.toInt := by
  have hand : (n &&& 0xFF).toBitVec.toNat = n.toBitVec.toNat % 2 ^ 8 := by
    rw [Int64.toBitVec_and, BitVec.toNat_and]
    exact Nat.and_two_pow_sub_one_eq_mod _ 8
  have hmod : (n &&& 0xFF).toInt % 2 ^ 8 = n.toInt % 2 ^ 8 := by
    show (n &&& 0xFF).toBitVec.toInt % 2 ^ 8 = n.toBitVec.toInt % 2 ^ 8
    rw [BitVec.toInt_eq_toNat_cond, BitVec.toInt_eq_toNat_cond, hand]
    omega
  unfold UInt8.ofInt
  rw [hmod]

/-- Values that are read cleanly are all there. -/
theorem caseValues_of_clean {seen : List Int64} {es : List Expr} {s : FnState}
    (h : (caseValues r span seen es s).2.Clean) :
    (caseValues r span seen es s).2 = s ∧
      (caseValues r span seen es s).1.map (fun v => UInt8.ofInt v.toInt) =
        es.filterMap fun e => match e.eval r with
          | .ok n => some (UInt8.ofInt n.toInt)
          | .error _ => none := by
  induction es generalizing seen with
  | nil => exact ⟨rfl, rfl⟩
  | cons e es ih =>
    rw [caseValues] at h ⊢
    cases he : e.eval r with
    | error err =>
      rw [he] at h
      exact absurd ((extends_caseValues _ _ _ _ _).clean h) (s.not_clean_report _ _)
    | ok n =>
      rw [he] at h
      dsimp only at h ⊢
      split at h
      · exact absurd ((extends_caseValues _ _ _ _ _).clean h) (s.not_clean_report _ _)
      · rename_i hrange
        rw [if_neg hrange]
        split at h
        · exact absurd ((extends_caseValues _ _ _ _ _).clean h) (s.not_clean_report _ _)
        · rename_i hseen
          rw [if_neg hseen]
          obtain ⟨hs, hvs⟩ := ih h
          refine ⟨hs, ?_⟩
          rw [List.filterMap_cons, he]
          simp only [List.map_cons, ofInt_lowByte]
          rw [← hvs]

/-- The test of a case.  Only a case of several values takes a label for its
    arm. -/
theorem testCase_of_clean {next : String} {vs : List Int64} {s : FnState}
    (h : (testCase r span next vs s).Clean) :
    ∃ (arm : String) (ts al : List Line), Compares r span arm next vs ts ∧
      (al = [] ∧ vs.length ≤ 1 ∨
        arm = Label.make "select_arm" (s.counter + 1) ∧ al = [.label arm span]) ∧
      testCase r span next vs s =
        s.grow (ts ++ al) (if vs.isEmpty then s.tracker.kill else s.tracker)
          (s.counter + al.length) := by
  unfold testCase at h ⊢
  split at h
  · rename_i hlen
    rw [if_pos hlen]
    obtain ⟨ts, hts, heq⟩ := compareCode_of_clean h
    exact ⟨_, ts, [], hts, .inl ⟨rfl, hlen⟩, by simp [heq]⟩
  · rename_i hlen
    rw [if_neg hlen]
    obtain ⟨ts, hts, heq⟩ := compareCode_of_clean ((FnState.extends_placeLabel _ _ _).clean h)
    refine ⟨_, ts, _, hts, .inr ⟨rfl, rfl⟩, ?_⟩
    simp only [FnState.freshLabel] at heq ⊢
    rw [heq, FnState.grow_placeLabel]
    rfl

/-- `case` leaves the open arm and tests for its values. -/
theorem caseArm_of_clean {o : Opening} {last : String} {next : Option String} {armOpen : Bool}
    {exits : List Depth} {values : List Int64} {rest : List Block} {es : List Expr}
    (hb : b.blocks = .selectBlock o last next false armOpen exits values :: rest)
    (h : (b.caseArm r es span).fn.Clean) :
    ∃ (vs : List Int64) (arm : String) (ts al : List Line),
      Compares r span arm (Label.make "select_next" (b.fn.counter + 1)) vs ts ∧
      (al = [] ∧ vs.length ≤ 1 ∨
        arm = Label.make "select_arm" (b.fn.counter + 2) ∧ al = [.label arm span]) ∧
      vs.map (fun v => UInt8.ofInt v.toInt) = (es.filterMap fun e => match e.eval r with
          | .ok n => some (UInt8.ofInt n.toInt)
          | .error _ => none) ∧
      b.caseArm r es span =
        { fn := b.fn.grow (leadLines r (armOpen && b.fn.tracker.live) span last ++
              next.toList.map (Line.label · span) ++ (ts ++ al))
            { depth := o.depth, live := o.live && !vs.isEmpty } (b.fn.counter + 1 + al.length)
          blocks := .selectBlock o last (some (Label.make "select_next" (b.fn.counter + 1)))
            false true (exits ++ (if armOpen && b.fn.tracker.live then [b.fn.tracker.depth]
              else [])) (values ++ vs) :: rest } := by
  unfold caseArm at h ⊢
  rw [hb] at h ⊢
  simp only [Bool.false_eq_true, if_false] at h ⊢
  have htest := (extends_testCase _ _ _ _ _).clean h
  have hvalues := (FnState.extends_freshLabel _ "select_next").clean htest
  have hresume := (extends_caseValues _ _ _ _ _).clean hvalues
  obtain ⟨t, hclose⟩ := closeArm_of_clean ((FnState.extends_resume _ _ _).clean hresume)
  obtain ⟨hsame, hbytes⟩ := caseValues_of_clean hvalues
  rw [hclose] at h hsame hbytes ⊢
  simp only [FnState.reenter, FnState.grow_resume] at h hsame hbytes ⊢
  rw [hsame] at h ⊢
  obtain ⟨arm, ts, al, hts, hal, heq⟩ := testCase_of_clean h
  refine ⟨_, arm, ts, al, ?_, ?_, hbytes, ?_⟩
  · exact hts
  · simpa [FnState.freshLabel, Int.add_assoc] using hal
  · rw [heq]
    simp only [FnState.grow_freshLabel, FnState.grow_grow, FnState.grow_tracker,
      FnState.grow_counter]
    cases (caseValues r span values es _).1.isEmpty <;> simp [Tracker.kill]

/-! ## Ends -/

/-- The tracker after depths were joined. -/
def joined (t : Tracker) (ds : List Depth) : Tracker :=
  { depth := ds.head?.getD t.depth, live := !ds.isEmpty }

/-- Depths that join cleanly agree. -/
theorem join_eq_grow {site : JoinSite} {ds : List Depth} {s : FnState}
    (h : (s.join site span ds).Clean) :
    (∀ d ∈ ds, ∀ d' ∈ ds, d = d') ∧
      s.join site span ds = s.grow [] (joined s.tracker ds) s.counter := by
  obtain ⟨d, hall, heq⟩ := FnState.join_of_clean h
  refine ⟨fun x hx y hy => (hall x hx).trans (hall y hy).symm, ?_⟩
  rw [heq]
  cases ds with
  | nil => simp [joined, FnState.grow]
  | cons d' ds =>
    obtain rfl := hall d' List.mem_cons_self
    simp [joined, FnState.grow]

/-- The end of a conditional places its labels and joins its arms. -/
theorem endBlock_if_of_clean {o : Opening} {other last : String} {elseSeen : Bool}
    {exits : List Depth} {rest : List Block}
    (hb : b.blocks = .ifBlock o other last elseSeen exits :: rest)
    (h : (b.endBlock r span).fn.Clean) :
    let ds := exits ++ b.fn.reached ++ (if elseSeen then [] else o.reached)
    (∀ d ∈ ds, ∀ d' ∈ ds, d = d') ∧
      b.endBlock r span =
        { fn := b.fn.grow ((if elseSeen then [] else [.label other span]) ++ [Line.label last span])
            (joined b.fn.tracker ds) b.fn.counter
          blocks := rest } := by
  unfold endBlock at h ⊢
  rw [hb] at h ⊢
  dsimp only at h ⊢
  obtain ⟨hall, heq⟩ := join_eq_grow h
  refine ⟨hall, ?_⟩
  rw [heq]
  cases elseSeen <;> simp [FnState.placeLabel_eq]

/-- The end of a `while` tests its condition. -/
theorem endBlock_while_of_clean {o : Opening} {cc : Condition} {top test : String}
    {rest : List Block} (hb : b.blocks = .whileBlock o cc top test :: rest)
    (h : (b.endBlock r span).fn.Clean) :
    let ds := o.reached ++ b.fn.reached
    (∀ d ∈ ds, ∀ d' ∈ ds, d = d') ∧
      b.endBlock r span =
        { fn := b.fn.grow [.label test span, .branch r span cc top] (joined b.fn.tracker ds)
            b.fn.counter
          blocks := rest } := by
  unfold endBlock at h ⊢
  rw [hb] at h ⊢
  dsimp only at h ⊢
  obtain ⟨hall, heq⟩ := join_eq_grow ((FnState.extends_jump _ _ _ _).clean h)
  refine ⟨hall, ?_⟩
  rw [heq] at h ⊢
  rw [FnState.branch_of_clean cc h]
  simp [FnState.placeLabel_eq]

/-- The end of a select places its labels and joins its arms. -/
theorem endBlock_select_of_clean {o : Opening} {last : String} {next : Option String}
    {elseSeen armOpen : Bool} {exits : List Depth} {values : List Int64} {rest : List Block}
    (hb : b.blocks = .selectBlock o last next elseSeen armOpen exits values :: rest)
    (h : (b.endBlock r span).fn.Clean) :
    let ds := exits ++ (if armOpen then b.fn.reached else []) ++
      (if elseSeen then [] else o.reached)
    (∀ d ∈ ds, ∀ d' ∈ ds, d = d') ∧
      b.endBlock r span =
        { fn := b.fn.grow (next.toList.map (Line.label · span) ++ [Line.label last span])
            (joined b.fn.tracker ds) b.fn.counter
          blocks := rest } := by
  unfold endBlock at h ⊢
  rw [hb] at h ⊢
  dsimp only at h ⊢
  obtain ⟨hall, heq⟩ := join_eq_grow h
  refine ⟨hall, ?_⟩
  rw [heq]
  cases next <;> simp [FnState.placeLabel_eq]

/-- `until` goes back to the top while its condition fails. -/
theorem untilClose_of_clean {o : Opening} {top cond : String} {rest : List Block}
    (hb : b.blocks = .repeatBlock o top :: rest) (h : (b.untilClose r cond span).fn.Clean) :
    let ds := o.reached ++ b.fn.reached
    (∀ d ∈ ds, ∀ d' ∈ ds, d = d') ∧
      ∃ cc, Condition.ofWord? cond = some cc ∧ b.untilClose r cond span =
        { fn := b.fn.grow [.branch r span cc.negate top] (joined b.fn.tracker ds) b.fn.counter
          blocks := rest } := by
  unfold untilClose at h ⊢
  rw [hb] at h ⊢
  dsimp only at h ⊢
  split at h
  · rename_i hc
    exact absurd h (FnState.condition_not_clean hc)
  · rename_i cc hc
    obtain ⟨hall, heq⟩ := join_eq_grow ((FnState.extends_jump _ _ _ _).clean h)
    rw [heq] at h
    refine ⟨hall, cc, FnState.condition_eq_ok hc, ?_⟩
    rw [heq, FnState.branch_of_clean cc.negate h]
    simp

/-! ## The blocks that a word is for -/

/-- `else` divides a conditional or a select, and does nothing in a block that is
    broken. -/
theorem elseArm_cases (h : (b.elseArm r span).fn.Clean) :
    (∃ kind ks, b.blocks = .broken kind :: ks ∧ b.elseArm r span = b) ∨
      (∃ o other last ds ks, b.blocks = .ifBlock o other last false ds :: ks) ∨
      ∃ o last next armOpen ds vs ks,
        b.blocks = .selectBlock o last next false armOpen ds vs :: ks := by
  unfold elseArm at h
  split at h
  · rename_i hb
    exact .inl ⟨_, _, hb, by rw [elseArm, hb]⟩
  · rename_i hb
    exact .inl ⟨_, _, hb, by rw [elseArm, hb]⟩
  · rename_i o other last elseSeen ds ks hb
    cases elseSeen with
    | true => exact absurd h (FnState.not_clean_report _ _ _)
    | false => exact .inr (.inl ⟨_, _, _, _, _, hb⟩)
  · rename_i o last next elseSeen armOpen ds vs ks hb
    cases elseSeen with
    | true => exact absurd h (FnState.not_clean_report _ _ _)
    | false => exact .inr (.inr ⟨_, _, _, _, _, _, _, hb⟩)
  · exact absurd h (FnState.not_clean_report _ _ _)

/-- `case` opens an arm of a select, and does nothing in a block that is broken. -/
theorem caseArm_cases {es : List Expr} (h : (b.caseArm r es span).fn.Clean) :
    (∃ kind ks, b.blocks = .broken kind :: ks ∧ b.caseArm r es span = b) ∨
      ∃ o last next armOpen ds vs ks,
        b.blocks = .selectBlock o last next false armOpen ds vs :: ks := by
  unfold caseArm at h
  split at h
  · rename_i hb
    exact .inl ⟨_, _, hb, by rw [caseArm, hb]⟩
  · rename_i o last next elseSeen armOpen ds vs ks hb
    cases elseSeen with
    | true => exact absurd h (FnState.not_clean_report _ _ _)
    | false => exact .inr ⟨_, _, _, _, _, _, _, hb⟩
  · exact absurd h (FnState.not_clean_report _ _ _)

/-- `end` closes all blocks but those of `repeat`. -/
theorem endBlock_cases (h : (b.endBlock r span).fn.Clean) :
    (∃ kind ks, b.blocks = .broken kind :: ks ∧
      (b.endBlock r span = b ∨ b.endBlock r span = { b with blocks := ks })) ∨
      (∃ o other last elseSeen ds ks, b.blocks = .ifBlock o other last elseSeen ds :: ks) ∨
      (∃ o cc top test ks, b.blocks = .whileBlock o cc top test :: ks) ∨
      ∃ o last next elseSeen armOpen ds vs ks,
        b.blocks = .selectBlock o last next elseSeen armOpen ds vs :: ks := by
  cases hb : b.blocks with
  | nil =>
    rw [endBlock, hb] at h
    exact absurd h (FnState.not_clean_report _ _ _)
  | cons k ks =>
    cases k with
    | repeatBlock o top =>
      rw [endBlock, hb] at h
      exact absurd h (FnState.not_clean_report _ _ _)
    | broken kind =>
      refine .inl ⟨kind, ks, rfl, ?_⟩
      unfold endBlock
      rw [hb]
      cases kind with
      | repeatBlock => exact .inl rfl
      | ifBlock | whileBlock | selectBlock => exact .inr rfl
    | ifBlock o other last elseSeen ds => exact .inr (.inl ⟨_, _, _, _, _, _, rfl⟩)
    | whileBlock o cc top test => exact .inr (.inr (.inl ⟨_, _, _, _, _, rfl⟩))
    | selectBlock o last next elseSeen armOpen ds vs =>
      exact .inr (.inr (.inr ⟨_, _, _, _, _, _, _, _, rfl⟩))

/-- `until` closes the blocks of `repeat`. -/
theorem untilClose_cases {cond : String} (h : (b.untilClose r cond span).fn.Clean) :
    (∃ kind ks, b.blocks = .broken kind :: ks ∧
      b.untilClose r cond span = { b with blocks := ks }) ∨
      ∃ o top ks, b.blocks = .repeatBlock o top :: ks := by
  unfold untilClose at h
  split at h
  · rename_i hb
    exact .inl ⟨_, _, hb, by rw [untilClose, hb]⟩
  · rename_i hb
    exact .inr ⟨_, _, _, hb⟩
  · exact absurd h (FnState.not_clean_report _ _ _)

/-- At the end of a body without a report, only broken blocks are open. -/
theorem close_eq_of_clean {ks : List Block} {s : FnState} (h : (ks.foldl closeBlock s).Clean) :
    ks.foldl closeBlock s = s ∧ ∀ k ∈ ks, ∃ kind, k = .broken kind := by
  induction ks generalizing s with
  | nil => exact ⟨rfl, by simp⟩
  | cons k ks ih =>
    rw [List.foldl_cons] at h ⊢
    have hk : (closeBlock s k).Clean := (FnState.Extends.foldl extends_closeBlock ks _).clean h
    cases k with
    | broken kind =>
      obtain ⟨heq, hks⟩ := ih h
      exact ⟨heq, List.forall_mem_cons.mpr ⟨⟨kind, rfl⟩, hks⟩⟩
    | repeatBlock o top => exact absurd hk (FnState.not_clean_report _ _ _)
    | ifBlock o other last elseSeen ds =>
      exact absurd ((FnState.extends_placeMissing _ _ _).clean hk) (FnState.not_clean_report _ _ _)
    | whileBlock o cc top test =>
      exact absurd ((FnState.extends_placeMissing _ _ _).clean hk) (FnState.not_clean_report _ _ _)
    | selectBlock o last next elseSeen armOpen ds vs =>
      exact absurd ((FnState.extends_placeMissing _ _ _).clean hk) (FnState.not_clean_report _ _ _)

end Body

end Z80Backend
