import Z80Backend.Function.State

/-! # Blocks

    Statements come in a flat stream, and the words of structured control
    open and close blocks in it.  A body being lowered is the state of its
    function with the stack of blocks that are open.

    Each block remembers the labels that its jumps use and the depths with
    which its arms were left.  A block whose opening statement could not be
    read is broken: it only waits for the word that closes it. -/

namespace Z80Backend

/-- How a block was entered. -/
structure Opening where
  span : Span
  depth : Depth
  live : Bool
  deriving DecidableEq, Repr, Inhabited

/-- The depths that reach the point of entry: one, or none when it is out of
    reach. -/
def Opening.reached (o : Opening) : List Depth := if o.live then [o.depth] else []

/-- An open block. -/
inductive Block where
  /-- A conditional.  `exits` are the depths at the end of earlier arms. -/
  | ifBlock (o : Opening) (elseLabel endLabel : String) (elseSeen : Bool) (exits : List Depth)
  /-- A loop that tests at label `test` before each turn. -/
  | whileBlock (o : Opening) (cond : Condition) (top test : String)
  /-- A loop that tests after each turn. -/
  | repeatBlock (o : Opening) (top : String)
  /-- A dispatch.  `next` is where the open arm goes on when its values do not
      match, and `values` are the ones seen so far. -/
  | selectBlock (o : Opening) (endLabel : String) (next : Option String)
      (elseSeen armOpen : Bool) (exits : List Depth) (values : List Int64)
  | broken (kind : BlockKind)
  deriving DecidableEq, Repr, Inhabited

/-- A body being lowered. -/
structure Body where
  fn : FnState
  /-- The open blocks, the innermost first. -/
  blocks : List Block := []

namespace FnState

/-- The depths that reach the current point. -/
def reached (s : FnState) : List Depth := if s.tracker.live then [s.tracker.depth] else []

/-- A block opened at the current point. -/
def opening (s : FnState) (span : Span) : Opening :=
  { span, depth := s.tracker.depth, live := s.tracker.live }

/-- Goes on as at the entry of a block. -/
def reenter (s : FnState) (o : Opening) : FnState := s.resume o.depth o.live

/-- Emits a jump. -/
def jump (r : Resolver) (span : Span) (operands : List Operand) (s : FnState) : FnState :=
  s.emit r { head := "jp", operands, span }

/-- Merges the depths that reach the current point.  A point that none reaches
    is dead. -/
def join (site : JoinSite) (span : Span) (depths : List Depth) (s : FnState) : FnState :=
  if depths.isEmpty then { s with tracker := s.tracker.kill }
  else
    let (d, e) := Depth.join site depths
    { s.check e span with tracker := .set d }

/-- Reads a condition; `word` is the statement it stands in. -/
def condition (s : FnState) (cond word : String) (span : Span) : Except FnState Condition :=
  match Condition.ofWord? cond with
  | some cc => .ok cc
  | none   => .error (s.report (.control (.condition cond word)) span)

/-- Places those of the labels that are not placed yet. -/
def placeMissing (s : FnState) (names : List String) (span : Span) : FnState :=
  names.foldl (fun s n => if Line.hasLabel n s.lines then s else s.placeLabel n span) s

end FnState

namespace Body

/-- Opens a block that only waits for its end. -/
def openBroken (b : Body) (fn : FnState) (kind : BlockKind) : Body :=
  { fn, blocks := .broken kind :: b.blocks }

/-- `if cond`: control goes to the other arm when the condition fails. -/
def openIf (r : Resolver) (cond : String) (malformed : Bool) (span : Span) (b : Body) : Body :=
  if malformed then b.openBroken b.fn .ifBlock
  else
    match b.fn.condition cond "if" span with
    | .error s => b.openBroken s .ifBlock
    | .ok cc =>
      let o := b.fn.opening span
      let (elseLabel, s) := b.fn.freshLabel "if_else"
      let (endLabel, s) := s.freshLabel "if_end"
      { fn := s.jump r span [.ofReg cc.negate.text, .ofName elseLabel]
        blocks := .ifBlock o elseLabel endLabel false [] :: b.blocks }

/-- `while cond`: control goes to the test, which stands after the body. -/
def openWhile (r : Resolver) (cond : String) (malformed : Bool) (span : Span) (b : Body) : Body :=
  if malformed then b.openBroken b.fn .whileBlock
  else
    match b.fn.condition cond "while" span with
    | .error s => b.openBroken s .whileBlock
    | .ok cc =>
      let o := b.fn.opening span
      let (top, s) := b.fn.freshLabel "while_top"
      let (test, s) := s.freshLabel "while_cond"
      { fn := ((s.jump r span [.ofName test]).placeLabel top span).reenter o
        blocks := .whileBlock o cc top test :: b.blocks }

/-- `repeat`. -/
def openRepeat (malformed : Bool) (span : Span) (b : Body) : Body :=
  if malformed then b.openBroken b.fn .repeatBlock
  else
    let o := b.fn.opening span
    let (top, s) := b.fn.freshLabel "repeat_top"
    { fn := s.placeLabel top span, blocks := .repeatBlock o top :: b.blocks }

/-- `select`, once the selector is in `a`. -/
def openSelect (span : Span) (b : Body) : Body :=
  let o := b.fn.opening span
  let (endLabel, s) := b.fn.freshLabel "select_end"
  { fn := s, blocks := .selectBlock o endLabel none false false [] [] :: b.blocks }

/-! ## Arms -/

/-- Leaves the open arm of a select, if there is one, and places the label at
    which its values go on.  Gives the depths the arms were left with. -/
def closeArm (r : Resolver) (span : Span) (endLabel : String) (next : Option String)
    (armOpen : Bool) (exits : List Depth) (s : FnState) : List Depth × FnState :=
  let (exits, s) :=
    if armOpen && s.tracker.live then
      (exits ++ [s.tracker.depth], s.jump r span [.ofName endLabel])
    else (exits, s)
  match next with
  | some label => (exits, s.placeLabel label span)
  | none       => (exits, s)

/-- `else`. -/
def elseArm (r : Resolver) (span : Span) (b : Body) : Body :=
  match b.blocks with
  | .broken .ifBlock :: _ => b
  | .broken .selectBlock :: _ => b
  | .ifBlock o elseLabel endLabel elseSeen exits :: rest =>
    if elseSeen then { b with fn := b.fn.report (.control (.secondElse .ifBlock)) span }
    else
      let s := if b.fn.tracker.live then b.fn.jump r span [.ofName endLabel] else b.fn
      { fn := (s.placeLabel elseLabel span).reenter o
        blocks := .ifBlock o elseLabel endLabel true (exits ++ b.fn.reached) :: rest }
  | .selectBlock o endLabel next elseSeen armOpen exits values :: rest =>
    if elseSeen then { b with fn := b.fn.report (.control (.secondElse .selectBlock)) span }
    else
      let (exits, s) := closeArm r span endLabel next armOpen exits b.fn
      { fn := s.reenter o
        blocks := .selectBlock o endLabel none true true exits values :: rest }
  | _ => { b with fn := b.fn.report (.control .strayElse) span }

/-- The values of a case that are in order, given those seen before. -/
def caseValues (r : Resolver) (span : Span) (seen : List Int64) :
    List Expr → FnState → List Int64 × FnState
  | [], s => ([], s)
  | e :: es, s =>
    match e.eval r with
    | .error _ => caseValues r span seen es (s.report (.control (.caseValue e)) span)
    | .ok n =>
      if n < -128 || 255 < n then
        caseValues r span seen es (s.report (.control (.caseValue e)) span)
      else
        let v := n &&& 0xFF
        if seen.contains v then
          caseValues r span seen es (s.report (.control (.repeatedCase v)) span)
        else
          let (vs, s) := caseValues r span (seen ++ [v]) es s
          (v :: vs, s)

/-- Code that goes to `arm`, or on to the next instruction, when `a` is one of
    the values, and to `next` when it is none of them. -/
def compareCode (arm next : String) : List Int64 → List Instruction
  | [] => [.of "jp" [.ofName next]]
  | [v] => [.of "cp" [.ofNum v], .of "jp" [.ofReg "nz", .ofName next]]
  | v :: vs =>
    [.of "cp" [.ofNum v], .of "jp" [.ofReg "z", .ofName arm]] ++ compareCode arm next vs

/-- Emits the test of a case.  Only a case of several values needs a label for
    its arm. -/
def testCase (r : Resolver) (span : Span) (next : String) (values : List Int64) (s : FnState) :
    FnState :=
  if values.length ≤ 1 then s.emitAll r span (compareCode "" next values)
  else
    let (arm, s) := s.freshLabel "select_arm"
    (s.emitAll r span (compareCode arm next values)).placeLabel arm span

/-- `case`. -/
def caseArm (r : Resolver) (es : List Expr) (span : Span) (b : Body) : Body :=
  match b.blocks with
  | .broken .selectBlock :: _ => b
  | .selectBlock o endLabel next elseSeen armOpen exits values :: rest =>
    if elseSeen then { b with fn := b.fn.report (.control .caseAfterElse) span }
    else
      let (exits, s) := closeArm r span endLabel next armOpen exits b.fn
      let (fresh, s) := caseValues r span values es (s.reenter o)
      let (next, s) := s.freshLabel "select_next"
      { fn := testCase r span next fresh s
        blocks := .selectBlock o endLabel (some next) false true exits (values ++ fresh) :: rest }
  | _ => { b with fn := b.fn.report (.control .strayCase) span }

/-! ## Ends -/

/-- `end`. -/
def endBlock (r : Resolver) (span : Span) (b : Body) : Body :=
  match b.blocks with
  | [] => { b with fn := b.fn.report (.control .strayEnd) span }
  | .broken .repeatBlock :: _ => b
  | .repeatBlock _ _ :: _ => { b with fn := b.fn.report (.control .endOfRepeat) span }
  | .broken _ :: rest => { b with blocks := rest }
  | .ifBlock o elseLabel endLabel elseSeen exits :: rest =>
    let depths := exits ++ b.fn.reached ++ (if elseSeen then [] else o.reached)
    let s := if elseSeen then b.fn else b.fn.placeLabel elseLabel span
    { fn := (s.placeLabel endLabel span).join .ifJoin span depths, blocks := rest }
  | .whileBlock o cond top test :: rest =>
    let s := (b.fn.placeLabel test span).join .whileBackEdge span (o.reached ++ b.fn.reached)
    { fn := s.jump r span [.ofReg cond.text, .ofName top], blocks := rest }
  | .selectBlock o endLabel next elseSeen armOpen exits _ :: rest =>
    let depths := exits ++ (if armOpen then b.fn.reached else []) ++
      (if elseSeen then [] else o.reached)
    let s := match next with
      | some label => b.fn.placeLabel label span
      | none       => b.fn
    { fn := (s.placeLabel endLabel span).join .selectJoin span depths, blocks := rest }

/-- `until cond`: control goes back to the top while the condition fails. -/
def untilClose (r : Resolver) (cond : String) (span : Span) (b : Body) : Body :=
  match b.blocks with
  | .broken .repeatBlock :: rest => { b with blocks := rest }
  | .repeatBlock o top :: rest =>
    let s := b.fn.join .repeatBackEdge span (o.reached ++ b.fn.reached)
    match s.condition cond "until" span with
    | .error s => { fn := s, blocks := rest }
    | .ok cc => { fn := s.jump r span [.ofReg cc.negate.text, .ofName top], blocks := rest }
  | _ => { b with fn := b.fn.report (.control .strayUntil) span }

/-- Reports a block that is still open at the end of its body, and places the
    labels that its jumps need. -/
def closeBlock (s : FnState) : Block → FnState
  | .broken _ => s
  | .ifBlock o elseLabel endLabel _ _ =>
    (s.report (.control (.unterminated .ifBlock)) o.span).placeMissing
      [elseLabel, endLabel] o.span
  | .whileBlock o _ _ test =>
    (s.report (.control (.unterminated .whileBlock)) o.span).placeMissing [test] o.span
  | .repeatBlock o _ => s.report (.control (.unterminated .repeatBlock)) o.span
  | .selectBlock o endLabel next _ _ _ _ =>
    (s.report (.control (.unterminated .selectBlock)) o.span).placeMissing
      (next.toList ++ [endLabel]) o.span

/-- Ends a body. -/
def close (b : Body) : FnState := b.blocks.foldl closeBlock b.fn

end Body

end Z80Backend
