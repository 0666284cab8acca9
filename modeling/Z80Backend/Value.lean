import Z80Backend.Environment

/-! # Values of immediate expressions

    Arithmetic is on 64-bit integers that wrap around.  An expression is
    either a plain constant or, as long as it is a symbol plus a constant, a
    value that waits for the symbol's address. -/

namespace Z80Backend

/-! ## Operators -/

/-- Why an expression has no value. -/
inductive EvalError where
  /-- The name is neither a constant nor an enum member. -/
  | unresolved (name : String)
  | unknownUnary (symbol : String)
  | unknownBinary (symbol : String)
  | divisionByZero
  /-- The front end left the node out. -/
  | missing
  | type (e : TypeError)
  /-- The symbols in the expression do not combine to one symbol plus a
      constant. -/
  | notSymbolic (e : Expr)
  deriving DecidableEq, Repr

/-- The wording of an evaluation error. -/
def EvalError.message : EvalError → String
  | unresolved n => "unresolved name " ++ Text.quote n
  | unknownUnary s => "unsupported unary operator " ++ Text.quote s
  | unknownBinary s => "unsupported binary operator " ++ Text.quote s
  | divisionByZero => "division by zero"
  | missing => "unsupported expression <nil>"
  | type e => e.message
  | notSymbolic e => "expression " ++ e.text ++ " is not a symbol plus a constant"

/-- Left shift.  The count is an unsigned 64-bit number, so a negative count
    is a huge one and shifts everything out. -/
def shiftLeft (x count : Int64) : Int64 :=
  if 0 ≤ count ∧ count < 64 then x <<< count else 0

/-- Arithmetic right shift, with the count read as in `shiftLeft`. -/
def shiftRight (x count : Int64) : Int64 :=
  if 0 ≤ count ∧ count < 64 then x >>> count else if x < 0 then -1 else 0

/-- Applies an operator with one operand. -/
def UnaryOp.apply (op : UnaryOp) (x : Int64) : Except EvalError Int64 :=
  match op with
  | .neg        => .ok (-x)
  | .plus       => .ok x
  | .complement => .ok (~~~x)
  | .unknown s  => .error (.unknownUnary s)

/-- Applies an operator with two operands.  Division and remainder truncate
    toward zero. -/
def BinaryOp.apply (op : BinaryOp) (x y : Int64) : Except EvalError Int64 :=
  match op with
  | .add => .ok (x + y)
  | .sub => .ok (x - y)
  | .mul => .ok (x * y)
  | .div => if y = 0 then .error .divisionByZero else .ok (x / y)
  | .mod => if y = 0 then .error .divisionByZero else .ok (x % y)
  | .and => .ok (x &&& y)
  | .or  => .ok (x ||| y)
  | .xor => .ok (x ^^^ y)
  | .shl => .ok (shiftLeft x y)
  | .shr => .ok (shiftRight x y)
  | .unknown s => .error (.unknownBinary s)

/-! ## Constants -/

/-- The offset at the end of a field path, counted from the start of `t`. -/
def Resolver.pathOffset (r : Resolver) (t : TypeRef) : List String → Except TypeError Int64
  | [] => .ok 0
  | name :: rest =>
    match r.fieldOf t name with
    | .error e => .error e
    | .ok f =>
      match r.pathOffset f.type rest with
      | .error e => .error e
      | .ok n    => .ok (f.offset + n)

/-- The value of a constant expression.  Of two faults the leftmost is
    reported. -/
def Expr.eval (r : Resolver) : Expr → Except EvalError Int64
  | number n => .ok n
  | name s =>
    match r.value? s with
    | some v => .ok v
    | none   => .error (.unresolved s)
  | unary op x =>
    match x.eval r with
    | .error e => .error e
    | .ok v    => op.apply v
  | binary op x y =>
    match x.eval r with
    | .error e => .error e
    | .ok v =>
      match y.eval r with
      | .error e => .error e
      | .ok w    => op.apply v w
  | sizeof t =>
    match r.sizeOf t with
    | .error e => .error (.type e)
    | .ok n    => .ok n
  | offsetof t path =>
    match r.pathOffset { name := t } path with
    | .error e => .error (.type e)
    | .ok n    => .ok n
  | missing => .error .missing

/-! ## Symbolic values -/

/-- A symbol's address plus a constant, or a plain constant when the symbol
    is empty. -/
structure Value where
  symbol : String := ""
  addend : Int64 := 0
  deriving DecidableEq, Repr, Inhabited

namespace Value

/-- Is the value a plain constant? -/
def isConst (v : Value) : Bool := v.symbol == ""

/-- The sum or difference of two values of which at most one waits for a
    symbol; in a difference that one is on the left. -/
def combine? (op : BinaryOp) (v w : Value) : Option Value :=
  match op with
  | .add =>
    if v.isConst || w.isConst then
      some { symbol := if v.isConst then w.symbol else v.symbol, addend := v.addend + w.addend }
    else none
  | .sub => if w.isConst then some { v with addend := v.addend - w.addend } else none
  | _ => none

end Value

/-- The value of an expression in which one name may stay unresolved, as long
    as it is only combined with constants to `s`, `s+k`, `k+s` or `s-k`. -/
def Expr.evalSymbolic (r : Resolver) (e : Expr) : Except EvalError Value :=
  match e.eval r with
  | .ok v => .ok { addend := v }
  | .error (.unresolved n) =>
    match e with
    | name s => .ok { symbol := s }
    | binary op x y =>
      match x.evalSymbolic r with
      | .error err => .error err
      | .ok v =>
        match y.evalSymbolic r with
        | .error err => .error err
        | .ok w =>
          match Value.combine? op v w with
          | some u => .ok u
          | none   => .error (.notSymbolic (binary op x y))
    | _ => .error (.unresolved n)
  | .error err => .error err

/-! ## How symbolic evaluation succeeds -/

/-- How two values combine: a constant and any value to a sum, in either order,
    and any value and a constant to a difference. -/
theorem Value.combine?_cases {op : BinaryOp} {v w u : Value} (h : combine? op v w = some u) :
    (op = .add ∧ v.symbol = "" ∧ u = { symbol := w.symbol, addend := v.addend + w.addend }) ∨
    (op = .add ∧ w.symbol = "" ∧ u = { symbol := v.symbol, addend := v.addend + w.addend }) ∨
    (op = .sub ∧ w.symbol = "" ∧ u = { symbol := v.symbol, addend := v.addend - w.addend }) := by
  unfold combine? at h
  split at h
  · split at h
    · rename_i hside
      cases h
      by_cases hv : v.isConst = true
      · exact .inl ⟨rfl, by simpa [isConst] using hv, by simp [hv]⟩
      · have hw : w.isConst = true := by simpa [hv] using hside
        exact .inr (.inl ⟨rfl, by simpa [isConst] using hw, by simp [hv]⟩)
    · cases h
  · split at h
    · rename_i hw
      cases h
      exact .inr (.inr ⟨rfl, by simpa [isConst] using hw, rfl⟩)
    · cases h
  · cases h

/-- An expression with a symbolic value has a plain one, or is a missing name,
    or has two sides whose values combine. -/
theorem Expr.evalSymbolic_cases {r : Resolver} {e : Expr} {v : Value}
    (h : e.evalSymbolic r = .ok v) :
    (∃ n, e.eval r = .ok n ∧ v = { addend := n }) ∨
    (∃ s, e = name s ∧ r.value? s = none ∧ v = { symbol := s }) ∨
    (∃ op x y vx vy, e = binary op x y ∧ (∀ n, e.eval r ≠ .ok n) ∧ x.evalSymbolic r = .ok vx ∧
      y.evalSymbolic r = .ok vy ∧ Value.combine? op vx vy = some v) := by
  unfold evalSymbolic at h
  split at h
  · rename_i n hn
    cases h
    exact .inl ⟨n, hn, rfl⟩
  · rename_i m hm
    split at h
    · rename_i s
      cases h
      refine .inr (.inl ⟨s, rfl, ?_, rfl⟩)
      unfold eval at hm
      split at hm
      · cases hm
      · assumption
    · rename_i op x y
      split at h
      · cases h
      rename_i vx hx
      split at h
      · cases h
      rename_i vy hy
      split at h
      · rename_i u hu
        cases h
        refine .inr (.inr ⟨op, x, y, vx, vy, rfl, ?_, hx, hy, hu⟩)
        intro n hn
        rw [hm] at hn
        cases hn
      · cases h
    · cases h
  · cases h

end Z80Backend
