import Z80Backend.Proofs.Assembly.Names

/-! # Symbols plus constants

    Symbolic evaluation first evaluates the whole expression, and only if a name
    is missing it looks at the two sides.  It stops at the first fault that it
    meets, so a fault on one side can hide a missing name on the other.  Still it
    accepts neither more nor less than the sums and differences of one missing
    name with constants.

    * `Expr.SymbolPlus` is the grammar, with the constant that it comes down to.
    * `Resolver.Extends`: what has a value keeps it when more names get one.
    * `Expr.evalSymbolic_grammar`: the values are those of the grammar, and they
      are right once the symbol has an address. -/

namespace Z80Backend

namespace Expr

variable {r r' : Resolver} {e : Expr} {s : String} {k n : Int64} {v : Value}

theorem evalSymbolic_of_eval (h : e.eval r = .ok n) : e.evalSymbolic r = .ok { addend := n } := by
  unfold evalSymbolic
  rw [h]

/-- The value of two sides, of which the one or the other is missing a name. -/
theorem evalSymbolic_binary_of {op : BinaryOp} {x y : Expr} {vx vy : Value}
    (he : (binary op x y).eval r = .error (.unresolved s)) (hx : x.evalSymbolic r = .ok vx)
    (hy : y.evalSymbolic r = .ok vy) (hv : Value.combine? op vx vy = some v) :
    (binary op x y).evalSymbolic r = .ok v := by
  unfold evalSymbolic
  rw [he]
  dsimp only
  rw [hx, hy]
  dsimp only
  rw [hv]

/-! ## The grammar -/

/-- The expression is `s`, or a sum or difference of such an expression with
    constants.  The number is what the constants add up to. -/
inductive SymbolPlus (r : Resolver) (s : String) : Expr → Int64 → Prop
  /-- `s`, which has no value -/
  | symbol (h : r.value? s = none) : SymbolPlus r s (name s) 0
  /-- `e + c` -/
  | addConst {e c : Expr} {k n : Int64} (he : SymbolPlus r s e k) (hc : c.eval r = .ok n) :
    SymbolPlus r s (binary .add e c) (k + n)
  /-- `c + e` -/
  | constAdd {e c : Expr} {k n : Int64} (hc : c.eval r = .ok n) (he : SymbolPlus r s e k) :
    SymbolPlus r s (binary .add c e) (n + k)
  /-- `e - c` -/
  | subConst {e c : Expr} {k n : Int64} (he : SymbolPlus r s e k) (hc : c.eval r = .ok n) :
    SymbolPlus r s (binary .sub e c) (k - n)

namespace SymbolPlus

/-- All that keeps such an expression from a plain value is its symbol. -/
theorem eval (h : SymbolPlus r s e k) : e.eval r = .error (.unresolved s) := by
  induction h with
  | symbol h => simp only [Expr.eval, h]
  | addConst he hc ih => rw [Expr.eval, ih]
  | constAdd hc he ih => rw [Expr.eval, hc, ih]
  | subConst he hc ih => rw [Expr.eval, ih]

theorem evalSymbolic (h : SymbolPlus r s e k) :
    e.evalSymbolic r = .ok { symbol := s, addend := k } := by
  induction h with
  | symbol h =>
    unfold Expr.evalSymbolic
    rw [(SymbolPlus.symbol h).eval]
  | addConst he hc ih =>
    refine evalSymbolic_binary_of (addConst he hc).eval ih (evalSymbolic_of_eval hc) ?_
    simp [Value.combine?, Value.isConst]
  | constAdd hc he ih =>
    refine evalSymbolic_binary_of (constAdd hc he).eval (evalSymbolic_of_eval hc) ih ?_
    simp [Value.combine?, Value.isConst]
  | subConst he hc ih =>
    refine evalSymbolic_binary_of (subConst he hc).eval ih (evalSymbolic_of_eval hc) ?_
    simp [Value.combine?, Value.isConst]

end SymbolPlus

/-- Every symbolic value is a plain one or comes from the grammar.  An empty name
    would pass for a constant, so there must be none. -/
theorem symbolPlus_of_evalSymbolic (hnames : ∀ y ∈ e.names, y ≠ "")
    (h : e.evalSymbolic r = .ok v) :
    (v.symbol = "" ∧ e.eval r = .ok v.addend) ∨
      (v.symbol ≠ "" ∧ SymbolPlus r v.symbol e v.addend) := by
  induction e generalizing v with
  | binary op x y ihx ihy =>
    rcases evalSymbolic_cases h with
      ⟨n, hn, rfl⟩ | ⟨s, hs, -⟩ | ⟨_, _, _, vx, vy, heq, hplain, hx, hy, hv⟩
    · exact .inl ⟨rfl, hn⟩
    · cases hs
    cases heq
    -- The sides are accepted one by one, so each is a constant or in the grammar.
    have ihx := ihx (fun z hz => hnames z (List.mem_append_left _ hz)) hx
    have ihy := ihy (fun z hz => hnames z (List.mem_append_right _ hz)) hy
    -- Two constants are out: their sum or difference has a plain value.
    have hboth : ∀ {f : Int64 → Int64 → Int64}, (∀ a b, op.apply a b = .ok (f a b)) →
        x.eval r = .ok vx.addend → y.eval r = .ok vy.addend → False := by
      intro f hf hx hy
      refine hplain (f vx.addend vy.addend) ?_
      rw [eval, hx, hy]
      exact hf _ _
    rcases Value.combine?_cases hv with ⟨rfl, hconst, rfl⟩ | ⟨rfl, hconst, rfl⟩ | ⟨rfl, hconst, rfl⟩
    · obtain ⟨-, hx⟩ := ihx.resolve_right fun h => h.1 hconst
      rcases ihy with ⟨-, hy⟩ | ⟨hsym, hy⟩
      · exact (hboth (fun _ _ => rfl) hx hy).elim
      · exact .inr ⟨hsym, .constAdd hx hy⟩
    · obtain ⟨-, hy⟩ := ihy.resolve_right fun h => h.1 hconst
      rcases ihx with ⟨-, hx⟩ | ⟨hsym, hx⟩
      · exact (hboth (fun _ _ => rfl) hx hy).elim
      · exact .inr ⟨hsym, .addConst hx hy⟩
    · obtain ⟨-, hy⟩ := ihy.resolve_right fun h => h.1 hconst
      rcases ihx with ⟨-, hx⟩ | ⟨hsym, hx⟩
      · exact (hboth (fun _ _ => rfl) hx hy).elim
      · exact .inr ⟨hsym, .subConst hx hy⟩
  | name s =>
    rcases evalSymbolic_cases h with ⟨n, hn, rfl⟩ | ⟨_, heq, hs, rfl⟩ | ⟨_, _, _, _, _, heq, -⟩
    · exact .inl ⟨rfl, hn⟩
    · cases heq
      exact .inr ⟨hnames s List.mem_cons_self, .symbol hs⟩
    · cases heq
  | number n | unary op x ih | sizeof t | offsetof t path | missing =>
    rcases evalSymbolic_cases h with ⟨n, hn, rfl⟩ | ⟨_, heq, -⟩ | ⟨_, _, _, _, _, heq, -⟩
    · exact .inl ⟨rfl, hn⟩
    · cases heq
    · cases heq

end Expr

/-! ## More names -/

/-- The second resolver has the types of the first, and every value that the
    first one has. -/
structure Resolver.Extends (r r' : Resolver) : Prop where
  layout : r'.layout? = r.layout?
  value : ∀ s v, r.value? s = some v → r'.value? s = some v

namespace Resolver

variable {r r' : Resolver}

/-- Sizes are a matter of types only. -/
theorem sizeOf_congr (h : r'.layout? = r.layout?) (t : TypeRef) : r'.sizeOf t = r.sizeOf t := by
  unfold sizeOf elemSize
  rw [h]

theorem pathOffset_congr (h : r'.layout? = r.layout?) (t : TypeRef) (path : List String) :
    r'.pathOffset t path = r.pathOffset t path := by
  induction path generalizing t with
  | nil => rfl
  | cons field rest ih =>
    have hfield : r'.fieldOf t field = r.fieldOf t field := by
      unfold fieldOf
      rw [h]
    simp only [pathOffset, hfield, ih]

namespace Extends

/-- What has a value keeps it. -/
theorem eval (h : r.Extends r') {e : Expr} {n : Int64} (he : e.eval r = .ok n) :
    e.eval r' = .ok n := by
  induction e generalizing n with
  | number m => exact he
  | missing => cases he
  | name s =>
    unfold Expr.eval at he ⊢
    split at he
    · rename_i v hv
      rw [h.value s v hv]
      exact he
    · cases he
  | unary op x ih =>
    unfold Expr.eval at he ⊢
    split at he
    · cases he
    rename_i v hv
    rw [ih hv]
    exact he
  | binary op x y ihx ihy =>
    unfold Expr.eval at he ⊢
    split at he
    · cases he
    rename_i v hv
    split at he
    · cases he
    rename_i w hw
    rw [ihx hv, ihy hw]
    exact he
  | sizeof t =>
    unfold Expr.eval at he ⊢
    rw [sizeOf_congr h.layout]
    exact he
  | offsetof t path =>
    unfold Expr.eval at he ⊢
    rw [pathOffset_congr h.layout]
    exact he

/-- A symbol plus a constant is just that once the symbol has a value. -/
theorem eval_symbolPlus (h : r.Extends r') {s : String} {a : Int64} (hs : r'.value? s = some a)
    {e : Expr} {k : Int64} (he : e.SymbolPlus r s k) : e.eval r' = .ok (a + k) := by
  induction he with
  | symbol hnone => simp [Expr.eval, hs]
  | addConst he hc ih =>
    rw [Expr.eval, ih, h.eval hc]
    simp [BinaryOp.apply, Int64.add_assoc]
  | constAdd hc he ih =>
    rw [Expr.eval, h.eval hc, ih]
    simp only [BinaryOp.apply]
    rw [← Int64.add_assoc, ← Int64.add_assoc, Int64.add_comm _ a]
  | subConst he hc ih =>
    rw [Expr.eval, ih, h.eval hc]
    simp [BinaryOp.apply, Int64.sub_eq_add_neg, Int64.add_assoc]

end Extends

end Resolver

/-! ## The result -/

/-- An expression without empty names has the constant `n` for its symbolic value
    exactly if that is its plain value, and `s + k` exactly if it is built by the
    grammar.  Under every resolver that knows more, and knows `s`, the expression
    has the value that was promised. -/
theorem Expr.evalSymbolic_grammar (r : Resolver) (e : Expr) (hnames : ∀ y ∈ e.names, y ≠ "") :
    (∀ n, e.evalSymbolic r = .ok { addend := n } ↔ e.eval r = .ok n) ∧
    (∀ s k, s ≠ "" →
      (e.evalSymbolic r = .ok { symbol := s, addend := k } ↔ e.SymbolPlus r s k)) ∧
    ∀ r', r.Extends r' →
      (∀ n, e.evalSymbolic r = .ok { addend := n } → e.eval r' = .ok n) ∧
      ∀ s k a, s ≠ "" → e.evalSymbolic r = .ok { symbol := s, addend := k } →
        r'.value? s = some a → e.eval r' = .ok (a + k) := by
  have hconst : ∀ n, e.evalSymbolic r = .ok { addend := n } ↔ e.eval r = .ok n := by
    intro n
    refine ⟨fun h => ?_, evalSymbolic_of_eval⟩
    rcases symbolPlus_of_evalSymbolic hnames h with ⟨-, hn⟩ | ⟨hsym, -⟩
    · exact hn
    · exact absurd rfl hsym
  have hsymbol : ∀ s k, s ≠ "" →
      (e.evalSymbolic r = .ok { symbol := s, addend := k } ↔ e.SymbolPlus r s k) := by
    intro s k hs
    refine ⟨fun h => ?_, SymbolPlus.evalSymbolic⟩
    rcases symbolPlus_of_evalSymbolic hnames h with ⟨hsym, -⟩ | ⟨-, hplus⟩
    · exact absurd hsym hs
    · exact hplus
  refine ⟨hconst, hsymbol, fun r' hr => ⟨fun n hn => ?_, fun s k a hs hk ha => ?_⟩⟩
  · exact hr.eval ((hconst n).mp hn)
  · exact hr.eval_symbolPlus ha ((hsymbol s k hs).mp hk)

/-- Knows the constant `rows`. -/
def rowsKnown : Resolver where
  value? s := if s = "rows" then some 3 else none
  layout? _ := none

/-- Knows `rows`, and `table` at 0x8000. -/
def tableKnown : Resolver where
  value? s := if s = "table" then some 0x8000 else rowsKnown.value? s
  layout? _ := none

/-- `rows*2+(table-sizeof(word)+rows)` -/
def rowAddress : Expr :=
  .binary .add (.binary .mul (.name "rows") (.number 2))
    (.binary .add (.binary .sub (.name "table") (.sizeof { name := "word" })) (.name "rows"))

/-- The constants around `table` add up to 7, and with `table` at 0x8000 the
    expression is 0x8007. -/
theorem Expr.rowAddress_symbolic :
    (∀ y ∈ rowAddress.names, y ≠ "") ∧
      rowAddress.evalSymbolic rowsKnown = .ok { symbol := "table", addend := 7 } ∧
      rowAddress.eval tableKnown = .ok (0x8000 + 7) := by
  have hnames : ∀ y ∈ rowAddress.names, y ≠ "" := by decide
  have hmain := evalSymbolic_grammar rowsKnown rowAddress hnames
  have hvalue : rowAddress.evalSymbolic rowsKnown = .ok { symbol := "table", addend := 7 } := by
    rfl
  have hextends : rowsKnown.Extends tableKnown := by
    refine ⟨rfl, fun s v hv => ?_⟩
    by_cases hs : s = "rows"
    · subst hs
      exact hv
    · simp [rowsKnown, hs] at hv
  exact ⟨hnames, hvalue, (hmain.2.2 _ hextends).2 "table" 7 0x8000 (by decide) hvalue rfl⟩

end Z80Backend
