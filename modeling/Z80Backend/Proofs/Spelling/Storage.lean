import Z80Backend.Function.Lower
import Z80Backend.Proofs.Spelling.Assembly
import Z80Backend.Proofs.Stack.Effect

/-! # Typed storage of a spelling

    Where no storage is named like a register, a place and its caseless form
    start from the same storage and have the same address, and so have the same
    code to load them, to store them and to pass them to a function.  The
    errors differ, since they show the place as it was written. -/

namespace Z80Backend

/-- Two computations that agree up to errors. -/
theorem cases_of_toOption_eq {ε α : Type} {x y : Except ε α} (h : x.toOption = y.toOption) :
    (∃ a, x = .ok a ∧ y = .ok a) ∨ ∃ e e', x = .error e ∧ y = .error e' := by
  match x, y, h with
  | .ok a, .ok b, h =>
    obtain rfl : a = b := Option.some.inj h
    exact .inl ⟨a, rfl, rfl⟩
  | .error e, .error e', _ => exact .inr ⟨e, e', rfl, rfl⟩

/-- Two computations that agree up to a view of errors. -/
theorem cases_of_mapError_eq {ε κ α : Type} {f : ε → κ} {x y : Except ε α}
    (h : x.mapError f = y.mapError f) :
    (∃ a, x = .ok a ∧ y = .ok a) ∨ ∃ e e', x = .error e ∧ y = .error e' ∧ f e = f e' := by
  match x, y, h with
  | .ok a, .ok b, h =>
    obtain rfl : a = b := Except.ok.inj h
    exact .inl ⟨a, rfl, rfl⟩
  | .error e, .error e', h => exact .inr ⟨e, e', rfl, rfl, Except.error.inj h⟩

/-- What a problem tells apart from its wording.  Those of the stack do not
    depend on spelling. -/
def Problem.kind (p : Problem) : String × Option StackError :=
  (p.category, match p with | .stack e => some e | _ => none)

/-! ## Instructions -/

@[simp] theorem Operand.isReg_caseless (name : String) (o : Operand) :
    o.caseless.isReg name = o.isReg name := by
  cases o with
  | reg s span => exact Text.matchesWord_asciiLower s name
  | _ => rfl

@[simp] theorem Instruction.span_caseless (i : Instruction) : i.caseless.span = i.span := rfl

@[simp] theorem Instruction.lower_head_caseless (i : Instruction) :
    Text.lower i.caseless.head = Text.lower i.head :=
  Text.lower_asciiLower i.head

@[simp] theorem Instruction.operands_caseless (i : Instruction) :
    i.caseless.operands = i.operands.map (·.caseless) := rfl

/-- The stack effect is read without regard to case. -/
theorem StackEffect.of_caseless (i : Instruction) : of i.caseless = of i :=
  of_map i.lower_head_caseless rfl (Operand.isReg_caseless "sp")

/-! ## Places -/

/-- No storage is named like a register. -/
def Scope.SparesRegisters (scope : Scope) : Prop :=
  ∀ w, isRegisterName w = true → scope w = none

section

variable {scope : Scope} {r : Resolver} (hscope : scope.SparesRegisters)

include hscope

theorem Scope.apply_addressWord (s : String) : scope (addressWord s) = scope s := by
  cases hs : isRegisterName s with
  | true => rw [hscope s hs, hscope _ (by simpa using hs)]
  | false => rw [addressWord_of_false hs]

theorem Place.isStorage_caseless (p : Place) : p.caseless.isStorage scope = p.isStorage scope := by
  induction p with
  | name s =>
    simp only [caseless, isStorage]
    rw [Scope.apply_addressWord hscope]
  | field b f ih | elem b i ih | add b off ih | sub b off ih => exact ih
  | elemAt b p ih _ => exact ih
  | literal e => rfl
  | missing => rfl

end

theorem Index.ofSubscript_caseless (r : Resolver) (i : Subscript) :
    (ofSubscript r i.caseless).toOption = (ofSubscript r i).toOption := by
  cases i with
  | reg8 reg => simp only [Subscript.caseless, ofSubscript, Text.lower_asciiLower]
  | reg16 reg => simp only [Subscript.caseless, ofSubscript, Text.lower_asciiLower]
  | memIndexed reg d =>
    simp only [Subscript.caseless, ofSubscript, Text.lower_asciiLower]
    split
    · split <;> rfl
    · rfl
  | _ => rfl

namespace Path

variable {scope : Scope} {r : Resolver}

/-- The element type does not depend on how the array is written. -/
theorem element_toOption (b b' : Place) (p : Path) :
    (element r b p).toOption = (element r b' p).toOption := by
  unfold element
  split
  · rfl
  · split <;> rfl

theorem atConst_toOption (whole whole' : Place) (p : Path) (elem : TypeRef) (size : Int64)
    (e : Expr) :
    (atConst r whole p elem size e).toOption = (atConst r whole' p elem size e).toOption := by
  unfold atConst
  split
  · rfl
  · split <;> rfl

theorem ofStored_toOption (inner inner' : Place) (x : Resolved) :
    (Index.ofStored r inner x).toOption = (Index.ofStored r inner' x).toOption := by
  unfold Index.ofStored
  dsimp only
  split <;> rfl

/-- A path is followed to the same end in any spelling. -/
theorem follow_caseless (hscope : scope.SparesRegisters) (p : Place) :
    (follow scope r p.caseless).toOption = (follow scope r p).toOption := by
  induction p with
  | name s =>
    simp only [Place.caseless, follow, Scope.apply_addressWord hscope]
    split <;> rfl
  | literal e => rfl
  | missing => rfl
  | field b f ih =>
    simp only [Place.caseless, follow]
    rcases cases_of_toOption_eq ih with ⟨p, h, h'⟩ | ⟨e, e', h, h'⟩ <;> rw [h, h']
    · dsimp only
      split <;> rfl
    · rfl
  | elem b i ih =>
    simp only [Place.caseless, follow]
    rcases cases_of_toOption_eq ih with ⟨p, h, h'⟩ | ⟨e, e', h, h'⟩ <;> rw [h, h']
    · dsimp only
      rcases cases_of_toOption_eq (element_toOption (r := r) b.caseless b p) with
        ⟨⟨elem, size⟩, h, h'⟩ | ⟨e, e', h, h'⟩ <;> rw [h, h']
      · dsimp only
        have hindex := cases_of_toOption_eq (Index.ofSubscript_caseless r i)
        cases i with
        | const e => exact atConst_toOption _ _ p elem size e
        | memHL | missing =>
          simp only [Subscript.caseless]
          split <;> rfl
        | _ =>
          simp only [Subscript.caseless] at hindex ⊢
          split
          · rfl
          · rcases hindex with ⟨ix, h, h'⟩ | ⟨e, e', h, h'⟩ <;> rw [h, h']
            rfl
      · rfl
    · rfl
  | elemAt b inner ihb ih =>
    simp only [Place.caseless, follow]
    rcases cases_of_toOption_eq ihb with ⟨p, h, h'⟩ | ⟨e, e', h, h'⟩ <;> rw [h, h']
    · dsimp only
      rcases cases_of_toOption_eq (element_toOption (r := r) b.caseless b p) with
        ⟨⟨elem, size⟩, h, h'⟩ | ⟨e, e', h, h'⟩ <;> rw [h, h']
      · dsimp only
        split
        · rfl
        · rcases cases_of_toOption_eq ih with ⟨q, h, h'⟩ | ⟨e, e', h, h'⟩ <;> rw [h, h']
          · dsimp only
            cases q.finish with
            | error e => rfl
            | ok x =>
              dsimp only
              rcases cases_of_toOption_eq (ofStored_toOption (r := r) inner.caseless inner x) with
                ⟨q, h, h'⟩ | ⟨e, e', h, h'⟩ <;> rw [h, h']
              rfl
          · rfl
      · rfl
    · rfl
  | add b off ih | sub b off ih =>
    simp only [Place.caseless, follow]
    rcases cases_of_toOption_eq ih with ⟨p, h, h'⟩ | ⟨e, e', h, h'⟩ <;> rw [h, h']
    · dsimp only
      split <;> rfl
    · rfl

end Path

namespace Place

variable {scope : Scope} {r : Resolver} (hscope : scope.SparesRegisters)

include hscope

/-- A place has the same address in any spelling. -/
theorem resolve_caseless (p : Place) :
    (p.caseless.resolve scope r).toOption = (p.resolve scope r).toOption := by
  unfold resolve
  rcases cases_of_toOption_eq (Path.follow_caseless (r := r) hscope p) with
    ⟨path, h, h'⟩ | ⟨e, e', h, h'⟩ <;> rw [h, h']
  rfl

theorem width?_caseless (p : Place) : scope.width? r p.caseless = scope.width? r p := by
  unfold Scope.width?
  rw [p.isStorage_caseless hscope]
  split
  · rcases cases_of_toOption_eq (resolve_caseless (r := r) hscope p) with
      ⟨x, h, h'⟩ | ⟨e, e', h, h'⟩ <;> rw [h, h']
  · rfl

end Place

/-! ## Code for storage -/

theorem Operand.typedPlace?_caseless {scope : Scope} (hscope : scope.SparesRegisters)
    (o : Operand) : o.caseless.typedPlace? scope = (o.typedPlace? scope).map Place.caseless := by
  cases o with
  | mem p span =>
    simp only [caseless, typedPlace?, p.isStorage_caseless hscope]
    split <;> rfl
  | _ => rfl

namespace FnContext

variable {ctx : FnContext} (hscope : ctx.scope.SparesRegisters)

include hscope

theorem typedSides_caseless (i i' : Instruction) (p : Place) (o : Operand) :
    (ctx.typedSides i' p.caseless o.caseless).toOption = (ctx.typedSides i p o).toOption := by
  cases o with
  | reg name span =>
    simp only [Operand.caseless, typedSides, Text.lower_asciiLower]
    rcases cases_of_toOption_eq (p.resolve_caseless (r := ctx.resolver) hscope) with
      ⟨x, h, h'⟩ | ⟨e, e', h, h'⟩ <;> rw [h, h']
    · dsimp only
      split
      · rfl
      split
      · rfl
      split <;> rfl
    · rfl
  | _ => rfl

/-- An access to typed storage has the same steps in any spelling. -/
theorem typedSteps_caseless (i : Instruction) :
    (ctx.typedSteps i.caseless).toOption = (ctx.typedSteps i).toOption := by
  unfold typedSteps
  rw [Instruction.lower_head_caseless]
  split
  · rfl
  obtain ⟨head, os, span⟩ := i
  match os with
  | [] => rfl
  | [_] => rfl
  | [dst, src] =>
    simp only [Instruction.caseless, List.map_cons, List.map_nil,
      Operand.typedPlace?_caseless hscope]
    generalize Instruction.mk (Text.asciiLower head) _ span = i'
    generalize Instruction.mk head _ span = i
    cases dst.typedPlace? ctx.scope with
    | some p =>
      dsimp only [Option.map_some]
      rcases cases_of_toOption_eq (typedSides_caseless hscope i i' p src) with
        ⟨x, h, h'⟩ | ⟨e, e', h, h'⟩ <;> rw [h, h']
      rfl
    | none =>
      dsimp only [Option.map_none]
      cases src.typedPlace? ctx.scope with
      | some p =>
        dsimp only [Option.map_some]
        rcases cases_of_toOption_eq (typedSides_caseless hscope i i' p dst) with
          ⟨x, h, h'⟩ | ⟨e, e', h, h'⟩ <;> rw [h, h']
        rfl
      | none => rfl
  | _ :: _ :: _ :: _ => rfl

theorem pushStorage_caseless (p : Place) :
    (ctx.pushStorage p.caseless).mapError Problem.kind =
      (ctx.pushStorage p).mapError Problem.kind := by
  unfold pushStorage
  rcases cases_of_toOption_eq (p.resolve_caseless (r := ctx.resolver) hscope) with
    ⟨x, h, h'⟩ | ⟨e, e', h, h'⟩ <;> rw [h, h']
  · dsimp only
    split
    · rfl
    split <;> rfl
  · rfl

/-- An argument is pushed by the same code in any spelling. -/
theorem pushArg_caseless (callee : String) (n : Nat) (arg : Operand) :
    (ctx.pushArg callee n arg.caseless).mapError Problem.kind =
      (ctx.pushArg callee n arg).mapError Problem.kind := by
  cases arg with
  | reg name span =>
    simp only [Operand.caseless, pushArg, Text.lower_asciiLower]
    split
    · rfl
    split <;> rfl
  | mem p span | place p span =>
    simp only [Operand.caseless, pushArg, p.isStorage_caseless hscope]
    split
    · exact pushStorage_caseless hscope p
    · rfl
  | _ => rfl

end FnContext

end Z80Backend
