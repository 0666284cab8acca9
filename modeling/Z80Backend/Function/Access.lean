import Z80Backend.Address.Access
import Z80Backend.Function.State

/-! # Typed operands

    `ld` between a register and typed storage becomes a load or store of the
    storage.  No other instruction takes typed storage. -/

namespace Z80Backend

/-- The typed storage that an operand names: any bare place does, and memory
    in parentheses when it starts from a storage name. -/
def Operand.typedPlace? (scope : Scope) : Operand → Option Place
  | .place p _ => some p
  | .mem p _ => if p.isStorage scope then some p else none
  | _ => none

/-- The width of a register in typed access, or zero for one that has none. -/
def regWidth (reg : String) : Int64 :=
  if (Reg8.ofName? reg).isSome then 1 else if (WordReg.ofName? reg).isSome then 2 else 0

namespace FnContext

/-- The address of typed storage and the register that matches its width. -/
def typedSides (ctx : FnContext) (i : Instruction) (p : Place) (other : Operand) :
    Except AddressError (Resolved × String) :=
  match other with
  | .reg name _ =>
    let reg := Text.lower name
    match p.resolve ctx.scope ctx.resolver with
    | .error e => .error e
    | .ok x =>
      let want := x.width ctx.resolver
      if want = 0 then .error (.aggregate p x.type)
      else if regWidth reg = 0 then .error (.regAccess reg)
      else if regWidth reg ≠ want then .error (.width p want reg (regWidth reg))
      else .ok (x, reg)
  | _ => .error (.noRegister i)

/-- The steps of an instruction with typed storage. -/
def typedSteps (ctx : FnContext) (i : Instruction) : Except AddressError (List Step) :=
  if Text.lower i.head ≠ "ld" then .error (.notLoad i)
  else
    match i.operands with
    | [dst, src] =>
      match dst.typedPlace? ctx.scope with
      | some p =>
        match ctx.typedSides i p src with
        | .error e => .error e
        | .ok (x, reg) => Address.store x.address reg
      | none =>
        match src.typedPlace? ctx.scope with
        | some p =>
          match ctx.typedSides i p dst with
          | .error e => .error e
          | .ok (x, reg) => Address.load reg x.address
        | none => .error (.notLoad i)
    | _ => .error (.notLoad i)

/-- Lowers an instruction with typed storage. -/
def lowerTyped (ctx : FnContext) (i : Instruction) (s : FnState) : FnState :=
  match ctx.typedSteps i with
  | .error e => s.report (.address e) i.span
  | .ok steps =>
    (s.note (.typedAccess ctx.name i steps.length)).emitAll ctx.resolver i.span
      (steps.map (·.instruction))

end FnContext

end Z80Backend
