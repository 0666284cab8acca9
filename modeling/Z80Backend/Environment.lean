import Z80Backend.Syntax.Expr
import Z80Backend.Text.Quoted

/-! # The compile environment

    The environment gives values to constants and enum members and layouts to
    record and union types.  Everything that only reads it takes a `Resolver`,
    the pair of its two look-up functions. -/

namespace Z80Backend

/-! ## Layouts of types -/

/-- A member of a record or union, at a byte offset. -/
structure Field where
  name : String
  offset : Int64
  type : TypeRef
  deriving DecidableEq, Repr, Inhabited

/-- A record or union whose size and field offsets are settled. -/
structure TypeLayout where
  name : String
  isUnion : Bool := false
  size : Int64
  fields : List Field := []
  deriving DecidableEq, Repr, Inhabited

/-- The first member with the given name. -/
def TypeLayout.field? (l : TypeLayout) (name : String) : Option Field :=
  l.fields.find? (·.name == name)

/-! ## Look-up -/

/-- What the environment says of names: the value of a constant or enum
    member, and the layout of a type. -/
structure Resolver where
  value? : String → Option Int64
  layout? : String → Option TypeLayout

/-- The resolver that knows no name. -/
def Resolver.empty : Resolver where
  value? := fun _ => none
  layout? := fun _ => none

/-! ## Sizes and fields -/

/-- Why a type has no size, or no such field. -/
inductive TypeError where
  | unknownType (name : String)
  | fieldOfArray (field : String) (type : TypeRef)
  | noFields (type : TypeRef)
  | noField (type field : String)
  deriving DecidableEq, Repr

/-- The wording of a type error. -/
def TypeError.message : TypeError → String
  | unknownType n => "unknown type " ++ Text.quote n
  | fieldOfArray f t => "cannot select field " ++ Text.quote f ++ " of array type " ++ t.text
  | noFields t => "type " ++ t.text ++ " has no fields"
  | noField t f => "type " ++ t ++ " has no field " ++ Text.quote f

namespace Resolver

/-- The size of a scalar, or of a named record or union. -/
def elemSize (r : Resolver) (name : String) : Except TypeError Int64 :=
  if name = "byte" then .ok 1
  else if name = "word" ∨ name = "addr" ∨ name = "ptr" then .ok 2
  else
    match r.layout? name with
    | some l => .ok l.size
    | none   => .error (.unknownType name)

/-- The byte size of a type: two for a reference, the element size times the
    length for an array. -/
def sizeOf (r : Resolver) (t : TypeRef) : Except TypeError Int64 :=
  if t.isRef then .ok 2
  else
    match r.elemSize t.name with
    | .ok n    => .ok (if t.isArray then n * t.len else n)
    | .error e => .error e

/-- The named field of the record or union that `t` describes. -/
def fieldOf (r : Resolver) (t : TypeRef) (name : String) : Except TypeError Field :=
  if t.isArray then .error (.fieldOfArray name t)
  else
    match r.layout? t.name with
    | none => .error (.noFields t)
    | some l =>
      match l.field? name with
      | some f => .ok f
      | none   => .error (.noField t.name name)

end Resolver

/-! ## Environments -/

/-- Constants, qualified enum members and types.  A name occurs at most once
    in each list: a later definition replaces an earlier one. -/
structure Environment where
  consts : List (String × Int64) := []
  enums : List (String × Int64) := []
  types : List TypeLayout := []
  deriving DecidableEq, Repr, Inhabited

namespace Environment

/-- Binds `name` to `v`, in place if it is already bound. -/
def bind (bindings : List (String × Int64)) (name : String) (v : Int64) : List (String × Int64) :=
  if bindings.any (·.1 == name) then bindings.map fun b => if b.1 = name then (name, v) else b
  else bindings ++ [(name, v)]

/-- Defines a constant. -/
def defineConst (env : Environment) (name : String) (v : Int64) : Environment :=
  { env with consts := bind env.consts name v }

/-- Defines a qualified enum member. -/
def defineEnum (env : Environment) (name : String) (v : Int64) : Environment :=
  { env with enums := bind env.enums name v }

/-- Defines a record or union. -/
def defineType (env : Environment) (l : TypeLayout) : Environment :=
  { env with types := env.types.filter (·.name != l.name) ++ [l] }

/-- The value of a constant. -/
def const? (env : Environment) (name : String) : Option Int64 := env.consts.lookup name

/-- The value of a qualified enum member. -/
def enum? (env : Environment) (name : String) : Option Int64 := env.enums.lookup name

/-- The layout of a type. -/
def layout? (env : Environment) (name : String) : Option TypeLayout :=
  env.types.find? (·.name == name)

/-- Every constant and enum member, sorted by name; a constant precedes an
    enum member of the same name. -/
def constants (env : Environment) : List (String × Int64) :=
  (env.consts ++ env.enums).mergeSort fun a b => decide (a.1 ≤ b.1)

/-- The look-up functions.  A constant hides an enum member of its name. -/
def resolver (env : Environment) : Resolver where
  value? := fun name => env.const? name <|> env.enum? name
  layout? := env.layout?

end Environment

end Z80Backend
