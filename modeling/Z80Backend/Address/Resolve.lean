import Z80Backend.Address.Build
import Z80Backend.Text.LetterCase

/-! # Typed places

    `Place.resolve` follows a typed effective address from the storage it
    names to the element or field it selects, folds the constant parts, and
    builds the address.  At most one index may be known only at run time. -/

namespace Z80Backend

/-! ## Storage -/

/-- Where a piece of named storage lives. -/
inductive Home where
  /-- At a symbol. -/
  | global (sym : String)
  /-- In the frame, at a displacement from `ix`. -/
  | frame (disp : Int64)
  /-- At the address held in a frame slot. -/
  | ref (disp : Int64)
  deriving DecidableEq, Repr, Inhabited

/-- A piece of named storage. -/
structure Storage where
  home : Home
  type : TypeRef
  deriving DecidableEq, Repr, Inhabited

/-- The storage that each name stands for. -/
abbrev Scope := String → Option Storage

/-- Does the place start from a storage name? -/
def Place.isStorage (scope : Scope) : Place → Bool
  | name s => (scope s).isSome
  | literal _ => false
  | field b _ => b.isStorage scope
  | elem b _ => b.isStorage scope
  | elemAt b _ => b.isStorage scope
  | add b _ => b.isStorage scope
  | sub b _ => b.isStorage scope
  | missing => false

/-! ## Following a path -/

/-- What is known after following part of a path: the base with the constant
    offsets met so far, the index and its scale once one was met, and the
    constant offsets met after it. -/
structure Path where
  base : Base
  type : TypeRef
  index : Option Index := none
  scale : Int64 := 0
  post : Int64 := 0
  deriving DecidableEq, Repr, Inhabited

/-- A typed address. -/
structure Resolved where
  address : Address
  type : TypeRef
  deriving DecidableEq, Repr, Inhabited

namespace Path

/-- The start of a path. -/
def ofStorage (s : Storage) : Path :=
  match s.home with
  | .global sym => { base := { origin := .global sym }, type := s.type }
  | .frame d => { base := { origin := .frame d }, type := s.type }
  | .ref d => { base := { origin := .pointer d }, type := { s.type with isRef := false } }

/-- Goes on by a constant number of bytes. -/
def advance (p : Path) (k : Int64) : Path :=
  match p.index with
  | none   => { p with base := { p.base with offset := p.base.offset + k } }
  | some _ => { p with post := p.post + k }

/-- Appends steps to an address that is computed in `hl`. -/
def thenAdd (a : Address) (off : Int64) : Address :=
  match a with
  | .computed steps => .computed (steps ++ Address.addOffset off)
  | a => a

/-- The address at the end of the path. -/
def finish (p : Path) : Except AddressError Resolved :=
  match Address.build p.base (p.index.getD .none) (if p.scale = 0 then 1 else p.scale) with
  | .error e => .error e
  | .ok a    => .ok { address := thenAdd a p.post, type := p.type }

end Path

/-- The width of a scalar access, or zero for an aggregate. -/
def Resolved.width (x : Resolved) (r : Resolver) : Int64 :=
  if x.type.isArray then 0
  else
    match r.sizeOf x.type with
    | .ok n    => if 2 < n then 0 else n
    | .error _ => 0

/-- The index whose value is the scalar stored at a typed address. -/
def Index.ofStored (r : Resolver) (inner : Place) (x : Resolved) : Except AddressError Index :=
  let width := x.width r
  if width = 0 then .error (.indexNotScalar inner)
  else
    let isByte := width == 1
    match x.address with
    | .absolute s off =>
      if s = "" then .ok (.stored x.address isByte) else .ok (.global s off isByte)
    | .frame d =>
      if isByte || fitsDisp (d + 1) then .ok (.slot d isByte) else .ok (.stored x.address isByte)
    | .computed _ => .ok (.stored x.address isByte)

/-- The index of a simple runtime subscript. -/
def Index.ofSubscript (r : Resolver) : Subscript → Except AddressError Index
  | .reg8 reg => .ok (.reg8 (Text.lower reg))
  | .reg16 reg => .ok (.reg16 (Text.lower reg))
  | .memHL => .ok .memHL
  | .memIndexed reg d =>
    match d.eval r with
    | .ok v    => if fitsDisp v then .ok (.memIndexed (Text.lower reg) v)
                  else .error (.indexDisplacement reg)
    | .error _ => .error (.indexDisplacement reg)
  | .const _ => .error .unsupportedIndex
  | .missing => .error .unsupportedIndex

namespace Path

/-- The element type and size of the array that the path has reached. -/
def element (r : Resolver) (b : Place) (p : Path) : Except AddressError (TypeRef × Int64) :=
  if !p.type.isArray then .error (.notArray b p.type)
  else
    match r.sizeOf p.type.elem with
    | .error e => .error (.noElementSize b e)
    | .ok n    => .ok (p.type.elem, n)

/-- Goes on to an element with a constant subscript. -/
def atConst (r : Resolver) (whole : Place) (p : Path) (elem : TypeRef) (size : Int64) (e : Expr) :
    Except AddressError Path :=
  match e.eval r with
  | .error err => .error (.indexNotConst whole err)
  | .ok n =>
    if n < 0 ∨ p.type.len ≤ n then .error (.indexRange n p.type)
    else .ok { p.advance (n * size) with type := elem }

/-- Goes on to an element with a runtime index. -/
def atIndex (p : Path) (elem : TypeRef) (size : Int64) (i : Index) : Path :=
  { p with index := some i, scale := size, type := elem }

/-- Follows a place from the storage it starts at. -/
def follow (scope : Scope) (r : Resolver) : Place → Except AddressError Path
  | .name s =>
    match scope s with
    | some st => .ok (ofStorage st)
    | none    => .error (.unknownStorage s)
  | .field b f =>
    match follow scope r b with
    | .error e => .error e
    | .ok p =>
      match r.fieldOf p.type f with
      | .error e => .error (.noField (.field b f) e)
      | .ok fld  => .ok { p.advance fld.offset with type := fld.type }
  | .elem b i =>
    match follow scope r b with
    | .error e => .error e
    | .ok p =>
      match element r b p with
      | .error e => .error e
      | .ok (elem, size) =>
        match i with
        | .const e => atConst r (.elem b i) p elem size e
        | _ =>
          if p.index.isSome then .error (.secondIndex (.elem b i))
          else
            match Index.ofSubscript r i with
            | .error e => .error e
            | .ok ix   => .ok (p.atIndex elem size ix)
  | .elemAt b inner =>
    match follow scope r b with
    | .error e => .error e
    | .ok p =>
      match element r b p with
      | .error e => .error e
      | .ok (elem, size) =>
        if p.index.isSome then .error (.secondIndex (.elemAt b inner))
        else
          match follow scope r inner with
          | .error e => .error e
          | .ok q =>
            match q.finish with
            | .error e => .error e
            | .ok x =>
              match Index.ofStored r inner x with
              | .error e => .error e
              | .ok ix   => .ok (p.atIndex elem size ix)
  | .add b off =>
    match follow scope r b with
    | .error e => .error e
    | .ok p =>
      match off.eval r with
      | .error e => .error (.offsetNotConst (.add b off) e)
      | .ok v    => .ok (p.advance v)
  | .sub b off =>
    match follow scope r b with
    | .error e => .error e
    | .ok p =>
      match off.eval r with
      | .error e => .error (.offsetNotConst (.sub b off) e)
      | .ok v    => .ok (p.advance (-v))
  | .literal e => .error (.notStorage (.literal e))
  | .missing => .error (.notStorage .missing)

end Path

/-- The typed address that a place names. -/
def Place.resolve (scope : Scope) (r : Resolver) (p : Place) : Except AddressError Resolved :=
  match Path.follow scope r p with
  | .error e => .error e
  | .ok path => path.finish

end Z80Backend
