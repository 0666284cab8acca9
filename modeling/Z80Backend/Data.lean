import Z80Backend.Chunk
import Z80Backend.Diagnostic
import Z80Backend.Fault
import Z80Backend.Value

/-! # Storage items

    An initialised item becomes a chunk of bytes, and an uninitialised one
    reserves addresses.  The elements of `byte` storage take a byte each;
    everything else is made of little-endian words, which may refer to
    symbols.  Elements without an initialiser are zero. -/

namespace Z80Backend

/-- The low byte and the high byte of a word. -/
def wordBytes (n : Int64) : List UInt8 :=
  [UInt8.ofInt n.toInt, UInt8.ofInt (n >>> 8).toInt]

/-- What one initialiser becomes: bytes, a slot to be filled, and what is wrong
    with it. -/
structure Initialised where
  bytes : List UInt8
  fixup : Option Fixup := none
  error : Option LayoutError := none

namespace DataDecl

/-- Are the elements bytes? -/
def isBytes (d : DataDecl) : Bool := Text.matchesWord d.type.name "byte"

/-- The number of elements in storage of a size. -/
def room (d : DataDecl) (size : Int64) : Int64 := if d.isBytes then size else size / 2

/-- The byte of an initialiser; zero when it is in error. -/
def initByte (d : DataDecl) (r : Resolver) (e : Expr) : Initialised :=
  let wrong : Initialised := { bytes := [0], error := some (.byteValue e d.name) }
  match e.eval r with
  | .error _ => wrong
  | .ok n => if n < -128 || 255 < n then wrong else { bytes := [UInt8.ofInt n.toInt] }

/-- The word of an initialiser at a position; zero when it is in error or names
    a symbol. -/
def initWord (d : DataDecl) (r : Resolver) (pos : Nat) (e : Expr) : Initialised :=
  match e.evalSymbolic r with
  | .error cause => { bytes := [0, 0], error := some (.wordValue e d.name cause) }
  | .ok v =>
    if v.isConst then
      { bytes := wordBytes v.addend
        error :=
          if v.addend < -32768 || 65535 < v.addend then some (.wordRange e d.name) else none }
    else
      { bytes := [0, 0]
        fixup := some
          { kind := .abs16, offset := Int64.ofNat pos, symbol := v.symbol, addend := v.addend,
            opcode := [] } }

/-- What initialisers become, from a position on. -/
def initAll (d : DataDecl) (r : Resolver) (pos : Nat) : List Expr → List Initialised
  | [] => []
  | e :: es =>
    let x := if d.isBytes then d.initByte r e else d.initWord r pos e
    x :: d.initAll r (pos + x.bytes.length) es

/-- The listing text of the initialisers that are used. -/
def listingText (d : DataDecl) (size : Int64) (used : List Expr) : String :=
  if used.isEmpty then "ds " ++ Text.decimal size
  else (if d.isBytes then "db " else "dw ") ++ ",".intercalate (used.map (·.text))

/-- The largest size of an initialised item whose bytes can be held.  This is a
    limit of the model. -/
def maxSize : Int64 := 0x100000000

/-- Lowers an initialised item.  Gives what is wrong with it in order, and a
    chunk unless its type has no size. -/
def lower (d : DataDecl) (r : Resolver) :
    Except Fault (Option (Int64 × Chunk) × List LayoutError) :=
  match r.sizeOf d.type with
  | .error cause => .ok (none, [.dataSize d.name cause])
  | .ok size =>
    if size < 0 || maxSize < size then .error (.dataSize d.name size)
    else
      let room := (d.room size).toInt.toNat
      let used := d.values.take room
      let items := d.initAll r 0 used
      let bytes := items.flatMap (·.bytes)
      let tooMany :=
        if room < d.values.length then [.dataCount d.name d.values.length (d.room size)] else []
      let fill := List.replicate (size.toInt.toNat - bytes.length) 0
      let fixups := items.filterMap (·.fixup)
      let chunk : Chunk :=
        { name := d.name
          kind := .data
          home := .data
          lines := .data (bytes ++ fill) (d.listingText size used) ::
            fixups.map fun f => .fixup { f with span := d.span }
          span := d.span }
      .ok (some (size, chunk), tooMany ++ items.filterMap (·.error))

end DataDecl

/-- Lowers an uninitialised item. -/
def VarDecl.lower (d : VarDecl) (r : Resolver) : Except LayoutError Chunk :=
  match r.sizeOf d.type with
  | .error cause => .error (.varSize d.name cause)
  | .ok size =>
    .ok
      { name := d.name
        kind := .var
        home := .var
        lines := [.reserve size ("ds " ++ Text.decimal size)]
        span := d.span }

end Z80Backend
