import Z80Backend.Encoding
import Z80Backend.Syntax.Module

/-! # Chunks

    A chunk is what one function or storage item becomes: a list of lines,
    each an instruction, a stretch of data, a label, or a note about them.
    Bytes, labels, fixups and the listing are views of the lines, and every
    position is the number of bytes in the lines before it. -/

namespace Z80Backend

/-- What a symbol names. -/
inductive SymbolKind where
  | function
  | label
  | data
  | var
  | constant
  /-- A function at a fixed address. -/
  | external
  | other (name : String)
  deriving DecidableEq, Repr, Inhabited

/-- The name of a kind. -/
def SymbolKind.text : SymbolKind → String
  | function => "function"
  | label => "label"
  | data => "data"
  | var => "var"
  | constant => "constant"
  | external => "extern"
  | other s => s

/-- The kind with the given name. -/
def SymbolKind.ofText : String → SymbolKind
  | "function" => .function
  | "label" => .label
  | "data" => .data
  | "var" => .var
  | "constant" => .constant
  | "extern" => .external
  | s => .other s

/-! ## Lines -/

/-- A fixup with the position that its faults are reported at. -/
structure LocatedFixup extends Fixup where
  span : Span := {}
  deriving DecidableEq, Repr, Inhabited

/-- One line of a chunk. -/
inductive Line where
  /-- An instruction, as written and as encoded. -/
  | instr (i : Instruction) (code : MachineInstr)
  /-- A stretch of data. -/
  | data (bytes : List UInt8) (text : String)
  /-- A label at the current position. -/
  | label (name : String) (span : Span)
  /-- A fixup at a position counted from the start of the chunk. -/
  | fixup (f : LocatedFixup)
  /-- Makes the chunk occupy `n` addresses without bytes. -/
  | reserve (n : Int64) (text : String)
  deriving DecidableEq, Repr, Inhabited

namespace Line

/-- The bytes of a line. -/
def bytes : Line → List UInt8
  | instr _ code => code.bytes
  | data bs _ => bs
  | _ => []

/-- The number of bytes of a line. -/
def size (l : Line) : Nat := l.bytes.length

/-- The fixups of a line that starts at `pos`. -/
def fixupsAt (pos : Nat) : Line → List LocatedFixup
  | instr i code => code.encoding.fixups.map fun f =>
      { f with offset := Int64.ofNat pos + f.offset, span := i.span }
  | fixup f => [f]
  | _ => []

end Line

/-- A label with its position in the chunk. -/
structure LocalLabel where
  name : String
  offset : Nat
  span : Span
  deriving DecidableEq, Repr, Inhabited

/-- An entry of the listing. -/
structure ListingLine where
  offset : Nat
  size : Nat
  text : String
  isLabel : Bool
  deriving DecidableEq, Repr, Inhabited

namespace Line

/-- The bytes of several lines. -/
def listBytes (ls : List Line) : List UInt8 := ls.flatMap bytes

/-- The fixups of lines that start at `pos`. -/
def listFixups (pos : Nat) : List Line → List LocatedFixup
  | [] => []
  | l :: ls => l.fixupsAt pos ++ listFixups (pos + l.size) ls

/-- The labels of lines that start at `pos`. -/
def listLabels (pos : Nat) : List Line → List LocalLabel
  | [] => []
  | .label name span :: ls => { name, offset := pos, span } :: listLabels pos ls
  | l :: ls => listLabels (pos + l.size) ls

/-- The listing of lines that start at `pos`. -/
def listing (pos : Nat) : List Line → List ListingLine
  | [] => []
  | l :: ls =>
    let rest := listing (pos + l.size) ls
    match l with
    | .instr i _ => { offset := pos, size := l.size, text := i.text, isLabel := false } :: rest
    | .data _ text => { offset := pos, size := l.size, text, isLabel := false } :: rest
    | .label name _ => { offset := pos, size := 0, text := name, isLabel := true } :: rest
    | .fixup _ => rest
    | .reserve _ text => { offset := 0, size := 0, text, isLabel := false } :: rest

/-- The number of addresses that the last reservation asks for. -/
def listReserved (ls : List Line) : Int64 :=
  ls.foldl (fun n l => match l with | .reserve k _ => k | _ => n) 0

/-- Is a label of that name defined? -/
def hasLabel (name : String) (ls : List Line) : Bool :=
  ls.any fun l => match l with | .label n _ => n == name | _ => false

/-! ### Appending lines -/

@[simp] theorem listBytes_append (ls ms : List Line) :
    listBytes (ls ++ ms) = listBytes ls ++ listBytes ms := by
  simp [listBytes]

@[simp] theorem listBytes_cons (l : Line) (ls : List Line) :
    listBytes (l :: ls) = l.bytes ++ listBytes ls := by
  simp [listBytes]

/-- Fixups of later lines are counted from the end of the earlier ones. -/
theorem listFixups_append (pos : Nat) (ls ms : List Line) :
    listFixups pos (ls ++ ms) =
      listFixups pos ls ++ listFixups (pos + (listBytes ls).length) ms := by
  induction ls generalizing pos with
  | nil => simp [listFixups, listBytes]
  | cons l ls ih => simp [listFixups, ih, size, Nat.add_assoc]

/-- A label takes no bytes, so labels follow the one rule of all lines. -/
theorem listLabels_cons (pos : Nat) (l : Line) (ls : List Line) :
    listLabels pos (l :: ls) = listLabels pos [l] ++ listLabels (pos + l.size) ls := by
  cases l <;> simp [listLabels, size, bytes]

/-- Labels of later lines are counted from the end of the earlier ones. -/
theorem listLabels_append (pos : Nat) (ls ms : List Line) :
    listLabels pos (ls ++ ms) =
      listLabels pos ls ++ listLabels (pos + (listBytes ls).length) ms := by
  induction ls generalizing pos with
  | nil => simp [listLabels, listBytes]
  | cons l ls ih =>
    rw [List.cons_append, listLabels_cons, ih, listLabels_cons pos l ls]
    simp [size, Nat.add_assoc]

/-- Listing entries of later lines are counted from the end of the earlier
    ones. -/
theorem listing_append (pos : Nat) (ls ms : List Line) :
    listing pos (ls ++ ms) = listing pos ls ++ listing (pos + (listBytes ls).length) ms := by
  induction ls generalizing pos with
  | nil => simp [listing, listBytes]
  | cons l ls ih => cases l <;> simp [listing, ih, size, bytes, Nat.add_assoc]

@[simp] theorem hasLabel_append (name : String) (ls ms : List Line) :
    hasLabel name (ls ++ ms) = (hasLabel name ls || hasLabel name ms) := by
  simp [hasLabel]

end Line

/-! ## Chunks -/

/-- What one function or storage item becomes. -/
structure Chunk where
  name : String
  kind : SymbolKind := .function
  home : Section := .code
  /-- The address that the chunk is pinned to. -/
  pin : Option Int64 := none
  /-- The address is a multiple of this. -/
  align : Int64 := 1
  lines : List Line := []
  span : Span := {}
  deriving DecidableEq, Repr, Inhabited

namespace Chunk

/-- The bytes of the chunk. -/
def bytes (c : Chunk) : List UInt8 := Line.listBytes c.lines

/-- The fixups of the chunk. -/
def fixups (c : Chunk) : List LocatedFixup := Line.listFixups 0 c.lines

/-- The labels of the chunk. -/
def labels (c : Chunk) : List LocalLabel := Line.listLabels 0 c.lines

/-- The listing of the chunk. -/
def listing (c : Chunk) : List ListingLine := Line.listing 0 c.lines

/-- The addresses occupied without bytes. -/
def reserved (c : Chunk) : Int64 := Line.listReserved c.lines

/-- The number of addresses that the chunk occupies. -/
def size (c : Chunk) : Int64 :=
  if 0 < c.reserved then c.reserved else Int64.ofNat c.bytes.length

/-- Appends a line. -/
def push (c : Chunk) (l : Line) : Chunk := { c with lines := c.lines ++ [l] }

@[simp] theorem bytes_push (c : Chunk) (l : Line) : (c.push l).bytes = c.bytes ++ l.bytes := by
  simp [bytes, push, Line.listBytes]

/-- The fixups of an appended line are counted from the end of the chunk. -/
theorem fixups_push (c : Chunk) (l : Line) :
    (c.push l).fixups = c.fixups ++ l.fixupsAt c.bytes.length := by
  simp [fixups, push, Line.listFixups_append, Line.listFixups, bytes]

end Chunk

end Z80Backend
