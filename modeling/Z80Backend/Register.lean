import Z80Backend.Text.LetterCase

/-! # Registers and conditions

    The registers that instructions name, grouped by the operand positions
    they may take, and the condition codes.  Names are in lower case; `code`
    is the number that stands for the register inside an opcode. -/

namespace Z80Backend

/-! ## Registers -/

/-- The 8-bit registers. -/
inductive Reg8 where
  | b | c | d | e | h | l | a
  deriving DecidableEq, Repr, Inhabited

/-- The 16-bit registers of arithmetic and loads. -/
inductive Pair where
  | bc | de | hl | sp
  deriving DecidableEq, Repr, Inhabited

/-- The index registers. -/
inductive IndexReg where
  | ix | iy
  deriving DecidableEq, Repr, Inhabited

/-- One half of an index register. -/
inductive Half where
  | high | low
  deriving DecidableEq, Repr, Inhabited

/-- The interrupt-page and refresh registers. -/
inductive ControlReg where
  | i | r
  deriving DecidableEq, Repr, Inhabited

/-- The 16-bit registers that `push` and `pop` move. -/
inductive StackReg where
  | bc | de | hl | af
  | index (x : IndexReg)
  deriving DecidableEq, Repr, Inhabited

/-- The opcode number of an 8-bit register. -/
def Reg8.code : Reg8 → UInt8
  | b => 0
  | c => 1
  | d => 2
  | e => 3
  | h => 4
  | l => 5
  | a => 7

/-- The name of an 8-bit register. -/
def Reg8.text : Reg8 → String
  | b => "b"
  | c => "c"
  | d => "d"
  | e => "e"
  | h => "h"
  | l => "l"
  | a => "a"

/-- The 8-bit register with the given name. -/
def Reg8.ofName? (s : String) : Option Reg8 :=
  [b, c, d, e, h, l, a].find? (·.text == s)

/-- The opcode number of a pair. -/
def Pair.code : Pair → UInt8
  | bc => 0
  | de => 1
  | hl => 2
  | sp => 3

/-- The name of a pair. -/
def Pair.text : Pair → String
  | bc => "bc"
  | de => "de"
  | hl => "hl"
  | sp => "sp"

/-- The pair with the given name. -/
def Pair.ofName? (s : String) : Option Pair :=
  [bc, de, hl, sp].find? (·.text == s)

/-- The byte that redirects an opcode from `hl` to an index register. -/
def IndexReg.leadByte : IndexReg → UInt8
  | ix => 0xDD
  | iy => 0xFD

/-- The name of an index register. -/
def IndexReg.text : IndexReg → String
  | ix => "ix"
  | iy => "iy"

/-- The index register with the given name. -/
def IndexReg.ofName? (s : String) : Option IndexReg :=
  [ix, iy].find? (·.text == s)

/-- The opcode number of a half: that of `h` or `l`. -/
def Half.code : Half → UInt8
  | high => 4
  | low => 5

/-- The half of an index register with the given name. -/
def Half.ofName? : String → Option (IndexReg × Half)
  | "ixh" => some (.ix, .high)
  | "ixl" => some (.ix, .low)
  | "iyh" => some (.iy, .high)
  | "iyl" => some (.iy, .low)
  | _ => none

/-! ## Conditions -/

/-- The condition codes. -/
inductive Condition where
  | nz | z | nc | c | po | pe | p | m
  deriving DecidableEq, Repr, Inhabited

namespace Condition

/-- The opcode number of a condition. -/
def code : Condition → UInt8
  | nz => 0
  | z => 1
  | nc => 2
  | c => 3
  | po => 4
  | pe => 5
  | p => 6
  | m => 7

/-- The name of a condition. -/
def text : Condition → String
  | nz => "nz"
  | z => "z"
  | nc => "nc"
  | c => "c"
  | po => "po"
  | pe => "pe"
  | p => "p"
  | m => "m"

/-- The condition with the given name. -/
def ofName? (s : String) : Option Condition :=
  [nz, z, nc, c, po, pe, p, m].find? (·.text == s)

/-- The condition that a word names, in letters of either case. -/
def ofWord? (s : String) : Option Condition := ofName? (Text.lower s)

/-- The condition that holds exactly when the given one does not. -/
def negate : Condition → Condition
  | nz => z
  | z => nz
  | nc => c
  | c => nc
  | po => pe
  | pe => po
  | p => m
  | m => p

/-- Is it one of the four conditions that short branches can test? -/
def isShort : Condition → Bool
  | nz | z | nc | c => true
  | _ => false

end Condition

end Z80Backend
