import Z80Backend.Register
import Z80Backend.Syntax.Instruction

/-! # Steps of address code

    Address code is a list of steps, each of them one instruction.  Steps know
    their registers, so that what they do can be told without reading names
    again. -/

namespace Z80Backend

/-! ## Operands of steps -/

/-- The pairs that hold addresses and typed words. -/
inductive WordReg where
  | bc | de | hl
  deriving DecidableEq, Repr, Inhabited

namespace WordReg

/-- The name of the pair. -/
def text : WordReg → String
  | bc => "bc"
  | de => "de"
  | hl => "hl"

/-- The pair with the given name. -/
def ofName? (s : String) : Option WordReg := [bc, de, hl].find? (·.text == s)

/-- The register that holds the low byte. -/
def low : WordReg → Reg8
  | bc => .c
  | de => .e
  | hl => .l

/-- The register that holds the high byte. -/
def high : WordReg → Reg8
  | bc => .b
  | de => .d
  | hl => .h

/-- The pair as `push` and `pop` name it. -/
def onStack : WordReg → StackReg
  | bc => .bc
  | de => .de
  | hl => .hl

end WordReg

/-- The name of a register on the stack. -/
def StackReg.text : StackReg → String
  | bc => "bc"
  | de => "de"
  | hl => "hl"
  | af => "af"
  | index x => x.text

/-- A memory reference. -/
inductive MemRef where
  /-- `(hl)` -/
  | hl
  /-- `(ix+d)` or `(iy+d)` -/
  | indexed (reg : String) (disp : Int64)
  /-- A symbol plus an offset. -/
  | symbol (name : String) (off : Int64)
  /-- An absolute address. -/
  | address (n : Int64)
  deriving DecidableEq, Repr, Inhabited

/-- The reference as an operand. -/
def MemRef.operand : MemRef → Operand
  | hl => .indirect "hl"
  | indexed r d => .indexed r d
  | symbol s off => .absolute s off
  | address n => .absoluteAddr n

/-- A slot of the frame. -/
def MemRef.slot (disp : Int64) : MemRef := .indexed "ix" disp

/-- Does a displacement fit in one signed byte? -/
def fitsDisp (d : Int64) : Bool := -128 ≤ d && d ≤ 127

/-! ## Steps -/

/-- The kinds of steps. -/
inductive StepKind where
  | push | pop | ldReg | ldImm | load | store | ex | add | inc | unknown
  deriving DecidableEq, Repr, Inhabited

/-- The kind with the given number. -/
def StepKind.ofCode (n : Int64) : StepKind :=
  if n = 0 then .push
  else if n = 1 then .pop
  else if n = 2 then .ldReg
  else if n = 3 then .ldImm
  else if n = 4 then .load
  else if n = 5 then .store
  else if n = 6 then .ex
  else if n = 7 then .add
  else if n = 8 then .inc
  else .unknown

/-- The name of a kind. -/
def StepKind.text : StepKind → String
  | push => "push"
  | pop => "pop"
  | ldReg => "ld-reg"
  | ldImm => "ld-imm"
  | load => "load"
  | store => "store"
  | ex => "ex"
  | add => "add"
  | inc => "inc"
  | unknown => "unknown"

/-- One instruction of address code. -/
inductive Step where
  | push (r : StackReg)
  | pop (r : StackReg)
  /-- `ld r,s` -/
  | ldReg (dst src : Reg8)
  /-- `ld r,n` -/
  | ldByte (dst : Reg8) (n : Int64)
  /-- `ld rr,nn` -/
  | ldWord (dst : WordReg) (n : Int64)
  /-- `ld rr,sym+off` -/
  | ldSym (dst : WordReg) (sym : String) (off : Int64)
  /-- `ld r,(mem)` -/
  | loadByte (dst : Reg8) (src : MemRef)
  /-- `ld rr,(mem)` -/
  | loadWord (dst : WordReg) (src : MemRef)
  /-- `ld (mem),r` -/
  | storeByte (dst : MemRef) (src : Reg8)
  /-- `ld (mem),rr` -/
  | storeWord (dst : MemRef) (src : WordReg)
  /-- `ex de,hl` -/
  | exDEHL
  /-- `add hl,rr` -/
  | addHL (src : WordReg)
  /-- `inc rr` -/
  | inc (r : WordReg)
  deriving DecidableEq, Repr, Inhabited

namespace Step

/-- The kind of a step. -/
def kind : Step → StepKind
  | push _ => .push
  | pop _ => .pop
  | ldReg .. => .ldReg
  | ldByte .. | ldWord .. | ldSym .. => .ldImm
  | loadByte .. | loadWord .. => .load
  | storeByte .. | storeWord .. => .store
  | exDEHL => .ex
  | addHL _ => .add
  | inc _ => .inc

/-- The instruction of a step. -/
def instruction : Step → Instruction
  | push r => .of "push" [.ofReg r.text]
  | pop r => .of "pop" [.ofReg r.text]
  | ldReg dst src => .of "ld" [.ofReg dst.text, .ofReg src.text]
  | ldByte dst n => .of "ld" [.ofReg dst.text, .ofNum n]
  | ldWord dst n => .of "ld" [.ofReg dst.text, .ofNum n]
  | ldSym dst s off => .of "ld" [.ofReg dst.text, .ofSymbol s off]
  | loadByte dst m => .of "ld" [.ofReg dst.text, m.operand]
  | loadWord dst m => .of "ld" [.ofReg dst.text, m.operand]
  | storeByte m src => .of "ld" [m.operand, .ofReg src.text]
  | storeWord m src => .of "ld" [m.operand, .ofReg src.text]
  | exDEHL => .of "ex" [.ofReg "de", .ofReg "hl"]
  | addHL src => .of "add" [.ofReg "hl", .ofReg src.text]
  | inc r => .of "inc" [.ofReg r.text]

/-- The step as written. -/
def text (s : Step) : String := s.instruction.text

end Step

/-- Several steps as written, separated by semicolons. -/
def Step.listText (steps : List Step) : String := "; ".intercalate (steps.map (·.text))

end Z80Backend
