import Z80Backend.Syntax.Instruction
import Z80Backend.Value

/-! # Why an address cannot be computed -/

namespace Z80Backend

/-- The two kinds of frame slots. -/
inductive SlotRole where
  | parameter
  | localVar
  deriving DecidableEq, Repr, Inhabited

/-- The name of a kind of slot, at the start of a sentence. -/
def SlotRole.text : SlotRole → String
  | parameter => "Parameter"
  | localVar => "Local"

/-- Why an effective address, or an access through it, cannot be built. -/
inductive AddressError where
  | elementSize (n : Int64)
  | baseReg (name : String)
  | slotRange (disp : Int64)
  | unknownBase (kind : Int64)
  | byteIndex (reg : String)
  | wordIndex (reg : String)
  | unknownIndex (kind : Int64)
  | loadReg (reg : String)
  | storeReg (reg : String)
  | unknownStorage (name : String)
  | notStorage (p : Place)
  | noField (p : Place) (cause : TypeError)
  | offsetNotConst (p : Place) (cause : EvalError)
  | notArray (p : Place) (type : TypeRef)
  | noElementSize (p : Place) (cause : TypeError)
  | indexNotConst (p : Place) (cause : EvalError)
  | indexRange (n : Int64) (type : TypeRef)
  | secondIndex (p : Place)
  | indexDisplacement (reg : String)
  | unsupportedIndex
  | indexNotScalar (p : Place)
  /-- Only `ld` accesses typed storage. -/
  | notLoad (i : Instruction)
  /-- The other side of a typed `ld` is no register. -/
  | noRegister (i : Instruction)
  | aggregate (p : Place) (type : TypeRef)
  | regAccess (reg : String)
  | width (p : Place) (want : Int64) (reg : String) (got : Int64)
  | slotSize (role : SlotRole) (name : String) (type : TypeRef)
  deriving DecidableEq, Repr

/-- The wording of an address error. -/
def AddressError.message : AddressError → String
  | elementSize n => "Invalid element size " ++ Text.decimal n ++ "."
  | baseReg r => "Register " ++ r ++ " cannot hold a base address."
  | slotRange d => "Frame slot displacement " ++ Text.decimal d ++ " out of range."
  | unknownBase k => "Unknown base kind " ++ Text.decimal k ++ "."
  | byteIndex r => "Register " ++ r ++ " cannot be a byte index."
  | wordIndex r => "Register " ++ r ++ " cannot be a word index."
  | unknownIndex k => "Unknown index kind " ++ Text.decimal k ++ "."
  | loadReg r => "Register " ++ r ++ " cannot be loaded from typed storage."
  | storeReg r => "Register " ++ r ++ " cannot be stored to typed storage."
  | unknownStorage n => "Unknown storage " ++ Text.quote n ++ "."
  | notStorage p => "Address " ++ p.text ++ " does not name typed storage."
  | noField p e => "Cannot select " ++ p.text ++ ": " ++ e.message ++ "."
  | offsetNotConst p e => "Offset in " ++ p.text ++ " must be constant: " ++ e.message ++ "."
  | notArray p t => "Cannot index " ++ p.text ++ ": type " ++ t.text ++ " is not an array."
  | noElementSize p e => "Cannot index " ++ p.text ++ ": " ++ e.message ++ "."
  | indexNotConst p e => "Index in " ++ p.text ++ " must be constant: " ++ e.message ++ "."
  | indexRange n t => "Index " ++ Text.decimal n ++ " out of range for " ++ t.text ++ "."
  | secondIndex p => "Address " ++ p.text ++ " uses more than one runtime index."
  | indexDisplacement r => "Invalid index displacement in (" ++ r ++ "+...)."
  | unsupportedIndex => "Unsupported index expression."
  | indexNotScalar p => "Index " ++ p.text ++ " must be a byte or word scalar."
  | notLoad i => "Typed storage operands are only supported by ld: " ++ i.text ++ "."
  | noRegister i => "ld with typed storage needs a register on the other side: " ++ i.text ++ "."
  | aggregate p t =>
    "Cannot move aggregate storage " ++ p.text ++ " of type " ++ t.text ++ " through a register."
  | regAccess r => "Register " ++ r ++ " cannot access typed storage."
  | width p want r got =>
    "Width mismatch: " ++ p.text ++ " is " ++ Text.decimal want ++ " byte(s) but " ++ r ++
      " is " ++ Text.decimal got ++ " byte(s)."
  | slotSize role n t =>
    role.text ++ " " ++ Text.quote n ++ " of type " ++ t.text ++
      " does not fit a 2-byte frame slot."

end Z80Backend
