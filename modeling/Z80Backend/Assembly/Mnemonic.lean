import Z80Backend.MachineInstr

/-! # Mnemonics -/

namespace Z80Backend

/-- The mnemonics of the Z80, grouped by the operands they take. -/
inductive Mnemonic where
  | alu (op : AluOp)
  | rotate (op : RotateOp)
  | bit (op : BitOp)
  | ret | jp | call | jr | djnz
  | inc | dec | push | pop | ex | ld
  | input | output | rst | im
  | plain (p : Plain)
  deriving DecidableEq, Repr, Inhabited

namespace Mnemonic

/-- The mnemonics that take operands. -/
def operative : List (String × Mnemonic) :=
  [("add", .alu .add), ("adc", .alu .adc), ("sub", .alu .sub), ("sbc", .alu .sbc),
   ("and", .alu .and), ("xor", .alu .xor), ("or", .alu .or), ("cp", .alu .cp),
   ("rlc", .rotate .rlc), ("rrc", .rotate .rrc), ("rl", .rotate .rl), ("rr", .rotate .rr),
   ("sla", .rotate .sla), ("sra", .rotate .sra), ("sll", .rotate .sll), ("srl", .rotate .srl),
   ("bit", .bit .bit), ("res", .bit .res), ("set", .bit .set),
   ("ret", .ret), ("jp", .jp), ("call", .call), ("jr", .jr), ("djnz", .djnz),
   ("inc", .inc), ("dec", .dec), ("push", .push), ("pop", .pop), ("ex", .ex), ("ld", .ld),
   ("in", .input), ("out", .output), ("rst", .rst), ("im", .im)]

/-- The mnemonic spelled `s`, in lower case. -/
def ofName? (s : String) : Option Mnemonic :=
  match operative.lookup s with
  | some m => some m
  | none   => (Plain.all.find? (·.text == s)).map .plain

/-- The numbers of operands that the mnemonic accepts. -/
def arity : Mnemonic → List Nat
  | alu _ => [1, 2]
  | rotate _ => [1]
  | bit _ => [2]
  | ret => [0, 1]
  | jp | call | jr => [1, 2]
  | djnz => [1]
  | inc | dec | push | pop => [1]
  | ex | ld | input | output => [2]
  | rst | im => [1]
  | plain _ => [0]

end Mnemonic

end Z80Backend
