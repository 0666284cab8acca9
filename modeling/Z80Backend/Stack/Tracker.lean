import Z80Backend.Stack.Depth
import Z80Backend.Syntax.Instruction
import Z80Backend.Text.LetterCase

/-! # Stack effects

    The stack effect of an instruction is read off its mnemonic and operands.
    A tracker threads the depth through a straight run of instructions and
    notes whether the current point can be reached from the one before. -/

namespace Z80Backend

/-- What an instruction does to the stack and to the flow of control. -/
structure StackEffect where
  /-- The change of `sp` in bytes. -/
  delta : Int64 := 0
  /-- Is `sp` loaded with a value that is not followed? -/
  untracked : Bool := false
  /-- Does control never pass to the next instruction? -/
  terminates : Bool := false
  /-- Does the function return, perhaps under a condition? -/
  returns : Bool := false
  deriving DecidableEq, Repr, Inhabited

/-- Does the operand name the register, in any case? -/
def Operand.isReg (name : String) : Operand → Bool
  | .reg s _ => Text.matchesWord s name
  | _ => false

/-- The stack effect of an instruction. -/
def StackEffect.of (i : Instruction) : StackEffect :=
  match Text.lower i.head, i.operands with
  | "push", _ => { delta := -2 }
  | "pop", _ => { delta := 2 }
  | "inc", [o] => if o.isReg "sp" then { delta := 1 } else {}
  | "dec", [o] => if o.isReg "sp" then { delta := -1 } else {}
  | "ld", [o, _] => if o.isReg "sp" then { untracked := true } else {}
  | "ret", os => { returns := true, terminates := os.isEmpty }
  | "reti", _ => { returns := true, terminates := true }
  | "retn", _ => { returns := true, terminates := true }
  | "jp", os => { terminates := os.length == 1 }
  | "jr", os => { terminates := os.length == 1 }
  | _, _ => {}

/-- The depth at the current point, and whether the point can be reached. -/
structure Tracker where
  depth : Depth := .known 0
  live : Bool := true
  deriving DecidableEq, Repr, Inhabited

namespace Tracker

/-- Goes on at a point that can be reached with the given depth. -/
def set (d : Depth) : Tracker := { depth := d, live := true }

/-- Marks the current point as out of reach. -/
def kill (t : Tracker) : Tracker := { t with live := false }

/-- Passes over one instruction. -/
def apply (t : Tracker) (i : Instruction) : Tracker :=
  let e := StackEffect.of i
  { depth := if e.untracked then .untracked else t.depth.add e.delta
    live := t.live && !e.terminates }

end Tracker

end Z80Backend
