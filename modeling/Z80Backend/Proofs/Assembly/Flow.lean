import Z80Backend.Chunk

/-! # Flow of control

    Where control goes after a line of emitted code, told from the machine code
    alone.  A jump goes to the label that its slot waits for.  Where the slot
    holds a number or waits for a symbol plus a number, and where the target is
    in a register, the lines do not tell the place. -/

namespace Z80Backend

/-- The label that a slot with the value waits for. -/
def Value.label? (v : Value) : Option String :=
  if v.symbol ≠ "" ∧ v.addend = 0 then some v.symbol else none

/-- The label that a slot with the word waits for. -/
def Word.label? : Word → Option String
  | .const _ => none
  | .symbol name n => Value.label? { symbol := name, addend := n }

theorem Value.eq_of_label? {v : Value} {x : String} (h : v.label? = some x) :
    v = { symbol := x } ∧ x ≠ "" := by
  unfold label? at h
  split at h <;> cases h
  obtain ⟨symbol, addend⟩ := v
  simp_all

theorem Word.eq_of_label? {w : Word} {x : String} (h : w.label? = some x) :
    w = .symbol x 0 ∧ x ≠ "" := by
  cases w with
  | const n => cases h
  | symbol name n =>
    obtain ⟨heq, hne⟩ := Value.eq_of_label? h
    cases heq
    exact ⟨rfl, hne⟩

/-- Where control goes after a line. -/
inductive Flow where
  /-- On to the next line, after an instruction was executed. -/
  | step (code : MachineInstr)
  /-- On to the next line. -/
  | pass
  /-- To a label, or to a place that the lines do not tell. -/
  | jump (dest : Option String)
  /-- There, or on to the next line.  The flags decide by a condition; without
      one it is a register that does. -/
  | branch (cc : Option Condition) (dest : Option String)
  | ret
  | retIf (cc : Condition)
  /-- Back from an interrupt. -/
  | away
  deriving DecidableEq, Repr

namespace Flow

/-- Does control go on to the next line? -/
def goesOn : Flow → Bool
  | step _ | pass | branch _ _ | retIf _ => true
  | jump _ | ret | away => false

/-- The label that control may go to; none within for a place that the lines do
    not tell. -/
def to? : Flow → Option (Option String)
  | jump dest | branch _ dest => some dest
  | step _ | pass | ret | retIf _ | away => none

end Flow

/-- Where control goes after an instruction.  A call is executed as a whole. -/
def MachineInstr.flow : MachineInstr → Flow
  | .jp t => .jump t.label?
  | .jr t => .jump t.label?
  | .jpHL | .jpIndex _ => .jump none
  | .jpIf cc t => .branch cc t.label?
  | .jrIf cc t => .branch cc t.label?
  | .djnz t => .branch none t.label?
  | .ret => .ret
  | .retIf cc => .retIf cc
  | .plain .reti | .plain .retn => .away
  | code => .step code

/-- Where control goes after a line; those that are no instructions are passed. -/
def Line.flow : Line → Flow
  | .instr _ code => code.flow
  | _ => .pass

end Z80Backend
