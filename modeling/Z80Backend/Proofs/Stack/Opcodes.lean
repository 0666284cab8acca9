import Z80Backend.Proofs.Stack.Effect

/-! # Effects of opcodes

    What an encoded instruction does to `sp` and to the flow of control can be
    told from its first bytes.  `Opcode.effect` tells it from tables of
    opcodes, with no regard to how the instruction was written.

    The tracker looks at mnemonics and numbers of operands instead.  The two
    are compared through machine instructions: `StackEffect.of_assemble` finds
    the effect of one in the words, and `effect_eq_opcode` finds it in the
    bytes. -/

namespace Z80Backend

/-! ## Tables of opcodes -/

namespace Opcode

/-- `push` of `bc`, `de`, `hl`, `af`, `ix` and `iy`. -/
def pushes : List (List UInt8) := [[0xC5], [0xD5], [0xE5], [0xF5], [0xDD, 0xE5], [0xFD, 0xE5]]

/-- `pop` of `bc`, `de`, `hl`, `af`, `ix` and `iy`. -/
def pops : List (List UInt8) := [[0xC1], [0xD1], [0xE1], [0xF1], [0xDD, 0xE1], [0xFD, 0xE1]]

/-- Loads of `sp` from a number, from memory, and from `hl`, `ix` and `iy`. -/
def stackLoads : List (List UInt8) := [[0x31], [0xED, 0x7B], [0xF9], [0xDD, 0xF9], [0xFD, 0xF9]]

/-- Returns without a condition, plain and from interrupts. -/
def plainReturns : List (List UInt8) := [[0xC9], [0xED, 0x4D], [0xED, 0x45]]

/-- Returns under a condition. -/
def branchReturns : List (List UInt8) :=
  [[0xC0], [0xC8], [0xD0], [0xD8], [0xE0], [0xE8], [0xF0], [0xF8]]

/-- Jumps without a condition: absolute, relative, and to `hl`, `ix` and `iy`. -/
def jumps : List (List UInt8) := [[0xC3], [0x18], [0xE9], [0xDD, 0xE9], [0xFD, 0xE9]]

/-- The bytes begin with one of the opcodes. -/
def opens (opcodes : List (List UInt8)) (bytes : List UInt8) : Bool :=
  opcodes.any (·.isPrefixOf bytes)

/-- The change of `sp` by an instruction with the given bytes. -/
def stackDelta (bytes : List UInt8) : Int64 :=
  if opens pushes bytes then -2
  else if opens pops bytes then 2
  else if opens [[0x33]] bytes then 1
  else if opens [[0x3B]] bytes then -1
  else 0

/-- The effect of an instruction with the given bytes. -/
def effect (bytes : List UInt8) : StackEffect where
  delta := stackDelta bytes
  untracked := opens stackLoads bytes
  terminates := opens (plainReturns ++ jumps) bytes
  returns := opens (plainReturns ++ branchReturns) bytes

end Opcode

namespace Opcode

/-- The opcodes with an effect. -/
def listed : List (List UInt8) :=
  pushes ++ pops ++ [[0x33], [0x3B]] ++ stackLoads ++ plainReturns ++ branchReturns ++ jumps

/-- A listed opcode begins with the byte. -/
def isMarked (b : UInt8) : Bool := listed.any fun op => op.head? == some b

/-- Bytes that begin with no listed opcode have no effect. -/
theorem effect_of_unlisted {bytes : List UInt8} (h : ∀ op ∈ listed, op.isPrefixOf bytes = false) :
    effect bytes = {} := by
  have hopens : ∀ table, table ⊆ listed → opens table bytes = false := by
    intro table hsub
    rw [opens, List.any_eq_false]
    intro op hop
    rw [h op (hsub hop)]
    exact Bool.false_ne_true
  have hpush := hopens pushes (by decide)
  have hpop := hopens pops (by decide)
  have hinc := hopens [[0x33]] (by decide)
  have hdec := hopens [[0x3B]] (by decide)
  have hload := hopens stackLoads (by decide)
  have hleave := hopens (plainReturns ++ jumps) (by decide)
  have hret := hopens (plainReturns ++ branchReturns) (by decide)
  simp [effect, stackDelta, hpush, hpop, hinc, hdec, hload, hleave, hret]

theorem effect_unmarked {b : UInt8} {rest : List UInt8} (h : isMarked b = false) :
    effect (b :: rest) = {} := by
  apply effect_of_unlisted
  intro op hop
  have hne : ∀ op ∈ listed, op ≠ [] := by decide
  match op, hne op hop, List.any_eq_false.mp h op hop with
  | c :: cs, _, hhead =>
    have hcb : (c == b) = false := by simpa using hhead
    simp [List.isPrefixOf, hcb]

/-- No listed opcode begins with a byte from the middle of the table. -/
theorem isMarked_middle {b : UInt8} (hlow : 0x40 ≤ b) (hhigh : b < 0xC0) : isMarked b = false := by
  have houtside : ∀ op ∈ listed, op.head?.all (fun c => c < 0x40 || 0xC0 ≤ c) = true := by decide
  rw [isMarked, List.any_eq_false]
  intro op hop hb
  have hout := houtside op hop
  rw [beq_iff_eq.mp hb] at hout
  rcases Bool.or_eq_true_iff.mp hout with h | h
  · exact absurd hlow (UInt8.not_le.mpr (of_decide_eq_true h))
  · exact absurd hhigh (UInt8.not_lt.mpr (of_decide_eq_true h))

/-- Two bytes that are no listed opcode, the first of which is none either. -/
theorem effect_unmarkedAfter {lead b : UInt8} {rest : List UInt8} (hlead : [lead] ∉ listed)
    (h : [lead, b] ∉ listed) : effect (lead :: b :: rest) = {} := by
  apply effect_of_unlisted
  intro op hop
  have hlength : ∀ op ∈ listed, op.length = 1 ∨ op.length = 2 := by decide
  rw [← Bool.not_eq_true, List.isPrefixOf_iff_prefix, List.prefix_iff_eq_take]
  intro hprefix
  rcases hlength op hop with hlen | hlen
  · rw [hlen] at hprefix
    subst hprefix
    exact hlead hop
  · rw [hlen] at hprefix
    subst hprefix
    exact h hop

/-- The listed opcodes of index registers are in the last rows of the table. -/
theorem effect_index {x : IndexReg} {b : UInt8} {rest : List UInt8} (h : b < 0xE0) :
    effect (x.leadByte :: b :: rest) = {} := by
  refine effect_unmarkedAfter (by cases x <;> decide) fun hmem => ?_
  have hlast : ∀ op ∈ listed, op.head? ≠ some 0xED →
      op[1]?.all (fun c => 0xE0 ≤ c) = true := by decide
  have hb := hlast _ hmem (by cases x <;> simp [IndexReg.leadByte])
  exact absurd h (UInt8.not_lt.mpr (of_decide_eq_true hb))

end Opcode

namespace MachineInstr

/-- The effect of a machine instruction is that of its bytes. -/
theorem effect_eq_opcode (code : MachineInstr) : code.effect = Opcode.effect code.bytes := by
  -- most instructions have no effect, and a byte or two tell so
  have head {b : UInt8} {rest : List UInt8} (h : Opcode.isMarked b = false) :
      {} = Opcode.effect (b :: rest) := (Opcode.effect_unmarked h).symm
  have middle {b : UInt8} {rest : List UInt8} (h : 0x40 ≤ b ∧ b < 0xC0) :
      {} = Opcode.effect (b :: rest) := head (Opcode.isMarked_middle h.1 h.2)
  have index {x : IndexReg} {b : UInt8} {rest : List UInt8} (h : b < 0xE0) :
      {} = Opcode.effect (x.leadByte :: b :: rest) := (Opcode.effect_index h).symm
  have extended {b : UInt8} {rest : List UInt8} (h : [0xED, b] ∉ Opcode.listed) :
      {} = Opcode.effect (0xED :: b :: rest) := (Opcode.effect_unmarkedAfter (by decide) h).symm
  cases code with
  | plain p => cases p <;> rfl
  | alu op src =>
    rcases src with r | ⟨x, h⟩ | (_ | ⟨x, d⟩)
    · exact middle (by cases op <;> cases r <;> decide)
    · exact index (by cases op <;> cases h <;> decide)
    · exact middle (by cases op <;> decide)
    · exact index (by cases op <;> decide)
  | aluImm op n => exact head (by cases op <;> rfl)
  | addHL p => exact head (by cases p <;> rfl)
  | adcHL p | sbcHL p => exact extended (by cases p <;> decide)
  | addIndex x p => exact index (by cases p <;> decide)
  | rotate op t | bit op n t =>
    rcases t with r | (_ | ⟨x, d⟩)
    · exact head rfl
    · exact head rfl
    · exact index (by decide)
  | retIf cc => cases cc <;> rfl
  | jp t => cases t <;> rfl
  | jpIf cc t | callIf cc t => cases t <;> exact head (by cases cc <;> rfl)
  | jrIf cc t => exact head (by cases cc <;> rfl)
  | call t | ldAAbs t | ldAbsA t => cases t <;> exact head rfl
  | jpIndex x | exSPIndex x | ldSPIndex x => cases x <;> rfl
  | incIndex x | decIndex x => exact index (by decide)
  | inc8 loc | dec8 loc =>
    rcases loc with r | ⟨x, h⟩ | (_ | ⟨x, d⟩)
    · exact head (by cases r <;> rfl)
    · exact index (by cases h <;> decide)
    · exact head rfl
    · exact index (by decide)
  | inc16 p | dec16 p => cases p <;> rfl
  | push q | pop q =>
    rcases q with _ | _ | _ | _ | x
    · rfl
    · rfl
    · rfl
    · rfl
    · cases x <;> rfl
  | ld dst src => exact middle (by cases dst <;> cases src <;> decide)
  | ldHalves x dst src => exact index (by cases dst <;> cases src <;> decide)
  | ldImm dst n => exact head (by cases dst <;> rfl)
  | ldHalfImm x h n => exact index (by cases h <;> decide)
  | load dst src =>
    rcases src with _ | ⟨x, d⟩
    · exact middle (by cases dst <;> decide)
    · exact index (by cases dst <;> decide)
  | store dst src =>
    rcases dst with _ | ⟨x, d⟩
    · exact middle (by cases src <;> decide)
    · exact index (by cases src <;> decide)
  | storeImm dst n =>
    rcases dst with _ | ⟨x, d⟩
    · exact head rfl
    · exact index (by decide)
  | ldAControl c | ldControlA c => cases c <;> exact extended (by decide)
  | ldPairImm p w | ldPairAbs p w | ldAbsPair w p => cases p <;> cases w <;> rfl
  | ldIndexImm x w | ldIndexAbs x w | ldAbsIndex w x => cases w <;> exact index (by decide)
  | inC q | outC q => exact extended (by cases q <;> decide)
  | rst n => exact head (by decide +revert)
  | im n =>
    match n with
    | 0 | 1 | 2 => exact extended (by decide)
  | inPort n | outPort n => exact head rfl
  | ret | jpHL | jr t | djnz t | exDE | exAF | exSP | ldAFromBC | ldAFromDE | ldBCFromA | ldDEFromA
  | ldSPHL => rfl

end MachineInstr

/-! ## Words -/

namespace StackEffect

/-- The tracker and the encoder agree: the effect that is read off the words of
    an instruction is that of its bytes. -/
theorem of_eq_opcode_effect (r : Resolver) (i : Instruction) (code : MachineInstr)
    (h : assemble r i = .ok code) : of i = Opcode.effect code.bytes := by
  rw [of_assemble h, code.effect_eq_opcode]

/-- A load of `sp` in mixed case, from an address that is not known yet. -/
def restore : Instruction where
  head := "Ld"
  operands := [.reg "sP" {}, .mem (.add (.name "frame") (.number 2)) {}]

theorem restore_eq_opcode_effect :
    ∃ code, assemble .empty restore = .ok code ∧ code.bytes = [0xED, 0x7B, 0, 0] ∧
      of restore = { untracked := true } ∧ of restore = Opcode.effect code.bytes := by
  have hcode : assemble .empty restore = .ok (.ldPairAbs .sp (.symbol "frame" 2)) := rfl
  exact ⟨_, hcode, rfl, by decide, of_eq_opcode_effect .empty restore _ hcode⟩

end StackEffect

end Z80Backend
