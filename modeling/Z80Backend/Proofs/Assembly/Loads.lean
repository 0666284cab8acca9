import Z80Backend.Address.Step
import Z80Backend.Proofs.Assembly.Selection

/-! # Loads and stack instructions

    The code around a body and the code of an address are made of few kinds of
    instructions: loads, pushes and pops.  What these assemble to is settled
    here, for both.

    * `assemble_ld` takes a load apart into the parts of its operands.
    * `hasCode_ld_iff`: a load has machine code exactly if there is a load for
      these parts. -/

namespace Z80Backend

/-! ## Operands -/

/-- The pair with the same name. -/
def WordReg.pair : WordReg → Pair
  | bc => .bc
  | de => .de
  | hl => .hl

variable {r : Resolver} {code : MachineInstr}

theorem Arg.evalSymbolic_offset {s : String} (hs : r.value? s = none) (off : Int64) :
    (Expr.offset s off).evalSymbolic r = .ok { symbol := s, addend := off } := by
  have hname : (Expr.name s).eval r = .error (.unresolved s) := by simp [Expr.eval, hs]
  unfold Expr.offset
  split
  · rename_i hzero
    simp [Expr.evalSymbolic, hname, hzero]
  split
  · simp [Expr.evalSymbolic, Expr.eval, hs, Value.combine?, Value.isConst]
  · by_cases hempty : s = ""
    · subst hempty
      simp [Expr.evalSymbolic, Expr.eval, hs, Value.combine?, Value.isConst]
    · simp [Expr.evalSymbolic, Expr.eval, hs, Value.combine?, Value.isConst, hempty]

/-! ## Instructions -/

/-- An instruction that has machine code. -/
def Instruction.HasCode (r : Resolver) (i : Instruction) : Prop :=
  ∃ code, assemble r i = .ok code

/-- The parts of a load. -/
theorem assemble_ld {o o' : Operand} (h : assemble r (.of "ld" [o, o']) = .ok code) :
    ∃ a a', Arg.ofOperand r "ld" o = .ok a ∧ Arg.ofOperand r "ld" o' = .ok a' ∧
      Selection.ld "ld" [a, a'] = .ok (some code) := by
  obtain ⟨m, args, hm, hargs, hsel⟩ := assemble_eq_ok h
  have hlower : Text.lower "ld" = "ld" := by decide
  have hld : Mnemonic.ofName? "ld" = some .ld := by decide
  simp only [Instruction.of, hlower] at hm hargs hsel
  rw [hld] at hm
  cases hm
  obtain ⟨a, as, rfl, ha, has⟩ := Arg.ofOperands_cons_eq_ok hargs
  obtain ⟨a', as', rfl, ha', has'⟩ := Arg.ofOperands_cons_eq_ok has
  cases has'
  exact ⟨a, a', ha, ha', hsel⟩

theorem Arg.ofOperand_reg8 (r : Resolver) (head : String) (x : Reg8) :
    Arg.ofOperand r head (.ofReg x.text) = .ok (.reg8 x) := by
  cases x <;> rfl

theorem Arg.ofOperand_wordReg (r : Resolver) (head : String) (x : WordReg) :
    Arg.ofOperand r head (.ofReg x.text) = .ok (.pair x.pair) := by
  cases x <;> rfl

theorem assemble_ld_reg8 {dst : Reg8} {o : Operand}
    (h : assemble r (.of "ld" [.ofReg dst.text, o]) = .ok code) :
    ∃ a, Arg.ofOperand r "ld" o = .ok a ∧ Selection.ldReg "ld" dst a = .ok (some code) := by
  obtain ⟨_, a, hdst, ha, hsel⟩ := assemble_ld h
  rw [Arg.ofOperand_reg8] at hdst
  cases hdst
  exact ⟨a, ha, hsel⟩

theorem assemble_ld_wordReg {dst : WordReg} {o : Operand}
    (h : assemble r (.of "ld" [.ofReg dst.text, o]) = .ok code) :
    ∃ a, Arg.ofOperand r "ld" o = .ok a ∧ Selection.ldPair "ld" dst.pair a = .ok (some code) := by
  obtain ⟨_, a, hdst, ha, hsel⟩ := assemble_ld h
  rw [Arg.ofOperand_wordReg] at hdst
  cases hdst
  exact ⟨a, ha, hsel⟩

theorem assemble_push (reg : StackReg) :
    assemble r (.of "push" [.ofReg reg.text]) = .ok (.push reg) := by
  cases reg with
  | index x => cases x <;> rfl
  | bc | de | hl | af => rfl

theorem assemble_pop (reg : StackReg) :
    assemble r (.of "pop" [.ofReg reg.text]) = .ok (.pop reg) := by
  cases reg with
  | index x => cases x <;> rfl
  | bc | de | hl | af => rfl

theorem hasCode_push (reg : StackReg) : (Instruction.of "push" [.ofReg reg.text]).HasCode r :=
  ⟨_, assemble_push reg⟩

theorem hasCode_pop (reg : StackReg) : (Instruction.of "pop" [.ofReg reg.text]).HasCode r :=
  ⟨_, assemble_pop reg⟩

/-- A word has code unless it is a constant out of range. -/
theorem Selection.exists_withWord_iff {head : String} {v : Value} {f : Word → MachineInstr} :
    (∃ code, Selection.withWord head v f = .ok (some code)) ↔
      (v.isConst = true → -32768 ≤ v.addend ∧ v.addend ≤ 65535) := by
  unfold Selection.withWord
  cases hconst : v.isConst with
  | false => exact ⟨fun _ => nofun, fun _ => ⟨_, rfl⟩⟩
  | true =>
    rw [← Int64.not_lt, ← Int64.not_lt, ← not_or, if_neg (by decide)]
    by_cases hrange : v.addend < -32768 ∨ 65535 < v.addend
    · rw [if_pos hrange]
      exact ⟨nofun, fun h => absurd hrange (h rfl)⟩
    · rw [if_neg hrange]
      exact ⟨fun _ _ => hrange, fun _ => ⟨_, rfl⟩⟩

/-- A load has code if there is a load for the parts of its operands. -/
theorem hasCode_ld_iff {o o' : Operand} {a a' : Arg} (ha : Arg.ofOperand r "ld" o = .ok a)
    (ha' : Arg.ofOperand r "ld" o' = .ok a') :
    (Instruction.of "ld" [o, o']).HasCode r ↔
      ∃ code, Selection.ld "ld" [a, a'] = .ok (some code) := by
  constructor
  · rintro ⟨code, hcode⟩
    obtain ⟨b, b', hb, hb', hsel⟩ := assemble_ld hcode
    rw [ha] at hb
    rw [ha'] at hb'
    cases hb
    cases hb'
    exact ⟨code, hsel⟩
  · rintro ⟨code, hcode⟩
    have hlower : Text.lower "ld" = "ld" := by decide
    have hmnemonic : Mnemonic.ofName? "ld" = some .ld := by decide
    have hargs : Arg.ofOperands r "ld" [o, o'] = .ok [a, a'] := by
      simp [Arg.ofOperands, ha, ha']
    have hsel : Selection.ofMnemonic "ld" [a, a'] .ld = .ok (some code) := hcode
    exact ⟨code, by simp [assemble, Instruction.of, hlower, hmnemonic, hargs, hsel]⟩

end Z80Backend
