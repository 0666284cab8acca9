import Z80Backend.Proofs.Assembly.Reading
import Z80Backend.Stack.Tracker

/-! # Instructions that lowering writes

    Structured control becomes jumps to generated labels and comparisons with
    numbers, and a return may become a jump.  What these assemble to, and what
    they do to the stack, is settled here once. -/

namespace Z80Backend

variable {r : Resolver} {span : Span} {code : MachineInstr}

/-! ## Parts of operands -/

namespace Resolver

/-- The name stands for no number, so that a slot with it waits for a symbol. -/
def IsLabel (r : Resolver) (name : String) : Prop := name ≠ "" ∧ r.value? name = none

/-- The value of a name. -/
def valueOf (r : Resolver) (name : String) : Value :=
  match r.value? name with
  | some n => { addend := n }
  | none => { symbol := name }

/-- What stands in a slot for a name. -/
def wordOf (r : Resolver) (name : String) : Word := (r.valueOf name).toWord

theorem IsLabel.label?_wordOf {name : String} (h : r.IsLabel name) :
    (r.wordOf name).label? = some name := by
  simp [wordOf, valueOf, h.2, Value.toWord, Value.isConst, h.1, Word.label?, Value.label?]

/-- A slot for a name waits for no other label. -/
theorem eq_of_label?_wordOf {name x : String} (h : (r.wordOf name).label? = some x) : x = name := by
  unfold wordOf valueOf Value.toWord at h
  split at h <;> split at h <;> simp_all [Value.isConst, Word.label?, Value.label?]

end Resolver

namespace Arg

theorem ofOperand_name (head name : String) :
    ofOperand r head (.ofName name) = .ok (.imm (r.valueOf name) (.name name)) := by
  have hvalue : (Expr.name name).evalSymbolic r = .ok (r.valueOf name) := by
    rw [Expr.evalSymbolic, Expr.eval, Resolver.valueOf]
    cases r.value? name <;> rfl
  rw [Operand.ofName, ofOperand, hvalue]

/-- The name of a condition names it. -/
theorem condition?_ofRegName_text (cc : Condition) :
    (ofRegName (Text.lower cc.text)).condition? = some cc := by
  cases cc <;> decide

end Arg

/-! ## Machine code -/

theorem Selection.withWord_eq_found {head : String} {v : Value} {f : Word → MachineInstr}
    (h : Selection.withWord head v f = .ok (some code)) : code = f v.toWord := by
  unfold withWord at h
  unfold Value.toWord
  cases hc : v.isConst with
  | false =>
    rw [hc] at h
    cases h
    rfl
  | true =>
    simp only [hc, Bool.not_true, Bool.false_eq_true, if_false] at h
    split at h <;> cases h
    rfl

theorem assemble_jump {name : String}
    (h : assemble r { head := "jp", operands := [.ofName name], span } = .ok code) :
    code = .jp (r.wordOf name) := by
  obtain ⟨m, args, hm, hargs, hsel⟩ := assemble_eq_ok h
  have hjp : Mnemonic.ofName? (Text.lower "jp") = some .jp := by decide
  rw [hjp] at hm
  cases hm
  obtain ⟨a, as, rfl, ha, has⟩ := Arg.ofOperands_cons_eq_ok hargs
  rw [Arg.ofOperand_name] at ha
  cases ha
  cases has
  exact Selection.withWord_eq_found hsel

theorem assemble_branch {o : Operand} {name : String}
    (h : assemble r { head := "jp", operands := [o, .ofName name], span } = .ok code) :
    ∃ cc a, code = .jpIf cc (r.wordOf name) ∧ Arg.ofOperand r (Text.lower "jp") o = .ok a ∧
      a.condition? = some cc := by
  obtain ⟨m, args, hm, hargs, hsel⟩ := assemble_eq_ok h
  have hjp : Mnemonic.ofName? (Text.lower "jp") = some .jp := by decide
  rw [hjp] at hm
  cases hm
  obtain ⟨a, as, rfl, ha, has⟩ := Arg.ofOperands_cons_eq_ok hargs
  obtain ⟨a', as', rfl, ha', has'⟩ := Arg.ofOperands_cons_eq_ok has
  rw [Arg.ofOperand_name] at ha'
  cases ha'
  cases has'
  rw [Selection.ofMnemonic, Selection.jp] at hsel
  split at hsel
  · rename_i cc hcc
    exact ⟨cc, a, Selection.withWord_eq_found hsel, ha, hcc⟩
  · cases hsel

theorem assemble_branch_text {cc : Condition} {name : String}
    (h : assemble r { head := "jp", operands := [.ofReg cc.text, .ofName name], span } =
      .ok code) : code = .jpIf cc (r.wordOf name) := by
  obtain ⟨cc', a, rfl, ha, hcc⟩ := assemble_branch h
  cases ha
  rw [Arg.condition?_ofRegName_text] at hcc
  cases hcc
  rfl

theorem assemble_compare {v : Int64}
    (h : assemble r { head := "cp", operands := [.ofNum v], span } = .ok code) :
    code = .aluImm .cp (UInt8.ofInt v.toInt) := by
  obtain ⟨m, args, hm, hargs, hsel⟩ := assemble_eq_ok h
  have hcp : Mnemonic.ofName? (Text.lower "cp") = some (.alu .cp) := by decide
  rw [hcp] at hm
  cases hm
  obtain ⟨a, as, rfl, ha, has⟩ := Arg.ofOperands_cons_eq_ok hargs
  cases ha
  cases has
  rw [Selection.ofMnemonic, Selection.alu, Selection.alu8, Selection.withImm8] at hsel
  split at hsel
  · cases hsel
  · split at hsel <;> cases hsel
    rfl

theorem assemble_ret {i : Instruction} (hhead : Text.lower i.head = "ret")
    (h : assemble r i = .ok code) :
    (i.operands = [] ∧ code = .ret) ∨
      ∃ name span cc, i.operands = [.reg name span] ∧
        (Arg.ofRegName (Text.lower name)).condition? = some cc ∧ code = .retIf cc := by
  obtain ⟨_, hform⟩ := form_of_assemble h
  have hnormal : code.form.operands = (i.operands.map (·.form r)).map (i.form r).reduceOperand := by
    rw [hform, Instruction.normal, Form.normal, Instruction.form, hhead]
    simp [Form.withoutAccumulator, Form.accumulatorHeads]
  have hcode : code.form.head = "ret" := (MachineInstr.head_of_assemble h).trans hhead
  cases code with
  | ret => exact .inl ⟨by simpa [MachineInstr.form] using hnormal, rfl⟩
  | retIf cc =>
    obtain ⟨o, hos, ho⟩ : ∃ o, i.operands = [o] ∧
        (i.form r).reduceOperand (o.form r) = .reg cc.text := by
      rcases hos : i.operands with _ | ⟨o, _ | ⟨o', os⟩⟩ <;>
        simp [hos, MachineInstr.form] at hnormal
      exact ⟨o, rfl, hnormal.symm⟩
    obtain ⟨name, span, rfl, hname⟩ := Operand.form_eq_reg (Form.reduceOperand_eq_reg ho)
    refine .inr ⟨name, span, cc, hos, ?_, rfl⟩
    rw [hname]
    cases cc <;> decide
  | alu op | rotate op | bit op | aluImm op =>
    cases op <;> simp [MachineInstr.form, Mnemonic.text] at hcode
  | plain p => cases p <;> simp [MachineInstr.form, Plain.text] at hcode
  | _ => simp [MachineInstr.form] at hcode

/-! ## Stack effects -/

namespace StackEffect

theorem of_jump (o : Operand) :
    of { head := "jp", operands := [o], span } = { terminates := true } := by
  have hlower : Text.lower "jp" = "jp" := by decide
  simp [of, hlower]

theorem of_branch (o o' : Operand) : of { head := "jp", operands := [o, o'], span } = {} := by
  have hlower : Text.lower "jp" = "jp" := by decide
  simp [of, hlower]

theorem of_compare (v : Int64) : of { head := "cp", operands := [.ofNum v], span } = {} := by
  have hlower : Text.lower "cp" = "cp" := by decide
  simp [of, hlower]

end StackEffect

end Z80Backend
