import Z80Backend.Assembly.Select

/-! # What the assembler selects

    An assembled instruction has a mnemonic, operands that could be read, and a
    selection (`assemble_eq_ok`).  Each group of mnemonics selects from its own
    kinds of instructions; `Selection.Yields` states a property of all that a
    group can select. -/

namespace Z80Backend

/-! ## Assembled instructions -/

/-- What is known of an instruction that was assembled. -/
theorem assemble_eq_ok {r : Resolver} {i : Instruction} {code : MachineInstr}
    (h : assemble r i = .ok code) :
    ∃ m args, Mnemonic.ofName? (Text.lower i.head) = some m ∧
      Arg.ofOperands r (Text.lower i.head) i.operands = .ok args ∧
      Selection.ofMnemonic (Text.lower i.head) args m = .ok (some code) := by
  unfold assemble at h
  dsimp only at h
  split at h
  · cases h
  · rename_i m hm
    split at h
    · cases h
    · rename_i args hargs
      split at h
      · cases h
      · rename_i code' hcode
        cases h
        exact ⟨m, args, hm, hargs, hcode⟩
      · split at h <;> cases h

/-- The parts of operands, one for each. -/
theorem Arg.ofOperands_cons_eq_ok {r : Resolver} {head : String} {o : Operand} {os : List Operand}
    {args : List Arg} (h : ofOperands r head (o :: os) = .ok args) :
    ∃ a as, args = a :: as ∧ ofOperand r head o = .ok a ∧ ofOperands r head os = .ok as := by
  rw [ofOperands] at h
  split at h
  · cases h
  · rename_i a ha
    split at h
    · cases h
    · rename_i as has
      cases h
      exact ⟨a, as, rfl, ha, has⟩

/-! ## Mnemonics -/

/-- The spelling of a mnemonic. -/
def Mnemonic.text : Mnemonic → String
  | alu .add => "add"
  | alu .adc => "adc"
  | alu .sub => "sub"
  | alu .sbc => "sbc"
  | alu .and => "and"
  | alu .xor => "xor"
  | alu .or => "or"
  | alu .cp => "cp"
  | rotate .rlc => "rlc"
  | rotate .rrc => "rrc"
  | rotate .rl => "rl"
  | rotate .rr => "rr"
  | rotate .sla => "sla"
  | rotate .sra => "sra"
  | rotate .sll => "sll"
  | rotate .srl => "srl"
  | bit .bit => "bit"
  | bit .res => "res"
  | bit .set => "set"
  | ret => "ret"
  | jp => "jp"
  | call => "call"
  | jr => "jr"
  | djnz => "djnz"
  | inc => "inc"
  | dec => "dec"
  | push => "push"
  | pop => "pop"
  | ex => "ex"
  | ld => "ld"
  | input => "in"
  | output => "out"
  | rst => "rst"
  | im => "im"
  | plain p => p.text

/-- Every mnemonic in the table has its spelling. -/
theorem Mnemonic.text_of_mem_operative : ∀ e ∈ operative, e.2.text = e.1 := by decide

/-- A mnemonic is spelled in one way. -/
theorem Mnemonic.text_of_ofName? {s : String} {m : Mnemonic} (h : ofName? s = some m) :
    m.text = s := by
  unfold ofName? at h
  split at h
  · rename_i m' hm'
    cases h
    obtain ⟨p, hp, hfst⟩ : ∃ p ∈ operative, p.1 = s ∧ p.2 = m := by
      obtain ⟨l₁, l₂, heq, _⟩ := List.lookup_eq_some_iff.mp hm'
      exact ⟨(s, m), by rw [heq]; simp, rfl, rfl⟩
    rw [← hfst.1, ← hfst.2]
    exact text_of_mem_operative p hp
  · obtain ⟨p, hp, rfl⟩ := Option.map_eq_some_iff.mp h
    have htext := List.find?_some hp
    exact beq_iff_eq.mp htext

/-! ## Selections -/

namespace Selection

/-- All that the selection can give has a property. -/
def Yields (P : MachineInstr → Prop) (sel : Selection) : Prop :=
  ∀ code, sel = .ok (some code) → P code

variable {P : MachineInstr → Prop}

theorem yields_found {m : MachineInstr} (h : P m) : Yields P (found m) := by
  intro code heq
  cases heq
  exact h

theorem yields_declined : Yields P declined := by
  intro code heq
  cases heq

theorem yields_error {e : EncodeError} : Yields P (.error e) := by
  intro code heq
  cases heq

theorem yields_ite {c : Prop} [Decidable c] {a b : Selection} (ha : Yields P a)
    (hb : Yields P b) : Yields P (if c then a else b) := by
  split
  · exact ha
  · exact hb

end Selection

end Z80Backend
