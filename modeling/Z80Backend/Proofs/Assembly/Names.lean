import Z80Backend.Address.Step
import Z80Backend.Chunk
import Z80Backend.Label
import Z80Backend.Proofs.Assembly.Reading

/-! # Names in code

    A slot of an instruction that waits for the linker waits for a symbol, and
    that symbol was written in an operand: assembling makes no names up.

    * `Operand.names`, `Instruction.names` are the names that are written.
    * `MachineInstr.symbols` are the names that the code waits for.
    * `mem_names_of_assemble`: the second are among the first.
    * `Instruction.Asks` says which generated labels the code of an instruction
      may wait for, and `Instruction.IsPlain` that it waits for none. -/

namespace Z80Backend

/-! ## Written names -/

/-- The names in an expression. -/
def Expr.names : Expr → List String
  | name s => [s]
  | unary _ x => x.names
  | binary _ x y => x.names ++ y.names
  | _ => []

/-- The names in a subscript. -/
def Subscript.names : Subscript → List String
  | const e => e.names
  | reg8 r | reg16 r => [r]
  | memIndexed r d => r :: d.names
  | memHL | missing => []

/-- The names in a place, fields apart. -/
def Place.names : Place → List String
  | name s => [s]
  | literal e => e.names
  | field b _ => b.names
  | elem b i => b.names ++ i.names
  | elemAt b p => b.names ++ p.names
  | add b off | sub b off => b.names ++ off.names
  | missing => []

/-- The names in an operand.  The name of a register counts: where an op takes
    the operand, it can come to stand in parentheses. -/
def Operand.names : Operand → List String
  | reg name _ => [name]
  | imm e _ | port e _ => e.names
  | mem p _ | place p _ => p.names
  | portC _ | missing => []

/-- The names in the operands of an instruction. -/
def Instruction.names (i : Instruction) : List String := i.operands.flatMap Operand.names

namespace Operand

@[simp] theorem names_ofReg (name : String) : (ofReg name).names = [name] := rfl

@[simp] theorem names_imm (e : Expr) (span : Span) : (imm e span).names = e.names := rfl

@[simp] theorem names_ofNum (n : Int64) : (ofNum n).names = [] := rfl

@[simp] theorem names_ofName (name : String) : (ofName name).names = [name] := rfl

@[simp] theorem names_indirect (reg : String) : (indirect reg).names = [reg] := rfl

@[simp] theorem names_indexed (reg : String) (d : Int64) : (indexed reg d).names = [reg] := rfl

@[simp] theorem names_absoluteAddr (n : Int64) : (absoluteAddr n).names = [] := rfl

@[simp] theorem names_ofSymbol (name : String) (off : Int64) :
    (ofSymbol name off).names = [name] := by
  unfold ofSymbol Expr.offset
  split
  · rfl
  split <;> rfl

@[simp] theorem names_absolute (name : String) (off : Int64) :
    (absolute name off).names = [name] := by
  unfold absolute
  split
  · rfl
  split <;> rfl

end Operand

@[simp] theorem Instruction.names_of (head : String) (os : List Operand) :
    (Instruction.of head os).names = os.flatMap Operand.names := rfl

/-! ## Symbols of forms -/

/-- The symbol of a value is a name in the expression. -/
theorem Expr.symbol_of_evalSymbolic {r : Resolver} {e : Expr} {v : Value}
    (h : e.evalSymbolic r = .ok v) : v.symbol = "" ∨ v.symbol ∈ e.names := by
  induction e generalizing v with
  | binary op x y ihx ihy =>
    rcases evalSymbolic_cases h with ⟨n, -, rfl⟩ | ⟨s, hs, -⟩ | ⟨_, _, _, vx, vy, he, -, hx, hy, hv⟩
    · exact .inl rfl
    · cases hs
    · cases he
      -- A sum has the symbol of one side, a difference that of the left one.
      rcases Value.combine?_cases hv with ⟨-, -, rfl⟩ | ⟨-, -, rfl⟩ | ⟨-, -, rfl⟩
      · exact (ihy hy).imp_right (List.mem_append_right _)
      · exact (ihx hx).imp_right (List.mem_append_left _)
      · exact (ihx hx).imp_right (List.mem_append_left _)
  | name s =>
    rcases evalSymbolic_cases h with ⟨n, -, rfl⟩ | ⟨_, hs, -, rfl⟩ | ⟨_, _, _, _, _, he, -⟩
    · exact .inl rfl
    · cases hs
      exact .inr List.mem_cons_self
    · cases he
  | number n | sizeof t | offsetof t path | missing | unary op x ih =>
    rcases evalSymbolic_cases h with ⟨n, -, rfl⟩ | ⟨_, hs, -⟩ | ⟨_, _, _, _, _, he, -⟩
    · exact .inl rfl
    · cases hs
    · cases he

theorem Expr.symbol_written (r : Resolver) (e : Expr) :
    (e.written r).symbol = "" ∨ (e.written r).symbol ∈ e.names := by
  unfold written
  cases h : e.evalSymbolic r with
  | ok v => exact symbol_of_evalSymbolic h
  | error err => exact .inl rfl

/-- The symbols in an operand of a form; a constant has the empty one. -/
def FormOperand.symbols : FormOperand → List String
  | imm v | abs v | port v => [v.symbol]
  | _ => []

/-- The symbols in a form. -/
def Form.symbols (f : Form) : List String := f.operands.flatMap FormOperand.symbols

theorem Place.symbols_form {r : Resolver} {p : Place} {x : String}
    (h : x ∈ (p.form r).symbols) : x = "" ∨ x ∈ p.names := by
  unfold Place.form at h
  split at h
  · rename_i s
    dsimp only at h
    split at h
    · simp [FormOperand.symbols] at h
    split at h
    · simp [FormOperand.symbols] at h
    split at h
    · simp [FormOperand.symbols] at h
    · rw [FormOperand.symbols, List.mem_singleton] at h
      rw [h]
      exact (Expr.name s).symbol_written r
  · rename_i e
    rw [FormOperand.symbols, List.mem_singleton] at h
    rw [h]
    exact e.symbol_written r
  · rename_i base off
    split at h
    · simp [FormOperand.symbols] at h
    · rw [FormOperand.symbols, List.mem_singleton] at h
      rw [h]
      exact (Expr.binary .add (.name base) off).symbol_written r
  · rename_i base off
    split at h
    · simp [FormOperand.symbols] at h
    · rw [FormOperand.symbols, List.mem_singleton] at h
      rw [h]
      exact (Expr.binary .sub (.name base) off).symbol_written r
  · simp [FormOperand.symbols] at h

theorem Operand.symbols_form {r : Resolver} {o : Operand} {x : String}
    (h : x ∈ (o.form r).symbols) : x = "" ∨ x ∈ o.names := by
  cases o with
  | imm e span | port e span =>
    have hx : x = (e.written r).symbol := List.mem_singleton.mp h
    rw [hx]
    exact e.symbol_written r
  | mem p span => exact Place.symbols_form h
  | reg name span | place p span | portC span | missing => cases h

/-- The symbols in the form of an instruction are names in its operands. -/
theorem Instruction.symbols_form {r : Resolver} {i : Instruction} {x : String}
    (h : x ∈ (i.form r).symbols) : x = "" ∨ x ∈ i.names := by
  obtain ⟨f, hf, hx⟩ := List.mem_flatMap.mp h
  obtain ⟨o, ho, rfl⟩ := List.mem_map.mp hf
  exact (Operand.symbols_form hx).imp_right fun hmem => List.mem_flatMap.mpr ⟨o, ho, hmem⟩

theorem Value.symbol_modulo (m : Int) (v : Value) :
    (v.modulo m).symbol = "" ∨ (v.modulo m).symbol = v.symbol := by
  unfold modulo
  split
  · exact .inl rfl
  · exact .inr rfl

theorem Form.symbols_reduceOperand {f : Form} {o : FormOperand} {x : String}
    (h : x ∈ (f.reduceOperand o).symbols) : x = "" ∨ x ∈ o.symbols := by
  have hmod : ∀ {m : Int} {v : Value}, x = (v.modulo m).symbol → x = "" ∨ x ∈ [v.symbol] := by
    intro m v hx
    rw [hx]
    exact (v.symbol_modulo m).imp_right List.mem_singleton.mpr
  unfold reduceOperand at h
  split at h
  · split at h
    · exact .inr h
    · exact hmod (List.mem_singleton.mp h)
  · split at h
    · exact hmod (List.mem_singleton.mp h)
    · exact hmod (List.mem_singleton.mp h)
  · exact hmod (List.mem_singleton.mp h)
  · exact .inr h

/-- Normal forms have no symbols of their own. -/
theorem Form.symbols_normal {f : Form} {x : String} (h : x ∈ f.normal.symbols) :
    x = "" ∨ x ∈ f.symbols := by
  obtain ⟨o', ho', hx⟩ := List.mem_flatMap.mp h
  obtain ⟨o, ho, rfl⟩ := List.mem_map.mp ho'
  have hmem : o ∈ f.operands := by
    unfold withoutAccumulator at ho
    split at ho
    · exact List.mem_of_mem_tail ho
    · exact ho
  exact (symbols_reduceOperand hx).imp_right fun hs => List.mem_flatMap.mpr ⟨o, hmem, hs⟩

/-! ## Symbols of machine code -/

/-- The symbols that the slots of an instruction wait for. -/
def MachineInstr.symbols (m : MachineInstr) : List String := m.encoding.fixups.map (·.symbol)

/-- What an instruction waits for stands in its form. -/
theorem MachineInstr.symbols_subset_form (m : MachineInstr) : m.symbols ⊆ m.form.symbols := by
  have hword : ∀ (opcode : List UInt8) (w : Word),
      (Encoding.withWord opcode w).fixups.map (·.symbol) ⊆ [(Value.ofWord w).symbol] := by
    intro opcode w
    cases w with
    | const n => exact List.nil_subset _
    | symbol s k => exact List.Subset.refl _
  cases m with
  | jp w | call w | ldAAbs w | ldAbsA w => exact hword _ w
  | jpIf cc w | callIf cc w => exact hword _ w
  | ldPairImm p w => exact hword _ w
  | ldPairAbs p w => cases p <;> exact hword _ w
  | ldAbsPair w p => cases p <;> exact hword _ w
  | ldIndexImm x w | ldIndexAbs x w => exact hword _ w
  | ldAbsIndex w x => exact hword _ w
  | jr v | djnz v => exact List.Subset.refl _
  | jrIf cc v => exact List.Subset.refl _
  | ldAControl s | ldControlA s => cases s <;> exact List.nil_subset _
  | im mode => match mode with | 0 | 1 | 2 => exact List.nil_subset _
  | _ => exact List.nil_subset _

/-- What assembled code waits for was written. -/
theorem mem_names_of_assemble {r : Resolver} {i : Instruction} {code : MachineInstr} {x : String}
    (h : assemble r i = .ok code) (hx : x ∈ code.symbols) (hne : x ≠ "") : x ∈ i.names := by
  have hform : x ∈ (i.normal r).symbols := by
    rw [← (form_of_assemble h).2]
    exact code.symbols_subset_form hx
  have hwritten := (Form.symbols_normal hform).resolve_left hne
  exact (Instruction.symbols_form hwritten).resolve_left hne

/-- A load of a byte register other than `a` waits for nothing. -/
theorem symbols_of_load {code : MachineInstr} {dst : Reg8} {o : FormOperand} (hdst : dst ≠ .a)
    (h : code.form = ⟨"ld", [.reg dst.text, o]⟩) : code.symbols = [] := by
  have hpair : ∀ p : Pair, p.text ≠ dst.text := by
    intro p
    cases p <;> cases dst <;> decide
  have hindex : ∀ x : IndexReg, x.text ≠ dst.text := by
    intro x
    cases x <;> cases dst <;> decide
  have ha : "a" ≠ dst.text := by
    cases dst with
    | a => exact absurd rfl hdst
    | b | c | d | e | h | l => decide
  cases code with
  | jp w | jpIf cc w | call w | callIf cc w | jr v | jrIf cc v | djnz v | im mode =>
    simp [MachineInstr.form] at h
  | ldAAbs w => simp [MachineInstr.form, ha] at h
  | ldPairImm p w | ldPairAbs p w => simp [MachineInstr.form, hpair p] at h
  | ldIndexImm x w | ldIndexAbs x w => simp [MachineInstr.form, hindex x] at h
  | ldAbsA w | ldAbsPair w p | ldAbsIndex w x => simp [MachineInstr.form] at h
  | ldAControl s | ldControlA s => cases s <;> rfl
  | _ => rfl

/-! ## Labels that code asks for -/

namespace Instruction

/-- The generated labels that the code of the instruction waits for are among
    those in `K`. -/
def Asks (K : String → Prop) (i : Instruction) : Prop :=
  ∀ r code, assemble r i = .ok code → ∀ x ∈ code.symbols, Label.isGenerated x = true → K x

/-- The code of the instruction waits for no generated label. -/
def IsPlain (i : Instruction) : Prop := i.Asks fun _ => False

end Instruction

/-- The position of an instruction makes no difference to its code. -/
theorem assemble_span {r : Resolver} {i : Instruction} {span : Span} {code : MachineInstr}
    (h : assemble r { i with span } = .ok code) : assemble r i = .ok code := by
  obtain ⟨m, args, hm, hargs, hsel⟩ := assemble_eq_ok h
  unfold assemble
  simp only [hm, hargs, hsel]

namespace Instruction

variable {K : String → Prop} {i : Instruction}

theorem Asks.of_names (h : ∀ x ∈ i.names, Label.isGenerated x = true → K x) : i.Asks K := by
  intro r code hcode x hx hgen
  have hne : x ≠ "" := by
    intro he
    rw [he] at hgen
    exact absurd hgen (by decide)
  exact h x (mem_names_of_assemble hcode hx hne) hgen

theorem Asks.with_span (h : i.Asks K) (span : Span) :
    Asks K { i with span } := by
  intro r code hcode
  exact h r code (assemble_span hcode)

namespace IsPlain

theorem asks (h : i.IsPlain) : i.Asks K := by
  intro r code hcode x hx hgen
  exact (h r code hcode x hx hgen).elim

theorem of_names (h : ∀ x ∈ i.names, Label.isGenerated x = false) : i.IsPlain :=
  Asks.of_names fun x hx hgen => by simp [h x hx] at hgen

/-- Whatever stands in the parentheses, a load of a register other than `a` is
    plain: where it is not memory at a register, there is no such load. -/
theorem load {dst : Reg8} (hdst : dst ≠ .a) (o : Operand) :
    (Instruction.of "ld" [.ofReg dst.text, o]).IsPlain := by
  intro r code hcode x hx _
  have hhead : Text.lower "ld" = "ld" := by decide
  have hname : Text.lower dst.text = dst.text := by cases dst <;> decide
  have hform : ((Instruction.of "ld" [.ofReg dst.text, o]).form r) =
      ⟨"ld", [.reg dst.text, o.form r]⟩ := by
    simp [Instruction.form, Instruction.of, Operand.ofReg, Operand.form, hhead, hname]
  have hkeep : Form.withoutAccumulator "ld" [.reg dst.text, o.form r] =
      [.reg dst.text, o.form r] := by
    simp [Form.withoutAccumulator, Form.accumulatorHeads]
  have hcodeForm := (form_of_assemble hcode).2
  rw [Instruction.normal, hform, Form.normal, hkeep] at hcodeForm
  rw [symbols_of_load hdst hcodeForm] at hx
  cases hx

end IsPlain

end Instruction

/-! ## Symbols of lines -/

namespace Line

/-- The symbols that a line waits for. -/
def symbols (l : Line) : List String := (l.fixupsAt 0).map (·.symbol)

/-- The symbols that code waits for. -/
def listSymbols (ls : List Line) : List String := ls.flatMap symbols

@[simp] theorem listSymbols_nil : listSymbols [] = [] := rfl

@[simp] theorem listSymbols_append (ls ms : List Line) :
    listSymbols (ls ++ ms) = listSymbols ls ++ listSymbols ms := by
  simp [listSymbols]

@[simp] theorem listSymbols_instr (i : Instruction) (code : MachineInstr) :
    listSymbols [.instr i code] = code.symbols := by
  simp [listSymbols, symbols, fixupsAt, MachineInstr.symbols, Function.comp_def]

@[simp] theorem listSymbols_label (name : String) (span : Span) :
    listSymbols [.label name span] = [] := rfl

/-- Where a line stands makes no difference to what it waits for. -/
theorem symbols_fixupsAt (pos : Nat) (l : Line) :
    (l.fixupsAt pos).map (·.symbol) = l.symbols := by
  cases l <;> simp [symbols, fixupsAt, Function.comp_def]

theorem symbols_listFixups (pos : Nat) (ls : List Line) :
    (listFixups pos ls).map (·.symbol) = listSymbols ls := by
  induction ls generalizing pos with
  | nil => rfl
  | cons l ls ih =>
    rw [listFixups, List.map_append, symbols_fixupsAt, ih]
    rfl

end Line

end Z80Backend
