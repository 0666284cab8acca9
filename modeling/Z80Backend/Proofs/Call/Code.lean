import Z80Backend.Function.Call
import Z80Backend.Proofs.Address.Places
import Z80Backend.Proofs.Address.Steps
import Z80Backend.Proofs.Assembly.Loads
import Z80Backend.Proofs.Assembly.Symbolic
import Z80Backend.Proofs.Call.Machine
import Z80Backend.Proofs.Function.Outline

/-! # What assembled code does

    Lowering writes instructions down and the assembler reads them again.  Here
    the two are put together: what the machine does with the assembled code is
    what the written instruction means.

    A symbol in parentheses is read as a pointer if it is named like a register
    that can be one, and as a number if it is the name of a constant;
    `Resolver.IsSymbol` says that a name is neither.

    * `Expr.word` is the value of an immediate, once symbols have addresses.
    * `Step.exec_assemble`: the code of a step of address code does what the
      step does. -/

namespace Z80Backend

/-! ## Values of immediates -/

/-- The constants, and the addresses of symbols besides. -/
def Resolver.placed (r : Resolver) (σ : String → UInt16) : Resolver where
  value? name := r.value? name <|> some (Int64.ofNat (symbolAddr σ name).toNat)
  layout? := r.layout?

theorem Resolver.extends_placed (r : Resolver) (σ : String → UInt16) : r.Extends (r.placed σ) :=
  ⟨rfl, fun s v hv => by simp [placed, hv]⟩

/-- The value of an immediate, once symbols have addresses. -/
def Expr.word (r : Resolver) (σ : String → UInt16) (e : Expr) : UInt16 :=
  imm (e.constant (r.placed σ))

/-- The value of a symbol plus a constant. -/
def Value.word (σ : String → UInt16) (v : Value) : UInt16 :=
  symbolAddr σ v.symbol + imm v.addend

theorem imm_ofNat (n : Nat) : imm (Int64.ofNat n) = UInt16.ofNat n := by
  rw [← UInt16.toNat_inj]
  simp [imm, Int64.toUInt64_ofNat']

namespace Expr

variable {r : Resolver} {σ : String → UInt16}

/-- A symbol plus a constant has the address of the symbol plus the constant
    for its value. -/
theorem eval_placed_of_evalSymbolic {e : Expr} {v : Value} (h : e.evalSymbolic r = .ok v) :
    e.eval (r.placed σ) = .ok (Int64.ofNat (symbolAddr σ v.symbol).toNat + v.addend) := by
  -- the empty symbol stands for the address zero
  have hzero : ∀ n : Int64, Int64.ofNat (symbolAddr σ "").toNat + n = n := by
    intro n
    simp [symbolAddr]
  have hconst : ∀ {e : Expr} {n : Int64}, e.eval r = .ok n →
      e.eval (r.placed σ) = .ok (Int64.ofNat (symbolAddr σ "").toNat + n) := by
    intro e n hn
    rw [hzero]
    exact (r.extends_placed σ).eval hn
  induction e generalizing v with
  | name s =>
    rcases evalSymbolic_cases h with ⟨n, hn, rfl⟩ | ⟨_, hs, hnone, rfl⟩ | ⟨_, _, _, _, _, he, -⟩
    · exact hconst hn
    · cases hs
      simp [eval, Resolver.placed, hnone]
    · cases he
  | binary op x y ihx ihy =>
    rcases evalSymbolic_cases h with
      ⟨n, hn, rfl⟩ | ⟨_, hs, -⟩ | ⟨_, _, _, vx, vy, he, -, hx, hy, hv⟩
    · exact hconst hn
    · cases hs
    cases he
    rw [eval, ihx hx, ihy hy]
    -- of the two sides at most one has a symbol
    rcases Value.combine?_cases hv with ⟨rfl, hside, rfl⟩ | ⟨rfl, hside, rfl⟩ | ⟨rfl, hside, rfl⟩
    · simp only [BinaryOp.apply, hside, hzero]
      grind
    · simp only [BinaryOp.apply, hside, hzero]
      grind
    · simp only [BinaryOp.apply, hside, hzero]
      grind
  | number n | sizeof t | offsetof t path | missing | unary op x ih =>
    rcases evalSymbolic_cases h with ⟨n, hn, rfl⟩ | ⟨_, hs, -⟩ | ⟨_, _, _, _, _, he, -⟩
    · exact hconst hn
    · cases hs
    · cases he

/-- The value of an immediate is that of the symbol and the constant that it
    comes down to. -/
theorem word_of_evalSymbolic {e : Expr} {v : Value} (h : e.evalSymbolic r = .ok v) :
    e.word r σ = v.word σ := by
  rw [word, constant, eval_placed_of_evalSymbolic h]
  show imm (Int64.ofNat (symbolAddr σ v.symbol).toNat + v.addend) = v.word σ
  rw [imm_add, imm_ofNat, UInt16.ofNat_toNat]
  rfl

end Expr

/-! ## Operands -/

/-- Does the name stand for a symbol where it is written in parentheses?  It is
    then neither read as a pointer nor the name of a constant. -/
def Resolver.IsSymbol (r : Resolver) (name : String) : Prop :=
  Text.lower name ∉ MemRef.pointerNames ∧ r.value? name = none

instance (r : Resolver) (name : String) : Decidable (r.IsSymbol name) :=
  inferInstanceAs (Decidable (_ ∧ _))

namespace Arg

variable {r : Resolver} {head : String}

theorem indexReg_eq_none {name : String} (h : name ∉ ["ix", "iy"]) :
    IndexReg.ofName? name = none := by
  cases hx : IndexReg.ofName? name with
  | none => rfl
  | some x => exact absurd (text_of_indexReg hx).2 h

/-- An operand that nothing is loaded from: `(sp)`, `(c)`, or none at all. -/
def IsIdle (a : Arg) : Prop := a = .memSP ∨ a = .portC ∨ a = .other

theorem ofOperand_absolute {s : String} (hs : r.IsSymbol s) {off : Int64} {a : Arg}
    (h : ofOperand r head (.absolute s off) = .ok a) :
    a.IsIdle ∨ ∃ e, a = .memAbs { symbol := s, addend := off } e := by
  obtain ⟨hname, hvalue⟩ := hs
  have hsub : ∀ x ∈ ["ix", "iy"], x ∈ MemRef.pointerNames := by decide
  have hindex : IndexReg.ofName? (Text.lower s) = none :=
    indexReg_eq_none fun hmem => hname (hsub _ hmem)
  have hoffset : ∀ op e, ofOffset r head op s e = .ok a →
      a.IsIdle ∨ ofAddress r head (.binary op (.name s) e) = .ok a := by
    intro op e h
    simp only [ofOffset, hindex] at h
    split at h
    · cases h
      exact .inl (.inr (.inr rfl))
    · exact .inr h
  -- whatever the sign of the offset, it is the same expression that is evaluated
  have haddr : a.IsIdle ∨ ofAddress r head (.offset s off) = .ok a := by
    unfold Operand.absolute at h
    unfold Expr.offset
    by_cases hzero : off = 0
    · rw [if_pos hzero] at h ⊢
      simp only [ofOperand, ofPlace] at h
      split at h
      case h_4 =>
        cases h
        exact .inl (.inl rfl)
      case h_5 =>
        cases h
        exact .inl (.inr (.inl rfl))
      case h_6 =>
        simp only [hindex] at h
        exact .inr h
      all_goals
        rename_i heq
        exact absurd (by rw [heq]; decide) hname
    · rw [if_neg hzero] at h ⊢
      by_cases hneg : off < 0
      · rw [if_pos hneg] at h ⊢
        exact hoffset .sub _ h
      · rw [if_neg hneg] at h ⊢
        exact hoffset .add _ h
  rcases haddr with hidle | haddr
  · exact .inl hidle
  · rw [ofAddress, evalSymbolic_offset hvalue] at haddr
    cases haddr
    exact .inr ⟨_, rfl⟩

/-- Memory at a displacement from a register.  What the name says in lower case
    is the register, if any. -/
theorem ofOperand_indexed {reg : String} {d : Int64} {a : Arg}
    (h : ofOperand r head (.indexed reg d) = .ok a) :
    (∃ x, x.text = Text.lower reg ∧ -128 ≤ d ∧ d ≤ 127 ∧
      a = .cell (.indexed x (Int8.ofInt d.toInt))) ∨ a = .other ∨ ∃ v e, a = .memAbs v e := by
  have hoffset : ofOffset r head .add reg (.number d) = .ok a := h
  unfold ofOffset at hoffset
  split at hoffset
  · rename_i x hx
    have hname := (text_of_indexReg hx).1
    simp only [Expr.eval, reduceCtorEq, if_false, ofDisplacement] at hoffset
    split at hoffset
    · cases hoffset
    · rename_i hrange
      cases hoffset
      rw [not_or, Int64.not_lt, Int64.not_lt] at hrange
      exact .inl ⟨x, hname, hrange.1, hrange.2, rfl⟩
  · split at hoffset
    · cases hoffset
      exact .inr (.inl rfl)
    · unfold ofAddress at hoffset
      split at hoffset
      · cases hoffset
        exact .inr (.inr ⟨_, _, rfl⟩)
      · cases hoffset

end Arg

/-! ## Instructions -/

/-- A number and its bits agree modulo `2 ^ 16`. -/
theorem toInt_emod (n : Int64) : n.toInt % 65536 = (n.toUInt64.toNat % 65536 : Nat) := by
  have hcond := BitVec.toInt_eq_toNat_cond n.toBitVec
  have hint : n.toInt = n.toBitVec.toInt := rfl
  have hnat : n.toUInt64.toNat = n.toBitVec.toNat := rfl
  rw [hint, hnat, hcond]
  split <;> omega

theorem imm_eq_ofInt (n : Int64) : UInt16.ofInt n.toInt = imm n := by
  rw [← UInt16.toNat_inj]
  have hmod := toInt_emod n
  simp [UInt16.ofInt, imm]
  omega

theorem immByte_eq_ofInt (n : Int64) : UInt8.ofInt n.toInt = immByte n := by
  rw [← UInt8.toNat_inj]
  have hmod := toInt_emod n
  simp [UInt8.ofInt, immByte]
  omega

/-- A displacement is the same number as a byte. -/
theorem imm_displacement {d : Int64} (hlow : -128 ≤ d) (hhigh : d ≤ 127) :
    imm (Int8.ofInt d.toInt).toInt64 = imm d := by
  have hlow' : -128 ≤ d.toInt := Int64.le_iff_toInt_le.mp hlow
  have hhigh' : d.toInt ≤ 127 := Int64.le_iff_toInt_le.mp hhigh
  have hsame : (Int8.ofInt d.toInt).toInt64 = d := by
    have hbmod : d.toInt.bmod 256 = d.toInt := by
      simp only [Int.bmod]
      omega
    rw [← Int64.toInt_inj, Int8.toInt_toInt64, Int8.toInt_ofInt]
    exact hbmod
  rw [hsame]

section

variable {r : Resolver} {σ : String → UInt16} {code : MachineInstr}

theorem Selection.word_of_withWord {head : String} {v : Value} {f : Word → MachineInstr}
    (h : Selection.withWord head v f = .ok (some code)) :
    ∃ w, code = f w ∧ ∀ σ, w.value σ = v.word σ := by
  unfold Selection.withWord at h
  split at h
  · rename_i hsym
    cases h
    refine ⟨_, rfl, fun σ => ?_⟩
    have hne : v.symbol ≠ "" := by simpa [Value.isConst] using hsym
    simp [Word.value, Value.word, symbolAddr, hne]
  split at h
  · cases h
  · rename_i hconst _
    cases h
    refine ⟨_, rfl, fun σ => ?_⟩
    have hempty : v.symbol = "" := by simpa [Value.isConst] using hconst
    simp [Word.value, Value.word, symbolAddr, hempty, imm_eq_ofInt]

theorem assemble_ld_imm (dst : WordReg) {e : Expr} {span : Span}
    (h : assemble r (.of "ld" [.ofReg dst.text, .imm e span]) = .ok code) :
    ∃ w, code = .ldPairImm dst.pair w ∧ ∀ σ, w.value σ = e.word r σ := by
  obtain ⟨a, ha, hsel⟩ := assemble_ld_wordReg h
  rw [Arg.ofOperand] at ha
  split at ha
  · rename_i v hv
    cases ha
    obtain ⟨w, rfl, hw⟩ := Selection.word_of_withWord hsel
    exact ⟨w, rfl, fun σ => by rw [hw, Expr.word_of_evalSymbolic hv]⟩
  · cases ha

end

/-! ## Steps -/

namespace Core

variable (c : Core)

theorem stacked_of_ne {r : StackReg} (h : r ≠ .af) : c.stacked r = c.toCpu.stacked r := if_neg h

theorem toCpu_pop (r : StackReg) : (c.pop r).toCpu = c.toCpu.pop r := rfl

theorem pair_wordReg (r : WordReg) : c.pair r.pair = c.word r := by
  cases r <;> rfl

theorem toCpu_setPair_wordReg (r : WordReg) (v : UInt16) :
    (c.setPair r.pair v).toCpu = c.toCpu.setWord r v := by
  cases r <;> rfl

end Core

namespace Step

variable {r : Resolver} {σ : String → UInt16} {code : MachineInstr}

/-- A byte that a register points to is read from there. -/
theorem exec_loadByte {dst : Reg8} {m : MemRef} (hdst : dst ≠ .a) (hm : m.IsNear)
    (h : assemble r (loadByte dst m).instruction = .ok code) (c : Core) :
    ∃ x, code = .load dst x ∧ c.cellAddr x = m.byteAddr σ c.toCpu := by
  obtain ⟨a, ha, hsel⟩ := assemble_ld_reg8 h
  cases m with
  | symbol s off | address n => exact hm.elim
  | hl =>
    have hhl : Arg.ofOperand r "ld" (.indirect "hl") = .ok (.cell .hl) := rfl
    rw [MemRef.operand, hhl] at ha
    cases ha
    cases hsel
    exact ⟨.hl, rfl, rfl⟩
  | indexed reg d =>
    rcases Arg.ofOperand_indexed ha with ⟨x, hx, hlow, hhigh, rfl⟩ | rfl | ⟨v, e, rfl⟩
    · cases hsel
      refine ⟨_, rfl, ?_⟩
      -- the name reads as the same register to both
      have hreg : c.index x = c.indexReg reg := by
        rw [Cpu.indexReg, ← hx]
        cases x <;> rfl
      show c.index x + imm (Int8.ofInt d.toInt).toInt64 = c.indexReg reg + imm d
      rw [hreg, imm_displacement hlow hhigh]
    · cases hsel
    · simp [Selection.ldReg, hdst, Selection.declined] at hsel

theorem ofOperand_far {m : MemRef} (hm : m.IsFar r.IsSymbol) (s : Cpu) {a : Arg}
    (h : Arg.ofOperand r "ld" m.operand = .ok a) :
    a.IsIdle ∨ ∃ v e, a = .memAbs v e ∧ v.word σ = m.addr σ s := by
  cases m with
  | hl | indexed reg d => exact hm.elim
  | symbol sym off =>
    rcases Arg.ofOperand_absolute hm h with hidle | ⟨e, rfl⟩
    · exact .inl hidle
    · exact .inr ⟨_, e, rfl, rfl⟩
  | address n =>
    cases h
    refine .inr ⟨_, _, rfl, ?_⟩
    simp [Value.word, symbolAddr, MemRef.addr]

theorem exec_loadWord {dst : WordReg} {m : MemRef} (hm : m.IsFar r.IsSymbol) (s : Cpu)
    (h : assemble r (loadWord dst m).instruction = .ok code) :
    ∃ w, code = .ldPairAbs dst.pair w ∧ w.value σ = m.addr σ s := by
  obtain ⟨a, ha, hsel⟩ := assemble_ld_wordReg h
  rcases ofOperand_far (σ := σ) hm s ha with (rfl | rfl | rfl) | ⟨v, e, rfl, hv⟩
  · cases hsel
  · cases hsel
  · cases hsel
  · obtain ⟨w, rfl, hw⟩ := Selection.word_of_withWord hsel
    exact ⟨w, rfl, (hw σ).trans hv⟩

theorem exec_loadA {m : MemRef} (hm : m.IsFar r.IsSymbol) (s : Cpu)
    (h : assemble r (loadByte .a m).instruction = .ok code) :
    ∃ w, code = .ldAAbs w ∧ w.value σ = m.addr σ s := by
  obtain ⟨a, ha, hsel⟩ := assemble_ld_reg8 h
  rcases ofOperand_far (σ := σ) hm s ha with (rfl | rfl | rfl) | ⟨v, e, rfl, hv⟩
  · cases hsel
  · cases hsel
  · cases hsel
  · obtain ⟨w, rfl, hw⟩ := Selection.word_of_withWord hsel
    exact ⟨w, rfl, (hw σ).trans hv⟩

/-- The code of a step does what the step does, and pushes where it pushes. -/
theorem exec_assemble {t : Step} (ht : t.Within r.IsSymbol)
    (h : assemble r t.instruction = .ok code) (c : Core) :
    ∃ c', code.exec σ c = some c' ∧ c'.toCpu = t.exec σ c.toCpu ∧
      code.pushed c = pushed σ [t] c.toCpu := by
  cases t with
  | push reg =>
    rw [instruction, assemble_push] at h
    cases h
    refine ⟨_, rfl, ?_, rfl⟩
    rw [c.stacked_of_ne ht]
    rfl
  | pop reg =>
    rw [instruction, assemble_pop] at h
    cases h
    exact ⟨_, rfl, rfl, rfl⟩
  | ldReg dst src =>
    obtain ⟨a, ha, hsel⟩ := assemble_ld_reg8 h
    rw [Arg.ofOperand_reg8] at ha
    cases ha
    cases hsel
    exact ⟨_, rfl, rfl, rfl⟩
  | ldByte dst n =>
    obtain ⟨a, ha, hsel⟩ := assemble_ld_reg8 h
    cases ha
    simp only [Selection.ldReg, Selection.withImm8] at hsel
    split at hsel
    · cases hsel
    split at hsel
    · cases hsel
    cases hsel
    refine ⟨_, rfl, ?_, rfl⟩
    simp only [immByte_eq_ofInt]
    rfl
  | ldWord dst n =>
    obtain ⟨w, rfl, hw⟩ := assemble_ld_imm dst h
    refine ⟨_, rfl, ?_, rfl⟩
    rw [c.toCpu_setPair_wordReg, hw]
    rfl
  | ldSym dst sym off =>
    obtain ⟨w, rfl, hw⟩ := assemble_ld_imm dst h
    refine ⟨_, rfl, ?_, rfl⟩
    rw [c.toCpu_setPair_wordReg, hw, Expr.word_of_evalSymbolic (Arg.evalSymbolic_offset ht.2 off)]
    rfl
  | loadByte dst m =>
    obtain ⟨x, rfl, hx⟩ := exec_loadByte (σ := σ) ht.1 ht.2 h c
    refine ⟨_, rfl, ?_, rfl⟩
    rw [hx]
    rfl
  | loadWord dst m =>
    obtain ⟨w, rfl, hw⟩ := exec_loadWord (σ := σ) ht c.toCpu h
    refine ⟨_, rfl, ?_, rfl⟩
    rw [c.toCpu_setPair_wordReg, hw]
    rfl
  | exDEHL =>
    have hex : assemble r (.of "ex" [.ofReg "de", .ofReg "hl"]) = .ok .exDE := rfl
    rw [instruction, hex] at h
    cases h
    exact ⟨_, rfl, rfl, rfl⟩
  | addHL src =>
    have hadd : assemble r (.of "add" [.ofReg "hl", .ofReg src.text]) = .ok (.addHL src.pair) := by
      cases src <;> rfl
    rw [instruction, hadd] at h
    cases h
    refine ⟨_, rfl, ?_, rfl⟩
    rw [c.pair_wordReg]
    rfl
  | inc reg =>
    have hinc : assemble r (.of "inc" [.ofReg reg.text]) = .ok (.inc16 reg.pair) := by
      cases reg <;> rfl
    rw [instruction, hinc] at h
    cases h
    refine ⟨_, rfl, ?_, rfl⟩
    rw [c.toCpu_setPair_wordReg, c.pair_wordReg]
    rfl
  | storeByte m src | storeWord m src => exact ht.elim

end Step

/-! ## Lines -/

/-- Lines that hold the code of instructions.  Where the instructions were
    written makes no difference to their code. -/
inductive Line.Renders (r : Resolver) : List Instruction → List Line → Prop where
  | nil : Renders r [] []
  | cons {i j code is ls} (hcode : assemble r i = .ok code) (h : Renders r is ls) :
      Renders r (i :: is) (.instr j code :: ls)

namespace Line.Renders

variable {r : Resolver} {is is' : List Instruction} {ls : List Line}

/-- Instructions that are emitted without a report. -/
theorem of_silent {span : Span} {s : FnState} (h : s.Silent (s.emitAll r span is)) :
    ∃ ls, (s.emitAll r span is).lines = s.lines ++ ls ∧ Renders r is ls := by
  induction is generalizing s with
  | nil => exact ⟨[], by simp [FnState.emitAll], .nil⟩
  | cons i is ih =>
    have hfirst := FnState.extends_emit s r { i with span }
    obtain ⟨hi, his⟩ := hfirst.silent (FnState.extends_emitAll _ r span is) h
    obtain ⟨ls, hls, hrenders⟩ := ih his
    cases hcode : assemble r { i with span } with
    | error e =>
      simp only [FnState.emit, hcode] at hi
      exact absurd hi (s.not_silent_report _ _)
    | ok code =>
      refine ⟨.instr { i with span } code :: ls, ?_, .cons (assemble_span hcode) hrenders⟩
      show (FnState.emitAll r span is (s.emit r { i with span })).lines = _
      rw [hls]
      simp only [FnState.emit, hcode, List.append_assoc, List.singleton_append]

theorem of_append (h : Renders r (is ++ is') ls) :
    ∃ ms ns, ls = ms ++ ns ∧ Renders r is ms ∧ Renders r is' ns := by
  induction is generalizing ls with
  | nil => exact ⟨[], ls, rfl, .nil, h⟩
  | cons i is ih =>
    cases h with
    | cons hcode h =>
      obtain ⟨ms, ns, rfl, hms, hns⟩ := ih h
      exact ⟨_, ns, rfl, .cons hcode hms, hns⟩

/-- The line of the first instruction, and the rest. -/
theorem of_cons {i : Instruction} (h : Renders r (i :: is) ls) :
    ∃ ms ns, ls = ms ++ ns ∧ Renders r [i] ms ∧ Renders r is ns := by
  cases h with
  | cons hcode h => exact ⟨[_], _, rfl, .cons hcode .nil, h⟩

theorem of_singleton {i : Instruction} (h : Renders r [i] ls) :
    ∃ j code, ls = [.instr j code] ∧ assemble r i = .ok code := by
  cases h with
  | cons hcode h =>
    cases h
    exact ⟨_, _, rfl, hcode⟩

/-- The heads of instructions that lead nowhere else. -/
theorem not_isTransfer (h : Renders r is ls)
    (hheads : ∀ i ∈ is, Text.lower i.head ∉ ["call", "ret", "reti", "retn"]) :
    ∀ j code, .instr j code ∈ ls → ¬ code.IsTransfer := by
  induction h with
  | nil =>
    intro j code hmem
    cases hmem
  | @cons i j code is ls hcode _ ih =>
    intro j' code' hmem
    rcases List.mem_cons.mp hmem with heq | hmem
    · cases heq
      -- the head of an instruction can be read off its code
      have hform := (form_of_assemble hcode).2
      have hhead : code.form.head = Text.lower i.head := by
        rw [hform]
        rfl
      have hne := hheads i List.mem_cons_self
      rw [← hhead] at hne
      rintro (⟨t, rfl⟩ | rfl | rfl | rfl) <;> exact hne (by simp [MachineInstr.form, Plain.text])
    · exact ih (fun i hi => hheads i (List.mem_cons_of_mem _ hi)) j' code' hmem

/-- The code of steps does what the steps do, and pushes where they push. -/
theorem run_steps {steps : List Step} (h : Renders r (steps.map (·.instruction)) ls)
    (hsteps : Step.AllWithin r.IsSymbol steps) (σ : String → UInt16) (c : Core) :
    ∃ c', Line.run σ ls c = some c' ∧ c'.toCpu = Step.run σ steps c.toCpu ∧
      Line.pushed σ ls c = Step.pushed σ steps c.toCpu := by
  induction steps generalizing ls c with
  | nil =>
    cases h
    exact ⟨c, rfl, rfl, rfl⟩
  | cons t steps ih =>
    cases h with
    | @cons _ j code _ ls hcode h =>
      rw [Step.allWithin_cons] at hsteps
      obtain ⟨c₁, hexec, hc₁, hpush⟩ :=
        Step.exec_assemble (σ := σ) hsteps.1 hcode (c.skip code.bytes.length)
      obtain ⟨c', hrun, hc', hpushed⟩ := ih h hsteps.2 c₁
      rw [Core.toCpu_skip] at hc₁ hpush
      have hline : Line.exec σ c (.instr j code) = some c₁ := hexec
      have hskip : code.pushed c = code.pushed (c.skip code.bytes.length) := by
        cases code <;> rfl
      refine ⟨c', ?_, ?_, ?_⟩
      · rw [Line.run_cons, hline]
        exact hrun
      · rw [hc', hc₁, Step.run_cons]
      · simp only [Line.pushed, hline, Option.map_some, Option.getD_some, hpushed, hc₁, hskip,
          hpush]
        simp only [Step.pushed, List.append_nil]

end Line.Renders

end Z80Backend
